import Pintos.FileSys.FileArray
import Pintos.Vm.Inode

/-!
# Two layouts, one file

A new inode of `fs_PintOS` (direct, indirect and doubly indirect pointers) and one
of `vm_PintOS` (one run of sectors) of the same length are the same array of bytes
to their callers, as long as no write goes past the length: both refine the
growable array, which does not grow then.
-/

namespace Pintos

open Lib Lib.Block

/-- A write stays inside the first `len` bytes. -/
def InRange (len : ℕ) : FileOp → Prop
  | .write data offset => offset + data.length ≤ len
  | .read _ _ => True

namespace Vm

/-- One call of `vm_PintOS`. -/
def inodeStep (p : ℕ) (fs : FsState) : FileOp → Except Fault (FileReply × FsState)
  | .write data offset => do
      let (n, fs) ← inodeWriteAt fs p (fun k => data.getD k 0) data.length offset
      return (.written n, fs)
  | .read size offset => do
      let bytes ← inodeReadAt fs p size offset
      return (.bytes bytes, fs)

/-- One call in range, in `vm_PintOS`. -/
theorem inodeStep_refines {p : ℕ} {fs : FsState} {a : List UInt8} {o : FileOp}
    (h : HoldsArray p fs a) (guard : InRange a.length o) :
    ∃ fs', inodeStep p fs o = .ok ((arrayStep a o).1, fs') ∧
      HoldsArray p fs' (arrayStep a o).2 := by
  obtain ⟨ino, hino, hdeny, run, rfl⟩ := h
  have h0 := run.len_nonneg
  rw [GrowArray.length_tabulate] at guard
  cases o with
  | write data offset =>
      unfold InRange at guard
      obtain ⟨dev', hrun, same, hbytes⟩ :=
        writeLoop_run run (fun k => data.getD k 0) data.length offset
      have hall : transferred (inodeLength ino.data) data.length offset = data.length := by
        unfold transferred
        omega
      rw [hall] at hrun hbytes
      refine ⟨fs.setDev dev', ?_, ino, hino, hdeny, ⟨h0, same.size ▸ run.inside⟩, ?_⟩
      · simp only [inodeStep, inodeWriteAt, FsState.inode_ok hino, ok_bind, hdeny, ne_eq, not_true,
          if_false, Int.toNat_natCast, hrun]
        rfl
      · have hmax : max (inodeLength ino.data) (offset + data.length) = inodeLength ino.data := by
          omega
        have key : ∀ i : ℕ, (i : ℤ) < max (inodeLength ino.data) (offset + data.length) →
            fileByte dev'.disk ino.data i =
              if offset ≤ i ∧ i < offset + data.length then data.getD (i - offset) 0
              else if (i : ℤ) < inodeLength ino.data then fileByte fs.dev.disk ino.data i else 0 := by
          intro i hi
          rw [hmax] at hi
          rw [hbytes i hi, if_pos hi]
        have := tabulate_write h0 key
        rw [hmax] at this
        exact this.symm
  | read size offset =>
      refine ⟨fs, ?_, ino, hino, hdeny, run, rfl⟩
      simp only [inodeStep, inodeReadAt, FsState.inode_ok hino, ok_bind,
        readLoop_run run size.toNat offset]
      rw [arrayStep, GrowArray.read_tabulate]
      have : transferred (inodeLength ino.data) size.toNat offset =
          min size.toNat ((inodeLength ino.data).toNat - offset) := by
        unfold transferred
        omega
      rw [this]
      rfl

end Vm

/-- A write in range does not change the length of the array. -/
theorem arrayStep_length {a : List UInt8} {o : FileOp} (h : InRange a.length o) :
    (arrayStep a o).2.length = a.length := by
  cases o with
  | write data offset =>
      unfold InRange at h
      simp only [arrayStep, GrowArray.write, List.length_map, List.length_range]
      omega
  | read size offset => rfl

/-- One call in range, in `fs_PintOS`. -/
theorem inodeStep_inRange {s p : ℕ} {fs : FsState} {a : List UInt8} {o : FileOp}
    (h : HoldsArray s p fs a) (guard : InRange a.length o) :
    ∃ fs', inodeStep p fs o = .ok ((arrayStep a o).1, fs') ∧
      HoldsArray s p fs' (arrayStep a o).2 := by
  refine inodeStep_refines h ?_
  obtain ⟨use, live, node, held, sound, hs, -, op, -, rfl⟩ := h
  obtain ⟨ino, hino, -, hdata⟩ := op.data sound.core
  obtain ⟨-, tree⟩ := sound.core.tree s hs
  have h0 := tree.len_nonneg
  have h1 := tree.len_le
  rw [GrowArray.length_tabulate] at guard
  cases o with
  | write data offset =>
      unfold InRange at guard
      have hinode : inodeData fs p = node s := by
        simp only [inodeData, hino, hdata]
      unfold ArrayCall CallOk
      rw [hinode]
      have hin : (offset : ℤ) + data.length ≤ inodeLength (node s) := by omega
      obtain ⟨hgrow, hfree⟩ := growthOk_inRange fs.dev.disk h0 h1 hin
      exact ⟨by omega, hgrow, by omega⟩
  | read size offset => exact ⟨trivial, trivial⟩

/-- **The two layouts agree.**  On consistent file systems with room, an inode of
length `len` of either kind takes every run of reads and of writes in range without
a fault, with the same replies, which are those of an array of `len` zero bytes. -/
theorem layouts_agree {fs : FsState} (consistent : Consistent fs) {vm : FsState}
    (vmConsistent : Vm.Consistent vm) {len : ℤ} (h0 : 0 ≤ len) (h1 : len ≤ 8516608)
    (free : 1 + demand (bytesToSectors len) ≤ freeSectors fs.freeMap) (isDir : Bool)
    (vmFree : ∃ r, vm.freeMap.FreeRun r (1 + Vm.bytesToSectors len)) :
    ∃ s fs1 fs2 p fs3 t vm1 vm2 q vm3,
      (freeMapAllocate fs 1 = .ok (some s, fs1) ∧ inodeCreate fs1 s len isDir = .ok (true, fs2) ∧
        inodeOpen fs2 s = .ok (p, fs3)) ∧
      (Vm.freeMapAllocate vm 1 = .ok (some t, vm1) ∧ Vm.inodeCreate vm1 t len = .ok (true, vm2) ∧
        inodeOpen vm2 t = .ok (q, vm3)) ∧
      ∀ ops : List FileOp, (∀ o ∈ ops, InRange len.toNat o) →
        ∃ fs' vm', runOps (inodeStep p) fs3 ops =
            .ok ((pureOps arrayStep (List.replicate len.toNat 0) ops).1, fs') ∧
          runOps (Vm.inodeStep q) vm3 ops =
            .ok ((pureOps arrayStep (List.replicate len.toNat 0) ops).1, vm') := by
  obtain ⟨s, fs1, fs2, p, fs3, hrun1, hrun2, hrun3, holds⟩ := consistent.newInode h0 h1 free isDir
  obtain ⟨r, hr⟩ := vmFree
  obtain ⟨t, vm1, vm2, q, vm3, hvm1, hvm2, hvm3, vmHolds⟩ := vmConsistent.newInode h0 h1 hr
  refine ⟨s, fs1, fs2, p, fs3, t, vm1, vm2, q, vm3, ⟨hrun1, hrun2, hrun3⟩, ⟨hvm1, hvm2, hvm3⟩,
    fun ops hops => ?_⟩
  have guarded : Guarded (inodeStep p) (fun _ o => InRange len.toNat o) fs3 ops :=
    Guarded.of_forall ops fs3 hops
  have vmGuarded : Guarded (Vm.inodeStep q) (fun _ o => InRange len.toNat o) vm3 ops :=
    Guarded.of_forall ops vm3 hops
  have simFs : ∀ fs a o, HoldsArray s p fs a ∧ a.length = len.toNat → InRange len.toNat o →
      ∃ fs', inodeStep p fs o = .ok ((arrayStep a o).1, fs') ∧
        HoldsArray s p fs' (arrayStep a o).2 ∧ (arrayStep a o).2.length = len.toNat := by
    rintro fs a o ⟨h, hlen⟩ guard
    rw [← hlen] at guard ⊢
    obtain ⟨fs', h1, h2⟩ := inodeStep_inRange h guard
    exact ⟨fs', h1, h2, arrayStep_length guard⟩
  have simVm : ∀ vm a o, Vm.HoldsArray q vm a ∧ a.length = len.toNat → InRange len.toNat o →
      ∃ vm', Vm.inodeStep q vm o = .ok ((arrayStep a o).1, vm') ∧
        Vm.HoldsArray q vm' (arrayStep a o).2 ∧ (arrayStep a o).2.length = len.toNat := by
    rintro vm a o ⟨h, hlen⟩ guard
    rw [← hlen] at guard ⊢
    obtain ⟨vm', h1, h2⟩ := Vm.inodeStep_refines h guard
    exact ⟨vm', h1, h2, arrayStep_length guard⟩
  obtain ⟨fs', hrunFs, -⟩ := runOps_refines simFs ops fs3 _ ⟨holds, by simp⟩ guarded
  obtain ⟨vm', hrunVm, -⟩ := runOps_refines simVm ops vm3 _ ⟨vmHolds, by simp⟩ vmGuarded
  exact ⟨fs', vm', hrunFs, hrunVm⟩

/-- Two inodes of 600 bytes on small devices: a write across a sector boundary is read
back the same. -/
theorem small_layouts_agree : ∃ fs p fs3 q vm3 fs' vm',
    filesysInit smallDevice (fun _ => false) true = .ok fs ∧
    runOps (inodeStep p) fs3 [.write [1, 2, 3] 510, .read 5 509] =
      .ok ([.written 3, .bytes [0, 1, 2, 3, 0]], fs') ∧
    runOps (Vm.inodeStep q) vm3 [.write [1, 2, 3] 510, .read 5 509] =
      .ok ([.written 3, .bytes [0, 1, 2, 3, 0]], vm') := by
  have hrun : okWith (filesysInit smallDevice (fun _ => false) true) (fun fs =>
      decide (1 + demand (bytesToSectors 600) ≤ freeSectors fs.freeMap)) = true := by
    decide +kernel
  obtain ⟨fs, hinit, hfree⟩ := okWith_iff.mp hrun
  have vmConsistent : Vm.Consistent (freeMapInit smallDevice fun _ => false) :=
    ⟨rfl, .inl rfl, fun p hp => absurd hp List.not_mem_nil⟩
  have vmFree : (freeMapInit smallDevice fun _ => false).freeMap.FreeRun 2
      (1 + Vm.bytesToSectors 600) := by
    have hcnt : 1 + Vm.bytesToSectors 600 = 3 := by decide
    rw [hcnt]
    exact ⟨by decide, by decide⟩
  obtain ⟨s, fs1, fs2, p, fs3, t, vm1, vm2, q, vm3, -, -, hops⟩ :=
    layouts_agree (.ofFormat (by decide) hinit) vmConsistent (show (0 : ℤ) ≤ 600 by omega)
      (by omega) (of_decide_eq_true hfree) false ⟨2, vmFree⟩
  obtain ⟨fs', vm', hfs, hvm⟩ := hops [.write [1, 2, 3] 510, .read 5 509] (by simp [InRange])
  have hreplies : (pureOps arrayStep (List.replicate (600 : ℤ).toNat 0)
      [.write [1, 2, 3] 510, .read 5 509]).1 = [.written 3, .bytes [0, 1, 2, 3, 0]] := by
    decide +kernel
  rw [hreplies] at hfs hvm
  exact ⟨fs, p, fs3, q, vm3, fs', vm', hinit, hfs, hvm⟩

end Pintos
