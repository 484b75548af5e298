import Pintos.Lib.GrowArray
import Pintos.Lib.Runs
import Pintos.FileSys.Format

/-!
# A file is a growable array

The abstract model of an inode is a growable array of bytes (`Lib.GrowArray`).
`inodeStep` is one `inode_write_at` or `inode_read_at`, `arrayStep` the same call
on the array.  Where every write meets `GrowthOk`, a run of calls on a new inode
gives the replies of the array and leaves the inode with its contents
(`inode_refines_growArray`).
-/

namespace Pintos

open Lib Lib.Block

/-- A call on an open inode. -/
inductive FileOp where
  | write (data : List UInt8) (offset : ℕ)
  | read (size : ℤ) (offset : ℕ)

/-- What a call returns: the number of bytes written, or the bytes read. -/
inductive FileReply where
  | written (n : ℤ)
  | bytes (data : List UInt8)
deriving DecidableEq

/-- One call of `inode_write_at` or `inode_read_at` on the inode at `p`. -/
def inodeStep (p : ℕ) (fs : FsState) : FileOp → Except Fault (FileReply × FsState)
  | .write data offset => do
      let (n, fs) ← inodeWriteAt fs p (fun k => data.getD k 0) data.length offset
      return (.written n, fs)
  | .read size offset => do
      let bytes ← inodeReadAt fs p size offset
      return (.bytes bytes, fs)

/-- The same call on a growable array. -/
def arrayStep (a : List UInt8) : FileOp → FileReply × List UInt8
  | .write data offset => (.written data.length, GrowArray.write 0 a data offset)
  | .read size offset => (.bytes (GrowArray.read a size.toNat offset), a)

/-- The contents of the inode at `p`: the bytes its pointers lead to, as many as
its length says. -/
def contents (fs : FsState) (p : ℕ) : List UInt8 :=
  match fs.inodes p with
  | some ino => GrowArray.tabulate (inodeLength ino.data).toNat (fileByte fs.dev.disk ino.data)
  | none => []

/-- The data of the inode at `p`. -/
def inodeData (fs : FsState) (p : ℕ) : Sector :=
  match fs.inodes p with
  | some ino => ino.data
  | none => zeros

/-- The calls of the array interface: a write ends inside the largest file. -/
def ArrayCall : FileOp → Prop
  | .write data offset => offset + data.length ≤ 8516608
  | .read _ _ => True

instance : (o : FileOp) → Decidable (ArrayCall o)
  | .write data offset => inferInstanceAs (Decidable (offset + data.length ≤ 8516608))
  | .read _ _ => inferInstanceAs (Decidable True)

/-- The condition on a call in a state: a write meets `GrowthOk` and finds the
sectors it needs. -/
def CallOk (p : ℕ) (fs : FsState) : FileOp → Prop
  | .write data offset => GrowthOk fs.dev.disk (inodeData fs p) data.length offset ∧
      growthDemand (inodeData fs p) data.length offset ≤ freeSectors fs.freeMap
  | .read _ _ => True

instance (p : ℕ) (fs : FsState) : (o : FileOp) → Decidable (CallOk p fs o)
  | .write _ _ => inferInstanceAs (Decidable (_ ∧ _))
  | .read _ _ => inferInstanceAs (Decidable True)

/-- A state of the file system that some assignment of purposes makes sound. -/
def Consistent (fs : FsState) : Prop := ∃ use live node held, Sound use live node held fs

/-- The inode at sector `s` is open at `p`, writable, and holds the array `a`. -/
def HoldsArray (s p : ℕ) (fs : FsState) (a : List UInt8) : Prop :=
  ∃ use live node held, Sound use live node held fs ∧ live s ∧ s ≠ freeMapSector ∧
    OpenAt s p fs ∧ (∀ ino, fs.inodes p = some ino → ino.denyWriteCnt = 0) ∧
    a = GrowArray.tabulate (inodeLength (node s)).toNat (fileByte fs.dev.disk (node s))

section

variable {s p : ℕ} {fs : FsState} {a : List UInt8}

theorem HoldsArray.contents (h : HoldsArray s p fs a) : contents fs p = a := by
  obtain ⟨use, live, node, held, sound, hs, -, o, -, rfl⟩ := h
  obtain ⟨ino, hino, -, hdata⟩ := o.data sound.core
  simp only [Pintos.contents, hino, hdata]

/-- The bytes after a write, as a growable array. -/
theorem tabulate_write {len : ℤ} {f g : ℕ → UInt8} {data : List UInt8} {offset : ℕ}
    (h0 : 0 ≤ len)
    (h : ∀ i : ℕ, (i : ℤ) < max len (offset + data.length) → g i =
      if offset ≤ i ∧ i < offset + data.length then data.getD (i - offset) 0
      else if (i : ℤ) < len then f i else 0) :
    GrowArray.tabulate (max len (offset + data.length)).toNat g =
      GrowArray.write 0 (GrowArray.tabulate len.toNat f) data offset := by
  rw [GrowArray.write_tabulate, show (max len (offset + data.length)).toNat =
    max len.toNat (offset + data.length) by omega]
  refine GrowArray.tabulate_congr fun i hi => ?_
  rw [h i (by omega)]
  have : (i : ℤ) < len ↔ i < len.toNat := by omega
  simp only [this]

/-- **One call.** -/
theorem inodeStep_refines {o : FileOp} (h : HoldsArray s p fs a)
    (guard : ArrayCall o ∧ CallOk p fs o) :
    ∃ fs', inodeStep p fs o = .ok ((arrayStep a o).1, fs') ∧ HoldsArray s p fs' (arrayStep a o).2 := by
  obtain ⟨use, live, node, held, sound, hs, hne, op, deny, rfl⟩ := h
  obtain ⟨ino, hino, hsec, hdata⟩ := op.data sound.core
  obtain ⟨-, tree⟩ := sound.core.tree s hs
  have h0 := tree.len_nonneg
  cases o with
  | write data offset =>
      obtain ⟨hmax, hgrow, hfree⟩ := guard
      unfold ArrayCall at hmax
      have hinode : inodeData fs p = node s := by
        simp only [inodeData, hino, hdata]
      rw [hinode] at hgrow hfree
      obtain ⟨use', node', fs', moved, hmoved, hrun, g, hlen, hsync, hbytes⟩ :=
        inodeWriteAt_spec sound.core sound.ready hs hne op deny (fun k => data.getD k 0) hgrow hfree
      have hgrown : grownLength (inodeLength (node s)) data.length offset =
          max (inodeLength (node s)) (offset + data.length) := by
        rw [grownLength, wrap32_of_range (by omega) (by omega)]
      have hall : moved = data.length := by
        rw [hmoved, hgrown, transferred]
        omega
      rw [hlen, hgrown, hall] at hbytes
      refine ⟨fs', ?_, use', live, node', held, sound.grow op g hsync, hs, hne, g.openAt op, ?_, ?_⟩
      · simp only [inodeStep, hrun, ok_bind, hall]
        rfl
      · intro ino' hino'
        rw [g.inode hino, Option.some.injEq] at hino'
        rw [← hino']
        exact deny ino hino
      · rw [hlen, hgrown]
        exact (tabulate_write h0 hbytes).symm
  | read size offset =>
      refine ⟨fs, ?_, use, live, node, held, sound, hs, hne, op, deny, rfl⟩
      simp only [inodeStep, inodeReadAt_spec sound.core hs op, ok_bind]
      rw [arrayStep, GrowArray.read_tabulate]
      have : transferred (inodeLength (node s)) size.toNat offset =
          min size.toNat ((inodeLength (node s)).toNat - offset) := by
        unfold transferred
        omega
      rw [this]
      rfl

/-- A new inode is an array of zeros. -/
theorem Consistent.newInode (consistent : Consistent fs) {len : ℤ} (h0 : 0 ≤ len)
    (h1 : len ≤ 8516608) (free : 1 + demand (bytesToSectors len) ≤ freeSectors fs.freeMap)
    (isDir : Bool) :
    ∃ s fs1 fs2 p fs3, freeMapAllocate fs 1 = .ok (some s, fs1) ∧
      inodeCreate fs1 s len isDir = .ok (true, fs2) ∧ inodeOpen fs2 s = .ok (p, fs3) ∧
      HoldsArray s p fs3 (List.replicate len.toNat 0) := by
  obtain ⟨use, live, node, held, sound⟩ := consistent
  obtain ⟨s, fs1, fs2, p, fs3, use', live', d, node', hrun1, hrun2, hrun3, sound3, hs, hne, o,
    hino, hnode, hlen, hzero⟩ := sound.newInode h0 h1 free isDir
  refine ⟨s, fs1, fs2, p, fs3, hrun1, hrun2, hrun3, use', live', node', p :: held, sound3, hs, hne,
    o, fun ino h => ?_, ?_⟩
  · rw [hino, Option.some.injEq] at h
    rw [← h]
  · rw [hnode, hlen, ← GrowArray.tabulate_const]
    exact GrowArray.tabulate_congr fun i hi => (hzero i (by omega)).symm

end

/-- **An inode behaves as a growable array.**  In a consistent file system with
enough free sectors, a new inode of any length takes every run of writes and reads
whose writes meet `CallOk`: no call fails, every reply is the array's, and the
inode ends with the array's contents. -/
theorem inode_refines_growArray {fs : FsState} (consistent : Consistent fs) {len : ℤ}
    (h0 : 0 ≤ len) (h1 : len ≤ 8516608)
    (free : 1 + demand (bytesToSectors len) ≤ freeSectors fs.freeMap) (isDir : Bool) :
    ∃ s fs1 fs2 p fs3, freeMapAllocate fs 1 = .ok (some s, fs1) ∧
      inodeCreate fs1 s len isDir = .ok (true, fs2) ∧ inodeOpen fs2 s = .ok (p, fs3) ∧
      ∀ ops : List FileOp,
        Guarded (inodeStep p) (fun fs o => ArrayCall o ∧ CallOk p fs o) fs3 ops →
        ∃ fs', runOps (inodeStep p) fs3 ops =
            .ok ((pureOps arrayStep (List.replicate len.toNat 0) ops).1, fs') ∧
          contents fs' p = (pureOps arrayStep (List.replicate len.toNat 0) ops).2 := by
  obtain ⟨s, fs1, fs2, p, fs3, hrun1, hrun2, hrun3, holds⟩ :=
    consistent.newInode h0 h1 free isDir
  refine ⟨s, fs1, fs2, p, fs3, hrun1, hrun2, hrun3, fun ops guarded => ?_⟩
  have sim : ∀ fs a o, HoldsArray s p fs a → ArrayCall o ∧ CallOk p fs o →
      ∃ fs', inodeStep p fs o = .ok ((arrayStep a o).1, fs') ∧
        HoldsArray s p fs' (arrayStep a o).2 := fun _ _ _ h guard => inodeStep_refines h guard
  obtain ⟨fs', hrun, h⟩ := runOps_refines sim ops fs3 _ holds guarded
  exact ⟨fs', hrun, h.contents⟩

/-- A formatted device is consistent. -/
theorem Consistent.ofFormat {dev : Device} (ok : FormatOk dev) {junk : ℕ → Bool} {fs : FsState}
    (hinit : filesysInit dev junk true = .ok fs) : Consistent fs := by
  obtain ⟨fs', use, live, node, ent, cnt, hrun, h⟩ := filesysInit_format ok junk
  rw [hinit, Except.ok.injEq] at hrun
  exact ⟨use, live, node, [], hrun ▸ h.sound⟩

/-- The first new inode of a small device, of 600 bytes, is written past its end and
read across it. -/
theorem small_inode_refines_growArray : ∃ fs s fs1 fs2 p fs3 fs',
    filesysInit smallDevice (fun _ => false) true = .ok fs ∧
    freeMapAllocate fs 1 = .ok (some s, fs1) ∧ inodeCreate fs1 s 600 false = .ok (true, fs2) ∧
    inodeOpen fs2 s = .ok (p, fs3) ∧
    runOps (inodeStep p) fs3 [.write [1, 2, 3] 700, .read 10 698] =
      .ok ((pureOps arrayStep (List.replicate 600 0) [.write [1, 2, 3] 700, .read 10 698]).1, fs') ∧
    contents fs' p =
      (pureOps arrayStep (List.replicate 600 0) [.write [1, 2, 3] 700, .read 10 698]).2 := by
  have hrun : okWith (filesysInit smallDevice (fun _ => false) true) (fun fs =>
      decide (1 + demand (bytesToSectors 600) ≤ freeSectors fs.freeMap) &&
        okWith (freeMapAllocate fs 1) fun a => a.1.any fun s =>
          okWith (inodeCreate a.2 s 600 false) fun c =>
            okWith (inodeOpen c.2 s) fun o =>
              decide (Guarded (inodeStep o.1) (fun fs op => ArrayCall op ∧ CallOk o.1 fs op) o.2
                [.write [1, 2, 3] 700, .read 10 698])) = true := by
    decide +kernel
  obtain ⟨fs, hinit, hrun⟩ := okWith_iff.mp hrun
  rw [Bool.and_eq_true, decide_eq_true_eq] at hrun
  have consistent : Consistent fs := .ofFormat (by decide) hinit
  obtain ⟨s, fs1, fs2, p, fs3, hrun1, hrun2, hrun3, hops⟩ :=
    inode_refines_growArray consistent (show (0 : ℤ) ≤ 600 by omega) (by omega) hrun.1 false
  have guarded := hrun.2
  simp only [hrun1, okWith, Option.any_some, hrun2, hrun3, decide_eq_true_eq] at guarded
  obtain ⟨fs', hreplies, hcontents⟩ := hops _ guarded
  exact ⟨fs, s, fs1, fs2, p, fs3, fs', hinit, hrun1, hrun2, hrun3, hreplies, hcontents⟩

/-- The sectors of a file that ends where the write ends are free. -/
def RoomFor (fs : FsState) : FileOp → Prop
  | .write data offset => demand (bytesToSectors (offset + data.length)) ≤ freeSectors fs.freeMap
  | .read _ _ => True

instance (fs : FsState) : (o : FileOp) → Decidable (RoomFor fs o)
  | .write data offset => inferInstanceAs
      (Decidable (demand (bytesToSectors (offset + data.length)) ≤ freeSectors fs.freeMap))
  | .read _ _ => inferInstanceAs (Decidable True)

/-- Without `CallOk` it is not one, free sectors or not: an empty file that is written
at offset 8 shows bytes of the free map's inode in the gap. -/
theorem empty_inode_grows_wrong : ¬ ∀ (fs : FsState) (len : ℤ) (isDir : Bool)
    (s p : ℕ) (fs1 fs2 fs3 : FsState) (ops : List FileOp), Consistent fs → 0 ≤ len → len ≤ 8516608 →
    freeMapAllocate fs 1 = .ok (some s, fs1) → inodeCreate fs1 s len isDir = .ok (true, fs2) →
    inodeOpen fs2 s = .ok (p, fs3) →
    Guarded (inodeStep p) (fun fs o => ArrayCall o ∧ RoomFor fs o) fs3 ops →
    ∃ fs', runOps (inodeStep p) fs3 ops =
        .ok ((pureOps arrayStep (List.replicate len.toNat 0) ops).1, fs') ∧
      contents fs' p = (pureOps arrayStep (List.replicate len.toNat 0) ops).2 := by
  intro claim
  have hrun : okWith (filesysInit smallDevice (fun _ => false) true) (fun fs =>
      okWith (freeMapAllocate fs 1) fun a => a.1.any fun s =>
        okWith (inodeCreate a.2 s 0 false) fun c => c.1 &&
          okWith (inodeOpen c.2 s) fun o =>
            decide (Guarded (inodeStep o.1) (fun fs op => ArrayCall op ∧ RoomFor fs op) o.2
              [.write [7] 8, .read 1 0]) &&
            okWith (runOps (inodeStep o.1) o.2 [.write [7] 8, .read 1 0]) fun r =>
              decide (r.1 = [.written 1, .bytes [4]])) = true := by
    decide +kernel
  obtain ⟨fs, hinit, hrun⟩ := okWith_iff.mp hrun
  obtain ⟨⟨t, fs1⟩, hrun1, hrun⟩ := okWith_iff.mp hrun
  obtain ⟨s, rfl, hrun⟩ := (Option.any_eq_true _ _).mp hrun
  obtain ⟨⟨success, fs2⟩, hrun2, hrun⟩ := okWith_iff.mp hrun
  rw [Bool.and_eq_true] at hrun
  obtain ⟨rfl, hrun⟩ := hrun
  obtain ⟨⟨p, fs3⟩, hrun3, hrun⟩ := okWith_iff.mp hrun
  rw [Bool.and_eq_true, decide_eq_true_eq] at hrun
  obtain ⟨⟨replies, fs4⟩, hrun4, hreplies⟩ := okWith_iff.mp hrun.2
  obtain ⟨fs', hclaim, -⟩ := claim fs 0 false s p fs1 fs2 fs3 _ (.ofFormat (by decide) hinit)
    le_rfl (by omega) hrun1 hrun2 hrun3 hrun.1
  have e : replies = [.written 1, .bytes [4]] := of_decide_eq_true hreplies
  rw [hrun4, Except.ok.injEq, Prod.mk.injEq, e] at hclaim
  exact absurd hclaim.1 (by decide)

end Pintos
