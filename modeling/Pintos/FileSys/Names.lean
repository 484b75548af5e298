import Pintos.FileSys.FileCalls
import Pintos.FileSys.Filesys

/-!
# The calls of `filesys.c` in a healthy file system

`filesys_open`, `filesys_create` and `filesys_remove` keep `FsOk`.  Opening a name
needs no condition.  Creating a file needs its sectors and room for its entry
(`CreateOk`); where not even a sector for the inode is free it fails cleanly.
Removing a name needs that it is not one of the root directory's own, and that the
release loop gets the file's sectors right if nobody has it open (`RemoveOk`).
-/

namespace Pintos

open Lib Lib.Block

/-- Entry `j` of the root directory, as it is on disk. -/
def rootEntry (fs : FsState) (j : ℕ) : DirEntry :=
  entryOf (fileByte fs.dev.disk (fs.dev.disk rootDirSector)) j

/-- The number of entries of the root directory. -/
def rootCount (fs : FsState) : ℕ := (inodeLength (fs.dev.disk rootDirSector)).toNat / 20

/-- The condition on a `filesys_create` of `size` bytes: no sector is free, or there are
enough for the inode, its data and the growth of the root directory, which has room. -/
def CreateOk (fs : FsState) (size : ℤ) : Prop :=
  freeSectors fs.freeMap = 0 ∨
    (0 ≤ size ∧ size ≤ 8516608 ∧ 1 + demand (bytesToSectors size) ≤ freeSectors fs.freeMap ∧
      DirRoom fs.dev.disk (fs.dev.disk rootDirSector)
        (freeSectors fs.freeMap - (1 + demand (bytesToSectors size))))

instance (fs : FsState) (size : ℤ) : Decidable (CreateOk fs size) :=
  inferInstanceAs (Decidable (_ ∨ _))

/-- The condition on a `filesys_remove`. -/
def RemoveOk (fs : FsState) (name : CString) : Prop :=
  name ≠ selfPath ∧ name ≠ parentPath ∧
    ∀ j < rootCount fs, Matches (rootEntry fs) name j →
      findOpen fs (rootEntry fs j).sector = none →
        ReleaseOk (TreeOk.count (fs.dev.disk (rootEntry fs j).sector))

instance (fs : FsState) (name : CString) : Decidable (RemoveOk fs name) :=
  inferInstanceAs (Decidable (_ ∧ _))

section

variable {use use' : ℕ → Option Use} {live live' : ℕ → Prop} {node node' : ℕ → Sector}
  {held : List ℕ} {ent : ℕ → DirEntry} {cnt : ℕ} {fs fs' : FsState} {s p q t : ℕ}
  {name : CString}

/-! ## Opening an inode beside others -/

/-- What `inode_open` does: one more opener, or a new inode. -/
theorem inodeOpen_cases (h : inodeOpen fs s = .ok (q, fs')) :
    (∃ ino, findOpen fs s = some q ∧ fs.inodes q = some ino ∧
      fs' = fs.setInode q { ino with openCnt := ino.openCnt + 1 }) ∨
    (findOpen fs s = none ∧ q = fs.nextAddr ∧ ∃ data, fs' = fs.pushInode s data) := by
  cases hfind : findOpen fs s with
  | some r =>
      obtain ⟨-, ino, hino, -⟩ := findOpen_some hfind
      simp only [inodeOpen, hfind, inodeReopen, FsState.inode_ok hino, ok_bind] at h
      cases h
      exact .inl ⟨ino, rfl, hino, rfl⟩
  | none =>
      simp only [inodeOpen, hfind] at h
      cases hread : blockRead fs.dev s with
      | error e => simp [hread] at h
      | ok data =>
          rw [hread, ok_bind] at h
          cases h
          exact .inr ⟨rfl, rfl, data, rfl⟩

theorem OpenAt.opens (o : OpenAt t p fs) (h : inodeOpen fs s = .ok (q, fs'))
    (heap : HeapOk live held fs) {held' : List ℕ} (heap' : HeapOk live' held' fs') :
    OpenAt t p fs' := by
  obtain ⟨ino, hino, rfl⟩ := o.isOpen
  have keep : p ∈ fs'.openInodes ∧ ∃ b, fs'.inodes p = some b ∧ b.sector = ino.sector := by
    rcases inodeOpen_cases h with ⟨a, -, ha, rfl⟩ | ⟨-, -, data, rfl⟩
    · refine ⟨o.listed, ?_⟩
      by_cases e : p = q
      · subst e
        rw [hino, Option.some.injEq] at ha
        subst ha
        exact ⟨_, Function.update_self .., rfl⟩
      · exact ⟨ino, (Function.update_of_ne e _ _).trans hino, rfl⟩
    · have e : p ≠ fs.nextAddr := fun e => lt_irrefl _ (e ▸ heap.addr p o.listed)
      exact ⟨List.mem_cons_of_mem _ o.listed, ino, (Function.update_of_ne e _ _).trans hino, rfl⟩
  obtain ⟨hp, b, hb, hsec⟩ := keep
  rw [← hsec]
  exact heap'.openAt hp hb

/-! ## Changing an entry -/

namespace RootOk

/-- An entry in use after entry `j` was written. -/
theorem entry_cases {j i : ℕ} {e : DirEntry} (hj : j ≤ cnt) (hi : i < max cnt (j + 1))
    (hu : (Function.update ent j e i).inUse = true) :
    (i = j ∧ Function.update ent j e i = e ∧ e.inUse = true) ∨
    (i < cnt ∧ i ≠ j ∧ Function.update ent j e i = ent i ∧ (ent i).inUse = true) := by
  by_cases hij : i = j
  · subst hij
    rw [Function.update_self] at hu ⊢
    exact .inl ⟨rfl, rfl, hu⟩
  · rw [Function.update_of_ne hij] at hu ⊢
    exact .inr ⟨by omega, hij, rfl, hu⟩

/-- A new entry, for a file that has none or for the root directory itself. -/
theorem add (root : RootOk live ent cnt fs) {j : ℕ} {e : DirEntry} (hj : j ≤ cnt)
    (hsec : e.sector = t) (ht : live t) (ht0 : t ≠ freeMapSector)
    (hdots : t = rootDirSector → e.name = selfPath ∨ e.name = parentPath)
    (fresh : t ≠ rootDirSector → ∀ i < cnt, (ent i).inUse = true → (ent i).sector ≠ t)
    (kept : ∀ p ∈ fs.openInodes, ∀ ino, fs.inodes p = some ino → ino.removed = true →
      ino.sector ≠ t) : RootOk live (Function.update ent j e) (max cnt (j + 1)) fs where
  entries i hi hu := by
    obtain ⟨-, h, -⟩ | ⟨h1, -, h, h2⟩ := entry_cases hj hi hu
    · rw [h, hsec]
      exact ⟨ht, ht0⟩
    · rw [h]
      exact root.entries i h1 h2
  dots i hi hu hroot := by
    obtain ⟨-, h, -⟩ | ⟨h1, -, h, h2⟩ := entry_cases hj hi hu
    · rw [h, hsec] at hroot
      rw [h]
      exact hdots hroot
    · rw [h] at hroot ⊢
      exact root.dots i h1 h2 hroot
  distinct i hi k hk hui huk hik hne := by
    obtain ⟨e1, h, -⟩ | ⟨h1, -, h, h2⟩ := entry_cases hj hi hui <;>
      obtain ⟨e2, h', -⟩ | ⟨h3, -, h', h4⟩ := entry_cases hj hk huk <;> rw [h, h'] at hik <;>
      rw [h] at hne
    · exact e1.trans e2.symm
    · exact absurd (hik.symm.trans hsec) (fresh (hsec ▸ hne) k h3 h4)
    · exact absurd (hik.trans hsec) (fresh (hik.trans hsec ▸ hne) i h1 h2)
    · exact root.distinct i h1 k h3 h2 h4 hik hne
  removed p hp ino hino hrem := by
    obtain ⟨h0, h1, h2⟩ := root.removed p hp ino hino hrem
    refine ⟨h0, h1, fun i hi hu => ?_⟩
    obtain ⟨-, h, -⟩ | ⟨h3, -, h, h4⟩ := entry_cases hj hi hu
    · rw [h, hsec]
      exact (kept p hp ino hino hrem).symm
    · rw [h]
      exact h2 i h3 h4
  writable := root.writable

/-- An entry is cleared. -/
theorem clear (root : RootOk live ent cnt fs) {j : ℕ} {e : DirEntry} (hj : j < cnt)
    (he : e.inUse = false) : RootOk live (Function.update ent j e) (max cnt (j + 1)) fs := by
  have get : ∀ i < max cnt (j + 1), (Function.update ent j e i).inUse = true →
      i < cnt ∧ Function.update ent j e i = ent i ∧ (ent i).inUse = true := by
    intro i hi hu
    obtain ⟨-, -, h⟩ | ⟨h1, -, h, h2⟩ := entry_cases hj.le hi hu
    · simp [he] at h
    · exact ⟨h1, h, h2⟩
  refine ⟨fun i hi hu => ?_, fun i hi hu hroot => ?_, fun i hi k hk hui huk hik hne => ?_,
    fun p hp ino hino hrem => ?_, root.writable⟩
  · obtain ⟨h1, h2, h3⟩ := get i hi hu
    rw [h2]
    exact root.entries i h1 h3
  · obtain ⟨h1, h2, h3⟩ := get i hi hu
    rw [h2] at hroot ⊢
    exact root.dots i h1 h3 hroot
  · obtain ⟨h1, h2, h3⟩ := get i hi hui
    obtain ⟨h4, h5, h6⟩ := get k hk huk
    rw [h2, h5] at hik
    rw [h2] at hne
    exact root.distinct i h1 k h4 h3 h6 hik hne
  · obtain ⟨h0, h1, h2⟩ := root.removed p hp ino hino hrem
    refine ⟨h0, h1, fun i hi hu => ?_⟩
    obtain ⟨h3, h4, h5⟩ := get i hi hu
    rw [h4]
    exact h2 i h3 h5

end RootOk

/-- Room in a directory depends on its own sectors only. -/
theorem DirRoom.congr {disk disk' : ℕ → Sector} {d : Sector} {free : ℕ}
    (room : DirRoom disk d free) (tree : TreeOk use disk s d)
    (keep : KeepsOwned use s disk disk') : DirRoom disk' d free := by
  rcases room with ⟨j, hj, hu⟩ | ⟨h1, h2⟩
  · refine .inl ⟨j, hj, ?_⟩
    have hbyte : fileByte disk' d (20 * j + 19) = fileByte disk d (20 * j + 19) :=
      TreeOk.fileByte_congr tree.ptrs keep (tree.present _ (by omega))
    rw [DirEntry.inUse, byteAt_entryOf (by omega)] at hu ⊢
    rwa [hbyte]
  · exact .inr ⟨h1.congr fun i => (tree.ptrs.indexAgree keep.index).present_iff i, h2⟩

namespace FsOk

theorem perm (h : FsOk use live node held ent cnt fs) {held' : List ℕ} (hp : held.Perm held') :
    FsOk use live node held' ent cnt fs :=
  ⟨⟨h.sound.core, h.sound.ready, h.sound.heap.perm hp, h.sound.synced⟩, h.mapOpen, h.rootLive,
    h.dir, h.root, h.mapPrivate⟩

/-- A step that changes the free map and the device only, and keeps the root
directory. -/
theorem mapDev (h : FsOk use live node held ent cnt fs)
    (rest : fs' = (fs.setMap fs'.freeMap).setDev fs'.dev) (sound : Sound use' live' node' held fs')
    (mono : ∀ x, live x → live' x) (hnode : node' rootDirSector = node rootDirSector)
    (keep : KeepsOwned use rootDirSector fs.dev.disk fs'.dev.disk) :
    FsOk use' live' node' held ent cnt fs' := by
  have hmap : fs'.freeMapFile = fs.freeMapFile := by
    rw [rest]
    rfl
  have hfiles : fs'.files = fs.files := by
    rw [rest]
    rfl
  refine ⟨sound, hmap ▸ h.mapOpen, mono _ h.rootLive, ?_, ?_, h.mapPrivate.congr hmap hfiles⟩
  · rw [hnode]
    exact h.dir.congr (h.sound.core.tree _ h.rootLive).2 keep
  · refine h.root.congr (.of_same ?_ ?_) fun j hj hu => mono _ (h.root.entries j hj hu).1
    · rw [rest]
      rfl
    · rw [rest]
      rfl

theorem rootEntry_eq (h : FsOk use live node held ent cnt fs) {j : ℕ} (hj : j < cnt) :
    rootEntry fs j = ent j := by
  rw [rootEntry, h.sound.synced _ h.rootLive]
  exact h.dir.entries j hj

theorem rootCount_eq (h : FsOk use live node held ent cnt fs) : rootCount fs = cnt := by
  rw [rootCount, h.sound.synced _ h.rootLive, h.dir.length]
  omega

/-- The root directory is never removed. -/
theorem root_kept (h : FsOk use live node held ent cnt fs) {ino : Inode} (hp : p ∈ fs.openInodes)
    (hino : fs.inodes p = some ino) (hsec : ino.sector = rootDirSector) : ino.removed = false := by
  by_contra hc
  exact (h.root.removed p hp ino hino (by simpa using hc)).2.1 hsec

/-- Closing an inode that is not removed. -/
theorem closeKept (h : FsOk use live node (p :: held) ent cnt fs) {ino : Inode}
    (hino : fs.inodes p = some ino) (hrem : ino.removed = false)
    (hsec : ino.sector ≠ freeMapSector) :
    ∃ fs', inodeClose fs p = .ok fs' ∧ FsOk use live node held ent cnt fs' ∧ SameFiles fs fs' ∧
      Closes fs fs' := by
  obtain ⟨fs', hrun, sound, same, closes⟩ := inodeClose_spec h.sound hino (fun _ => hrem)
    fun _ => hsec
  exact ⟨fs', hrun, h.sameFiles sound same, same, closes⟩

/-- Closing the root directory. -/
theorem closeRoot (h : FsOk use live node (p :: held) ent cnt fs) (o : OpenAt rootDirSector p fs) :
    ∃ fs', inodeClose fs p = .ok fs' ∧ FsOk use live node held ent cnt fs' ∧ SameFiles fs fs' ∧
      Closes fs fs' := by
  obtain ⟨ino, hino, hsec⟩ := o.isOpen
  refine h.closeKept hino (h.root_kept o.listed hino hsec) ?_
  rw [hsec]
  simp [rootDirSector, freeMapSector]

/-! ## Opening a file -/

/-- `filesys_open`: a new file on the inode the name leads to, or nothing; the inodes of the other files
stay where they are. -/
theorem filesysOpen_keeps (h : FsOk use live node held ent cnt fs) (name : CString) :
    (∃ i < cnt, Matches ent name i ∧ (∀ k < i, ¬ Matches ent name k) ∧ ∃ f q fs',
      filesysOpen fs name = .ok (some f, fs') ∧
      FsOk use live node held ent cnt fs' ∧ FileFrame f fs fs' ∧ fs.files f = none ∧
      fs.freeMapFile ≠ some f ∧ fs'.files f = some ⟨q, 0, false⟩ ∧ OpenAt (ent i).sector q fs' ∧
      fs'.dev = fs.dev ∧ fs'.freeMap = fs.freeMap ∧ KeptMarks fs fs' ∧ SameInodes fs fs') ∨
    ((∀ i < cnt, ¬ Matches ent name i) ∧ ∃ fs', filesysOpen fs name = .ok (none, fs') ∧
      FsOk use live node held ent cnt fs' ∧ SameFiles fs fs' ∧ SameInodes fs fs') := by
  obtain ⟨p, fs1, hrun1, h1, o1, same1⟩ := h.openInode h.rootLive
  rcases lookup_spec h1.sound.core h1.rootLive o1 h1.dir name with
    ⟨i, hi, hm, hfirst, hlook⟩ | ⟨hnone, hlook⟩
  · left
    obtain ⟨hlive, hsec0⟩ := h1.root.entries i hi hm.1
    obtain ⟨q, fs2, hrun2, h2, o2, same2⟩ := h1.openInode hlive
    have o2' := o1.opens hrun2 h1.sound.heap h2.sound.heap
    obtain ⟨fs3, hrun3, h3, same3, closes⟩ := (h2.perm (.swap ..)).closeRoot o2'
    have hq := h3.sound.heap.heldListed q List.mem_cons_self
    have o3 := o2.closes closes h3.sound.heap hq
    obtain ⟨ino, hino, hsec⟩ := o3.isOpen
    have off := (h3.offMap_iff hq hino).mpr (hsec ▸ hsec0)
    have same := (same1.trans same2).trans same3
    have hfresh : fs.files fs3.nextAddr = none := same.files ▸ h3.sound.heap.fresh_file
    refine ⟨i, hi, hm, hfirst, fs3.nextAddr, q, fs3.pushFile q, ?_, h3.pushFile off,
      ⟨same.freeMapFile, fun g hg => ?_⟩, hfresh, fun e => ?_, Function.update_self .., ?_, same.dev,
      same.freeMap, same.keptMarks, ?_⟩
    · simp only [Pintos.filesysOpen, dirLookup, hrun1, ok_bind, hlook, hrun2, pure_bind, hrun3]
      rfl
    · rw [FsState.pushFile_files, Function.update_of_ne hg, same.files]
    · obtain ⟨fm, r, hfm, map, -⟩ := h.mapFile
      obtain ⟨mf, hmf, -⟩ := map.file
      rw [hfm, Option.some.injEq] at e
      simp [e, hfresh] at hmf
    · exact ⟨o3.listed, o3.isOpen, o3.alone⟩
    · have hopen := (h.sound.heap.sameInodes_open hrun1).trans same1.files
        (h1.sound.heap.sameInodes_open hrun2)
      have hclose : SameInodes fs2 fs3 := h3.sound.heap.sameInodes_closes same3.files closes
      exact hopen.trans (same1.trans same2).files hclose
  · right
    obtain ⟨fs2, hrun2, h2, same2, closes⟩ := h1.closeRoot o1
    refine ⟨hnone, fs2, ?_, h2, same1.trans same2, (h.sound.heap.sameInodes_open hrun1).trans
      same1.files (h2.sound.heap.sameInodes_closes same2.files closes)⟩
    simp only [Pintos.filesysOpen, dirLookup, hrun1, ok_bind, hlook, pure_bind, hrun2]
    rfl

/-- **`filesys_open`**: a new file on the inode the name leads to, or nothing. -/
theorem filesysOpen (h : FsOk use live node held ent cnt fs) (name : CString) :
    (∃ i < cnt, Matches ent name i ∧ (∀ k < i, ¬ Matches ent name k) ∧ ∃ f q fs',
      filesysOpen fs name = .ok (some f, fs') ∧
      FsOk use live node held ent cnt fs' ∧ FileFrame f fs fs' ∧ fs.files f = none ∧
      fs.freeMapFile ≠ some f ∧ fs'.files f = some ⟨q, 0, false⟩ ∧ OpenAt (ent i).sector q fs' ∧
      fs'.dev = fs.dev ∧ fs'.freeMap = fs.freeMap ∧ KeptMarks fs fs') ∨
    ((∀ i < cnt, ¬ Matches ent name i) ∧ ∃ fs', filesysOpen fs name = .ok (none, fs') ∧
      FsOk use live node held ent cnt fs' ∧ SameFiles fs fs') := by
  rcases h.filesysOpen_keeps name with
    ⟨i, hi, hm, hfirst, f, q, fs', hrun, h', frame, hnew, hmap, hf, o, hdev, hfree, kept, -⟩ |
    ⟨hnone, fs', hrun, h', same, -⟩
  · exact .inl ⟨i, hi, hm, hfirst, f, q, fs', hrun, h', frame, hnew, hmap, hf, o, hdev, hfree, kept⟩
  · exact .inr ⟨hnone, fs', hrun, h', same⟩

end FsOk

end

end Pintos
