import Pintos.FileSys.File
import Pintos.FileSys.Write

/-!
# Open inodes and open files

`HeapOk` is the invariant of the in-memory objects: every listed inode is
allocated, for a live sector, and is the only one for it; every open file has its
inode on the list; and the reference counts cover the openers.  The openers of an
inode are the open files on it and the pointers the running code holds itself
(`held`): a `struct dir` or the result of an `inode_open` that is not closed yet.

The counts are bounds, not equations: an inode is freed when its count reaches
zero, and what matters is that no opener is left then.  A listed inode counts at
least one.
-/

namespace Pintos

open Lib Lib.Block

/-- The open files on the inode at `p`. -/
def filesOn (fs : FsState) (p : ℕ) : Finset ℕ :=
  (Finset.range fs.nextAddr).filter fun f => ∃ file ∈ fs.files f, file.inode = p

/-- The open files that deny writes to the inode at `p`. -/
def deniersOn (fs : FsState) (p : ℕ) : Finset ℕ :=
  (Finset.range fs.nextAddr).filter fun f => ∃ file ∈ fs.files f, file.inode = p ∧ file.denyWrite

/-- The invariant of the open inodes and files. -/
structure HeapOk (live : ℕ → Prop) (held : List ℕ) (fs : FsState) : Prop where
  nodup : fs.openInodes.Nodup
  addr : ∀ p ∈ fs.openInodes, p < fs.nextAddr
  listed : ∀ p ∈ fs.openInodes, ∃ ino, fs.inodes p = some ino ∧ live ino.sector
  unique : ∀ p ∈ fs.openInodes, ∀ q ∈ fs.openInodes, ∀ a b, fs.inodes p = some a →
    fs.inodes q = some b → a.sector = b.sector → p = q
  file : ∀ f file, fs.files f = some file → f < fs.nextAddr ∧ file.inode ∈ fs.openInodes
  heldListed : ∀ p ∈ held, p ∈ fs.openInodes
  refs : ∀ p ∈ fs.openInodes, ∀ ino, fs.inodes p = some ino →
    (max 1 ((filesOn fs p).card + held.count p) : ℕ) ≤ ino.openCnt
  deny : ∀ p ∈ fs.openInodes, ∀ ino, fs.inodes p = some ino →
    ino.denyWriteCnt = (deniersOn fs p).card

theorem mem_filesOn {fs : FsState} {p f : ℕ} :
    f ∈ filesOn fs p ↔ f < fs.nextAddr ∧ ∃ file, fs.files f = some file ∧ file.inode = p := by
  simp [filesOn]

theorem mem_deniersOn {fs : FsState} {p f : ℕ} : f ∈ deniersOn fs p ↔
    f < fs.nextAddr ∧ ∃ file, fs.files f = some file ∧ file.inode = p ∧ file.denyWrite = true := by
  simp [deniersOn]

theorem deniersOn_subset (fs : FsState) (p : ℕ) : deniersOn fs p ⊆ filesOn fs p := by
  intro f
  rw [mem_deniersOn, mem_filesOn]
  rintro ⟨h1, file, h2, h3, -⟩
  exact ⟨h1, file, h2, h3⟩

/-- Two states with the same open inodes and files. -/
structure SameHeap (fs fs' : FsState) : Prop where
  inodes : fs'.inodes = fs.inodes
  files : fs'.files = fs.files
  openInodes : fs'.openInodes = fs.openInodes
  nextAddr : fs'.nextAddr = fs.nextAddr

section

variable {use use' : ℕ → Option Use} {live live' : ℕ → Prop} {node node' : ℕ → Sector}
  {fs fs' : FsState} {s p : ℕ} {held : List ℕ}

theorem SameHeap.filesOn (h : SameHeap fs fs') (p : ℕ) : filesOn fs' p = filesOn fs p := by
  unfold Pintos.filesOn
  rw [h.nextAddr, h.files]

theorem SameHeap.deniersOn (h : SameHeap fs fs') (p : ℕ) : deniersOn fs' p = deniersOn fs p := by
  unfold Pintos.deniersOn
  rw [h.nextAddr, h.files]

theorem Created.sameHeap {d : Sector} (h : Created use use' live node s d fs fs') :
    SameHeap fs fs' := by
  rw [h.rest]
  exact ⟨rfl, rfl, rfl, rfl⟩

namespace HeapOk

/-- The order in which the running code took its pointers does not matter. -/
theorem perm (h : HeapOk live held fs) {held' : List ℕ} (hp : held.Perm held') :
    HeapOk live held' fs where
  nodup := h.nodup
  addr := h.addr
  listed := h.listed
  unique := h.unique
  file := h.file
  heldListed q hq := h.heldListed q (hp.mem_iff.mpr hq)
  refs q hq ino hino := by
    rw [← hp.count_eq]
    exact h.refs q hq ino hino
  deny := h.deny

theorem sameHeap (h : HeapOk live held fs) (same : SameHeap fs fs')
    (mono : ∀ x, live x → live' x) : HeapOk live' held fs' where
  nodup := same.openInodes ▸ h.nodup
  addr := by
    rw [same.openInodes, same.nextAddr]
    exact h.addr
  listed p hp := by
    rw [same.openInodes] at hp
    rw [same.inodes]
    obtain ⟨ino, h1, h2⟩ := h.listed p hp
    exact ⟨ino, h1, mono _ h2⟩
  unique := by
    rw [same.openInodes, same.inodes]
    exact h.unique
  file := by
    rw [same.openInodes, same.nextAddr, same.files]
    exact h.file
  heldListed := by
    rw [same.openInodes]
    exact h.heldListed
  refs p := by
    rw [same.openInodes, same.inodes, same.filesOn]
    exact h.refs p
  deny p := by
    rw [same.openInodes, same.inodes, same.deniersOn]
    exact h.deny p

/-- A listed inode is open at one place. -/
theorem openAt (h : HeapOk live held fs) {ino : Inode} (hp : p ∈ fs.openInodes)
    (hino : fs.inodes p = some ino) : OpenAt ino.sector p fs :=
  ⟨hp, ⟨ino, hino, rfl⟩, fun q hq b hb e => h.unique q hq p hp b ino hb hino e⟩

theorem fresh_file (h : HeapOk live held fs) : fs.files fs.nextAddr = none := by
  cases e : fs.files fs.nextAddr with
  | none => rfl
  | some file => exact absurd (h.file _ _ e).1 (lt_irrefl _)

/-- Storing through the pointer to a listed inode, its sector unchanged. -/
theorem setInode (h : HeapOk live held fs) (held' : List ℕ) {ino : Inode} (ino' : Inode)
    (hp : p ∈ fs.openInodes) (hino : fs.inodes p = some ino) (hsec : ino'.sector = ino.sector)
    (hheld : ∀ q ∈ held', q = p ∨ q ∈ held)
    (hcount : ∀ q, q ≠ p → held'.count q = held.count q)
    (hrefs : (max 1 ((filesOn fs p).card + held'.count p) : ℕ) ≤ ino'.openCnt)
    (hdeny : ino'.denyWriteCnt = (deniersOn fs p).card) :
    HeapOk live held' (fs.setInode p ino') := by
  have get : ∀ q a, (fs.setInode p ino').inodes q = some a →
      (q = p ∧ a = ino') ∨ (q ≠ p ∧ fs.inodes q = some a) := by
    intro q a hq
    by_cases e : q = p
    · subst e
      simp only [FsState.setInode_inodes, Function.update_self, Option.some.injEq] at hq
      exact .inl ⟨rfl, hq.symm⟩
    · simp only [FsState.setInode_inodes, Function.update_of_ne e] at hq
      exact .inr ⟨e, hq⟩
  have getSec : ∀ q a, (fs.setInode p ino').inodes q = some a →
      ∃ b, fs.inodes q = some b ∧ b.sector = a.sector := by
    intro q a hq
    rcases get q a hq with ⟨rfl, rfl⟩ | ⟨-, h1⟩
    · exact ⟨ino, hino, hsec.symm⟩
    · exact ⟨a, h1, rfl⟩
  refine ⟨h.nodup, h.addr, fun q hq => ?_, fun q hq r hr a b ha hb e => ?_, h.file, fun q hq => ?_,
    fun q hq a ha => ?_, fun q hq a ha => ?_⟩
  · obtain ⟨a, h1, h2⟩ := h.listed q hq
    by_cases e : q = p
    · subst e
      rw [hino, Option.some.injEq] at h1
      subst h1
      exact ⟨ino', by simp, hsec ▸ h2⟩
    · exact ⟨a, by simpa [Function.update_of_ne e] using h1, h2⟩
  · obtain ⟨a', ha', e1⟩ := getSec q a ha
    obtain ⟨b', hb', e2⟩ := getSec r b hb
    exact h.unique q hq r hr a' b' ha' hb' (e1.trans (e.trans e2.symm))
  · rcases hheld q hq with rfl | h1
    · exact hp
    · exact h.heldListed q h1
  · rcases get q a ha with ⟨rfl, rfl⟩ | ⟨hne, h1⟩
    · exact hrefs
    · rw [hcount q hne]
      exact h.refs q hq a h1
  · rcases get q a ha with ⟨rfl, rfl⟩ | ⟨hne, h1⟩
    · exact hdeny
    · exact h.deny q hq a h1

/-- Changing an inode's contents or its mark. -/
theorem setInode_same (h : HeapOk live held fs) {ino ino' : Inode} (hp : p ∈ fs.openInodes)
    (hino : fs.inodes p = some ino) (hsec : ino'.sector = ino.sector)
    (hcnt : ino'.openCnt = ino.openCnt) (hdeny : ino'.denyWriteCnt = ino.denyWriteCnt) :
    HeapOk live held (fs.setInode p ino') :=
  h.setInode held ino' hp hino hsec (fun _ hq => .inr hq) (fun _ _ => rfl) (hcnt ▸ h.refs p hp ino hino)
    (hdeny ▸ h.deny p hp ino hino)

/-- Allocating an inode for a live sector that is not open. -/
theorem pushInode (h : HeapOk live held fs) (hs : live s)
    (closed : ∀ p ∈ fs.openInodes, ∀ ino, fs.inodes p = some ino → ino.sector ≠ s) (d : Sector) :
    HeapOk live (fs.nextAddr :: held) (fs.pushInode s d) := by
  have hnot : fs.nextAddr ∉ fs.openInodes := fun hm => lt_irrefl _ (h.addr _ hm)
  have old : ∀ q ∈ fs.openInodes, (fs.pushInode s d).inodes q = fs.inodes q := by
    intro q hq
    have hne : q ≠ fs.nextAddr := fun e => hnot (e ▸ hq)
    exact Function.update_of_ne hne _ _
  have files : ∀ q, filesOn (fs.pushInode s d) q = filesOn fs q := by
    intro q
    ext f
    simp only [mem_filesOn, FsState.pushInode_files, FsState.pushInode_nextAddr]
    refine ⟨fun ⟨_, file, h1, h2⟩ => ⟨(h.file f file h1).1, file, h1, h2⟩, fun ⟨h1, h2⟩ =>
      ⟨by omega, h2⟩⟩
  have deniers : ∀ q, deniersOn (fs.pushInode s d) q = deniersOn fs q := by
    intro q
    ext f
    simp only [mem_deniersOn, FsState.pushInode_files, FsState.pushInode_nextAddr]
    refine ⟨fun ⟨_, file, h1, h2⟩ => ⟨(h.file f file h1).1, file, h1, h2⟩, fun ⟨h1, h2⟩ =>
      ⟨by omega, h2⟩⟩
  have noFiles : filesOn fs fs.nextAddr = ∅ := by
    refine Finset.eq_empty_of_forall_notMem fun f hf => ?_
    obtain ⟨-, file, h1, h2⟩ := mem_filesOn.mp hf
    exact hnot (h2 ▸ (h.file f file h1).2)
  have hcount : held.count fs.nextAddr = 0 :=
    List.count_eq_zero.mpr fun hm => hnot (h.heldListed _ hm)
  refine ⟨List.nodup_cons.mpr ⟨hnot, h.nodup⟩, fun q hq => ?_, fun q hq => ?_,
    fun q hq r hr a b ha hb e => ?_, fun f file hf => ?_, fun q hq => ?_, fun q hq a ha => ?_,
    fun q hq a ha => ?_⟩
  · rcases List.mem_cons.mp hq with rfl | hq
    · exact Nat.lt_succ_self _
    · exact (h.addr q hq).trans (Nat.lt_succ_self _)
  · rcases List.mem_cons.mp hq with rfl | hq
    · exact ⟨_, Function.update_self .., hs⟩
    · rw [old q hq]
      exact h.listed q hq
  · rcases List.mem_cons.mp hq with rfl | hq <;> rcases List.mem_cons.mp hr with rfl | hr
    · rfl
    · rw [old r hr] at hb
      simp only [FsState.pushInode_inodes, Function.update_self, Option.some.injEq] at ha
      exact absurd (by rw [← e, ← ha]) (closed r hr b hb)
    · rw [old q hq] at ha
      simp only [FsState.pushInode_inodes, Function.update_self, Option.some.injEq] at hb
      exact absurd (by rw [e, ← hb]) (closed q hq a ha)
    · rw [old q hq] at ha
      rw [old r hr] at hb
      exact h.unique q hq r hr a b ha hb e
  · obtain ⟨h1, h2⟩ := h.file f file hf
    exact ⟨h1.trans (Nat.lt_succ_self _), List.mem_cons_of_mem _ h2⟩
  · rcases List.mem_cons.mp hq with rfl | hq
    · exact List.mem_cons_self
    · exact List.mem_cons_of_mem _ (h.heldListed q hq)
  · rw [files]
    rcases List.mem_cons.mp hq with rfl | hq
    · simp only [FsState.pushInode_inodes, Function.update_self, Option.some.injEq] at ha
      rw [noFiles, List.count_cons_self, hcount, ← ha]
      simp
    · rw [old q hq] at ha
      have hne : fs.nextAddr ≠ q := fun e => hnot (e ▸ hq)
      rw [List.count_cons_of_ne hne]
      exact h.refs q hq a ha
  · rw [deniers]
    rcases List.mem_cons.mp hq with rfl | hq
    · simp only [FsState.pushInode_inodes, Function.update_self, Option.some.injEq] at ha
      have := deniersOn_subset fs fs.nextAddr
      rw [noFiles, Finset.subset_empty] at this
      rw [this, ← ha]
      simp
    · rw [old q hq] at ha
      exact h.deny q hq a ha

/-- Taking an inode off the list when its last opener, held by the running code,
lets go. -/
theorem unlist (h : HeapOk live (p :: held) fs) {ino : Inode} (hino : fs.inodes p = some ino)
    (hlast : ino.openCnt = 1) (keepLive : ∀ x, x ≠ ino.sector → live x → live' x) :
    HeapOk live' held ((fs.unlistInode p).freeInode p) ∧ filesOn fs p = ∅ := by
  have hp := h.heldListed p List.mem_cons_self
  have hrefs := h.refs p hp ino hino
  rw [List.count_cons_self, hlast] at hrefs
  have hcard : (filesOn fs p).card = 0 := by omega
  have hcount : held.count p = 0 := by omega
  have empty := Finset.card_eq_zero.mp hcard
  have mem : ∀ q, q ∈ fs.openInodes.erase p ↔ q ≠ p ∧ q ∈ fs.openInodes :=
    fun q => h.nodup.mem_erase_iff
  have old : ∀ q, q ≠ p → ((fs.unlistInode p).freeInode p).inodes q = fs.inodes q :=
    fun q hq => Function.update_of_ne hq _ _
  have notOn : ∀ f file, fs.files f = some file → file.inode ≠ p := by
    intro f file hf e
    have : f ∈ filesOn fs p := mem_filesOn.mpr ⟨(h.file f file hf).1, file, hf, e⟩
    rw [empty] at this
    simp at this
  refine ⟨⟨h.nodup.erase p, fun q hq => h.addr q ((mem q).mp hq).2, fun q hq => ?_,
    fun q hq r hr a b ha hb e => ?_, fun f file hf => ?_, fun q hq => ?_, fun q hq a ha => ?_,
    fun q hq a ha => ?_⟩, empty⟩
  · obtain ⟨hne, hq⟩ := (mem q).mp hq
    obtain ⟨a, h1, h2⟩ := h.listed q hq
    refine ⟨a, (old q hne).trans h1, keepLive _ (fun e => hne ?_) h2⟩
    exact h.unique q hq p hp a ino h1 hino e
  · obtain ⟨hne, hq⟩ := (mem q).mp hq
    obtain ⟨hne', hr⟩ := (mem r).mp hr
    rw [old q hne] at ha
    rw [old r hne'] at hb
    exact h.unique q hq r hr a b ha hb e
  · obtain ⟨h1, h2⟩ := h.file f file hf
    exact ⟨h1, (mem _).mpr ⟨notOn f file hf, h2⟩⟩
  · refine (mem q).mpr ⟨fun e => ?_, h.heldListed q (List.mem_cons_of_mem _ hq)⟩
    exact List.count_eq_zero.mp hcount (e ▸ hq)
  · obtain ⟨hne, hq⟩ := (mem q).mp hq
    rw [old q hne] at ha
    have := h.refs q hq a ha
    rw [List.count_cons_of_ne (Ne.symm hne)] at this
    exact this
  · obtain ⟨hne, hq⟩ := (mem q).mp hq
    rw [old q hne] at ha
    exact h.deny q hq a ha

end HeapOk

/-! ## The other invariants under changes of the heap -/

theorem Core.setInode (core : Core use live node fs) {ino ino' : Inode}
    (hp : p ∈ fs.openInodes) (hino : fs.inodes p = some ino) (hsec : ino'.sector = ino.sector)
    (hdata : ino'.data = ino.data) : Core use live node (fs.setInode p ino') := by
  refine ⟨core.mapSize, core.zeroUsed, core.used, core.tree, fun q hq a ha => ?_⟩
  by_cases e : q = p
  · subst e
    simp only [FsState.setInode_inodes, Function.update_self, Option.some.injEq] at ha
    rw [← ha, hsec, hdata]
    exact core.opens q hp ino hino
  · simp only [FsState.setInode_inodes, Function.update_of_ne e] at ha
    exact core.opens q hq a ha

theorem Core.pushInode (core : Core use live node fs) (heap : HeapOk live held fs)
    (huse : use s = some .inode) : Core use live node (fs.pushInode s (node s)) := by
  refine ⟨core.mapSize, core.zeroUsed, core.used, core.tree, fun q hq a ha => ?_⟩
  rcases List.mem_cons.mp hq with rfl | hq
  · simp only [FsState.pushInode_inodes, Function.update_self, Option.some.injEq] at ha
    rw [← ha]
    exact ⟨huse, rfl⟩
  · have hne : q ≠ fs.nextAddr := fun e => lt_irrefl _ (e ▸ heap.addr q hq)
    simp only [FsState.pushInode_inodes, Function.update_of_ne hne] at ha
    exact core.opens q hq a ha

theorem MapReady.setInode (ready : MapReady live node fs) {ino ino' : Inode}
    (hino : fs.inodes p = some ino) (hsec : ino'.sector = ino.sector)
    (hdeny : ino.sector = freeMapSector → ino'.denyWriteCnt = ino.denyWriteCnt) :
    MapReady live node (fs.setInode p ino') := by
  rcases ready with h | ⟨f, q, hf, map, synced⟩
  · exact .inl h
  · refine .inr ⟨f, q, hf, ⟨map.file, map.listed, ?_, map.isLive, map.length, map.nonempty⟩, synced⟩
    obtain ⟨a, h1, h2, h3⟩ := map.inode
    by_cases e : q = p
    · subst e
      rw [hino, Option.some.injEq] at h1
      subst h1
      exact ⟨ino', by simp, hsec.trans h2, (hdeny h2).trans h3⟩
    · exact ⟨a, by simpa [Function.update_of_ne e] using h1, h2, h3⟩

theorem MapReady.pushInode (ready : MapReady live node fs) (heap : HeapOk live held fs)
    (s : ℕ) (d : Sector) : MapReady live node (fs.pushInode s d) := by
  rcases ready with h | ⟨f, q, hf, map, synced⟩
  · exact .inl h
  · refine .inr ⟨f, q, hf, ⟨map.file, List.mem_cons_of_mem _ map.listed, ?_, map.isLive,
      map.length, map.nonempty⟩, synced⟩
    obtain ⟨a, h1, h2, h3⟩ := map.inode
    have hne : q ≠ fs.nextAddr := fun e => lt_irrefl _ (e ▸ heap.addr q map.listed)
    exact ⟨a, by simpa [Function.update_of_ne hne] using h1, h2, h3⟩

/-- Freeing an inode other than the free map's, or that one while no file is open on it. -/
theorem MapReady.unlist (ready : MapReady live node fs) {ino : Inode}
    (hino : fs.inodes p = some ino)
    (hsec : fs.freeMapFile ≠ none → ino.sector ≠ freeMapSector) :
    MapReady live node ((fs.unlistInode p).freeInode p) := by
  rcases ready with h | ⟨f, q, hf, map, synced⟩
  · exact .inl h
  · obtain ⟨a, h1, h2, h3⟩ := map.inode
    have hne : q ≠ p := by
      rintro rfl
      rw [hino, Option.some.injEq] at h1
      exact hsec (by simp [hf]) (h1 ▸ h2)
    refine .inr ⟨f, q, hf, ⟨map.file, (List.mem_erase_of_ne hne).mpr map.listed,
      ⟨a, by simpa [Function.update_of_ne hne] using h1, h2, h3⟩, map.isLive, map.length,
      map.nonempty⟩, synced⟩

theorem Core.unlist (core : Core use live node fs) (heap : HeapOk live held fs) (p : ℕ) :
    Core use live node ((fs.unlistInode p).freeInode p) := by
  refine ⟨core.mapSize, core.zeroUsed, core.used, core.tree, fun q hq a ha => ?_⟩
  obtain ⟨hne, hq⟩ := heap.nodup.mem_erase_iff.mp hq
  simp only [FsState.freeInode_inodes, Function.update_of_ne hne] at ha
  exact core.opens q hq a ha

end

/-! ## A sound state -/

/-- **The invariant of the inode layer**: the trees, the free map and the heap are
in order, and every live inode is on disk as it is in memory. -/
structure Sound (use : ℕ → Option Use) (live : ℕ → Prop) (node : ℕ → Sector) (held : List ℕ)
    (fs : FsState) : Prop where
  core : Core use live node fs
  ready : MapReady live node fs
  heap : HeapOk live held fs
  synced : ∀ s, live s → fs.dev.disk s = node s

/-- Everything but the list of open inodes and their counts is unchanged: an open
inode was open before, with the same marks, or is new and has none. -/
structure SameFiles (fs fs' : FsState) : Prop where
  dev : fs'.dev = fs.dev
  freeMap : fs'.freeMap = fs.freeMap
  freeMapFile : fs'.freeMapFile = fs.freeMapFile
  files : fs'.files = fs.files
  cwd : fs'.currentWorkingDir = fs.currentWorkingDir
  kept : ∀ q ∈ fs'.openInodes, ∀ a, fs'.inodes q = some a →
    (a.removed = false ∧ a.denyWriteCnt = 0) ∨
    (q ∈ fs.openInodes ∧ ∃ b, fs.inodes q = some b ∧ b.sector = a.sector ∧
      b.removed = a.removed ∧ b.denyWriteCnt = a.denyWriteCnt)

/-- Inodes were only closed: what is still open was open before, for the same sector. -/
def Closes (fs fs' : FsState) : Prop :=
  ∀ q ∈ fs'.openInodes, q ∈ fs.openInodes ∧
    ∀ b, fs'.inodes q = some b → ∃ a, fs.inodes q = some a ∧ a.sector = b.sector

theorem SameFiles.trans {a b c : FsState} (h : SameFiles a b) (h' : SameFiles b c) :
    SameFiles a c where
  dev := h'.dev.trans h.dev
  freeMap := h'.freeMap.trans h.freeMap
  freeMapFile := h'.freeMapFile.trans h.freeMapFile
  files := h'.files.trans h.files
  cwd := h'.cwd.trans h.cwd
  kept q hq x hx := by
    rcases h'.kept q hq x hx with h0 | ⟨h1, y, h2, h3, h4, h5⟩
    · exact .inl h0
    rcases h.kept q h1 y h2 with h0 | ⟨h6, z, h7, h8, h9, h10⟩
    · exact .inl ⟨h4 ▸ h0.1, h5 ▸ h0.2⟩
    · exact .inr ⟨h6, z, h7, h8.trans h3, h9.trans h4, h10.trans h5⟩

section

variable {use : ℕ → Option Use} {live : ℕ → Prop} {node : ℕ → Sector}
  {fs : FsState} {s p : ℕ} {held : List ℕ}

theorem SameFiles.setInode {ino ino' : Inode} (hino : fs.inodes p = some ino)
    (hsec : ino'.sector = ino.sector) (hrem : ino'.removed = ino.removed)
    (hdeny : ino'.denyWriteCnt = ino.denyWriteCnt) : SameFiles fs (fs.setInode p ino') := by
  refine ⟨rfl, rfl, rfl, rfl, rfl, fun q hq a ha => .inr ⟨hq, ?_⟩⟩
  by_cases e : q = p
  · subst e
    simp only [FsState.setInode_inodes, Function.update_self, Option.some.injEq] at ha
    subst ha
    exact ⟨ino, hino, hsec.symm, hrem.symm, hdeny.symm⟩
  · simp only [FsState.setInode_inodes, Function.update_of_ne e] at ha
    exact ⟨a, ha, rfl, rfl, rfl⟩

theorem findOpen_some {p : ℕ} (h : findOpen fs s = some p) :
    p ∈ fs.openInodes ∧ ∃ ino, fs.inodes p = some ino ∧ ino.sector = s := by
  unfold findOpen at h
  refine ⟨List.mem_of_find?_eq_some h, ?_⟩
  have := List.find?_some h
  cases e : fs.inodes p with
  | none => simp [e] at this
  | some ino => exact ⟨ino, rfl, by simpa [e] using this⟩

theorem findOpen_none (h : findOpen fs s = none) :
    ∀ p ∈ fs.openInodes, ∀ ino, fs.inodes p = some ino → ino.sector ≠ s := by
  intro p hp ino hino e
  unfold findOpen at h
  have := List.find?_eq_none.mp h p hp
  simp [hino, e] at this

/-- **`inode_open` of a live inode** succeeds; the caller holds the result. -/
theorem inodeOpen_spec (sound : Sound use live node held fs) (hs : live s) :
    ∃ p fs', inodeOpen fs s = .ok (p, fs') ∧ Sound use live node (p :: held) fs' ∧
      OpenAt s p fs' ∧ SameFiles fs fs' ∧
      ((∀ q ∈ fs.openInodes, ∀ a, fs.inodes q = some a → a.sector ≠ s) →
        fs'.inodes p = some ⟨s, 1, false, 0, node s⟩) := by
  obtain ⟨huse, tree⟩ := sound.core.tree s hs
  cases h : findOpen fs s with
  | some p =>
      obtain ⟨hp, ino, hino, hsec⟩ := findOpen_some h
      have heap := sound.heap.setInode (p :: held) { ino with openCnt := ino.openCnt + 1 } hp hino rfl
        (fun q hq => List.mem_cons.mp hq) (fun q hq => List.count_cons_of_ne (Ne.symm hq))
        (by
          have := sound.heap.refs p hp ino hino
          rw [List.count_cons_self]
          push_cast at this ⊢
          omega)
        (sound.heap.deny p hp ino hino)
      refine ⟨p, fs.setInode p { ino with openCnt := ino.openCnt + 1 }, ?_,
        ⟨sound.core.setInode hp hino rfl rfl, sound.ready.setInode hino rfl fun _ => rfl, heap,
          sound.synced⟩, ?_, .setInode hino rfl rfl rfl, fun hc => absurd hsec (hc p hp ino hino)⟩
      · simp only [inodeOpen, h, inodeReopen, FsState.inode_ok hino, ok_bind]
        rfl
      · have hino' : (fs.setInode p { ino with openCnt := ino.openCnt + 1 }).inodes p =
            some { ino with openCnt := ino.openCnt + 1 } := by simp
        subst hsec
        have o := heap.openAt hp hino'
        exact o
  | none =>
      have closed := findOpen_none h
      have heap := sound.heap.pushInode hs closed (node s)
      refine ⟨fs.nextAddr, fs.pushInode s (node s), ?_,
        ⟨sound.core.pushInode sound.heap huse, sound.ready.pushInode sound.heap s _, heap,
          sound.synced⟩, ?_, ⟨rfl, rfl, rfl, rfl, rfl, fun q hq a ha => ?_⟩,
        fun _ => Function.update_self ..⟩
      · simp only [inodeOpen, h, blockRead_ok (sound.core.inside _ _ huse), ok_bind,
          sound.synced s hs]
        rfl
      · have hino : (fs.pushInode s (node s)).inodes fs.nextAddr = some ⟨s, 1, false, 0, node s⟩ :=
          Function.update_self ..
        exact heap.openAt List.mem_cons_self hino
      · rcases List.mem_cons.mp hq with rfl | hq
        · simp only [FsState.pushInode_inodes, Function.update_self, Option.some.injEq] at ha
          exact .inl (by simp [← ha])
        · have hne : q ≠ fs.nextAddr := fun e => lt_irrefl _ (e ▸ sound.heap.addr q hq)
          simp only [FsState.pushInode_inodes, Function.update_of_ne hne] at ha
          exact .inr ⟨hq, a, ha, rfl, rfl, rfl⟩

/-- **`inode_close` by one of several openers, or of an inode that is not removed**, by
the code that holds it. -/
theorem inodeClose_spec (sound : Sound use live node (p :: held) fs) {ino : Inode}
    (hino : fs.inodes p = some ino) (hrem : ino.openCnt = 1 → ino.removed = false)
    (hsec : fs.freeMapFile ≠ none → ino.sector ≠ freeMapSector) :
    ∃ fs', inodeClose fs p = .ok fs' ∧ Sound use live node held fs' ∧ SameFiles fs fs' ∧
      Closes fs fs' := by
  have hp := sound.heap.heldListed p List.mem_cons_self
  by_cases hlast : ino.openCnt = 1
  · refine ⟨(fs.unlistInode p).freeInode p, ?_, ⟨sound.core.unlist sound.heap p,
      sound.ready.unlist hino hsec, (sound.heap.unlist hino hlast fun _ _ h => h).1,
      sound.synced⟩, ⟨rfl, rfl, rfl, rfl, rfl, fun q hq a ha => ?_⟩, fun q hq => ?_⟩
    · simp only [inodeClose, FsState.inode_ok hino, ok_bind, hlast, sub_self, if_true, inodeFree,
        hrem hlast, Bool.false_eq_true, if_false]
      rfl
    · obtain ⟨hne, hq⟩ := sound.heap.nodup.mem_erase_iff.mp hq
      simp only [FsState.freeInode_inodes, Function.update_of_ne hne] at ha
      exact .inr ⟨hq, a, ha, rfl, rfl, rfl⟩
    · obtain ⟨hne, hq⟩ := sound.heap.nodup.mem_erase_iff.mp hq
      refine ⟨hq, fun b hb => ⟨b, ?_, rfl⟩⟩
      simpa [Function.update_of_ne hne] using hb
  · refine ⟨fs.setInode p { ino with openCnt := ino.openCnt - 1 }, ?_,
      ⟨sound.core.setInode hp hino rfl rfl, sound.ready.setInode hino rfl fun _ => rfl,
        sound.heap.setInode held { ino with openCnt := ino.openCnt - 1 } hp hino rfl
          (fun q hq => .inr (List.mem_cons_of_mem _ hq))
          (fun q hq => (List.count_cons_of_ne (Ne.symm hq)).symm) ?_
          (sound.heap.deny p hp ino hino), sound.synced⟩, .setInode hino rfl rfl rfl,
        fun q hq => ⟨hq, fun b hb => ?_⟩⟩
    · simp only [inodeClose, FsState.inode_ok hino, ok_bind,
        show ¬ ino.openCnt - 1 = 0 by omega, if_false]
      rfl
    · have := sound.heap.refs p hp ino hino
      rw [List.count_cons_self] at this
      push_cast at this ⊢
      omega
    · by_cases e : q = p
      · subst e
        simp only [FsState.setInode_inodes, Function.update_self, Option.some.injEq] at hb
        exact ⟨ino, hino, hb ▸ rfl⟩
      · exact ⟨b, by simpa [Function.update_of_ne e] using hb, rfl⟩

/-- What the running code holds is still open for the same sector. -/
theorem OpenAt.closes {fs' : FsState} (o : OpenAt s p fs) (h : Closes fs fs')
    (heap : HeapOk live held fs') (hp : p ∈ fs'.openInodes) : OpenAt s p fs' := by
  obtain ⟨b, hb, -⟩ := heap.listed p hp
  obtain ⟨a, ha, hsec⟩ := (h p hp).2 b hb
  obtain ⟨ino, hino, hs⟩ := o.isOpen
  rw [hino, Option.some.injEq] at ha
  subst ha
  have := heap.openAt hp hb
  rwa [← hsec, hs] at this

/-- Growing or writing one inode keeps the state sound. -/
theorem Sound.grow {use' : ℕ → Option Use} {node' : ℕ → Sector} {fs' : FsState}
    (sound : Sound use live node held fs) (o : OpenAt s p fs)
    (g : Grow use use' live node node' s p fs fs')
    (hsync : fs.dev.disk s = node s → fs'.dev.disk s = node' s) :
    Sound use' live node' held fs' := by
  obtain ⟨ino, hino, e⟩ := g.rest
  have heap : HeapOk live held (fs.setInode p { ino with data := node' s }) :=
    sound.heap.setInode_same o.listed hino rfl rfl rfl
  refine ⟨g.core, g.ready, ?_, fun x hx => ?_⟩
  · rw [e]
    exact heap.sameHeap ⟨rfl, rfl, rfl, rfl⟩ fun _ h => h
  · by_cases hxs : x = s
    · subst hxs
      exact hsync (sound.synced x hx)
    · obtain ⟨huse, -⟩ := sound.core.tree x hx
      rw [g.keep x _ huse hxs (by simp [Use.owner]) (.inr fun _ => by simp), g.nodes x hxs]
      exact sound.synced x hx

end

end Pintos
