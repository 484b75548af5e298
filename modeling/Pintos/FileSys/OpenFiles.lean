import Pintos.FileSys.Release

/-!
# Open files in a sound state

Opening and closing a file moves a reference to its inode between the file and the
running code; denying and allowing writes keeps the inode's count equal to the
number of its files that deny them.
-/

namespace Pintos

open Lib Lib.Block

section

variable {use : ℕ → Option Use} {live : ℕ → Prop} {node : ℕ → Sector} {fs : FsState} {f p : ℕ}
  {held : List ℕ}

namespace HeapOk

/-- A file takes over a reference the running code holds. -/
theorem pushFile (h : HeapOk live (p :: held) fs) : HeapOk live held (fs.pushFile p) := by
  have hfresh := h.fresh_file
  have hp := h.heldListed p List.mem_cons_self
  have get : ∀ x file, (fs.pushFile p).files x = some file →
      (x = fs.nextAddr ∧ file = ⟨p, 0, false⟩) ∨ (x ≠ fs.nextAddr ∧ fs.files x = some file) := by
    intro x file hx
    by_cases e : x = fs.nextAddr
    · subst e
      simp only [FsState.pushFile_files, Function.update_self, Option.some.injEq] at hx
      exact .inl ⟨rfl, hx.symm⟩
    · simp only [FsState.pushFile_files, Function.update_of_ne e] at hx
      exact .inr ⟨e, hx⟩
  have files : ∀ q, filesOn (fs.pushFile p) q =
      if q = p then insert fs.nextAddr (filesOn fs q) else filesOn fs q := by
    intro q
    ext x
    rw [mem_filesOn]
    constructor
    · rintro ⟨-, file, hx, rfl⟩
      rcases get x file hx with ⟨rfl, rfl⟩ | ⟨hne, hx⟩
      · simp
      · have : x ∈ filesOn fs file.inode := mem_filesOn.mpr ⟨(h.file x file hx).1, file, hx, rfl⟩
        split
        · exact Finset.mem_insert_of_mem this
        · exact this
    · intro hx
      have old : x ∈ filesOn fs q → x < fs.nextAddr + 1 ∧
          ∃ file, (fs.pushFile p).files x = some file ∧ file.inode = q := by
        intro hx
        obtain ⟨h1, file, h2, h3⟩ := mem_filesOn.mp hx
        have hne : x ≠ fs.nextAddr := by omega
        exact ⟨by omega, file, by simpa [Function.update_of_ne hne] using h2, h3⟩
      split at hx
      · next e =>
          rcases Finset.mem_insert.mp hx with rfl | hx
          · exact ⟨Nat.lt_succ_self _, ⟨p, 0, false⟩, by simp, e.symm⟩
          · exact old hx
      · exact old hx
  have deniers : ∀ q, deniersOn (fs.pushFile p) q = deniersOn fs q := by
    intro q
    ext x
    rw [mem_deniersOn, mem_deniersOn]
    constructor
    · rintro ⟨-, file, hx, h1, h2⟩
      rcases get x file hx with ⟨rfl, rfl⟩ | ⟨hne, hx⟩
      · simp at h2
      · exact ⟨(h.file x file hx).1, file, hx, h1, h2⟩
    · rintro ⟨h0, file, hx, h1, h2⟩
      have hne : x ≠ fs.nextAddr := by omega
      exact ⟨h0.trans (Nat.lt_succ_self _), file, by simpa [Function.update_of_ne hne] using hx,
        h1, h2⟩
  refine ⟨h.nodup, fun q hq => (h.addr q hq).trans (Nat.lt_succ_self _), h.listed, h.unique,
    fun x file hx => ?_, fun q hq => h.heldListed q (List.mem_cons_of_mem _ hq),
    fun q hq a ha => ?_, fun q hq a ha => ?_⟩
  · rcases get x file hx with ⟨rfl, rfl⟩ | ⟨-, hx⟩
    · exact ⟨Nat.lt_succ_self _, hp⟩
    · exact ⟨(h.file x file hx).1.trans (Nat.lt_succ_self _), (h.file x file hx).2⟩
  · have := h.refs q hq a ha
    rw [files]
    by_cases e : q = p
    · subst e
      rw [if_pos rfl, Finset.card_insert_of_notMem
        (fun hm => absurd (mem_filesOn.mp hm).1 (lt_irrefl _))]
      rw [List.count_cons_self] at this
      push_cast at this ⊢
      omega
    · rw [if_neg e]
      rwa [List.count_cons_of_ne (Ne.symm e)] at this
  · rw [deniers]
    exact h.deny q hq a ha

/-- The file's memory is freed; its reference is left to the running code. -/
theorem freeFile (h : HeapOk live held fs) {file : File} (hf : fs.files f = some file)
    (hdeny : file.denyWrite = false) : HeapOk live (file.inode :: held) (fs.freeFile f) := by
  have hp := (h.file f file hf).2
  have get : ∀ x y, (fs.freeFile f).files x = some y → x ≠ f ∧ fs.files x = some y := by
    intro x y hx
    by_cases e : x = f
    · simp [e] at hx
    · exact ⟨e, by simpa [Function.update_of_ne e] using hx⟩
  have files : ∀ q, filesOn (fs.freeFile f) q = (filesOn fs q).erase f := by
    intro q
    ext x
    rw [mem_filesOn, Finset.mem_erase, mem_filesOn]
    constructor
    · rintro ⟨h0, y, hx, h1⟩
      obtain ⟨hne, hx⟩ := get x y hx
      exact ⟨hne, h0, y, hx, h1⟩
    · rintro ⟨hne, h0, y, hx, h1⟩
      exact ⟨h0, y, by simpa [Function.update_of_ne hne] using hx, h1⟩
  have deniers : ∀ q, deniersOn (fs.freeFile f) q = deniersOn fs q := by
    intro q
    ext x
    rw [mem_deniersOn, mem_deniersOn]
    constructor
    · rintro ⟨h0, y, hx, h1⟩
      exact ⟨h0, y, (get x y hx).2, h1⟩
    · rintro ⟨h0, y, hx, h1, h2⟩
      have hne : x ≠ f := by
        rintro rfl
        rw [hf, Option.some.injEq] at hx
        rw [← hx, hdeny] at h2
        simp at h2
      exact ⟨h0, y, by simpa [Function.update_of_ne hne] using hx, h1, h2⟩
  have hmem : f ∈ filesOn fs file.inode := mem_filesOn.mpr ⟨(h.file f file hf).1, file, hf, rfl⟩
  refine ⟨h.nodup, h.addr, h.listed, h.unique, fun x y hx => h.file x y (get x y hx).2,
    fun q hq => ?_, fun q hq a ha => ?_, fun q hq a ha => ?_⟩
  · rcases List.mem_cons.mp hq with rfl | hq
    · exact hp
    · exact h.heldListed q hq
  · have := h.refs q hq a ha
    rw [files]
    by_cases e : q = file.inode
    · subst e
      rw [List.count_cons_self]
      have hcard := Finset.card_erase_add_one hmem
      push_cast at this ⊢
      omega
    · rw [List.count_cons_of_ne (Ne.symm e), Finset.erase_eq_of_notMem fun hm => ?_]
      · exact this
      · obtain ⟨-, y, hx, h1⟩ := mem_filesOn.mp hm
        rw [hf, Option.some.injEq] at hx
        exact e (hx ▸ h1.symm)
  · rw [deniers]
    exact h.deny q hq a ha

/-- Storing through a file pointer, its inode and its mark unchanged. -/
theorem setFile (h : HeapOk live held fs) {file file' : File} (hf : fs.files f = some file)
    (hino : file'.inode = file.inode) (hdeny : file'.denyWrite = file.denyWrite) :
    HeapOk live held (fs.setFile f file') := by
  have get : ∀ x y, (fs.setFile f file').files x = some y →
      ∃ z, fs.files x = some z ∧ z.inode = y.inode ∧ z.denyWrite = y.denyWrite := by
    intro x y hx
    by_cases e : x = f
    · subst e
      simp only [FsState.setFile_files, Function.update_self, Option.some.injEq] at hx
      exact ⟨file, hf, hx ▸ hino.symm, hx ▸ hdeny.symm⟩
    · exact ⟨y, by simpa [Function.update_of_ne e] using hx, rfl, rfl⟩
  have back : ∀ x z, fs.files x = some z →
      ∃ y, (fs.setFile f file').files x = some y ∧ y.inode = z.inode ∧
        y.denyWrite = z.denyWrite := by
    intro x z hx
    by_cases e : x = f
    · subst e
      rw [hf, Option.some.injEq] at hx
      exact ⟨file', by simp, hx ▸ hino, hx ▸ hdeny⟩
    · exact ⟨z, by simpa [Function.update_of_ne e] using hx, rfl, rfl⟩
  have files : ∀ q, filesOn (fs.setFile f file') q = filesOn fs q := by
    intro q
    ext x
    rw [mem_filesOn, mem_filesOn]
    constructor
    · rintro ⟨h0, y, hx, h1⟩
      obtain ⟨z, h2, h3, -⟩ := get x y hx
      exact ⟨h0, z, h2, h3.trans h1⟩
    · rintro ⟨h0, z, hx, h1⟩
      obtain ⟨y, h2, h3, -⟩ := back x z hx
      exact ⟨h0, y, h2, h3.trans h1⟩
  have deniers : ∀ q, deniersOn (fs.setFile f file') q = deniersOn fs q := by
    intro q
    ext x
    rw [mem_deniersOn, mem_deniersOn]
    constructor
    · rintro ⟨h0, y, hx, h1, h2⟩
      obtain ⟨z, h3, h4, h5⟩ := get x y hx
      exact ⟨h0, z, h3, h4.trans h1, h5.trans h2⟩
    · rintro ⟨h0, z, hx, h1, h2⟩
      obtain ⟨y, h3, h4, h5⟩ := back x z hx
      exact ⟨h0, y, h3, h4.trans h1, h5.trans h2⟩
  refine ⟨h.nodup, h.addr, h.listed, h.unique, fun x y hx => ?_, h.heldListed, fun q hq a ha => ?_,
    fun q hq a ha => ?_⟩
  · obtain ⟨z, h1, h2, -⟩ := get x y hx
    exact h2 ▸ h.file x z h1
  · rw [files]
    exact h.refs q hq a ha
  · rw [deniers]
    exact h.deny q hq a ha

/-- A file starts or stops denying writes, and its inode's count follows. -/
theorem setDeny (h : HeapOk live held fs) {file : File} {ino : Inode} {mark : Bool}
    (hf : fs.files f = some file) (hino : fs.inodes file.inode = some ino)
    (hmark : file.denyWrite = !mark) :
    HeapOk live held ((fs.setFile f { file with denyWrite := mark }).setInode file.inode
      { ino with denyWriteCnt := ino.denyWriteCnt + if mark then 1 else -1 }) := by
  obtain ⟨hlt, hp⟩ := h.file f file hf
  set fs' := (fs.setFile f { file with denyWrite := mark }).setInode file.inode
    { ino with denyWriteCnt := ino.denyWriteCnt + if mark then 1 else -1 } with hfs'
  have hfiles : fs'.files = Function.update fs.files f (some { file with denyWrite := mark }) := rfl
  have files : ∀ q, filesOn fs' q = filesOn fs q := by
    intro q
    ext x
    rw [mem_filesOn, mem_filesOn, hfiles]
    by_cases e : x = f
    · subst e
      simp only [Function.update_self, hf, Option.some.injEq, exists_eq_left']
      rfl
    · rw [Function.update_of_ne e]
      rfl
  have deniersOther : ∀ q, q ≠ file.inode → deniersOn fs' q = deniersOn fs q := by
    intro q hq
    ext x
    rw [mem_deniersOn, mem_deniersOn, hfiles]
    by_cases e : x = f
    · subst e
      simp only [Function.update_self, hf, Option.some.injEq, exists_eq_left']
      exact ⟨fun hx => absurd hx.2.1.symm hq, fun hx => absurd hx.2.1.symm hq⟩
    · rw [Function.update_of_ne e]
      rfl
  have deniersSelf : deniersOn fs' file.inode =
      if mark then insert f (deniersOn fs file.inode) else (deniersOn fs file.inode).erase f := by
    ext x
    by_cases e : x = f
    · subst e
      rw [mem_deniersOn, hfiles]
      cases mark <;> simp [hfs', hlt]
    · have : x ∈ deniersOn fs' file.inode ↔ x ∈ deniersOn fs file.inode := by
        rw [mem_deniersOn, mem_deniersOn, hfiles, Function.update_of_ne e]
        rfl
      rw [this]
      cases mark <;> simp [e]
  have get : ∀ q a, fs'.inodes q = some a →
      (q = file.inode ∧ a = { ino with denyWriteCnt := ino.denyWriteCnt + if mark then 1 else -1 }) ∨
      (q ≠ file.inode ∧ fs.inodes q = some a) := by
    intro q a hq
    by_cases e : q = file.inode
    · subst e
      simp only [hfs', FsState.setInode_inodes, Function.update_self, Option.some.injEq] at hq
      exact .inl ⟨rfl, hq.symm⟩
    · simp only [hfs', FsState.setInode_inodes, Function.update_of_ne e] at hq
      exact .inr ⟨e, hq⟩
  -- the inode keeps its sector and openers; only the count of its deniers changes
  refine ⟨h.nodup, h.addr, fun q hq => ?_, fun q hq r hr a b ha hb e => ?_, fun x y hx => ?_,
    h.heldListed, fun q hq a ha => ?_, fun q hq a ha => ?_⟩
  · obtain ⟨b, h1, h2⟩ := h.listed q hq
    by_cases e : q = file.inode
    · subst e
      rw [hino, Option.some.injEq] at h1
      exact ⟨_, Function.update_self .., h1 ▸ h2⟩
    · exact ⟨b, (Function.update_of_ne e _ _).trans h1, h2⟩
  · have sec : ∀ q a, fs'.inodes q = some a → ∃ b, fs.inodes q = some b ∧ b.sector = a.sector := by
      intro q a hq
      rcases get q a hq with ⟨rfl, rfl⟩ | ⟨-, h1⟩
      · exact ⟨ino, hino, rfl⟩
      · exact ⟨a, h1, rfl⟩
    obtain ⟨a', ha', e1⟩ := sec q a ha
    obtain ⟨b', hb', e2⟩ := sec r b hb
    exact h.unique q hq r hr a' b' ha' hb' (e1.trans (e.trans e2.symm))
  · rw [hfiles] at hx
    by_cases e : x = f
    · subst e
      simp only [Function.update_self, Option.some.injEq] at hx
      exact hx ▸ ⟨hlt, hp⟩
    · rw [Function.update_of_ne e] at hx
      exact h.file x y hx
  · rw [files]
    rcases get q a ha with ⟨rfl, rfl⟩ | ⟨-, h1⟩
    · exact h.refs _ hq ino hino
    · exact h.refs q hq a h1
  · rcases get q a ha with ⟨rfl, rfl⟩ | ⟨hne, h1⟩
    · have hold := h.deny _ hq ino hino
      rw [deniersSelf]
      cases mark with
      | true =>
          have hnot : f ∉ deniersOn fs file.inode := fun hm => by
            obtain ⟨-, y, h1, -, h2⟩ := mem_deniersOn.mp hm
            rw [hf, Option.some.injEq] at h1
            simp [← h1, hmark] at h2
          simp only [if_true, Finset.card_insert_of_notMem hnot, hold]
          push_cast
          rfl
      | false =>
          have hin : f ∈ deniersOn fs file.inode :=
            mem_deniersOn.mpr ⟨hlt, file, hf, rfl, hmark⟩
          have := Finset.card_erase_add_one hin
          simp only [Bool.false_eq_true, if_false, hold]
          omega
    · rw [deniersOther q hne]
      exact h.deny q hq a h1

end HeapOk

/-! ## The other invariants -/

theorem Core.ofFiles {fs' : FsState} (core : Core use live node fs) (hdev : fs'.dev = fs.dev)
    (hmap : fs'.freeMap = fs.freeMap) (hlist : fs'.openInodes = fs.openInodes)
    (hino : fs'.inodes = fs.inodes) : Core use live node fs' := by
  refine ⟨?_, ?_, ?_, ?_, ?_⟩
  · rw [hdev, hmap]
    exact core.mapSize
  · rw [hmap]
    exact core.zeroUsed
  · rw [hdev, hmap]
    exact core.used
  · rw [hdev]
    exact core.tree
  · rw [hlist, hino]
    exact core.opens

/-- A change of the files that keeps `free_map_file` on its inode. -/
theorem MapReady.ofFiles {fs' : FsState} (ready : MapReady live node fs)
    (hdev : fs'.dev = fs.dev) (hmap : fs'.freeMap = fs.freeMap)
    (hlist : fs'.openInodes = fs.openInodes) (hino : fs'.inodes = fs.inodes)
    (hfm : fs'.freeMapFile = fs.freeMapFile)
    (hfile : ∀ fm mf, fs.freeMapFile = some fm → fs.files fm = some mf →
      ∃ mf', fs'.files fm = some mf' ∧ mf'.inode = mf.inode) : MapReady live node fs' := by
  rcases ready with h | ⟨fm, q, hf, map, synced⟩
  · exact .inl (hfm.trans h)
  · obtain ⟨mf, h1, h2⟩ := map.file
    obtain ⟨mf', h3, h4⟩ := hfile fm mf hf h1
    refine .inr ⟨fm, q, hfm.trans hf, ⟨⟨mf', h3, h4.trans h2⟩, hlist ▸ map.listed, hino ▸ map.inode,
      map.isLive, hdev ▸ map.length, hdev ▸ map.nonempty⟩, ?_⟩
    unfold MapSynced
    rw [hdev, hmap]
    exact synced

namespace Sound

theorem pushFile (h : Sound use live node (p :: held) fs) :
    Sound use live node held (fs.pushFile p) where
  core := h.core.ofFiles rfl rfl rfl rfl
  ready := by
    refine h.ready.ofFiles rfl rfl rfl rfl rfl fun fm mf _ hmf => ⟨mf, ?_, rfl⟩
    have hne : fm ≠ fs.nextAddr := fun e => by simp [e, h.heap.fresh_file] at hmf
    simpa [Function.update_of_ne hne] using hmf
  heap := h.heap.pushFile
  synced := h.synced

theorem setFile (h : Sound use live node held fs) {file file' : File} (hf : fs.files f = some file)
    (hino : file'.inode = file.inode) (hdeny : file'.denyWrite = file.denyWrite) :
    Sound use live node held (fs.setFile f file') where
  core := h.core.ofFiles rfl rfl rfl rfl
  ready := by
    refine h.ready.ofFiles rfl rfl rfl rfl rfl fun fm mf _ hmf => ?_
    by_cases e : fm = f
    · subst e
      rw [hf, Option.some.injEq] at hmf
      exact ⟨file', by simp, hmf ▸ hino⟩
    · exact ⟨mf, by simpa [Function.update_of_ne e] using hmf, rfl⟩
  heap := h.heap.setFile hf hino hdeny
  synced := h.synced

theorem freeFile (h : Sound use live node held fs) {file : File} (hf : fs.files f = some file)
    (hdeny : file.denyWrite = false) (hne : fs.freeMapFile ≠ some f) :
    Sound use live node (file.inode :: held) (fs.freeFile f) where
  core := h.core.ofFiles rfl rfl rfl rfl
  ready := by
    refine h.ready.ofFiles rfl rfl rfl rfl rfl fun fm mf hfm hmf => ⟨mf, ?_, rfl⟩
    have e : fm ≠ f := fun e => hne (e ▸ hfm)
    simpa [Function.update_of_ne e] using hmf
  heap := h.heap.freeFile hf hdeny
  synced := h.synced

/-- A file starts or stops denying writes. -/
theorem setDeny (h : Sound use live node held fs) {file : File} {ino : Inode} {mark : Bool}
    (hf : fs.files f = some file) (hino : fs.inodes file.inode = some ino)
    (hmark : file.denyWrite = !mark) (hsec : ino.sector ≠ freeMapSector) :
    Sound use live node held ((fs.setFile f { file with denyWrite := mark }).setInode file.inode
      { ino with denyWriteCnt := ino.denyWriteCnt + if mark then 1 else -1 }) where
  core := by
    have hp := (h.heap.file f file hf).2
    have core1 : Core use live node (fs.setFile f { file with denyWrite := mark }) :=
      h.core.ofFiles rfl rfl rfl rfl
    exact core1.setInode hp hino rfl rfl
  ready := by
    have ready1 : MapReady live node (fs.setFile f { file with denyWrite := mark }) := by
      refine h.ready.ofFiles rfl rfl rfl rfl rfl fun fm mf _ hmf => ?_
      by_cases e : fm = f
      · subst e
        rw [hf, Option.some.injEq] at hmf
        exact ⟨{ file with denyWrite := mark }, by simp, hmf ▸ rfl⟩
      · exact ⟨mf, by simpa [Function.update_of_ne e] using hmf, rfl⟩
    exact ready1.setInode hino rfl fun e => absurd e hsec
  heap := h.heap.setDeny hf hino hmark
  synced := h.synced

end Sound

end

end Pintos
