import Pintos.FileSys.Healthy

/-!
# The calls of `file.c` in a healthy file system

Each call on a file that a caller has open succeeds and keeps `FsOk`, where the
conditions on a write (`WriteOk`) and on the last close of a removed file
(`CloseOk`) are met.  No call touches another file.
-/

namespace Pintos

open Lib Lib.Block

/-- The condition on a `file_write` of `size` bytes: writes are denied, or the file is
not the root directory, the growth meets `GrowthOk`, and it finds its sectors. -/
def WriteOk (fs : FsState) (f : ℕ) (size : ℤ) : Prop :=
  ∀ file ∈ fs.files f, ∀ ino ∈ fs.inodes file.inode, ino.denyWriteCnt = 0 →
    ino.sector ≠ rootDirSector ∧ GrowthOk fs.dev.disk ino.data size file.pos ∧
      growthDemand ino.data size file.pos ≤ freeSectors fs.freeMap

instance (fs : FsState) (f : ℕ) (size : ℤ) : Decidable (WriteOk fs f size) :=
  inferInstanceAs (Decidable (∀ file ∈ fs.files f, _))

/-- The condition on a `file_close`. -/
def FileCloseOk (fs : FsState) (f : ℕ) : Prop :=
  ∀ file ∈ fs.files f, CloseOk fs file.inode

instance (fs : FsState) (f : ℕ) : Decidable (FileCloseOk fs f) :=
  inferInstanceAs (Decidable (∀ file ∈ fs.files f, _))

/-- A step that touches no file but `f`. -/
structure FileFrame (f : ℕ) (fs fs' : FsState) : Prop where
  mapFile : fs'.freeMapFile = fs.freeMapFile
  files : ∀ g, g ≠ f → fs'.files g = fs.files g

section

variable {use : ℕ → Option Use} {live : ℕ → Prop} {node : ℕ → Sector} {held : List ℕ}
  {ent : ℕ → DirEntry} {cnt : ℕ} {fs fs' : FsState} {f : ℕ} {file : File}

theorem FileFrame.setFile (fs : FsState) (f : ℕ) (file : File) :
    FileFrame f fs (fs.setFile f file) :=
  ⟨rfl, fun _ hg => Function.update_of_ne hg _ _⟩

/-- What a change of a file's mark leaves. -/
structure Marked (f : ℕ) (file : File) (mark : Bool) (fs fs' : FsState) : Prop where
  files : fs'.files = Function.update fs.files f (some { file with denyWrite := mark })
  mapFile : fs'.freeMapFile = fs.freeMapFile
  dev : fs'.dev = fs.dev
  freeMap : fs'.freeMap = fs.freeMap
  inodes : SameInodes fs fs'

/-- Following an inode pointer that leads nowhere is a fault. -/
theorem inode_of_ok {p : ℕ} {α : Type} {k : Inode → Except Fault α} {a : α}
    (h : (fs.inode p >>= k) = .ok a) : ∃ ino, fs.inodes p = some ino ∧ k ino = .ok a := by
  cases e : fs.inodes p with
  | some ino => exact ⟨ino, rfl, by rwa [FsState.inode_ok e, ok_bind] at h⟩
  | none =>
      simp only [FsState.inode, e] at h
      cases h

namespace Marked

/-- The mark is what it was. -/
theorem refl (hf : fs.files f = some file) : Marked f file file.denyWrite fs fs where
  files := (Function.update_eq_self_iff.mpr hf.symm).symm
  mapFile := rfl
  dev := rfl
  freeMap := rfl
  inodes := .of_eq rfl

/-- `file_deny_write`. -/
theorem of_deny (hf : fs.files f = some file) (hrun : fileDenyWrite fs f = .ok fs') :
    Marked f file true fs fs' := by
  simp only [fileDenyWrite, FsState.file_ok hf, ok_bind] at hrun
  split at hrun
  · next hmark =>
      cases hrun
      rw [← hmark]
      exact .refl hf
  · obtain ⟨ino, hino, hrun⟩ := inode_of_ok hrun
    split at hrun
    · cases hrun
      have counted : SameInodes fs (fs.setInode file.inode { ino with denyWriteCnt := ino.denyWriteCnt + 1 }) :=
        .setInode hino rfl
      exact ⟨rfl, rfl, rfl, rfl, counted⟩
    · cases hrun

/-- `file_allow_write`. -/
theorem of_allow (hf : fs.files f = some file) (hrun : fileAllowWrite fs f = .ok fs') :
    Marked f file false fs fs' := by
  simp only [fileAllowWrite, FsState.file_ok hf, ok_bind] at hrun
  split at hrun
  · obtain ⟨ino, hino, hrun⟩ := inode_of_ok hrun
    split at hrun
    · cases hrun
      have counted : SameInodes fs (fs.setInode file.inode { ino with denyWriteCnt := ino.denyWriteCnt - 1 }) :=
        .setInode hino rfl
      exact ⟨rfl, rfl, rfl, rfl, counted⟩
    · cases hrun
  · next hmark =>
      cases hrun
      have e : file.denyWrite = false := by simpa using hmark
      rw [← e]
      exact .refl hf

end Marked

namespace FsOk

/-- `file_seek`. -/
theorem fileSeek (h : FsOk use live node held ent cnt fs) (hf : fs.files f = some file)
    (hne : fs.freeMapFile ≠ some f) {newPos : ℤ} (h0 : 0 ≤ newPos) :
    fileSeek fs f newPos = .ok (fs.setFile f { file with pos := newPos.toNat }) ∧
      FsOk use live node held ent cnt (fs.setFile f { file with pos := newPos.toNat }) := by
  refine ⟨?_, h.setPos hf hne _⟩
  simp only [Pintos.fileSeek, FsState.file_ok hf, ok_bind, if_neg (not_lt.mpr h0)]
  rfl

/-- `file_length`. -/
theorem fileLength (h : FsOk use live node held ent cnt fs) (hf : fs.files f = some file)
    {s : ℕ} (o : OpenAt s file.inode fs) :
    fileLength fs f = .ok (inodeLength (node s)) := by
  obtain ⟨ino, hino, -, hdata⟩ := o.data h.sound.core
  simp only [Pintos.fileLength, FsState.file_ok hf, FsState.inode_ok hino, ok_bind, hdata]
  rfl

/-- `file_read`: the bytes in range, and the position moves behind them. -/
theorem fileRead (h : FsOk use live node held ent cnt fs) (hf : fs.files f = some file) {s : ℕ}
    (hs : live s) (o : OpenAt s file.inode fs) (size : ℤ) :
    fileRead fs f size = .ok ((List.range (transferred (inodeLength (node s)) size.toNat
        file.pos)).map fun k => fileByte fs.dev.disk (node s) (file.pos + k),
      fs.setFile f { file with
        pos := file.pos + transferred (inodeLength (node s)) size.toNat file.pos }) := by
  simp only [Pintos.fileRead, FsState.file_ok hf, ok_bind, inodeReadAt_spec h.sound.core hs o,
    List.length_map, List.length_range]
  rfl

/-- **`file_write`** under `WriteOk`. -/
theorem fileWrite (h : FsOk use live node held ent cnt fs) (hf : fs.files f = some file)
    (hne : fs.freeMapFile ≠ some f) (buffer : ℕ → UInt8) {size : ℤ} (ok : WriteOk fs f size) :
    ∃ n use' node' fs', fileWrite fs f buffer size = .ok (n, fs') ∧
      FsOk use' live node' held ent cnt fs' ∧ FileFrame f fs fs' ∧
      (∃ pos, fs'.files f = some { file with pos }) ∧ KeepsUse use use' rootDirSector := by
  obtain ⟨ino, hino, hlive, o, hdata⟩ := h.file_inode hf
  by_cases hdeny : ino.denyWriteCnt = 0
  · obtain ⟨hroot, hgrow, hfree⟩ := ok file hf ino hino hdeny
    rw [hdata] at hgrow hfree
    have hsec := (h.offMap_iff o.listed hino).mp (h.mapPrivate f file hf hne)
    obtain ⟨use', node', fs1, moved, -, hrun, g, -, hsync, -⟩ :=
      inodeWriteAt_spec h.sound.core h.sound.ready hlive hsec o (fun a ha => by
        rw [hino, Option.some.injEq] at ha
        exact ha ▸ hdeny) buffer hgrow hfree
    obtain ⟨h1, hfiles, hmap⟩ := h.grow o hlive hroot g hsync
    have hf1 : fs1.files f = some file := hfiles ▸ hf
    refine ⟨moved, use', node', fs1.setFile f { file with pos := file.pos + (moved : ℤ).toNat }, ?_,
      h1.setPos hf1 (hmap ▸ hne) _, ⟨hmap, fun g hg => ?_⟩, ⟨_, Function.update_self ..⟩,
      fun t u hu _ => g.mono t u hu⟩
    · simp only [Pintos.fileWrite, FsState.file_ok hf, ok_bind, hrun]
      rfl
    · rw [FsState.setFile_files, Function.update_of_ne hg, hfiles]
  · refine ⟨0, use, node, fs.setFile f { file with pos := file.pos + (0 : ℤ).toNat }, ?_,
      h.setPos hf hne _, .setFile fs f _, ⟨_, Function.update_self ..⟩, .refl _ _⟩
    simp only [Pintos.fileWrite, FsState.file_ok hf, ok_bind, inodeWriteAt, inodeWriteAtWith,
      FsState.inode_ok hino, ne_eq, hdeny, not_false_eq_true, if_true]
    rfl

/-- `file_deny_write`, by a file that is not the root directory. -/
theorem fileDenyWrite (h : FsOk use live node held ent cnt fs) (hf : fs.files f = some file)
    (hne : fs.freeMapFile ≠ some f)
    (hroot : ∀ ino, fs.inodes file.inode = some ino → ino.sector ≠ rootDirSector) :
    ∃ fs', fileDenyWrite fs f = .ok fs' ∧ FsOk use live node held ent cnt fs' ∧
      FileFrame f fs fs' := by
  cases hmark : file.denyWrite with
  | true =>
      refine ⟨fs, ?_, h, rfl, fun _ _ => rfl⟩
      simp only [Pintos.fileDenyWrite, FsState.file_ok hf, ok_bind, hmark, if_true]
      rfl
  | false =>
      obtain ⟨ino, hino, -, o, -⟩ := h.file_inode hf
      have hcnt : ino.denyWriteCnt + 1 ≤ ino.openCnt := by
        have h1 := h.sound.heap.refs _ o.listed ino hino
        have h2 := h.sound.heap.deny _ o.listed ino hino
        have hnot : f ∉ deniersOn fs file.inode := fun hm => by
          obtain ⟨-, y, h3, -, h4⟩ := mem_deniersOn.mp hm
          rw [hf, Option.some.injEq] at h3
          simp [← h3, hmark] at h4
        have hmem : f ∈ filesOn fs file.inode :=
          mem_filesOn.mpr ⟨(h.sound.heap.file f file hf).1, file, hf, rfl⟩
        have h3 := Finset.card_lt_card (Finset.ssubset_iff_of_subset
          (deniersOn_subset fs file.inode) |>.mpr ⟨f, hmem, hnot⟩)
        omega
      have hnot : file.denyWrite = !true := hmark
      refine ⟨_, ?_, h.setDeny hf hino hnot hne (hroot ino hino), rfl,
        fun g hg => Function.update_of_ne hg _ _⟩
      have hino' : (fs.setFile f { file with denyWrite := true }).inodes file.inode = some ino := hino
      simp only [Pintos.fileDenyWrite, FsState.file_ok hf, ok_bind, hmark, Bool.false_eq_true,
        if_false, inodeDenyWrite, FsState.inode_ok hino', if_pos hcnt]
      rfl

/-- `file_allow_write`. -/
theorem fileAllowWrite (h : FsOk use live node held ent cnt fs) (hf : fs.files f = some file)
    (hne : fs.freeMapFile ≠ some f) :
    ∃ fs', fileAllowWrite fs f = .ok fs' ∧ FsOk use live node held ent cnt fs' ∧
      FileFrame f fs fs' ∧ fs'.files f = some { file with denyWrite := false } ∧
      (CloseOk fs file.inode → CloseOk fs' file.inode) := by
  cases hmark : file.denyWrite with
  | false =>
      have hsame : { file with denyWrite := false } = file := by rw [← hmark]
      refine ⟨fs, ?_, h, ⟨rfl, fun _ _ => rfl⟩, hsame ▸ hf, id⟩
      simp only [Pintos.fileAllowWrite, FsState.file_ok hf, ok_bind, hmark, Bool.false_eq_true,
        if_false]
      rfl
  | true =>
      obtain ⟨ino, hino, -, o, -⟩ := h.file_inode hf
      have h1 := h.sound.heap.refs _ o.listed ino hino
      have h2 := h.sound.heap.deny _ o.listed ino hino
      have hmem : f ∈ deniersOn fs file.inode :=
        mem_deniersOn.mpr ⟨(h.sound.heap.file f file hf).1, file, hf, rfl, hmark⟩
      have h3 := Finset.card_pos.mpr ⟨f, hmem⟩
      have h4 := Finset.card_le_card (deniersOn_subset fs file.inode)
      have hcnt : 0 < ino.denyWriteCnt ∧ ino.denyWriteCnt ≤ ino.openCnt := by omega
      have hroot : ino.sector ≠ rootDirSector := fun e => by
        have := h.root.writable _ o.listed ino hino e
        omega
      have hnot : file.denyWrite = !false := hmark
      refine ⟨_, ?_, h.setDeny hf hino hnot hne hroot, ⟨rfl,
        fun g hg => Function.update_of_ne hg _ _⟩, Function.update_self .., fun ok a ha => ?_⟩
      · have hino' : (fs.setFile f { file with denyWrite := false }).inodes file.inode =
            some ino := hino
        simp only [Pintos.fileAllowWrite, FsState.file_ok hf, ok_bind, hmark, if_true,
          inodeAllowWrite, FsState.inode_ok hino', if_pos hcnt]
        rfl
      · simp only [FsState.setInode_inodes, Function.update_self, Option.mem_some_iff] at ha
        subst ha
        exact ok ino hino

/-- `file_close` under `FileCloseOk`: the file is gone, the inodes of the other files stay where they
are, and nothing is written but the free map. -/
theorem fileClose_keeps (h : FsOk use live node held ent cnt fs) (hf : fs.files f = some file)
    (hne : fs.freeMapFile ≠ some f) (ok : FileCloseOk fs f) :
    ∃ use' live' fs', fileClose fs f = .ok fs' ∧ FsOk use' live' node held ent cnt fs' ∧
      FileFrame f fs fs' ∧ fs'.files f = none ∧ KeepsUse use use' rootDirSector ∧
      (∀ g ≠ f, ∀ file', fs.files g = some file' →
        (fs'.inodes file'.inode).map Inode.sector = (fs.inodes file'.inode).map Inode.sector) ∧
      ∀ x, x ≠ freeMapSector → KeepsOwned use x fs.dev.disk fs'.dev.disk := by
  obtain ⟨fs1, hrun1, h1, frame1, hf1, hok⟩ := h.fileAllowWrite hf hne
  have marked := Marked.of_allow hf hrun1
  have hne1 : fs1.freeMapFile ≠ some f := frame1.mapFile ▸ hne
  have h2 := h1.freeFile hf1 rfl hne1
  have off : OffMap (fs1.freeFile f) file.inode := by
    intro fm mf hfm hmf
    have e : fm ≠ f := fun e => hne1 (e ▸ hfm)
    rw [FsState.freeFile_files, Function.update_of_ne e] at hmf
    exact h1.mapPrivate f _ hf1 hne1 fm mf hfm hmf
  obtain ⟨use', live', fs2, hrun2, h3, hfiles, hmap, closes, owned, keep⟩ :=
    h2.closeInode_keeps off (hok (ok file hf))
  have others : ∀ g, g ≠ f → (fs1.freeFile f).files g = fs.files g := by
    intro g hg
    rw [FsState.freeFile_files, Function.update_of_ne hg]
    exact frame1.files g hg
  refine ⟨use', live', fs2, ?_, h3, ⟨hmap.trans frame1.mapFile, fun g hg => ?_⟩, ?_, owned,
    fun g hg file' hfile' => ?_, ?_⟩
  · simp only [Pintos.fileClose, hrun1, ok_bind, FsState.file_ok hf1]
    exact hrun2
  · rw [hfiles]
    exact others g hg
  · rw [hfiles, FsState.freeFile_files, Function.update_self]
  · have hclosed := h3.sound.heap.sameInodes_closes hfiles closes g file' ((others g hg).trans hfile')
    exact hclosed.trans (marked.inodes g file' hfile')
  · rw [← marked.dev]
    exact keep

/-- **`file_close`** under `FileCloseOk`. -/
theorem fileClose (h : FsOk use live node held ent cnt fs) (hf : fs.files f = some file)
    (hne : fs.freeMapFile ≠ some f) (ok : FileCloseOk fs f) :
    ∃ use' live' fs', fileClose fs f = .ok fs' ∧ FsOk use' live' node held ent cnt fs' ∧
      FileFrame f fs fs' ∧ fs'.files f = none ∧ KeepsUse use use' rootDirSector := by
  obtain ⟨use', live', fs', hrun, h', frame, hnone, owned, -⟩ := h.fileClose_keeps hf hne ok
  exact ⟨use', live', fs', hrun, h', frame, hnone, owned⟩

end FsOk

end

end Pintos
