import Pintos.FileSys.DirectoryView
import Pintos.FileSys.OpenFiles

/-!
# A healthy file system

`FsOk` is the invariant of the mounted file system between two calls: the inode
layer is sound, the free map's file is open, the root directory is a list of
entries, and entries, open inodes and open files fit together.

* `RootOk` — an entry in use names a live inode, no two entries name one file, and
  a removed inode that is still open has no entry.
* `FsOk` — the invariant, over the same ghost data as `Sound` and the entries.

The calls of `file.c` keep it; those of `filesys.c` are the subject of the next
module.
-/

namespace Pintos

open Lib Lib.Block

/-- The entries of the root directory and the marks of the open inodes. -/
structure RootOk (live : ℕ → Prop) (ent : ℕ → DirEntry) (cnt : ℕ) (fs : FsState) : Prop where
  entries : ∀ j < cnt, (ent j).inUse = true →
    live (ent j).sector ∧ (ent j).sector ≠ freeMapSector
  /-- The root directory names itself as `"."` and `".."`, and no other way. -/
  dots : ∀ j < cnt, (ent j).inUse = true → (ent j).sector = rootDirSector →
    (ent j).name = selfPath ∨ (ent j).name = parentPath
  distinct : ∀ i < cnt, ∀ j < cnt, (ent i).inUse = true → (ent j).inUse = true →
    (ent i).sector = (ent j).sector → (ent i).sector ≠ rootDirSector → i = j
  removed : ∀ p ∈ fs.openInodes, ∀ ino, fs.inodes p = some ino → ino.removed = true →
    ino.sector ≠ freeMapSector ∧ ino.sector ≠ rootDirSector ∧
      ∀ j < cnt, (ent j).inUse = true → (ent j).sector ≠ ino.sector
  writable : ∀ p ∈ fs.openInodes, ∀ ino, fs.inodes p = some ino →
    ino.sector = rootDirSector → ino.denyWriteCnt = 0

/-- The inode at `p` is not the one `free_map_file` is open on. -/
def OffMap (fs : FsState) (p : ℕ) : Prop :=
  ∀ fm mf, fs.freeMapFile = some fm → fs.files fm = some mf → p ≠ mf.inode

/-- No file but `free_map_file` is open on the free map's inode. -/
def MapPrivate (fs : FsState) : Prop :=
  ∀ f file, fs.files f = some file → fs.freeMapFile ≠ some f → OffMap fs file.inode

/-- **The invariant of the mounted file system.** -/
structure FsOk (use : ℕ → Option Use) (live : ℕ → Prop) (node : ℕ → Sector) (held : List ℕ)
    (ent : ℕ → DirEntry) (cnt : ℕ) (fs : FsState) : Prop where
  sound : Sound use live node held fs
  mapOpen : fs.freeMapFile ≠ none
  rootLive : live rootDirSector
  dir : DirAt ent cnt fs.dev.disk (node rootDirSector)
  root : RootOk live ent cnt fs
  mapPrivate : MapPrivate fs

/-- Every open inode was open before, removed or not as it is now, or is not removed.
The root directory is not denied to writers. -/
def KeptMarks (fs fs' : FsState) : Prop :=
  ∀ q ∈ fs'.openInodes, ∀ a, fs'.inodes q = some a →
    (a.removed = false ∧ a.denyWriteCnt = 0) ∨
    (q ∈ fs.openInodes ∧ ∃ b, fs.inodes q = some b ∧ b.sector = a.sector ∧
      b.removed = a.removed ∧ (a.sector = rootDirSector → b.denyWriteCnt = a.denyWriteCnt))

/-- The inodes of the open files are at the sectors they were at. -/
def SameInodes (fs fs' : FsState) : Prop :=
  ∀ f file, fs.files f = some file →
    (fs'.inodes file.inode).map Inode.sector = (fs.inodes file.inode).map Inode.sector

/-- The condition on an `inode_close`: the last opener of a removed inode leaves a
number of sectors that the release loop gets right. -/
def CloseOk (fs : FsState) (p : ℕ) : Prop :=
  ∀ ino ∈ fs.inodes p, ino.openCnt = 1 → ino.removed = true → ReleaseOk (TreeOk.count ino.data)

instance (fs : FsState) (p : ℕ) : Decidable (CloseOk fs p) :=
  inferInstanceAs (Decidable (∀ ino ∈ fs.inodes p, _))

section

variable {use use' : ℕ → Option Use} {live live' : ℕ → Prop} {node node' : ℕ → Sector}
  {held held' : List ℕ} {ent : ℕ → DirEntry} {cnt : ℕ} {fs fs' : FsState} {s p f : ℕ}

/-! ## What other inodes keep -/

theorem DirAt.congr {disk disk' : ℕ → Sector} {d : Sector} (dir : DirAt ent cnt disk d)
    (tree : TreeOk use disk s d) (keep : KeepsOwned use s disk disk') : DirAt ent cnt disk' d := by
  have hlen := dir.length
  refine ⟨hlen, fun j hj => ?_⟩
  rw [← dir.entries j hj]
  refine ext_byteAt fun k hk => ?_
  rw [byteAt_entryOf hk, byteAt_entryOf hk]
  exact TreeOk.fileByte_congr tree.ptrs keep (tree.present _ (by omega))

theorem Grow.keepsOwned (g : Grow use use' live node node' s p fs fs') (huse : use s = some .inode)
    {x : ℕ} (hx : x ≠ s) (hx0 : x ≠ freeMapSector) :
    KeepsOwned use x fs.dev.disk fs'.dev.disk := by
  intro t u hu ho
  refine g.keep t u hu ?_ ?_ (.inr fun i e => ?_)
  · rintro rfl
    rw [huse, Option.some.injEq] at hu
    simp [← hu, Use.owner] at ho
  · rw [ho]
    simpa using hx
  · rw [e, Use.owner, Option.some.injEq] at ho
    exact hx0 ho.symm

theorem KeepsUsed.keepsOwned (h : KeepsUsed use fs fs') {x : ℕ} (hx0 : x ≠ freeMapSector) :
    KeepsOwned use x fs.dev.disk fs'.dev.disk := by
  intro t u hu ho
  refine h t u hu (.inr fun i e => ?_)
  rw [e, Use.owner, Option.some.injEq] at ho
  exact hx0 ho.symm

theorem Created.keepsOwned {d : Sector} (h : Created use use' live node s d fs fs')
    (huse : use s = some .inode) {x : ℕ} (hx0 : x ≠ freeMapSector) :
    KeepsOwned use x fs.dev.disk fs'.dev.disk := by
  intro t u hu ho
  refine h.keep t u hu ?_ (.inr fun i e => ?_)
  · rintro rfl
    rw [huse, Option.some.injEq] at hu
    simp [← hu, Use.owner] at ho
  · rw [e, Use.owner, Option.some.injEq] at ho
    exact hx0 ho.symm

/-! ## What the open files keep -/

theorem SameInodes.of_eq (hino : fs'.inodes = fs.inodes) : SameInodes fs fs' := by
  intro f file _
  rw [hino]

theorem SameInodes.trans {fs'' : FsState} (h : SameInodes fs fs') (hfiles : fs'.files = fs.files)
    (h' : SameInodes fs' fs'') : SameInodes fs fs'' :=
  fun f file hf => (h' f file (hfiles ▸ hf)).trans (h f file hf)

theorem SameInodes.setInode {ino ino' : Inode} (hino : fs.inodes p = some ino)
    (hsec : ino'.sector = ino.sector) : SameInodes fs (fs.setInode p ino') := by
  intro f file _
  by_cases e : file.inode = p
  · rw [e, FsState.setInode_inodes, Function.update_self, hino, Option.map_some, Option.map_some, hsec]
  · rw [FsState.setInode_inodes, Function.update_of_ne e]

/-- `inode_open`. -/
theorem HeapOk.sameInodes_open {q : ℕ} (h : HeapOk live held fs) (hrun : inodeOpen fs s = .ok (q, fs')) :
    SameInodes fs fs' := by
  cases hfind : findOpen fs s with
  | some r =>
      obtain ⟨-, ino, hino, -⟩ := findOpen_some hfind
      simp only [inodeOpen, hfind, inodeReopen, FsState.inode_ok hino, ok_bind] at hrun
      cases hrun
      exact .setInode hino rfl
  | none =>
      simp only [inodeOpen, hfind] at hrun
      cases hread : blockRead fs.dev s with
      | error e => simp [hread] at hrun
      | ok data =>
          rw [hread, ok_bind] at hrun
          cases hrun
          intro f file hf
          have hne : file.inode ≠ fs.nextAddr := fun e => lt_irrefl _ (e ▸ h.addr _ (h.file f file hf).2)
          rw [FsState.pushInode_inodes, Function.update_of_ne hne]

/-- `inode_close`, by whoever holds the inode. -/
theorem HeapOk.sameInodes_closes (h : HeapOk live held fs') (hfiles : fs'.files = fs.files)
    (closes : Closes fs fs') : SameInodes fs fs' := by
  intro f file hf
  have hq := (h.file f file (hfiles ▸ hf)).2
  obtain ⟨b, hb, -⟩ := h.listed _ hq
  obtain ⟨a, ha, hsec⟩ := (closes _ hq).2 b hb
  rw [ha, hb, Option.map_some, Option.map_some, hsec]

theorem Grow.sameInodes (g : Grow use use' live node node' s p fs fs') : SameInodes fs fs' := by
  obtain ⟨ino, hino, rest⟩ := g.rest
  have h : SameInodes fs (fs.setInode p { ino with data := node' s }) := .setInode hino rfl
  rw [rest]
  exact h

/-! ## What a change of the open inodes keeps -/

theorem KeptMarks.of_same (hlist : fs'.openInodes = fs.openInodes)
    (hino : fs'.inodes = fs.inodes) : KeptMarks fs fs' := by
  intro q hq a ha
  rw [hlist] at hq
  rw [hino] at ha
  exact .inr ⟨hq, a, ha, rfl, rfl, fun _ => rfl⟩

theorem SameFiles.keptMarks (h : SameFiles fs fs') : KeptMarks fs fs' := by
  intro q hq a ha
  rcases h.kept q hq a ha with h1 | ⟨h1, b, h2, h3, h4, h5⟩
  · exact .inl h1
  · exact .inr ⟨h1, b, h2, h3, h4, fun _ => h5⟩

theorem RootOk.congr (root : RootOk live ent cnt fs) (kept : KeptMarks fs fs')
    (hlive : ∀ j < cnt, (ent j).inUse = true → live' (ent j).sector) :
    RootOk live' ent cnt fs' where
  entries j hj hu := ⟨hlive j hj hu, (root.entries j hj hu).2⟩
  dots := root.dots
  distinct := root.distinct
  removed q hq a ha hrem := by
    rcases kept q hq a ha with ⟨h1, -⟩ | ⟨hq', b, hb, h1, h2, -⟩
    · simp [h1] at hrem
    · rw [← h1]
      exact root.removed q hq' b hb (h2.trans hrem)
  writable q hq a ha hsec := by
    rcases kept q hq a ha with ⟨-, h2⟩ | ⟨hq', b, hb, h1, -, h3⟩
    · exact h2
    · rw [← h3 hsec]
      exact root.writable q hq' b hb (h1.trans hsec)

theorem MapPrivate.congr (h : MapPrivate fs) (hmap : fs'.freeMapFile = fs.freeMapFile)
    (hfiles : fs'.files = fs.files) : MapPrivate fs' := by
  unfold MapPrivate OffMap
  rw [hmap, hfiles]
  exact h

namespace FsOk

/-- A step that keeps the device, the files and the marks. -/
theorem sameFiles (h : FsOk use live node held ent cnt fs) (sound : Sound use live node held' fs')
    (same : SameFiles fs fs') : FsOk use live node held' ent cnt fs' where
  sound := sound
  mapOpen := same.freeMapFile ▸ h.mapOpen
  rootLive := h.rootLive
  dir := same.dev ▸ h.dir
  root := h.root.congr same.keptMarks fun j hj hu => (h.root.entries j hj hu).1
  mapPrivate := h.mapPrivate.congr same.freeMapFile same.files

theorem mapFile (h : FsOk use live node held ent cnt fs) :
    ∃ fm q, fs.freeMapFile = some fm ∧ MapFile live node fs fm q ∧ MapSynced node fs := by
  rcases h.sound.ready with hnone | hsome
  · exact absurd hnone h.mapOpen
  · exact hsome

/-- An open inode is off the map exactly if it is not at `FREE_MAP_SECTOR`. -/
theorem offMap_iff (h : FsOk use live node held ent cnt fs) {ino : Inode}
    (hp : p ∈ fs.openInodes) (hino : fs.inodes p = some ino) :
    OffMap fs p ↔ ino.sector ≠ freeMapSector := by
  obtain ⟨fm, q, hfm, map, -⟩ := h.mapFile
  obtain ⟨mf, hmf, hq⟩ := map.file
  obtain ⟨mino, hmino, hmsec, -⟩ := map.inode
  constructor
  · intro off e
    exact off fm mf hfm hmf ((h.sound.heap.unique p hp q map.listed ino mino hino hmino
      (e.trans hmsec.symm)).trans hq.symm)
  · intro hne fm' mf' hfm' hmf' e
    rw [hfm, Option.some.injEq] at hfm'
    subst hfm'
    rw [hmf, Option.some.injEq] at hmf'
    subst hmf'
    rw [e, hq, hmino, Option.some.injEq] at hino
    exact hne (hino ▸ hmsec)

/-- The inode of an open file. -/
theorem file_inode (h : FsOk use live node held ent cnt fs) {file : File}
    (hf : fs.files f = some file) : ∃ ino, fs.inodes file.inode = some ino ∧ live ino.sector ∧
      OpenAt ino.sector file.inode fs ∧ ino.data = node ino.sector := by
  have hp := (h.sound.heap.file f file hf).2
  obtain ⟨ino, hino, hlive⟩ := h.sound.heap.listed _ hp
  exact ⟨ino, hino, hlive, h.sound.heap.openAt hp hino, (h.sound.core.opens _ hp ino hino).2⟩

/-! ## Opening and closing inodes -/

/-- `inode_open` of a live inode. -/
theorem openInode (h : FsOk use live node held ent cnt fs) (hs : live s) :
    ∃ p fs', inodeOpen fs s = .ok (p, fs') ∧ FsOk use live node (p :: held) ent cnt fs' ∧
      OpenAt s p fs' ∧ SameFiles fs fs' := by
  obtain ⟨p, fs', hrun, sound, o, same, -⟩ := inodeOpen_spec h.sound hs
  exact ⟨p, fs', hrun, h.sameFiles sound same, o, same⟩

/-- `inode_close` of an inode the running code holds: if it is removed and this is the last opener, its
sectors are released, and nothing is written but the free map. -/
theorem closeInode_keeps (h : FsOk use live node (p :: held) ent cnt fs) (off : OffMap fs p)
    (ok : CloseOk fs p) :
    ∃ use' live' fs', inodeClose fs p = .ok fs' ∧ FsOk use' live' node held ent cnt fs' ∧
      fs'.files = fs.files ∧ fs'.freeMapFile = fs.freeMapFile ∧ Closes fs fs' ∧
      KeepsUse use use' rootDirSector ∧
      ∀ x, x ≠ freeMapSector → KeepsOwned use x fs.dev.disk fs'.dev.disk := by
  have hp := h.sound.heap.heldListed p List.mem_cons_self
  obtain ⟨ino, hino, hlive⟩ := h.sound.heap.listed p hp
  have hsec := (h.offMap_iff hp hino).mp off
  by_cases hfree : ino.openCnt = 1 ∧ ino.removed = true
  · obtain ⟨hlast, hrem⟩ := hfree
    obtain ⟨-, hroot, hnamed⟩ := h.root.removed p hp ino hino hrem
    obtain ⟨use', fs', hrun, sound, rest, -, owned, keep⟩ := inodeClose_removed h.sound h.mapOpen hino
      hlast hrem hsec (ok ino hino hlast hrem)
    have hfiles : fs'.files = fs.files := by
      rw [rest]
      rfl
    have hmap : fs'.freeMapFile = fs.freeMapFile := by
      rw [rest]
      rfl
    have get : ∀ q ∈ fs'.openInodes, q ∈ fs.openInodes ∧ fs'.inodes q = fs.inodes q := by
      intro q hq
      rw [rest] at hq ⊢
      obtain ⟨hne, hq⟩ := h.sound.heap.nodup.mem_erase_iff.mp hq
      exact ⟨hq, Function.update_of_ne hne _ _⟩
    have kept : KeptMarks fs fs' := fun q hq a ha =>
      .inr ⟨(get q hq).1, a, (get q hq).2 ▸ ha, rfl, rfl, fun _ => rfl⟩
    have keepAll : ∀ x, x ≠ freeMapSector → KeepsOwned use x fs.dev.disk fs'.dev.disk := by
      intro x hx t u hu ho
      refine keep t fun i e => ?_
      rw [hu, Option.some.injEq] at e
      rw [e, Use.owner, Option.some.injEq] at ho
      exact hx ho.symm
    refine ⟨use', _, fs', hrun, ⟨sound, hmap ▸ h.mapOpen, ⟨h.rootLive, hroot.symm⟩,
      h.dir.congr (h.sound.core.tree _ h.rootLive).2
        (keepAll _ (by simp [rootDirSector, freeMapSector])), ?_, h.mapPrivate.congr hmap hfiles⟩,
      hfiles, hmap, fun q hq => ⟨(get q hq).1, fun b hb => ⟨b, (get q hq).2 ▸ hb, rfl⟩⟩,
      owned _ h.rootLive hroot.symm, keepAll⟩
    exact h.root.congr kept fun j hj hu => ⟨(h.root.entries j hj hu).1, hnamed j hj hu⟩
  · obtain ⟨fs', hrun, sound, same, closes⟩ := inodeClose_spec h.sound hino (fun hlast => by
      by_contra hc
      exact hfree ⟨hlast, by simpa using hc⟩) fun _ => hsec
    refine ⟨use, live, fs', hrun, h.sameFiles sound same, same.files, same.freeMapFile, closes,
      .refl _ _, fun x _ t u _ _ => ?_⟩
    rw [same.dev]

/-! ## Open files -/

theorem pushFile (h : FsOk use live node (p :: held) ent cnt fs) (off : OffMap fs p) :
    FsOk use live node held ent cnt (fs.pushFile p) where
  sound := h.sound.pushFile
  mapOpen := h.mapOpen
  rootLive := h.rootLive
  dir := h.dir
  root := h.root.congr (.of_same rfl rfl) fun j hj hu => (h.root.entries j hj hu).1
  mapPrivate := by
    have hfresh := h.sound.heap.fresh_file
    intro f file hf hne fm mf hfm hmf
    have hnew : fm ≠ fs.nextAddr := by
      obtain ⟨fm', q, hfm', map, -⟩ := h.mapFile
      obtain ⟨mf', hmf', -⟩ := map.file
      have e : fm' = fm := by simpa [hfm'] using hfm
      rintro rfl
      simp [e, hfresh] at hmf'
    rw [FsState.pushFile_files, Function.update_of_ne hnew] at hmf
    by_cases e : f = fs.nextAddr
    · subst e
      simp only [FsState.pushFile_files, Function.update_self, Option.some.injEq] at hf
      rw [← hf]
      exact off fm mf hfm hmf
    · rw [FsState.pushFile_files, Function.update_of_ne e] at hf
      exact h.mapPrivate f file hf hne fm mf hfm hmf

/-- A change of a caller's file that keeps its inode. -/
theorem mapPrivate_setFile (h : MapPrivate fs) {file file' : File} (hf : fs.files f = some file)
    (hne : fs.freeMapFile ≠ some f) (hino : file'.inode = file.inode) :
    MapPrivate (fs.setFile f file') := by
  intro x y hx hxne fm mf hfm hmf
  have hfm' : fm ≠ f := fun e => hne (e ▸ hfm)
  rw [FsState.setFile_files, Function.update_of_ne hfm'] at hmf
  by_cases e : x = f
  · subst e
    simp only [FsState.setFile_files, Function.update_self, Option.some.injEq] at hx
    rw [← hx, hino]
    exact h x file hf hne fm mf hfm hmf
  · rw [FsState.setFile_files, Function.update_of_ne e] at hx
    exact h x y hx hxne fm mf hfm hmf

/-- Moving the position of a caller's file. -/
theorem setPos (h : FsOk use live node held ent cnt fs) {file : File} (hf : fs.files f = some file)
    (hne : fs.freeMapFile ≠ some f) (pos : ℕ) :
    FsOk use live node held ent cnt (fs.setFile f { file with pos }) where
  sound := h.sound.setFile hf rfl rfl
  mapOpen := h.mapOpen
  rootLive := h.rootLive
  dir := h.dir
  root := h.root.congr (.of_same rfl rfl) fun j hj hu => (h.root.entries j hj hu).1
  mapPrivate := mapPrivate_setFile h.mapPrivate hf hne rfl

theorem freeFile (h : FsOk use live node held ent cnt fs) {file : File}
    (hf : fs.files f = some file) (hdeny : file.denyWrite = false) (hne : fs.freeMapFile ≠ some f) :
    FsOk use live node (file.inode :: held) ent cnt (fs.freeFile f) where
  sound := h.sound.freeFile hf hdeny hne
  mapOpen := h.mapOpen
  rootLive := h.rootLive
  dir := h.dir
  root := h.root.congr (.of_same rfl rfl) fun j hj hu => (h.root.entries j hj hu).1
  mapPrivate := by
    have get : ∀ x y, (fs.freeFile f).files x = some y → fs.files x = some y := by
      intro x y hx
      by_cases e : x = f
      · simp [e] at hx
      · simpa [Function.update_of_ne e] using hx
    exact fun x y hx hxne fm mf hfm hmf =>
      h.mapPrivate x y (get x y hx) hxne fm mf hfm (get fm mf hmf)

/-- A caller's file starts or stops denying writes. -/
theorem setDeny (h : FsOk use live node held ent cnt fs) {file : File} {ino : Inode} {mark : Bool}
    (hf : fs.files f = some file) (hino : fs.inodes file.inode = some ino)
    (hmark : file.denyWrite = !mark) (hne : fs.freeMapFile ≠ some f)
    (hroot : ino.sector ≠ rootDirSector) :
    FsOk use live node held ent cnt ((fs.setFile f { file with denyWrite := mark }).setInode
      file.inode { ino with denyWriteCnt := ino.denyWriteCnt + if mark then 1 else -1 }) where
  sound := h.sound.setDeny hf hino hmark
    ((h.offMap_iff (h.sound.heap.file f file hf).2 hino).mp (h.mapPrivate f file hf hne))
  mapOpen := h.mapOpen
  rootLive := h.rootLive
  dir := h.dir
  root := by
    refine h.root.congr (fun q hq a ha => .inr ⟨hq, ?_⟩) fun j hj hu => (h.root.entries j hj hu).1
    by_cases e : q = file.inode
    · subst e
      simp only [FsState.setInode_inodes, Function.update_self, Option.some.injEq] at ha
      subst ha
      exact ⟨ino, hino, rfl, rfl, fun e => absurd e hroot⟩
    · simp only [FsState.setInode_inodes, Function.update_of_ne e] at ha
      exact ⟨a, ha, rfl, rfl, fun _ => rfl⟩
  mapPrivate := mapPrivate_setFile h.mapPrivate hf hne rfl

/-! ## Writing -/

/-- Growing or writing an inode other than the free map's and the root directory's. -/
theorem grow (h : FsOk use live node held ent cnt fs) (o : OpenAt s p fs) (hs : live s)
    (hs1 : s ≠ rootDirSector) (g : Grow use use' live node node' s p fs fs')
    (hsync : fs.dev.disk s = node s → fs'.dev.disk s = node' s) :
    FsOk use' live node' held ent cnt fs' ∧ fs'.files = fs.files ∧
      fs'.freeMapFile = fs.freeMapFile := by
  obtain ⟨ino, hino, rest⟩ := g.rest
  have hfiles : fs'.files = fs.files := by
    rw [rest]
    rfl
  have hnode : node' rootDirSector = node rootDirSector := g.nodes _ (Ne.symm hs1)
  refine ⟨⟨h.sound.grow o g hsync, g.freeMapFile ▸ h.mapOpen, h.rootLive, ?_, ?_,
    h.mapPrivate.congr g.freeMapFile hfiles⟩, hfiles, g.freeMapFile⟩
  · rw [hnode]
    exact h.dir.congr (h.sound.core.tree _ h.rootLive).2
      (g.keepsOwned (h.sound.core.tree s hs).1 (Ne.symm hs1) (by simp [rootDirSector, freeMapSector]))
  · refine h.root.congr (fun q hq a ha => .inr ⟨?_, ?_⟩) fun j hj hu => (h.root.entries j hj hu).1
    · rw [rest] at hq
      exact hq
    · rw [rest] at ha
      have ha' : Function.update fs.inodes p (some { ino with data := node' s }) q = some a := ha
      by_cases e : q = p
      · subst e
        rw [Function.update_self, Option.some.injEq] at ha'
        subst ha'
        exact ⟨ino, hino, rfl, rfl, fun _ => rfl⟩
      · rw [Function.update_of_ne e] at ha'
        exact ⟨a, ha', rfl, rfl, fun _ => rfl⟩

end FsOk

end

end Pintos
