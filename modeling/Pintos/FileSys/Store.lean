import Pintos.Lib.NamedStore
import Pintos.FileSys.FileArray
import Pintos.FileSys.NamedFiles

/-!
# The file system is a store of named files

The abstract model of the mounted file system is a store of named files (`Lib.NamedStore`): the
identifier of a file is the sector of its inode, a handle is an open file.  `storeStep` is one call of
`filesys.c` or `file.c` by a caller, and `Represents` reads the store off a healthy file system: the
names off the entries of the root directory, the contents off the inodes, the handles off the open files
and their inodes.

* `FsOk.simulates` — one call, by cases on what it is.
* **`store_of_run`** — from a formatted device on, under the conditions under which each call keeps the
  file system healthy, no call fails and the replies are those of a run of the store, which is empty
  first.
* `denied_bytes` — what that says of a file that an opener denies writes to.

The root directory's own names are no names of the store.
-/

namespace Pintos

open Lib Lib.Block Lib.NamedStore

/-! ## The calls -/

/-- A call of a caller; the kind of a new file is whether it is a directory. -/
abbrev StoreCall : Type := Call CString Bool ℕ UInt8

/-- What a call returns. -/
abbrev StoreReply : Type := Reply ℕ UInt8

/-- **One call.** -/
def storeStep (fs : FsState) : StoreCall → Except Fault (StoreReply × FsState)
  | .create name isDir size => do
      let (success, fs) ← filesysCreate fs name size isDir
      return (.success success, fs)
  | .open name => do
      let (f, fs) ← filesysOpen fs name
      return (.opened f, fs)
  | .length f => do
      let n ← fileLength fs f
      return (.count n.toNat, fs)
  | .tell f => do
      let pos ← fileTell fs f
      return (.count pos, fs)
  | .read f size => do
      let (bytes, fs) ← fileRead fs f size
      return (.data bytes, fs)
  | .write f data => do
      let (n, fs) ← fileWrite fs f (fun k => data.getD k 0) data.length
      return (.count n.toNat, fs)
  | .seek f pos => do
      let fs ← fileSeek fs f pos
      return (.done, fs)
  | .deny f => do
      let fs ← fileDenyWrite fs f
      return (.done, fs)
  | .allow f => do
      let fs ← fileAllowWrite fs f
      return (.done, fs)
  | .remove name => do
      let (success, fs) ← filesysRemove fs name
      return (.success success, fs)
  | .close f => do
      let fs ← fileClose fs f
      return (.done, fs)

/-- A name a new file may have. -/
def FileName (name : CString) : Prop := name ≠ [] ∧ name.length ≤ nameMax

/-- A name a caller may use. -/
def CallerName (name : CString) : Prop := (∀ c ∈ name, c ≠ 0) ∧ ¬ OwnName name

/-- A file the caller has open. -/
def CallerFile (fs : FsState) (f : ℕ) : Prop := fs.freeMapFile ≠ some f ∧ fs.files f ≠ none

/-- The condition on a call in the state it is made in: the caller has the file, and the call keeps the
file system healthy; a write ends inside the largest file. -/
def StoreOk (fs : FsState) : StoreCall → Prop
  | .create name _ size => CallerName name ∧ CreateOk fs size
  | .open name => CallerName name
  | .length f => CallerFile fs f
  | .tell f => CallerFile fs f
  | .read f _ => CallerFile fs f
  | .write f data => CallerFile fs f ∧ WriteOk fs f data.length ∧
      ∀ file ∈ fs.files f, file.pos + data.length ≤ 8516608
  | .seek f _ => CallerFile fs f
  | .deny f => CallerFile fs f
  | .allow f => CallerFile fs f
  | .remove name => CallerName name ∧ RemoveOk fs name
  | .close f => CallerFile fs f ∧ FileCloseOk fs f

instance (name : CString) : Decidable (CallerName name) := inferInstanceAs (Decidable (_ ∧ _))

instance (fs : FsState) (f : ℕ) : Decidable (CallerFile fs f) := inferInstanceAs (Decidable (_ ∧ _))

instance (fs : FsState) : (c : StoreCall) → Decidable (StoreOk fs c)
  | .create _ _ _ => inferInstanceAs (Decidable (_ ∧ _))
  | .open name => inferInstanceAs (Decidable (CallerName name))
  | .length f => inferInstanceAs (Decidable (CallerFile fs f))
  | .tell f => inferInstanceAs (Decidable (CallerFile fs f))
  | .read f _ => inferInstanceAs (Decidable (CallerFile fs f))
  | .write f data => inferInstanceAs (Decidable (CallerFile fs f ∧ WriteOk fs f data.length ∧
      ∀ file ∈ fs.files f, file.pos + data.length ≤ 8516608))
  | .seek f _ => inferInstanceAs (Decidable (CallerFile fs f))
  | .deny f => inferInstanceAs (Decidable (CallerFile fs f))
  | .allow f => inferInstanceAs (Decidable (CallerFile fs f))
  | .remove _ => inferInstanceAs (Decidable (_ ∧ _))
  | .close _ => inferInstanceAs (Decidable (_ ∧ _))

/-! ## The store of a file system -/

/-- An open file as a handle on its inode's sector. -/
def FsState.opened (fs : FsState) (file : File) : Option (Handle ℕ) :=
  ((fs.inodes file.inode).map Inode.sector).map fun s => ⟨s, file.pos, file.denyWrite⟩

/-- The handles of callers. -/
def FsState.handleOf (fs : FsState) (f : ℕ) : Option (Handle ℕ) :=
  if fs.freeMapFile = some f then none else (fs.files f).bind fs.opened

/-- The store that a caller sees, over the ghost data of the file system. -/
structure Shows (node : ℕ → Sector) (ent : ℕ → DirEntry) (cnt : ℕ) (fs : FsState)
    (A : Store CString ℕ ℕ UInt8) : Prop where
  named : ∀ name s, A.named name = some s ↔
    ¬ OwnName name ∧ ∃ i < cnt, Matches ent name i ∧ (ent i).sector = s
  /-- No two entries have one name. -/
  distinct : ∀ name, ¬ OwnName name → ∀ i < cnt, ∀ j < cnt, Matches ent name i → Matches ent name j → i = j
  handles : ∀ f, A.handle f = fs.handleOf f
  ordinary : ∀ f x, A.handle f = some x → x.file ≠ rootDirSector
  contents : ∀ s, A.Alive s → A.contents s = bytesOf fs.dev.disk (node s)

/-- The file system is healthy and shows this store, and the sectors that are free are those of the free
map. -/
def Represents (fs : FsState) (A : Store CString ℕ ℕ UInt8) : Prop :=
  ∃ use live node ent cnt, FsOk use live node [] ent cnt fs ∧ Shows node ent cnt fs A ∧
    A.free = freeSectors fs.freeMap

section

variable {use use' : ℕ → Option Use} {live live' : ℕ → Prop} {node node' : ℕ → Sector} {held : List ℕ}
  {ent : ℕ → DirEntry} {cnt : ℕ} {fs fs' : FsState} {A : Store CString ℕ ℕ UInt8} {name : CString}
  {s f : ℕ} {file : File}

theorem FsState.opened_ok {ino : Inode} (hino : fs.inodes file.inode = some ino) :
    fs.opened file = some ⟨ino.sector, file.pos, file.denyWrite⟩ := by
  rw [FsState.opened, hino]
  rfl

/-- A handle stays what it is if its file does, and the file's inode stays at its sector. -/
theorem FsState.handleOf_congr (hmap : fs'.freeMapFile = fs.freeMapFile) (hf : fs'.files f = fs.files f)
    (inode : ∀ file, fs.files f = some file →
      (fs'.inodes file.inode).map Inode.sector = (fs.inodes file.inode).map Inode.sector) :
    fs'.handleOf f = fs.handleOf f := by
  rw [FsState.handleOf, FsState.handleOf, hmap, hf]
  cases h : fs.files f with
  | none => rfl
  | some file => rw [Option.bind_some, Option.bind_some, FsState.opened, FsState.opened, inode file h]

theorem FsState.handleOf_ok (hne : fs.freeMapFile ≠ some f) (hf : fs.files f = some file) {ino : Inode}
    (hino : fs.inodes file.inode = some ino) :
    fs.handleOf f = some ⟨ino.sector, file.pos, file.denyWrite⟩ := by
  rw [FsState.handleOf, if_neg hne, hf, Option.bind_some, FsState.opened_ok hino]

/-- A handle comes from an open file. -/
theorem FsState.handleOf_some {x : Handle ℕ} (h : fs.handleOf f = some x) :
    fs.freeMapFile ≠ some f ∧ ∃ file ino, fs.files f = some file ∧ fs.inodes file.inode = some ino ∧
      x = ⟨ino.sector, file.pos, file.denyWrite⟩ := by
  unfold FsState.handleOf at h
  split at h
  · cases h
  · next hne =>
      obtain ⟨file, hf, h⟩ := Option.bind_eq_some_iff.mp h
      unfold FsState.opened at h
      obtain ⟨s, hs, rfl⟩ := Option.map_eq_some_iff.mp h
      obtain ⟨ino, hino, rfl⟩ := Option.map_eq_some_iff.mp hs
      exact ⟨hne, file, ino, hf, hino, rfl⟩

namespace Shows

/-- What something refers to is an ordinary file. -/
theorem alive (sh : Shows node ent cnt fs A) (h : FsOk use live node held ent cnt fs) (hs : A.Alive s) :
    live s ∧ s ≠ freeMapSector ∧ s ≠ rootDirSector := by
  rcases hs with ⟨name, hn⟩ | ⟨f, x, hx, rfl⟩
  · obtain ⟨hown, i, hi, hm, rfl⟩ := (sh.named name s).mp hn
    obtain ⟨hlive, hsec⟩ := h.root.entries i hi hm.1
    refine ⟨hlive, hsec, fun e => hown ?_⟩
    rw [← hm.2]
    exact h.root.dots i hi hm.1 e
  · have hroot := sh.ordinary f x hx
    rw [sh.handles] at hx
    obtain ⟨hne, file, ino, hf, hino, rfl⟩ := FsState.handleOf_some hx
    obtain ⟨a, ha, hlive, o, -⟩ := h.file_inode hf
    rw [hino, Option.some.injEq] at ha
    subst ha
    exact ⟨hlive, (h.offMap_iff o.listed hino).mp (h.mapPrivate f file hf hne), hroot⟩

/-- The handle of a file. -/
theorem handle_of_file (sh : Shows node ent cnt fs A) (hne : fs.freeMapFile ≠ some f)
    (hf : fs.files f = some file) {ino : Inode} (hino : fs.inodes file.inode = some ino) :
    A.handle f = some ⟨ino.sector, file.pos, file.denyWrite⟩ := by
  rw [sh.handles, FsState.handleOf_ok hne hf hino]

/-- The handle of a caller's file, which is open on a live inode. -/
theorem handle (sh : Shows node ent cnt fs A) (h : FsOk use live node held ent cnt fs)
    (hc : CallerFile fs f) : ∃ file ino, fs.files f = some file ∧ fs.inodes file.inode = some ino ∧
      live ino.sector ∧ OpenAt ino.sector file.inode fs ∧ ino.data = node ino.sector ∧
      A.handle f = some ⟨ino.sector, file.pos, file.denyWrite⟩ ∧
      A.contents ino.sector = bytesOf fs.dev.disk (node ino.sector) := by
  obtain ⟨hne, hsome⟩ := hc
  obtain ⟨file, hf⟩ := Option.ne_none_iff_exists'.mp hsome
  obtain ⟨ino, hino, hlive, o, hdata⟩ := h.file_inode hf
  have hx := sh.handle_of_file hne hf hino
  exact ⟨file, ino, hf, hino, hlive, o, hdata, hx, sh.contents _ (.inr ⟨f, _, hx, rfl⟩)⟩

/-- A step that leaves the entries, the handles and the bytes of ordinary files alone. -/
theorem keep (sh : Shows node ent cnt fs A) (h : FsOk use live node held ent cnt fs)
    (hmap : fs'.freeMapFile = fs.freeMapFile) (hfiles : fs'.files = fs.files) (inodes : SameInodes fs fs')
    (hbytes : ∀ x, live x → x ≠ freeMapSector → x ≠ rootDirSector →
      bytesOf fs'.dev.disk (node' x) = bytesOf fs.dev.disk (node x)) : Shows node' ent cnt fs' A where
  named := sh.named
  distinct := sh.distinct
  handles g := by
    rw [sh.handles, FsState.handleOf_congr hmap (congrFun hfiles g) (inodes g)]
  ordinary := sh.ordinary
  contents s hs := by
    obtain ⟨hlive, h0, h1⟩ := sh.alive h hs
    rw [sh.contents s hs, hbytes s hlive h0 h1]

end Shows

/-- What is alive once a handle has changed was alive before, or is the handle's file. -/
theorem alive_setHandle {o : Option (Handle ℕ)} (hs : (A.setHandle f o).Alive s) :
    A.Alive s ∨ ∃ x, o = some x ∧ x.file = s := by
  rcases hs with hn | ⟨g, x, hx, hfile⟩
  · exact .inl (.inl hn)
  · have hx' : Function.update A.handle f o g = some x := hx
    by_cases e : g = f
    · rw [e, Function.update_self] at hx'
      exact .inr ⟨x, hx', hfile⟩
    · rw [Function.update_of_ne e] at hx'
      exact .inl (.inr ⟨g, x, hx', hfile⟩)

/-- What is alive once a name has changed was alive before, or is what the name leads to now. -/
theorem alive_setName {o : Option ℕ} (hs : (A.setName name o).Alive s) : A.Alive s ∨ o = some s := by
  rcases hs with ⟨m, hm⟩ | hh
  · have hm' : Function.update A.named name o m = some s := hm
    by_cases e : m = name
    · rw [e, Function.update_self] at hm'
      exact .inr hm'
    · rw [Function.update_of_ne e] at hm'
      exact .inl (.inl ⟨m, hm'⟩)
  · exact .inl (.inr hh)

/-- One entry has changed, and all names but one are where they were. -/
theorem matches_other {j i : ℕ} {e : DirEntry} {other : CString} (hj : j ≤ cnt)
    (hnew : e.inUse = true → e.name = name) (hne : other ≠ name) :
    (i < max cnt (j + 1) ∧ Matches (Function.update ent j e) other i) ↔
      i < cnt ∧ i ≠ j ∧ Matches ent other i := by
  constructor
  · rintro ⟨hi, hu, hm⟩
    rcases RootOk.entry_cases hj hi hu with ⟨-, he, hused⟩ | ⟨hlt, hij, he, hu'⟩
    · rw [he] at hm
      exact absurd (hm.symm.trans (hnew hused)) hne
    · rw [he] at hm
      exact ⟨hlt, hij, hu', hm⟩
  · rintro ⟨hi, hij, hm⟩
    refine ⟨by omega, ?_⟩
    rw [Matches, Function.update_of_ne hij]
    exact hm

namespace Shows

/-- A name that no entry has is free. -/
theorem named_none (sh : Shows node ent cnt fs A) (hnone : ∀ i < cnt, ¬ Matches ent name i) :
    A.named name = none := by
  cases h : A.named name with
  | none => rfl
  | some s =>
      obtain ⟨-, i, hi, hm, -⟩ := (sh.named name s).mp h
      exact absurd hm (hnone i hi)

/-- Writing a file denied is what an open inode counts. -/
theorem denied_iff (sh : Shows node ent cnt fs A) (h : FsOk use live node held ent cnt fs) {p : ℕ} {ino : Inode}
    (hp : p ∈ fs.openInodes) (hino : fs.inodes p = some ino) (hsec : ino.sector ≠ freeMapSector) :
    A.Denied ino.sector ↔ ino.denyWriteCnt ≠ 0 := by
  rw [h.sound.heap.deny p hp ino hino, Nat.cast_ne_zero, Finset.card_ne_zero]
  constructor
  · rintro ⟨g, x, hx, hfile, hden⟩
    rw [sh.handles] at hx
    obtain ⟨-, file, a, hf, ha, rfl⟩ := FsState.handleOf_some hx
    obtain ⟨hg, hq⟩ := h.sound.heap.file g file hf
    have e := h.sound.heap.unique _ hq p hp a ino ha hino hfile
    exact ⟨g, mem_deniersOn.mpr ⟨hg, file, hf, e, hden⟩⟩
  · rintro ⟨g, hg⟩
    obtain ⟨-, file, hf, rfl, hden⟩ := mem_deniersOn.mp hg
    -- `free_map_file` is open on another inode
    have hne : fs.freeMapFile ≠ some g := by
      intro e
      obtain ⟨fm, q, hfm, map, -⟩ := h.mapFile
      obtain ⟨mf, hmf, hq⟩ := map.file
      obtain ⟨mino, hmino, hmsec, -⟩ := map.inode
      rw [hfm, Option.some.injEq] at e
      rw [e, hf, Option.some.injEq] at hmf
      rw [hmf, hq, hmino, Option.some.injEq] at hino
      exact hsec (hino ▸ hmsec)
    exact ⟨g, _, sh.handle_of_file hne hf hino, rfl, hden⟩

/-- Whether a name can be given to a new file, read off the entries and the free map. -/
theorem canCreate_iff (sh : Shows node ent cnt fs A) (hcount : A.free = freeSectors fs.freeMap)
    (hown : ¬ OwnName name) : A.CanCreate FileName name ↔
      (name ≠ [] ∧ name.length ≤ nameMax ∧ ∀ i < cnt, ¬ Matches ent name i) ∧
        0 < freeSectors fs.freeMap := by
  rw [Store.CanCreate, hcount, FileName]
  constructor
  · rintro ⟨⟨hne, hlen⟩, hnone, hfree⟩
    refine ⟨⟨hne, hlen, fun i hi hm => ?_⟩, hfree⟩
    have hsome := (sh.named name _).mpr ⟨hown, i, hi, hm, rfl⟩
    rw [hnone] at hsome
    cases hsome
  · rintro ⟨⟨hne, hlen, hnone⟩, hfree⟩
    exact ⟨⟨hne, hlen⟩, sh.named_none hnone, hfree⟩

/-! ## Changes of the store -/

/-- What is free is no part of what the file system shows. -/
theorem setFree (sh : Shows node ent cnt fs A) (free : ℕ) : Shows node ent cnt fs (A.setFree free) :=
  ⟨sh.named, sh.distinct, sh.handles, sh.ordinary, sh.contents⟩

/-- The contents of one file change. -/
theorem setContents (sh : Shows node ent cnt fs A) (h : FsOk use live node held ent cnt fs)
    (hmap : fs'.freeMapFile = fs.freeMapFile) (hfiles : fs'.files = fs.files) (inodes : SameInodes fs fs')
    {l : List UInt8} (hself : l = bytesOf fs'.dev.disk (node' s))
    (hothers : ∀ x, live x → x ≠ s → x ≠ freeMapSector → x ≠ rootDirSector →
      bytesOf fs'.dev.disk (node' x) = bytesOf fs.dev.disk (node x)) :
    Shows node' ent cnt fs' (A.setContents s l) where
  named := sh.named
  distinct := sh.distinct
  handles g := (sh.handles g).trans (FsState.handleOf_congr hmap (congrFun hfiles g) (inodes g)).symm
  ordinary := sh.ordinary
  contents x hx := by
    have alive : A.Alive x := hx
    obtain ⟨hlive, h0, h1⟩ := sh.alive h alive
    show Function.update A.contents s l x = _
    by_cases e : x = s
    · rw [e, Function.update_self, hself]
    · rw [Function.update_of_ne e, sh.contents x alive, hothers x hlive e h0 h1]

/-- One handle changes. -/
theorem setHandle (sh : Shows node ent cnt fs A) {o : Option (Handle ℕ)} (hself : fs'.handleOf f = o)
    (hothers : ∀ g, g ≠ f → fs'.handleOf g = fs.handleOf g) (hord : ∀ x, o = some x → x.file ≠ rootDirSector)
    (hcontents : ∀ s, (A.setHandle f o).Alive s → A.contents s = bytesOf fs'.dev.disk (node' s)) :
    Shows node' ent cnt fs' (A.setHandle f o) where
  named := sh.named
  distinct := sh.distinct
  handles g := by
    show Function.update A.handle f o g = _
    by_cases e : g = f
    · rw [e, Function.update_self, hself]
    · rw [Function.update_of_ne e, hothers g e, sh.handles g]
  ordinary g x hx := by
    have hx' : Function.update A.handle f o g = some x := hx
    by_cases e : g = f
    · rw [e, Function.update_self] at hx'
      exact hord x hx'
    · rw [Function.update_of_ne e] at hx'
      exact sh.ordinary g x hx'
  contents := hcontents

/-- A handle on a file becomes another handle on the file. -/
theorem sameHandle (sh : Shows node ent cnt fs A) {x x' : Handle ℕ} (hx : A.handle f = some x)
    (hfile : x'.file = x.file) (hself : fs'.handleOf f = some x')
    (hothers : ∀ g, g ≠ f → fs'.handleOf g = fs.handleOf g) (hdev : fs'.dev = fs.dev) :
    Shows node ent cnt fs' (A.setHandle f (some x')) := by
  refine sh.setHandle hself hothers (fun y hy => ?_) fun s hs => ?_
  · rw [← Option.some.inj hy, hfile]
    exact sh.ordinary f x hx
  · rw [hdev]
    refine sh.contents s ?_
    rcases alive_setHandle hs with alive | ⟨y, hy, rfl⟩
    · exact alive
    · exact .inr ⟨f, x, hx, by rw [← Option.some.inj hy, hfile]⟩

/-- The position in a caller's file changes. -/
theorem setPos (sh : Shows node ent cnt fs A) (hne : fs.freeMapFile ≠ some f) (hf : fs.files f = some file)
    {ino : Inode} (hino : fs.inodes file.inode = some ino) (pos : ℕ) :
    Shows node ent cnt (fs.setFile f { file with pos })
      (A.setHandle f (some ⟨ino.sector, pos, file.denyWrite⟩)) := by
  refine sh.sameHandle (sh.handle_of_file hne hf hino) rfl ?_ (fun g hg => ?_) rfl
  · have hf' : (fs.setFile f { file with pos }).files f = some { file with pos } := Function.update_self ..
    refine FsState.handleOf_ok ?_ hf' hino
    exact hne
  · exact FsState.handleOf_congr rfl (Function.update_of_ne hg _ _) fun _ _ => rfl

/-- The mark of a caller's file changes. -/
theorem setMark (sh : Shows node ent cnt fs A) (hne : fs.freeMapFile ≠ some f) (hf : fs.files f = some file)
    {ino : Inode} (hino : fs.inodes file.inode = some ino) {mark : Bool} (marked : Marked f file mark fs fs') :
    Shows node ent cnt fs' (A.setHandle f (some ⟨ino.sector, file.pos, mark⟩)) := by
  refine sh.sameHandle (sh.handle_of_file hne hf hino) rfl ?_ (fun g hg => ?_) marked.dev
  · have hsec := marked.inodes f file hf
    rw [hino, Option.map_some] at hsec
    obtain ⟨a, ha, hs⟩ := Option.map_eq_some_iff.mp hsec
    have hf' : fs'.files f = some { file with denyWrite := mark } := by
      rw [marked.files, Function.update_self]
    rw [FsState.handleOf_ok (marked.mapFile ▸ hne) hf' ha, hs]
  · refine FsState.handleOf_congr marked.mapFile ?_ (marked.inodes g)
    rw [marked.files, Function.update_of_ne hg]

/-- An entry of a name or of none becomes `e`, and the name leads where `e` says. -/
theorem setName (sh : Shows node ent cnt fs A) {j : ℕ} {e : DirEntry} {o : Option ℕ} (hj : j ≤ cnt)
    (hold : j < cnt → ∀ m, Matches ent m j → m = name) (hrest : ∀ i < cnt, i ≠ j → ¬ Matches ent name i)
    (hnew : e.inUse = true → e.name = name) (ho : ∀ s, o = some s ↔ e.inUse = true ∧ e.sector = s)
    (hown : ¬ OwnName name) (hhandles : ∀ g, fs'.handleOf g = fs.handleOf g) {c : ℕ → List UInt8}
    (hcontents : ∀ s, (A.setName name o).Alive s → c s = bytesOf fs'.dev.disk (node' s)) :
    Shows node' (Function.update ent j e) (max cnt (j + 1)) fs' ({ A with contents := c }.setName name o) := by
  -- the name has entry `j` or none
  have self : ∀ i, i < max cnt (j + 1) → Matches (Function.update ent j e) name i → i = j := by
    intro i hi hm
    by_contra hij
    rw [Matches, Function.update_of_ne hij] at hm
    exact hrest i (by omega) hij hm
  refine ⟨fun m s => ?_, fun m hm i hi k hk hmi hmk => ?_, fun g => ?_, sh.ordinary, hcontents⟩
  · show Function.update A.named name o m = some s ↔ _
    by_cases e' : m = name
    · rw [e', Function.update_self, ho]
      constructor
      · rintro ⟨hu, hs⟩
        refine ⟨hown, j, by omega, ?_, ?_⟩
        · rw [Matches, Function.update_self]
          exact ⟨hu, hnew hu⟩
        · rw [Function.update_self, hs]
      · rintro ⟨-, i, hi, hm, hs⟩
        rw [self i hi hm, Function.update_self] at hs
        rw [self i hi hm, Matches, Function.update_self] at hm
        exact ⟨hm.1, hs⟩
    · rw [Function.update_of_ne e', sh.named]
      refine and_congr_right fun hm => ⟨?_, ?_⟩
      · rintro ⟨i, hi, hmi, hs⟩
        have hij : i ≠ j := fun h => e' (hold (h ▸ hi) m (h ▸ hmi))
        obtain ⟨hi', hmi'⟩ := (matches_other hj hnew e').mpr ⟨hi, hij, hmi⟩
        exact ⟨i, hi', hmi', by rw [Function.update_of_ne hij, hs]⟩
      · rintro ⟨i, hi, hmi, hs⟩
        obtain ⟨hi', hij, hmi'⟩ := (matches_other hj hnew e').mp ⟨hi, hmi⟩
        rw [Function.update_of_ne hij] at hs
        exact ⟨i, hi', hmi', hs⟩
  · by_cases e' : m = name
    · rw [e'] at hmi hmk
      rw [self i hi hmi, self k hk hmk]
    · obtain ⟨hi', -, hmi'⟩ := (matches_other hj hnew e').mp ⟨hi, hmi⟩
      obtain ⟨hk', -, hmk'⟩ := (matches_other hj hnew e').mp ⟨hk, hmk⟩
      exact sh.distinct m hm i hi' k hk' hmi' hmk'
  · exact (sh.handles g).trans (hhandles g).symm

end Shows

end

end Pintos
