import Pintos.FileSys.Persistence
import Pintos.FileSys.Space

/-!
# A file system as names with contents

What a caller sees of a healthy file system is a partial function from names to bytes.
`Leads` reads it off the entries and the inodes, and `observe` returns it
(`FsOk.observe_of_leads`).

Creating a file adds one name, and writing inside a file changes the bytes of that file;
every other name leads where it led.  The root directory's own names are left out: their
bytes are the entries.

* `FsOk.filesysCreate_added` — a creation that has room and a new name.
* `FsOk.fileWrite_inside` — a write that does not grow the file.
-/

namespace Pintos

open Lib Lib.Block

/-- The bytes of the file whose inode is `d`. -/
def bytesOf (disk : ℕ → Sector) (d : Sector) : List UInt8 :=
  (List.range (inodeLength d).toNat).map (fileByte disk d)

/-- What the name leads to: the bytes of the first entry in use under it, or nothing. -/
def Leads (ent : ℕ → DirEntry) (cnt : ℕ) (node : ℕ → Sector) (disk : ℕ → Sector) (name : CString) :
    Option (List UInt8) → Prop
  | some bytes => ∃ i < cnt, Matches ent name i ∧ (∀ k < i, ¬ Matches ent name k) ∧
      bytes = bytesOf disk (node (ent i).sector)
  | none => ∀ i < cnt, ¬ Matches ent name i

/-- The root directory's own names. -/
def OwnName (name : CString) : Prop := name = selfPath ∨ name = parentPath

instance (name : CString) : Decidable (OwnName name) := inferInstanceAs (Decidable (_ ∨ _))

section

variable {use use' : ℕ → Option Use} {live : ℕ → Prop} {node node' : ℕ → Sector}
  {held : List ℕ} {ent : ℕ → DirEntry} {cnt : ℕ} {fs fs' : FsState} {s f : ℕ} {name : CString}
  {o : Option (List UInt8)}

theorem length_bytesOf {disk : ℕ → Sector} {d : Sector} :
    (bytesOf disk d).length = (inodeLength d).toNat := by
  simp [bytesOf]

theorem getElem_bytesOf {disk : ℕ → Sector} {d : Sector} {i : ℕ} (hi : i < (bytesOf disk d).length) :
    (bytesOf disk d)[i] = fileByte disk d i := by
  simp [bytesOf]

/-- Files with the same bytes. -/
theorem bytesOf_congr {disk disk' : ℕ → Sector} {d d' : Sector} (hlen : inodeLength d' = inodeLength d)
    (hbyte : ∀ i : ℕ, (i : ℤ) < inodeLength d → fileByte disk' d' i = fileByte disk d i) :
    bytesOf disk' d' = bytesOf disk d := by
  rw [bytesOf, bytesOf, hlen]
  refine List.map_congr_left fun i hi => hbyte i ?_
  have := List.mem_range.mp hi
  omega

/-- A file whose sectors are left alone keeps its bytes. -/
theorem TreeOk.bytesOf_eq {disk disk' : ℕ → Sector} {d : Sector} (tree : TreeOk use disk s d)
    (keep : KeepsOwned use s disk disk') : bytesOf disk' d = bytesOf disk d := by
  refine bytesOf_congr rfl fun i hi => ?_
  exact fileByte_congr tree.ptrs keep (tree.present _ (by omega))

/-- **What a name leads to is what is observed.** -/
theorem FsOk.observe_of_leads (h : FsOk use live node [] ent cnt fs)
    (l : Leads ent cnt node fs.dev.disk name o) :
    Pintos.observe fs name = .ok (o.map fun bytes => ((bytes.length : ℤ), bytes)) := by
  rcases h.observe name with ⟨i, hi, hm, hfirst, hrun⟩ | ⟨hnone, hrun⟩
  · cases o with
    | none => exact absurd hm (l i hi)
    | some bytes =>
        obtain ⟨j, hj, hm', hfirst', rfl⟩ := l
        have e : i = j := by
          rcases Nat.lt_trichotomy i j with hlt | rfl | hlt
          · exact absurd hm (hfirst' i hlt)
          · rfl
          · exact absurd hm' (hfirst j hlt)
        subst e
        have h0 := (h.sound.core.tree _ (h.root.entries i hi hm.1).1).2.len_nonneg
        have hlen : ((inodeLength (node (ent i).sector)).toNat : ℤ) =
            inodeLength (node (ent i).sector) := by omega
        rw [hrun, Option.map_some, length_bytesOf, hlen]
        rfl
  · cases o with
    | none => exact hrun
    | some bytes =>
        obtain ⟨j, hj, hm', -⟩ := l
        exact absurd hm' (hnone j hj)

/-- Every name leads somewhere. -/
theorem FsOk.leads (h : FsOk use live node [] ent cnt fs) (name : CString) :
    ∃ o, Leads ent cnt node fs.dev.disk name o := by
  rcases h.observe name with ⟨i, hi, hm, hfirst, -⟩ | ⟨hnone, -⟩
  · exact ⟨some _, i, hi, hm, hfirst, rfl⟩
  · exact ⟨none, hnone⟩

theorem FsOk.leads_of_observe (h : FsOk use live node [] ent cnt fs) {n : ℤ} {bytes : List UInt8}
    (hobs : Pintos.observe fs name = .ok (some (n, bytes))) :
    Leads ent cnt node fs.dev.disk name (some bytes) := by
  obtain ⟨o, l⟩ := h.leads name
  rw [h.observe_of_leads l, Except.ok.injEq] at hobs
  cases o with
  | none => cases hobs
  | some bytes' =>
      simp only [Option.map_some, Option.some.injEq, Prod.mk.injEq] at hobs
      rw [← hobs.2]
      exact l

/-! ## A new name -/

namespace FsOk

/-- **`filesys_create` of a new name** that has room. -/
theorem filesysCreate_added (h : FsOk use live node held ent cnt fs) (hz : ∀ c ∈ name, c ≠ 0)
    {size : ℤ} (h0 : 0 ≤ size) (h1 : size ≤ 8516608)
    (hfree : 1 + demand (bytesToSectors size) ≤ freeSectors fs.freeMap)
    (room : DirRoom fs.dev.disk (fs.dev.disk rootDirSector)
      (freeSectors fs.freeMap - (1 + demand (bytesToSectors size)))) (isDir : Bool)
    (hname : name ≠ []) (hlen : name.length ≤ nameMax) (hnew : ∀ i < cnt, ¬ Matches ent name i) :
    ∃ t j e use' node' fs', Pintos.filesysCreate fs name size isDir = .ok (true, fs') ∧
      Added use live node held ent cnt name size t j e use' node' fs fs' := by
  obtain ⟨p, fs1, hrun1, h1', o1, same1⟩ := h.openInode h.rootLive
  obtain ⟨t, j, e, fs2, use', node', fs', hrun2, hrun3, added⟩ :=
    h1'.createIn_added o1 hz h0 h1 (same1.freeMap ▸ hfree) (by rw [same1.dev, same1.freeMap]; exact room)
      isDir hname hlen hnew
  refine ⟨t, j, e, use', node', fs', ?_, { added with
    files := added.files.trans same1.files
    mapFile := added.mapFile.trans same1.freeMapFile
    keep := ?_
    cost := ?_ }⟩
  · simp only [Pintos.filesysCreate, if_neg hname, hrun1, ok_bind, hrun2, hrun3]
  · rw [← same1.dev]
    exact added.keep
  · rw [← same1.freeMap]
    exact added.cost

namespace Added

variable {size : ℤ} {t j : ℕ} {e : DirEntry}

/-- The new name leads to the new file. -/
theorem leads_new (a : Added use live node held ent cnt name size t j e use' node' fs fs')
    (hnew : ∀ i < cnt, ¬ Matches ent name i) :
    Matches (Function.update ent j e) name j ∧
      ∀ k < j, ¬ Matches (Function.update ent j e) name k := by
  refine ⟨?_, fun k hk => ?_⟩
  · rw [Matches, Function.update_self]
    exact a.named
  · rw [Matches, Function.update_of_ne (by omega)]
    exact hnew k (by have := a.slot; omega)

/-- **Every other name leads where it led.** -/
theorem leads_other (a : Added use live node held ent cnt name size t j e use' node' fs fs')
    (h : FsOk use live node held ent cnt fs) {other : CString} (hne : other ≠ name)
    (hown : ¬ OwnName other) (l : Leads ent cnt node fs.dev.disk other o) :
    Leads (Function.update ent j e) (max cnt (j + 1)) node' fs'.dev.disk other o := by
  have back : ∀ k < max cnt (j + 1), Matches (Function.update ent j e) other k →
      k < cnt ∧ Matches ent other k := by
    rintro k hk ⟨hu, hm⟩
    rcases RootOk.entry_cases a.slot hk hu with ⟨-, he, -⟩ | ⟨hlt, -, he, hu'⟩
    · rw [he] at hm
      exact absurd (hm.symm.trans a.named.2) hne
    · rw [he] at hm
      exact ⟨hlt, hu', hm⟩
  cases o with
  | none => exact fun k hk hm => l k (back k hk hm).1 (back k hk hm).2
  | some bytes =>
      obtain ⟨i, hi, hm, hfirst, rfl⟩ := l
      have hij : i ≠ j := by
        rintro rfl
        have := hm.1
        simp [a.wasFree hi] at this
      obtain ⟨hlive, hsec0⟩ := h.root.entries i hi hm.1
      have hroot : (ent i).sector ≠ rootDirSector := fun e => hown (hm.2 ▸ h.root.dots i hi hm.1 e)
      refine ⟨i, by omega, ?_, fun k hk hm' => hfirst k hk (back k (by omega) hm').2, ?_⟩
      · rw [Matches, Function.update_of_ne hij]
        exact hm
      · rw [Function.update_of_ne hij, a.nodes _ hlive hroot]
        exact ((h.sound.core.tree _ hlive).2.bytesOf_eq (a.keep _ hlive hroot hsec0)).symm

end Added

/-! ## Writing inside a file -/

/-- What a write of `size` bytes inside the file at `s` leaves. -/
structure WroteInside (use' : ℕ → Option Use) (live : ℕ → Prop) (node node' : ℕ → Sector)
    (held : List ℕ) (ent : ℕ → DirEntry) (cnt s f : ℕ) (file : File) (buffer : ℕ → UInt8) (size : ℕ)
    (fs fs' : FsState) : Prop where
  ok : FsOk use' live node' held ent cnt fs'
  moved : fs'.files f = some { file with pos := file.pos + size }
  mapFile : fs'.freeMapFile = fs.freeMapFile
  isOpen : OpenAt s file.inode fs'
  allowed : ∀ ino, fs'.inodes file.inode = some ino → ino.denyWriteCnt = 0 ∧ ino.removed = false
  length : inodeLength (node' s) = inodeLength (node s)
  bytes : ∀ i : ℕ, (i : ℤ) < inodeLength (node s) → fileByte fs'.dev.disk (node' s) i =
    if file.pos ≤ i ∧ i < file.pos + size then buffer (i - file.pos)
    else fileByte fs.dev.disk (node s) i
  others : ∀ x, live x → x ≠ s → x ≠ freeMapSector →
    bytesOf fs'.dev.disk (node' x) = bytesOf fs.dev.disk (node x)
  free : fs'.freeMap = fs.freeMap

/-- **`file_write` inside a file.** -/
theorem fileWrite_inside (h : FsOk use live node held ent cnt fs) {file : File}
    (hf : fs.files f = some file) (hne : fs.freeMapFile ≠ some f) (hs : live s)
    (hs0 : s ≠ freeMapSector) (hs1 : s ≠ rootDirSector) (o : OpenAt s file.inode fs)
    (allowed : ∀ ino, fs.inodes file.inode = some ino → ino.denyWriteCnt = 0 ∧ ino.removed = false)
    (buffer : ℕ → UInt8) {size : ℕ} (hpos : 0 < size)
    (hin : (file.pos : ℤ) + size ≤ inodeLength (node s)) :
    ∃ use' node' fs', Pintos.fileWrite fs f buffer size = .ok ((size : ℤ), fs') ∧
      WroteInside use' live node node' held ent cnt s f file buffer size fs fs' := by
  obtain ⟨huse, tree⟩ := h.sound.core.tree s hs
  have h0 := tree.len_nonneg
  have h1 := tree.len_le
  obtain ⟨ino, hino, hsec, hdata⟩ := o.data h.sound.core
  obtain ⟨hgrow, hdemand⟩ := growthOk_inRange fs.dev.disk h0 h1 hin
  obtain ⟨use', node', fs1, moved, hmoved, hrun, g, hlen, hsync, hbytes⟩ :=
    inodeWriteAt_spec h.sound.core h.sound.ready hs hs0 o (fun a ha => (allowed a ha).1) buffer
      hgrow (by omega)
  have hw : wrap32 (file.pos + (size : ℤ)) = file.pos + size := wrap32_of_range (by omega) (by omega)
  have hgrown : grownLength (inodeLength (node s)) size file.pos = inodeLength (node s) := by
    rw [grownLength, hw, max_eq_left hin]
  have hall : moved = size := by
    rw [hmoved, hgrown, transferred]
    omega
  subst hall
  rw [hgrown] at hlen
  obtain ⟨ok1, hfiles, hmap⟩ := h.grow o hs hs1 g hsync
  have hf1 : fs1.files f = some file := hfiles ▸ hf
  have hpast : ¬ pastBlocks (inodeLength (node s)) moved file.pos := by
    unfold pastBlocks
    rw [wrap32_of_range (by omega) (by omega), Int.tdiv_eq_ediv_of_nonneg (by omega),
      Int.tdiv_eq_ediv_of_nonneg h0]
    omega
  refine ⟨use', node', fs1.setFile f { file with pos := file.pos + moved }, ?_,
    ok1.setPos hf1 (hmap ▸ hne) _, Function.update_self .., hmap, ?_, fun a ha => ?_, hlen,
    fun i hi => ?_, fun x hx hxs hx0 => ?_, ?_⟩
  · simp only [Pintos.fileWrite, FsState.file_ok hf, ok_bind, hrun]
    rfl
  · exact ⟨(g.openAt o).listed, (g.openAt o).isOpen, (g.openAt o).alone⟩
  · have ha' : fs1.inodes file.inode = some a := ha
    rw [g.inode hino, Option.some.injEq] at ha'
    rw [← ha']
    exact allowed ino hino
  · rw [← hlen] at hi
    rw [show (fs1.setFile f { file with pos := file.pos + moved }).dev = fs1.dev from rfl,
      hbytes i hi, if_pos (show (i : ℤ) < inodeLength (node s) from hlen ▸ hi)]
  · have keep := g.keepsOwned huse hxs hx0
    rw [g.nodes x hxs]
    exact (h.sound.core.tree x hx).2.bytesOf_eq keep
  · show fs1.freeMap = fs.freeMap
    exact inodeWriteAt_freeMap hino (hdata ▸ hpast) (by rw [hdata, hw]; exact hin) hrun

/-! ## Opening and closing -/

/-- **`file_close`** of a file that is not removed and does not deny writes. -/
theorem fileClose_kept (h : FsOk use live node held ent cnt fs) {file : File}
    (hf : fs.files f = some file) (hdeny : file.denyWrite = false) (hne : fs.freeMapFile ≠ some f)
    (hrem : ∀ ino, fs.inodes file.inode = some ino → ino.removed = false) :
    ∃ fs', Pintos.fileClose fs f = .ok fs' ∧ FsOk use live node held ent cnt fs' ∧
      fs'.dev = fs.dev ∧ fs'.freeMap = fs.freeMap := by
  obtain ⟨ino, hino, -, o, -⟩ := h.file_inode hf
  have hsec := (h.offMap_iff o.listed hino).mp (h.mapPrivate f file hf hne)
  have hallow : Pintos.fileAllowWrite fs f = .ok fs := by
    simp only [Pintos.fileAllowWrite, FsState.file_ok hf, ok_bind, hdeny, Bool.false_eq_true, if_false]
    rfl
  have hino1 : (fs.freeFile f).inodes file.inode = some ino := hino
  obtain ⟨fs', hrun, h', same, -⟩ := (h.freeFile hf hdeny hne).closeKept hino1 (hrem ino hino) hsec
  refine ⟨fs', ?_, h', same.dev, same.freeMap⟩
  simp only [Pintos.fileClose, hallow, ok_bind, FsState.file_ok hf]
  exact hrun

end FsOk

end

end Pintos
