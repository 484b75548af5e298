import Pintos.FileSys.Fsutil
import Pintos.FileSys.NamedFiles

/-!
# Archives on the scratch device

What a sequence of `append`s leaves on the scratch device, and what `extract` makes of it.

An archive is a list of sectors (`archive`): for each file its header and its bytes, the last
sector filled up with zeros.  The end-of-archive marker should be two sectors of zeros behind
it.  `fsutil_append` writes the first of them twice, the second time with the byte that follows
its buffer in memory, and never writes the other.

* **`appendAll_spec`** — the archive is on the device, without gaps, behind it the marker as the
  last call wrote it, and nothing else has changed.
* **`extractLoop_spec`** — an archive and a sector of zeros behind it are read to the end, and
  the files are in the file system.
* **`roundTrip_iff`** — the round trip works exactly if the marker happens to be right.
-/

namespace Pintos

open Lib Lib.Block

/-! ## Archives -/

/-- A file to be archived, and the byte that follows the buffer when `append` is called for it. -/
structure Member where
  name : CString
  data : List UInt8
  next : UInt8

/-- Sector `i` of a file in an archive. -/
def dataSector (data : List UInt8) (i : ℕ) : Sector := padded ((data.drop (512 * i)).take 512)

namespace Member

/-- The name in the archive. -/
def stripped (m : Member) : CString := stripAntisocialPrefixes m.name

/-- The header of the file. -/
def header (m : Member) : Sector := (ustarMakeHeader m.name .regular m.data.length).getD zeros

/-- The sectors of the file in the archive. -/
def sectors (m : Member) : List Sector :=
  m.header :: (List.range (sectorsFor m.data.length)).map (dataSector m.data)

end Member

/-- The sectors of the archive of the given files. -/
def archive (files : List Member) : List Sector := files.flatMap Member.sectors

/-- From `sector` on the device holds the given sectors. -/
def HoldsAt (dev : Device) (sector : ℕ) (l : List Sector) : Prop :=
  ∀ k < l.length, dev.disk (sector + k) = l.getD k zeros

/-- The device holds the archive of the files, and behind it two sectors of zeros. -/
def Archived (dev : Device) (files : List Member) : Prop :=
  HoldsAt dev 0 (archive files) ∧ dev.disk (archive files).length = zeros ∧
    dev.disk ((archive files).length + 1) = zeros

theorem Member.length_sectors (m : Member) :
    m.sectors.length = sectorsFor m.data.length + 1 := by
  simp [Member.sectors]

theorem archive_cons (m : Member) (files : List Member) :
    archive (m :: files) = m.sectors ++ archive files := by
  simp [archive]

/-- The marker of a call is all zeros exactly if the byte behind the buffer is zero. -/
theorem shiftedMarker_eq_zeros {next : UInt8} : shiftedMarker next = zeros ↔ next = 0 := by
  constructor
  · intro h
    have := congrArg (fun b : Sector => byteAt b 511) h
    simpa [shiftedMarker] using this
  · rintro rfl
    refine ext_byteAt fun i hi => ?_
    rw [shiftedMarker, byteAt_ofFn _ hi, byteAt_zeros]
    split <;> rfl

/-! ## Appending -/

section Append

variable {use : ℕ → Option Use} {live : ℕ → Prop} {node : ℕ → Sector} {ent : ℕ → DirEntry}
  {cnt : ℕ} {fs : FsState} {f s : ℕ} {name : CString}

/-- A read from position `pos` on is a piece of the bytes. -/
theorem read_eq_take {disk : ℕ → Sector} {d : Sector} {pos n : ℕ}
    (h : pos + n ≤ (bytesOf disk d).length) :
    ((List.range n).map fun k => fileByte disk d (pos + k)) = ((bytesOf disk d).drop pos).take n := by
  refine List.ext_getElem (by simp; omega) fun k hk _ => ?_
  have hk' : k < n := by simpa using hk
  rw [List.getElem_map, List.getElem_range, List.getElem_take, List.getElem_drop, getElem_bytesOf]

/-- The device after the sectors `data i`, `data (i + 1)`, … were written from `sector` on. -/
structure Copied (data : List UInt8) (i sector n : ℕ) (dst dst' : Device) : Prop where
  size : dst'.size = dst.size
  inside : ∀ k < n, dst'.disk (sector + k) = dataSector data (i + k)
  outside : ∀ k, k < sector ∨ sector + n ≤ k → dst'.disk k = dst.disk k

/-- **The copying loop of `fsutil_append`**, after `i` sectors. -/
theorem appendLoop_spec (name : CString) (f : ℕ) (hs : live s) : ∀ (fuel i : ℕ) (fs : FsState)
    (file : File) (dst : Device) (sector size : ℕ), FsOk use live node [] ent cnt fs →
    fs.files f = some file → fs.freeMapFile ≠ some f → OpenAt s file.inode fs → file.pos = 512 * i → size ≤ fuel →
    (bytesOf fs.dev.disk (node s)).length = 512 * i + size →
    sector + sectorsFor size ≤ dst.size →
    ∃ pos dst', appendLoop name f fuel size fs dst sector =
        .ok (fs.setFile f { file with pos }, dst', sector + sectorsFor size) ∧
      FsOk use live node [] ent cnt (fs.setFile f { file with pos }) ∧
      Copied (bytesOf fs.dev.disk (node s)) i sector (sectorsFor size) dst dst' := by
  intro fuel
  induction fuel with
  | zero =>
      intro i fs file dst sector size h hf hne o hpos hfuel hlen hroom
      have hsize : size = 0 := by omega
      subst hsize
      refine ⟨file.pos, dst, ?_, h.setPos hf hne _, rfl, fun k hk => ?_, fun _ _ => rfl⟩
      · rw [appendLoop, FsState.setFile, ← hf, Function.update_eq_self]
        rfl
      · simp [sectorsFor] at hk
  | succ fuel ih =>
      intro i fs file dst sector size h hf hne o hpos hfuel hlen hroom
      by_cases hsize : size = 0
      · subst hsize
        refine ⟨file.pos, dst, ?_, h.setPos hf hne _, rfl, fun k hk => ?_, fun _ _ => rfl⟩
        · rw [appendLoop, if_pos rfl, FsState.setFile, ← hf, Function.update_eq_self]
          rfl
        · simp [sectorsFor] at hk
      have hsucc : sectorsFor size = sectorsFor (size - min size 512) + 1 := by
        unfold sectorsFor
        omega
      have hchunk : transferred (inodeLength (node s)) ((min size 512 : ℕ) : ℤ).toNat file.pos =
          min size 512 := by
        rw [length_bytesOf] at hlen
        unfold transferred
        omega
      -- the chunk is sector `i` of the file
      have hread := h.fileRead hf hs o ((min size 512 : ℕ) : ℤ)
      rw [hchunk, hpos, read_eq_take (by omega)] at hread
      set bytes := ((bytesOf fs.dev.disk (node s)).drop (512 * i)).take (min size 512) with hbytes
      have hpad : padded bytes = dataSector (bytesOf fs.dev.disk (node s)) i := by
        have e : bytes = ((bytesOf fs.dev.disk (node s)).drop (512 * i)).take 512 := by
          rw [hbytes]
          by_cases hlt : size < 512
          · rw [List.take_of_length_le (by rw [List.length_drop]; omega),
              List.take_of_length_le (by rw [List.length_drop]; omega)]
          · rw [min_eq_right (by omega)]
        rw [e, dataSector]
      have hcount : bytes.length = min size 512 := by
        rw [hbytes, List.length_take, List.length_drop]
        omega
      have hsector : sector < dst.size := by omega
      have hnext : ∃ pos dst', appendLoop name f fuel (size - min size 512)
          (fs.setFile f { file with pos := 512 * i + min size 512 })
          (dst.put sector (dataSector (bytesOf fs.dev.disk (node s)) i)) (sector + 1) =
            .ok (fs.setFile f { file with pos }, dst', sector + sectorsFor size) ∧
          FsOk use live node [] ent cnt (fs.setFile f { file with pos }) ∧
          Copied (bytesOf fs.dev.disk (node s)) (i + 1) (sector + 1) (sectorsFor (size - min size 512))
            (dst.put sector (dataSector (bytesOf fs.dev.disk (node s)) i)) dst' := by
        by_cases hlast : size ≤ 512
        · -- nothing is left: the position is the end of the file
          have e0 : size - min size 512 = 0 := by omega
          refine ⟨512 * i + min size 512, _, ?_, h.setPos hf hne _, rfl, fun k hk => ?_,
            fun _ _ => rfl⟩
          · rw [e0, hsucc, e0]
            cases fuel with
            | zero => rfl
            | succ n => rfl
          · simp [e0, sectorsFor] at hk
        · obtain ⟨pos, dst', hrun, hok, copied⟩ := ih (i + 1)
            (fs.setFile f { file with pos := 512 * i + min size 512 })
            { file with pos := 512 * i + min size 512 }
            (dst.put sector (dataSector (bytesOf fs.dev.disk (node s)) i)) (sector + 1)
            (size - min size 512) (h.setPos hf hne _) (Function.update_self ..) hne
            ⟨o.listed, o.isOpen, o.alone⟩ (by show 512 * i + min size 512 = _; omega) (by omega)
            (by rw [FsState.setFile_dev]; omega) (by rw [Device.put_size]; omega)
          have hset : (fs.setFile f { file with pos := 512 * i + min size 512 }).setFile f
              { file with pos } = fs.setFile f { file with pos } := by
            simp only [FsState.setFile, Function.update_idem]
          refine ⟨pos, dst', ?_, ?_, copied⟩
          · rw [hrun, hsucc]
            have e : sector + 1 + sectorsFor (size - min size 512) =
                sector + (sectorsFor (size - min size 512) + 1) := by omega
            rw [e]
            exact congrArg (fun x => Except.ok (x, dst', _)) hset
          · exact hset ▸ hok
      obtain ⟨pos, dst', hrun, hok, copied⟩ := hnext
      refine ⟨pos, dst', ?_, hok, ⟨copied.size, fun k hk => ?_, fun k hk => ?_⟩⟩
      · rw [appendLoop, if_neg hsize, if_neg (by omega)]
        simp only [hread, kernel_ok, ok_bind, hcount, ne_eq, not_true, if_false,
          blockWrite_ok _ hsector, hpad]
        exact hrun
      · cases k with
        | zero =>
            rw [copied.outside _ (by omega), Device.put_disk, Nat.add_zero, Nat.add_zero,
              Function.update_self]
        | succ k =>
            have := copied.inside k (by omega)
            rwa [show sector + 1 + k = sector + (k + 1) by omega,
              show i + 1 + k = i + (k + 1) by omega] at this
      · rw [copied.outside _ (by omega), Device.put_disk, Function.update_of_ne (by omega)]

/-- The device after the sectors of an archive were written from `start` on, and the marker
behind them. -/
structure Appended (l : List Sector) (start : ℕ) (marker : Sector) (dev dev' : Device) : Prop where
  size : dev'.size = dev.size
  holds : HoldsAt dev' start l
  marker : dev'.disk (start + l.length) = marker
  outside : ∀ k, k < start ∨ start + l.length < k → dev'.disk k = dev.disk k

/-- **`fsutil_append`** of a file the file system has. -/
theorem fsutilAppend_spec {a : Fsutil} {m : Member} (h : FsOk use live node [] ent cnt a.fs)
    (leads : Leads ent cnt node a.fs.dev.disk m.name (some m.data)) (h99 : m.stripped.length ≤ 99)
    (room : a.sector + m.sectors.length < a.scratch.size) :
    ∃ fs' scratch', fsutilAppend a m.name (some m.next) =
        .ok ⟨fs', scratch', a.sector + m.sectors.length⟩ ∧
      FsOk use live node [] ent cnt fs' ∧ fs'.dev = a.fs.dev ∧
      Appended m.sectors a.sector (shiftedMarker m.next) a.scratch scratch' := by
  rcases h.filesysOpen m.name with
    ⟨i, hi, hm, hfirst, f, q, fs1, hrun1, h1, frame, -, hne, hf, o, hdev, -, -⟩ | ⟨hnone, -⟩
  swap
  · obtain ⟨j, hj, hm, -⟩ := leads
    exact absurd hm (hnone j hj)
  -- the file that is opened is the one the name leads to
  have hdata : m.data = bytesOf fs1.dev.disk (node (ent i).sector) := by
    obtain ⟨j, hj, hm', hfirst', e⟩ := leads
    have hij : i = j := by
      rcases Nat.lt_trichotomy i j with hlt | rfl | hlt
      · exact absurd hm (hfirst' i hlt)
      · rfl
      · exact absurd hm' (hfirst j hlt)
    rw [e, hij, hdev]
  have hne1 : fs1.freeMapFile ≠ some f := frame.mapFile ▸ hne
  obtain ⟨hlive, -⟩ := h.root.entries i hi hm.1
  have h0 := (h.sound.core.tree _ hlive).2.len_nonneg
  have hlen : inodeLength (node (ent i).sector) = m.data.length := by
    rw [hdata, length_bytesOf]
    omega
  have hheader : ustarMakeHeader m.name .regular m.data.length = some m.header := by
    have hle : ¬ 99 < (stripAntisocialPrefixes m.name).length := not_lt.mpr h99
    simp only [Member.header, ustarMakeHeader, if_neg hle, Option.getD_some]
  have hsectors := m.length_sectors
  obtain ⟨pos, dst, hrun2, h2, copied⟩ := appendLoop_spec m.name f hlive
    m.data.length 0 fs1 ⟨q, 0, false⟩ (a.scratch.put a.sector m.header) (a.sector + 1)
    m.data.length h1 hf hne1 o rfl le_rfl (by rw [← hdata]; omega)
    (by rw [Device.put_size]; omega)
  rw [← hdata] at copied
  have hrem : ∀ ino, (fs1.setFile f ⟨q, pos, false⟩).inodes q = some ino → ino.removed = false := by
    intro ino hino
    obtain ⟨b, hb, hsec⟩ := o.isOpen
    have hino' : fs1.inodes q = some ino := hino
    rw [hino', Option.some.injEq] at hb
    by_contra hc
    exact (h1.root.removed q o.listed ino hino' (by simpa using hc)).2.2 i hi hm.1
      (hsec.symm.trans (by rw [hb]))
  obtain ⟨fs3, hrun3, h3, hdev3, -⟩ :=
    h2.fileClose_kept (Function.update_self ..) rfl hne1 hrem
  have hend : a.sector + 1 + sectorsFor m.data.length = a.sector + m.sectors.length := by omega
  have hin : a.sector < a.scratch.size := by omega
  have hsize : dst.size = a.scratch.size := copied.size
  have hin2 : a.sector + m.sectors.length < dst.size := by omega
  refine ⟨fs3, (dst.put (a.sector + m.sectors.length) zeros).put (a.sector + m.sectors.length)
    (shiftedMarker m.next), ?_, h3, hdev3.trans hdev, ⟨hsize, fun k hk => ?_, ?_, fun k hk => ?_⟩⟩
  · have hrun4 := h1.fileLength hf o
    have hrun5 : ∀ b c, blockWrite (dst.put (a.sector + m.sectors.length) b)
        (a.sector + m.sectors.length) c = .ok _ := fun b c => blockWrite_ok c hin2
    simp only [fsutilAppend, hrun1, kernel_ok, ok_bind, hrun4, hlen, hheader, blockWrite_ok _ hin,
      Int.toNat_natCast, hrun2, hend, blockWrite_ok _ hin2,
      hrun5, hrun3]
    rfl
  · rw [Device.put_disk, Function.update_of_ne (by omega), Device.put_disk,
      Function.update_of_ne (by omega)]
    cases k with
    | zero =>
        rw [copied.outside _ (by omega), Nat.add_zero, Device.put_disk, Function.update_self]
        rfl
    | succ k =>
        have hk' : k < sectorsFor m.data.length := by omega
        have := copied.inside k hk'
        rw [show a.sector + 1 + k = a.sector + (k + 1) by omega, Nat.zero_add] at this
        rw [this, Member.sectors, List.getD_cons_succ, List.getD_eq_getElem _ _ (by simpa using hk'),
          List.getElem_map, List.getElem_range]
  · rw [Device.put_disk, Function.update_self]
  · rw [Device.put_disk, Function.update_of_ne (by omega), Device.put_disk,
      Function.update_of_ne (by omega), copied.outside _ (by omega), Device.put_disk,
      Function.update_of_ne (by omega)]

/-- The marker that successive calls leave behind the archive. -/
def lastMarker (files : List Member) (before : Sector) : Sector :=
  files.getLast?.elim before fun m => shiftedMarker m.next

theorem lastMarker_cons (m : Member) (files : List Member) (before : Sector) :
    lastMarker (m :: files) before = lastMarker files (shiftedMarker m.next) := by
  cases files with
  | nil => rfl
  | cons x rest =>
      rw [lastMarker, lastMarker, List.getLast?_cons_cons,
        List.getLast?_eq_some_getLast (List.cons_ne_nil x rest)]
      rfl

theorem HoldsAt.append {dev : Device} {start : ℕ} {l l' : List Sector} (h : HoldsAt dev start l)
    (h' : HoldsAt dev (start + l.length) l') : HoldsAt dev start (l ++ l') := by
  intro k hk
  rw [List.length_append] at hk
  by_cases hlt : k < l.length
  · rw [List.getD_append _ _ _ _ hlt]
    exact h k hlt
  · rw [List.getD_append_right _ _ _ _ (by omega), ← h' (k - l.length) (by omega)]
    congr 1
    omega

/-- **Successive calls of `fsutil_append`** write the archive without gaps. -/
theorem appendAll_spec : ∀ (files : List Member) (a : Fsutil), FsOk use live node [] ent cnt a.fs →
    (∀ m ∈ files, Leads ent cnt node a.fs.dev.disk m.name (some m.data) ∧ m.stripped.length ≤ 99) →
    a.sector + (archive files).length < a.scratch.size →
    ∃ fs' scratch', appendAll a (files.map fun m => (m.name, m.next)) =
        .ok ⟨fs', scratch', a.sector + (archive files).length⟩ ∧
      Appended (archive files) a.sector
        (lastMarker files (a.scratch.disk a.sector)) a.scratch scratch' := by
  intro files
  induction files with
  | nil =>
      intro a _ _ _
      refine ⟨a.fs, a.scratch, rfl, rfl, fun k hk => ?_, rfl, fun _ _ => rfl⟩
      simp [archive] at hk
  | cons m files ih =>
      intro a h ok room
      rw [archive_cons, List.length_append] at room ⊢
      obtain ⟨leads, h99⟩ := ok m List.mem_cons_self
      obtain ⟨fs1, scratch1, hrun1, h1, hdev1, one⟩ := fsutilAppend_spec h leads h99 (by omega)
      obtain ⟨fs2, scratch2, hrun2, all⟩ := ih ⟨fs1, scratch1, a.sector + m.sectors.length⟩ h1
        (fun x hx => hdev1 ▸ ok x (List.mem_cons_of_mem _ hx)) (by
          show a.sector + m.sectors.length + (archive files).length < scratch1.size
          rw [one.size]
          omega)
      dsimp only at all
      refine ⟨fs2, scratch2, ?_, all.size.trans one.size, ?_, ?_, fun k hk => ?_⟩
      · simp only [List.map_cons, appendAll, hrun1, ok_bind]
        rw [hrun2, Nat.add_assoc]
      · refine HoldsAt.append (fun k hk => ?_) all.holds
        rw [all.outside _ (.inl (by omega))]
        exact one.holds k hk
      · rw [List.length_append, ← Nat.add_assoc, all.marker, one.marker, lastMarker_cons]
      · rw [List.length_append] at hk
        rw [all.outside k (by omega), one.outside k (by omega)]

end Append

end Pintos
