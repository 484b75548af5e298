import Mathlib.Data.List.TakeWhile
import Pintos.FileSys.Extraction

/-!
# The round trip over the scratch device

Files are appended to the scratch device one by one, and the archive is then extracted into an
empty file system.  Everything up to the marker is right in every case; whether the marker is
depends on what lies around: the byte behind the buffer of the last call goes into the sector
behind the archive, and the sector after that is as it was before (`MarkerOk`).

* **`roundTrip_iff`** — the device holds the archive and its marker exactly under `MarkerOk`, and
  under `MarkerOk` the extraction gives back the files.
* **`stale_sector_ends_roundTrip`** — a scratch device that held something else before.
-/

namespace Pintos

open Lib Lib.Block

/-- Append the files from the start of the scratch device on. -/
def appendFiles (src : FsState) (scratch : Device) (files : List Member) :
    Except FsutilPanic Fsutil :=
  appendAll ⟨src, scratch, 0⟩ (files.map fun m => (m.name, m.next))

/-- The files are appended, and the device holds their archive and its marker. -/
def Archives (src : FsState) (scratch : Device) (files : List Member) : Prop :=
  ∃ a, appendFiles src scratch files = .ok a ∧ Archived a.scratch files

/-- The files are appended and extracted, and the file system has then exactly these files. -/
def Extracts (src : FsState) (scratch : Device) (files : List Member) (target : FsState) : Prop :=
  ∃ a b, appendFiles src scratch files = .ok a ∧
    fsutilExtract ⟨target, a.scratch, 0⟩ true = .ok b ∧ ∀ name, ¬ OwnName name →
      observe b.fs name = .ok ((extracted files name).map fun bytes => ((bytes.length : ℤ), bytes))

/-- The archive is written and the files come back. -/
def RoundTrip (src : FsState) (scratch : Device) (files : List Member) (target : FsState) : Prop :=
  Archives src scratch files ∧ Extracts src scratch files target

/-- What the marker hangs on: the byte behind the buffer of the last call, and the sector after
the one it is written to. -/
def MarkerOk (files : List Member) (scratch : Device) : Prop :=
  (files = [] → scratch.disk 0 = zeros) ∧ (∀ m ∈ files.getLast?, m.next = 0) ∧
    scratch.disk ((archive files).length + 1) = zeros

/-- An empty file system that has room for the files: their names are different and valid, the
root directory need not grow beyond 128 entries, and the sectors suffice. -/
structure Fits (target : FsState) (files : List Member) : Prop where
  healthy : Healthy target
  empty : ∀ j < rootCount target, (rootEntry target j).inUse = true →
    OwnName (rootEntry target j).name
  hasRoot : 0 < rootCount target
  names : ∀ m ∈ files, m.stripped.length ≤ nameMax ∧ ¬ OwnName m.stripped
  distinct : (files.map Member.stripped).Nodup
  entries : usedCount (rootEntry target) (rootCount target) + files.length ≤
    max (rootCount target) 128
  space : (files.map fun m => 1 + demand (sectorsFor m.data.length)).sum +
    sectorsFor (20 * max (rootCount target)
      (usedCount (rootEntry target) (rootCount target) + files.length)) ≤
    freeSectors target.freeMap + sectorsFor (20 * rootCount target)

theorem lastMarker_eq_zeros {files : List Member} {before : Sector} :
    lastMarker files before = zeros ↔
      (files = [] → before = zeros) ∧ ∀ m ∈ files.getLast?, m.next = 0 := by
  rw [lastMarker]
  cases h : files.getLast? with
  | none =>
      rw [List.getLast?_eq_none_iff] at h
      simp [h]
  | some m =>
      have hne : files ≠ [] := by
        rintro rfl
        simp at h
      simp [shiftedMarker_eq_zeros, hne]

section

variable {src target : FsState} {scratch : Device} {files : List Member}

theorem length_strip (s : CString) : (stripAntisocialPrefixes s).length ≤ max s.length 1 := by
  rw [stripAntisocialPrefixes]
  split
  · simp [selfPath]
  · exact (length_stripLoop s.length s).trans (le_max_left _ _)

/-- A name of a file system is a string of at most 15 characters. -/
theorem name_of_observe (healthy : Healthy src) {name : CString} {r : ℤ × List UInt8}
    (h : observe src name = .ok (some r)) : (∀ c ∈ name, c ≠ 0) ∧ name.length ≤ 15 := by
  obtain ⟨use, live, node, ent, cnt, ok⟩ := healthy
  obtain ⟨n, bytes⟩ := r
  obtain ⟨i, hi, hm, -⟩ := ok.leads_of_observe h
  rw [← hm.2]
  refine ⟨fun c hc => by simpa using List.mem_takeWhile_imp hc, ?_⟩
  refine (List.takeWhile_sublist _).length_le.trans ?_
  simp [nameMax]

/-- What the calls of `append` leave, over the ghost data of the source. -/
theorem appendFiles_spec (healthy : Healthy src)
    (shown : ∀ m ∈ files, observe src m.name = .ok (some ((m.data.length : ℤ), m.data)))
    (room : (archive files).length + 2 ≤ scratch.size) :
    ∃ a, appendFiles src scratch files = .ok a ∧
      Appended (archive files) 0 (lastMarker files (scratch.disk 0)) scratch a.scratch := by
  obtain ⟨use, live, node, ent, cnt, ok⟩ := healthy
  obtain ⟨fs', scratch', hrun, done⟩ := appendAll_spec files ⟨src, scratch, 0⟩ ok (fun m hm => by
    refine ⟨ok.leads_of_observe (shown m hm), ?_⟩
    have h15 := (name_of_observe ⟨_, _, _, _, _, ok⟩ (shown m hm)).2
    have := length_strip m.name
    unfold Member.stripped
    omega) (by show 0 + (archive files).length < scratch.size; omega)
  exact ⟨_, hrun, done⟩

/-- **The marker.**  The device holds archive and marker exactly under `MarkerOk`. -/
theorem archived_iff {dev dev' : Device}
    (done : Appended (archive files) 0 (lastMarker files (dev.disk 0)) dev dev') :
    Archived dev' files ↔ MarkerOk files dev := by
  have hmarker := done.marker
  have hafter := done.outside ((archive files).length + 1) (.inr (by omega))
  rw [Nat.zero_add] at hmarker
  rw [Archived, hmarker, hafter, lastMarker_eq_zeros, MarkerOk, and_assoc]
  exact ⟨fun h => h.2, fun h => ⟨done.holds, h⟩⟩

theorem Archives.marker (healthy : Healthy src)
    (shown : ∀ m ∈ files, observe src m.name = .ok (some ((m.data.length : ℤ), m.data)))
    (room : (archive files).length + 2 ≤ scratch.size) :
    Archives src scratch files ↔ MarkerOk files scratch := by
  obtain ⟨a, hrun, done⟩ := appendFiles_spec healthy shown room
  rw [← archived_iff done]
  constructor
  · rintro ⟨b, hb, h⟩
    rw [hrun, Except.ok.injEq] at hb
    exact hb ▸ h
  · exact fun h => ⟨a, hrun, h⟩

/-- An empty file system has no file. -/
theorem Fits.stored (fits : Fits target files) :
    Stored (fun _ => none) (usedCount (rootEntry target) (rootCount target)) (rootCount target)
      (freeSectors target.freeMap) target := by
  obtain ⟨use, live, node, ent, cnt, ok⟩ := fits.healthy
  have hcnt := ok.rootCount_eq
  have hused : usedCount (rootEntry target) cnt = usedCount ent cnt := by
    refine congrArg Finset.card (Finset.filter_congr fun j hj => ?_)
    rw [ok.rootEntry_eq (Finset.mem_range.mp hj)]
  refine ⟨use, live, node, ent, hcnt ▸ ok, ?_, le_rfl, fun name hown i hi hm => hown ?_⟩
  · rw [hcnt, hused]
  · have hi' : i < cnt := hcnt ▸ hi
    have := fits.empty i hi
    rw [ok.rootEntry_eq hi'] at this
    exact hm.2 ▸ this hm.1

/-- The files of a healthy file system are storable where they fit. -/
theorem Fits.storable (fits : Fits target files) (healthy : Healthy src)
    (shown : ∀ m ∈ files, observe src m.name = .ok (some ((m.data.length : ℤ), m.data))) :
    ∀ m ∈ files, Storable m := by
  intro m hm
  refine ⟨(name_of_observe healthy (shown m hm)).1, (fits.names m hm).1, (fits.names m hm).2, ?_⟩
  obtain ⟨use, live, node, ent, cnt, ok⟩ := healthy
  obtain ⟨i, hi, hmatch, -, hdata⟩ := ok.leads_of_observe (shown m hm)
  have hle := (ok.sound.core.tree _ (ok.root.entries i hi hmatch.1).1).2.len_le
  rw [hdata, length_bytesOf]
  omega

theorem length_le_archive : ∀ files : List Member, files.length ≤ (archive files).length
  | [] => le_rfl
  | m :: files => by
      have ih := length_le_archive files
      rw [archive_cons, List.length_append, m.length_sectors, List.length_cons]
      omega

/-- **Extraction** of an archive with its marker. -/
theorem fsutilExtract_spec {dev : Device} (fits : Fits target files)
    (storable : ∀ m ∈ files, Storable m) (held : Archived dev files)
    (room : (archive files).length + 2 ≤ dev.size) :
    ∃ b, fsutilExtract ⟨target, dev, 0⟩ true = .ok b ∧ ∀ name, ¬ OwnName name →
      observe b.fs name = .ok ((extracted files name).map fun bytes => ((bytes.length : ℤ), bytes)) := by
  obtain ⟨hold, hzero, -⟩ := held
  have hcosts := storeCosts_eq files _ _ (usedCount_le (rootEntry target) (rootCount target))
  have hspace := fits.space
  have hlen := length_le_archive files
  obtain ⟨used', cnt', free', fs', hrun, use, live, node, ent, ok, -, -, leads⟩ :=
    extractLoop_spec files (dev.size + 1) _ _ _ _ target 0 fits.stored storable fits.distinct
      (fun _ _ => rfl) fits.hasRoot fits.entries (by omega) hold
      (by rw [Nat.zero_add]; exact hzero) (by omega) (by omega)
  have h0 : 0 < dev.size := by omega
  have h1 : 1 < (dev.put 0 zeros).size := by
    show 1 < dev.size
    omega
  refine ⟨⟨fs', (dev.put 0 zeros).put 1 zeros, 0 + (archive files).length + 1⟩, ?_,
    fun name hown => ?_⟩
  · simp only [fsutilExtract, if_true, hrun, ok_bind, blockWrite_ok _ h0, kernel_ok,
      blockWrite_ok _ h1]
    rfl
  · have := leads name hown
    simp only [Option.or_none] at this
    exact ok.observe_of_leads this

/-- **The round trip.**  For any files of a healthy file system, the device holds their archive
and its end-of-archive marker exactly under `MarkerOk`; and for any empty file system that has
room for them, the archive is right and its extraction gives exactly these files exactly then. -/
theorem roundTrip_iff (src : FsState) (scratch : Device) (files : List Member)
    (healthy : Healthy src)
    (shown : ∀ m ∈ files, observe src m.name = .ok (some ((m.data.length : ℤ), m.data)))
    (room : (archive files).length + 2 ≤ scratch.size) :
    (Archives src scratch files ↔ MarkerOk files scratch) ∧
      ∀ target, Fits target files →
        (RoundTrip src scratch files target ↔ MarkerOk files scratch) := by
  have harchives := Archives.marker healthy shown room
  refine ⟨harchives, fun target fits => ⟨fun h => harchives.mp h.1, fun h => ?_⟩⟩
  have hheld := harchives.mpr h
  refine ⟨hheld, ?_⟩
  obtain ⟨a, hrun, done⟩ := appendFiles_spec healthy shown room
  have hmark := (archived_iff done).mpr h
  obtain ⟨b, hextract, hobs⟩ := fsutilExtract_spec fits (fits.storable healthy shown) hmark
    (by rw [done.size]; exact room)
  exact ⟨a, b, hrun, hextract, hobs⟩

end

/-! ## Two runs -/

/-- A file of three bytes. -/
def smallMember (next : UInt8) : Member := ⟨[0x61], [0, 0, 0], next⟩

/-- A file system that holds the file. -/
theorem exists_source : ∃ src, Healthy src ∧ ∀ next, ∀ m ∈ [smallMember next],
    observe src m.name = .ok (some ((m.data.length : ℤ), m.data)) := by
  have hrun : okWith (filesysInit smallDevice (fun _ => false) true) (fun fs =>
      (replay fsStep (fun fs o => FsCall fs o ∧ StepOk fs o) fs [.create [0x61] 3 false]).any fun fs =>
        okWith (observe fs [0x61]) fun r => decide (r = some (3, [0, 0, 0]))) = true := by
    decide +kernel
  obtain ⟨fs0, hinit, hrun⟩ := okWith_iff.mp hrun
  obtain ⟨src, hreplay, hobs⟩ := (Option.any_eq_true _ _).mp hrun
  obtain ⟨r, hr, hval⟩ := okWith_iff.mp hobs
  refine ⟨src, healthy_of_run (by decide) hinit (replay_reaches _ hreplay), fun next m hm => ?_⟩
  rw [List.mem_singleton.mp hm]
  show observe src [0x61] = .ok (some (3, [0, 0, 0]))
  rw [hr, of_decide_eq_true hval]

theorem usedCount_eq (ent : ℕ → DirEntry) (cnt : ℕ) :
    usedCount ent cnt = ((List.range cnt).filter fun j => (ent j).inUse).length := by
  rw [usedCount, ← List.toFinset_range, ← List.toFinset_filter,
    List.toFinset_card_of_nodup (List.nodup_range.filter _)]

/-- An empty file system that has room for it. -/
theorem exists_target : ∃ target, ∀ next, Fits target [smallMember next] := by
  have hrun : okWith (filesysInit smallDevice (fun _ => false) true) (fun fs =>
      decide (rootCount fs = 16) && decide (3 ≤ freeSectors fs.freeMap) &&
      decide (((List.range 16).filter fun j => (rootEntry fs j).inUse).length = 2) &&
      (List.range 16).all fun j =>
        !(rootEntry fs j).inUse || decide (OwnName (rootEntry fs j).name)) = true := by
    decide +kernel
  obtain ⟨target, hinit, htest⟩ := okWith_iff.mp hrun
  simp only [Bool.and_eq_true, decide_eq_true_eq, List.all_eq_true, List.mem_range,
    Bool.or_eq_true, Bool.not_eq_true'] at htest
  obtain ⟨⟨⟨hcount, hfree⟩, hlist⟩, hempty⟩ := htest
  have hused : usedCount (rootEntry target) 16 = 2 := (usedCount_eq _ _).trans hlist
  have hdev : FormatOk smallDevice := by decide
  obtain ⟨fs1, use, live, node, ent, cnt, hformat, ok⟩ := filesysInit_format hdev fun _ => false
  rw [hinit, Except.ok.injEq] at hformat
  refine ⟨target, fun next => ⟨⟨use, live, node, ent, cnt, hformat ▸ ok⟩, fun j hj hu => ?_, by omega,
    fun m hm => ?_, by simp, ?_, ?_⟩⟩
  · rcases hempty j (hcount ▸ hj) with h | h
    · rw [hu] at h
      cases h
    · exact h
  · rw [List.mem_singleton.mp hm]
    show (stripAntisocialPrefixes [0x61]).length ≤ nameMax ∧
      ¬ OwnName (stripAntisocialPrefixes [0x61])
    decide
  · rw [hcount, hused]
    simp
  · rw [hcount, hused]
    show (1 + demand (sectorsFor 3) + 0) + sectorsFor (20 * max 16 (2 + 1)) ≤
      freeSectors target.freeMap + sectorsFor (20 * 16)
    have h1 : 1 + demand (sectorsFor 3) + 0 = 2 := by decide
    have h2 : sectorsFor (20 * max 16 (2 + 1)) = 1 := by decide
    omega

/-- The file of three bytes, on a blank scratch device and on one that held something else. -/
theorem small_roundTrip : ∃ src target, Fits target [smallMember 0] ∧
    (RoundTrip src smallDevice [smallMember 0] target ↔ MarkerOk [smallMember 0] smallDevice) := by
  obtain ⟨src, healthy, shown⟩ := exists_source
  obtain ⟨target, fits⟩ := exists_target
  exact ⟨src, target, fits 0, (roundTrip_iff src smallDevice [smallMember 0] healthy (shown 0)
    (by decide)).2 target (fits 0)⟩

theorem sixteen_sectors : 16 < 2 ^ 32 := by decide

/-- A scratch device of 16 sectors that held something before. -/
def staleDevice : Device := ⟨16, sixteen_sectors, fun _ => ofFn fun _ => UInt8.ofNat 1⟩

/-- The sector behind the marker keeps what it held. -/
theorem stale_sector_ends_roundTrip : ¬ ∀ (src : FsState) (scratch : Device) (files : List Member)
    (target : FsState), Healthy src →
    (∀ m ∈ files, observe src m.name = .ok (some ((m.data.length : ℤ), m.data))) →
    (archive files).length + 2 ≤ scratch.size → Fits target files →
    RoundTrip src scratch files target := by
  intro claim
  obtain ⟨src, healthy, shown⟩ := exists_source
  obtain ⟨target, fits⟩ := exists_target
  have room : (archive [smallMember 0]).length + 2 ≤ staleDevice.size := by decide
  have h := claim src staleDevice [smallMember 0] target healthy (shown 0) room (fits 0)
  have hmarker := ((Archives.marker healthy (shown 0) room).mp h.1).2.2
  have hbyte := congrArg (fun b : Sector => byteAt b 0) hmarker
  simp [staleDevice] at hbyte

end Pintos
