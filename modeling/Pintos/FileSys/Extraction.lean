import Pintos.FileSys.Archive

/-!
# Extracting an archive

`fsutil_extract` creates each file of an archive with its full size and then writes it sector by
sector.  The file system it extracts into grows by one name per file (`Stored.extractFile`), and
reading an archive to its end gives exactly its files (`extractLoop_spec`).

The root directory takes one entry per file: a free one while there is one, and then a new one.
Its own growth is right only off the sector boundaries, which with entries of 20 bytes are at
128 entries, and 128 more.
-/

namespace Pintos

open Lib Lib.Block

section

variable {use : ℕ → Option Use} {live : ℕ → Prop} {node : ℕ → Sector} {ent : ℕ → DirEntry}
  {cnt : ℕ} {fs fs' : FsState} {f q s : ℕ} {name : CString} {data : List UInt8}

theorem byteAt_dataSector {i k : ℕ} (hk : k < 512) :
    byteAt (dataSector data i) k = data.getD (512 * i + k) 0 := by
  rw [dataSector, padded, byteAt_ofFn _ hk]
  by_cases hin : 512 * i + k < data.length
  · have hlt : k < ((data.drop (512 * i)).take 512).length := by
      rw [List.length_take, List.length_drop]
      omega
    rw [List.getD_eq_getElem _ _ hlt, List.getD_eq_getElem _ _ hin, List.getElem_take,
      List.getElem_drop]
  · have hge : ((data.drop (512 * i)).take 512).length ≤ k := by
      rw [List.length_take, List.length_drop]
      omega
    rw [List.getD_eq_default _ _ hge, List.getD_eq_default _ _ (by omega)]

/-! ## Copying -/

/-- The file at `s`, open as `f`, has its first `done` bytes; every other file has the bytes
`rest`, and the free map is `map`. -/
structure Copying (data : List UInt8) (rest : ℕ → List UInt8) (map : Bitmap)
    (use : ℕ → Option Use) (live : ℕ → Prop) (node : ℕ → Sector) (ent : ℕ → DirEntry)
    (cnt f q s done : ℕ) (fs : FsState) : Prop where
  ok : FsOk use live node [] ent cnt fs
  file : fs.files f = some ⟨q, done, false⟩
  notMap : fs.freeMapFile ≠ some f
  isOpen : OpenAt s q fs
  allowed : ∀ ino, fs.inodes q = some ino → ino.denyWriteCnt = 0 ∧ ino.removed = false
  length : inodeLength (node s) = data.length
  bytes : ∀ i < done, fileByte fs.dev.disk (node s) i = data.getD i 0
  others : ∀ x, live x → x ≠ s → x ≠ freeMapSector → bytesOf fs.dev.disk (node x) = rest x
  free : fs.freeMap = map

/-- **The copying loop of `fsutil_extract`**, after `i` sectors. -/
theorem extractCopy_spec {rest : ℕ → List UInt8} {map : Bitmap} (src : Device) (name : CString)
    (hs : live s) (hs0 : s ≠ freeMapSector) (hs1 : s ≠ rootDirSector) : ∀ (fuel i size sector done : ℕ)
    (use : ℕ → Option Use) (node : ℕ → Sector) (fs : FsState),
    Copying data rest map use live node ent cnt f q s done fs → data.length = done + size →
    (size ≠ 0 → done = 512 * i) → size ≤ fuel →
    (∀ k < sectorsFor size, src.disk (sector + k) = dataSector data (i + k)) →
    sector + sectorsFor size ≤ src.size →
    ∃ use' node' fs', extractCopy src name f fuel size fs sector =
        .ok (fs', sector + sectorsFor size) ∧
      Copying data rest map use' live node' ent cnt f q s data.length fs' := by
  intro fuel
  induction fuel with
  | zero =>
      intro i size sector done use node fs c hlen hdone hfuel hsrc hroom
      have hsize : size = 0 := by omega
      subst hsize
      exact ⟨use, node, fs, rfl, by rwa [hlen]⟩
  | succ fuel ih =>
      intro i size sector done use node fs c hlen hdone hfuel hsrc hroom
      by_cases hsize : size = 0
      · subst hsize
        exact ⟨use, node, fs, by rw [extractCopy, if_pos rfl]; rfl, by rwa [hlen]⟩
      have hpos := hdone hsize
      subst hpos
      have hsucc : sectorsFor size = sectorsFor (size - min size 512) + 1 := by
        unfold sectorsFor
        omega
      have hread : src.disk sector = dataSector data i := hsrc 0 (by omega)
      obtain ⟨use1, node1, fs1, hwrite, w⟩ := c.ok.fileWrite_inside c.file c.notMap hs hs0 hs1
        c.isOpen c.allowed (byteAt (dataSector data i)) (show 0 < min size 512 by omega) (by
          rw [c.length]
          show ((512 * i : ℕ) : ℤ) + _ ≤ _
          omega)
      have c1 : Copying data rest map use1 live node1 ent cnt f q s (512 * i + min size 512) fs1 := by
        refine ⟨w.ok, w.moved, w.mapFile ▸ c.notMap, w.isOpen, w.allowed, w.length.trans c.length,
          fun k hk => ?_, fun x hx hxs hx0 => (w.others x hx hxs hx0).trans (c.others x hx hxs hx0),
          w.free.trans c.free⟩
        have hlt : (k : ℤ) < inodeLength (node s) := by
          rw [c.length]
          omega
        rw [w.bytes k hlt]
        show (if 512 * i ≤ k ∧ k < 512 * i + min size 512 then _ else _) = _
        split
        · next hin =>
            rw [byteAt_dataSector (by show k - 512 * i < 512; omega)]
            show data.getD (512 * i + (k - 512 * i)) 0 = _
            rw [Nat.add_sub_cancel' hin.1]
        · next hout => exact c.bytes k (by omega)
      obtain ⟨use', node', fs', hrun, c'⟩ := ih (i + 1) (size - min size 512) (sector + 1)
        (512 * i + min size 512) use1 node1 fs1 c1 (by omega) (by omega) (by omega)
        (fun k hk => by
          have := hsrc (k + 1) (by omega)
          rwa [show sector + (k + 1) = sector + 1 + k by omega,
            show i + (k + 1) = i + 1 + k by omega] at this) (by omega)
      refine ⟨use', node', fs', ?_, c'⟩
      have hin : sector < src.size := by omega
      rw [extractCopy, if_neg hsize]
      simp only [blockRead_ok hin, hread, kernel_ok, ok_bind, hwrite, ne_eq, not_true, if_false]
      rw [hrun, hsucc]
      congr 2
      omega

/-! ## One file -/

/-- The number of entries of the root directory that are in use. -/
def usedCount (ent : ℕ → DirEntry) (cnt : ℕ) : ℕ :=
  ((Finset.range cnt).filter fun j => (ent j).inUse = true).card

/-- A file system that has the files `m`, `used` of `cnt` entries in use, and at least `free`
free sectors. -/
def Stored (m : CString → Option (List UInt8)) (used cnt free : ℕ) (fs : FsState) : Prop :=
  ∃ use live node ent, FsOk use live node [] ent cnt fs ∧ usedCount ent cnt = used ∧
    free ≤ freeSectors fs.freeMap ∧
    ∀ name, ¬ OwnName name → Leads ent cnt node fs.dev.disk name (m name)

/-- The sectors that storing a file takes, in a directory of `cnt` entries of which `used` are in
use. -/
def storeCost (used cnt len : ℕ) : ℕ :=
  1 + demand (sectorsFor len) + (sectorsFor (20 * max cnt (used + 1)) - sectorsFor (20 * cnt))

theorem usedCount_le (ent : ℕ → DirEntry) (cnt : ℕ) : usedCount ent cnt ≤ cnt := by
  have := Finset.card_filter_le (Finset.range cnt) fun j => (ent j).inUse = true
  rwa [Finset.card_range] at this

theorem exists_unused (h : usedCount ent cnt < cnt) : ∃ j < cnt, (ent j).inUse = false := by
  by_contra hc
  push Not at hc
  have hall : ((Finset.range cnt).filter fun j => (ent j).inUse = true) = Finset.range cnt := by
    refine Finset.filter_true_of_mem fun j hj => ?_
    simpa using hc j (Finset.mem_range.mp hj)
  rw [usedCount, hall, Finset.card_range] at h
  exact lt_irrefl _ h

theorem all_used (h : usedCount ent cnt = cnt) : ∀ j < cnt, (ent j).inUse = true := by
  intro j hj
  have hall := Finset.eq_of_subset_of_card_le (Finset.filter_subset
    (fun j => (ent j).inUse = true) (Finset.range cnt)) (by
      rw [Finset.card_range]
      exact h.ge)
  have := hall ▸ Finset.mem_range.mpr hj
  exact (Finset.mem_filter.mp this).2

/-- Filling an entry that was free, or a new one. -/
theorem usedCount_update {j : ℕ} {e : DirEntry} (hj : j ≤ cnt)
    (hfree : j < cnt → (ent j).inUse = false) (he : e.inUse = true) :
    usedCount (Function.update ent j e) (max cnt (j + 1)) = usedCount ent cnt + 1 := by
  have hset : ((Finset.range (max cnt (j + 1))).filter fun k =>
      (Function.update ent j e k).inUse = true) =
      insert j ((Finset.range cnt).filter fun k => (ent k).inUse = true) := by
    ext k
    rw [Finset.mem_filter, Finset.mem_range, Finset.mem_insert, Finset.mem_filter, Finset.mem_range]
    by_cases hk : k = j
    · subst hk
      rw [Function.update_self]
      exact ⟨fun _ => .inl rfl, fun _ => ⟨by omega, he⟩⟩
    · rw [Function.update_of_ne hk]
      constructor
      · exact fun h => .inr ⟨by omega, h.2⟩
      · rintro (h | h)
        · exact absurd h hk
        · exact ⟨by omega, h.2⟩
  rw [usedCount, hset, Finset.card_insert_of_notMem, usedCount]
  rw [Finset.mem_filter, Finset.mem_range]
  rintro ⟨hlt, hu⟩
  rw [hfree hlt] at hu
  cases hu

theorem sectorsFor_eq {len : ℕ} (h : len ≤ 8516608) : bytesToSectors len = sectorsFor len := by
  rw [bytesToSectors_eq (by omega) (by omega), sectorsFor]
  omega

/-- An entry that crosses into the next sector needs it. -/
theorem sectorsFor_cross {n : ℕ} (h0 : 0 < n) (h1 : n < 62464) (h : pastBlocks n 20 n) :
    sectorsFor (n + 20) = sectorsFor n + 1 := by
  unfold pastBlocks at h
  rw [wrap32_of_range (by omega) (by omega), Int.tdiv_eq_ediv_of_nonneg (by omega),
    Int.tdiv_eq_ediv_of_nonneg (by omega)] at h
  unfold sectorsFor
  omega

/-- Room for an entry: a free one, or a growth inside the first 128 entries. -/
theorem dirRoom_of_count (h : FsOk use live node [] ent cnt fs) (h0 : 0 < cnt) {free : ℕ}
    (hslot : usedCount ent cnt < cnt ∨ cnt < 128)
    (hfree : sectorsFor (20 * max cnt (usedCount ent cnt + 1)) - sectorsFor (20 * cnt) ≤ free) :
    DirRoom fs.dev.disk (fs.dev.disk rootDirSector) free := by
  rw [h.sound.synced _ h.rootLive]
  by_cases hlt : usedCount ent cnt < cnt
  · obtain ⟨j, hj, hu⟩ := exists_unused hlt
    exact h.dir.room hj hu free
  have hsmall : cnt < 128 := hslot.resolve_left hlt
  have hmax : max cnt (usedCount ent cnt + 1) = cnt + 1 := by
    have := usedCount_le ent cnt
    omega
  rw [hmax] at hfree
  have hlen := h.dir.length
  have hnat : (20 * (cnt : ℤ)).toNat = 20 * cnt := by omega
  have tree := (h.sound.core.tree _ h.rootLive).2
  refine .inr ⟨.inr (.inr ⟨?_, ?_, ?_⟩), ?_⟩
  · rw [hlen, hnat]
    push_cast
    omega
  · rw [hlen]
    exact tree.present _ (by rw [hlen]; omega)
  · rw [hlen, hnat]
    refine .inr (.inl ?_)
    push_cast
    omega
  · rw [hlen, hnat, growthDemand, hlen]
    split
    · next hpast =>
        have hn : (sectorsToAdd (20 * cnt) 20 (20 * cnt : ℕ) : ℤ) =
            ((20 * cnt : ℕ) + 20 - 20 * cnt + 511) / 512 :=
          sectorsToAdd_eq (by omega) (by push_cast; omega) (by push_cast; omega)
        push_cast at hn
        have hcross := sectorsFor_cross (n := 20 * cnt) (by omega) (by omega)
          (by push_cast; exact hpast)
        unfold extendDemand
        rw [if_neg (by omega)]
        rw [Nat.mul_add, Nat.mul_one, hcross] at hfree
        omega
    · exact Nat.zero_le _

/-! ## Storing a file -/

/-- What a name leads to depends on the bytes of the files that have it. -/
theorem Leads.congr {node' : ℕ → Sector} {disk disk' : ℕ → Sector} {o : Option (List UInt8)}
    (l : Leads ent cnt node disk name o)
    (same : ∀ i < cnt, Matches ent name i →
      bytesOf disk' (node' (ent i).sector) = bytesOf disk (node (ent i).sector)) :
    Leads ent cnt node' disk' name o := by
  cases o with
  | none => exact l
  | some bytes =>
      obtain ⟨i, hi, hm, hfirst, rfl⟩ := l
      exact ⟨i, hi, hm, hfirst, (same i hi hm).symm⟩

/-- **Opening, writing and closing a file that was just created.** -/
theorem fillAdded {fs1 : FsState} {src : Device} {sector t j : ℕ} {e : DirEntry}
    {use1 : ℕ → Option Use} {node1 : ℕ → Sector}
    (a : FsOk.Added use live node [] ent cnt name data.length t j e use1 node1 fs fs1)
    (hnew : ∀ i < cnt, ¬ Matches ent name i)
    (hsrc : ∀ k < sectorsFor data.length, src.disk (sector + k) = dataSector data k)
    (hroom : sector + sectorsFor data.length ≤ src.size) :
    ∃ f fs2 fs3 fs4 use' node', filesysOpen fs1 name = .ok (some f, fs2) ∧
      extractCopy src name f data.length data.length fs2 sector =
        .ok (fs3, sector + sectorsFor data.length) ∧
      fileClose fs3 f = .ok fs4 ∧
      FsOk use' (fun x => live x ∨ x = t) node' [] (Function.update ent j e) (max cnt (j + 1)) fs4 ∧
      fs4.freeMap = fs1.freeMap ∧ bytesOf fs4.dev.disk (node' t) = data ∧
      ∀ x, live x → x ≠ freeMapSector →
        bytesOf fs4.dev.disk (node' x) = bytesOf fs1.dev.disk (node1 x) := by
  obtain ⟨hmatch, hfirst⟩ := a.leads_new hnew
  have hj : j < max cnt (j + 1) := by omega
  rcases a.ok.filesysOpen name with
    ⟨i, hi, hm, hfirst', f, q, fs2, hrun1, h2, frame, -, hne, hf, o, hdev, hfree, kept⟩ | ⟨hnone, -⟩
  swap
  · exact absurd hmatch (hnone j hj)
  have hij : i = j := by
    rcases Nat.lt_trichotomy i j with hlt | rfl | hlt
    · exact absurd hm (hfirst i hlt)
    · rfl
    · exact absurd hmatch (hfirst' j hlt)
  subst hij
  have hsec : (Function.update ent i e i).sector = t := by rw [Function.update_self, a.sector]
  rw [hsec] at o
  -- the inode was not open before, so that nobody denies writes to it
  have allowed : ∀ ino, fs2.inodes q = some ino → ino.denyWriteCnt = 0 ∧ ino.removed = false := by
    intro ino hino
    rcases kept q o.listed ino hino with h | ⟨hq, b, hb, hsame, -⟩
    · exact ⟨h.2, h.1⟩
    · obtain ⟨c, hc, hct⟩ := o.isOpen
      rw [hino, Option.some.injEq] at hc
      exact absurd (hsame.trans (hc ▸ hct)) (a.closed q hq b hb)
  have start : Copying data (fun x => bytesOf fs1.dev.disk (node1 x)) fs1.freeMap use1
      (fun x => live x ∨ x = t) node1 (Function.update ent i e) (max cnt (i + 1)) f q t 0 fs2 :=
    ⟨h2, hf, frame.mapFile ▸ hne, o, allowed, a.length, fun k hk => absurd hk (Nat.not_lt_zero k),
      fun x _ _ _ => by rw [hdev], hfree⟩
  obtain ⟨use', node', fs3, hrun2, c⟩ := extractCopy_spec src name (.inr rfl)
    a.notMap a.notRoot data.length 0 data.length sector 0 use1 node1 fs2 start (by omega)
    (fun _ => rfl) le_rfl (fun k hk => by rw [Nat.zero_add]; exact hsrc k hk) hroom
  obtain ⟨fs4, hrun3, h4, hdev4, hfree4⟩ :=
    c.ok.fileClose_kept c.file rfl c.notMap fun ino hino => (c.allowed ino hino).2
  refine ⟨f, fs2, fs3, fs4, use', node', hrun1, hrun2, hrun3, h4, hfree4.trans c.free, ?_,
    fun x hx hx0 => ?_⟩
  · have hlen : (bytesOf fs4.dev.disk (node' t)).length = data.length := by
      rw [length_bytesOf, c.length, Int.toNat_natCast]
    refine List.ext_getElem hlen fun k hk hk' => ?_
    rw [getElem_bytesOf, hdev4, c.bytes k hk', List.getD_eq_getElem _ _ hk']
  · have hxt : x ≠ t := fun e => a.notLive (e ▸ hx)
    rw [hdev4]
    exact c.others x (.inl hx) hxt hx0

/-- **One file is stored.** -/
theorem Stored.extractFile {m : CString → Option (List UInt8)} {used free sector : ℕ} {src : Device}
    (h : Stored m used cnt free fs) (hz : ∀ c ∈ name, c ≠ 0) (hname : name ≠ [])
    (hlen : name.length ≤ nameMax) (hown : ¬ OwnName name) (hnew : m name = none)
    (hdata : data.length ≤ 8516608) (h0 : 0 < cnt) (hslot : used < cnt ∨ cnt < 128)
    (hcost : storeCost used cnt data.length ≤ free)
    (hsrc : ∀ k < sectorsFor data.length, src.disk (sector + k) = dataSector data k)
    (hroom : sector + sectorsFor data.length ≤ src.size) :
    ∃ fs', Pintos.extractFile src name data.length fs sector =
        .ok (fs', sector + sectorsFor data.length) ∧
      Stored (Function.update m name (some data)) (used + 1) (max cnt (used + 1))
        (free - storeCost used cnt data.length) fs' := by
  obtain ⟨use, live, node, ent, ok, rfl, hfree, leads⟩ := h
  have hunnamed : ∀ i < cnt, ¬ Matches ent name i := by
    have := leads name hown
    rwa [hnew] at this
  have hsectors : bytesToSectors (data.length : ℤ) = sectorsFor data.length := sectorsFor_eq hdata
  unfold storeCost at hcost
  have room : DirRoom fs.dev.disk (fs.dev.disk rootDirSector)
      (freeSectors fs.freeMap - (1 + demand (bytesToSectors data.length))) :=
    dirRoom_of_count ok h0 hslot (by rw [hsectors]; omega)
  obtain ⟨t, j, e, use1, node1, fs1, hrun1, a⟩ := ok.filesysCreate_added hz
    (Int.natCast_nonneg data.length) (by exact_mod_cast hdata) (by rw [hsectors]; omega) room false hname
    hlen hunnamed
  obtain ⟨f, fs2, fs3, fs4, use', node', hrun2, hrun3, hrun4, ok4, hfree4, hbytes, others⟩ :=
    fillAdded a hunnamed hsrc hroom
  have hcnt : max cnt (j + 1) = max cnt (usedCount ent cnt + 1) := by
    have hle := usedCount_le ent cnt
    have hj := a.slot
    rcases Nat.lt_or_ge j cnt with hlt | hge
    · by_cases hfull : usedCount ent cnt = cnt
      · have := all_used hfull j hlt
        rw [a.wasFree hlt] at this
        cases this
      · omega
    · have hall : usedCount ent cnt = cnt := by
        by_contra hne
        obtain ⟨k, hk, hu⟩ := exists_unused (by omega : usedCount ent cnt < cnt)
        rw [a.wasUsed k (by omega)] at hu
        cases hu
      omega
  have hcreate : kernel (filesysCreate fs name data.length false) = .ok (true, fs1) := by
    rw [hrun1]
    rfl
  refine ⟨fs4, ?_, use', _, node', Function.update ent j e, hcnt ▸ ok4, ?_, ?_, fun other ho => ?_⟩
  · simp only [Pintos.extractFile, hcreate, ok_bind, if_true, hrun2, kernel_ok, hrun3, hrun4]
    rfl
  · rw [← hcnt]
    exact usedCount_update a.slot a.wasFree a.named.1
  · -- the sectors that were free before, and those the file has taken
    have hpaid := a.cost (by
      rcases Nat.lt_or_ge j cnt with hlt | hge
      · exact .inl hlt
      · refine .inr ?_
        have : cnt < 128 := by
          rcases hslot with hlt | hlt
          · omega
          · exact hlt
        omega)
    have hentry : (if j < cnt then 0 else FsOk.entryCost cnt) ≤
        sectorsFor (20 * max cnt (usedCount ent cnt + 1)) - sectorsFor (20 * cnt) := by
      split
      · exact Nat.zero_le _
      · next hge =>
          have hslot' := a.slot
          have hsmall : cnt < 128 := by omega
          have e1 : max cnt (usedCount ent cnt + 1) = cnt + 1 := by omega
          rw [e1, Nat.mul_add, Nat.mul_one, FsOk.entryCost]
          split
          · next hpast =>
              rw [sectorsFor_cross (n := 20 * cnt) (by omega) (by omega) (by exact_mod_cast hpast)]
              omega
          · exact Nat.zero_le _
    rw [hsectors] at hpaid
    rw [hfree4]
    unfold storeCost
    omega
  · rw [← hcnt]
    by_cases hsame : other = name
    · subst hsame
      obtain ⟨hm, hfirst⟩ := a.leads_new hunnamed
      rw [Function.update_self]
      refine ⟨j, by omega, hm, hfirst, ?_⟩
      rw [Function.update_self, a.sector, hbytes]
    · rw [Function.update_of_ne hsame]
      have l := a.leads_other ok hsame ho (leads other ho)
      refine l.congr fun i hi hm => ?_
      rcases RootOk.entry_cases a.slot hi hm.1 with ⟨-, he, -⟩ | ⟨hlt, -, he, hu⟩
      · have hn := hm.2
        rw [he] at hn
        exact absurd (hn.symm.trans a.named.2) hsame
      · rw [he]
        obtain ⟨hlive, hsec0⟩ := ok.root.entries i hlt hu
        exact others _ hlive hsec0

end

/-! ## A whole archive -/

/-- The sectors that storing the files takes, one after the other. -/
def storeCosts : ℕ → ℕ → List Member → ℕ
  | _, _, [] => 0
  | used, cnt, m :: files =>
      storeCost used cnt m.data.length + storeCosts (used + 1) (max cnt (used + 1)) files

theorem sectorsFor_mono {a b : ℕ} (h : a ≤ b) : sectorsFor a ≤ sectorsFor b :=
  Nat.div_le_div_right (by omega)

/-- In total: the inodes, the data with their index blocks, and the growth of the directory. -/
theorem storeCosts_eq : ∀ (files : List Member) (used cnt : ℕ), used ≤ cnt →
    storeCosts used cnt files + sectorsFor (20 * cnt) =
      (files.map fun m => 1 + demand (sectorsFor m.data.length)).sum +
        sectorsFor (20 * max cnt (used + files.length))
  | [], used, cnt, h => by simp [storeCosts, h]
  | m :: files, used, cnt, h => by
      have ih := storeCosts_eq files (used + 1) (max cnt (used + 1)) (by omega)
      have hmono := sectorsFor_mono (show 20 * cnt ≤ 20 * max cnt (used + 1) by omega)
      rw [show max (max cnt (used + 1)) (used + 1 + files.length) =
        max cnt (used + (m :: files).length) by rw [List.length_cons]; omega] at ih
      rw [storeCosts, List.map_cons, List.sum_cons, storeCost]
      omega

/-- What the files say of a name. -/
def extracted (files : List Member) (name : CString) : Option (List UInt8) :=
  (files.find? fun m => m.stripped = name).map Member.data

/-- What `append` promises of a file, and what a file system asks of it. -/
structure Storable (m : Member) : Prop where
  text : ∀ c ∈ m.name, c ≠ 0
  short : m.stripped.length ≤ nameMax
  notOwn : ¬ OwnName m.stripped
  small : m.data.length ≤ 8516608

theorem parse_header {m : Member} (h : Storable m) :
    ustarParseHeader m.header = .ok (.file m.stripped .regular m.data.length) := by
  have hle : ¬ 99 < (stripAntisocialPrefixes m.name).length := by
    have := h.short
    unfold Member.stripped nameMax at this
    omega
  have hsmall := h.small
  have made : ustarMakeHeader m.name .regular m.data.length = some m.header := by
    simp only [Member.header, ustarMakeHeader, if_neg hle, Option.getD_some]
  have := parseHeader_makeHeader h.text (Int.natCast_nonneg m.data.length) (by omega) made
  rwa [if_pos rfl, Int.toNat_natCast] at this

/-- **The loop of `fsutil_extract` over an archive**, with a sector of zeros behind it. -/
theorem extractLoop_spec {src : Device} : ∀ (files : List Member) (fuel : ℕ)
    (m : CString → Option (List UInt8)) (used cnt free : ℕ) (fs : FsState) (sector : ℕ),
    Stored m used cnt free fs → (∀ x ∈ files, Storable x) →
    (files.map Member.stripped).Nodup → (∀ x ∈ files, m x.stripped = none) → 0 < cnt →
    used + files.length ≤ max cnt 128 → storeCosts used cnt files ≤ free →
    HoldsAt src sector (archive files) → src.disk (sector + (archive files).length) = zeros →
    sector + (archive files).length < src.size → files.length < fuel →
    ∃ used' cnt' free' fs', extractLoop src fuel fs sector =
        .ok (fs', sector + (archive files).length + 1) ∧
      Stored (fun name => (extracted files name).or (m name)) used' cnt' free' fs' := by
  intro files
  induction files with
  | nil =>
      intro fuel m used cnt free fs sector h _ _ _ _ _ _ _ hend hroom hfuel
      obtain ⟨n, rfl⟩ : ∃ n, fuel = n + 1 := ⟨fuel - 1, by simp at hfuel; omega⟩
      refine ⟨used, cnt, free, fs, ?_, h⟩
      have hin : sector < src.size := hroom
      have hzero : src.disk sector = zeros := hend
      have hentry : extractEntry src fs sector = .ok (false, fs, sector + 1) := by
        rw [extractEntry, blockRead_ok hin, hzero, kernel_ok, ok_bind, parseHeader_zeros]
        rfl
      rw [extractLoop, hentry, ok_bind]
      rfl
  | cons x files ih =>
      intro fuel m used cnt free fs sector h ok nodup fresh h0 hslots hcost hold hend hroom hfuel
      obtain ⟨n, rfl⟩ : ∃ n, fuel = n + 1 := ⟨fuel - 1, by simp at hfuel; omega⟩
      rw [archive_cons, List.length_append] at hend hroom ⊢
      rw [archive_cons] at hold
      have hx := ok x List.mem_cons_self
      have hsectors := x.length_sectors
      rw [storeCosts] at hcost
      rw [List.length_cons] at hslots hfuel
      rw [List.map_cons, List.nodup_cons] at nodup
      have hheader : src.disk sector = x.header := by
        have := hold 0 (by rw [List.length_append]; omega)
        rwa [List.getD_append _ _ _ _ (by omega)] at this
      have hsrc : ∀ k < sectorsFor x.data.length, src.disk (sector + 1 + k) = dataSector x.data k := by
        intro k hk
        have := hold (k + 1) (by rw [List.length_append]; omega)
        rw [List.getD_append _ _ _ _ (by omega), Member.sectors, List.getD_cons_succ,
          List.getD_eq_getElem _ _ (by simpa using hk), List.getElem_map, List.getElem_range] at this
        rwa [show sector + 1 + k = sector + (k + 1) by omega]
      obtain ⟨fs1, hrun1, h1⟩ := h.extractFile
        (show ∀ c ∈ x.stripped, c ≠ 0 from strip_ne_zero hx.text)
        (strip_ne_nil x.name) hx.short hx.notOwn (fresh x List.mem_cons_self) hx.small h0 (by omega)
        (by omega) hsrc (by omega)
      have hnext : sector + 1 + sectorsFor x.data.length = sector + x.sectors.length := by omega
      rw [hnext] at hrun1
      have hrest : ∀ y ∈ files, y.stripped ≠ x.stripped := fun y hy e =>
        nodup.1 (e ▸ List.mem_map_of_mem hy)
      obtain ⟨used', cnt', free', fs', hrun2, h2⟩ := ih n _ _ _ _ fs1 (sector + x.sectors.length) h1
        (fun y hy => ok y (List.mem_cons_of_mem _ hy)) nodup.2
        (fun y hy => (Function.update_of_ne (hrest y hy) _ _).trans
          (fresh y (List.mem_cons_of_mem _ hy))) (by omega) (by omega) (by omega)
        (fun k hk => by
          have := hold (x.sectors.length + k) (by rw [List.length_append]; omega)
          rwa [List.getD_append_right _ _ _ _ (by omega), Nat.add_sub_cancel_left,
            ← Nat.add_assoc] at this)
        (by rwa [← Nat.add_assoc] at hend) (by omega) (by omega)
      refine ⟨used', cnt', free', fs', ?_, ?_⟩
      · have hin : sector < src.size := by omega
        have hentry : extractEntry src fs sector = .ok (true, fs1, sector + x.sectors.length) := by
          rw [extractEntry, blockRead_ok hin, hheader, kernel_ok, ok_bind, parse_header hx]
          simp only [hrun1, ok_bind]
          rfl
        rw [extractLoop, hentry, ok_bind]
        simp only [if_true]
        rw [hrun2]
        congr 2
        omega
      · have hmap : (fun name => (extracted files name).or
            (Function.update m x.stripped (some x.data) name)) =
            fun name => (extracted (x :: files) name).or (m name) := by
          funext name
          by_cases hname : x.stripped = name
          · subst hname
            have hnone : extracted files x.stripped = none := by
              rw [extracted, Option.map_eq_none_iff, List.find?_eq_none]
              intro y hy
              simpa using hrest y hy
            rw [hnone, Function.update_self, extracted, List.find?_cons_of_pos (by simp)]
            rfl
          · rw [Function.update_of_ne (Ne.symm hname), extracted, extracted,
              List.find?_cons_of_neg (by simpa using hname)]
        rwa [hmap] at h2

end Pintos
