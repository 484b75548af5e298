import Pintos.FileSys.Calls

/-!
# The sectors a file takes

`inode_create`, counted in sectors of the free map.

`treeSectors` are the sectors of a file without that of its inode: the data, and the index
blocks for as many data sectors as there are.  Their purposes are all different, so there
are `demand m` of them for `m` data sectors, and a creation that marks `demand m` sectors
and builds such a tree has marked exactly these.

That the sectors of the tree were free before is read off the purposes: the invariant also
holds of purposes that cover every marked sector (`saturated`), and there a new purpose is
that of a free sector.

* **`inodeCreate_exact`** — what a creation with enough room marks, and where the bytes of the
  new file are.
* **`cleanCreate_iff`** — a creation is clean exactly if there is room, because it never fails.
* **`oversized_created`** — a file longer than the index can address.
-/

namespace Pintos

open Lib Lib.Block

/-! ## The sectors of a file -/

/-- The data sectors of a file with `m` of them. -/
def dataSectors (disk : ℕ → Sector) (d : Sector) (m : ℕ) : List ℕ := (List.range m).map (slotOf disk d)

/-- The index blocks of a file with `m` data sectors. -/
def indexBlocks (disk : ℕ → Sector) (d : Sector) (m : ℕ) : List ℕ :=
  (if 122 < m then [indirectPtr d] else []) ++
    if 250 < m then doublyPtr d ::
      (List.range ((m - 250 + 127) / 128)).map fun j => wordAt (disk (doublyPtr d)) j
    else []

/-- All sectors of a file but that of its inode. -/
def treeSectors (disk : ℕ → Sector) (d : Sector) (m : ℕ) : List ℕ :=
  dataSectors disk d m ++ indexBlocks disk d m

/-- What the index blocks are for. -/
def indexPurposes (s m : ℕ) : List Use :=
  (if 122 < m then [.indirect s] else []) ++
    if 250 < m then .doubly s :: (List.range ((m - 250 + 127) / 128)).map fun j => .second s j else []

/-- What the sectors of a file are for. -/
def purposes (s m : ℕ) : List Use := (List.range m).map (.data s) ++ indexPurposes s m

theorem length_purposes (s m : ℕ) : (purposes s m).length = demand m := by
  unfold purposes indexPurposes demand
  split_ifs <;> simp <;> omega

theorem nodup_purposes (s m : ℕ) : (purposes s m).Nodup := by
  have hdata : ((List.range m).map (Use.data s)).Nodup :=
    List.nodup_range.map fun a b e => by cases e; rfl
  have hsecond : ((List.range ((m - 250 + 127) / 128)).map fun j => Use.second s j).Nodup :=
    List.nodup_range.map fun a b e => by cases e; rfl
  have hindex : (indexPurposes s m).Nodup := by
    unfold indexPurposes
    split_ifs
    · simpa using hsecond
    · simp
    · simpa using hsecond
    · simp
  refine hdata.append hindex fun u hu hu' => ?_
  obtain ⟨i, -, rfl⟩ := List.mem_map.mp hu
  unfold indexPurposes at hu'
  split_ifs at hu' <;> simp at hu'

theorem owner_of_mem_purposes {s m : ℕ} {u : Use} (h : u ∈ purposes s m) : u.owner = some s := by
  have hindex : u ∈ indexPurposes s m → u.owner = some s := by
    intro h
    rcases List.mem_append.mp h with h | h
    · split_ifs at h
      · rw [List.mem_singleton.mp h]
        rfl
      · cases h
    · split_ifs at h
      · rcases List.mem_cons.mp h with rfl | h
        · rfl
        · obtain ⟨j, -, rfl⟩ := List.mem_map.mp h
          rfl
      · cases h
  rcases List.mem_append.mp h with h | h
  · obtain ⟨i, -, rfl⟩ := List.mem_map.mp h
    rfl
  · exact hindex h

section Tree

variable {use : ℕ → Option Use} {disk disk' : ℕ → Sector} {s : ℕ} {d : Sector}

/-- Every sector of the file has its own purpose. -/
theorem TreeOk.map_use (h : TreeOk use disk s d) :
    (treeSectors disk d (TreeOk.count d)).map use = (purposes s (TreeOk.count d)).map some := by
  have hlen := h.len_le
  have hcount : TreeOk.count d ≤ 16634 := by
    unfold TreeOk.count
    omega
  have present : ∀ i < TreeOk.count d, Present disk d i := fun i hi => h.present i (h.lt_count.mp hi)
  have hdata : (dataSectors disk d (TreeOk.count d)).map use =
      ((List.range (TreeOk.count d)).map (Use.data s)).map some := by
    unfold dataSectors
    rw [List.map_map, List.map_map]
    refine List.map_congr_left fun i hi => ?_
    exact h.ptrs.data i (present i (List.mem_range.mp hi))
  have hfirst : 122 < TreeOk.count d → use (indirectPtr d) = some (.indirect s) := fun hm =>
    h.ptrs.indirect ((present 122 hm).2.1 le_rfl (by omega))
  have hdoubly : 250 < TreeOk.count d → doublyPtr d ≠ 0 := fun hm => ((present 250 hm).2.2 le_rfl).2.1
  have hsecond : 250 < TreeOk.count d → ∀ j < (TreeOk.count d - 250 + 127) / 128,
      use (wordAt (disk (doublyPtr d)) j) = some (.second s j) := by
    intro hm j hj
    have hp := (present (250 + 128 * j) (by omega)).2.2 (by omega)
    rw [show (250 + 128 * j - 250) / 128 = j by omega] at hp
    exact h.ptrs.second hp.2.1 j (by omega) hp.2.2
  have hindex : (indexBlocks disk d (TreeOk.count d)).map use =
      (indexPurposes s (TreeOk.count d)).map some := by
    unfold indexBlocks indexPurposes
    rw [List.map_append, List.map_append]
    congr 1
    · split_ifs with hm
      · simp [hfirst hm]
      · rfl
    · split_ifs with hm
      · rw [List.map_cons, List.map_cons, h.ptrs.doubly (hdoubly hm), List.map_map, List.map_map]
        congr 1
        exact List.map_congr_left fun j hj => hsecond hm j (List.mem_range.mp hj)
      · rfl
  rw [treeSectors, List.map_append, hdata, hindex, purposes, List.map_append]

/-- The sectors of a file are different from each other. -/
theorem TreeOk.nodup (h : TreeOk use disk s d) : (treeSectors disk d (TreeOk.count d)).Nodup := by
  refine List.Nodup.of_map use ?_
  rw [h.map_use]
  exact (nodup_purposes s _).map fun a b e => Option.some.inj e

theorem TreeOk.length (h : TreeOk use disk s d) :
    (treeSectors disk d (TreeOk.count d)).length = demand (TreeOk.count d) := by
  have := congrArg List.length h.map_use
  simpa [length_purposes] using this

/-- A sector of the file belongs to its inode. -/
theorem TreeOk.owned (h : TreeOk use disk s d) {t : ℕ} (ht : t ∈ treeSectors disk d (TreeOk.count d)) :
    ∃ u, use t = some u ∧ u.owner = some s := by
  have hmem : use t ∈ (purposes s (TreeOk.count d)).map some := by
    rw [← h.map_use]
    exact List.mem_map.mpr ⟨t, ht, rfl⟩
  obtain ⟨u, hu, e⟩ := List.mem_map.mp hmem
  exact ⟨u, e.symm, owner_of_mem_purposes hu⟩

end Tree

/-! ## Purposes for everything that is marked -/

section Saturate

variable {use use' : ℕ → Option Use} {live : ℕ → Prop} {node : ℕ → Sector} {fs fs' : FsState} {s t : ℕ}

open Classical in
/-- The purposes of the live files; every other marked sector is taken for an inode, which owns
nothing. -/
noncomputable def saturated (use : ℕ → Option Use) (live : ℕ → Prop) (fs : FsState) (t : ℕ) : Option Use :=
  match use t with
  | some u => if ∀ o, u.owner = some o → live o then some u else some .inode
  | none => if t < fs.dev.size ∧ fs.freeMap.bits t = true then some .inode else none

theorem saturated_of_live {u : Use} (hu : use t = some u) (ho : ∀ o, u.owner = some o → live o) :
    saturated use live fs t = some u := by
  rw [saturated, hu]
  exact if_pos ho

/-- Only live inodes own sectors. -/
theorem live_of_saturated {u : Use} {o : ℕ} (hu : saturated use live fs t = some u)
    (ho : u.owner = some o) : live o := by
  unfold saturated at hu
  split at hu
  · next v hv =>
      split at hu
      · next hlive =>
          cases hu
          exact hlive o ho
      · cases hu
        cases ho
  · split at hu
    · cases hu
      cases ho
    · cases hu

/-- A sector without a purpose is free. -/
theorem bits_of_saturated (hin : t < fs.dev.size) (h : saturated use live fs t = none) :
    fs.freeMap.bits t = false := by
  unfold saturated at h
  split at h
  · split at h <;> cases h
  · split at h
    · cases h
    · next hnot =>
        by_contra hbit
        exact hnot ⟨hin, by simpa using hbit⟩

theorem Core.saturate (core : Core use live node fs) : Core (saturated use live fs) live node fs := by
  refine ⟨core.mapSize, core.zeroUsed, fun t u hu => ?_, fun s hs => ?_, fun p hp ino hino => ?_⟩
  · unfold saturated at hu
    split at hu
    · next v hv => exact core.used t v hv
    · split at hu
      · next hmark => exact hmark
      · cases hu
  · obtain ⟨huse, tree⟩ := core.tree s hs
    refine ⟨saturated_of_live huse (fun o ho => by cases ho), tree.congr (fun _ _ _ _ => rfl) ?_⟩
    intro t u hu ho
    refine saturated_of_live hu fun o ho' => ?_
    rw [ho] at ho'
    cases ho'
    exact hs
  · obtain ⟨huse, hdata⟩ := core.opens p hp ino hino
    exact ⟨saturated_of_live huse (fun o ho => by cases ho), hdata⟩

theorem Sound.saturate {held : List ℕ} (sound : Sound use live node held fs) :
    Sound (saturated use live fs) live node held fs :=
  ⟨sound.core.saturate, sound.ready, sound.heap, sound.synced⟩

end Saturate

/-! ## Creating -/

/-- **A sector for a new inode**: it is marked, and no file has it. -/
def FreshInode (fs : FsState) (s : ℕ) : Prop :=
  ∃ use live node held, Sound use live node held fs ∧ ¬ live s ∧ use s = some .inode

/-- The sectors that were free and are marked now. -/
def taken (fs fs' : FsState) : Finset ℕ :=
  (Finset.range fs.freeMap.bitCnt).filter fun k =>
    fs.freeMap.bits k = false ∧ fs'.freeMap.bits k = true

theorem mem_taken {fs fs' : FsState} {t : ℕ} : t ∈ taken fs fs' ↔
    t < fs.freeMap.bitCnt ∧ fs.freeMap.bits t = false ∧ fs'.freeMap.bits t = true := by
  rw [taken, Finset.mem_filter, Finset.mem_range]

/-- What is taken is no longer free. -/
theorem card_taken (fs fs' : FsState) (hcnt : fs'.freeMap.bitCnt = fs.freeMap.bitCnt)
    (hmono : ∀ k, fs.freeMap.bits k = true → fs'.freeMap.bits k = true) :
    (taken fs fs').card + freeSectors fs'.freeMap = freeSectors fs.freeMap := by
  have hdisj : Disjoint (taken fs fs')
      ((Finset.range fs.freeMap.bitCnt).filter fun k => fs'.freeMap.bits k = false) := by
    rw [Finset.disjoint_left]
    intro k hk hk'
    have h1 := (mem_taken.mp hk).2.2
    have h2 := (Finset.mem_filter.mp hk').2
    rw [h1] at h2
    cases h2
  have hunion : taken fs fs' ∪
      ((Finset.range fs.freeMap.bitCnt).filter fun k => fs'.freeMap.bits k = false) =
      (Finset.range fs.freeMap.bitCnt).filter fun k => fs.freeMap.bits k = false := by
    ext k
    rw [Finset.mem_union, mem_taken, Finset.mem_filter, Finset.mem_filter, Finset.mem_range]
    have := hmono k
    cases h : fs.freeMap.bits k <;> cases h' : fs'.freeMap.bits k <;> simp_all
  rw [freeSectors, freeSectors, hcnt, ← hunion, Finset.card_union_of_disjoint hdisj]

/-- The sectors a file of `len` bytes needs. -/
def sectorsFor (len : ℕ) : ℕ := (len + 511) / 512

/-- **What a creation leaves**: the inode is at `s`, with contents `d`, the marked sectors are
those of its tree, and the data sectors are zeroed. -/
structure NewFile (fs fs' : FsState) (s len : ℕ) (d : Sector) : Prop where
  written : fs'.dev.disk s = d
  length : inodeLength d = len
  mono : ∀ k, fs.freeMap.bits k = true → fs'.freeMap.bits k = true
  bitCnt : fs'.freeMap.bitCnt = fs.freeMap.bitCnt
  taken : taken fs fs' = (treeSectors fs'.dev.disk d (sectorsFor len)).toFinset
  tree : ∃ use live node held, Sound use live node held fs' ∧ live s ∧ node s = d ∧
    ∀ p ∈ fs'.openInodes, ∀ ino, fs'.inodes p = some ino → ino.sector ≠ s
  zero : ∀ i < sectorsFor len, fs'.dev.disk (slotOf fs'.dev.disk d i) = zeros
  mapFile : fs'.freeMapFile = fs.freeMapFile

section Create

variable {fs : FsState} {s len : ℕ}

theorem FreshInode.saturate (h : FreshInode fs s) : ∃ use live node held, Sound use live node held fs ∧
    ¬ live s ∧ use s = some .inode ∧ (∀ t u o, use t = some u → u.owner = some o → live o) ∧
    ∀ t < fs.dev.size, use t = none → fs.freeMap.bits t = false := by
  obtain ⟨use, live, node, held, sound, hs, huse⟩ := h
  exact ⟨_, live, node, held, sound.saturate, hs, saturated_of_live huse (fun o ho => by cases ho),
    fun t u o hu ho => live_of_saturated hu ho, fun t hin hnone => bits_of_saturated hin hnone⟩

/-- All 512 bytes of a data sector are zero, those past the end of the file among them. -/
theorem slot_zero {use : ℕ → Option Use} {disk : ℕ → Sector} {d : Sector} (tree : TreeOk use disk s d)
    (hlen : inodeLength d = len) (hzero : ∀ i : ℕ, (i : ℤ) < len → fileByte disk d i = 0) {i : ℕ}
    (hi : i < sectorsFor len) : disk (slotOf disk d i) = zeros := by
  unfold sectorsFor at hi
  refine ext_byteAt fun k hk => ?_
  have hdiv : (512 * i + k) / 512 = i := by omega
  have hmod : (512 * i + k) % 512 = k := by omega
  have hbyte : fileByte disk d (512 * i + k) = byteAt (disk (slotOf disk d i)) k := by
    rw [fileByte, view, hdiv, hmod]
  rw [← hbyte, byteAt_zeros]
  by_cases hin : ((512 * i + k : ℕ) : ℤ) < len
  · exact hzero _ hin
  · refine tree.zero _ (by rw [hlen]; omega) (tree.present _ ?_)
    rw [hdiv, hlen]
    omega

/-- **A creation with enough room.** -/
theorem inodeCreate_newFile (fresh : FreshInode fs s) (hlen : len ≤ 8516608)
    (free : demand (sectorsFor len) ≤ freeSectors fs.freeMap) (isDir : Bool) :
    ∃ d fs', inodeCreate fs s len isDir = .ok (true, fs') ∧ NewFile fs fs' s len d := by
  obtain ⟨use, live, node, held, sound, hs, huse, howned, hfree⟩ := fresh.saturate
  have closed : ∀ p ∈ fs.openInodes, ∀ ino, fs.inodes p = some ino → ino.sector ≠ s := by
    intro p hp ino hino e
    obtain ⟨a, ha, hlive⟩ := sound.heap.listed p hp
    rw [hino, Option.some.injEq] at ha
    exact hs (e ▸ ha ▸ hlive)
  have h0 : (0 : ℤ) ≤ len := by omega
  have h1 : (len : ℤ) ≤ 8516608 := by exact_mod_cast hlen
  have hm : bytesToSectors (len : ℤ) = sectorsFor len := by
    rw [bytesToSectors_eq h0 h1, sectorsFor]
    omega
  obtain ⟨use', d, fs', hrun, sound', created, hlen', hzero, hcount⟩ := sound.create hs huse closed
    h0 h1 (by rw [hm]; exact free) isDir
  have tree : TreeOk use' fs'.dev.disk s d := by
    have := (created.core.tree s (.inr rfl)).2
    rwa [Function.update_self] at this
  have hd : TreeOk.count d = sectorsFor len := by
    unfold TreeOk.count sectorsFor
    omega
  have hbits : fs'.freeMap.bitCnt = fs.freeMap.bitCnt := by
    rw [created.core.mapSize, created.size, sound.core.mapSize]
  refine ⟨d, fs', hrun, created.written, hlen', created.bits, hbits, ?_, ?_, fun i hi => ?_, ?_⟩
  · -- the sectors of the tree were free, and there are as many as were marked
    symm
    refine Finset.eq_of_subset_of_card_le (fun t ht => ?_) ?_
    · rw [List.mem_toFinset, ← hd] at ht
      obtain ⟨u, hu, ho⟩ := tree.owned ht
      obtain ⟨hin, hbit⟩ := created.core.used t u hu
      have hnone : use t = none := by
        cases e : use t with
        | none => rfl
        | some v =>
            have hv := created.mono t v e
            rw [hu, Option.some.injEq] at hv
            exact absurd (howned t v s e (hv ▸ ho)) hs
      rw [created.size] at hin
      exact mem_taken.mpr ⟨sound.core.mapSize ▸ hin, hfree t hin hnone, hbit⟩
    · rw [← hd, List.toFinset_card_of_nodup tree.nodup, tree.length, hd]
      have := card_taken fs fs' hbits created.bits
      rw [hm] at hcount
      omega
  · refine ⟨use', _, _, held, sound', .inr rfl, Function.update_self .., ?_⟩
    rw [created.rest]
    exact closed
  · exact slot_zero tree hlen' hzero hi
  · rw [created.rest]
    rfl

/-- The tree of a new file. -/
theorem NewFile.treeOk {fs' : FsState} {d : Sector} (h : NewFile fs fs' s len d) :
    ∃ use live node held, Sound use live node held fs' ∧ live s ∧ node s = d ∧
      TreeOk use fs'.dev.disk s d ∧ TreeOk.count d = sectorsFor len := by
  obtain ⟨use, live, node, held, sound, hlive, hd, -⟩ := h.tree
  refine ⟨use, live, node, held, sound, hlive, hd, hd ▸ (sound.core.tree s hlive).2, ?_⟩
  unfold TreeOk.count sectorsFor
  rw [h.length]
  omega

/-- Where a byte of a new file is. -/
theorem NewFile.byteToSector {fs' : FsState} {d : Sector} (h : NewFile fs fs' s len d) {pos : ℕ}
    (hpos : pos < len) : byteToSector fs'.dev d pos = .ok (slotOf fs'.dev.disk d (pos / 512)) := by
  obtain ⟨use, live, node, held, sound, hlive, -, tree, -⟩ := h.treeOk
  have hlt : (pos : ℤ) < inodeLength d := by
    rw [h.length]
    exact_mod_cast hpos
  exact byteToSector_ok tree.ptrs sound.core.inside (tree.present _ (by omega)) hlt

end Create

/-- **Where the bytes of a new file are**, found through the open inode `p`. -/
structure Placed (fs fs' : FsState) (s len : ℕ) (dev : Device) (d : Sector) : Prop where
  resolves : ∀ pos < len, ∃ t, byteToSector dev d pos = .ok t ∧ t ∈ taken fs fs' ∧
    t ∉ indexBlocks dev.disk d (sectorsFor len) ∧ t ≠ s ∧ dev.disk t = zeros
  sameSector : ∀ p < len, ∀ q < len, p / 512 = q / 512 → byteToSector dev d p = byteToSector dev d q
  distinct : ∀ p < len, ∀ q < len, byteToSector dev d p = byteToSector dev d q → p / 512 = q / 512

theorem NewFile.placed {fs fs' : FsState} {s len : ℕ} {d : Sector} (h : NewFile fs fs' s len d) :
    Placed fs fs' s len fs'.dev d := by
  obtain ⟨use, live, node, held, sound, hlive, -, tree, hcount⟩ := h.treeOk
  have hslot : ∀ pos < len, pos / 512 < sectorsFor len := by
    intro pos hpos
    unfold sectorsFor
    omega
  have hdata : ∀ pos < len, slotOf fs'.dev.disk d (pos / 512) ∈
      dataSectors fs'.dev.disk d (sectorsFor len) := fun pos hpos =>
    List.mem_map.mpr ⟨_, List.mem_range.mpr (hslot pos hpos), rfl⟩
  refine ⟨fun pos hpos => ⟨_, h.byteToSector hpos, ?_, ?_, ?_, h.zero _ (hslot pos hpos)⟩,
    fun p hp q hq e => ?_, fun p hp q hq e => ?_⟩
  · rw [h.taken, List.mem_toFinset]
    exact List.mem_append_left _ (hdata pos hpos)
  · -- the data sectors and the index blocks are different sectors
    have hnodup := tree.nodup
    rw [hcount] at hnodup
    exact List.disjoint_of_nodup_append hnodup (hdata pos hpos)
  · intro e
    have hmem : s ∈ treeSectors fs'.dev.disk d (TreeOk.count d) := by
      rw [hcount, ← e]
      exact List.mem_append_left _ (hdata pos hpos)
    obtain ⟨u, hu, ho⟩ := tree.owned hmem
    rw [(sound.core.tree s hlive).1, Option.some.injEq] at hu
    rw [← hu] at ho
    cases ho
  · rw [h.byteToSector hp, h.byteToSector hq, e]
  · rw [h.byteToSector hp, h.byteToSector hq, Except.ok.injEq] at e
    have hp' := hslot p hp
    have hq' := hslot q hq
    rw [← hcount] at hp' hq'
    exact tree.slot_inj _ hp' _ hq' e

/-- **`inode_create` allocates exactly what the format needs.** -/
theorem inodeCreate_exact (fs : FsState) (s len : ℕ) (isDir : Bool) (fresh : FreshInode fs s)
    (fits : sectorsFor len ≤ 16634) (free : demand (sectorsFor len) ≤ freeSectors fs.freeMap) :
    ∃ fs' p fs'' ino, inodeCreate fs s len isDir = .ok (true, fs') ∧
      (∀ k, fs.freeMap.bits k = true → fs'.freeMap.bits k = true) ∧
      (taken fs fs').card = demand (sectorsFor len) ∧
      inodeOpen fs' s = .ok (p, fs'') ∧ fs''.inodes p = some ino ∧
      Placed fs fs' s len fs''.dev ino.data := by
  have hlen : len ≤ 8516608 := by
    unfold sectorsFor at fits
    omega
  obtain ⟨d, fs', hrun, new⟩ := inodeCreate_newFile fresh hlen free isDir
  obtain ⟨use, live, node, held, sound, hlive, hd, hclosed⟩ := new.tree
  obtain ⟨use2, live2, node2, held2, sound2, hlive2, hd2, tree, hcount⟩ := new.treeOk
  obtain ⟨p, fs'', hopen, -, -, same, hino⟩ := inodeOpen_spec sound hlive
  refine ⟨fs', p, fs'', _, hrun, new.mono, ?_, hopen, hino hclosed, ?_⟩
  · rw [new.taken, ← hcount, List.toFinset_card_of_nodup tree.nodup, tree.length]
  · show Placed fs fs' s len fs''.dev (node s)
    rw [same.dev, hd]
    exact new.placed

/-- A blank device of 256 sectors. -/
def blankDevice : Device := ⟨256, by decide, fun _ => zeros⟩

/-- With its free map created, sector 1 is there for an inode, and 253 sectors are free. -/
theorem exists_freshInode : ∃ fs, freeMapCreate (freeMapInit blankDevice fun _ => false) = .ok fs ∧
    FreshInode fs rootDirSector ∧ fs.freeMapFile ≠ none ∧ freeSectors fs.freeMap = 253 := by
  obtain ⟨use, node, f, fs, hrun, sound, huse, only, hfree⟩ :=
    freeMapCreate_spec (show FormatOk blankDevice by decide) fun _ => false
  refine ⟨fs, hrun, ⟨use, _, node, [], sound, by decide, huse⟩, by simp [only.mapFile], ?_⟩
  have hdemand : demand (bytesToSectors (byteCnt blankDevice.size)) = 1 := by decide
  have hsize : blankDevice.size = 256 := rfl
  omega

/-- A file of 123 data sectors, the first that needs an index block. -/
theorem inodeCreate_indirect : ∃ fs, freeMapCreate (freeMapInit blankDevice fun _ => false) = .ok fs ∧
    (FreshInode fs rootDirSector ∧ sectorsFor 62976 ≤ 16634 ∧
      demand (sectorsFor 62976) ≤ freeSectors fs.freeMap) ∧
    ∃ fs' p fs'' ino, inodeCreate fs rootDirSector (62976 : ℕ) false = .ok (true, fs') ∧
      (∀ k, fs.freeMap.bits k = true → fs'.freeMap.bits k = true) ∧
      (taken fs fs').card = demand (sectorsFor 62976) ∧
      inodeOpen fs' rootDirSector = .ok (p, fs'') ∧ fs''.inodes p = some ino ∧
      Placed fs fs' rootDirSector 62976 fs''.dev ino.data := by
  obtain ⟨fs, hrun, fresh, -, hfree⟩ := exists_freshInode
  have fits : sectorsFor 62976 ≤ 16634 := by decide
  have free : demand (sectorsFor 62976) ≤ freeSectors fs.freeMap := by
    rw [hfree]
    decide
  exact ⟨fs, hrun, ⟨fresh, fits, free⟩, inodeCreate_exact fs rootDirSector 62976 false fresh fits free⟩

/-! ## Failing to create -/

/-- There is room for a file of `len` bytes. -/
def Room (fs : FsState) (len : ℕ) : Prop :=
  len ≤ 8516608 ∧ demand (sectorsFor len) ≤ freeSectors fs.freeMap

/-- **A creation that fails cleanly**: without room it returns false and leaves everything that
was in use as it was, and if it returns true, the bytes are in new sectors. -/
structure CleanCreate (fs : FsState) (s len : ℕ) (isDir : Bool) : Prop where
  fails : ¬ Room fs len → ∃ fs', inodeCreate fs s len isDir = .ok (false, fs') ∧
    fs'.freeMap = fs.freeMap ∧
    ∀ t, fs'.dev.disk t ≠ fs.dev.disk t → fs.freeMap.bits t = false
  succeeds : ∀ fs', inodeCreate fs s len isDir = .ok (true, fs') → ∀ pos < len, ∃ t,
    byteToSector fs'.dev (fs'.dev.disk s) pos = .ok t ∧ t ∈ taken fs fs'

/-- `inode_create` does not return false. -/
theorem inodeCreate_true {fs fs' : FsState} {s : ℕ} {len : ℤ} {isDir r : Bool}
    (h : inodeCreate fs s len isDir = .ok (r, fs')) : r = true := by
  unfold inodeCreate at h
  split at h
  · cases h
  · obtain ⟨⟨remaining, d, fs1⟩, -, h⟩ := bind_eq_ok.mp h
    obtain ⟨⟨remaining, d, fs2⟩, -, h⟩ := bind_eq_ok.mp h
    obtain ⟨⟨d, fs3⟩, -, h⟩ := bind_eq_ok.mp h
    obtain ⟨fs4, -, h⟩ := bind_eq_ok.mp h
    cases h
    rfl

/-- **A creation is clean exactly if there is room.** -/
theorem cleanCreate_iff (fs : FsState) (s len : ℕ) (isDir : Bool) (fresh : FreshInode fs s) :
    CleanCreate fs s len isDir ↔ Room fs len := by
  constructor
  · intro clean
    by_contra hroom
    obtain ⟨fs', hrun, -⟩ := clean.fails hroom
    exact Bool.false_ne_true (inodeCreate_true hrun)
  · intro room
    obtain ⟨d, fs1, hrun, new⟩ := inodeCreate_newFile fresh room.1 room.2 isDir
    refine ⟨fun hno => absurd room hno, fun fs' hrun' pos hpos => ?_⟩
    rw [hrun] at hrun'
    cases hrun'
    rw [new.written]
    obtain ⟨t, ht, hmem, -⟩ := new.placed.resolves pos hpos
    exact ⟨t, ht, hmem⟩

/-- A file of two sectors. -/
theorem cleanCreate_small : ∃ fs, freeMapCreate (freeMapInit blankDevice fun _ => false) = .ok fs ∧
    FreshInode fs rootDirSector ∧ CleanCreate fs rootDirSector 1000 false := by
  obtain ⟨fs, hrun, fresh, -, hfree⟩ := exists_freshInode
  refine ⟨fs, hrun, fresh, (cleanCreate_iff fs rootDirSector 1000 false fresh).mpr ⟨by decide, ?_⟩⟩
  rw [hfree]
  decide

/-- **A file one byte longer than the index can address is created all the same.** -/
theorem oversized_created : ¬ ∀ (fs : FsState) (s len : ℕ) (isDir : Bool), FreshInode fs s →
    CleanCreate fs s len isDir := by
  intro claim
  obtain ⟨fs, -, fresh, -, -⟩ := exists_freshInode
  have clean := claim fs rootDirSector 8516609 false fresh
  obtain ⟨fs', hrun, -⟩ := clean.fails fun room => absurd room.1 (by decide)
  exact Bool.false_ne_true (inodeCreate_true hrun)

end Pintos
