import Pintos.FileSys.Ownership

/-!
# The invariant and the free map

`Core` is the invariant of a file system state over a use assignment, the set of
inodes whose tree is complete (`live`) and their current contents (`node`).  An
inode that is being created or grown is not `live` until its tree is complete
again; an open inode whose `struct inode_disk` was changed in memory only has
`node` ahead of the disk.

`free_map_allocate` and `free_map_release` change the free map and write it
through to its file; with the invariant they touch nothing else
(`freeMapAllocate_spec`, `freeMapRelease_spec`).
-/

namespace Pintos

open Lib Lib.Block

/-! ## Reading and writing the data of a sound tree -/

section Data

variable {use : ℕ → Option Use} {dev : Device} {s : ℕ} {d : Sector}

/-- A read returns the bytes of the file. -/
theorem readLoop_tree (h : TreeOk use dev.disk s d)
    (inside : ∀ t u, use t = some u → t < dev.size) (size offset : ℕ) :
    readLoop dev (byteToSector dev d) (inodeLength d) size size offset =
      .ok ((List.range (transferred (inodeLength d) size offset)).map fun k =>
        fileByte dev.disk d (offset + k)) := by
  have resolves : ∀ pos : ℕ, (pos : ℤ) < inodeLength d →
      byteToSector dev d pos = .ok (slotOf dev.disk d (pos / 512)) :=
    fun pos hpos => byteToSector_ok h.ptrs inside (h.present _ (by omega)) hpos
  refine readLoop_spec resolves (fun pos => ?_) (fun pos hpos => ?_) size size offset le_rfl
  · rcases lt_or_ge (pos : ℤ) (inodeLength d) with hlt | hge
    · exact ⟨_, resolves pos hlt⟩
    · exact ⟨_, byteToSector_past hge⟩
  · exact inside _ _ (h.ptrs.data _ (h.present _ (by omega)))

/-- A write of the data of `s` changes only data sectors of `s`. -/
def DataOnly (use : ℕ → Option Use) (s : ℕ) (disk disk' : ℕ → Sector) : Prop :=
  ∀ t, (∀ i, use t ≠ some (.data s i)) → disk' t = disk t

theorem DataOnly.keepsIndex {disk disk' : ℕ → Sector} (h : DataOnly use s disk disk') (s' : ℕ) :
    KeepsIndex use s' disk disk' := by
  intro t u hu ho hne
  refine h t fun i hi => ?_
  rw [hu, Option.some.injEq] at hi
  subst hi
  simp only [Use.owner, Option.some.injEq] at ho
  exact hne i (ho ▸ rfl)

theorem DataOnly.keepsOwned {disk disk' : ℕ → Sector} (h : DataOnly use s disk disk') {s' : ℕ}
    (hne : s' ≠ s) : KeepsOwned use s' disk disk' := by
  intro t u hu ho
  refine h t fun i hi => ?_
  rw [hu, Option.some.injEq] at hi
  subst hi
  simp only [Use.owner, Option.some.injEq] at ho
  exact hne ho.symm

/-- **A write to a sound tree** replaces exactly the bytes in range and leaves the
tree sound. -/
theorem writeLoop_tree (h : TreeOk use dev.disk s d)
    (inside : ∀ t u, use t = some u → t < dev.size) (buffer : ℕ → UInt8) (size offset : ℕ) :
    ∃ dev', writeLoop (fun dev => byteToSector dev d) (inodeLength d) buffer size size offset 0 dev
        = .ok (transferred (inodeLength d) size offset, dev') ∧
      dev'.size = dev.size ∧ DataOnly use s dev.disk dev'.disk ∧
      TreeOk use dev'.disk s d ∧
      ∀ i : ℕ, (i : ℤ) < inodeLength d → fileByte dev'.disk d i =
        if offset ≤ i ∧ i < offset + transferred (inodeLength d) size offset
        then buffer (i - offset) else fileByte dev.disk d i := by
  have hnn := h.len_nonneg
  have slotUse : ∀ i < TreeOk.count d, use (slotOf dev.disk d i) = some (.data s i) :=
    fun i hi => h.ptrs.data i (h.present i (h.lt_count.mp hi))
  -- a device that differs only in the file's data has the same index blocks
  have only : ∀ dev', SameOutside (slotOf dev.disk d) (TreeOk.count d) dev dev' →
      DataOnly use s dev.disk dev'.disk := by
    intro dev' same t ht
    refine same.disk t fun i hi e => ht i ?_
    rw [← e]
    exact slotUse i hi
  have resolves : ∀ dev', SameOutside (slotOf dev.disk d) (TreeOk.count d) dev dev' →
      ∀ pos : ℕ, (pos : ℤ) < inodeLength d →
        byteToSector dev' d pos = .ok (slotOf dev.disk d (pos / 512)) := by
    intro dev' same pos hpos
    have keep := (only dev' same).keepsIndex s
    have agree := h.ptrs.indexAgree keep
    have hp := h.present (pos / 512) (by omega)
    rw [byteToSector_ok (h.ptrs.congr keep fun _ _ hu _ => hu)
      (fun t u hu => same.size ▸ inside t u hu) ((agree.present_iff _).mpr hp) hpos,
      agree.slot_eq_of_present hp]
  obtain ⟨dev', hrun, same, hview⟩ := writeLoop_spec buffer h.slot_inj
    (by unfold TreeOk.count; omega) size size offset 0 dev le_rfl
    (fun i hi => inside _ _ (slotUse i hi)) resolves (fun dev' same pos => by
      rcases lt_or_ge (pos : ℤ) (inodeLength d) with hlt | hge
      · exact ⟨_, resolves dev' same pos hlt⟩
      · exact ⟨_, byteToSector_past hge⟩)
  have keep := (only dev' same).keepsIndex s
  have agree := h.ptrs.indexAgree keep
  -- the bytes of a sector below the length, before and after
  have byte : ∀ i : ℕ, i / 512 < TreeOk.count d → fileByte dev'.disk d i =
      if offset ≤ i ∧ i < offset + transferred (inodeLength d) size offset
      then buffer (i - offset) else fileByte dev.disk d i := by
    intro i hi
    have hp := h.present _ (h.lt_count.mp hi)
    have hv := hview i hi
    rw [Nat.zero_add] at hv
    rw [fileByte, view, agree.slot_eq_of_present hp]
    exact hv
  refine ⟨dev', by simpa using hrun, same.size, only dev' same,
    ⟨h.ptrs.congr keep fun _ _ hu _ => hu, h.len_nonneg, h.len_le,
      fun i hi => (agree.present_iff i).mpr (h.present i hi),
      fun i hi => h.bound i ((agree.present_iff i).mp hi), fun i hi hp => ?_⟩,
    fun i hi => byte i (h.div_lt_count hi)⟩
  -- past the length nothing is written
  have hp' := (agree.present_iff _).mp hp
  by_cases hc : i / 512 < TreeOk.count d
  · rw [byte i hc, if_neg (by unfold transferred; omega)]
    exact h.zero i hi hp'
  · have hslot := h.ptrs.data _ hp'
    have hdisk : dev'.disk (slotOf dev.disk d (i / 512)) =
        dev.disk (slotOf dev.disk d (i / 512)) := by
      refine same.disk _ fun j hj e => hc ?_
      have := slotUse j hj
      rw [e, hslot] at this
      simp only [Option.some.injEq, Use.data.injEq, true_and] at this
      omega
    rw [fileByte, view_congr (agree.slot_eq_of_present hp') hdisk]
    exact h.zero i hi hp'

end Data

/-! ## Free sectors -/

/-- The number of free sectors. -/
def freeSectors (b : Bitmap) : ℕ := ((Finset.range b.bitCnt).filter fun k => b.bits k = false).card

theorem exists_free {b : Bitmap} (h : 0 < freeSectors b) : ∃ t, b.FreeRun t 1 := by
  obtain ⟨t, ht⟩ := Finset.card_pos.mp h
  rw [Finset.mem_filter, Finset.mem_range] at ht
  exact ⟨t, by omega, fun k hk hlt => by
    have e : k = t := by omega
    exact e ▸ ht.2⟩

theorem freeSectors_mark {b : Bitmap} {t : ℕ} (h : b.FreeRun t 1) :
    freeSectors (b.setRange t 1 true) + 1 = freeSectors b := by
  have mem : t ∈ (Finset.range b.bitCnt).filter fun k => b.bits k = false := by
    rw [Finset.mem_filter, Finset.mem_range]
    exact ⟨by have := h.1; omega, h.2 t le_rfl (by omega)⟩
  have erase : ((Finset.range b.bitCnt).filter fun k => (b.setRange t 1 true).bits k = false) =
      ((Finset.range b.bitCnt).filter fun k => b.bits k = false).erase t := by
    ext k
    rw [Finset.mem_filter, Finset.mem_erase, Finset.mem_filter, Bitmap.setRange_bits]
    by_cases e : k = t
    · simp [e]
    · have out : ¬ (t ≤ k ∧ k < t + 1) := by omega
      rw [if_neg out]
      tauto
  rw [freeSectors, Bitmap.setRange_bitCnt, erase, Finset.card_erase_add_one mem]
  rfl

/-! ## The invariant -/

/-- The invariant of a file system state. -/
structure Core (use : ℕ → Option Use) (live : ℕ → Prop) (node : ℕ → Sector) (fs : FsState) :
    Prop where
  /-- The free map has a bit for every sector. -/
  mapSize : fs.freeMap.bitCnt = fs.dev.size
  /-- Sector 0 is never handed out. -/
  zeroUsed : fs.freeMap.bits 0 = true
  /-- A sector with a purpose is on the device and marked used. -/
  used : ∀ t u, use t = some u → t < fs.dev.size ∧ fs.freeMap.bits t = true
  /-- Live inodes have complete trees. -/
  tree : ∀ s, live s → use s = some .inode ∧ TreeOk use fs.dev.disk s (node s)
  /-- Open inodes hold the current contents of their inode. -/
  opens : ∀ p ∈ fs.openInodes, ∀ ino, fs.inodes p = some ino →
    use ino.sector = some .inode ∧ ino.data = node ino.sector

theorem Core.inside {use : ℕ → Option Use} {live : ℕ → Prop} {node : ℕ → Sector} {fs : FsState}
    (h : Core use live node fs) : ∀ t u, use t = some u → t < fs.dev.size :=
  fun t u hu => (h.used t u hu).1

/-- The free map's file: `f` is open on the inode at `q`, which is the one of
`FREE_MAP_SECTOR`, writable and long enough for the free map. -/
structure MapFile (live : ℕ → Prop) (node : ℕ → Sector) (fs : FsState) (f q : ℕ) : Prop where
  file : ∃ file, fs.files f = some file ∧ file.inode = q
  listed : q ∈ fs.openInodes
  inode : ∃ ino, fs.inodes q = some ino ∧ ino.sector = freeMapSector ∧ ino.denyWriteCnt = 0
  isLive : live freeMapSector
  length : inodeLength (node freeMapSector) = byteCnt fs.dev.size
  nonempty : 0 < fs.dev.size

/-- The free map's file holds the free map, up to the bits past its last one. -/
def MapSynced (node : ℕ → Sector) (fs : FsState) : Prop :=
  ∀ k < fs.dev.size,
    (bitmapOfBytes fs.dev.size (fileByte fs.dev.disk (node freeMapSector))).bits k =
      fs.freeMap.bits k

/-- It does so as long as the bytes of the file stay. -/
theorem MapSynced.congr {node node' : ℕ → Sector} {fs fs' : FsState} (h : MapSynced node fs)
    (hsize : fs'.dev.size = fs.dev.size) (hmap : fs'.freeMap = fs.freeMap)
    (hbytes : ∀ j < byteCnt fs.dev.size, fileByte fs'.dev.disk (node' freeMapSector) j =
      fileByte fs.dev.disk (node freeMapSector) j) : MapSynced node' fs' := by
  intro k hk
  rw [hsize] at hk ⊢
  have hj : k / 8 < byteCnt fs.dev.size := by
    unfold byteCnt elemCnt
    omega
  rw [hmap, ← h k hk, bitmapOfBytes, bitmapOfBytes]
  simp only [hbytes _ hj]

/-- The free map can be changed: its file is not open yet (while the device is
being formatted), or it is open and in step with the free map. -/
def MapReady (live : ℕ → Prop) (node : ℕ → Sector) (fs : FsState) : Prop :=
  fs.freeMapFile = none ∨
    ∃ f q, fs.freeMapFile = some f ∧ MapFile live node fs f q ∧ MapSynced node fs

section MapWrite

variable {use : ℕ → Option Use} {live : ℕ → Prop} {node : ℕ → Sector} {fs : FsState}

/-- A write that needs no growth leaves the growth part without effect. -/
theorem growWith_inside {extend : FsState → ℕ → ℤ → ℕ → Except Fault FsState} {p : ℕ}
    {ino : Inode} {size : ℤ} {offset : ℕ} (hp : fs.inodes p = some ino)
    (h1 : ¬ pastBlocks (inodeLength ino.data) size offset)
    (h2 : wrap32 (offset + size) ≤ inodeLength ino.data) :
    growWith extend fs p size offset = .ok fs := by
  simp only [growWith, FsState.inode_ok hp, ok_bind, if_neg h1, if_neg (not_lt.mpr h2)]
  rfl

/-- Changing data sectors of `s` keeps the invariant, if the tree of `s` stays
sound. -/
theorem Core.ofDataOnly (core : Core use live node fs) {s : ℕ} {dev' : Device}
    (size : dev'.size = fs.dev.size) (only : DataOnly use s fs.dev.disk dev'.disk)
    (tree : TreeOk use dev'.disk s (node s)) : Core use live node (fs.setDev dev') where
  mapSize := core.mapSize.trans size.symm
  zeroUsed := core.zeroUsed
  used t u hu := ⟨size ▸ (core.used t u hu).1, (core.used t u hu).2⟩
  tree s' hs' := by
    refine ⟨(core.tree s' hs').1, ?_⟩
    by_cases e : s' = s
    · exact e ▸ tree
    · exact (core.tree s' hs').2.congr (only.keepsOwned e) fun _ _ hu _ => hu
  opens := core.opens

/-- Writing the free map out through an open inode `q` with the contents `d`: the bytes of
the file are then those of the free map, only its data sectors change, and the file does not
grow. -/
theorem mapWrite_tree (extend : FsState → ℕ → ℤ → ℕ → Except Fault FsState) {q : ℕ} {ino : Inode}
    {d : Sector} (mapSize : fs.freeMap.bitCnt = fs.dev.size) (hpos : 0 < fs.dev.size)
    (inside : ∀ t u, use t = some u → t < fs.dev.size)
    (tree : TreeOk use fs.dev.disk freeMapSector d) (hq : fs.inodes q = some ino)
    (hdata : ino.data = d) (hdeny : ino.denyWriteCnt = 0)
    (length : inodeLength d = byteCnt fs.dev.size) :
    ∃ dev', inodeWriteAtWith extend fs q (bitmapByte fs.freeMap) (byteCnt fs.freeMap.bitCnt) 0 =
        .ok ((byteCnt fs.freeMap.bitCnt : ℤ), (fs.setDev dev')) ∧
      dev'.size = fs.dev.size ∧ DataOnly use freeMapSector fs.dev.disk dev'.disk ∧
      TreeOk use dev'.disk freeMapSector d ∧
      ∀ j < byteCnt fs.freeMap.bitCnt, fileByte dev'.disk d j = bitmapByte fs.freeMap j := by
  have hlen : inodeLength ino.data = byteCnt fs.dev.size := hdata ▸ length
  have hle := tree.len_le
  rw [length] at hle
  have hcnt : 0 < byteCnt fs.dev.size := by
    unfold byteCnt elemCnt
    omega
  have hw : wrap32 ((0 : ℕ) + (byteCnt fs.dev.size : ℤ)) = byteCnt fs.dev.size := by
    rw [wrap32_of_range] <;> push_cast <;> omega
  have hw1 : wrap32 ((0 : ℕ) + (byteCnt fs.dev.size : ℤ) - 1) = byteCnt fs.dev.size - 1 := by
    rw [wrap32_of_range] <;> push_cast <;> omega
  have hpast : ¬ pastBlocks (inodeLength ino.data) (byteCnt fs.dev.size) 0 := by
    unfold pastBlocks
    rw [hw1, hlen, Int.tdiv_eq_ediv_of_nonneg (by omega), Int.tdiv_eq_ediv_of_nonneg (by omega)]
    omega
  obtain ⟨dev', hrun, hsize, only, tree', hbyte⟩ := writeLoop_tree tree inside
    (bitmapByte fs.freeMap) (byteCnt fs.dev.size) 0
  have hmoved : transferred (inodeLength d) (byteCnt fs.dev.size) 0 = byteCnt fs.dev.size := by
    unfold transferred
    rw [length]
    omega
  refine ⟨dev', ?_, hsize, only, tree', fun j hj => ?_⟩
  · rw [mapSize, inodeWriteAtWith]
    simp only [FsState.inode_ok hq, ok_bind, hdeny, ne_eq, not_true, if_false,
      growWith_inside hq hpast (by rw [hw, hlen])]
    rw [hdata, Int.toNat_natCast, hrun, hmoved]
    rfl
  · rw [mapSize] at hj
    have := hbyte j (by rw [length]; exact_mod_cast hj)
    rwa [hmoved, if_pos (by omega)] at this

/-- Writing the free map out: only its file's data sectors change, and the file does
not grow. -/
theorem mapWriteAt_spec (extend : FsState → ℕ → ℤ → ℕ → Except Fault FsState)
    (core : Core use live node fs) {f q : ℕ} (map : MapFile live node fs f q) :
    ∃ dev', inodeWriteAtWith extend fs q (bitmapByte fs.freeMap) (byteCnt fs.freeMap.bitCnt) 0 =
        .ok ((byteCnt fs.freeMap.bitCnt : ℤ), (fs.setDev dev')) ∧
      dev'.size = fs.dev.size ∧ DataOnly use freeMapSector fs.dev.disk dev'.disk ∧
      Core use live node (fs.setDev dev') ∧
      MapSynced node (fs.setDev dev') := by
  obtain ⟨ino, hq, hsec, hdeny⟩ := map.inode
  obtain ⟨-, hdata⟩ := core.opens q map.listed ino hq
  obtain ⟨-, tree⟩ := core.tree _ map.isLive
  rw [hsec] at hdata
  obtain ⟨dev', hrun, hsize, only, tree', written⟩ := mapWrite_tree extend core.mapSize
    map.nonempty core.inside tree hq hdata hdeny map.length
  refine ⟨dev', hrun, hsize, only, core.ofDataOnly hsize only tree', fun k hk => ?_⟩
  have hk' : k < fs.freeMap.bitCnt := by
    rw [core.mapSize, ← hsize]
    exact hk
  have := bitmapOfBytes_bitmapByte fs.freeMap k _ written
  rw [decide_eq_true hk', Bool.true_and, core.mapSize, ← hsize] at this
  exact this

/-- `bitmap_write` of the free map succeeds. -/
theorem bitmapWrite_spec (extend : FsState → ℕ → ℤ → ℕ → Except Fault FsState)
    (core : Core use live node fs) {f q : ℕ} (map : MapFile live node fs f q) :
    ∃ dev', bitmapWriteWith (inodeWriteAtWith extend) fs f = .ok (true, (fs.setDev dev')) ∧
      dev'.size = fs.dev.size ∧ DataOnly use freeMapSector fs.dev.disk dev'.disk ∧
      Core use live node (fs.setDev dev') ∧
      MapSynced node (fs.setDev dev') := by
  obtain ⟨dev', hwrite, rest⟩ := mapWriteAt_spec extend core map
  obtain ⟨file, hfile, hino⟩ := map.file
  refine ⟨dev', ?_, rest⟩
  simp only [bitmapWriteWith, FsState.file_ok hfile, ok_bind, hino, hwrite, decide_true]
  rfl

theorem commitAllocation_ok {writeAt} {fs' : FsState} {f sector cnt : ℕ}
    (hf : fs.freeMapFile = some f) (hwrite : bitmapWriteWith writeAt fs f = .ok (true, fs')) :
    commitAllocation writeAt fs sector cnt = .ok (some sector, fs') := by
  simp only [commitAllocation, hf, hwrite, ok_bind, if_true]
  rfl

/-! ## Allocating and releasing -/

/-- The free map and its file after bit changes: everything but these two is kept,
and of the disk only the data of the free map's file may change. -/
structure MapStep (use : ℕ → Option Use) (fs fs' : FsState) : Prop where
  rest : fs' = (fs.setMap fs'.freeMap).setDev fs'.dev
  size : fs'.dev.size = fs.dev.size
  bitCnt : fs'.freeMap.bitCnt = fs.freeMap.bitCnt
  disk : DataOnly use freeMapSector fs.dev.disk fs'.dev.disk
  formatting : fs.freeMapFile = none → fs'.dev = fs.dev

theorem MapReady.withBits (h : MapReady live node fs) (freeMap : Bitmap) :
    fs.freeMapFile = none ∨ ∃ f q, fs.freeMapFile = some f ∧
      MapFile live node (fs.setMap freeMap) f q := by
  rcases h with h | ⟨f, q, hf, map, -⟩
  · exact .inl h
  · exact .inr ⟨f, q, hf, map.file, map.listed, map.inode, map.isLive, map.length, map.nonempty⟩

/-- **`free_map_allocate (1, …)` when a sector is free**: a sector without a purpose
is marked used, the free map's file follows, and nothing else changes. -/
theorem freeMapAllocate_spec (core : Core use live node fs) (ready : MapReady live node fs)
    (free : 0 < freeSectors fs.freeMap) :
    ∃ t fs', freeMapAllocate fs 1 = .ok (some t, fs') ∧ MapStep use fs fs' ∧
      Core use live node fs' ∧ MapReady live node fs' ∧
      t < fs.dev.size ∧ t ≠ 0 ∧ use t = none ∧ fs'.freeMap.bits t = true ∧
      (∀ k, fs.freeMap.bits k = true → fs'.freeMap.bits k = true) ∧
      freeSectors fs'.freeMap + 1 = freeSectors fs.freeMap := by
  obtain ⟨s, hs⟩ := exists_free free
  obtain ⟨t, hscan, hrun⟩ := bitmapScan_free hs
  have hclear : fs.freeMap.bits t = false := hrun.2 t le_rfl (by omega)
  have hin : t < fs.dev.size := by
    have := hrun.1
    rw [core.mapSize] at this
    omega
  have hnone : use t = none := by
    cases e : use t with
    | none => rfl
    | some u => simpa [hclear] using (core.used t u e).2
  have hzero : t ≠ 0 := fun e => by simpa [e ▸ hclear] using core.zeroUsed
  have hset : (fs.freeMap.setRange t 1 true).bits t = true := by simp [Bitmap.setRange]
  have hmono : ∀ k, fs.freeMap.bits k = true → (fs.freeMap.setRange t 1 true).bits k = true := by
    intro k hk
    simp [Bitmap.setRange, hk]
  -- the invariant after the bit is set and before the file is written
  have core1 : Core use live node (fs.setMap (fs.freeMap.setRange t 1 true)) :=
    ⟨core.mapSize, hmono 0 core.zeroUsed,
      fun k u hu => ⟨(core.used k u hu).1, hmono k (core.used k u hu).2⟩, core.tree, core.opens⟩
  rcases ready.withBits (fs.freeMap.setRange t 1 true) with hf | ⟨f, q, hf, map⟩
  · refine ⟨t, fs.setMap (fs.freeMap.setRange t 1 true), ?_,
      ⟨rfl, rfl, rfl, fun _ _ => rfl, fun _ => rfl⟩, core1, .inl hf, hin, hzero, hnone, hset,
      hmono, freeSectors_mark hrun⟩
    simp only [freeMapAllocate, freeMapAllocateWith, hscan, commitAllocation,
      FsState.setMap_freeMapFile, hf]
  · obtain ⟨dev', hwrite, hsize, only, core2, synced⟩ := bitmapWrite_spec _ core1 map
    refine ⟨t, (fs.setMap (fs.freeMap.setRange t 1 true)).setDev dev', ?_,
      ⟨rfl, hsize, rfl, only, fun e => by simp [hf] at e⟩, core2,
      .inr ⟨f, q, hf, ⟨map.file, map.listed, map.inode, map.isLive, ?_, ?_⟩, synced⟩, hin, hzero, hnone,
      hset, hmono, freeSectors_mark hrun⟩
    · simp only [freeMapAllocate, freeMapAllocateWith, hscan]
      have hf' : (fs.setMap (fs.freeMap.setRange t 1 true)).freeMapFile = some f := hf
      exact commitAllocation_ok hf' hwrite
    · exact hsize ▸ map.length
    · exact hsize ▸ map.nonempty

end MapWrite

end Pintos
