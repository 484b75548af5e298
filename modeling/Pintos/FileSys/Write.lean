import Pintos.FileSys.Extend

/-!
# `inode_write_at`

`inode_write_at` grows the file if the write ends past it, and then writes.  The
growth is right only when the slots `extend_file` fills line up with what
`byte_to_sector` will read: `GrowthOk` is that condition on the inode and the
arguments, and `inodeWriteAt_spec` is what the call does under it.

The slot of the old end, `len / 512`, is never filled by `extend_file` (it starts
one later), so a file whose length is a multiple of the sector size, the empty
file among them, can grow only if an earlier call allocated one sector too many.
-/

namespace Pintos

open Lib Lib.Block

/-! ## When the levels agree -/

/-- The levels of the slots `len / 512 + 1`, … that `extend_file` fills when a file
of `len` bytes is written at `offset` up to `stop`: all direct; from direct into
indirect, with the running length jumping to `stop` exactly there; all indirect;
all indirect up to the last one. -/
def LevelsAgree (len stop : ℤ) (offset : ℕ) : Prop :=
  let a := len / 512
  let b := len % 512
  let n := (stop - len + 511) / 512
  (stop < 62464 ∧ a + n ≤ 121) ∨
  (a ≤ 120 ∧ 62464 ≤ stop ∧ stop < 128000 ∧ a + n ≤ 249 ∧ offset ≤ 61440 + b ∧
    (a = 120 ∨ 60928 + b < offset)) ∨
  (122 ≤ a ∧ stop < 128000 ∧ a + n ≤ 249) ∨
  (122 ≤ a ∧ a ≤ 248 ∧ stop = 128000 ∧ offset ≤ 126976 + b ∧ (a = 248 ∨ 126464 + b < offset))

instance (len stop : ℤ) (offset : ℕ) : Decidable (LevelsAgree len stop offset) :=
  inferInstanceAs (Decidable (_ ∨ _))

section

variable {size : ℤ} {offset : ℕ}

theorem levelsOk_direct (hstop : offset + size < 62464) :
    ∀ (n idx : ℕ) (len : ℤ), 0 ≤ len → len ≤ offset + size → idx + n ≤ 122 →
      LevelsOk size offset n idx len := by
  intro n
  induction n with
  | zero => exact fun _ _ _ _ _ => trivial
  | succ n ih =>
      intro idx len h0 h1 h2
      refine ⟨.inl ⟨by omega, by omega⟩, ih _ _ ?_ ?_ (by omega)⟩ <;>
        (rw [runningLength_eq h0 h1 (by omega)]; split <;> omega)

theorem levelsOk_indirect (hstop : offset + size < 128000) :
    ∀ (n idx : ℕ) (len : ℤ), 62464 ≤ len → len ≤ offset + size → 122 ≤ idx → idx + n ≤ 250 →
      LevelsOk size offset n idx len := by
  intro n
  induction n with
  | zero => exact fun _ _ _ _ _ _ => trivial
  | succ n ih =>
      intro idx len h0 h1 h2 h3
      refine ⟨.inr (.inl ⟨by omega, by omega, by omega, by omega⟩),
        ih _ _ ?_ ?_ (by omega) (by omega)⟩ <;>
        (rw [runningLength_eq (by omega) h1 (by omega)]; split <;> omega)

theorem levelsOk_past (hstop : offset + size = 128000) :
    ∀ (n idx : ℕ), 250 ≤ idx → LevelsOk size offset n idx 128000 := by
  intro n
  induction n with
  | zero => exact fun _ _ => trivial
  | succ n ih =>
      intro idx h
      refine ⟨.inr (.inr ⟨by omega, by omega⟩), ?_⟩
      rw [runningLength_eq (by omega) (by omega) (by omega), if_neg (by omega), hstop]
      exact ih _ (by omega)

/-- From the direct level into the indirect one: as long as slots are direct the
running length advances by one sector, and then it jumps to `stop`. -/
theorem levelsOk_cross {b : ℤ} (hb : 0 ≤ b) (hb' : b < 512) (h1 : 62464 ≤ offset + size)
    (h2 : offset + size < 128000) (hoff : offset ≤ 61440 + b) :
    ∀ (n idx : ℕ), 1 ≤ idx → idx ≤ 121 → (idx = 121 ∨ 60928 + b < offset) → idx + n ≤ 250 →
      LevelsOk size offset n idx (512 * ((idx : ℤ) - 1) + b) := by
  intro n
  induction n with
  | zero => exact fun _ _ _ _ _ => trivial
  | succ n ih =>
      intro idx hi0 hi hjump hn
      refine ⟨.inl ⟨by omega, by omega⟩, ?_⟩
      rw [runningLength_eq (by omega) (by omega) (by omega)]
      by_cases hlast : idx = 121
      · subst hlast
        rw [if_neg (by push_cast; omega)]
        exact levelsOk_indirect h2 _ _ _ h1 le_rfl (by omega) (by omega)
      · rw [if_pos (by omega)]
        have := ih (idx + 1) (by omega) (by omega) (by omega) (by omega)
        rwa [show 512 * (((idx + 1 : ℕ) : ℤ) - 1) + b = 512 * ((idx : ℤ) - 1) + b + 512 by
          push_cast; ring] at this

/-- Up to the last slot of the indirect level. -/
theorem levelsOk_last {b : ℤ} (hb : 0 ≤ b) (hb' : b < 512) (h1 : offset + size = 128000)
    (hoff : offset ≤ 126976 + b) :
    ∀ (n idx : ℕ), 123 ≤ idx → idx ≤ 249 → (idx = 249 ∨ 126464 + b < offset) →
      LevelsOk size offset n idx (512 * ((idx : ℤ) - 1) + b) := by
  intro n
  induction n with
  | zero => exact fun _ _ _ _ => trivial
  | succ n ih =>
      intro idx hi0 hi hjump
      refine ⟨.inr (.inl ⟨by omega, by omega, by omega, by omega⟩), ?_⟩
      rw [runningLength_eq (by omega) (by omega) (by omega)]
      by_cases hlast : idx = 249
      · subst hlast
        rw [if_neg (by push_cast; omega), h1]
        exact levelsOk_past h1 _ _ (by omega)
      · rw [if_pos (by omega)]
        have := ih (idx + 1) (by omega) (by omega) (by omega)
        rwa [show 512 * (((idx + 1 : ℕ) : ℤ) - 1) + b = 512 * ((idx : ℤ) - 1) + b + 512 by
          push_cast; ring] at this

/-- **`LevelsAgree` is enough for every iteration.** -/
theorem LevelsAgree.levelsOk {len : ℤ} (h : LevelsAgree len (offset + size) offset)
    (h0 : 0 ≤ len) (h1 : len < offset + size) {n idx : ℕ}
    (hn : (n : ℤ) = (offset + size - len + 511) / 512) (hidx : (idx : ℤ) = len / 512 + 1) :
    LevelsOk size offset n idx len := by
  have hlen : len = 512 * ((idx : ℤ) - 1) + len % 512 := by omega
  rcases h with ⟨h2, h3⟩ | ⟨h2, h3, h4, h5, h6, h7⟩ | ⟨h2, h3, h4⟩ | ⟨h2, h3, h4, h5, h6⟩
  · exact levelsOk_direct h2 n idx len h0 h1.le (by omega)
  · rw [hlen]
    exact levelsOk_cross (by omega) (by omega) h3 h4 h6 n idx (by omega) (by omega)
      (h7.imp_left (by omega)) (by omega)
  · exact levelsOk_indirect h3 n idx len (by omega) h1.le (by omega) (by omega)
  · rw [hlen]
    exact levelsOk_last (by omega) (by omega) h4 h5 n idx (by omega) (by omega)
      (h6.imp_left (by omega))

/-- In every case the slots reach the end of the write. -/
theorem LevelsAgree.stop_le {len stop : ℤ} (h : LevelsAgree len stop offset) : stop ≤ 128000 := by
  rcases h with h | h | h | h <;> omega

end

/-! ## The growth step -/

/-- **When a write grows the file correctly**, as a condition on the inode and the
arguments: nothing grows; the file and the end of the write are both 0; or the
slot of the old end is present, and the write ends in that slot or the slots
`extend_file` fills are on the levels it takes them to be on. -/
def GrowthOk (disk : ℕ → Sector) (d : Sector) (size : ℤ) (offset : ℕ) : Prop :=
  (¬ pastBlocks (inodeLength d) size offset ∧ wrap32 (offset + size) ≤ inodeLength d) ∨
  (inodeLength d = 0 ∧ offset + size = 0) ∨
  (inodeLength d < offset + size ∧ Present disk d (inodeLength d / 512).toNat ∧
    (offset + size ≤ 512 * (inodeLength d / 512 + 1) ∨
      LevelsAgree (inodeLength d) (offset + size) offset))

instance (disk : ℕ → Sector) (d : Sector) (size : ℤ) (offset : ℕ) :
    Decidable (GrowthOk disk d size offset) :=
  inferInstanceAs (Decidable (_ ∨ _))

/-- The length after a write. -/
def grownLength (len size : ℤ) (offset : ℕ) : ℤ := max len (wrap32 (offset + size))

/-- The sectors a write allocates. -/
def growthDemand (d : Sector) (size : ℤ) (offset : ℕ) : ℕ :=
  if pastBlocks (inodeLength d) size offset then
    extendDemand d (sectorsToAdd (inodeLength d) size offset) (inodeLength d / 512 + 1).toNat
  else 0

theorem sectorsToAdd_eq {len size : ℤ} {offset : ℕ} (h0 : 0 ≤ len) (h1 : len ≤ offset + size)
    (h2 : offset + size ≤ 8516608) :
    (sectorsToAdd len size offset : ℤ) = (offset + size - len + 511) / 512 := by
  unfold sectorsToAdd
  rw [wrap32_of_range (by omega) (by omega)]
  simp only [Int.tmod_eq_emod_of_nonneg (show 0 ≤ (offset : ℤ) + size - len by omega),
    Int.tdiv_eq_ediv_of_nonneg (show 0 ≤ (offset : ℤ) + size - len by omega), ofInt32]
  split <;> omega

/-- In range, `GrowthOk` always holds and nothing is allocated. -/
theorem growthOk_inRange (disk : ℕ → Sector) {d : Sector} {size offset : ℕ}
    (h0 : 0 ≤ inodeLength d) (h1 : inodeLength d ≤ 8516608)
    (h : (offset : ℤ) + size ≤ inodeLength d) :
    GrowthOk disk d size offset ∧ growthDemand d size offset = 0 := by
  have hw : wrap32 (offset + (size : ℤ)) = offset + size := wrap32_of_range (by omega) (by omega)
  have hw1 : wrap32 (offset + (size : ℤ) - 1) = offset + size - 1 :=
    wrap32_of_range (by omega) (by omega)
  by_cases hlen : inodeLength d = 0
  · have hzero : sectorsToAdd (inodeLength d) size offset = 0 := by
      have hle : inodeLength d ≤ offset + (size : ℤ) := by omega
      have := sectorsToAdd_eq h0 hle (by omega)
      omega
    refine ⟨.inr (.inl ⟨hlen, by omega⟩), ?_⟩
    unfold growthDemand extendDemand
    rw [hzero]
    simp [hlen]
  · have hpast : ¬ pastBlocks (inodeLength d) size offset := by
      unfold pastBlocks
      rw [hw1, Int.tdiv_eq_ediv_of_nonneg h0]
      rintro (hc | hc)
      · rcases Nat.eq_zero_or_pos (offset + size) with hz | hz
        · rw [show (offset : ℤ) + size - 1 = -1 by omega] at hc
          have : Int.tdiv (-1) 512 = 0 := rfl
          omega
        · rw [Int.tdiv_eq_ediv_of_nonneg (by omega)] at hc
          omega
      · exact hlen hc.2
    exact ⟨.inl ⟨hpast, by omega⟩, by rw [growthDemand, if_neg hpast]⟩

section

variable {use use' : ℕ → Option Use} {live : ℕ → Prop} {node node' : ℕ → Sector}
  {fs fs' : FsState} {s p : ℕ}

/-- While an inode grows it is not live. -/
theorem Core.without (core : Core use live node fs) (s : ℕ) :
    Core use (fun x => live x ∧ x ≠ s) node fs :=
  ⟨core.mapSize, core.zeroUsed, core.used, fun x hx => core.tree x hx.1, core.opens⟩

theorem MapReady.without (ready : MapReady live node fs) (hne : s ≠ freeMapSector) :
    MapReady (fun x => live x ∧ x ≠ s) node fs := by
  rcases ready with h | ⟨f, q, hf, map, synced⟩
  · exact .inl h
  · exact .inr ⟨f, q, hf, ⟨map.file, map.listed, map.inode, ⟨map.isLive, hne.symm⟩, map.length,
      map.nonempty⟩, synced⟩

/-- **The end of the growth**: the inode goes to disk, and it is live again. -/
theorem Grow.writeInode (hs : live s)
    (g : Grow use use' (fun x => live x ∧ x ≠ s) node node' s p fs fs')
    (huse : use s = some .inode) (tree : TreeOk use' fs'.dev.disk s (node' s))
    (o : OpenAt s p fs) :
    fs'.write s (node' s) = .ok (fs'.setDev (fs'.dev.put s (node' s))) ∧
      Grow use use' live node node' s p fs (fs'.setDev (fs'.dev.put s (node' s))) ∧
      (fs'.setDev (fs'.dev.put s (node' s))).dev.disk s = node' s ∧
      ∀ i : ℕ, (i : ℤ) < inodeLength (node' s) →
        fileByte (fs'.setDev (fs'.dev.put s (node' s))).dev.disk (node' s) i =
          fileByte fs'.dev.disk (node' s) i := by
  have huse' := g.mono _ _ huse
  have hlive : (fun x => (live x ∧ x ≠ s) ∨ x = s) = live := by
    funext x
    refine propext ⟨?_, fun h => ?_⟩
    · rintro (h | rfl)
      · exact h.1
      · exact hs
    · by_cases e : x = s
      · exact .inr e
      · exact .inl ⟨h, e⟩
  have core := g.core.putInode huse' tree fun q hq ino hino e => by
    rw [(g.core.opens q hq ino hino).2, e]
  have ready := g.ready.putInode g.core huse' (fun h => h.2 rfl) (node' s)
  rw [hlive, Function.update_eq_self] at core ready
  refine ⟨by rw [FsState.write, blockWrite_ok _ (g.core.inside _ _ huse')]; rfl,
    ⟨?_, g.nodes, g.size, core, ready, g.mono, fun t u hu ht ho hk => ?_, g.bits⟩,
    Function.update_self .., fun i hi => ?_⟩
  · obtain ⟨ino, hp, e⟩ := g.rest
    refine ⟨ino, hp, ?_⟩
    rw [e]
    rfl
  · exact (Function.update_of_ne ht _ _).trans (g.keep t u hu ht ho hk)
  · exact TreeOk.fileByte_congr tree.ptrs (KeepsOwned.putInode huse' _ _ s)
      (tree.present _ (by omega))

/-- What the growth step leaves: the inode has the new length, on disk too, and its
new bytes are zero. -/
structure GrownTo (use use' : ℕ → Option Use) (live : ℕ → Prop) (node node' : ℕ → Sector)
    (s p : ℕ) (len : ℤ) (fs fs' : FsState) : Prop where
  grow : Grow use use' live node node' s p fs fs'
  length : inodeLength (node' s) = len
  synced : fs.dev.disk s = node s → fs'.dev.disk s = node' s
  bytes : ∀ i : ℕ, (i : ℤ) < len → fileByte fs'.dev.disk (node' s) i =
    if (i : ℤ) < inodeLength (node s) then fileByte fs.dev.disk (node s) i else 0

/-- Assemble the end of the growth from the invariant of the loop. -/
theorem GrownTo.ofInv (hs : live s)
    (g : Grow use use' (fun x => live x ∧ x ≠ s) node node' s p fs fs')
    (huse : use s = some .inode) (o : OpenAt s p fs) {cnt : ℕ}
    (inv : GrowInv use' fs'.dev.disk s (node' s) (inodeLength (node s))
      (fileByte fs.dev.disk (node s)) cnt)
    (h1 : inodeLength (node s) < inodeLength (node' s)) (h0 : 0 ≤ inodeLength (node s))
    (hmax : inodeLength (node' s) ≤ 8516608) (hcnt : inodeLength (node' s) ≤ 512 * cnt)
    (hbound : 512 * (cnt : ℤ) < inodeLength (node' s) + 1024) :
    fs'.write s (node' s) = .ok (fs'.setDev (fs'.dev.put s (node' s))) ∧
      GrownTo use use' live node node' s p (inodeLength (node' s)) fs
        (fs'.setDev (fs'.dev.put s (node' s))) := by
  have tree := inv.treeOk h1.le (by omega) hmax hcnt hbound
  obtain ⟨hwrite, g', hdisk, hbytes⟩ := g.writeInode hs huse tree o
  refine ⟨hwrite, g', rfl, fun _ => hdisk, fun i hi => ?_⟩
  rw [hbytes i hi]
  split
  · next hlt => exact inv.bytes i hlt
  · next hge => exact inv.gap (by omega) (by omega)

/-- Without growth nothing changes. -/
theorem GrownTo.refl (core : Core use live node fs) (ready : MapReady live node fs)
    (o : OpenAt s p fs) : GrownTo use use live node node s p (inodeLength (node s)) fs fs :=
  ⟨.refl core ready o, rfl, id, fun i hi => by rw [if_pos hi]⟩

/-- `extend_file` on an empty file, for a write that ends at 0. -/
theorem extendFile_empty (core : Core use live node fs) (ready : MapReady live node fs)
    (hs : live s) (hne : s ≠ freeMapSector) (o : OpenAt s p fs) {size : ℤ} {offset : ℕ}
    (h0 : inodeLength (node s) = 0) (hstop : offset + size = 0) :
    ∃ fs', extendFile fs p size offset = .ok fs' ∧
      GrownTo use use live node node s p 0 fs fs' := by
  obtain ⟨ino, hp, hsec, hdata⟩ := o.data core
  obtain ⟨huse, tree⟩ := core.tree s hs
  obtain ⟨hwrite, g', hdisk, hbytes⟩ :=
    (Grow.refl (core.without s) (ready.without hne) o).writeInode hs huse tree o
  refine ⟨_, ?_, g', h0, fun _ => hdisk, fun i hi => by omega⟩
  have hzero : sectorsToAdd 0 size offset = 0 := by
    have hle : (0 : ℤ) ≤ offset + size := by omega
    have := sectorsToAdd_eq le_rfl hle (by omega)
    omega
  rw [extendFile]
  simp only [FsState.inode_ok hp, ok_bind, hdata, h0, hzero, extendLoop, hsec, hwrite]

/-- **`extend_file` when the levels agree.** -/
theorem extendFile_spec (core : Core use live node fs) (ready : MapReady live node fs)
    (hs : live s) (hne : s ≠ freeMapSector) (o : OpenAt s p fs) {size : ℤ} {offset : ℕ}
    (h1 : inodeLength (node s) < offset + size)
    (hp : Present fs.dev.disk (node s) (inodeLength (node s) / 512).toNat)
    (levels : LevelsAgree (inodeLength (node s)) (offset + size) offset)
    (free : extendDemand (node s) (sectorsToAdd (inodeLength (node s)) size offset)
      (inodeLength (node s) / 512 + 1).toNat ≤ freeSectors fs.freeMap) :
    ∃ use' node' fs', extendFile fs p size offset = .ok fs' ∧
      GrownTo use use' live node node' s p (offset + size) fs fs' := by
  obtain ⟨ino, hino, hsec, hdata⟩ := o.data core
  obtain ⟨huse, tree⟩ := core.tree s hs
  have h0 := tree.len_nonneg
  have hmax := levels.stop_le
  have hn := sectorsToAdd_eq h0 h1.le (by omega : offset + size ≤ 8516608)
  have hidx : (((inodeLength (node s) / 512 + 1).toNat : ℕ) : ℤ) = inodeLength (node s) / 512 + 1 := by
    omega
  -- the slots of the old length, the last one included, are present
  have inv := GrowInv.ofTree tree (min (inodeLength (node s) / 512 + 1).toNat 250)
    (by omega) fun i hi => by
      by_cases e : i = (inodeLength (node s) / 512).toNat
      · exact e ▸ hp
      · exact tree.present i (by omega)
  obtain ⟨use', node', fs', hrun, g, inv', hlen⟩ := extendLoop_spec (fun h => h.2 rfl) (by omega)
    _ _ use node fs (core.without s) (ready.without hne) o inv h0 h1.le (by rw [hn]; omega)
    (levels.levelsOk h0 h1 hn hidx) free
  obtain ⟨hwrite, grown⟩ := GrownTo.ofInv hs g huse o inv' (by omega) h0 (by omega)
    (by rw [hlen]; push_cast; rw [hn, hidx]; omega) (by rw [hlen]; push_cast; rw [hn, hidx]; omega)
  rw [hlen] at grown
  refine ⟨use', node', _, ?_, grown⟩
  rw [extendFile]
  simp only [FsState.inode_ok hino, ok_bind, hdata, Int.tdiv_eq_ediv_of_nonneg h0]
  rw [hidx] at hrun
  simp only [hrun, ok_bind, FsState.inode_ok (g.inode hino), hsec, hwrite]

/-- **The growth step of `inode_write_at`.** -/
theorem growWith_spec (core : Core use live node fs) (ready : MapReady live node fs)
    (hs : live s) (hne : s ≠ freeMapSector) (o : OpenAt s p fs) {size : ℤ} {offset : ℕ}
    (ok : GrowthOk fs.dev.disk (node s) size offset)
    (free : growthDemand (node s) size offset ≤ freeSectors fs.freeMap) :
    ∃ use' node' fs', growWith extendFile fs p size offset = .ok fs' ∧
      GrownTo use use' live node node' s p (grownLength (inodeLength (node s)) size offset)
        fs fs' := by
  obtain ⟨ino, hino, hsec, hdata⟩ := o.data core
  obtain ⟨huse, tree⟩ := core.tree s hs
  have h0 := tree.len_nonneg
  unfold growthDemand at free
  rcases ok with ⟨hpast, hle⟩ | ⟨hlen, hstop⟩ | ⟨hlt, hp, hend⟩
  · refine ⟨use, node, fs, growWith_inside hino (hdata ▸ hpast) (hdata ▸ hle), ?_⟩
    rw [grownLength, max_eq_left hle]
    exact .refl core ready o
  · obtain ⟨fs', hrun, grown⟩ := extendFile_empty core ready hs hne o hlen hstop
    refine ⟨use, node, fs', ?_, ?_⟩
    · have hpast : pastBlocks 0 size offset := by
        refine .inr ⟨?_, rfl⟩
        rw [hstop, wrap32_of_range (by omega) (by omega)]
        rfl
      rw [growWith]
      simp only [FsState.inode_ok hino, ok_bind, hdata, hlen, hpast, if_true, hrun]
    · rw [grownLength, hlen, hstop, wrap32_of_range (by omega) (by omega), max_self]
      exact grown
  · have hpos := (tree.bound _ hp).1
    have hmax : offset + size ≤ 8516608 := by
      rcases hend with h | h
      · have : (inodeLength (node s) / 512).toNat < 16634 := by
          by_cases hi : 250 ≤ (inodeLength (node s) / 512).toNat
          · exact (hp.2.2 hi).1
          · omega
        omega
      · have := h.stop_le
        omega
    have hw : wrap32 (offset + size) = offset + size := wrap32_of_range (by omega) (by omega)
    have hw1 : wrap32 (offset + size - 1) = offset + size - 1 :=
      wrap32_of_range (by omega) (by omega)
    have hpast : pastBlocks (inodeLength (node s)) size offset ↔
        512 * (inodeLength (node s) / 512 + 1) < offset + size := by
      unfold pastBlocks
      rw [hw1, Int.tdiv_eq_ediv_of_nonneg h0, Int.tdiv_eq_ediv_of_nonneg (by omega)]
      omega
    rw [grownLength, hw, max_eq_right hlt.le]
    by_cases hin : offset + size ≤ 512 * (inodeLength (node s) / 512 + 1)
    · -- inside the last allocated sector: only the length changes
      have g := Grow.setData (core.without s) (ready.without hne) (fun h => h.2 rfl) o hino
        (setLength (node s) (offset + size))
      have hlen' : inodeLength (Function.update node s (setLength (node s) (offset + size)) s) =
          offset + size := by
        rw [Function.update_self, inodeLength_setLength _ (by omega) (by omega)]
      have inv := (GrowInv.ofTree tree ((inodeLength (node s) / 512).toNat + 1)
        (by omega) fun i hi => by
          by_cases e : i = (inodeLength (node s) / 512).toNat
          · exact e ▸ hp
          · exact tree.present i (by omega)).setLength (offset + size)
      obtain ⟨hwrite, grown⟩ := GrownTo.ofInv hs g huse o
        (by rw [Function.update_self]; exact inv) (by omega) h0 (by omega)
        (by rw [hlen']; push_cast; omega) (by rw [hlen']; push_cast; omega)
      rw [hlen'] at grown
      refine ⟨use, _, _, ?_, grown⟩
      have hin' : s < fs.dev.size := core.inside _ _ huse
      rw [growWith]
      simp only [FsState.inode_ok hino, ok_bind, hdata, hpast, not_lt.mpr hin, if_false, hw, hlt,
        gt_iff_lt, if_true, hsec, blockWrite_ok _ hin', Function.update_self]
      rfl
    · obtain ⟨use', node', fs', hrun, grown⟩ := extendFile_spec core ready hs hne o hlt hp
        (hend.resolve_left hin) (by rwa [if_pos (hpast.mpr (by omega))] at free)
      refine ⟨use', node', fs', ?_, grown⟩
      rw [growWith]
      simp only [FsState.inode_ok hino, ok_bind, hdata, hpast.mpr (not_le.mp hin), if_true, hrun]

/-! ## The whole calls -/

theorem MapReady.ofDataOnly (core : Core use live node fs) (ready : MapReady live node fs)
    (hne : s ≠ freeMapSector) {dev' : Device} (size : dev'.size = fs.dev.size)
    (only : DataOnly use s fs.dev.disk dev'.disk) : MapReady live node (fs.setDev dev') := by
  rcases ready with h | ⟨f, q, hf, map, synced⟩
  · exact .inl h
  · obtain ⟨-, tree⟩ := core.tree _ map.isLive
    have hlen := map.length
    refine .inr ⟨f, q, hf, ⟨map.file, map.listed, map.inode, map.isLive, size ▸ map.length,
      size ▸ map.nonempty⟩, synced.congr size rfl fun j hj => ?_⟩
    exact TreeOk.fileByte_congr tree.ptrs (only.keepsOwned hne.symm) (tree.present _ (by omega))

/-- **`inode_write_at` under `GrowthOk`**: the file has the new length, the bytes in
range are the buffer's, the gap before them is zero, the others are the old ones;
and nothing else changes. -/
theorem inodeWriteAt_spec (core : Core use live node fs) (ready : MapReady live node fs)
    (hs : live s) (hne : s ≠ freeMapSector) (o : OpenAt s p fs)
    (deny : ∀ ino, fs.inodes p = some ino → ino.denyWriteCnt = 0)
    (buffer : ℕ → UInt8) {size : ℤ} {offset : ℕ}
    (ok : GrowthOk fs.dev.disk (node s) size offset)
    (free : growthDemand (node s) size offset ≤ freeSectors fs.freeMap) :
    ∃ use' node' fs' moved,
      moved = transferred (grownLength (inodeLength (node s)) size offset) size.toNat offset ∧
      inodeWriteAt fs p buffer size offset = .ok ((moved : ℤ), fs') ∧
      Grow use use' live node node' s p fs fs' ∧
      inodeLength (node' s) = grownLength (inodeLength (node s)) size offset ∧
      (fs.dev.disk s = node s → fs'.dev.disk s = node' s) ∧
      ∀ i : ℕ, (i : ℤ) < inodeLength (node' s) → fileByte fs'.dev.disk (node' s) i =
        if offset ≤ i ∧ i < offset + moved then buffer (i - offset)
        else if (i : ℤ) < inodeLength (node s) then fileByte fs.dev.disk (node s) i else 0 := by
  obtain ⟨ino, hino, hsec, hdata⟩ := o.data core
  obtain ⟨use', node', fs1, hrun1, grown⟩ := growWith_spec core ready hs hne o ok free
  have g := grown.grow
  obtain ⟨huse, tree⟩ := g.core.tree s hs
  obtain ⟨dev', hrun2, hsize, only, tree', hbytes⟩ :=
    writeLoop_tree tree g.core.inside buffer size.toNat offset
  have hlen := grown.length
  refine ⟨use', node', fs1.setDev dev', _, rfl, ?_,
    ⟨?_, g.nodes, hsize.trans g.size, g.core.ofDataOnly hsize only tree',
      g.ready.ofDataOnly g.core hne hsize only, g.mono, fun t u hu ht ho hk => ?_, g.bits⟩,
    hlen, fun hsync => ?_, fun i hi => ?_⟩
  · rw [inodeWriteAt, inodeWriteAtWith]
    simp only [FsState.inode_ok hino, ok_bind, deny ino hino, ne_eq, not_true, if_false, hrun1,
      FsState.inode_ok (g.inode hino), hrun2]
    rw [hlen]
    rfl
  · obtain ⟨ino', hp', e⟩ := g.rest
    refine ⟨ino', hp', ?_⟩
    rw [e]
    rfl
  · refine (only t fun i e => ho ?_).trans (g.keep t u hu ht ho hk)
    rw [g.mono t u hu, Option.some.injEq] at e
    rw [e, Use.owner]
  · refine (only s fun i e => ?_).trans (grown.synced hsync)
    rw [huse] at e
    simp at e
  · rw [show (fs1.setDev dev').dev.disk = dev'.disk from rfl, hbytes i hi, hlen]
    split
    · rfl
    · exact grown.bytes i (hlen ▸ hi)

/-- **`inode_read_at`** returns the bytes of the file in range. -/
theorem inodeReadAt_spec (core : Core use live node fs) (hs : live s) (o : OpenAt s p fs)
    (size : ℤ) (offset : ℕ) :
    inodeReadAt fs p size offset =
      .ok ((List.range (transferred (inodeLength (node s)) size.toNat offset)).map fun k =>
        fileByte fs.dev.disk (node s) (offset + k)) := by
  obtain ⟨ino, hino, hsec, hdata⟩ := o.data core
  obtain ⟨-, tree⟩ := core.tree s hs
  rw [inodeReadAt]
  simp only [FsState.inode_ok hino, ok_bind, hdata]
  split
  · next hgt =>
      have h0 : transferred (inodeLength (node s)) size.toNat offset = 0 := by
        unfold transferred
        omega
      rw [h0]
      rfl
  · exact readLoop_tree tree core.inside _ _

end

/-! ## What a write costs -/

section Cost

variable {fs fs' : FsState} {p : ℕ}

/-- Writing the free map out does not change it. -/
theorem freeMapWriteAt_freeMap {p : ℕ} {buffer : ℕ → UInt8} {size written : ℤ} {offset : ℕ}
    (h : freeMapWriteAt fs p buffer size offset = .ok (written, fs')) : fs'.freeMap = fs.freeMap := by
  unfold freeMapWriteAt inodeWriteAtWith at h
  obtain ⟨ino, -, h⟩ := bind_eq_ok.mp h
  split at h
  · cases h
    rfl
  · obtain ⟨fs1, hgrow, h⟩ := bind_eq_ok.mp h
    obtain ⟨ino1, -, h⟩ := bind_eq_ok.mp h
    obtain ⟨⟨w, dev⟩, -, h⟩ := bind_eq_ok.mp h
    cases h
    unfold growWith at hgrow
    obtain ⟨ino2, -, hgrow⟩ := bind_eq_ok.mp hgrow
    simp only at hgrow
    split at hgrow
    · cases hgrow
    split at hgrow
    · obtain ⟨dev2, -, hgrow⟩ := bind_eq_ok.mp hgrow
      cases hgrow
      rfl
    · cases hgrow
      rfl

theorem freeSectors_unmark {b : Bitmap} {t : ℕ} (h : b.FreeRun t 1) :
    (b.setRange t 1 true).setRange t 1 false = b := by
  refine congrArg (Bitmap.mk b.bitCnt) (funext fun k => ?_)
  show ((b.setRange t 1 true).setRange t 1 false).bits k = _
  rw [Bitmap.setRange_bits, Bitmap.setRange_bits]
  split
  · next hk => exact (h.2 k hk.1 hk.2).symm
  · rfl

/-- An allocation takes at most one sector. -/
theorem freeMapAllocate_cost {r : Option ℕ} (h : freeMapAllocate fs 1 = .ok (r, fs')) :
    freeSectors fs.freeMap ≤ freeSectors fs'.freeMap + 1 := by
  unfold freeMapAllocate freeMapAllocateWith at h
  split at h
  · cases h
    omega
  next t hscan =>
  have hfree := bitmapScan_some hscan
  have hmark := freeSectors_mark hfree
  unfold commitAllocation at h
  split at h
  · cases h
    exact hmark.ge
  next f hf =>
  obtain ⟨⟨success, fs1⟩, hwrite, h⟩ := bind_eq_ok.mp h
  unfold bitmapWriteWith at hwrite
  obtain ⟨file, -, hwrite⟩ := bind_eq_ok.mp hwrite
  obtain ⟨⟨written, fs2⟩, hwrite, e⟩ := bind_eq_ok.mp hwrite
  cases e
  have hmap := freeMapWriteAt_freeMap hwrite
  simp only at h
  split at h
  · cases h
    rw [hmap]
    exact hmark.ge
  · obtain ⟨b, hb, h⟩ := bind_eq_ok.mp h
    cases h
    unfold bitmapSetMultiple at hb
    split at hb
    · cases hb
      rw [FsState.setMap_freeMap, hmap, FsState.setMap_freeMap, freeSectors_unmark hfree]
      omega
    · cases hb

theorem write_freeMap {sector : ℕ} {buffer : Sector} (h : fs.write sector buffer = .ok fs') :
    fs'.freeMap = fs.freeMap := by
  obtain ⟨dev, -, h⟩ := bind_eq_ok.mp h
  cases h
  rfl

theorem allocateInto_cost {block data : Sector} {j : ℕ}
    (h : allocateInto fs block j = .ok (data, fs')) :
    freeSectors fs.freeMap ≤ freeSectors fs'.freeMap + 1 := by
  obtain ⟨⟨r, fs1⟩, halloc, h⟩ := bind_eq_ok.mp h
  cases h
  exact freeMapAllocate_cost halloc

/-- On the direct level an iteration takes at most one sector. -/
theorem extendBlock_cost {ino : Inode} (hino : fs.inodes p = some ino)
    (hlen : inodeLength ino.data < 62464) {idx : ℤ} (h : extendBlock fs p idx = .ok fs') :
    freeSectors fs.freeMap ≤ freeSectors fs'.freeMap + 1 := by
  rw [extendBlock, FsState.inode_ok hino, ok_bind] at h
  simp only [show inodeLength ino.data < 512 * 122 by omega, if_true] at h
  split at h
  · cases h
  · obtain ⟨⟨data, fs1⟩, halloc, h⟩ := bind_eq_ok.mp h
    have hcost := allocateInto_cost halloc
    rwa [write_freeMap h]

/-- A write that stays in the blocks of the file does not allocate. -/
theorem inodeWriteAt_freeMap {ino : Inode} (hino : fs.inodes p = some ino)
    {buffer : ℕ → UInt8} {size written : ℤ} {offset : ℕ}
    (hpast : ¬ pastBlocks (inodeLength ino.data) size offset)
    (hle : wrap32 (offset + size) ≤ inodeLength ino.data)
    (h : inodeWriteAt fs p buffer size offset = .ok (written, fs')) : fs'.freeMap = fs.freeMap := by
  rw [inodeWriteAt, inodeWriteAtWith, FsState.inode_ok hino, ok_bind] at h
  split at h
  · cases h
    rfl
  rw [growWith_inside hino hpast hle, ok_bind, FsState.inode_ok hino, ok_bind] at h
  obtain ⟨⟨n, dev⟩, -, h⟩ := bind_eq_ok.mp h
  cases h
  rfl

/-- **A write that adds at most one sector to the direct level** takes at most one, and none
if it stays in the blocks the file has. -/
theorem inodeWriteAt_cost {ino : Inode} (hino : fs.inodes p = some ino)
    (hlen : inodeLength ino.data < 62464) {buffer : ℕ → UInt8} {size written : ℤ} {offset : ℕ}
    (hadd : pastBlocks (inodeLength ino.data) size offset →
      sectorsToAdd (inodeLength ino.data) size offset ≤ 1)
    (h : inodeWriteAt fs p buffer size offset = .ok (written, fs')) :
    freeSectors fs.freeMap ≤ freeSectors fs'.freeMap +
      if pastBlocks (inodeLength ino.data) size offset then 1 else 0 := by
  rw [inodeWriteAt, inodeWriteAtWith, FsState.inode_ok hino, ok_bind] at h
  split at h
  · cases h
    omega
  obtain ⟨fs1, hgrow, h⟩ := bind_eq_ok.mp h
  obtain ⟨ino1, -, h⟩ := bind_eq_ok.mp h
  obtain ⟨⟨n, dev⟩, -, h⟩ := bind_eq_ok.mp h
  cases h
  show _ ≤ freeSectors fs1.freeMap + _
  rw [growWith, FsState.inode_ok hino, ok_bind] at hgrow
  simp only at hgrow
  split at hgrow
  · next hpast =>
      have hone := hadd hpast
      rw [if_pos hpast]
      rw [extendFile, FsState.inode_ok hino, ok_bind] at hgrow
      obtain ⟨fs2, hloop, hgrow⟩ := bind_eq_ok.mp hgrow
      obtain ⟨ino2, -, hgrow⟩ := bind_eq_ok.mp hgrow
      rw [write_freeMap hgrow]
      interval_cases hn : sectorsToAdd (inodeLength ino.data) size offset
      · rw [extendLoop] at hloop
        cases hloop
        omega
      · rw [extendLoop] at hloop
        obtain ⟨fs3, hblock, hloop⟩ := bind_eq_ok.mp hloop
        obtain ⟨ino3, -, hloop⟩ := bind_eq_ok.mp hloop
        cases hloop
        have hcost := extendBlock_cost hino hlen hblock
        exact hcost
  · split at hgrow
    · obtain ⟨dev2, -, hgrow⟩ := bind_eq_ok.mp hgrow
      cases hgrow
      exact Nat.le_add_right _ _
    · cases hgrow
      omega

end Cost

end Pintos
