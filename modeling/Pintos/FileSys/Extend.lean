import Pintos.FileSys.Grow

/-!
# `extend_file`

One iteration of `extend_file` (`extendBlock_direct`, `extendBlock_indirect`), its
loop (`extendLoop_spec`) and the whole function (`extendFile_spec`).

The level of an iteration follows from the running length and the slot from
`next_index`; the two are computed apart.  `LevelsOk` says that they agree in
every iteration, and is the one thing the loop needs.
-/

namespace Pintos

open Lib Lib.Block

section

variable {use use' : ℕ → Option Use} {live : ℕ → Prop} {node node' : ℕ → Sector}
  {fs fs' : FsState} {s p : ℕ} {len : ℤ} {orig : ℕ → UInt8} {cnt : ℕ}

/-- A fresh sector of zeros changes no sector of the tree. -/
theorem Alloc.keepsOwned (h : Alloc use use' live node fs fs') (hs : ¬ live s)
    (ready : MapReady live node fs) {t : ℕ} (hnone : use t = none) (b : Sector) :
    KeepsOwned use s fs.dev.disk (Function.update fs'.dev.disk t b) := by
  intro x v hx hv
  rw [Function.update_of_ne (fun e => by simp [e, hnone] at hx)]
  refine h.keep x v hx ((ready.ne_freeMapSector hs).imp_right fun hne i e => ?_)
  rw [e, Use.owner, Option.some.injEq] at hv
  exact hne hv.symm

/-- **One iteration at the direct level.** -/
theorem extendBlock_direct (core : Core use live node fs) (ready : MapReady live node fs)
    (hs : ¬ live s) (o : OpenAt s p fs)
    (inv : GrowInv use fs.dev.disk s (node s) len orig cnt)
    (hlen : inodeLength (node s) < 62464) (hcnt : cnt < 122)
    (free : 0 < freeSectors fs.freeMap) :
    ∃ use' node' fs', extendBlock fs p cnt = .ok fs' ∧
      Grow use use' live node node' s p fs fs' ∧
      GrowInv use' fs'.dev.disk s (node' s) len orig (cnt + 1) ∧
      inodeLength (node' s) = inodeLength (node s) ∧
      indirectPtr (node' s) = indirectPtr (node s) ∧
      freeSectors fs'.freeMap + 1 = freeSectors fs.freeMap := by
  obtain ⟨ino, hp, hsec, hdata⟩ := o.data core
  obtain ⟨t, fs1, hrun, alloc, hin, ht0, hnone, hfree⟩ :=
    allocateInto_spec core ready free ino.data (4 + cnt) (.data s cnt)
  have ht : t < 2 ^ 32 := hin.trans fs.dev.size_lt
  have huse : Function.update use t (some (Use.data s cnt)) t = some (.data s cnt) :=
    Function.update_self ..
  have g1 := Grow.ofAlloc alloc core o
  have hp1 : fs1.inodes p = some ino := alloc.inodes ▸ hp
  have g2 := g1.trans (Grow.setData alloc.core alloc.ready hs (g1.openAt o) hp1
    (setWord ino.data (4 + cnt) t))
  obtain ⟨hwrite, g3⟩ := g2.put huse rfl hs zeros
  refine ⟨_, _, _, ?_, g3, ?_, ?_, ?_, hfree⟩
  · rw [extendBlock]
    simp only [FsState.inode_ok hp, ok_bind, hdata, hlen, show (512 * 122 : ℤ) = 62464 by norm_num,
      if_true, show ¬ ((cnt : ℤ) < 0 ∨ 122 ≤ (cnt : ℤ)) by omega, if_false, Int.toNat_natCast]
    rw [hdata] at hrun hwrite
    simp only [hrun, ok_bind, directPtr, wordAt_setWord_self (node s) (show 4 * (4 + cnt) + 3 < 512
      by omega) ht, hwrite]
  · rw [Function.update_self, hdata]
    have inv1 := inv.congr (alloc.keepsOwned hs ready hnone zeros) fun x v hx _ => alloc.mono x v hx
    exact inv1.add (SlotSet.direct _ _ hcnt ht ht0) (inv1.ptrs.setDirect hcnt ht ht0 huse)
      (Function.update_self ..) fun _ _ _ => rfl
  · rw [Function.update_self, hdata, inodeLength, wordAt_setWord_ne _ _ (by omega)]
    rfl
  · rw [Function.update_self, hdata, indirectPtr, wordAt_setWord_ne _ _ (by omega)]
    rfl

/-- Loading the indirect block: if there is none, a zeroed one is allocated. -/
theorem loadIndirect_spec (core : Core use live node fs) (ready : MapReady live node fs)
    (hs : ¬ live s) (o : OpenAt s p fs) {ino : Inode} (hp : fs.inodes p = some ino)
    (inv : GrowInv use fs.dev.disk s (node s) len orig cnt)
    (free : indirectPtr (node s) = 0 → 0 < freeSectors fs.freeMap) :
    ∃ use' node' fs',
      loadIndirect fs p ino =
        .ok (fs'.dev.disk (indirectPtr (node' s)), node' s, fs') ∧
      Grow use use' live node node' s p fs fs' ∧
      GrowInv use' fs'.dev.disk s (node' s) len orig cnt ∧
      indirectPtr (node' s) ≠ 0 ∧ inodeLength (node' s) = inodeLength (node s) ∧
      freeSectors fs'.freeMap + (if indirectPtr (node s) = 0 then 1 else 0) =
        freeSectors fs.freeMap := by
  obtain ⟨ino', hp', hsec, hdata⟩ := o.data core
  rw [hp, Option.some.injEq] at hp'
  subst hp'
  by_cases hP : indirectPtr (node s) = 0
  · obtain ⟨t, fs1, hrun, alloc, hin, ht0, hnone, hfree⟩ :=
      allocateInto_spec core ready (free hP) ino.data 126 (.indirect s)
    have ht : t < 2 ^ 32 := hin.trans fs.dev.size_lt
    have huse : Function.update use t (some (Use.indirect s)) t = some (.indirect s) :=
      Function.update_self ..
    have g1 := Grow.ofAlloc alloc core o
    have hp1 : fs1.inodes p = some ino := alloc.inodes ▸ hp
    have g2 := g1.trans (Grow.setData alloc.core alloc.ready hs (g1.openAt o) hp1
      (setWord ino.data 126 t))
    obtain ⟨hwrite, g3⟩ := g2.put huse rfl hs zeros
    have hI : indirectPtr (setWord (node s) 126 t) = t := wordAt_setWord_self _ (by norm_num) ht
    refine ⟨_, _, _, ?_, g3, ?_, ?_, ?_, ?_⟩
    · rw [hdata] at hrun hwrite ⊢
      rw [loadIndirect, hdata, if_pos hP]
      simp only [hrun, ok_bind, hI, hwrite, Function.update_self, FsState.setDev_dev,
        Device.put_disk]
      rfl
    · have inv1 := inv.congr (alloc.keepsOwned hs ready hnone zeros)
        fun x v hx _ => alloc.mono x v hx
      have hz : Function.update fs1.dev.disk t (zeros : Sector) t = zeros :=
        Function.update_self ..
      rw [Function.update_self, hdata]
      refine inv1.samePtrs ⟨fun i hi => ?_, fun _ => ?_, ?_, ?_⟩ fun i =>
        present_newIndirect hP ht hz i
      · have hi' := (present_newIndirect hP ht hz i).1.mp hi
        rw [(present_newIndirect hP ht hz i).2 hi']
        exact inv1.ptrs.data i hi'
      · rw [hI]
        exact huse
      · rw [doublyPtr, wordAt_setWord_ne _ _ (by omega)]
        exact inv1.ptrs.doubly
      · rw [doublyPtr, wordAt_setWord_ne _ _ (by omega)]
        exact inv1.ptrs.second
    · rw [Function.update_self, hdata, hI]
      exact ht0
    · rw [Function.update_self, hdata, inodeLength, wordAt_setWord_ne _ _ (by omega)]
      rfl
    · rw [if_pos hP]
      exact hfree
  · refine ⟨use, node, fs, ?_, .refl core ready o, inv, hP, rfl, by rw [if_neg hP]; rfl⟩
    rw [loadIndirect, hdata, if_neg hP,
      blockRead_ok (core.inside _ _ (inv.ptrs.indirect hP))]
    rfl

/-- **One iteration at the indirect level.** -/
theorem extendBlock_indirect (core : Core use live node fs) (ready : MapReady live node fs)
    (hs : ¬ live s) (o : OpenAt s p fs)
    (inv : GrowInv use fs.dev.disk s (node s) len orig cnt)
    (hlen : 62464 ≤ inodeLength (node s)) (hlen' : inodeLength (node s) < 128000)
    (hcnt : 122 ≤ cnt) (hcnt' : cnt < 250)
    (free : (if indirectPtr (node s) = 0 then 1 else 0) < freeSectors fs.freeMap) :
    ∃ use' node' fs', extendBlock fs p cnt = .ok fs' ∧
      Grow use use' live node node' s p fs fs' ∧
      GrowInv use' fs'.dev.disk s (node' s) len orig (cnt + 1) ∧
      inodeLength (node' s) = inodeLength (node s) ∧ indirectPtr (node' s) ≠ 0 ∧
      freeSectors fs'.freeMap + (if indirectPtr (node s) = 0 then 1 else 0) + 1 =
        freeSectors fs.freeMap := by
  obtain ⟨ino, hp, hsec, hdata⟩ := o.data core
  obtain ⟨use1, node1, fs1, hload, g1, inv1, hP, hlen1, hfree1⟩ :=
    loadIndirect_spec core ready hs o hp inv fun h => by rw [if_pos h] at free; omega
  obtain ⟨t, fs2, hrun, alloc, hin, ht0, hnone, hfree2⟩ :=
    allocateInto_spec g1.core g1.ready (by omega) (fs1.dev.disk (indirectPtr (node1 s)))
      (cnt - 122) (.data s cnt)
  have ht : t < 2 ^ 32 := hin.trans fs1.dev.size_lt
  have huse : Function.update use1 t (some (Use.data s cnt)) t = some (.data s cnt) :=
    Function.update_self ..
  have hPuse := inv1.ptrs.indirect hP
  have hPt : indirectPtr (node1 s) ≠ t := fun e => by simp [e, hnone] at hPuse
  obtain ⟨hwrite, g2⟩ := (g1.trans (.ofAlloc alloc g1.core (g1.openAt o))).put huse rfl hs zeros
  obtain ⟨hwrite', g3⟩ := g2.put (alloc.mono _ _ hPuse) rfl hs
    (setWord (fs1.dev.disk (indirectPtr (node1 s))) (cnt - 122) t)
  -- the block in memory is the block on disk
  have hblock : Function.update fs2.dev.disk t (zeros : Sector) (indirectPtr (node1 s)) =
      fs1.dev.disk (indirectPtr (node1 s)) := by
    rw [Function.update_of_ne hPt]
    exact alloc.keep _ _ hPuse (.inr fun _ => by simp)
  refine ⟨_, node1, _, ?_, g3, ?_, hlen1, hP, ?_⟩
  · rw [extendBlock]
    simp only [FsState.inode_ok hp, ok_bind, hdata, show (512 * 122 : ℤ) = 62464 by norm_num,
      show (512 * (122 + 128) : ℤ) = 128000 by norm_num, not_lt.mpr hlen, if_false, hlen', if_true,
      hload, show ¬ ((cnt : ℤ) - 122 < 0 ∨ 128 ≤ (cnt : ℤ) - 122) by omega,
      show ((cnt : ℤ) - 122).toNat = cnt - 122 by omega, hrun,
      wordAt_setWord_self (fs1.dev.disk (indirectPtr (node1 s))) (show 4 * (cnt - 122) + 3 < 512
        by omega) ht, hwrite, hwrite']
  · have inv2 := inv1.congr (alloc.keepsOwned hs g1.ready hnone zeros)
      fun x v hx _ => alloc.mono x v hx
    have set := SlotSet.indirect inv2.ptrs hP hcnt hcnt' ht ht0
    have ptrs := inv2.ptrs.setIndirect hP hcnt hcnt' ht ht0 huse
    rw [hblock] at set ptrs
    refine inv2.add set ptrs ?_ fun i _ hi => ?_
    · exact (Function.update_of_ne hPt.symm _ _).trans (Function.update_self ..)
    · refine Function.update_of_ne (fun e => ?_) _ _
      have := inv2.ptrs.data i hi
      rw [e, alloc.mono _ _ hPuse] at this
      simp at this
  · show freeSectors fs2.freeMap + _ + 1 = _
    omega

/-- One iteration past the indirect level allocates nothing. -/
theorem extendBlock_none (core : Core use live node fs) (o : OpenAt s p fs)
    (hlen : 128000 ≤ inodeLength (node s)) (nextIndex : ℤ) :
    extendBlock fs p nextIndex = .ok fs := by
  obtain ⟨ino, hp, hsec, hdata⟩ := o.data core
  rw [extendBlock]
  simp only [FsState.inode_ok hp, ok_bind, hdata, show (512 * 122 : ℤ) = 62464 by norm_num,
    show (512 * (122 + 128) : ℤ) = 128000 by norm_num, not_lt.mpr hlen,
    show ¬ inodeLength (node s) < 62464 by omega, if_false]
  rfl

end

/-! ## The loop -/

/-- In each of `n` iterations from slot `idx` and running length `len` on, the
length names the level of the slot: direct, indirect, or past both. -/
def LevelsOk (size : ℤ) (offset : ℕ) : ℕ → ℕ → ℤ → Prop
  | 0, _, _ => True
  | n + 1, idx, len =>
      (len < 62464 ∧ idx < 122 ∨ 62464 ≤ len ∧ len < 128000 ∧ 122 ≤ idx ∧ idx < 250 ∨
        128000 ≤ len ∧ 250 ≤ idx) ∧
      LevelsOk size offset n (idx + 1) (runningLength len size offset)

/-- The sectors `n` iterations from slot `idx` on allocate: one a slot up to the
end of the indirect level, and the indirect block if there is none. -/
def extendDemand (d : Sector) (n idx : ℕ) : ℕ :=
  min (idx + n) 250 - idx +
    if indirectPtr d = 0 ∧ 0 < n ∧ 122 < idx + n ∧ idx < 250 then 1 else 0

/-- The running length without overflow. -/
theorem runningLength_eq {len size : ℤ} {offset : ℕ} (h0 : 0 ≤ len) (h1 : len ≤ offset + size)
    (h2 : offset + size ≤ 8516608) : runningLength len size offset =
      if len < offset ∧ 511 < offset + size - len then len + 512 else offset + size := by
  unfold runningLength
  rw [wrap32_of_range (by omega) (by omega)]
  split
  · rw [wrap32_of_range (by omega) (by omega)]
  · rw [wrap32_of_range (by omega) (by omega)]
    omega

section

variable {live : ℕ → Prop} {s p : ℕ} {len : ℤ} {orig : ℕ → UInt8} {size : ℤ} {offset : ℕ}

/-- One iteration, at whichever level. -/
theorem extendBlock_spec {use : ℕ → Option Use} {node : ℕ → Sector} {fs : FsState} {n idx : ℕ}
    (hs : ¬ live s) (core : Core use live node fs) (ready : MapReady live node fs)
    (o : OpenAt s p fs) (inv : GrowInv use fs.dev.disk s (node s) len orig (min idx 250))
    (level : inodeLength (node s) < 62464 ∧ idx < 122 ∨
      62464 ≤ inodeLength (node s) ∧ inodeLength (node s) < 128000 ∧ 122 ≤ idx ∧ idx < 250 ∨
        128000 ≤ inodeLength (node s) ∧ 250 ≤ idx)
    (free : extendDemand (node s) (n + 1) idx ≤ freeSectors fs.freeMap) :
    ∃ use' node' fs', extendBlock fs p idx = .ok fs' ∧
      Grow use use' live node node' s p fs fs' ∧
      GrowInv use' fs'.dev.disk s (node' s) len orig (min (idx + 1) 250) ∧
      inodeLength (node' s) = inodeLength (node s) ∧
      extendDemand (node' s) n (idx + 1) ≤ freeSectors fs'.freeMap := by
  unfold extendDemand at free
  rcases level with ⟨hl, hi⟩ | ⟨hl, hl', hi, hi'⟩ | ⟨hl, hi⟩
  · rw [show min idx 250 = idx by omega] at inv
    obtain ⟨use', node', fs', hrun, g, inv', hlen', hI, hfree⟩ :=
      extendBlock_direct core ready hs o inv hl hi (by omega)
    refine ⟨use', node', fs', hrun, g, by rwa [show min (idx + 1) 250 = idx + 1 by omega], hlen', ?_⟩
    unfold extendDemand
    rw [hI]
    split_ifs at free ⊢ <;> omega
  · rw [show min idx 250 = idx by omega] at inv
    obtain ⟨use', node', fs', hrun, g, inv', hlen', hI, hfree⟩ :=
      extendBlock_indirect core ready hs o inv hl hl' hi hi' (by split_ifs at free ⊢ <;> omega)
    refine ⟨use', node', fs', hrun, g, by rwa [show min (idx + 1) 250 = idx + 1 by omega], hlen', ?_⟩
    unfold extendDemand
    rw [if_neg (by tauto)]
    split_ifs at free hfree <;> omega
  · refine ⟨use, node, fs, extendBlock_none core o hl idx, .refl core ready o, ?_, rfl, ?_⟩
    · rwa [show min (idx + 1) 250 = min idx 250 by omega]
    · unfold extendDemand
      rw [if_neg (by omega)]
      omega

/-- **The loop of `extend_file`** makes the slots present and leaves the length at
the end of the write. -/
theorem extendLoop_spec (hs : ¬ live s) (hmax : offset + size ≤ 8516608) :
    ∀ (n idx : ℕ) (use : ℕ → Option Use) (node : ℕ → Sector) (fs : FsState),
      Core use live node fs → MapReady live node fs → OpenAt s p fs →
      GrowInv use fs.dev.disk s (node s) len orig (min idx 250) →
      0 ≤ inodeLength (node s) → inodeLength (node s) ≤ offset + size →
      offset + size ≤ inodeLength (node s) + 512 * n →
      LevelsOk size offset n idx (inodeLength (node s)) →
      extendDemand (node s) n idx ≤ freeSectors fs.freeMap →
      ∃ use' node' fs', extendLoop p size offset n idx fs = .ok fs' ∧
        Grow use use' live node node' s p fs fs' ∧
        GrowInv use' fs'.dev.disk s (node' s) len orig (min (idx + n) 250) ∧
        inodeLength (node' s) = offset + size := by
  intro n
  induction n with
  | zero =>
      intro idx use node fs core ready o inv _ h1 h2 _ _
      exact ⟨use, node, fs, rfl, .refl core ready o, inv, by omega⟩
  | succ n ih =>
      intro idx use node fs core ready o inv h0 h1 h2 levels free
      obtain ⟨use1, node1, fs1, hrun1, g1, inv1, hlen1, free1⟩ :=
        extendBlock_spec hs core ready o inv levels.1 free
      obtain ⟨ino, hp, hsec, hdata⟩ := o.data core
      have hp1 := g1.inode hp
      -- the new running length goes into the inode in memory
      have hrl := runningLength_eq h0 h1 hmax
      have hrange : 0 ≤ runningLength (inodeLength (node s)) size offset ∧
          runningLength (inodeLength (node s)) size offset ≤ offset + size ∧
          offset + size ≤ runningLength (inodeLength (node s)) size offset + 512 * n := by
        rw [hrl]
        split <;> omega
      have g2 := g1.trans (Grow.setData g1.core g1.ready hs (g1.openAt o) hp1
        (setLength (node1 s) (runningLength (inodeLength (node s)) size offset)))
      have hlen2 : inodeLength (setLength (node1 s)
          (runningLength (inodeLength (node s)) size offset)) =
          runningLength (inodeLength (node s)) size offset :=
        inodeLength_setLength _ (by omega) (by omega)
      obtain ⟨use', node', fs', hrun, g3, inv3, hlen3⟩ := ih (idx + 1) use1 _ _ g2.core g2.ready
        (g2.openAt o) (by rw [Function.update_self]; exact inv1.setLength _)
        (by rw [Function.update_self, hlen2]; omega) (by rw [Function.update_self, hlen2]; omega)
        (by rw [Function.update_self, hlen2]; omega)
        (by rw [Function.update_self, hlen2]; exact levels.2)
        (by
          rw [Function.update_self, extendDemand, indirectPtr_setLength]
          exact free1)
      refine ⟨use', node', fs', ?_, g2.trans g3, ?_, hlen3⟩
      · rw [extendLoop]
        simp only [hrun1, ok_bind, FsState.inode_ok hp1, hlen1]
        exact_mod_cast hrun
      · rwa [show idx + (n + 1) = idx + 1 + n by omega]

end

end Pintos
