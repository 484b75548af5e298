import Pintos.FileSys.Allocation

/-!
# `inode_create`

With enough free sectors, `inode_create` builds a complete tree of zeroed data
sectors (`inodeCreate_spec`).  The three levels are three uses of one loop
(`fillPointers`), so the proof follows that loop once; `Filled` says what it
leaves in the words it ran over.
-/

namespace Pintos

open Lib Lib.Block

/-- Words `base`, …, `base + cnt - 1` of `block`: the first `n` point to zeroed data
sectors of `s`, from index `i` on, the others are null. -/
def Filled (use : ℕ → Option Use) (disk : ℕ → Sector) (s i : ℕ) (block : Sector)
    (base cnt n : ℕ) : Prop :=
  ∀ x < cnt,
    (x < n → wordAt block (base + x) ≠ 0 ∧
      use (wordAt block (base + x)) = some (.data s (i + x)) ∧
      disk (wordAt block (base + x)) = zeros) ∧
    (n ≤ x → wordAt block (base + x) = 0)

/-- Words of the doubly indirect block: word `x` points to a filled first-level
block as long as sectors remain. -/
def FilledSecond (use : ℕ → Option Use) (disk : ℕ → Sector) (s i : ℕ) (block : Sector)
    (base cnt n : ℕ) : Prop :=
  ∀ x < cnt,
    (128 * x < n → wordAt block (base + x) ≠ 0 ∧
      use (wordAt block (base + x)) = some (.second s (base + x)) ∧
      Filled use disk s (i + 128 * x) (disk (wordAt block (base + x))) 0 128 (n - 128 * x)) ∧
    (n ≤ 128 * x → wordAt block (base + x) = 0)

section

variable {use use' : ℕ → Option Use} {live : ℕ → Prop} {node : ℕ → Sector}
  {fs fs' : FsState} {s i : ℕ} {block : Sector} {base cnt n : ℕ}

/-- Later allocations keep what was filled. -/
theorem Filled.alloc (h : Filled use fs.dev.disk s i block base cnt n)
    (step : Alloc use use' live node fs fs') (hs : fs.freeMapFile = none ∨ s ≠ freeMapSector) :
    Filled use' fs'.dev.disk s i block base cnt n := by
  intro x hx
  refine ⟨fun hn => ?_, (h x hx).2⟩
  obtain ⟨h1, h2, h3⟩ := (h x hx).1 hn
  refine ⟨h1, step.mono _ _ h2, (step.keep _ _ h2 ?_).trans h3⟩
  exact hs.imp_right fun hne _ e => hne (by cases e; rfl)

theorem Filled.congr {disk : ℕ → Sector} {block' : Sector}
    (h : Filled use disk s i block base cnt n)
    (e : ∀ x < cnt, wordAt block' (base + x) = wordAt block (base + x)) :
    Filled use disk s i block' base cnt n := by
  intro x hx
  rw [e x hx]
  exact h x hx

/-- What was filled survives a write to a sector of another purpose. -/
theorem Filled.put {disk : ℕ → Sector} (h : Filled use disk s i block base cnt n) {t : ℕ}
    (ht : ∀ k, use t ≠ some (.data s k)) (b : Sector) :
    Filled use (Function.update disk t b) s i block base cnt n := by
  intro x hx
  refine ⟨fun hn => ?_, (h x hx).2⟩
  obtain ⟨h1, h2, h3⟩ := (h x hx).1 hn
  refine ⟨h1, h2, ?_⟩
  rw [Function.update_of_ne (fun e => ht _ (e ▸ h2)), h3]

theorem FilledSecond.put {disk : ℕ → Sector} (h : FilledSecond use disk s i block base cnt n)
    {t : ℕ} (ht : use t = some (.doubly s)) (b : Sector) :
    FilledSecond use (Function.update disk t b) s i block base cnt n := by
  intro x hx
  refine ⟨fun hn => ?_, (h x hx).2⟩
  obtain ⟨h1, h2, h3⟩ := (h x hx).1 hn
  rw [Function.update_of_ne (fun e => by simp [e, ht] at h2)]
  exact ⟨h1, h2, h3.put (by simp [ht]) b⟩

end

section

variable {live : ℕ → Prop} {node : ℕ → Sector} {s : ℕ}

/-- **The allocation loop.**  It fills `min k remaining` words, all of them null
before, and leaves the other words of the block alone. -/
theorem fillPointers_spec (hs : ¬ live s) :
    ∀ (k j remaining i : ℕ) (block : Sector) (use : ℕ → Option Use) (fs : FsState),
      Core use live node fs → MapReady live node fs → min k remaining ≤ freeSectors fs.freeMap →
      j + k ≤ 128 → (∀ x < k, wordAt block (j + x) = 0) →
      ∃ block' use' fs', fillPointers k j remaining block fs =
          .ok (remaining - min k remaining, block', fs') ∧
        Alloc use use' live node fs fs' ∧
        freeSectors fs'.freeMap + min k remaining = freeSectors fs.freeMap ∧
        (∀ w, w < j ∨ j + k ≤ w → wordAt block' w = wordAt block w) ∧
        Filled use' fs'.dev.disk s i block' j k remaining := by
  intro k
  induction k with
  | zero =>
      intro j remaining i block use fs core ready _ _ _
      exact ⟨block, use, fs, by simp [fillPointers], .refl core ready, by simp,
        fun _ _ => rfl, fun x hx => by omega⟩
  | succ k ih =>
      intro j remaining i block use fs core ready free hjk hnull
      by_cases hr : remaining = 0
      · refine ⟨block, use, fs, by simp [fillPointers, hr], .refl core ready, by simp [hr],
          fun _ _ => rfl, fun x hx => ⟨by omega, fun _ => hnull x hx⟩⟩
      obtain ⟨t, fs1, fs2, hinto, hword, hwrite, -, step1, ht0, htn, htz, hfree1⟩ :=
        allocateFill_spec core ready (by omega) block (j := j) (by omega) (u := .data s i) rfl hs zeros
      obtain ⟨block', use', fs', hrun, step2, hfree2, hwords, hfill⟩ :=
        ih (j + 1) (remaining - 1) (i + 1) (setWord block j t) _ fs2 step1.core step1.ready
          (by omega) (by omega) (fun x hx => by
            rw [wordAt_setWord_ne _ _ (by omega), show j + 1 + x = j + (x + 1) by omega]
            exact hnull (x + 1) (by omega))
      have hj' : wordAt block' j = t := by rw [hwords j (by omega), hword]
      refine ⟨block', use', fs', ?_, step1.trans step2, by omega, fun w hw => ?_,
        fun x hx => ?_⟩
      · rw [fillPointers, if_neg hr]
        simp only [hinto, ok_bind, hword, hwrite, hrun]
        congr 2
        omega
      · rw [hwords w (by omega), wordAt_setWord_ne _ _ (by omega)]
      · rcases Nat.eq_zero_or_pos x with rfl | hx0
        · have huse : Function.update use t (some (Use.data s i)) t = some (.data s i) :=
            Function.update_self ..
          have hne := step1.ready.ne_freeMapSector hs
          refine ⟨fun _ => ?_, by omega⟩
          rw [Nat.add_zero, Nat.add_zero, hj']
          refine ⟨ht0, step2.mono _ _ huse, (step2.keep _ _ huse ?_).trans htz⟩
          exact hne.imp_right fun h _ e => h (by cases e; rfl)
        · have := hfill (x - 1) (by omega)
          rw [show j + 1 + (x - 1) = j + x by omega, show i + 1 + (x - 1) = i + x by omega] at this
          exact ⟨fun hlt => this.1 (by omega), fun hge => this.2 (by omega)⟩

/-- The sectors the doubly indirect level needs for `n` data sectors: the data and
one first-level block for every 128 of them. -/
def secondDemand (n : ℕ) : ℕ := n + (n + 127) / 128

/-- **The loop over the doubly indirect block.** -/
theorem fillSecondLevel_spec (hs : ¬ live s) :
    ∀ (k j remaining i : ℕ) (block : Sector) (use : ℕ → Option Use) (fs : FsState),
      Core use live node fs → MapReady live node fs →
      secondDemand remaining ≤ freeSectors fs.freeMap → remaining ≤ 128 * k →
      j + k ≤ 128 → (∀ x < k, wordAt block (j + x) = 0) →
      ∃ block' use' fs', fillSecondLevel k j remaining block fs = .ok (0, block', fs') ∧
        Alloc use use' live node fs fs' ∧
        freeSectors fs'.freeMap + secondDemand remaining = freeSectors fs.freeMap ∧
        (∀ w, w < j ∨ j + k ≤ w → wordAt block' w = wordAt block w) ∧
        FilledSecond use' fs'.dev.disk s i block' j k remaining := by
  intro k
  induction k with
  | zero =>
      intro j remaining i block use fs core ready _ hr _ _
      have h0 : remaining = 0 := by omega
      exact ⟨block, use, fs, by simp [fillSecondLevel, h0], .refl core ready,
        by simp [h0, secondDemand], fun _ _ => rfl, fun x hx => by omega⟩
  | succ k ih =>
      intro j remaining i block use fs core ready free hrk hjk hnull
      by_cases hr : remaining = 0
      · refine ⟨block, use, fs, by simp [fillSecondLevel, hr], .refl core ready,
          by simp [hr, secondDemand], fun _ _ => rfl,
          fun x hx => ⟨by omega, fun _ => hnull x hx⟩⟩
      unfold secondDemand at free
      -- the first-level block
      obtain ⟨t, fs1, fs2, hinto, hword, hwrite, -, step1, ht0, htn, htz, hfree1⟩ :=
        allocateFill_spec core ready (by omega) block (j := j) (by omega) (u := .second s j) rfl hs zeros
      have huse : Function.update use t (some (Use.second s j)) t = some (.second s j) :=
        Function.update_self ..
      -- its data sectors
      obtain ⟨first, use2, fs3, hfill, step2, hfree2, -, hfilled⟩ :=
        fillPointers_spec hs 128 0 remaining i zeros _ fs2 step1.core step1.ready
          (by omega) (by omega) (fun x _ => wordAt_zeros _)
      -- and the block itself goes to disk
      obtain ⟨hwrite', step3⟩ := (step1.trans step2).put htn (step2.mono _ _ huse) rfl hs first
      have hne := step3.ready.ne_freeMapSector hs
      have hput : (fs3.setDev (fs3.dev.put t first)).dev.disk t = first := by simp
      have hfilled' : Filled use2 (fs3.setDev (fs3.dev.put t first)).dev.disk s i first 0 128
          remaining :=
        hfilled.put (by simp [step2.mono _ _ huse]) first
      obtain ⟨block', use', fs', hrun, step4, hfree4, hwords, hsecond⟩ :=
        ih (j + 1) (remaining - min 128 remaining) (i + 128) (setWord block j t) use2 _
          step3.core step3.ready (by unfold secondDemand; simp; omega) (by omega) (by omega)
          (fun x hx => by
            rw [wordAt_setWord_ne _ _ (by omega), show j + 1 + x = j + (x + 1) by omega]
            exact hnull (x + 1) (by omega))
      have hj' : wordAt block' j = t := by rw [hwords j (by omega), hword]
      refine ⟨block', use', fs', ?_, step3.trans step4, ?_, fun w hw => ?_, fun x hx => ?_⟩
      · rw [fillSecondLevel, if_neg hr]
        simp only [hinto, ok_bind, hword, hwrite, createIndirect, hfill, hwrite', hrun]
      · simp only [FsState.setDev_freeMap] at hfree4
        unfold secondDemand at hfree4 ⊢
        omega
      · rw [hwords w (by omega), wordAt_setWord_ne _ _ (by omega)]
      · rcases Nat.eq_zero_or_pos x with rfl | hx0
        · have huse2 := step2.mono _ _ huse
          refine ⟨fun _ => ?_, by omega⟩
          simp only [Nat.add_zero, Nat.mul_zero, Nat.sub_zero, hj']
          rw [step4.keep _ _ huse2 (.inr fun _ => by simp), hput]
          exact ⟨ht0, step4.mono _ _ huse2, hfilled'.alloc step4 hne⟩
        · have := hsecond (x - 1) (by omega)
          rw [show j + 1 + (x - 1) = j + x by omega,
            show i + 128 + 128 * (x - 1) = i + 128 * x by omega,
            show remaining - min 128 remaining - 128 * (x - 1) = remaining - 128 * x by omega]
            at this
          exact ⟨fun hlt => this.1 (by omega), fun hge => this.2 (by omega)⟩

end

/-! ## The finished tree -/

/-- The tree `inode_create` builds for `m` data sectors. -/
structure Built (use : ℕ → Option Use) (disk : ℕ → Sector) (s : ℕ) (d : Sector) (m : ℕ) :
    Prop where
  direct : Filled use disk s 0 d 4 122 m
  indirect : 122 < m → indirectPtr d ≠ 0 ∧ use (indirectPtr d) = some (.indirect s) ∧
    Filled use disk s 122 (disk (indirectPtr d)) 0 128 (m - 122)
  noIndirect : m ≤ 122 → indirectPtr d = 0
  doubly : 250 < m → doublyPtr d ≠ 0 ∧ use (doublyPtr d) = some (.doubly s) ∧
    FilledSecond use disk s 250 (disk (doublyPtr d)) 0 128 (m - 250)
  noDoubly : m ≤ 250 → doublyPtr d = 0

namespace Built

variable {use : ℕ → Option Use} {disk : ℕ → Sector} {s m : ℕ} {d : Sector}

/-- The direct level. -/
theorem slot_direct (h : Built use disk s d m) {i : ℕ} (hi : i < 122) :
    (Present disk d i ↔ i < m) ∧ (i < m → use (slotOf disk d i) = some (.data s i) ∧
      disk (slotOf disk d i) = zeros) := by
  obtain ⟨hfull, hnull⟩ := h.direct i hi
  rw [Nat.zero_add] at hfull
  simp only [Present, slotOf, hi, if_true, directPtr]
  refine ⟨⟨fun hp => ?_, fun hlt => ⟨(hfull hlt).1, by omega, by omega⟩⟩,
    fun hlt => (hfull hlt).2⟩
  by_contra hge
  exact hp.1 (hnull (by omega))

/-- The single indirect level. -/
theorem slot_indirect (h : Built use disk s d m) {i : ℕ} (h1 : 122 ≤ i) (h2 : i < 250) :
    (Present disk d i ↔ i < m) ∧ (i < m → use (slotOf disk d i) = some (.data s i) ∧
      disk (slotOf disk d i) = zeros) := by
  have filled : 122 < m → (i < m → wordAt (disk (indirectPtr d)) (i - 122) ≠ 0 ∧
        use (wordAt (disk (indirectPtr d)) (i - 122)) = some (.data s i) ∧
        disk (wordAt (disk (indirectPtr d)) (i - 122)) = zeros) ∧
      (m ≤ i → wordAt (disk (indirectPtr d)) (i - 122) = 0) := by
    intro hm
    obtain ⟨-, -, hfill⟩ := h.indirect hm
    have := hfill (i - 122) (by omega)
    rw [Nat.zero_add, show 122 + (i - 122) = i by omega] at this
    exact ⟨fun hlt => this.1 (by omega), fun hge => this.2 (by omega)⟩
  simp only [Present, slotOf, show ¬ i < 122 by omega, h2, if_true, if_false]
  refine ⟨⟨fun hp => ?_, fun hlt => ?_⟩, fun hlt => ((filled (by omega)).1 hlt).2⟩
  · by_contra hge
    by_cases hm : 122 < m
    · exact hp.1 ((filled hm).2 (by omega))
    · exact hp.2.1 h1 trivial (h.noIndirect (by omega))
  · exact ⟨((filled (by omega)).1 hlt).1, fun _ _ => (h.indirect (by omega)).1, by omega⟩

/-- The doubly indirect level. -/
theorem slot_doubly (h : Built use disk s d m) {i : ℕ} (h1 : 250 ≤ i) (hm : m ≤ 16634) :
    (Present disk d i ↔ i < m) ∧ (i < m → use (slotOf disk d i) = some (.data s i) ∧
      disk (slotOf disk d i) = zeros) := by
  simp only [Present, slotOf, show ¬ i < 122 by omega, show ¬ i < 250 by omega, if_false]
  by_cases hlt : i < m
  · obtain ⟨hd, -, hsecond⟩ := h.doubly (by omega)
    have hx := (hsecond ((i - 250) / 128) (by omega)).1 (by omega)
    rw [Nat.zero_add] at hx
    obtain ⟨hx0, -, hfill⟩ := hx
    have hy := (hfill ((i - 250) % 128) (by omega)).1 (by omega)
    rw [Nat.zero_add, show 250 + 128 * ((i - 250) / 128) + (i - 250) % 128 = i by omega] at hy
    exact ⟨⟨fun _ => hlt, fun _ => ⟨hy.1, fun _ hf => hf.elim, fun _ => ⟨by omega, hd, hx0⟩⟩⟩,
      fun _ => hy.2⟩
  · refine ⟨⟨fun hp => ?_, by omega⟩, by omega⟩
    exfalso
    obtain ⟨hi, hd, hw⟩ := hp.2.2 h1
    have hm' : 250 < m := by
      by_contra hle
      exact hd (h.noDoubly (by omega))
    obtain ⟨-, -, hsecond⟩ := h.doubly hm'
    have hx := hsecond ((i - 250) / 128) (by omega)
    rw [Nat.zero_add] at hx
    by_cases hb : 128 * ((i - 250) / 128) < m - 250
    · obtain ⟨-, -, hfill⟩ := hx.1 hb
      have hy := (hfill ((i - 250) % 128) (by omega)).2 (by omega)
      rw [Nat.zero_add] at hy
      exact hp.1 hy
    · exact hw (hx.2 (by omega))

/-- The three levels, read as one list of slots. -/
theorem slot (h : Built use disk s d m) (hm : m ≤ 16634) (i : ℕ) :
    (Present disk d i ↔ i < m) ∧ (i < m → use (slotOf disk d i) = some (.data s i) ∧
      disk (slotOf disk d i) = zeros) := by
  by_cases h1 : i < 122
  · exact h.slot_direct h1
  by_cases h2 : i < 250
  · exact h.slot_indirect (by omega) h2
  · exact h.slot_doubly (by omega) hm

theorem ptrOk (h : Built use disk s d m) (hm : m ≤ 16634) : PtrOk use disk s d where
  data i hi := ((h.slot hm i).2 ((h.slot hm i).1.mp hi)).1
  indirect hne := by
    by_cases hlt : 122 < m
    · exact (h.indirect hlt).2.1
    · exact absurd (h.noIndirect (by omega)) hne
  doubly hne := by
    by_cases hlt : 250 < m
    · exact (h.doubly hlt).2.1
    · exact absurd (h.noDoubly (by omega)) hne
  second hne j hj hw := by
    by_cases hlt : 250 < m
    · obtain ⟨-, -, hsecond⟩ := h.doubly hlt
      have hx := hsecond j hj
      rw [Nat.zero_add] at hx
      by_cases hb : 128 * j < m - 250
      · exact (hx.1 hb).2.1
      · exact absurd (hx.2 (by omega)) hw
    · exact absurd (h.noDoubly (by omega)) hne

/-- Every byte of the new file is zero. -/
theorem fileByte_zero (h : Built use disk s d m) (hm : m ≤ 16634) {i : ℕ} (hi : i / 512 < m) :
    fileByte disk d i = 0 := by
  rw [fileByte, view, ((h.slot hm _).2 hi).2, byteAt_zeros]

/-- A built tree is a sound tree. -/
theorem treeOk (h : Built use disk s d m) (hlen : 0 ≤ inodeLength d)
    (hle : inodeLength d ≤ 8516608) (hm : m = TreeOk.count d) : TreeOk use disk s d := by
  have hm' : m ≤ 16634 := by
    unfold TreeOk.count at hm
    omega
  refine ⟨h.ptrOk hm', hlen, hle, fun i hi => (h.slot hm' i).1.mpr ?_, fun i hi => ?_,
    fun i hi hp => h.fileByte_zero hm' ((h.slot hm' _).1.mp hp)⟩
  · rw [hm]
    unfold TreeOk.count
    omega
  · have := (h.slot hm' i).1.mp hi
    rw [hm] at this
    unfold TreeOk.count at this
    omega

end Built

/-! ## The whole function -/

/-- The sectors `inode_create` needs for `m` data sectors, index blocks included. -/
def demand (m : ℕ) : ℕ :=
  m + (if 122 < m then 1 else 0) + (if 250 < m then 1 + (m - 250 + 127) / 128 else 0)

theorem bytesToSectors_eq {len : ℤ} (h0 : 0 ≤ len) (h1 : len ≤ 8516608) :
    bytesToSectors len = ((len + 511) / 512).toNat := by
  unfold bytesToSectors
  rw [wrap32_of_range (by omega) (by omega), Int.tdiv_eq_ediv_of_nonneg (by omega)]
  unfold ofInt32
  omega

section

variable {use : ℕ → Option Use} {live : ℕ → Prop} {node : ℕ → Sector} {fs : FsState} {s : ℕ}

/-- The single indirect level of a new inode. -/
theorem createFirstLevel_spec (hs : ¬ live s) (core : Core use live node fs)
    (ready : MapReady live node fs) (r : ℕ) (d : Sector)
    (free : min 128 r + (if 0 < r then 1 else 0) ≤ freeSectors fs.freeMap) :
    ∃ t use' fs', createFirstLevel r d fs = .ok (r - min 128 r, setWord d 126 t, fs') ∧
      Alloc use use' live node fs fs' ∧
      freeSectors fs'.freeMap + (min 128 r + if 0 < r then 1 else 0) = freeSectors fs.freeMap ∧
      t < 2 ^ 32 ∧ (r = 0 → t = 0) ∧
      (0 < r → t ≠ 0 ∧ use' t = some (.indirect s) ∧
        Filled use' fs'.dev.disk s 122 (fs'.dev.disk t) 0 128 r) := by
  by_cases hr : r = 0
  · refine ⟨0, use, fs, ?_, .refl core ready, by simp [hr], by norm_num,
      fun _ => rfl, by omega⟩
    simp [createFirstLevel, hr]
  have hpos : 0 < r := by omega
  rw [if_pos hpos] at free
  obtain ⟨t, fs1, fs2, hinto, hword, hwrite, -, step1, ht0, htn, -, hfree1⟩ :=
    allocateFill_spec core ready (by omega) d (j := 126) (by omega) (u := .indirect s) rfl hs zeros
  have huse : Function.update use t (some (Use.indirect s)) t = some (.indirect s) :=
    Function.update_self ..
  obtain ⟨first, use', fs3, hfill, step2, hfree2, -, hfilled⟩ :=
    fillPointers_spec hs 128 0 r 122 zeros _ fs2 step1.core step1.ready (by omega) (by omega)
      (fun x _ => wordAt_zeros _)
  have huse' := step2.mono _ _ huse
  obtain ⟨hwrite', step3⟩ := (step1.trans step2).put htn huse' rfl hs first
  refine ⟨t, use', _, ?_, step3, ?_, ?_, by omega, fun _ => ⟨ht0, huse', ?_⟩⟩
  · rw [createFirstLevel, if_neg hr]
    simp only [hinto, ok_bind, indirectPtr, hword, hwrite, createIndirect, hfill, hwrite']
    rfl
  · rw [if_pos hpos, FsState.setDev_freeMap]
    omega
  · exact ((step1.core.used t _ huse).1).trans fs2.dev.size_lt
  · rw [show (fs3.setDev (fs3.dev.put t first)).dev.disk t = first by simp]
    exact hfilled.put (by simp [huse']) first

/-- The doubly indirect level of a new inode. -/
theorem createSecondLevel_spec (hs : ¬ live s) (core : Core use live node fs)
    (ready : MapReady live node fs) (r : ℕ) (d : Sector) (hr : r ≤ 16384)
    (free : (if 0 < r then 1 + secondDemand r else 0) ≤ freeSectors fs.freeMap) :
    ∃ t use' fs', createSecondLevel r d fs = .ok (setWord d 127 t, fs') ∧
      Alloc use use' live node fs fs' ∧
      freeSectors fs'.freeMap + (if 0 < r then 1 + secondDemand r else 0) =
        freeSectors fs.freeMap ∧ t < 2 ^ 32 ∧ (r = 0 → t = 0) ∧
      (0 < r → t ≠ 0 ∧ use' t = some (.doubly s) ∧
        FilledSecond use' fs'.dev.disk s 250 (fs'.dev.disk t) 0 128 r) := by
  by_cases h0 : r = 0
  · refine ⟨0, use, fs, ?_, .refl core ready, by simp [h0], by norm_num,
      fun _ => rfl, by omega⟩
    simp [createSecondLevel, h0]
  have hpos : 0 < r := by omega
  rw [if_pos hpos] at free
  obtain ⟨t, fs1, fs2, hinto, hword, hwrite, -, step1, ht0, htn, -, hfree1⟩ :=
    allocateFill_spec core ready (by omega) d (j := 127) (by omega) (u := .doubly s) rfl hs zeros
  have huse : Function.update use t (some (Use.doubly s)) t = some (.doubly s) :=
    Function.update_self ..
  obtain ⟨second, use', fs3, hfill, step2, hfree2, -, hfilled⟩ :=
    fillSecondLevel_spec hs 128 0 r 250 zeros _ fs2 step1.core step1.ready (by omega) (by omega)
      (by omega) (fun x _ => wordAt_zeros _)
  have huse' := step2.mono _ _ huse
  obtain ⟨hwrite', step3⟩ := (step1.trans step2).put htn huse' rfl hs second
  refine ⟨t, use', _, ?_, step3, ?_, ?_, by omega, fun _ => ⟨ht0, huse', ?_⟩⟩
  · rw [createSecondLevel, if_neg h0]
    simp only [hinto, ok_bind, doublyPtr, hword, hwrite, hfill, hwrite']
    rfl
  · rw [if_pos hpos, FsState.setDev_freeMap]
    omega
  · exact ((step1.core.used t _ huse).1).trans fs2.dev.size_lt
  · rw [show (fs3.setDev (fs3.dev.put t second)).dev.disk t = second by simp]
    exact hfilled.put huse' second

/-- The free sectors of the three levels add up. -/
theorem demand_eq {m : ℕ} : demand m = min 122 m +
    (min 128 (m - min 122 m) + (if 0 < m - min 122 m then 1 else 0)) +
    (if 0 < m - min 122 m - min 128 (m - min 122 m)
      then 1 + secondDemand (m - min 122 m - min 128 (m - min 122 m)) else 0) := by
  unfold demand secondDemand
  split_ifs <;> omega

/-- The header words of a new inode. -/
theorem wordAt_newInodeDisk {len : ℤ} {isDir : Bool} {parent j : ℕ} (hj : 4 ≤ j) :
    wordAt (newInodeDisk len isDir parent) j = 0 := by
  by_cases hlt : j < 128
  · rw [newInodeDisk, wordAt_ofWords _ (by omega)]
    · simp only [show j ≠ 0 by omega, show j ≠ 1 by omega, show j ≠ 2 by omega,
        show j ≠ 3 by omega, if_false]
    · simp only [show j ≠ 0 by omega, show j ≠ 1 by omega, show j ≠ 2 by omega,
        show j ≠ 3 by omega, if_false]
      norm_num
  · simp only [wordAt, byteAt, show ¬ 4 * j < 512 by omega, show ¬ 4 * j + 1 < 512 by omega,
      show ¬ 4 * j + 2 < 512 by omega, show ¬ 4 * j + 3 < 512 by omega, dif_neg, not_false_eq_true]
    rfl

theorem inodeLength_newInodeDisk {len : ℤ} {isDir : Bool} {parent : ℕ} (h0 : 0 ≤ len)
    (h1 : len ≤ 8516608) : inodeLength (newInodeDisk len isDir parent) = len := by
  rw [inodeLength, newInodeDisk, wordAt_ofWords _ (by norm_num) (by simpa using ofInt32_lt len)]
  exact toInt32_ofInt32 (by omega) (by omega)

/-- The three levels of a new inode, before its sector is written. -/
theorem createLevels_spec (hs : ¬ live s) (core : Core use live node fs)
    (ready : MapReady live node fs) {m : ℕ} (hm : m ≤ 16634) (d : Sector)
    (hd : ∀ j, 4 ≤ j → wordAt d j = 0) (free : demand m ≤ freeSectors fs.freeMap) :
    ∃ d1 fs1 d2 fs2 d3 fs3 use3,
      fillPointers 122 4 m d fs = .ok (m - min 122 m, d1, fs1) ∧
      createFirstLevel (m - min 122 m) d1 fs1 =
        .ok (m - min 122 m - min 128 (m - min 122 m), d2, fs2) ∧
      createSecondLevel (m - min 122 m - min 128 (m - min 122 m)) d2 fs2 = .ok (d3, fs3) ∧
      Alloc use use3 live node fs fs3 ∧
      freeSectors fs3.freeMap + demand m = freeSectors fs.freeMap ∧
      wordAt d3 0 = wordAt d 0 ∧ Built use3 fs3.dev.disk s d3 m := by
  rw [demand_eq] at free
  obtain ⟨d1, use1, fs1, hrun1, step1, hfree1, hwords, hdirect⟩ :=
    fillPointers_spec hs 122 4 m 0 d use fs core ready (by omega) (by omega)
      fun x _ => hd _ (by omega)
  obtain ⟨t1, use2, fs2, hrun2, step2, hfree2, hlt1, hnull1, hfirst⟩ :=
    createFirstLevel_spec hs step1.core step1.ready (m - min 122 m) d1 (by omega)
  obtain ⟨t2, use3, fs3, hrun3, step3, hfree3, hlt2, hnull2, hsecond⟩ :=
    createSecondLevel_spec hs step2.core step2.ready (m - min 122 m - min 128 (m - min 122 m))
      (setWord d1 126 t1) (by omega) (by omega)
  have hne1 := step1.ready.ne_freeMapSector hs
  have hne2 := step2.ready.ne_freeMapSector hs
  have e126 : indirectPtr (setWord (setWord d1 126 t1) 127 t2) = t1 := by
    rw [indirectPtr, wordAt_setWord_ne _ _ (by omega), wordAt_setWord_self _ (by omega) hlt1]
  have e127 : doublyPtr (setWord (setWord d1 126 t1) 127 t2) = t2 :=
    wordAt_setWord_self _ (by omega) hlt2
  have low : ∀ w < 126, wordAt (setWord (setWord d1 126 t1) 127 t2) w = wordAt d1 w := by
    intro w hw
    rw [wordAt_setWord_ne _ _ (by omega), wordAt_setWord_ne _ _ (by omega)]
  refine ⟨d1, fs1, _, fs2, _, fs3, use3, hrun1, hrun2, hrun3, (step1.trans step2).trans step3,
    by rw [demand_eq]; omega, ?_, ?_, fun h => ?_, fun h => ?_, fun h => ?_, fun h => ?_⟩
  · rw [low 0 (by omega), hwords 0 (by omega)]
  · exact ((hdirect.alloc step2 hne1).alloc step3 hne2).congr fun x hx => low _ (by omega)
  · obtain ⟨h0, huse, hfill⟩ := hfirst (by omega)
    rw [e126, step3.keep _ _ huse (.inr fun _ => by simp)]
    refine ⟨h0, step3.mono _ _ huse, ?_⟩
    have e : m - min 122 m = m - 122 := by omega
    exact e ▸ hfill.alloc step3 hne2
  · rw [e126, hnull1 (by omega)]
  · obtain ⟨h0, huse, hfill⟩ := hsecond (by omega)
    rw [e127]
    refine ⟨h0, huse, ?_⟩
    have e : m - min 122 m - min 128 (m - min 122 m) = m - 250 := by omega
    exact e ▸ hfill
  · rw [e127, hnull2 (by omega)]

/-- From `fs` to `fs'` the inode `s` was created with contents `d`; all other
inodes are as before. -/
structure Created (use use' : ℕ → Option Use) (live : ℕ → Prop) (node : ℕ → Sector) (s : ℕ)
    (d : Sector) (fs fs' : FsState) : Prop where
  rest : fs' = (fs.setMap fs'.freeMap).setDev fs'.dev
  size : fs'.dev.size = fs.dev.size
  core : Core use' (fun x => live x ∨ x = s) (Function.update node s d) fs'
  ready : MapReady (fun x => live x ∨ x = s) (Function.update node s d) fs'
  mono : ∀ t u, use t = some u → use' t = some u
  keep : ∀ t u, use t = some u → t ≠ s →
    (fs.freeMapFile = none ∨ ∀ i, u ≠ .data freeMapSector i) → fs'.dev.disk t = fs.dev.disk t
  written : fs'.dev.disk s = d
  bits : ∀ k, fs.freeMap.bits k = true → fs'.freeMap.bits k = true

/-- **`inode_create` with enough free sectors** creates a file of `len` zero bytes. -/
theorem inodeCreate_spec (core : Core use live node fs) (ready : MapReady live node fs)
    (hs : ¬ live s) (huse : use s = some .inode)
    (closed : ∀ p ∈ fs.openInodes, ∀ ino, fs.inodes p = some ino → ino.sector ≠ s)
    {len : ℤ} (h0 : 0 ≤ len) (h1 : len ≤ 8516608)
    (free : demand (bytesToSectors len) ≤ freeSectors fs.freeMap) (isDir : Bool) :
    ∃ use' d fs', inodeCreate fs s len isDir = .ok (true, fs') ∧
      Created use use' live node s d fs fs' ∧ inodeLength d = len ∧
      (∀ i : ℕ, (i : ℤ) < len → fileByte fs'.dev.disk d i = 0) ∧
      freeSectors fs'.freeMap + demand (bytesToSectors len) = freeSectors fs.freeMap := by
  have hm : bytesToSectors len = ((len + 511) / 512).toNat := bytesToSectors_eq h0 h1
  obtain ⟨d1, fs1, d2, fs2, d, fs3, use', hrun1, hrun2, hrun3, step, hfree, hlen, built⟩ :=
    createLevels_spec hs core ready (by omega) (newInodeDisk len isDir fs.currentWorkingDir)
      (fun j hj => wordAt_newInodeDisk hj) free
  have hlen' : inodeLength d = len := by
    rw [inodeLength, hlen]
    exact inodeLength_newInodeDisk h0 h1
  have huse' := step.mono _ _ huse
  have hsin := step.core.inside _ _ huse'
  have tree : TreeOk use' fs3.dev.disk s d := by
    refine built.treeOk (by omega) (by omega) ?_
    rw [hm, TreeOk.count, hlen']
  refine ⟨use', d, fs3.setDev (fs3.dev.put s d), ?_, ⟨?_, step.size, ?_, ?_, step.mono, ?_, ?_,
    step.bits⟩, hlen', fun i hi => ?_, hfree⟩
  · rw [inodeCreate, if_neg (by omega)]
    simp only [hrun1, hrun2, hrun3, ok_bind, FsState.write, blockWrite_ok d hsin]
    rfl
  · rw [step.rest]
    rfl
  · refine step.core.putInode huse' tree fun p hp ino hino e => absurd e ?_
    rw [step.rest] at hp
    rw [step.inodes] at hino
    exact closed p hp ino hino
  · exact step.ready.putInode step.core huse' hs d
  · intro t u hu hne hk
    exact (Function.update_of_ne hne _ _).trans (step.keep t u hu hk)
  · exact Function.update_self ..
  · have hp := tree.present (i / 512) (by omega)
    rw [show (fs3.setDev (fs3.dev.put s d)).dev.disk = Function.update fs3.dev.disk s d from rfl,
      TreeOk.fileByte_congr tree.ptrs (KeepsOwned.putInode huse' _ d s) hp]
    exact built.fileByte_zero (by omega) (by omega)

end

end Pintos
