import Pintos.Containers.ListLoops
import Pintos.Lib.NaturalMerge

/-!
# `list_sort`

The natural merge sort of `lib/kernel/list.c`.  A pass looks for two adjacent runs and merges them
in place: `a0` is the rest of the first, `a1b0` that of the second, and the smaller element at
`a1b0` is taken out and put before `a0` by `list_splice`.

* **`listSort_sorts`** — the list comes to hold the same elements, in non-decreasing order, with
  equivalent ones in the order they had.
-/

namespace Pintos.Containers

open Lib

section

variable {ν : Type}

/-! ## Functions -/

/-- The loop of `is_sorted`. -/
def isSortedLoop (b : ℕ) (less : ℕ → ℕ → Bool) : ℕ → ℕ → ListCode ν Bool
  | 0, _ => stop .unending
  | fuel + 1, a => do
      let a ← listNext a
      if a = b then pure true
      else if less a (← listPrev a) then pure false
      else isSortedLoop b less fuel a

/-- `is_sorted`. -/
def isSorted (fuel a b : ℕ) (less : ℕ → ℕ → Bool) : ListCode ν Bool :=
  if a = b then pure true else isSortedLoop b less fuel a

/-- The loop of `find_end_of_run`. -/
def findEndLoop (b : ℕ) (less : ℕ → ℕ → Bool) : ℕ → ℕ → ListCode ν ℕ
  | 0, _ => stop .unending
  | fuel + 1, a => do
      let a ← listNext a
      if a = b then pure a
      else if less a (← listPrev a) then pure a
      else findEndLoop b less fuel a

/-- `find_end_of_run`. -/
def findEndOfRun (fuel a b : ℕ) (less : ℕ → ℕ → Bool) : ListCode ν ℕ := do
  listAssert (a ≠ 0)
  listAssert (b ≠ 0)
  listAssert (a ≠ b)
  findEndLoop b less fuel a

/-- The loop of `inplace_merge`. -/
def mergeLoop (b1 : ℕ) (less : ℕ → ℕ → Bool) : ℕ → ℕ → ℕ → ListCode ν Unit
  | 0, _, _ => stop .unending
  | fuel + 1, a0, a1b0 =>
      if a0 ≠ a1b0 ∧ a1b0 ≠ b1 then
        if !less a1b0 a0 then do mergeLoop b1 less fuel (← listNext a0) a1b0
        else do
          let a1b0 ← listNext a1b0
          listSplice a0 (← listPrev a1b0) a1b0
          mergeLoop b1 less fuel a0 a1b0
      else pure ()

/-- `inplace_merge`. -/
def inplaceMerge (fuel a0 a1b0 b1 : ℕ) (less : ℕ → ℕ → Bool) : ListCode ν Unit := do
  listAssert (a0 ≠ 0)
  listAssert (a1b0 ≠ 0)
  listAssert (b1 ≠ 0)
  listAssert (← isSorted fuel a0 a1b0 less)
  listAssert (← isSorted fuel a1b0 b1 less)
  mergeLoop b1 less fuel a0 a1b0

/-- The inner loop of `list_sort`, with the value of `output_run_cnt` at its end. -/
def passLoop (fuel l : ℕ) (less : ℕ → ℕ → Bool) : ℕ → ℕ → ℕ → ListCode ν ℕ
  | 0, _, _ => stop .unending
  | rounds + 1, a0, outputRunCnt =>
      if a0 = listEnd l then pure outputRunCnt
      else do
        let a1b0 ← findEndOfRun fuel a0 (listEnd l) less
        if a1b0 = listEnd l then pure (outputRunCnt + 1)
        else do
          let b1 ← findEndOfRun fuel a1b0 (listEnd l) less
          inplaceMerge fuel a0 a1b0 b1 less
          passLoop fuel l less rounds b1 (outputRunCnt + 1)

/-- The outer loop of `list_sort`. -/
def sortLoop (fuel l : ℕ) (less : ℕ → ℕ → Bool) : ℕ → ListCode ν Unit
  | 0 => stop .unending
  | rounds + 1 => do
      let outputRunCnt ← passLoop fuel l less fuel (← listBegin l) 0
      if 1 < outputRunCnt then sortLoop fuel l less rounds else pure ()

/-- `list_sort`. -/
def listSort (fuel l : ℕ) (less : ℕ → ℕ → Bool) : ListCode ν Unit := do
  listAssert (l ≠ 0)
  sortLoop fuel l less fuel
  listAssert (← isSorted fuel (← listBegin l) (listEnd l) less)

/-! ## Runs -/

variable {h : Heap ν} {l : ℕ} {as bs rs xs : List ℕ} {less : ℕ → ℕ → Bool}

theorem listPrev_behind (w : ListAt h l (as ++ bs)) :
    (listPrev (behind l bs) : ListCode ν ℕ) h = .ok (before l as) h :=
  listPrev_run w.behind_ne_zero (Heap.mapped_of_prev w.prev_behind) w.prev_behind w.before_ne_zero

theorem before_snoc (l : ℕ) (as : List ℕ) (x : ℕ) : before l (as ++ [x]) = x := by
  simp [before]

theorem isSortedLoop_run {x : ℕ} (w : ListAt h l (as ++ (x :: rs) ++ bs))
    (sorted : (x :: rs).IsChain fun a b => less b a = false) {fuel : ℕ} (hf : rs.length < fuel) :
    (isSortedLoop (behind l bs) less fuel x : ListCode ν Bool) h = .ok true h := by
  induction rs generalizing as x fuel with
  | nil =>
      obtain ⟨fuel, rfl⟩ := Nat.exists_eq_succ_of_ne_zero hf.ne'
      have wx : ListAt h l (as ++ x :: bs) := by simpa using w
      rw [isSortedLoop, bind_of_ok (listNext_behind wx), if_pos rfl]
      rfl
  | cons y rs ih =>
      obtain ⟨fuel, rfl⟩ := Nat.exists_eq_succ_of_ne_zero (Nat.ne_zero_of_lt hf)
      obtain ⟨hxy, hrest⟩ := List.isChain_cons_cons.mp sorted
      have wx : ListAt h l (as ++ x :: (y :: rs ++ bs)) := by simpa using w
      have wy : ListAt h l ((as ++ [x]) ++ (y :: rs) ++ bs) := by simpa using w
      have wp : ListAt h l ((as ++ [x]) ++ (y :: rs ++ bs)) := by simpa using w
      have hne : ¬ y = behind l bs := (wy.range_apart y List.mem_cons_self).2.symm
      have hprev := listPrev_behind wp
      rw [before_snoc] at hprev
      rw [isSortedLoop, bind_of_ok (listNext_behind wx)]
      rw [show behind l (y :: rs ++ bs) = y from rfl] at hprev ⊢
      rw [if_neg hne, bind_of_ok hprev, if_neg (by simp [hxy])]
      exact ih wy hrest (Nat.lt_of_succ_lt_succ hf)

/-- A range in order passes the test. -/
theorem isSorted_run (w : ListAt h l (as ++ rs ++ bs))
    (sorted : rs.IsChain fun a b => less b a = false) {fuel : ℕ} (hf : rs.length < fuel) :
    (isSorted fuel (behind l (rs ++ bs)) (behind l bs) less : ListCode ν Bool) h = .ok true h := by
  cases rs with
  | nil =>
      rw [List.nil_append, isSorted, if_pos rfl]
      rfl
  | cons x rs =>
      have hne : ¬ x = behind l bs := (w.range_apart x List.mem_cons_self).2.symm
      have hx : behind l (x :: rs ++ bs) = x := rfl
      rw [isSorted, hx, if_neg hne]
      exact isSortedLoop_run w sorted (Nat.lt_of_succ_lt hf)

theorem findEndLoop_run {x : ℕ} (w : ListAt h l (as ++ x :: bs)) {fuel : ℕ} (hf : bs.length < fuel) :
    (findEndLoop (listEnd l) less fuel x : ListCode ν ℕ) h =
      .ok (behind l (runFrom less x bs).2) h := by
  induction bs generalizing as x fuel with
  | nil =>
      obtain ⟨fuel, rfl⟩ := Nat.exists_eq_succ_of_ne_zero hf.ne'
      have hend : behind l [] = listEnd l := rfl
      rw [findEndLoop, bind_of_ok (listNext_behind w), if_pos hend]
      rfl
  | cons y bs ih =>
      obtain ⟨fuel, rfl⟩ := Nat.exists_eq_succ_of_ne_zero (Nat.ne_zero_of_lt hf)
      have wy : ListAt h l ((as ++ [x]) ++ y :: bs) := by simpa using w
      have hne : ¬ y = listEnd l := fun e => by
        cases wy.behind_eq_end.mp e
      have hprev := listPrev_behind wy
      rw [before_snoc] at hprev
      rw [findEndLoop, bind_of_ok (listNext_behind w)]
      rw [show behind l (y :: bs) = y from rfl] at hprev ⊢
      rw [if_neg hne, bind_of_ok hprev]
      by_cases hless : less y x = true
      · rw [if_pos hless, runFrom, if_pos hless]
        rfl
      · rw [if_neg hless, ih wy (Nat.lt_of_succ_lt_succ hf), runFrom, if_neg hless]

/-- `find_end_of_run`, up to the end of the list. -/
theorem findEndOfRun_run {x : ℕ} (w : ListAt h l (as ++ x :: bs)) {fuel : ℕ} (hf : bs.length < fuel) :
    (findEndOfRun fuel x (listEnd l) less : ListCode ν ℕ) h =
      .ok (behind l (runFrom less x bs).2) h := by
  have hx : x ≠ 0 := w.behind_ne_zero
  have hend : listEnd l ≠ 0 := w.ne_null (by simp [nodes])
  have hne : x ≠ listEnd l := fun e => by
    cases w.behind_eq_end.mp e
  rw [findEndOfRun, listAssert_bind (by simpa using hx), listAssert_bind (by simpa using hend),
    listAssert_bind (by simpa using hne), findEndLoop_run w hf]

/-! ## Merging -/

/-- The loop of `inplace_merge`, with `pre` already merged. -/
theorem mergeLoop_run {pre A B post : List ℕ} (w : ListAt h l (pre ++ A ++ B ++ post)) {fuel : ℕ}
    (hf : A.length + B.length < fuel) :
    ∃ h', mergeLoop (behind l post) less fuel (behind l (A ++ B ++ post)) (behind l (B ++ post)) h =
        .ok () h' ∧ ListAt h' l (pre ++ merged less A B ++ post) ∧
      Frame (nodes l (pre ++ A ++ B ++ post)) h h' := by
  induction fuel generalizing pre A B h with
  | zero => cases hf
  | succ fuel ih =>
      cases A with
      | nil =>
          refine ⟨h, ?_, by simpa [merged_nil_left] using w, .refl h⟩
          rw [mergeLoop, if_neg (by simp)]
          rfl
      | cons x A =>
          cases B with
          | nil =>
              refine ⟨h, ?_, by simpa [merged_nil_right] using w, .refl h⟩
              rw [mergeLoop, if_neg (by simp)]
              rfl
          | cons y B =>
              have wx : ListAt h l (pre ++ [x] ++ (A ++ y :: B ++ post)) := by simpa using w
              have wy : ListAt h l ((pre ++ x :: A) ++ [y] ++ (B ++ post)) := by simpa using w
              have hxy : x ≠ y := fun e =>
                wx.range_not_rest x (by simp) (by simp [nodes, e])
              have hyb : y ≠ behind l post := by
                have wB : ListAt h l ((pre ++ x :: A) ++ (y :: B) ++ post) := by simpa using w
                exact (wB.range_apart y List.mem_cons_self).2.symm
              have hx : behind l (x :: A ++ y :: B ++ post) = x := rfl
              have hy : behind l (y :: B ++ post) = y := rfl
              rw [mergeLoop, hx, hy, if_pos ⟨hxy, hyb⟩, merged_cons]
              by_cases hless : less y x = true
              · -- `y` goes before `x`
                have wn : ListAt h l ((pre ++ x :: A) ++ y :: (B ++ post)) := by simpa using w
                have hprev := listPrev_behind wy
                rw [before_snoc] at hprev
                have e : pre ++ (x :: A ++ (B ++ post)) = (pre ++ x :: A) ++ (B ++ post) := by simp
                obtain ⟨h1, hrun, w1, hframe⟩ := listSplice_same wy e
                have w1' : ListAt h1 l ((pre ++ [y]) ++ (x :: A) ++ B ++ post) := by simpa using w1
                obtain ⟨h2, hrest, w2, hframe2⟩ := ih w1' (by simp only [List.length_cons] at hf ⊢; omega)
                rw [if_pos hless]
                refine ⟨h2, ?_, by simpa using w2, ?_⟩
                · rw [if_neg (by simp [hless]), bind_of_ok (listNext_behind wn), bind_of_ok hprev]
                  exact (bind_of_ok hrun).trans hrest
                · have hnodes : ∀ u, u ∈ nodes l ((pre ++ [y]) ++ (x :: A) ++ B ++ post) →
                      u ∈ nodes l (pre ++ (x :: A) ++ (y :: B) ++ post) := fun u hu => by
                    simp only [nodes, List.cons_append, List.append_assoc, List.mem_cons,
                      List.mem_append, List.nil_append, List.not_mem_nil] at hu ⊢
                    tauto
                  refine Frame.trans ?_ (hframe2.mono hnodes)
                  simpa using hframe
              · have wn : ListAt h l (pre ++ x :: (A ++ y :: B ++ post)) := by simpa using w
                have w1 : ListAt h l ((pre ++ [x]) ++ A ++ (y :: B) ++ post) := by simpa using w
                obtain ⟨h2, hrest, w2, hframe2⟩ := ih w1 (by simp only [List.length_cons] at hf ⊢; omega)
                rw [if_neg hless]
                refine ⟨h2, ?_, by simpa using w2, by simpa using hframe2⟩
                rw [if_pos (by simp [hless]), bind_of_ok (listNext_behind wn)]
                exact hrest

/-- `inplace_merge` of two runs. -/
theorem inplaceMerge_run {pre A B post : List ℕ} (w : ListAt h l (pre ++ A ++ B ++ post))
    (hA : A.IsChain fun a b => less b a = false) (hB : B.IsChain fun a b => less b a = false) {fuel : ℕ}
    (hf : A.length + B.length < fuel) :
    ∃ h', inplaceMerge fuel (behind l (A ++ B ++ post)) (behind l (B ++ post)) (behind l post) less h =
        .ok () h' ∧ ListAt h' l (pre ++ merged less A B ++ post) ∧
      Frame (nodes l (pre ++ A ++ B ++ post)) h h' := by
  have wA : ListAt h l (pre ++ A ++ (B ++ post)) := by simpa using w
  have wA' : ListAt h l (pre ++ (A ++ B ++ post)) := by simpa using w
  have hsA := isSorted_run wA hA (lt_of_le_of_lt (Nat.le_add_right _ _) hf)
  have hsB := isSorted_run w hB (lt_of_le_of_lt (Nat.le_add_left _ _) hf)
  rw [← List.append_assoc] at hsA
  obtain ⟨h', hrun, w', hframe⟩ := mergeLoop_run w hf
  refine ⟨h', ?_, w', hframe⟩
  rw [inplaceMerge, listAssert_bind (by simpa using wA'.behind_ne_zero),
    listAssert_bind (by simpa using wA.behind_ne_zero), listAssert_bind (by simpa using w.behind_ne_zero),
    bind_of_ok hsA, listAssert_bind rfl, bind_of_ok hsB, listAssert_bind rfl, hrun]

/-! ## Passes -/

/-- **A pass of `list_sort`**, of which `pre` is done. -/
theorem passLoop_run {pre zs : List ℕ} (order : WeakOrderOn less zs) {rounds fuel : ℕ}
    (w : ListAt h l (pre ++ xs)) (hzs : ∀ x ∈ xs, x ∈ zs) (hr : xs.length < rounds)
    (hf : xs.length < fuel) (cnt : ℕ) :
    ∃ h' out n, passLoop fuel l less rounds (behind l xs) cnt h = .ok (cnt + n) h' ∧
      ListAt h' l (pre ++ out) ∧ Pass less xs out n ∧ Frame (nodes l (pre ++ xs)) h h' := by
  induction rounds generalizing pre xs cnt h with
  | zero => cases hr
  | succ rounds ih =>
      cases xs with
      | nil =>
          refine ⟨h, [], 0, ?_, w, .nil, .refl h⟩
          have hend : behind l [] = listEnd l := rfl
          rw [passLoop, if_pos hend]
          rfl
      | cons x ys =>
          have hx : behind l (x :: ys) = x := rfl
          have hne : ¬ x = listEnd l := fun e => by
            cases w.behind_eq_end.mp e
          have hys : (runFrom less x ys).1 ++ (runFrom less x ys).2 = ys := runFrom_append x ys
          have hchain : (x :: (runFrom less x ys).1).IsChain fun a b => less b a = false :=
            isChain_runFrom x ys
          rw [passLoop, hx, if_neg hne, bind_of_ok (findEndOfRun_run w (Nat.lt_of_succ_lt hf))]
          obtain ⟨u, hu⟩ : ∃ u, (x :: (runFrom less x ys).1).getLast? = some u :=
            ⟨_, List.getLast?_eq_getLast_of_ne_nil (by simp)⟩
          have hbreak : ∀ v, (runFrom less x ys).2.head? = some v → less v u = true :=
            fun v hv => runFrom_break hu hv
          generalize runFrom less x ys = r at *
          obtain ⟨A, rest⟩ := r
          simp only at hys hchain hu hbreak ⊢
          have hAs : NonDecreasing less (x :: A) :=
            order.nonDecreasing (fun v hv => hzs v (by
              rw [← hys]
              simp only [List.mem_cons, List.mem_append] at hv ⊢
              tauto)) hchain
          cases rest with
          | nil =>
              -- one run is left
              have hend : behind l [] = listEnd l := rfl
              rw [List.append_nil] at hys
              subst hys
              refine ⟨h, x :: A, 1, ?_, w, .last (by simp) hAs, .refl h⟩
              rw [if_pos hend]
              rfl
          | cons y zs' =>
              have w2 : ListAt h l ((pre ++ x :: A) ++ y :: zs') := by
                rw [← hys] at w
                simpa using w
              have hye : ¬ y = listEnd l := fun e => by
                cases w2.behind_eq_end.mp e
              have hlen : (A ++ y :: zs').length = ys.length := congrArg List.length hys
              simp only [List.length_append, List.length_cons] at hlen hf hr
              have hf2 : zs'.length < fuel := by omega
              rw [show behind l (y :: zs') = y from rfl, if_neg hye, bind_of_ok (findEndOfRun_run w2 hf2)]
              have hzs' : (runFrom less y zs').1 ++ (runFrom less y zs').2 = zs' := runFrom_append y zs'
              have hchain2 : (y :: (runFrom less y zs').1).IsChain fun a b => less b a = false :=
                isChain_runFrom y zs'
              have hbreak2 : ∀ u, (y :: (runFrom less y zs').1).getLast? = some u →
                  ∀ v, (runFrom less y zs').2.head? = some v → less v u = true :=
                fun u hu v hv => runFrom_break hu hv
              generalize runFrom less y zs' = r at *
              obtain ⟨B, rest⟩ := r
              simp only at hzs' hchain2 hbreak2 ⊢
              subst hzs'
              simp only [List.length_append] at hlen
              have w3 : ListAt h l (pre ++ (x :: A) ++ (y :: B) ++ rest) := by simpa using w2
              have hfm : (x :: A).length + (y :: B).length < fuel := by
                simp only [List.length_cons]
                omega
              obtain ⟨h1, hmerge, w4, hframe⟩ := inplaceMerge_run w3 hchain hchain2 hfm
              have hall : ∀ v, v ∈ (x :: A) ∨ v ∈ (y :: B) ∨ v ∈ rest → v ∈ zs := fun v hv => by
                refine hzs v ?_
                rw [← hys]
                simp only [List.mem_cons, List.mem_append] at hv ⊢
                tauto
              have hBs : NonDecreasing less (y :: B) :=
                order.nonDecreasing (fun v hv => hall v (.inr (.inl hv))) hchain2
              obtain ⟨h2, out, n, hrest, w5, pass, hframe2⟩ := ih w4 (fun v hv => hall v (.inr (.inr hv)))
                (by omega) (by omega) (cnt + 1)
              refine ⟨h2, merged less (x :: A) (y :: B) ++ out, n + 1, ?_, by simpa using w5, ?_, ?_⟩
              · rw [show cnt + (n + 1) = cnt + 1 + n by omega]
                exact (bind_of_ok hmerge).trans hrest
              · have hlist : x :: ys = (x :: A) ++ (y :: B) ++ rest := by
                  rw [← hys]
                  simp
                rw [hlist]
                exact .pair hAs hBs hu rfl (hbreak y rfl) hbreak2 pass
              · have hnodes : ∀ u, u ∈ nodes l (pre ++ merged less (x :: A) (y :: B) ++ rest) →
                    u ∈ nodes l (pre ++ (x :: A) ++ (y :: B) ++ rest) := fun u hu => by
                  simp only [nodes, List.cons_append, List.append_assoc, List.mem_cons,
                    List.mem_append, List.not_mem_nil, mem_merged] at hu ⊢
                  tauto
                have hlist : pre ++ x :: ys = pre ++ (x :: A) ++ (y :: B) ++ rest := by
                  rw [← hys]
                  simp
                rw [hlist]
                exact hframe.trans (hframe2.mono hnodes)

/-! ## Sorting -/

/-- `ys` is what sorting makes of `xs`. -/
structure SortedFrom (less : ℕ → ℕ → Bool) (xs ys : List ℕ) : Prop where
  perm : ys.Perm xs
  sorted : NonDecreasing less ys
  stable : ∀ e ∈ xs, ys.filter (equivalent less e) = xs.filter (equivalent less e)

/-- The outer loop ends, because each pass leaves fewer runs. -/
theorem sortLoop_run {rounds fuel : ℕ} (w : ListAt h l xs) (order : WeakOrderOn less xs)
    (hr : descents less xs < rounds) (hf : xs.length < fuel) :
    ∃ h' ys, sortLoop fuel l less rounds h = .ok () h' ∧ ListAt h' l ys ∧ SortedFrom less xs ys ∧
      Frame (nodes l xs) h h' := by
  induction rounds generalizing xs h with
  | zero => cases hr
  | succ rounds ih =>
      have w0 : ListAt h l ([] ++ xs) := w
      obtain ⟨h1, out, n, hpass, w1, pass, hframe⟩ := passLoop_run order w0 (fun _ hx => hx) hf hf 0
      rw [Nat.zero_add] at hpass
      have w1 : ListAt h1 l out := w1
      have hperm : out.Perm xs := pass.perm
      have hstable : ∀ e ∈ xs, out.filter (equivalent less e) = xs.filter (equivalent less e) :=
        fun e he => pass.filter order (fun _ hx => hx) he
      rw [sortLoop, bind_of_ok (listBegin_run w), bind_of_ok hpass]
      by_cases hn : 1 < n
      · have hcount := pass.count
        have hlt := pass.descents_lt order (fun _ hx => hx) (by omega)
        have hdesc : descents less out < rounds := by omega
        have hlen : out.length < fuel := by rwa [hperm.length_eq]
        have hout : WeakOrderOn less out := order.mono fun x hx => hperm.mem_iff.mp hx
        obtain ⟨h2, ys, hrun, w2, sorted, hframe2⟩ := ih w1 hout hdesc hlen
        refine ⟨h2, ys, by rw [if_pos hn, hrun], w2, ⟨sorted.perm.trans hperm, sorted.sorted, ?_⟩,
          hframe.trans (hframe2.mono fun y hy => ?_)⟩
        · exact fun e he => (sorted.stable e (hperm.mem_iff.mpr he)).trans (hstable e he)
        · have : (nodes l out).Perm (nodes l xs) := (hperm.cons l).append_right _
          exact this.mem_iff.mp hy
      · refine ⟨h1, out, by rw [if_neg hn]; rfl, w1, ⟨hperm, ?_, hstable⟩, hframe⟩
        exact pass.sorted order (fun _ hx => hx) (by omega)

/-- **`list_sort` sorts**, and leaves every other list as it was. -/
theorem listSort_sorts {fuel : ℕ} (w : ListAt h l xs) (order : WeakOrderOn less xs)
    (hf : xs.length < fuel) :
    ∃ h' ys, listSort fuel l less h = .ok () h' ∧ ListAt h' l ys ∧ SortedFrom less xs ys ∧
      Others [l] [] h h' := by
  have hdescents : descents less xs < fuel := by
    by_cases hxs : xs = []
    · subst hxs
      exact hf
    · exact (descents_lt_length hxs).trans hf
  obtain ⟨h', ys, hrun, w', sorted, hframe⟩ := sortLoop_run w order hdescents hf
  have w0 : ListAt h' l ([] ++ ys ++ []) := by simpa using w'
  have hlen : ys.length < fuel := by rwa [sorted.perm.length_eq]
  have htest : isSorted fuel (behind l ys) (listEnd l) less h' = .ok true h' := by
    have := isSorted_run w0 sorted.sorted.isChain hlen
    rwa [List.append_nil] at this
  have hl : l ≠ 0 := w.ne_null (by simp [nodes])
  refine ⟨h', ys, ?_, w', sorted, hframe.others fun y hy => covered_list w hy⟩
  rw [listSort, listAssert_bind (by simpa using hl), bind_of_ok hrun, bind_of_ok (listBegin_run w'),
    bind_of_ok htest]
  rfl

/-- From the higher address to the lower. -/
theorem listSort_sorts_small :
    ∃ h' ys, listSort 3 100 (fun x y => decide (y < x)) smallHeap = .ok () h' ∧ ListAt h' 100 ys ∧
      SortedFrom (fun x y => decide (y < x)) [200, 300] ys ∧ Others [100] [] smallHeap h' := by
  refine listSort_sorts listAt_smallHeap ⟨?_, ?_, ?_⟩ (by decide) <;> decide

end

end Pintos.Containers
