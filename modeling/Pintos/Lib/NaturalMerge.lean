import Mathlib.Data.List.Chain
import Mathlib.Data.List.Perm.Basic
import Mathlib.Tactic.Tauto

/-!
# Natural merge sort

A list is a sequence of runs, in each of which the elements are in order.  A pass merges the first
run with the second, the third with the fourth, and so on; the list is sorted when a pass leaves one
run.  `less` compares two elements, and need be an order on those of the list only.

* **`Pass.perm`**, **`Pass.filter`** — a pass keeps the elements, and the order of equivalent ones.
* **`Pass.descents`** with **`Pass.count`** — it halves the number of runs.
* **`Pass.sorted`** — one run is in order.
-/

namespace Lib

variable {α : Type} (less : α → α → Bool)

/-! ## Orders -/

/-- `less` is a strict weak order on the elements of a list. -/
structure WeakOrderOn (zs : List α) : Prop where
  irrefl : ∀ x ∈ zs, less x x = false
  trans : ∀ x ∈ zs, ∀ y ∈ zs, ∀ z ∈ zs, less x y = true → less y z = true → less x z = true
  incomparable : ∀ x ∈ zs, ∀ y ∈ zs, ∀ z ∈ zs, less x y = false → less y x = false →
    less y z = false → less z y = false → less x z = false ∧ less z x = false

/-- Neither comes before the other. -/
def equivalent (x y : α) : Bool := !less x y && !less y x

/-- In non-decreasing order. -/
def NonDecreasing (xs : List α) : Prop := xs.Pairwise fun x y => less y x = false

/-- `xs` and `ys`, merged; of two equivalent elements the one of `xs` comes first. -/
def merged (xs ys : List α) : List α := xs.merge ys fun x y => !less y x

/-- The number of places where the order breaks. -/
def descents : List α → ℕ
  | [] => 0
  | [_] => 0
  | x :: y :: ys => (if less y x then 1 else 0) + descents (y :: ys)

/-- The rest of the run that begins with `x`, and what is behind it. -/
def runFrom (x : α) : List α → List α × List α
  | [] => ([], [])
  | y :: ys =>
      if less y x then ([], y :: ys)
      else
        let r := runFrom y ys
        (y :: r.1, r.2)

/-- A pass over the list `xs` gives `out`, of `n` runs or fewer. -/
inductive Pass : List α → List α → ℕ → Prop
  | nil : Pass [] [] 0
  | last {xs : List α} : xs ≠ [] → NonDecreasing less xs → Pass xs xs 1
  | pair {xs ys rest out : List α} {x y : α} {n : ℕ} : NonDecreasing less xs → NonDecreasing less ys →
      xs.getLast? = some x → ys.head? = some y → less y x = true →
      (∀ u ∈ ys.getLast?, ∀ v ∈ rest.head?, less v u = true) → Pass rest out n →
      Pass (xs ++ ys ++ rest) (merged less xs ys ++ out) (n + 1)

variable {less} {zs xs ys rest out : List α} {n : ℕ}

namespace WeakOrderOn

theorem inOrder_trans (w : WeakOrderOn less zs) {x y z : α} (hx : x ∈ zs) (hy : y ∈ zs) (hz : z ∈ zs)
    (hxy : less y x = false) (hyz : less z y = false) : less z x = false := by
  by_contra hzx
  rw [Bool.not_eq_false] at hzx
  have hxy' : less x y = false := by
    by_contra h
    rw [Bool.not_eq_false] at h
    exact Bool.false_ne_true (hyz.symm.trans (w.trans z hz x hx y hy hzx h))
  have hyz' : less y z = false := by
    by_contra h
    rw [Bool.not_eq_false] at h
    exact Bool.false_ne_true (hxy.symm.trans (w.trans y hy z hz x hx h hzx))
  have := (w.incomparable x hx y hy z hz hxy' hxy hyz' hyz).2
  exact Bool.false_ne_true (this.symm.trans hzx)

theorem asymm (w : WeakOrderOn less zs) {x y : α} (hx : x ∈ zs) (hy : y ∈ zs) (h : less x y = true) :
    less y x = false := by
  by_contra h'
  rw [Bool.not_eq_false] at h'
  exact Bool.false_ne_true ((w.irrefl x hx).symm.trans (w.trans x hx y hy x hx h h'))

theorem mono (w : WeakOrderOn less zs) (sub : ∀ x ∈ xs, x ∈ zs) : WeakOrderOn less xs :=
  ⟨fun x hx => w.irrefl x (sub x hx),
    fun x hx y hy z hz => w.trans x (sub x hx) y (sub y hy) z (sub z hz),
    fun x hx y hy z hz => w.incomparable x (sub x hx) y (sub y hy) z (sub z hz)⟩

/-- What is in order from each element to the next is in order as a whole. -/
theorem nonDecreasing (w : WeakOrderOn less zs) (sub : ∀ x ∈ xs, x ∈ zs)
    (h : xs.IsChain fun x y => less y x = false) : NonDecreasing less xs := by
  induction xs with
  | nil => exact .nil
  | cons x xs ih =>
      have hxs := ih (fun y hy => sub y (List.mem_cons_of_mem _ hy)) h.tail
      refine List.pairwise_cons.mpr ⟨fun y hy => ?_, hxs⟩
      cases xs with
      | nil => cases hy
      | cons v vs =>
          have hxv := (List.isChain_cons_cons.mp h).1
          rcases List.mem_cons.mp hy with rfl | hy'
          · exact hxv
          · exact w.inOrder_trans (sub x List.mem_cons_self)
              (sub v (List.mem_cons_of_mem _ List.mem_cons_self))
              (sub y (List.mem_cons_of_mem _ hy)) hxv ((List.pairwise_cons.mp hxs).1 y hy')

end WeakOrderOn

/-! ## Merging -/

theorem merged_nil_left : merged less [] ys = ys := by simp [merged]

theorem merged_nil_right : merged less xs [] = xs := by simp [merged]

theorem merged_cons (x y : α) : merged less (x :: xs) (y :: ys) =
    if less y x then y :: merged less (x :: xs) ys else x :: merged less xs (y :: ys) := by
  rw [merged, List.cons_merge_cons]
  by_cases h : less y x = true
  · simp [h, merged]
  · simp [h, merged]

theorem merged_perm : (merged less xs ys).Perm (xs ++ ys) := List.merge_perm_append ..

theorem mem_merged {x : α} : x ∈ merged less xs ys ↔ x ∈ xs ∨ x ∈ ys := by
  rw [merged_perm.mem_iff, List.mem_append]

/-- Two runs make one. -/
theorem nonDecreasing_merged (w : WeakOrderOn less zs) (hxs : ∀ x ∈ xs, x ∈ zs)
    (hys : ∀ y ∈ ys, y ∈ zs) (h : NonDecreasing less xs) (h' : NonDecreasing less ys) :
    NonDecreasing less (merged less xs ys) := by
  induction xs generalizing ys with
  | nil => rwa [merged_nil_left]
  | cons x xs ihx =>
      induction ys with
      | nil => rwa [merged_nil_right]
      | cons y ys ihy =>
          obtain ⟨hx, hxs'⟩ := List.pairwise_cons.mp h
          obtain ⟨hy, hys'⟩ := List.pairwise_cons.mp h'
          have hxz := hxs x List.mem_cons_self
          have hyz := hys y List.mem_cons_self
          rw [merged_cons]
          split
          case isTrue hless =>
              have hxy := w.asymm hyz hxz hless
              refine List.pairwise_cons.mpr ⟨fun u hu => ?_,
                ihy (fun u hu => hys u (List.mem_cons_of_mem _ hu)) hys'⟩
              rcases mem_merged.mp hu with hu | hu
              · rcases List.mem_cons.mp hu with rfl | hu'
                · exact hxy
                · exact w.inOrder_trans hyz hxz (hxs u hu) hxy (hx u hu')
              · exact hy u hu
          case isFalse hless =>
              rw [Bool.not_eq_true] at hless
              refine List.pairwise_cons.mpr ⟨fun u hu => ?_,
                ihx (fun u hu => hxs u (List.mem_cons_of_mem _ hu)) hys hxs' h'⟩
              rcases mem_merged.mp hu with hu | hu
              · exact hx u hu
              · rcases List.mem_cons.mp hu with rfl | hu'
                · exact hless
                · exact w.inOrder_trans hxz hyz (hys u hu) hless (hy u hu')

/-- Equivalent elements keep their order. -/
theorem filter_merged (w : WeakOrderOn less zs) (hxs : ∀ x ∈ xs, x ∈ zs) (hys : ∀ y ∈ ys, y ∈ zs)
    (h : NonDecreasing less xs) {e : α} (he : e ∈ zs) :
    (merged less xs ys).filter (equivalent less e) =
      xs.filter (equivalent less e) ++ ys.filter (equivalent less e) := by
  induction xs generalizing ys with
  | nil => rw [merged_nil_left, List.filter_nil, List.nil_append]
  | cons x xs ihx =>
      induction ys with
      | nil => rw [merged_nil_right, List.filter_nil, List.append_nil]
      | cons y ys ihy =>
          obtain ⟨hx, hxs'⟩ := List.pairwise_cons.mp h
          have hxz := hxs x List.mem_cons_self
          have hyz := hys y List.mem_cons_self
          rw [merged_cons]
          split
          case isTrue hless =>
              have ih := ihy fun u hu => hys u (List.mem_cons_of_mem _ hu)
              by_cases hye : equivalent less e y = true
              · -- nothing of the first list is equivalent to `y`
                have hnone : (x :: xs).filter (equivalent less e) = [] := by
                  refine List.filter_eq_nil_iff.mpr fun u hu hue => ?_
                  have huz := hxs u hu
                  simp only [equivalent, Bool.and_eq_true, Bool.not_eq_true'] at hye hue
                  have huy : less y u = false :=
                    (w.incomparable y hyz e he u huz hye.2 hye.1 hue.1 hue.2).1
                  have hxu : less u x = false := by
                    rcases List.mem_cons.mp hu with rfl | hu'
                    · exact w.irrefl u huz
                    · exact hx u hu'
                  have : less y x = false := w.inOrder_trans hxz huz hyz hxu huy
                  exact Bool.false_ne_true (this.symm.trans hless)
                rw [List.filter_cons_of_pos hye, ih, hnone, List.filter_cons_of_pos hye]
                rfl
              · rw [List.filter_cons_of_neg hye, ih, List.filter_cons_of_neg hye]
          case isFalse hless =>
              have ih := ihx (fun u hu => hxs u (List.mem_cons_of_mem _ hu)) hys hxs'
              by_cases hxe : equivalent less e x = true
              · rw [List.filter_cons_of_pos hxe, ih, List.filter_cons_of_pos hxe]
                rfl
              · rw [List.filter_cons_of_neg hxe, ih, List.filter_cons_of_neg hxe]

/-! ## Runs -/

theorem descents_of_nonDecreasing (h : NonDecreasing less xs) : descents less xs = 0 := by
  induction xs with
  | nil => rfl
  | cons x xs ih =>
      obtain ⟨hx, hxs⟩ := List.pairwise_cons.mp h
      cases xs with
      | nil => rfl
      | cons y ys =>
          rw [descents, ih hxs, hx y List.mem_cons_self]
          rfl

theorem descents_append_le : descents less (xs ++ ys) ≤ descents less xs + descents less ys + 1 := by
  induction xs with
  | nil => simp [descents]
  | cons x xs ih =>
      cases xs with
      | nil =>
          cases ys with
          | nil => simp [descents]
          | cons y ys =>
              simp only [List.cons_append, List.nil_append, descents]
              split <;> omega
      | cons v vs =>
          simp only [List.cons_append, descents] at ih ⊢
          omega

theorem descents_append {x y : α} (hx : xs.getLast? = some x) (hy : ys.head? = some y)
    (h : less y x = true) : descents less (xs ++ ys) = descents less xs + descents less ys + 1 := by
  induction xs with
  | nil => cases hx
  | cons u us ih =>
      cases us with
      | nil =>
          obtain rfl : u = x := Option.some.inj hx
          cases ys with
          | nil => cases hy
          | cons v vs =>
              obtain rfl : v = y := Option.some.inj hy
              simp only [List.cons_append, List.nil_append, descents, h, if_true]
              omega
      | cons v vs =>
          rw [List.getLast?_cons_cons] at hx
          have := ih hx
          simp only [List.cons_append, descents] at this ⊢
          omega

theorem descents_lt_length (h : xs ≠ []) : descents less xs < xs.length := by
  induction xs with
  | nil => exact absurd rfl h
  | cons x xs ih =>
      cases xs with
      | nil => simp [descents]
      | cons y ys =>
          have := ih (by simp)
          simp only [descents, List.length_cons] at this ⊢
          split <;> omega

theorem runFrom_append (x : α) (ys : List α) : (runFrom less x ys).1 ++ (runFrom less x ys).2 = ys := by
  induction ys generalizing x with
  | nil => rfl
  | cons y ys ih =>
      unfold runFrom
      split
      case isTrue h => rfl
      case isFalse h => exact congrArg (y :: ·) (ih y)

theorem isChain_runFrom (x : α) (ys : List α) :
    (x :: (runFrom less x ys).1).IsChain fun a b => less b a = false := by
  induction ys generalizing x with
  | nil => exact .singleton x
  | cons y ys ih =>
      unfold runFrom
      split
      case isTrue h => exact .singleton x
      case isFalse h => exact List.isChain_cons_cons.mpr ⟨by simpa using h, ih y⟩

/-- Behind the run the order breaks. -/
theorem runFrom_break {x u v : α} {ys : List α} (hu : (x :: (runFrom less x ys).1).getLast? = some u)
    (hv : (runFrom less x ys).2.head? = some v) : less v u = true := by
  induction ys generalizing x with
  | nil => cases hv
  | cons y ys ih =>
      unfold runFrom at hu hv
      split at hu
      case isTrue h =>
          rw [if_pos h] at hv
          obtain rfl : x = u := Option.some.inj hu
          obtain rfl : y = v := Option.some.inj hv
          exact h
      case isFalse h =>
          rw [if_neg h] at hv
          exact ih (by rwa [List.getLast?_cons_cons] at hu) hv

/-! ## Passes -/

namespace Pass

theorem perm (p : Pass less xs out n) : out.Perm xs := by
  induction p with
  | nil => exact .refl _
  | last _ _ => exact .refl _
  | pair _ _ _ _ _ _ _ ih => exact merged_perm.append ih

theorem eq_nil_iff (p : Pass less xs out n) : n = 0 ↔ xs = [] := by
  cases p with
  | nil => simp
  | last h _ => simp [h]
  | @pair xs ys rest out x y n _ _ hx _ _ _ _ =>
      have : xs ≠ [] := by
        rintro rfl
        cases hx
      simp [this]

/-- Equivalent elements keep their order. -/
theorem filter (p : Pass less xs out n) (w : WeakOrderOn less zs) (hxs : ∀ x ∈ xs, x ∈ zs) {e : α}
    (he : e ∈ zs) : out.filter (equivalent less e) = xs.filter (equivalent less e) := by
  induction p with
  | nil => rfl
  | last _ _ => rfl
  | pair hx hy _ _ _ _ _ ih =>
      rw [List.filter_append, List.filter_append, List.filter_append, filter_merged w
        (fun u hu => hxs u (by simp [hu])) (fun u hu => hxs u (by simp [hu])) hx he,
        ih fun u hu => hxs u (by simp [hu])]

/-- A pass takes the runs two by two. -/
theorem count (p : Pass less xs out n) : 2 * n ≤ descents less xs + 2 := by
  induction p with
  | nil => simp
  | last _ _ => simp
  | @pair xs ys rest out x y n hxs hys hx hy hlt hrest p ih =>
      have hys0 : ys ≠ [] := by
        rintro rfl
        cases hy
      obtain ⟨u, hu⟩ : ∃ u, ys.getLast? = some u := ⟨_, List.getLast?_eq_getLast_of_ne_nil hys0⟩
      have hy' : (ys ++ rest).head? = some y := by
        rw [List.head?_append, hy]
        rfl
      rw [List.append_assoc, descents_append hx hy' hlt]
      cases hv : rest.head? with
      | none =>
          have hnil : rest = [] := List.head?_eq_none_iff.mp hv
          have := p.eq_nil_iff.mpr hnil
          omega
      | some v =>
          rw [descents_append hu hv (hrest u hu v hv)]
          omega

/-- It leaves no more runs than it says. -/
theorem descents_lt (p : Pass less xs out n) (w : WeakOrderOn less zs) (hxs : ∀ x ∈ xs, x ∈ zs)
    (hn : n ≠ 0) : descents less out < n := by
  induction p with
  | nil => exact absurd rfl hn
  | last _ h => simp [descents_of_nonDecreasing h]
  | @pair xs ys rest out x y n hx hy _ _ _ _ p ih =>
      have hm := descents_of_nonDecreasing (nonDecreasing_merged w
        (fun u hu => hxs u (by simp [hu])) (fun u hu => hxs u (by simp [hu])) hx hy)
      by_cases h0 : n = 0
      · have hout : out = [] := by
          have := p.perm
          rw [p.eq_nil_iff.mp h0] at this
          exact this.eq_nil
        rw [hout, List.append_nil, hm]
        exact Nat.succ_pos n
      · have := ih (fun u hu => hxs u (by simp [hu])) h0
        have : descents less (merged less xs ys ++ out) ≤
            descents less (merged less xs ys) + descents less out + 1 := descents_append_le
        omega

/-- One run is in order. -/
theorem sorted (p : Pass less xs out n) (w : WeakOrderOn less zs) (hxs : ∀ x ∈ xs, x ∈ zs)
    (hn : n ≤ 1) : NonDecreasing less out := by
  cases p with
  | nil => exact .nil
  | last _ h => exact h
  | pair hx hy _ _ _ _ p =>
      have h0 := p.eq_nil_iff.mp (Nat.le_zero.mp (Nat.le_of_succ_le_succ hn))
      have hout := p.perm
      rw [h0] at hout
      rw [hout.eq_nil, List.append_nil]
      exact nonDecreasing_merged w (fun u hu => hxs u (by simp [hu]))
        (fun u hu => hxs u (by simp [hu])) hx hy

end Pass

end Lib
