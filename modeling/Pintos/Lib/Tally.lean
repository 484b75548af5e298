import Mathlib.Tactic

/-!
# Counting the cells of a table

A table of cells, each empty or filled, of which only the first `n` may be filled.
`tally g P n` is the number of filled cells whose contents satisfy `P`; the lemmas say how
it changes when one cell is filled, emptied or overwritten.
-/

namespace Lib

variable {α : Type} {g : ℕ → Option α} {P : α → Bool} {n a : ℕ}

/-- The number of cells below `n` with contents that satisfy `P`. -/
def tally (g : ℕ → Option α) (P : α → Bool) (n : ℕ) : ℕ :=
  (List.range n).countP fun a => (g a).any P

theorem tally_succ (g : ℕ → Option α) (P : α → Bool) (n : ℕ) :
    tally g P (n + 1) = tally g P n + ((g n).any P).toNat := by
  rw [tally, List.range_succ, List.countP_append, List.countP_singleton, ← tally]
  cases (g n).any P <;> rfl

/-- Cells past the first `n` do not count. -/
theorem tally_update_of_le (h : n ≤ a) (v : Option α) :
    tally (Function.update g a v) P n = tally g P n := by
  refine List.countP_congr fun b hb => ?_
  have hne : b ≠ a := by
    have := List.mem_range.mp hb
    omega
  rw [Function.update_of_ne hne]

/-- One cell is overwritten. -/
theorem tally_update (v : Option α) : a < n →
    tally (Function.update g a v) P n + ((g a).any P).toNat = tally g P n + (v.any P).toNat := by
  induction n with
  | zero => exact fun h => absurd h (Nat.not_lt_zero a)
  | succ n ih =>
      intro h
      rw [tally_succ, tally_succ]
      rcases eq_or_ne a n with rfl | hne
      · rw [Function.update_self, tally_update_of_le le_rfl]
        omega
      · have := ih (by omega)
        rw [Function.update_of_ne hne.symm]
        omega

/-- The bound does not matter as long as the cells past it are empty. -/
theorem tally_of_empty {m : ℕ} (h : ∀ b, n ≤ b → g b = none) (hm : n ≤ m) :
    tally g P m = tally g P n := by
  induction m, hm using Nat.le_induction with
  | base => rfl
  | succ m hm ih =>
      rw [tally_succ, ih, h m hm]
      rfl

theorem tally_pos : 0 < tally g P n ↔ ∃ a < n, ∃ x, g a = some x ∧ P x = true := by
  rw [tally, List.countP_pos_iff]
  refine exists_congr fun a => ?_
  rw [List.mem_range, Option.any_eq_true]

/-- Counting the filled cells by a list of their indices. -/
theorem tally_eq_countP {l : List ℕ} (hnodup : l.Nodup) (hl : ∀ b, g b ≠ none ↔ b ∈ l)
    (h : ∀ b, n ≤ b → g b = none) : tally g P n = l.countP fun b => (g b).any P := by
  rw [tally, List.countP_eq_length_filter, List.countP_eq_length_filter]
  apply List.Perm.length_eq
  refine (List.perm_ext_iff_of_nodup (List.nodup_range.filter _) (hnodup.filter _)).mpr fun b => ?_
  rw [List.mem_filter, List.mem_filter, List.mem_range]
  refine and_congr_left fun hb => ?_
  obtain ⟨x, hx, -⟩ := (Option.any_eq_true _ _).mp hb
  have hfull : g b ≠ none := hx ▸ Option.some_ne_none x
  exact iff_of_true (not_le.mp fun hle => hfull (h b hle)) ((hl b).mp hfull)

theorem tally_mono {Q : α → Bool} (h : ∀ x, P x = true → Q x = true) : tally g P n ≤ tally g Q n := by
  refine List.countP_mono_left fun a _ ha => ?_
  obtain ⟨x, hx, hP⟩ := (Option.any_eq_true _ _).mp ha
  exact (Option.any_eq_true _ _).mpr ⟨x, hx, h x hP⟩

end Lib
