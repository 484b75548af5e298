import Mathlib.Data.List.Basic
import Mathlib.Data.List.TakeWhile

/-!
# The words of a text

A text is cut at its separators, and what is not empty is a word: a word is a maximal run of
characters that are not separators.

* **`words_cons`** — a separator at the front is skipped.
* **`words_run`** — a run of other characters, up to a separator, is the first word.
* **`words_of_all`** — a text without separators is one word.
* **`IsRun.run_iff`** — the runs of a text are its first run and those of the rest.
-/

namespace Lib

variable {α : Type}

/-- The words of a text, in order. -/
def words (sep : α → Bool) (text : List α) : List (List α) :=
  (text.splitOnP sep).filter fun w => w ≠ []

variable {sep : α → Bool} {c : α} {text run w : List α}

@[simp] theorem words_nil : words sep [] = [] := by
  simp [words, List.splitOnP_nil]

/-- **A separator at the front is skipped.** -/
theorem words_cons (h : sep c = true) : words sep (c :: text) = words sep text := by
  rw [words, List.splitOnP_cons_eq_if_modifyHead, if_pos h, List.filter_cons_of_neg (by simp), words]

/-- **A text without separators is one word.** -/
theorem words_of_all (h : ∀ x ∈ run, sep x = false) (hne : run ≠ []) : words sep run = [run] := by
  rw [words, List.splitOnP_eq_singleton h, List.filter_cons_of_pos (by simpa using hne),
    List.filter_nil]

/-- **A run of other characters, up to a separator, is the first word.** -/
theorem words_run (h : ∀ x ∈ run, sep x = false) (hne : run ≠ []) (hc : sep c = true) :
    words sep (run ++ c :: text) = run :: words sep text := by
  rw [words, List.splitOnP_append_cons_of_forall_mem h c hc, List.filter_cons_of_pos (by simpa using hne),
    words]

/-- The pieces of a text are made of its characters. -/
theorem sublist_of_mem_splitOnP (h : w ∈ text.splitOnP sep) : w.Sublist text := by
  induction text generalizing w with
  | nil =>
      rw [List.splitOnP_nil, List.mem_singleton] at h
      simp [h]
  | cons c text ih =>
      obtain ⟨first, rest, e⟩ := List.exists_cons_of_ne_nil (List.splitOnP_ne_nil sep text)
      rw [List.splitOnP_cons_eq_if_modifyHead] at h
      split at h
      · rcases List.mem_cons.mp h with rfl | h
        · exact List.nil_sublist _
        · exact (ih h).trans (List.sublist_cons_self ..)
      · rw [e, List.modifyHead_cons] at h
        rcases List.mem_cons.mp h with rfl | h
        · exact (ih (e ▸ List.mem_cons_self)).cons_cons c
        · exact (ih (e ▸ List.mem_cons_of_mem _ h)).trans (List.sublist_cons_self ..)

theorem sublist_of_mem_words (h : w ∈ words sep text) : w.Sublist text :=
  sublist_of_mem_splitOnP (List.mem_filter.mp h).1

/-- There are no more words than characters. -/
theorem length_words_le (sep : α → Bool) (text : List α) : (words sep text).length ≤ text.length := by
  induction text with
  | nil => simp [words, List.splitOnP_nil]
  | cons c text ih =>
      obtain ⟨first, rest, e⟩ := List.exists_cons_of_ne_nil (List.splitOnP_ne_nil sep text)
      have hrest : (rest.filter fun w => w ≠ []).length ≤ (words sep text).length := by
        rw [words, e]
        exact (List.Sublist.filter _ (List.sublist_cons_self first rest)).length_le
      rw [List.length_cons]
      by_cases hc : sep c = true
      · rw [words_cons hc]
        omega
      · rw [words, List.splitOnP_cons_eq_if_modifyHead, if_neg hc, e, List.modifyHead_cons,
          List.filter_cons_of_pos (by simp), List.length_cons]
        omega

/-! ## Where the words stand -/

/-- `w` is a maximal run of characters that are not separators, at offset `i` of the text: as
long as possible, and with a separator or nothing before it. -/
structure IsRun (sep : α → Bool) (text : List α) (i : ℕ) (w : List α) : Prop where
  longest : (text.drop i).takeWhile (fun c => !sep c) = w
  nonempty : w ≠ []
  before : ∀ j, i = j + 1 → ∀ c ∈ text[j]?, sep c = true

namespace IsRun

variable {sep : α → Bool} {c : α} {text run w : List α} {i : ℕ}

/-- A text of separators has no runs. -/
theorem not_of_all (h : ∀ c ∈ text, sep c = true) : ¬ IsRun sep text i w := by
  intro hrun
  have hnil : (text.drop i).takeWhile (fun c => !sep c) = [] := by
    rw [List.takeWhile_eq_nil_iff]
    intro hpos hc
    have hsep := h _ (List.mem_of_mem_drop (List.getElem_mem hpos))
    simp only [List.get_eq_getElem, hsep] at hc
    cases hc
  exact hrun.nonempty (hrun.longest.symm.trans hnil)

/-- A separator at the front. -/
theorem cons_iff (hc : sep c = true) :
    IsRun sep (c :: text) i w ↔ ∃ j, i = j + 1 ∧ IsRun sep text j w := by
  constructor
  · intro h
    cases i with
    | zero =>
        have hnil := h.longest
        rw [List.drop_zero, List.takeWhile_cons_of_neg (by simp [hc])] at hnil
        exact absurd hnil.symm h.nonempty
    | succ j =>
        refine ⟨j, rfl, h.longest, h.nonempty, ?_⟩
        rintro k rfl d hd
        exact h.before (k + 1) rfl d (by simpa using hd)
  · rintro ⟨j, rfl, h⟩
    refine ⟨h.longest, h.nonempty, fun k hk d hd => ?_⟩
    obtain rfl : j = k := by omega
    cases j with
    | zero =>
        obtain rfl : c = d := by simpa using hd
        exact hc
    | succ j => exact h.before j rfl d (by simpa using hd)

/-- Separators at the front. -/
theorem append_iff {skipped : List α} (h : ∀ c ∈ skipped, sep c = true) :
    IsRun sep (skipped ++ text) i w ↔ ∃ j, i = skipped.length + j ∧ IsRun sep text j w := by
  induction skipped generalizing i with
  | nil => simp
  | cons c skipped ih =>
      rw [List.cons_append, cons_iff (h c List.mem_cons_self)]
      simp only [ih fun d hd => h d (List.mem_cons_of_mem _ hd), List.length_cons]
      constructor
      · rintro ⟨_, rfl, j, rfl, hj⟩
        exact ⟨j, by omega, hj⟩
      · rintro ⟨j, rfl, hj⟩
        exact ⟨skipped.length + j, by omega, j, rfl, hj⟩

/-- **The runs of a text** that begins with one: that one, and those of the rest. -/
theorem run_iff (hrun : ∀ c ∈ run, sep c = false) (hne : run ≠ [])
    (hrest : ∀ c ∈ text.head?, sep c = true) :
    IsRun sep (run ++ text) i w ↔
      i = 0 ∧ w = run ∨ ∃ j, i = run.length + j ∧ IsRun sep text j w := by
  have hfirst : (run ++ text).takeWhile (fun c => !sep c) = run := by
    rw [List.takeWhile_append_of_pos (by simpa using hrun)]
    cases text with
    | nil => simp
    | cons c text => rw [List.takeWhile_cons_of_neg (by simp [hrest c rfl]), List.append_nil]
  have hdrop : ∀ j, (run ++ text).drop (run.length + j) = text.drop j := fun j => by simp
  constructor
  · intro h
    rcases Nat.lt_or_ge i run.length with hlt | hge
    · left
      cases i with
      | zero => exact ⟨rfl, h.longest.symm.trans hfirst⟩
      | succ j =>
          -- what stands before is a character of the run
          have hj : j < run.length := by omega
          have hsep := h.before j rfl run[j] (by simp [List.getElem?_append_left hj, hj])
          rw [hrun _ (List.getElem_mem hj)] at hsep
          cases hsep
    · right
      obtain ⟨j, rfl⟩ := Nat.exists_eq_add_of_le hge
      refine ⟨j, rfl, ?_, h.nonempty, ?_⟩
      · rw [← h.longest, hdrop]
      · rintro k rfl c hc
        refine h.before (run.length + k) (by omega) c ?_
        rwa [List.getElem?_append_right (by omega), Nat.add_sub_cancel_left]
  · rintro (⟨rfl, rfl⟩ | ⟨j, rfl, h⟩)
    · exact ⟨hfirst, hne, fun j hj => absurd hj (by omega)⟩
    · refine ⟨?_, h.nonempty, fun k hk c hc => ?_⟩
      · rw [← h.longest, hdrop]
      · cases j with
        | zero =>
            -- the run would begin with the separator that ends the first one
            exfalso
            cases text with
            | nil => exact h.nonempty (by simpa using h.longest.symm)
            | cons d text =>
                have hnil := h.longest
                rw [List.drop_zero, List.takeWhile_cons_of_neg (by simp [hrest d rfl])] at hnil
                exact h.nonempty hnil.symm
        | succ j =>
            obtain rfl : k = run.length + j := by omega
            rw [List.getElem?_append_right (by omega), Nat.add_sub_cancel_left] at hc
            exact h.before j rfl c hc

end IsRun

end Lib
