import Mathlib.Data.List.Nodup
import Mathlib.Logic.Function.Basic

/-!
# Doubly linked chains

Elements that point to each other: `next` leads from an element to the one behind it, `prev`
back.  Both are partial, because not every value need be an element.

`Linked next prev a xs b` says that following `next` from `a` one passes the elements `xs`, in
order, and comes to `b`, and that `prev` leads the same way back.  The two ends are not in `xs`:
they may be sentinels, and what lies beyond them is not spoken of.

* **`linked_append`** — a chain may be cut at any of its elements.
* **`Linked.insert_last`** — four stores put a new element before the end of a chain.
-/

namespace Lib

variable {α : Type}

/-- From `a` through `xs` to `b`, and back. -/
def Linked (next prev : α → Option α) (a : α) : List α → α → Prop
  | [], b => next a = some b ∧ prev b = some a
  | x :: xs, b => (next a = some x ∧ prev x = some a) ∧ Linked next prev x xs b

section

variable {next prev next' prev' : α → Option α} {a b x : α} {xs ys : List α}

theorem linked_append :
    Linked next prev a (xs ++ x :: ys) b ↔ Linked next prev a xs x ∧ Linked next prev x ys b := by
  induction xs generalizing a with
  | nil => exact Iff.rfl
  | cons y ys ih =>
      constructor
      · rintro ⟨h, h'⟩
        exact ⟨⟨h, (ih.mp h').1⟩, (ih.mp h').2⟩
      · rintro ⟨⟨h, h'⟩, h''⟩
        exact ⟨h, ih.mpr ⟨h', h''⟩⟩

/-- A chain is a matter of the pointers between its elements only. -/
theorem Linked.congr (h : Linked next prev a xs b) (hnext : ∀ y ∈ a :: xs, next' y = next y)
    (hprev : ∀ y ∈ xs ++ [b], prev' y = prev y) : Linked next' prev' a xs b := by
  induction xs generalizing a with
  | nil => exact ⟨(hnext a (by simp)).trans h.1, (hprev b (by simp)).trans h.2⟩
  | cons y ys ih =>
      obtain ⟨h, h'⟩ := h
      refine ⟨⟨(hnext a (by simp)).trans h.1, (hprev y (by simp)).trans h.2⟩, ih h' ?_ ?_⟩
      · exact fun z hz => hnext z (List.mem_cons_of_mem _ hz)
      · exact fun z hz => hprev z (List.mem_cons_of_mem _ hz)

/-- Each element of a chain has one behind it. -/
theorem Linked.next_mem (h : Linked next prev a xs b) {y : α} (hy : y ∈ a :: xs) :
    ∃ z ∈ xs ++ [b], next y = some z := by
  induction xs generalizing a with
  | nil =>
      rw [List.mem_singleton.mp hy]
      exact ⟨b, by simp, h.1⟩
  | cons w ws ih =>
      rcases List.mem_cons.mp hy with rfl | hy
      · exact ⟨w, by simp, h.1.1⟩
      · obtain ⟨z, hz, e⟩ := ih h.2 hy
        exact ⟨z, List.mem_cons_of_mem _ hz, e⟩

/-- Each element of a chain has one before it. -/
theorem Linked.prev_mem (h : Linked next prev a xs b) {y : α} (hy : y ∈ xs ++ [b]) :
    ∃ z ∈ a :: xs, prev y = some z := by
  induction xs generalizing a with
  | nil =>
      rw [List.mem_singleton.mp hy]
      exact ⟨a, by simp, h.2⟩
  | cons w ws ih =>
      rcases List.mem_cons.mp hy with rfl | hy
      · exact ⟨a, by simp, h.1.2⟩
      · obtain ⟨z, hz, e⟩ := ih h.2 hy
        exact ⟨z, List.mem_cons_of_mem _ hz, e⟩

/-- The last element before the end. -/
theorem Linked.exists_last (h : Linked next prev a xs b) :
    ∃ z ws, a :: xs = ws ++ [z] ∧ next z = some b ∧ prev b = some z := by
  induction xs generalizing a with
  | nil => exact ⟨a, [], rfl, h⟩
  | cons y ys ih =>
      obtain ⟨z, ws, e, hz⟩ := ih h.2
      exact ⟨z, a :: ws, by rw [e, List.cons_append], hz⟩

variable [DecidableEq α]

/-- **A new element before the end of a chain**: it points to its neighbours, and they to it. -/
theorem Linked.insert_last (h : Linked next prev a xs b) {z : α} (hz : prev b = some z)
    (nodup : (a :: xs ++ [b]).Nodup) (hx : x ∉ a :: xs ++ [b]) :
    Linked (Function.update (Function.update next x (some b)) z (some x))
      (Function.update (Function.update prev x (some z)) b (some x)) a (xs ++ [x]) b := by
  obtain ⟨z', ws, e, -, hz'⟩ := h.exists_last
  obtain rfl : z = z' := Option.some.inj (hz.symm.trans hz')
  have hzmem : z ∈ a :: xs := by
    rw [e]
    simp
  have hxz : x ≠ z := fun h => hx (List.mem_append_left _ (h ▸ hzmem))
  have hxb : x ≠ b := fun h => hx (by simp [h])
  -- the chain before `x`: only the last of its pointers is new
  have front : Linked (Function.update (Function.update next x (some b)) z (some x))
      (Function.update (Function.update prev x (some z)) b (some x)) a xs x := by
    have hb : b ∉ a :: xs := fun hb => (List.nodup_append.mp nodup).2.2 b hb b (by simp) rfl
    clear hz hz'
    induction xs generalizing a ws with
    | nil =>
        have hza : a = z := by
          rcases ws with - | ⟨w, ws⟩
          · exact (List.cons.inj e).1
          · simp at e
        subst hza
        exact ⟨Function.update_self .., by
          rw [Function.update_of_ne hxb, Function.update_self]⟩
    | cons y ys ih =>
        obtain ⟨⟨h1, h2⟩, h3⟩ := h
        have hws : ∃ vs, ws = a :: vs ∧ y :: ys = vs ++ [z] := by
          rcases ws with - | ⟨w, vs⟩
          · simp at e
          · obtain ⟨rfl, e'⟩ := List.cons.inj e
            exact ⟨vs, rfl, e'⟩
        obtain ⟨vs, rfl, e'⟩ := hws
        have hzy : z ∈ y :: ys := by
          rw [e']
          simp
        have haz : a ≠ z := fun h => (List.nodup_cons.mp nodup).1 (List.mem_append_left _ (h ▸ hzy))
        have hax : a ≠ x := fun h => hx (by simp [h])
        have hyx : y ≠ x := fun h => hx (by simp [h])
        have hyb : y ≠ b := fun h => hb (by simp [h])
        refine ⟨⟨?_, ?_⟩, ih h3 (List.nodup_cons.mp nodup).2
          (fun hm => hx (List.mem_cons_of_mem _ hm)) vs e' hzy
          fun hm => hb (List.mem_cons_of_mem _ hm)⟩
        · rw [Function.update_of_ne haz, Function.update_of_ne hax]
          exact h1
        · rw [Function.update_of_ne hyb, Function.update_of_ne hyx]
          exact h2
  refine linked_append.mpr ⟨front, ?_, Function.update_self ..⟩
  rw [Function.update_of_ne hxz, Function.update_self]

end

end Lib
