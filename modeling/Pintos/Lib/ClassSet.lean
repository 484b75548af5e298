import Mathlib.Tactic
import Mathlib.Data.Finset.Basic

/-!
# Sets with one element of each class

A container that compares its elements by an equivalence keeps at most one element of each
class.  `SetStep` says what the usual operations do to such a set and what they return: the
element that stood for the class before, if there was one.

The relation leaves nothing open (`SetStep.unique`), and a step keeps at most one element of
each class (`SetStep.onePerClass`).
-/

namespace Lib

variable {α : Type} {same : α → α → Prop} {S S' S'' : Finset α} {r r' : Option α}

/-- At most one element of each class. -/
def OnePerClass (same : α → α → Prop) (S : Finset α) : Prop :=
  ∀ a ∈ S, ∀ b ∈ S, same a b → a = b

/-- An operation on such a set. -/
inductive SetOp (α : Type) where
  | insert (new : α)
  | replace (new : α)
  | find (e : α)
  | delete (e : α)
  | clear

/-- What the set has for the class of `e`. -/
def Stands (same : α → α → Prop) (S : Finset α) (e : α) : Option α → Prop
  | some x => x ∈ S ∧ same x e
  | none => ∀ x ∈ S, ¬ same x e

/-- The element that stands for a class is determined. -/
theorem Stands.unique (equiv : Equivalence same) (one : OnePerClass same S) {e : α}
    (h : Stands same S e r) (h' : Stands same S e r') : r = r' := by
  cases r with
  | none =>
      cases r' with
      | none => rfl
      | some y => exact absurd h'.2 (h y h'.1)
  | some x =>
      cases r' with
      | none => exact absurd h.2 (h' x h.1)
      | some y => rw [one x h.1 y h'.1 (equiv.trans h.2 (equiv.symm h'.2))]

theorem OnePerClass.mono (h : OnePerClass same S) (hsub : S' ⊆ S) : OnePerClass same S' :=
  fun a ha b hb => h a (hsub ha) b (hsub hb)

section Steps

variable [DecidableEq α]

/-- The set after an operation that found `r`. -/
def setAfter (S : Finset α) : SetOp α → Option α → Finset α
  | .insert new, none => insert new S
  | .insert _, some _ => S
  | .replace new, none => insert new S
  | .replace new, some old => insert new (S.erase old)
  | .find _, _ => S
  | .delete _, none => S
  | .delete _, some found => S.erase found
  | .clear, _ => ∅

/-- The element an operation looks for. -/
def SetOp.key : SetOp α → Option α
  | .insert new => some new
  | .replace new => some new
  | .find e => some e
  | .delete e => some e
  | .clear => none

/-- **An operation takes `S` to `S'` and returns `r`.** -/
def SetStep (same : α → α → Prop) (S : Finset α) (op : SetOp α) (r : Option α) (S' : Finset α) : Prop :=
  (∀ e, op.key = some e → Stands same S e r) ∧ (op.key = none → r = none) ∧ S' = setAfter S op r

/-- **The operation determines what is returned and the set.** -/
theorem SetStep.unique (equiv : Equivalence same) (one : OnePerClass same S) {op : SetOp α}
    (h : SetStep same S op r S') (h' : SetStep same S op r' S'') : r = r' ∧ S' = S'' := by
  have e : r = r' := by
    cases hkey : op.key with
    | none => rw [h.2.1 hkey, h'.2.1 hkey]
    | some x => exact (h.1 x hkey).unique equiv one (h'.1 x hkey)
  subst e
  exact ⟨rfl, h.2.2.trans h'.2.2.symm⟩

/-- A new element of a class that has none. -/
theorem OnePerClass.add (equiv : Equivalence same) (h : OnePerClass same S) {new : α}
    (hnone : ∀ x ∈ S, ¬ same x new) : OnePerClass same (insert new S) := by
  intro a ha b hb hab
  rcases Finset.mem_insert.mp ha with ea | ha' <;> rcases Finset.mem_insert.mp hb with eb | hb'
  · rw [ea, eb]
  · exact absurd (equiv.symm (ea ▸ hab)) (hnone b hb')
  · exact absurd (eb ▸ hab) (hnone a ha')
  · exact h a ha' b hb' hab

/-- Without the element that stands for it a class has none. -/
theorem OnePerClass.none_of_erase (equiv : Equivalence same) (h : OnePerClass same S) {old e : α}
    (hold : old ∈ S) (hsame : same old e) : ∀ x ∈ S.erase old, ¬ same x e := by
  intro x hx hxe
  obtain ⟨hne, hx⟩ := Finset.mem_erase.mp hx
  exact hne (h x hx old hold (equiv.trans hxe (equiv.symm hsame)))

/-- **A step keeps at most one element of each class.** -/
theorem SetStep.onePerClass (equiv : Equivalence same) (one : OnePerClass same S) {op : SetOp α}
    (h : SetStep same S op r S') : OnePerClass same S' := by
  obtain ⟨hkey, -, rfl⟩ := h
  cases op with
  | insert new =>
      have hst := hkey new rfl
      cases r with
      | none => exact one.add equiv hst
      | some old => exact one
  | replace new =>
      have hst := hkey new rfl
      cases r with
      | none => exact one.add equiv hst
      | some old =>
          exact (one.mono (Finset.erase_subset _ _)).add equiv (one.none_of_erase equiv hst.1 hst.2)
  | find e => exact one
  | delete e =>
      cases r with
      | none => exact one
      | some found => exact one.mono (Finset.erase_subset _ _)
  | clear => exact fun a ha => absurd ha (Finset.notMem_empty a)

end Steps

end Lib
