import Mathlib.Data.List.Chain
import Mathlib.Data.List.Nodup
import Pintos.Lib.Linked

/-!
# Cutting and pasting chains

A chain of elements that point to each other, as the list of all its elements.  Two pointers are
set to take a piece out of a chain, and four to put one in; nothing else changes, and each piece
remains a chain of its own.

* **`isChain_cut`** — the ends of what is left are joined.
* **`isChain_paste`** — the piece is joined at both of its ends.
* **`isChain_flip`** — with the two pointers of each element exchanged, a chain runs backwards.
-/

namespace Lib

variable {α : Type}

/-- `x` points forward to `y`, and `y` back to `x`. -/
def Joined (next prev : α → Option α) (x y : α) : Prop := next x = some y ∧ prev y = some x

section

variable {next prev next' prev' : α → Option α} {a b x y f z : α} {xs A B R : List α}

theorem linked_iff_isChain : Linked next prev a xs b ↔ (a :: xs ++ [b]).IsChain (Joined next prev) := by
  induction xs generalizing a with
  | nil => simp [Linked, Joined]
  | cons w ws ih => simp [Linked, Joined, ih]

/-- A chain is a matter of the pointers between its elements. -/
theorem isChain_congr (h : xs.IsChain (Joined next prev)) (nodup : xs.Nodup)
    (hnext : ∀ u ∈ xs, xs.getLast? ≠ some u → next' u = next u)
    (hprev : ∀ u ∈ xs, xs.head? ≠ some u → prev' u = prev u) : xs.IsChain (Joined next' prev') := by
  induction xs with
  | nil => exact .nil
  | cons u us ih =>
      cases us with
      | nil => exact .singleton u
      | cons v vs =>
          obtain ⟨⟨h1, h2⟩, hrest⟩ := List.isChain_cons_cons.mp h
          obtain ⟨hu, nodup⟩ := List.nodup_cons.mp nodup
          have hlast : (u :: v :: vs).getLast? ≠ some u := by
            rw [List.getLast?_cons_cons]
            exact fun e => hu (List.mem_of_getLast? e)
          refine List.isChain_cons_cons.mpr ⟨⟨?_, ?_⟩, ih hrest nodup ?_ ?_⟩
          · rw [hnext u List.mem_cons_self hlast, h1]
          · rw [hprev v (by simp) ?_, h2]
            simp only [List.head?_cons, ne_eq, Option.some.injEq]
            rintro rfl
            exact hu List.mem_cons_self
          · intro w hw hne
            exact hnext w (List.mem_cons_of_mem _ hw) (by rwa [List.getLast?_cons_cons])
          · intro w hw _
            refine hprev w (List.mem_cons_of_mem _ hw) ?_
            simp only [List.head?_cons, ne_eq, Option.some.injEq]
            rintro rfl
            exact hu hw

/-- The ends of two chains, joined. -/
theorem isChain_glue (hA : A.IsChain (Joined next prev)) (hB : B.IsChain (Joined next prev))
    (hx : A.getLast? = some x) (hy : B.head? = some y) (h : Joined next prev x y) :
    (A ++ B).IsChain (Joined next prev) := by
  refine List.isChain_append.mpr ⟨hA, hB, ?_⟩
  intro u hu v hv
  obtain rfl : x = u := Option.some.inj (hx.symm.trans hu)
  obtain rfl : y = v := Option.some.inj (hy.symm.trans hv)
  exact h

/-- What contains one element of a chain, and with an element always the one before it, contains
the first. -/
theorem first_mem {S : α → Prop} (h : (a :: xs).IsChain (Joined next prev))
    (back : ∀ u ∈ a :: xs, ∀ v, S v → Joined next prev u v → S u) (hx : x ∈ a :: xs) (hS : S x) :
    S a := by
  induction xs generalizing a with
  | nil => rwa [← List.mem_singleton.mp hx]
  | cons b bs ih =>
      obtain ⟨hab, hrest⟩ := List.isChain_cons_cons.mp h
      rcases List.mem_cons.mp hx with rfl | hx
      · exact hS
      · exact back a List.mem_cons_self b
          (ih hrest (fun u hu => back u (List.mem_cons_of_mem _ hu)) hx) hab

theorem isChain_flip : xs.reverse.IsChain (Joined prev next) ↔ xs.IsChain (Joined next prev) := by
  rw [List.isChain_reverse]
  exact ⟨fun h => h.imp fun _ _ h => And.symm h, fun h => h.imp fun _ _ h => And.symm h⟩

variable [DecidableEq α]

/-- **A piece is taken out of a chain.** -/
theorem isChain_cut (h : (A ++ R ++ B).IsChain (Joined next prev)) (nodup : (A ++ R ++ B).Nodup)
    (hx : A.getLast? = some x) (hy : B.head? = some y) :
    (A ++ B).IsChain (Joined (Function.update next x (some y)) (Function.update prev y (some x))) ∧
      R.IsChain (Joined (Function.update next x (some y)) (Function.update prev y (some x))) := by
  obtain ⟨hAR, hB, -⟩ := List.isChain_append.mp h
  obtain ⟨hA, hR, -⟩ := List.isChain_append.mp hAR
  obtain ⟨nAR, nB, dB⟩ := List.nodup_append.mp nodup
  obtain ⟨nA, nR, dA⟩ := List.nodup_append.mp nAR
  have hxA : x ∈ A := List.mem_of_getLast? hx
  have hyB : y ∈ B := List.mem_of_head? hy
  refine ⟨isChain_glue (isChain_congr hA nA ?_ ?_) (isChain_congr hB nB ?_ ?_) hx hy
    ⟨Function.update_self .., Function.update_self ..⟩, isChain_congr hR nR ?_ ?_⟩
  · exact fun u hu hne => Function.update_of_ne (by rintro rfl; exact hne hx) _ _
  · exact fun u hu _ => Function.update_of_ne (dB u (List.mem_append_left _ hu) y hyB) _ _
  · exact fun u hu _ => Function.update_of_ne (dB x (List.mem_append_left _ hxA) u hu).symm _ _
  · exact fun u hu hne => Function.update_of_ne (by rintro rfl; exact hne hy) _ _
  · exact fun u hu _ => Function.update_of_ne (dA x hxA u hu).symm _ _
  · exact fun u hu _ => Function.update_of_ne (dB u (List.mem_append_right _ hu) y hyB) _ _

/-- **A piece is put between two chains**, that end in `x` and begin with `y`. -/
theorem isChain_paste (hA : A.IsChain (Joined next prev)) (hB : B.IsChain (Joined next prev))
    (hR : R.IsChain (Joined next prev)) (nodup : (A ++ R ++ B).Nodup) (hx : A.getLast? = some x) (hy : B.head? = some y)
    (hf : R.head? = some f) (hz : R.getLast? = some z) :
    (A ++ R ++ B).IsChain (Joined (Function.update (Function.update next z (some y)) x (some f))
      (Function.update (Function.update prev f (some x)) y (some z))) := by
  obtain ⟨nAR, nB, dB⟩ := List.nodup_append.mp nodup
  obtain ⟨nA, nR, dA⟩ := List.nodup_append.mp nAR
  have hxA : x ∈ A := List.mem_of_getLast? hx
  have hyB : y ∈ B := List.mem_of_head? hy
  have hfR : f ∈ R := List.mem_of_head? hf
  have hzR : z ∈ R := List.mem_of_getLast? hz
  have hxz : z ≠ x := (dA x hxA z hzR).symm
  have hfy : f ≠ y := dB f (List.mem_append_right _ hfR) y hyB
  set next' := Function.update (Function.update next z (some y)) x (some f) with hnext
  set prev' := Function.update (Function.update prev f (some x)) y (some z) with hprev
  have hA' : A.IsChain (Joined next' prev') := by
    refine isChain_congr hA nA (fun u hu hne => ?_) fun u hu _ => ?_
    · have hux : u ≠ x := by
        rintro rfl
        exact hne hx
      rw [hnext, Function.update_of_ne hux, Function.update_of_ne (dA u hu z hzR)]
    · rw [hprev, Function.update_of_ne (dB u (List.mem_append_left _ hu) y hyB),
        Function.update_of_ne (dA u hu f hfR)]
  have hR' : R.IsChain (Joined next' prev') := by
    refine isChain_congr hR nR (fun u hu hne => ?_) fun u hu hne => ?_
    · have huz : u ≠ z := by
        rintro rfl
        exact hne hz
      rw [hnext, Function.update_of_ne (dA x hxA u hu).symm, Function.update_of_ne huz]
    · have huf : u ≠ f := by
        rintro rfl
        exact hne hf
      rw [hprev, Function.update_of_ne (dB u (List.mem_append_right _ hu) y hyB),
        Function.update_of_ne huf]
  have hB' : B.IsChain (Joined next' prev') := by
    refine isChain_congr hB nB (fun u hu _ => ?_) fun u hu hne => ?_
    · rw [hnext, Function.update_of_ne (dB x (List.mem_append_left _ hxA) u hu).symm,
        Function.update_of_ne (dB z (List.mem_append_right _ hzR) u hu).symm]
    · have huy : u ≠ y := by
        rintro rfl
        exact hne hy
      rw [hprev, Function.update_of_ne huy,
        Function.update_of_ne (dB f (List.mem_append_right _ hfR) u hu).symm]
  have hxf : Joined next' prev' x f := by
    refine ⟨Function.update_self .., ?_⟩
    rw [hprev, Function.update_of_ne hfy, Function.update_self]
  have hzy : Joined next' prev' z y := by
    refine ⟨?_, Function.update_self ..⟩
    rw [hnext, Function.update_of_ne hxz, Function.update_self]
  refine isChain_glue (isChain_glue hA' hR' hx hf hxf) hB' ?_ hy hzy
  rw [List.getLast?_append, hz]
  rfl

end

end Lib
