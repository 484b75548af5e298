import Mathlib.Data.List.GetD
import Mathlib.Data.List.OfFn
import Mathlib.Tactic.Ring

/-!
# Growable arrays

An array that can be written at any offset: a write past the end extends it, and
what lies between the old end and the write is filled with a default element.
This is what a file is for.
-/

namespace Lib

namespace GrowArray

variable {α : Type} (zero : α)

/-- The elements in `[offset, offset + size)` that exist. -/
def read (a : List α) (size offset : ℕ) : List α := (a.drop offset).take size

/-- Replace the elements from `offset` on by `data`, extending the array as needed. -/
def write (a data : List α) (offset : ℕ) : List α :=
  (List.range (max a.length (offset + data.length))).map fun i =>
    if offset ≤ i ∧ i < offset + data.length then data.getD (i - offset) zero else a.getD i zero

/-- The array of a function on `[0, n)`. -/
def tabulate (n : ℕ) (f : ℕ → α) : List α := (List.range n).map f

@[simp] theorem length_tabulate (n : ℕ) (f : ℕ → α) : (tabulate n f).length = n := by
  simp [tabulate]

theorem getD_tabulate {n i : ℕ} (f : ℕ → α) (h : i < n) : (tabulate n f).getD i zero = f i := by
  simp [tabulate, List.getD_eq_getElem?_getD, h]

theorem tabulate_congr {n : ℕ} {f g : ℕ → α} (h : ∀ i < n, f i = g i) :
    tabulate n f = tabulate n g :=
  List.map_congr_left fun i hi => h i (List.mem_range.mp hi)

theorem tabulate_const (n : ℕ) (x : α) : tabulate n (fun _ => x) = List.replicate n x := by
  rw [tabulate, List.map_const', List.length_range]

/-- A read returns what the function gives in range. -/
theorem read_tabulate (n size offset : ℕ) (f : ℕ → α) :
    read (tabulate n f) size offset =
      (List.range (min size (n - offset))).map fun k => f (offset + k) := by
  refine List.ext_getElem (by simp [read]) fun k h1 h2 => ?_
  simp [read, tabulate]

/-- A write, as a function. -/
theorem write_tabulate (n offset : ℕ) (f : ℕ → α) (data : List α) :
    write zero (tabulate n f) data offset =
      tabulate (max n (offset + data.length)) fun i =>
        if offset ≤ i ∧ i < offset + data.length then data.getD (i - offset) zero
        else if i < n then f i else zero := by
  unfold write
  rw [length_tabulate]
  refine List.map_congr_left fun i _ => ?_
  split
  · rfl
  · split
    · next h => exact getD_tabulate zero f h
    · next h => rw [List.getD_eq_default _ _ (by simpa using h)]

end GrowArray

end Lib
