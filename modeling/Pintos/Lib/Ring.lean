import Mathlib.Tactic

/-!
# Ring buffers

An array of `n` cells used as a queue: the elements are in the cells that follow
`tail`, around the end of the array if necessary, and the next one goes to `head`.
`ringList` is the queue that the array stands for.  **`tail = head` is the empty
queue**, so a queue of `n` elements cannot be told from it, and at most `n - 1` are
kept.
-/

namespace Lib

variable {α : Type}

/-- The `k` elements after `tail`, in order. -/
def ringList (n : ℕ) (buf : ℕ → α) (tail k : ℕ) : List α :=
  (List.range k).map fun i => buf ((tail + i) % n)

@[simp] theorem length_ringList (n : ℕ) (buf : ℕ → α) (tail k : ℕ) :
    (ringList n buf tail k).length = k := by
  simp [ringList]

/-- The oldest element comes first. -/
theorem ringList_succ {n tail : ℕ} (buf : ℕ → α) (k : ℕ) (h : tail < n) :
    ringList n buf tail (k + 1) = buf tail :: ringList n buf ((tail + 1) % n) k := by
  rw [ringList, List.range_succ_eq_map, List.map_cons, List.map_map, Nat.add_zero,
    Nat.mod_eq_of_lt h, ringList]
  congr 1
  apply List.map_congr_left
  intro i _
  show buf ((tail + (i + 1)) % n) = buf (((tail + 1) % n + i) % n)
  rw [Nat.mod_add_mod, Nat.add_assoc, Nat.add_comm 1 i]

/-- Two cells of the ring differ if their distance is less than `n`. -/
theorem ring_index_ne {n tail i k : ℕ} (hi : i < k) (hk : k < n) :
    (tail + i) % n ≠ (tail + k) % n := by
  intro h
  have hmod : i ≡ k [MOD n] := Nat.ModEq.add_left_cancel' tail h
  have : i = k := Nat.ModEq.eq_of_lt_of_lt hmod (hi.trans hk) hk
  omega

/-- The newest element comes last. -/
theorem ringList_update {n k : ℕ} (buf : ℕ → α) (tail : ℕ) (a : α) (hk : k < n) :
    ringList n (Function.update buf ((tail + k) % n) a) tail (k + 1) =
      ringList n buf tail k ++ [a] := by
  rw [ringList, List.range_succ, List.map_append, ringList]
  congr 1
  · apply List.map_congr_left
    intro i hi
    exact Function.update_of_ne (ring_index_ne (List.mem_range.mp hi) hk) ..
  · simp

/-- The queue is empty if and only if the two positions agree. -/
theorem ring_empty_iff {n tail k : ℕ} (htail : tail < n) (hk : k < n) :
    (tail + k) % n = tail ↔ k = 0 := by
  constructor
  · intro h
    by_contra hne
    have hcell : (tail + 0) % n ≠ (tail + k) % n := ring_index_ne (Nat.pos_of_ne_zero hne) hk
    rw [Nat.add_zero, Nat.mod_eq_of_lt htail] at hcell
    exact hcell h.symm
  · rintro rfl
    exact Nat.mod_eq_of_lt htail

/-- The queue is full if and only if one more element would make it look empty. -/
theorem ring_full_iff {n tail k : ℕ} (htail : tail < n) (hk : k < n) :
    ((tail + k) % n + 1) % n = tail ↔ k + 1 = n := by
  rw [Nat.mod_add_mod, Nat.add_assoc]
  constructor
  · intro h
    by_contra hne
    have := (ring_empty_iff htail (lt_of_le_of_ne hk hne)).mp h
    omega
  · intro h
    rw [h, Nat.add_mod_right, Nat.mod_eq_of_lt htail]

end Lib
