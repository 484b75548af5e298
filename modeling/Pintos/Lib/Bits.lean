import Mathlib.Tactic

/-!
# Fields of a word

A word that packs several numbers keeps each of them in a run of bits.  `n` bits from bit
`k` on are picked out with the mask `(2 ^ n - 1) <<< k`; the lemmas turn the operations on
bits into division and remainder, which `omega` knows about.
-/

namespace Lib

/-- The bits of a field in place, when nothing is above it. -/
theorem and_field {w k n : ℕ} (h : w < 2 ^ (k + n)) :
    w &&& (2 ^ n - 1) <<< k = w / 2 ^ k * 2 ^ k := by
  refine Nat.eq_of_testBit_eq fun i => ?_
  rw [← Nat.shiftRight_eq_div_pow, ← Nat.shiftLeft_eq]
  simp only [Nat.testBit_and, Nat.testBit_shiftLeft, Nat.testBit_two_pow_sub_one,
    Nat.testBit_shiftRight]
  rcases le_or_gt k i with hi | hi
  · rw [Nat.add_sub_cancel' hi]
    rcases lt_or_ge i (k + n) with hn | hn
    · simp [hi, show i - k < n by omega]
    · have hbit : w.testBit i = false :=
        Nat.testBit_lt_two_pow (h.trans_le (Nat.pow_le_pow_right (by decide) hn))
      simp [hbit]
  · simp [hi.not_ge]

/-- The number in a field. -/
theorem and_field_shiftRight (w k n : ℕ) :
    (w &&& (2 ^ n - 1) <<< k) >>> k = w / 2 ^ k % 2 ^ n := by
  refine Nat.eq_of_testBit_eq fun i => ?_
  rw [← Nat.shiftRight_eq_div_pow]
  simp only [Nat.testBit_shiftRight, Nat.testBit_and, Nat.testBit_shiftLeft,
    Nat.testBit_two_pow_sub_one, Nat.testBit_mod_two_pow]
  simp [Bool.and_comm]

/-- Flags below a field are added to it. -/
theorem or_flags {x f k : ℕ} (hx : x % 2 ^ k = 0) (hf : f < 2 ^ k) : x ||| f = x + f := by
  obtain ⟨c, rfl⟩ := Nat.dvd_of_mod_eq_zero hx
  exact (Nat.two_pow_add_eq_or_of_lt hf c).symm

end Lib
