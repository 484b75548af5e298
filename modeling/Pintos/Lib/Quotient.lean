import Mathlib.Data.Nat.Basic
import Mathlib.Tactic.Linarith
import Mathlib.Tactic.Ring

/-!
# Quotients from an estimated divisor

A division by a number `d` of many digits is made by way of a division by a number `D` that has
only its leading digits, and zeros behind them.  The quotient then comes out too large, but when
`D` is near enough to `d` it is too large by one at the most, and one comparison says whether it
is.

* **`div_of_estimate`** — the quotient by `D` is the quotient by `d`, or one more.
* **`corrected_quotient`** — the comparison that tells the two apart.
-/

namespace Lib

/-- **A divisor that is a little too small** makes the quotient too large by one at the most. -/
theorem div_of_estimate {n d D : ℕ} (hD : 0 < D) (hle : D ≤ d) (near : (n / d + 1) * (d - D) ≤ D) :
    n / D = n / d ∨ n / D = n / d + 1 := by
  have hd : 0 < d := lt_of_lt_of_le hD hle
  have lower : n / d ≤ n / D := Nat.div_le_div_left hle hD
  have upper : n / D < n / d + 2 := by
    rw [Nat.div_lt_iff_lt_mul hD]
    obtain ⟨r, rfl⟩ := Nat.exists_eq_add_of_le hle
    rw [Nat.add_sub_cancel_left] at near
    calc n < (D + r) * (n / (D + r) + 1) := Nat.lt_mul_div_succ n hd
      _ = (n / (D + r) + 1) * D + (n / (D + r) + 1) * r := by ring
      _ ≤ (n / (D + r) + 1) * D + D := Nat.add_le_add_left near _
      _ = (n / (D + r) + 2) * D := by ring
  omega

/-- **The correction**: of two candidates the comparison takes the quotient. -/
theorem corrected_quotient {n d q : ℕ} (hd : 0 < d) (hle : d ≤ n) (hq : q = n / d ∨ q = n / d + 1) :
    (if n - (q - 1) * d < d then q - 1 else q) = n / d := by
  have hpos : 0 < n / d := Nat.div_pos hle hd
  have hdiv : n / d * d + n % d = n := Nat.div_add_mod' n d
  have hmod : n % d < d := Nat.mod_lt n hd
  rcases hq with rfl | rfl
  · obtain ⟨p, hp⟩ := Nat.exists_eq_succ_of_ne_zero hpos.ne'
    rw [hp, Nat.succ_mul] at hdiv
    rw [hp, Nat.succ_sub_one, if_neg]
    omega
  · rw [Nat.add_sub_cancel, if_pos]
    omega

end Lib
