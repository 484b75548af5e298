import Pintos.Lib.Quotient

/-!
# 64-bit division

`lib/arithmetic.c` of `fs_PintOS`: what the compiler calls for `/` and `%` on 64-bit numbers,
which the processor can only divide by 32-bit ones, and only when the quotient has 32 bits too.
`divl` is that instruction.  Where it traps, the model has no result.

A divisor of 32 bits takes two steps of long division.  For a larger one the quotient is
estimated from the leading 32 bits of the divisor and corrected by one.

The functions for the remainder return 32 bits: `umod64` is declared `uint32_t` and `smod64`
`int32_t`.  What they return is made 64 bits wide again by `__umoddi3` and `__moddi3`, but by then
the upper half is lost.

* **`division_correct`** — no division traps, and the quotient is right.
* **`remainder_correct_iff`** — the remainder is right as far as it fits into 32 bits.
-/

namespace Pintos.Numbers

open Lib

/-! ## The functions of `arithmetic.c` -/

/-- The number in the registers `edx` and `eax`. -/
def edxEax (n : UInt64) : ℕ :=
  let n1 := (n >>> 32).toUInt32
  let n0 := n.toUInt32
  n1.toNat * 2 ^ 32 + n0.toNat

/-- `divl`.  The instruction traps on a divisor of zero and on a quotient of more than 32 bits. -/
def divl (n : UInt64) (d : UInt32) : Option UInt32 :=
  if d = 0 ∨ 2 ^ 32 ≤ edxEax n / d.toNat then none else some (UInt32.ofNat (edxEax n / d.toNat))

/-- `if (x <= bound) { n += k; x <<= k; }`, of `nlz`. -/
def nlzStep (bound : UInt32) (k : ℕ) (s : ℕ × UInt32) : ℕ × UInt32 :=
  if s.2 ≤ bound then (s.1 + k, s.2 <<< UInt32.ofNat k) else s

/-- `n` and `x` before the last test of `nlz`. -/
def nlzSteps (x : UInt32) : ℕ × UInt32 :=
  let s := nlzStep 0x0000FFFF 16 (0, x)
  let s := nlzStep 0x00FFFFFF 8 s
  let s := nlzStep 0x0FFFFFFF 4 s
  nlzStep 0x3FFFFFFF 2 s

/-- `nlz`. -/
def nlz (x : UInt32) : ℕ :=
  let s := nlzSteps x
  if s.2 ≤ 0x7FFFFFFF then s.1 + 1 else s.1

/-- `udiv64`. -/
def udiv64 (n d : UInt64) : Option UInt64 := do
  if d >>> 32 = 0 then
    -- a divisor of 32 bits: two digits of the quotient, in base 2^32
    let b : UInt64 := (1 : UInt64) <<< 32
    let n1 := (n >>> 32).toUInt32
    let n0 := n.toUInt32
    let d0 := d.toUInt32
    let q ← divl (b * (n1 % d0).toUInt64 + n0.toUInt64) d0
    return q.toUInt64 + b * (n1 / d0).toUInt64
  else if n < d then return 0
  else
    -- an estimate that is at most one too large
    let d1 := (d >>> 32).toUInt32
    let s := nlz d1
    let estimate ← divl (n >>> 1) ((d <<< UInt64.ofNat s) >>> 32).toUInt32
    let q := (estimate >>> UInt32.ofNat (31 - s)).toUInt64
    return if n - (q - 1) * d < d then q - 1 else q

/-- `umod64`. -/
def umod64 (n d : UInt64) : Option UInt32 := do
  let q ← udiv64 n d
  return (n - d * q).toUInt32

/-- `sdiv64`. -/
def sdiv64 (n d : Int64) : Option Int64 := do
  let nAbs := if 0 ≤ n then n.toUInt64 else -n.toUInt64
  let dAbs := if 0 ≤ d then d.toUInt64 else -d.toUInt64
  let qAbs ← udiv64 nAbs dAbs
  return if decide (n < 0) = decide (d < 0) then qAbs.toInt64 else -qAbs.toInt64

/-- `smod64`. -/
def smod64 (n d : Int64) : Option Int32 := do
  let q ← sdiv64 n d
  return (n - d * q).toInt32

/-- `__divdi3`. -/
def divdi3 (n d : Int64) : Option Int64 := sdiv64 n d

/-- `__moddi3`. -/
def moddi3 (n d : Int64) : Option Int64 := (smod64 n d).map Int32.toInt64

/-- `__udivdi3`. -/
def udivdi3 (n d : UInt64) : Option UInt64 := udiv64 n d

/-- `__umoddi3`. -/
def umoddi3 (n d : UInt64) : Option UInt64 := (umod64 n d).map UInt32.toUInt64

/-! ## The instruction -/

theorem edxEax_eq (n : UInt64) : edxEax n = n.toNat := by
  have := n.toNat_lt
  simp [edxEax, Nat.shiftRight_eq_div_pow]
  omega

theorem divl_spec {n : UInt64} {d : UInt32} (hd : d ≠ 0) (fits : n.toNat / d.toNat < 2 ^ 32) :
    ∃ q : UInt32, divl n d = some q ∧ q.toNat = n.toNat / d.toNat := by
  refine ⟨UInt32.ofNat (n.toNat / d.toNat), ?_, UInt32.toNat_ofNat_of_lt' fits⟩
  rw [divl, edxEax_eq, if_neg]
  rintro (h | h)
  · exact hd h
  · omega

/-! ## Leading zeros -/

/-- What `nlz` has when `x`, shifted left, has a bit set at or above `bits`. -/
structure Normalised (x : UInt32) (bits : ℕ) (s : ℕ × UInt32) : Prop where
  large : 2 ^ bits ≤ s.2.toNat
  shifted : s.2.toNat = x.toNat * 2 ^ s.1

theorem nlzStep_spec {x bound : UInt32} {k : ℕ} {s : ℕ × UInt32} (hk : k ≤ 16)
    (hbound : bound.toNat + 1 = 2 ^ (32 - k)) (h : Normalised x (32 - 2 * k) s) :
    Normalised x (32 - k) (nlzStep bound k s) := by
  unfold nlzStep
  split
  case isFalse hlarge =>
      rw [UInt32.le_iff_toNat_le] at hlarge
      exact ⟨by omega, h.shifted⟩
  case isTrue hsmall =>
      rw [UInt32.le_iff_toNat_le] at hsmall
      have hfit : s.2.toNat * 2 ^ k < 2 ^ 32 := by
        calc s.2.toNat * 2 ^ k < 2 ^ (32 - k) * 2 ^ k := by
              exact Nat.mul_lt_mul_of_pos_right (by omega) (Nat.two_pow_pos k)
          _ = 2 ^ 32 := by rw [← pow_add, Nat.sub_add_cancel (by omega)]
      have hshift : (s.2 <<< UInt32.ofNat k).toNat = s.2.toNat * 2 ^ k := by
        rw [UInt32.toNat_shiftLeft, UInt32.toNat_ofNat_of_lt' (by unfold UInt32.size; omega),
          Nat.mod_eq_of_lt (by omega : k < 32), Nat.shiftLeft_eq, Nat.mod_eq_of_lt hfit]
      refine ⟨?_, ?_⟩
      · calc 2 ^ (32 - k) = 2 ^ (32 - 2 * k) * 2 ^ k := by rw [← pow_add]; congr 1; omega
          _ ≤ s.2.toNat * 2 ^ k := Nat.mul_le_mul_right _ h.large
          _ = _ := hshift.symm
      · rw [hshift, h.shifted, pow_add, mul_assoc]

theorem nlzSteps_spec {x : UInt32} (hx : x ≠ 0) : Normalised x 30 (nlzSteps x) := by
  have hpos : 0 < x.toNat := Nat.pos_of_ne_zero fun h => hx (UInt32.toNat_inj.mp h)
  have start : Normalised x 0 (0, x) := ⟨hpos, (Nat.mul_one _).symm⟩
  have h16 : Normalised x 16 (nlzStep 0x0000FFFF 16 (0, x)) :=
    nlzStep_spec (k := 16) (by decide) (by decide) start
  have h24 : Normalised x 24 (nlzStep 0x00FFFFFF 8 (nlzStep 0x0000FFFF 16 (0, x))) :=
    nlzStep_spec (k := 8) (by decide) (by decide) h16
  have h28 : Normalised x 28
      (nlzStep 0x0FFFFFFF 4 (nlzStep 0x00FFFFFF 8 (nlzStep 0x0000FFFF 16 (0, x)))) :=
    nlzStep_spec (k := 4) (by decide) (by decide) h24
  have h30 : Normalised x 30 (nlzStep 0x3FFFFFFF 2
      (nlzStep 0x0FFFFFFF 4 (nlzStep 0x00FFFFFF 8 (nlzStep 0x0000FFFF 16 (0, x))))) :=
    nlzStep_spec (k := 2) (by decide) (by decide) h28
  exact h30

/-- `nlz` counts the places by which the leading bit has to be moved to be the top one. -/
theorem nlz_spec {x : UInt32} (hx : x ≠ 0) :
    2 ^ 31 ≤ x.toNat * 2 ^ nlz x ∧ x.toNat * 2 ^ nlz x < 2 ^ 32 := by
  obtain ⟨hlarge, hs⟩ := nlzSteps_spec hx
  unfold nlz
  generalize nlzSteps x = s at hlarge hs
  have hlt := s.2.toNat_lt
  have hbound : (0x7FFFFFFF : UInt32).toNat = 2 ^ 31 - 1 := rfl
  simp only [UInt32.le_iff_toNat_le, hbound]
  split
  case isTrue h =>
      rw [pow_succ _ s.1, ← mul_assoc, ← hs]
      omega
  case isFalse h =>
      rw [← hs]
      omega

theorem nlz_le {x : UInt32} (hx : x ≠ 0) : nlz x ≤ 31 := by
  have hpos : 0 < x.toNat := Nat.pos_of_ne_zero fun h => hx (UInt32.toNat_inj.mp h)
  by_contra h
  have : 2 ^ 32 ≤ x.toNat * 2 ^ nlz x :=
    (Nat.pow_le_pow_right (by decide) (by omega)).trans (Nat.le_mul_of_pos_left _ hpos)
  have := (nlz_spec hx).2
  omega

/-! ## A divisor of 32 bits -/

theorem udiv64_small {n d : UInt64} (hd : d ≠ 0) (hsmall : d.toNat < 2 ^ 32) :
    ∃ q, udiv64 n d = some q ∧ q.toNat = n.toNat / d.toNat := by
  have hpos : 0 < d.toNat := Nat.pos_of_ne_zero fun h => hd (UInt64.toNat_inj.mp h)
  have hhigh : d >>> 32 = 0 := UInt64.toNat_inj.mp (by
    simp [Nat.shiftRight_eq_div_pow]
    omega)
  have hd0 : d.toUInt32.toNat = d.toNat := by
    rw [UInt64.toNat_toUInt32, Nat.mod_eq_of_lt hsmall]
  have hn1 : (n >>> 32).toUInt32.toNat = n.toNat / 2 ^ 32 := by
    have := n.toNat_lt
    simp [Nat.shiftRight_eq_div_pow]
    omega
  have hn0 : n.toUInt32.toNat = n.toNat % 2 ^ 32 := UInt64.toNat_toUInt32 n
  have hb : ((1 : UInt64) <<< 32).toNat = 2 ^ 32 := rfl
  have hmod : n.toNat / 2 ^ 32 % d.toNat < d.toNat := Nat.mod_lt _ hpos
  set top := n.toNat / 2 ^ 32 with htop
  set low := n.toNat % 2 ^ 32 with hlow
  have hval : ((1 : UInt64) <<< 32 * ((n >>> 32).toUInt32 % d.toUInt32).toUInt64 +
      n.toUInt32.toUInt64).toNat = 2 ^ 32 * (top % d.toNat) + low := by
    rw [UInt64.toNat_add, UInt64.toNat_mul, hb, UInt32.toNat_toUInt64, UInt32.toNat_toUInt64,
      UInt32.toNat_mod, hn1, hn0, hd0]
    have : low < 2 ^ 32 := Nat.mod_lt _ (by decide)
    omega
  have hsum : (2 ^ 32 * (top % d.toNat) + low) / d.toNat + 2 ^ 32 * (top / d.toNat) = n.toNat / d.toNat := by
    rw [← Nat.add_mul_div_left _ _ hpos]
    congr 1
    have := Nat.div_add_mod top d.toNat
    have := Nat.div_add_mod n.toNat (2 ^ 32)
    nlinarith
  have hfits : (2 ^ 32 * (top % d.toNat) + low) / d.toNat < 2 ^ 32 := by
    rw [Nat.div_lt_iff_lt_mul hpos]
    have : low < 2 ^ 32 := Nat.mod_lt _ (by decide)
    nlinarith
  obtain ⟨q, hq, hqv⟩ := divl_spec (n := (1 : UInt64) <<< 32 *
      ((n >>> 32).toUInt32 % d.toUInt32).toUInt64 + n.toUInt32.toUInt64) (d := d.toUInt32)
      (fun h => by rw [h] at hd0; simp at hd0; omega) (by rw [hval, hd0]; exact hfits)
  rw [hval, hd0] at hqv
  refine ⟨_, by rw [udiv64, if_pos hhigh]; simp only [hq]; rfl, ?_⟩
  have htotal : n.toNat / d.toNat < 2 ^ 64 := lt_of_le_of_lt (Nat.div_le_self _ _) n.toNat_lt
  rw [UInt64.toNat_add, UInt64.toNat_mul, UInt32.toNat_toUInt64, UInt32.toNat_toUInt64, hb, hqv,
    UInt32.toNat_div, hn1, hd0, Nat.mod_eq_of_lt (a := 2 ^ 32 * _) (by omega),
    hsum, Nat.mod_eq_of_lt htotal]

/-! ## A larger divisor -/

/-- The divisor, shifted to the top of its 64 bits. -/
structure Shifted (d p c : ℕ) : Prop where
  split : p * c = 2 ^ 31
  large : 2 ^ 63 ≤ d * p
  fits : d * p < 2 ^ 64

theorem Shifted.of_high {d p c : ℕ} (hpc : p * c = 2 ^ 31) (hlow : 2 ^ 31 ≤ d / 2 ^ 32 * p)
    (hhigh : d / 2 ^ 32 * p < 2 ^ 32) : Shifted d p c := by
  have hp : 0 < p := Nat.pos_of_ne_zero (by rintro rfl; omega)
  refine ⟨hpc, ?_, ?_⟩
  · have := Nat.div_mul_le_self d (2 ^ 32)
    nlinarith
  · have : d / 2 ^ 32 < 2 * c := Nat.lt_of_mul_lt_mul_right (a := p) (by nlinarith)
    have : d < 2 * c * 2 ^ 32 := by omega
    nlinarith

/-- Its high word. -/
theorem Shifted.high {d p c : ℕ} (w : Shifted d p c) : d * p / 2 ^ 32 = d / (2 * c) := by
  have hp : 0 < p := Nat.pos_of_ne_zero fun h => by have := w.large; rw [h] at this; omega
  have : 2 ^ 32 = 2 * c * p := by rw [mul_assoc, mul_comm c, w.split]; norm_num
  rw [this, Nat.mul_div_mul_right _ _ hp]

theorem Shifted.high_large {d p c : ℕ} (w : Shifted d p c) : 2 ^ 31 ≤ d / (2 * c) := by
  have := w.high
  have := w.large
  omega

/-- The leading 32 bits of the divisor, with zeros behind them, are near enough to it. -/
theorem near_enough {n d p c : ℕ} (hpc : p * c = 2 ^ 31) (hn : n < 2 ^ 64) (hd : 2 ^ 63 ≤ d * p) :
    (n / d + 1) * (d - d / (2 * c) * (2 * c)) ≤ d / (2 * c) * (2 * c) := by
  have hp : 0 < p := Nat.pos_of_ne_zero (by rintro rfl; omega)
  have hc : 0 < c := Nat.pos_of_ne_zero (by rintro rfl; omega)
  have hquot : n / d < 2 * p := by
    refine Nat.div_lt_of_lt_mul ?_
    nlinarith
  have hrest : d - d / (2 * c) * (2 * c) + 1 ≤ 2 * c := by
    have := Nat.div_add_mod' d (2 * c)
    have := Nat.mod_lt d (by omega : 0 < 2 * c)
    omega
  have htop : 2 ^ 31 ≤ d / (2 * c) := by
    rw [Nat.le_div_iff_mul_le (by omega)]
    have : p * (2 ^ 31 * (2 * c)) ≤ p * d := by nlinarith
    exact Nat.le_of_mul_le_mul_left this hp
  have hfirst : (n / d + 1) * (d - d / (2 * c) * (2 * c)) ≤ 2 * p * (2 * c - 1) :=
    Nat.mul_le_mul (by omega) (by omega)
  have hlast : 2 ^ 31 * (2 * c) ≤ d / (2 * c) * (2 * c) := Nat.mul_le_mul_right _ htop
  have hmid : 2 * p * (2 * c - 1) + 2 * p = 2 ^ 33 := by
    obtain ⟨m, hm⟩ := Nat.exists_eq_add_of_le' (by omega : 1 ≤ 2 * c)
    rw [hm, Nat.add_sub_cancel]
    calc 2 * p * m + 2 * p = 2 * p * (m + 1) := by ring
      _ = 4 * (p * c) := by rw [← hm]; ring
      _ = 2 ^ 33 := by rw [hpc]; norm_num
  rcases (by omega : c = 1 ∨ 2 ≤ c) with rfl | htwo
  · omega
  · omega

theorem toUInt32_high (d : UInt64) : (d >>> 32).toUInt32.toNat = d.toNat / 2 ^ 32 := by
  have := d.toNat_lt
  simp [Nat.shiftRight_eq_div_pow]
  omega

theorem shifted_high {d : UInt64} {s c : ℕ} (hs : s ≤ 31) (w : Shifted d.toNat (2 ^ s) c) :
    ((d <<< UInt64.ofNat s) >>> 32).toUInt32.toNat = d.toNat / (2 * c) := by
  have h64 : (UInt64.ofNat s).toNat = s := UInt64.toNat_ofNat_of_lt' (by unfold UInt64.size; omega)
  rw [toUInt32_high, UInt64.toNat_shiftLeft, h64, Nat.mod_eq_of_lt (by omega : s < 64),
    Nat.shiftLeft_eq, Nat.mod_eq_of_lt w.fits, w.high]

/-- The number of zeros before the divisor. -/
theorem exists_shifted {d : UInt64} (hlarge : 2 ^ 32 ≤ d.toNat) : 
    nlz (d >>> 32).toUInt32 ≤ 31 ∧
    Shifted d.toNat (2 ^ nlz (d >>> 32).toUInt32) (2 ^ (31 - nlz (d >>> 32).toUInt32)) := by
  have hd1 := toUInt32_high d
  have hne : (d >>> 32).toUInt32 ≠ 0 := fun h => by
    rw [h] at hd1
    have : (0 : UInt32).toNat = 0 := rfl
    omega
  have hs := nlz_le hne
  obtain ⟨hlow, hhigh⟩ := nlz_spec hne
  rw [hd1] at hlow hhigh
  refine ⟨hs, .of_high ?_ hlow hhigh⟩
  rw [← pow_add, Nat.add_sub_cancel' hs]

theorem estimate_spec {n d : UInt64} {s c : ℕ} (hs : s ≤ 31) (hc : c = 2 ^ (31 - s)) (w : Shifted d.toNat (2 ^ s) c) :
    ∃ e, divl (n >>> 1) ((d <<< UInt64.ofNat s) >>> 32).toUInt32 = some e ∧
      (e >>> UInt32.ofNat (31 - s)).toUInt64.toNat = n.toNat / (d.toNat / (2 * c) * (2 * c)) := by
  have hv := shifted_high hs w
  have hvlarge := w.high_large
  have hn := n.toNat_lt
  have hhalf : (n >>> 1).toNat = n.toNat / 2 := by simp [Nat.shiftRight_eq_div_pow]
  have hne : ((d <<< UInt64.ofNat s) >>> 32).toUInt32 ≠ 0 := fun h => by
    rw [h] at hv
    have : (0 : UInt32).toNat = 0 := rfl
    omega
  have hfits : (n >>> 1).toNat / ((d <<< UInt64.ofNat s) >>> 32).toUInt32.toNat < 2 ^ 32 := by
    rw [hhalf, hv]
    exact Nat.div_lt_of_lt_mul (by omega)
  obtain ⟨e, he, hev⟩ := divl_spec hne hfits
  refine ⟨e, he, ?_⟩
  have h31 : (UInt32.ofNat (31 - s)).toNat = 31 - s :=
    UInt32.toNat_ofNat_of_lt' (by unfold UInt32.size; omega)
  rw [UInt32.toNat_toUInt64, UInt32.toNat_shiftRight, h31, Nat.mod_eq_of_lt (by omega : 31 - s < 32),
    Nat.shiftRight_eq_div_pow, ← hc, hev, hhalf, hv, Nat.div_div_eq_div_mul, Nat.div_div_eq_div_mul]
  congr 1
  ring

/-- The comparison that corrects the estimate, on machine words. -/
theorem correction_spec {n d q : UInt64} (hpos : 0 < d.toNat) (hle : d.toNat ≤ n.toNat)
    (hcases : q.toNat = n.toNat / d.toNat ∨ q.toNat = n.toNat / d.toNat + 1) :
    (if n - (q - 1) * d < d then q - 1 else q).toNat = n.toNat / d.toNat := by
  have hone : 0 < n.toNat / d.toNat := Nat.div_pos hle hpos
  have hq1 : (1 : UInt64).toNat ≤ q.toNat := by
    show 1 ≤ q.toNat
    omega
  have hpred : (q - 1).toNat = q.toNat - 1 := UInt64.toNat_sub_of_le _ _ (UInt64.le_iff_toNat_le.mpr hq1)
  have hmul : (q.toNat - 1) * d.toNat ≤ n.toNat := by
    calc (q.toNat - 1) * d.toNat ≤ n.toNat / d.toNat * d.toNat := Nat.mul_le_mul_right _ (by omega)
      _ ≤ n.toNat := Nat.div_mul_le_self ..
  have hprod : ((q - 1) * d).toNat = (q.toNat - 1) * d.toNat := by
    rw [UInt64.toNat_mul, hpred, Nat.mod_eq_of_lt (lt_of_le_of_lt hmul n.toNat_lt)]
  have hrest : (n - (q - 1) * d).toNat = n.toNat - (q.toNat - 1) * d.toNat := by
    rw [UInt64.toNat_sub_of_le _ _ (UInt64.le_iff_toNat_le.mpr (by rw [hprod]; exact hmul)), hprod]
  rw [← corrected_quotient hpos hle hcases, apply_ite UInt64.toNat, hpred]
  simp only [UInt64.lt_iff_toNat_lt, hrest]

theorem udiv64_large {n d : UInt64} (hlarge : 2 ^ 32 ≤ d.toNat) :
    ∃ q, udiv64 n d = some q ∧ q.toNat = n.toNat / d.toNat := by
  have hpos : 0 < d.toNat := by omega
  have hhigh : ¬ d >>> 32 = 0 := fun h => by
    have := toUInt32_high d
    rw [h] at this
    have : (0 : UInt64).toUInt32.toNat = 0 := rfl
    omega
  by_cases hlt : n < d
  · refine ⟨0, by rw [udiv64, if_neg hhigh, if_pos hlt]; rfl, ?_⟩
    rw [Nat.div_eq_of_lt (UInt64.lt_iff_toNat_lt.mp hlt)]
    rfl
  have hle : d.toNat ≤ n.toNat := by
    rw [UInt64.lt_iff_toNat_lt] at hlt
    omega
  obtain ⟨hs, w⟩ := exists_shifted hlarge
  obtain ⟨e, he, hq⟩ := estimate_spec (n := n) hs rfl w
  have hcases := div_of_estimate (Nat.mul_pos (by have := w.high_large; omega) (by positivity))
    (Nat.div_mul_le_self d.toNat _) (near_enough w.split n.toNat_lt w.large)
  rw [← hq] at hcases
  refine ⟨_, ?_, correction_spec hpos hle hcases⟩
  rw [udiv64, if_neg hhigh, if_neg hlt]
  simp only [he]
  rfl

/-- Unsigned division. -/
theorem udiv64_spec {n d : UInt64} (hd : d ≠ 0) :
    ∃ q, udiv64 n d = some q ∧ q.toNat = n.toNat / d.toNat := by
  rcases Nat.lt_or_ge d.toNat (2 ^ 32) with h | h
  · exact udiv64_small hd h
  · exact udiv64_large h

/-! ## Signs -/

theorem magnitude (n : Int64) : (if 0 ≤ n then n.toUInt64 else -n.toUInt64).toNat = n.toInt.natAbs := by
  have hcond : n.toInt = if 2 * n.toUInt64.toNat < 2 ^ 64 then (n.toUInt64.toNat : ℤ)
      else (n.toUInt64.toNat : ℤ) - (2 ^ 64 : ℕ) := BitVec.toInt_eq_toNat_cond n.toBitVec
  have hlt := n.toUInt64.toNat_lt
  have hpos : 0 ≤ n ↔ 0 ≤ n.toInt := Int64.le_iff_toInt_le
  have hsize : UInt64.size = 2 ^ 64 := rfl
  rw [apply_ite UInt64.toNat, UInt64.toNat_neg, hsize]
  rcases le_or_gt 0 n.toInt with h | h
  · rw [if_pos (hpos.mpr h)]
    split at hcond <;> omega
  · rw [if_neg (fun h' => absurd (hpos.mp h') (by omega))]
    split at hcond <;> omega

theorem toInt_toInt64 (q : UInt64) : q.toInt64.toInt = (q.toNat : ℤ).bmod (2 ^ 64) :=
  BitVec.toInt_eq_toNat_bmod q.toBitVec

theorem toInt_neg_toInt64 (q : UInt64) : (-q.toInt64).toInt = (-(q.toNat : ℤ)).bmod (2 ^ 64) := by
  rw [Int64.toInt_neg, toInt_toInt64]
  exact Int.bmod_neg_bmod

/-- Division towards zero, by way of the magnitudes. -/
theorem tdiv_of_signs (a b : ℤ) : a.tdiv b =
    if decide (a < 0) = decide (b < 0) then ((a.natAbs / b.natAbs : ℕ) : ℤ)
    else -((a.natAbs / b.natAbs : ℕ) : ℤ) := by
  have hpos : ∀ m k : ℕ, (m : ℤ).tdiv (k : ℤ) = ((m / k : ℕ) : ℤ) := fun _ _ => rfl
  rcases lt_or_ge a 0 with ha | ha <;> rcases lt_or_ge b 0 with hb | hb
  · obtain ⟨m, hm⟩ := Int.eq_ofNat_of_zero_le (by omega : 0 ≤ -a)
    obtain ⟨k, hk⟩ := Int.eq_ofNat_of_zero_le (by omega : 0 ≤ -b)
    obtain ⟨rfl, rfl⟩ : a = -m ∧ b = -k := ⟨by omega, by omega⟩
    rw [if_pos (decide_eq_decide.mpr (iff_of_true ha hb)), Int.neg_tdiv_neg, hpos, Int.natAbs_neg, Int.natAbs_neg]
    rfl
  · obtain ⟨m, hm⟩ := Int.eq_ofNat_of_zero_le (by omega : 0 ≤ -a)
    obtain ⟨k, rfl⟩ := Int.eq_ofNat_of_zero_le hb
    obtain rfl : a = -m := by omega
    rw [if_neg (fun h => hb.not_gt ((decide_eq_decide.mp h).mp ha)), Int.neg_tdiv, hpos, Int.natAbs_neg]
    rfl
  · obtain ⟨m, rfl⟩ := Int.eq_ofNat_of_zero_le ha
    obtain ⟨k, hk⟩ := Int.eq_ofNat_of_zero_le (by omega : 0 ≤ -b)
    obtain rfl : b = -k := by omega
    rw [if_neg (fun h => ha.not_gt ((decide_eq_decide.mp h).mpr hb)), Int.tdiv_neg, hpos, Int.natAbs_neg]
    rfl
  · obtain ⟨m, rfl⟩ := Int.eq_ofNat_of_zero_le ha
    obtain ⟨k, rfl⟩ := Int.eq_ofNat_of_zero_le hb
    rw [if_pos (decide_eq_decide.mpr (iff_of_false ha.not_gt hb.not_gt)), hpos]
    rfl

/-- Signed division. -/
theorem sdiv64_spec {n d : Int64} (hd : d ≠ 0) :
    ∃ q, sdiv64 n d = some q ∧ q.toInt = (n.toInt.tdiv d.toInt).bmod (2 ^ 64) := by
  have hne : (if 0 ≤ d then d.toUInt64 else -d.toUInt64) ≠ 0 := fun h => by
    have := magnitude d
    rw [h] at this
    exact hd (Int64.toInt_inj.mp (Int.natAbs_eq_zero.mp this.symm))
  obtain ⟨q, hq, hv⟩ := udiv64_spec (n := if 0 ≤ n then n.toUInt64 else -n.toUInt64) hne
  rw [magnitude, magnitude] at hv
  have hn0 : n < 0 ↔ n.toInt < 0 := Int64.lt_iff_toInt_lt
  have hd0 : d < 0 ↔ d.toInt < 0 := Int64.lt_iff_toInt_lt
  refine ⟨_, by rw [sdiv64]; simp only [hq]; rfl, ?_⟩
  rw [tdiv_of_signs, apply_ite Int64.toInt, toInt_toInt64, toInt_neg_toInt64, hv]
  simp only [hn0, hd0]
  split <;> rfl

/-! ## Remainders -/

/-- `umod64` has the lower half of the remainder. -/
theorem umod64_spec {n d : UInt64} (hd : d ≠ 0) :
    ∃ r, umod64 n d = some r ∧ r.toNat = n.toNat % d.toNat % 2 ^ 32 := by
  obtain ⟨q, hq, hv⟩ := udiv64_spec (n := n) hd
  refine ⟨(n - d * q).toUInt32, by rw [umod64, hq]; rfl, ?_⟩
  have hle : d.toNat * (n.toNat / d.toNat) ≤ n.toNat := Nat.mul_div_le _ _
  have hprod : (d * q).toNat = d.toNat * (n.toNat / d.toNat) := by
    rw [UInt64.toNat_mul, hv, Nat.mod_eq_of_lt (lt_of_le_of_lt hle n.toNat_lt)]
  have hsub : d * q ≤ n := UInt64.le_iff_toNat_le.mpr (by rwa [hprod])
  rw [UInt64.toNat_toUInt32, UInt64.toNat_sub_of_le _ _ hsub, hprod, Nat.mod_def n.toNat]

/-- `smod64` has the lower half of the remainder. -/
theorem smod64_spec {n d : Int64} (hd : d ≠ 0) :
    ∃ q r, sdiv64 n d = some q ∧ smod64 n d = some r ∧ (n - d * q).toInt = n.toInt.tmod d.toInt ∧
      r.toInt = (n.toInt.tmod d.toInt).bmod (2 ^ 32) := by
  obtain ⟨q, hq, hv⟩ := sdiv64_spec (n := n) hd
  have hrest : (n - d * q).toInt = n.toInt.tmod d.toInt := by
    rw [Int64.toInt_sub, Int64.toInt_mul, hv, Int.mul_bmod_bmod, Int.sub_bmod_bmod,
      ← Int.tmod_def, ← Int64.toInt_mod]
    exact Int64.toInt_bmod _
  refine ⟨q, (n - d * q).toInt32, hq, by rw [smod64, hq]; rfl, hrest, ?_⟩
  rw [Int64.toInt_toInt32, hrest]

/-- A number is the one made of its lower half exactly when it fits there. -/
theorem bmod_eq_iff (x : ℤ) : x.bmod (2 ^ 32) = x ↔ -2 ^ 31 ≤ x ∧ x < 2 ^ 31 := by
  constructor
  · intro h
    have hlow := Int.le_bmod (x := x) (m := 2 ^ 32) (by decide)
    have hhigh := Int.bmod_lt (x := x) (m := 2 ^ 32) (by decide)
    rw [h] at hlow hhigh
    norm_num at hlow hhigh ⊢
    omega
  · rintro ⟨hlow, hhigh⟩
    refine Int.bmod_eq_of_le ?_ ?_ <;> norm_num at hlow hhigh ⊢ <;> omega

/-! ## The results -/

/-- **Division of 64-bit numbers** never traps.  The quotient is rounded down, and that of signed
numbers towards zero; only one of these has more than 64 bits. -/
theorem division_correct :
    (∀ n d : UInt64, d ≠ 0 → ∃ q, udiv64 n d = some q ∧ q.toNat = n.toNat / d.toNat) ∧
      ∀ n d : Int64, d ≠ 0 → ∃ q, sdiv64 n d = some q ∧
        q.toInt = (n.toInt.tdiv d.toInt).bmod (2 ^ 64) ∧
        (¬ (n = Int64.minValue ∧ d = -1) → q.toInt = n.toInt.tdiv d.toInt) := by
  refine ⟨fun n d hd => udiv64_spec hd, fun n d hd => ?_⟩
  obtain ⟨q, hq, hv⟩ := sdiv64_spec (n := n) hd
  refine ⟨q, hq, hv, fun hne => ?_⟩
  have hdiv : q = n / d := Int64.toInt_inj.mp (by rw [hv, Int64.toInt_div])
  rw [hdiv]
  by_cases hn : n = Int64.minValue
  · exact Int64.toInt_div_of_ne_right _ _ fun h => hne ⟨hn, h⟩
  · exact Int64.toInt_div_of_ne_left _ _ hn

theorem division_correct_example :
    (∃ q, udiv64 0x8000000000000000 0x200000001 = some q ∧
      q.toNat = (0x8000000000000000 : UInt64).toNat / (0x200000001 : UInt64).toNat) ∧
      ∃ q, sdiv64 (-7) 2 = some q ∧ q.toInt = (-7 : Int64).toInt.tdiv (2 : Int64).toInt := by
  refine ⟨division_correct.1 _ _ (by decide), ?_⟩
  obtain ⟨q, hq, -, hv⟩ := division_correct.2 (-7) 2 (by decide)
  exact ⟨q, hq, hv (by decide)⟩

/-- **The remainder is right as far as 32 bits hold it**, with the sign in signed division. -/
theorem remainder_correct_iff {n d : UInt64} {m e : Int64} (hd : d ≠ 0) (he : e ≠ 0) :
    ((∃ q r, udivdi3 n d = some q ∧ umoddi3 n d = some r ∧
        n.toNat = d.toNat * q.toNat + r.toNat ∧ r.toNat = n.toNat % d.toNat) ↔
      n.toNat % d.toNat < 2 ^ 32) ∧
    ((∃ q r, divdi3 m e = some q ∧ moddi3 m e = some r ∧
        m = e * q + r ∧ r.toInt = m.toInt.tmod e.toInt) ↔
      -2 ^ 31 ≤ m.toInt.tmod e.toInt ∧ m.toInt.tmod e.toInt < 2 ^ 31) := by
  constructor
  · obtain ⟨q, hq, hv⟩ := udiv64_spec (n := n) hd
    obtain ⟨r, hr, hrv⟩ := umod64_spec (n := n) hd
    have hwide : umoddi3 n d = some r.toUInt64 := by rw [umoddi3, hr]; rfl
    constructor
    · rintro ⟨q', r', -, hr', -, hmod⟩
      obtain rfl : r.toUInt64 = r' := Option.some.inj (hwide.symm.trans hr')
      rw [← hmod]
      exact r.toNat_lt
    · intro hlt
      rw [Nat.mod_eq_of_lt hlt] at hrv
      refine ⟨q, r.toUInt64, hq, hwide, ?_, hrv⟩
      rw [hv, UInt32.toNat_toUInt64, hrv, Nat.div_add_mod]
  · obtain ⟨q, r, hq, hr, hrest, hrv⟩ := smod64_spec (n := m) he
    have hwide : moddi3 m e = some r.toInt64 := by rw [moddi3, hr]; rfl
    rw [← bmod_eq_iff, ← hrv, ← Int32.toInt_toInt64]
    constructor
    · rintro ⟨q', r', -, hr', -, hmod⟩
      obtain rfl : r.toInt64 = r' := Option.some.inj (hwide.symm.trans hr')
      exact hmod
    · intro hmod
      refine ⟨q, r.toInt64, hq, hwide, ?_, hmod⟩
      have hr64 : r.toInt64 = m - e * q := Int64.toInt_inj.mp (hmod.trans hrest.symm)
      rw [hr64, Int64.add_comm, Int64.sub_add_cancel]

theorem remainder_correct_iff_example :
    ((∃ q r, udivdi3 100 7 = some q ∧ umoddi3 100 7 = some r ∧
        (100 : UInt64).toNat = (7 : UInt64).toNat * q.toNat + r.toNat ∧
        r.toNat = (100 : UInt64).toNat % (7 : UInt64).toNat) ↔
      (100 : UInt64).toNat % (7 : UInt64).toNat < 2 ^ 32) ∧
    ((∃ q r, divdi3 (-100) 7 = some q ∧ moddi3 (-100) 7 = some r ∧ (-100 : Int64) = 7 * q + r ∧
        r.toInt = (-100 : Int64).toInt.tmod (7 : Int64).toInt) ↔
      -2 ^ 31 ≤ (-100 : Int64).toInt.tmod (7 : Int64).toInt ∧
        (-100 : Int64).toInt.tmod (7 : Int64).toInt < 2 ^ 31) :=
  remainder_correct_iff (by decide) (by decide)

/-- `2^32` divided by `2^33` leaves `2^32`, but `__umoddi3` says it leaves nothing. -/
theorem remainder_lost :
    ¬ ∃ q r, udivdi3 0x100000000 0x200000000 = some q ∧ umoddi3 0x100000000 0x200000000 = some r ∧
      (0x100000000 : UInt64).toNat = (0x200000000 : UInt64).toNat * q.toNat + r.toNat ∧
      r.toNat = (0x100000000 : UInt64).toNat % (0x200000000 : UInt64).toNat := by
  have hr : umoddi3 0x100000000 0x200000000 = some 0 := by decide +kernel
  rintro ⟨q, r, -, hr', -, hmod⟩
  obtain rfl : 0 = r := Option.some.inj (hr.symm.trans hr')
  revert hmod
  decide

end Pintos.Numbers
