import Mathlib.Data.List.GetD
import Pintos.Lib.Block

/-!
# Bytes in memory

Memory is a byte for every address.  A word lies there as four bytes, lowest first; a string as
its characters and a zero byte behind them.

* **`IsString.suffix`**, **`IsString.congr`** — parts of a string, and what a string depends on.
* **`wordAtAddr_putWord`** — a word is read back from where it was stored.
* **`putAll_of_notMem`** — stores do not change other addresses.
* **`putAll_map`** — stores that go through a map of addresses.
-/

namespace Lib

open Block

/-! ## Strings -/

/-- The string `s` lies at address `a`. -/
structure IsString (mem : ℕ → UInt8) (a : ℕ) (s : List UInt8) : Prop where
  chars : ∀ i ≤ s.length, mem (a + i) = s.getD i 0
  nonzero : 0 ∉ s

namespace IsString

variable {mem mem' : ℕ → UInt8} {a : ℕ} {s t : List UInt8} {c : UInt8}

theorem terminator (h : IsString mem a s) : mem (a + s.length) = 0 := by
  rw [h.chars _ le_rfl, List.getD_eq_default _ _ le_rfl]

theorem nil_iff : IsString mem a [] ↔ mem a = 0 :=
  ⟨fun h => h.terminator, fun h => ⟨fun i hi => by rw [Nat.le_zero.mp hi, Nat.add_zero, h]; rfl, by simp⟩⟩

theorem cons_iff : IsString mem a (c :: s) ↔ mem a = c ∧ c ≠ 0 ∧ IsString mem (a + 1) s := by
  constructor
  · intro h
    refine ⟨by simpa using h.chars 0 (Nat.zero_le _), fun e => h.nonzero (by simp [e]), fun i hi => ?_,
      fun hm => h.nonzero (List.mem_cons_of_mem _ hm)⟩
    have := h.chars (i + 1) (by simpa using hi)
    rwa [List.getD_cons_succ, ← Nat.add_assoc, Nat.add_right_comm] at this
  · rintro ⟨hc, hne, h⟩
    refine ⟨fun i hi => ?_, fun hm => (List.mem_cons.mp hm).elim (fun e => hne e.symm) h.nonzero⟩
    cases i with
    | zero => simpa using hc
    | succ i =>
        rw [List.getD_cons_succ, ← h.chars i (by simpa using hi)]
        congr 1
        omega

/-- The end of a string is a string. -/
theorem suffix (h : IsString mem a (s ++ t)) : IsString mem (a + s.length) t := by
  induction s generalizing a with
  | nil => exact h
  | cons c s ih =>
      rw [List.length_cons, show a + (s.length + 1) = a + 1 + s.length by omega]
      exact ih (cons_iff.mp h).2.2

/-- A string depends on its own bytes. -/
theorem congr (h : IsString mem a s) (same : ∀ i ≤ s.length, mem' (a + i) = mem (a + i)) :
    IsString mem' a s :=
  ⟨fun i hi => (same i hi).trans (h.chars i hi), h.nonzero⟩

/-- The beginning of a string, cut off with a zero byte. -/
theorem cut (h : IsString mem a (s ++ t)) :
    IsString (Function.update mem (a + s.length) 0) a s := by
  refine ⟨fun i hi => ?_, fun hm => h.nonzero (List.mem_append_left _ hm)⟩
  rcases Nat.lt_or_eq_of_le hi with hlt | rfl
  · have := h.chars i (by rw [List.length_append]; omega)
    rwa [Function.update_of_ne (by omega), ← List.getD_append s t 0 i hlt]
  · rw [Function.update_self, List.getD_eq_default _ _ le_rfl]

end IsString

/-! ## Words -/

/-- The word at address `a`. -/
def wordAtAddr (mem : ℕ → UInt8) (a : ℕ) : ℕ :=
  (mem a).toNat + 256 * (mem (a + 1)).toNat + 65536 * (mem (a + 2)).toNat +
    16777216 * (mem (a + 3)).toNat

/-- Memory with a word stored at address `a`. -/
def putWord (mem : ℕ → UInt8) (a v : ℕ) : ℕ → UInt8 :=
  fun b => if a ≤ b ∧ b < a + 4 then wordByte v (b - a) else mem b

section Words

variable {mem mem' : ℕ → UInt8} {a b v : ℕ}

@[simp] theorem wordByte_zero (k : ℕ) : wordByte 0 k = 0 := by simp [wordByte]

theorem wordByte_mod_256 (v : ℕ) : wordByte (v % 256) 0 = UInt8.ofNat v := by
  apply UInt8.toNat_inj.mp
  simp [wordByte]

theorem wordByte_of_lt {k : ℕ} (h : v < 256) (hk : 0 < k) : wordByte v k = 0 := by
  have hle : 256 ^ 1 ≤ 256 ^ k := Nat.pow_le_pow_right (by omega) hk
  rw [wordByte, Nat.div_eq_of_lt (by omega)]
  rfl

theorem wordAtAddr_congr (h : ∀ k < 4, mem' (a + k) = mem (a + k)) :
    wordAtAddr mem' a = wordAtAddr mem a := by
  have h0 := h 0 (by omega)
  simp only [Nat.add_zero] at h0
  simp only [wordAtAddr, h0, h 1 (by omega), h 2 (by omega), h 3 (by omega)]

/-- The word at an address, from its four bytes. -/
theorem wordAtAddr_of_bytes (h : ∀ k < 4, mem (a + k) = wordByte v k) (hv : v < 2 ^ 32) :
    wordAtAddr mem a = v := by
  have h0 := h 0 (by omega)
  simp only [Nat.add_zero] at h0
  rw [wordAtAddr, h0, h 1 (by omega), h 2 (by omega), h 3 (by omega)]
  exact wordByte_sum hv

/-- **A word is read back from where it was stored.** -/
theorem wordAtAddr_putWord (hv : v < 2 ^ 32) : wordAtAddr (putWord mem a v) a = v :=
  wordAtAddr_of_bytes (fun k hk => by rw [putWord, if_pos (by omega), Nat.add_sub_cancel_left]) hv

end Words

/-! ## Stores -/

/-- Memory after some stores, first one first. -/
def putAll (mem : ℕ → UInt8) (stores : List (ℕ × UInt8)) : ℕ → UInt8 :=
  stores.foldl (fun mem p => Function.update mem p.1 p.2) mem

section Stores

variable {mem mem' : ℕ → UInt8} {s t : List (ℕ × UInt8)} {a : ℕ}

@[simp] theorem putAll_nil : putAll mem [] = mem := rfl

@[simp] theorem putAll_cons (p : ℕ × UInt8) :
    putAll mem (p :: s) = putAll (Function.update mem p.1 p.2) s := rfl

theorem putAll_append : putAll mem (s ++ t) = putAll (putAll mem s) t := List.foldl_append ..

/-- **Stores do not change other addresses.** -/
theorem putAll_of_notMem (h : ∀ p ∈ s, p.1 ≠ a) : putAll mem s a = mem a := by
  induction s generalizing mem with
  | nil => rfl
  | cons p s ih =>
      rw [putAll_cons, ih fun q hq => h q (List.mem_cons_of_mem _ hq),
        Function.update_of_ne (h p List.mem_cons_self).symm]

/-- What is at an address after some stores depends on what was there. -/
theorem putAll_congr (h : mem' a = mem a) : putAll mem' s a = putAll mem s a := by
  induction s generalizing mem mem' with
  | nil => exact h
  | cons p s ih =>
      rw [putAll_cons, putAll_cons]
      refine ih ?_
      by_cases ha : a = p.1
      · rw [ha, Function.update_self, Function.update_self]
      · rw [Function.update_of_ne ha, Function.update_of_ne ha, h]

/-- Stores, seen through a map of addresses. -/
theorem putAll_map {f : ℕ → ℕ} (inj : ∀ p ∈ s, f p.1 = f a → p.1 = a) :
    putAll mem (s.map fun p => (f p.1, p.2)) (f a) = putAll (fun b => mem (f b)) s a := by
  induction s generalizing mem with
  | nil => rfl
  | cons p s ih =>
      rw [List.map_cons, putAll_cons, putAll_cons, ih fun q hq => inj q (List.mem_cons_of_mem _ hq)]
      refine putAll_congr ?_
      by_cases ha : p.1 = a
      · rw [ha, Function.update_self, Function.update_self]
      · have hne : f a ≠ f p.1 := fun e => ha (inj p List.mem_cons_self e.symm)
        rw [Function.update_of_ne hne, Function.update_of_ne (Ne.symm ha)]

end Stores

end Lib
