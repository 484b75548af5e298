import Pintos.Strings.Strtok

/-!
# `memcpy` and `memmove`

`memcpy` and `memmove` of `lib/string.c`, with the loops that move the pointers they were given.
`memmove` chooses its loop by the order of the two addresses, so that no byte is overwritten
before it has been read; the loop that goes upwards leaves `dst` behind the block, and `memmove`
returns `dst` as the loop has left it, where `memcpy` returns the pointer it was called with.

* **`memcpy_run`** — what `memcpy` copies, and what it returns.
* **`memmove_run`** — the bytes arrive whatever the overlap; the pointer that is returned.
* **`memmove_returns_iff`** — when `memmove` does what it says.
-/

namespace Pintos.Strings

open Lib

/-- The loop that goes upwards: `while (size-- > 0) *dst++ = *src++`.  What `dst` is then. -/
def copyUp : ℕ → ℕ → ℕ → StringCode ℕ
  | 0, dst, _ => pure dst
  | size + 1, dst, src => do
      change fun mem => Function.update mem dst (mem src)
      copyUp size (dst + 1) (src + 1)

/-- The loop that goes downwards: `while (size-- > 0) *--dst = *--src`.  What `dst` is then. -/
def copyDown : ℕ → ℕ → ℕ → StringCode ℕ
  | 0, dst, _ => pure dst
  | size + 1, dst, src => do
      change fun mem => Function.update mem (dst - 1) (mem (src - 1))
      copyDown size (dst - 1) (src - 1)

/-- `memcpy`. -/
def memcpy (dst src size : ℕ) : StringCode ℕ := do
  stringAssert (dst ≠ 0 ∨ size = 0)
  stringAssert (src ≠ 0 ∨ size = 0)
  let _ ← copyUp size dst src
  return dst

/-- `memmove`. -/
def memmove (dst src size : ℕ) : StringCode ℕ := do
  stringAssert (dst ≠ 0 ∨ size = 0)
  stringAssert (src ≠ 0 ∨ size = 0)
  if dst < src then copyUp size dst src
  else copyDown size (dst + size) (src + size)

/-- Memory once the block at `src` stands at `dst`. -/
def moved (mem : ℕ → UInt8) (dst src size : ℕ) : ℕ → UInt8 :=
  fun a => if dst ≤ a ∧ a < dst + size then mem (src + (a - dst)) else mem a

/-- `mem'` is `mem` with a copy of the block at `src` at `dst`, and nothing else is changed. -/
structure Moved (mem mem' : ℕ → UInt8) (dst src size : ℕ) : Prop where
  copied : ∀ i < size, mem' (dst + i) = mem (src + i)
  others : ∀ a, a < dst ∨ dst + size ≤ a → mem' a = mem a

section

variable {mem : ℕ → UInt8} {dst src size : ℕ}

theorem moved_zero : moved mem dst src 0 = mem := by
  funext a
  exact if_neg (by omega)

theorem moved_spec : Moved mem (moved mem dst src size) dst src size := by
  refine ⟨fun i hi => ?_, fun a ha => ?_⟩
  · rw [moved, if_pos (by omega), Nat.add_sub_cancel_left]
  · rw [moved, if_neg (by omega)]

/-- The first byte of a block, and then the others, when they are not behind it. -/
theorem moved_first (h : dst ≤ src) :
    moved (Function.update mem dst (mem src)) (dst + 1) (src + 1) size = moved mem dst src (size + 1) := by
  funext a
  simp only [moved]
  rcases Nat.lt_trichotomy a dst with hlt | rfl | hgt
  · rw [if_neg (by omega), if_neg (by omega), Function.update_of_ne (by omega)]
  · rw [if_neg (by omega), if_pos (by omega), Function.update_self, Nat.sub_self, Nat.add_zero]
  · by_cases hin : a < dst + (size + 1)
    · -- the byte that is read lies above `dst`, so that the first step has not changed it
      rw [if_pos (by omega), if_pos (by omega), Function.update_of_ne (by omega)]
      congr 1
      omega
    · rw [if_neg (by omega), if_neg (by omega), Function.update_of_ne (by omega)]

/-- The last byte of a block, and then the others, when they are not above it. -/
theorem moved_last (h : src ≤ dst) :
    moved (Function.update mem (dst + size) (mem (src + size))) dst src size =
      moved mem dst src (size + 1) := by
  funext a
  simp only [moved]
  rcases Nat.lt_trichotomy a (dst + size) with hlt | rfl | hgt
  · by_cases hin : dst ≤ a
    · rw [if_pos (by omega), if_pos (by omega), Function.update_of_ne (by omega)]
    · rw [if_neg (by omega), if_neg (by omega), Function.update_of_ne (by omega)]
  · rw [if_neg (by omega), if_pos (by omega), Function.update_self, Nat.add_sub_cancel_left]
  · rw [if_neg (by omega), if_neg (by omega), Function.update_of_ne (by omega)]

/-- **Upwards**, into a block that does not begin above the other. -/
theorem copyUp_run (h : dst ≤ src) : copyUp size dst src mem = .ok (dst + size) (moved mem dst src size) := by
  induction size generalizing mem dst src with
  | zero =>
      rw [moved_zero]
      rfl
  | succ size ih =>
      rw [copyUp, change_bind, ih (by omega), moved_first h]
      congr 1
      omega

/-- **Downwards**, into a block that does not begin below the other. -/
theorem copyDown_run (h : src ≤ dst) :
    copyDown size (dst + size) (src + size) mem = .ok dst (moved mem dst src size) := by
  induction size generalizing mem with
  | zero =>
      rw [moved_zero]
      rfl
  | succ size ih =>
      rw [copyDown, change_bind, ← Nat.add_assoc, ← Nat.add_assoc, Nat.add_sub_cancel,
        Nat.add_sub_cancel, ih, moved_last h]

/-- The two `ASSERT`s. -/
theorem stringAssert_pointer {p : ℕ} (h : p ≠ 0 ∨ size = 0) :
    stringAssert (decide (p ≠ 0 ∨ size = 0)) mem = .ok () mem := by
  rw [decide_eq_true h]
  rfl

/-- **`memcpy`** to a block that does not begin above the other: the pointer it was given. -/
theorem memcpy_run (hdst : dst ≠ 0 ∨ size = 0) (hsrc : src ≠ 0 ∨ size = 0) (h : dst ≤ src) :
    memcpy dst src size mem = .ok dst (moved mem dst src size) := by
  rw [memcpy, bind_of_ok (stringAssert_pointer hdst), bind_of_ok (stringAssert_pointer hsrc),
    bind_of_ok (copyUp_run h)]
  rfl

/-- **`memmove`**: the block arrives in all cases, and what is returned depends on the loop. -/
theorem memmove_run (hdst : dst ≠ 0 ∨ size = 0) (hsrc : src ≠ 0 ∨ size = 0) :
    memmove dst src size mem =
      .ok (if dst < src then dst + size else dst) (moved mem dst src size) := by
  rw [memmove, bind_of_ok (stringAssert_pointer hdst), bind_of_ok (stringAssert_pointer hsrc)]
  by_cases h : dst < src
  · rw [if_pos h, if_pos h, copyUp_run h.le]
  · rw [if_neg h, if_neg h, copyDown_run (not_lt.mp h)]

/-- A null pointer to a block that is not empty fails an `ASSERT`. -/
theorem memmove_null (h : ¬ ((dst ≠ 0 ∨ size = 0) ∧ (src ≠ 0 ∨ size = 0))) :
    memmove dst src size mem = .error .assertFailed mem := by
  by_cases hdst : dst ≠ 0 ∨ size = 0
  · have hsrc : stringAssert (decide (src ≠ 0 ∨ size = 0)) mem = .error .assertFailed mem := by
      rw [decide_eq_false fun hsrc => h ⟨hdst, hsrc⟩]
      rfl
    rw [memmove, bind_of_ok (stringAssert_pointer hdst), bind_of_error hsrc]
  · have hstop : stringAssert (decide (dst ≠ 0 ∨ size = 0)) mem = .error .assertFailed mem := by
      rw [decide_eq_false hdst]
      rfl
    rw [memmove, bind_of_error hstop]

end

/-- **`memmove` leaves the block at `dst` and returns `dst`** if and only if the block is empty,
or the pointers are not null and `dst` does not lie below `src`. -/
theorem memmove_returns_iff (mem : ℕ → UInt8) (dst src size : ℕ) :
    (∃ mem', memmove dst src size mem = .ok dst mem' ∧ Moved mem mem' dst src size) ↔
      size = 0 ∨ dst ≠ 0 ∧ src ≠ 0 ∧ src ≤ dst := by
  by_cases h : (dst ≠ 0 ∨ size = 0) ∧ (src ≠ 0 ∨ size = 0)
  · rw [memmove_run h.1 h.2]
    constructor
    · rintro ⟨mem', hrun, -⟩
      injection hrun with hptr
      by_cases hlt : dst < src
      · rw [if_pos hlt] at hptr
        omega
      · omega
    · intro hcond
      refine ⟨_, ?_, moved_spec⟩
      congr 1
      split
      · next hlt => omega
      · rfl
  · rw [memmove_null h]
    constructor
    · rintro ⟨mem', hrun, -⟩
      cases hrun
    · omega

/-- One byte moved down comes back with the pointer behind it. -/
theorem memmove_loses_dst : ¬ ∀ (mem : ℕ → UInt8) (dst src size : ℕ), dst ≠ 0 → src ≠ 0 →
    ∃ mem', memmove dst src size mem = .ok dst mem' ∧ Moved mem mem' dst src size := by
  intro h
  obtain ⟨mem', hrun, -⟩ := h (fun _ => 0) 16 17 1 (by decide) (by decide)
  rw [memmove_run (.inl (by decide)) (.inl (by decide))] at hrun
  injection hrun with hptr
  exact absurd hptr (by decide)

end Pintos.Strings
