import Mathlib.Data.List.GetD
import Pintos.Lib.Block
import Pintos.Lib.Numerals

/-!
# `format_integer`

The integer conversions of `lib/stdio.c`.  The digits of the value are put into a buffer of 64
characters from the lowest to the highest, with commas between the groups; zeros fill it up to
the precision, as far as there is room; and then the field is written with its padding before the
sign, behind the prefix or at the end.

Characters go to a callback `output` together with a state `aux`, as in the source.  The buffer is
a list with the character written last in front.

* **`formatInteger_run`** — the text that is written; the buffer is never overrun.
* **`formatInteger_exact`** — what the text consists of.
-/

namespace Pintos.Stdio

open Lib

/-- How the formatter may go wrong: a character behind the end of the format is read, the buffer
is overrun, or `fuel` is too small. -/
inductive PrintfFault where
  | pastEnd
  | overrun
  | unending
deriving DecidableEq, Repr

/-- A character. -/
def chr (c : Char) : UInt8 := UInt8.ofNat c.toNat

/-- The flags of a conversion. -/
structure Flags where
  minus : Bool := false
  plus : Bool := false
  space : Bool := false
  pound : Bool := false
  zero : Bool := false
  group : Bool := false
deriving DecidableEq, Repr

/-- The type of the argument of a conversion. -/
inductive ArgType where
  | char
  | short
  | int
  | intmax
  | long
  | longlong
  | ptrdifft
  | sizet
deriving DecidableEq, Repr

/-- `struct printf_conversion`. -/
structure PrintfConversion where
  flags : Flags
  width : ℤ
  precision : ℤ
  type : ArgType
deriving DecidableEq, Repr

/-- `struct integer_base`. -/
structure IntegerBase where
  base : ℕ
  digits : List UInt8
  x : UInt8
  group : ℕ
deriving DecidableEq, Repr

def baseD : IntegerBase := ⟨10, ['0', '1', '2', '3', '4', '5', '6', '7', '8', '9'].map chr, 0, 3⟩

def baseO : IntegerBase := ⟨8, ['0', '1', '2', '3', '4', '5', '6', '7'].map chr, 0, 3⟩

def baseX : IntegerBase :=
  ⟨16, ['0', '1', '2', '3', '4', '5', '6', '7', '8', '9', 'a', 'b', 'c', 'd', 'e', 'f'].map chr, chr 'x', 4⟩

/-- `base_X`. -/
def baseUpperX : IntegerBase :=
  ⟨16, ['0', '1', '2', '3', '4', '5', '6', '7', '8', '9', 'A', 'B', 'C', 'D', 'E', 'F'].map chr, chr 'X', 4⟩

@[simp] theorem ok_bind {α β : Type} (a : α) (f : α → Except PrintfFault β) : (.ok a >>= f) = f a := rfl

@[simp] theorem error_bind {α β : Type} (e : PrintfFault) (f : α → Except PrintfFault β) :
    (.error e >>= f) = .error e := rfl

/-! ## The code -/

/-- `sizeof buf`. -/
def sizeofBuf : ℕ := 64

/-- `*cp++ = ch`. -/
def push (ch : UInt8) (buf : List UInt8) : Except PrintfFault (List UInt8) :=
  if buf.length < sizeofBuf then .ok (ch :: buf) else .error .overrun

/-- The loop that accumulates digits.  Each round writes at least one, so that the buffer has been
overrun after `sizeofBuf` rounds. -/
def accumulate (b : IntegerBase) (group : Bool) : ℕ → ℕ → ℕ → List UInt8 → Except PrintfFault (List UInt8)
  | 0, value, _, buf => if 0 < value then .error .overrun else .ok buf
  | n + 1, value, digitCnt, buf =>
      if 0 < value then do
        let buf ← if group ∧ 0 < digitCnt ∧ digitCnt % b.group = 0 then push (chr ',') buf else .ok buf
        let buf ← push (b.digits.getD (value % b.base) 0) buf
        accumulate b group n (value / b.base) (digitCnt + 1) buf
      else .ok buf

/-- The loop that appends zeros. -/
def appendZeros (precision : ℤ) : ℕ → List UInt8 → Except PrintfFault (List UInt8)
  | 0, _ => .error .unending
  | n + 1, buf =>
      if (buf.length : ℤ) < precision ∧ buf.length < sizeofBuf - 1 then do
        let buf ← push (chr '0') buf
        appendZeros precision n buf
      else .ok buf

/-- The zero that `#` asks for in base 8. -/
def octalZero (b : IntegerBase) (c : PrintfConversion) (buf : List UInt8) :
    Except PrintfFault (List UInt8) :=
  if c.flags.pound ∧ b.base = 8 ∧ buf.head? ≠ some (chr '0') then push (chr '0') buf else .ok buf

/-- The sign character, or 0. -/
def signOf (c : PrintfConversion) (isSigned negative : Bool) : UInt8 :=
  if isSigned then
    if c.flags.plus then if negative then chr '-' else chr '+'
    else if c.flags.space then if negative then chr '-' else chr ' '
    else if negative then chr '-' else 0
  else 0

section

variable {σ : Type}

/-- `output_dup`. -/
def outputDup (ch : UInt8) : ℕ → (UInt8 → σ → σ) → σ → σ
  | 0, _, aux => aux
  | cnt + 1, output, aux => outputDup ch cnt output (output ch aux)

/-- The loop that writes the buffer. -/
def outputBuf : List UInt8 → (UInt8 → σ → σ) → σ → σ
  | [], _, aux => aux
  | ch :: buf, output, aux => outputBuf buf output (output ch aux)

/-- `format_integer`. -/
def formatInteger (value : UInt64) (isSigned negative : Bool) (b : IntegerBase) (c : PrintfConversion)
    (output : UInt8 → σ → σ) (aux : σ) : Except PrintfFault σ := do
  let sign := signOf c isSigned negative
  let x := if c.flags.pound ∧ value ≠ 0 then b.x else 0
  let buf ← accumulate b c.flags.group sizeofBuf value.toNat 0 []
  let precision := if c.precision < 0 then 1 else c.precision
  let buf ← appendZeros precision sizeofBuf buf
  let buf ← octalZero b c buf
  let padCnt := wrap32 (c.width - buf.length - (if x ≠ 0 then 2 else 0) - (if sign ≠ 0 then 1 else 0))
  let padCnt := if padCnt < 0 then 0 else padCnt.toNat
  let aux := if ¬ c.flags.minus ∧ ¬ c.flags.zero then outputDup (chr ' ') padCnt output aux else aux
  let aux := if sign ≠ 0 then output sign aux else aux
  let aux := if x ≠ 0 then output x (output (chr '0') aux) else aux
  let aux := if c.flags.zero then outputDup (chr '0') padCnt output aux else aux
  let aux := outputBuf buf output aux
  let aux := if c.flags.minus then outputDup (chr ' ') padCnt output aux else aux
  return aux

/-! ## Texts -/

/-- The characters of `text`, one after the other. -/
def emit (output : UInt8 → σ → σ) (text : List UInt8) (aux : σ) : σ :=
  text.foldl (fun aux ch => output ch aux) aux

variable {output : UInt8 → σ → σ} {aux : σ}

@[simp] theorem emit_nil : emit output [] aux = aux := rfl

@[simp] theorem emit_cons (ch : UInt8) (text : List UInt8) :
    emit output (ch :: text) aux = emit output text (output ch aux) := rfl

theorem emit_append (text text' : List UInt8) :
    emit output (text ++ text') aux = emit output text' (emit output text aux) := List.foldl_append

theorem outputDup_run (ch : UInt8) (cnt : ℕ) (aux : σ) :
    outputDup ch cnt output aux = emit output (List.replicate cnt ch) aux := by
  induction cnt generalizing aux with
  | zero => rfl
  | succ cnt ih => exact ih _

theorem outputBuf_run (buf : List UInt8) (aux : σ) : outputBuf buf output aux = emit output buf aux := by
  induction buf generalizing aux with
  | nil => rfl
  | cons ch buf ih => exact ih _

/-- The text that a callback which keeps all characters has kept. -/
theorem emit_record (text out : List UInt8) : emit (fun ch out => out ++ [ch]) text out = out ++ text := by
  induction text generalizing out with
  | nil => simp
  | cons ch text ih => rw [emit_cons, ih, List.append_assoc, List.singleton_append]

end

/-! ## The buffer -/

/-- What `format_integer` relies on in a base. -/
structure IntegerBase.Sound (b : IntegerBase) : Prop where
  base : 8 ≤ b.base
  group : 3 ≤ b.group
  digits : ∀ d < b.base, b.digits.idxOf (b.digits.getD d 0) = d
  length : b.digits.length = b.base
  comma : chr ',' ∉ b.digits

/-- The four bases of the source. -/
def bases : List IntegerBase := [baseD, baseO, baseX, baseUpperX]

theorem sound_of_mem {b : IntegerBase} (h : b ∈ bases) : b.Sound := by
  simp only [bases, List.mem_cons, List.not_mem_nil, or_false] at h
  rcases h with rfl | rfl | rfl | rfl
  · exact ⟨by decide, by decide, by decide, by decide, by decide⟩
  · exact ⟨by decide, by decide, by decide, by decide, by decide⟩
  · exact ⟨by decide, by decide, by decide, by decide, by decide⟩
  · exact ⟨by decide, by decide, by decide, by decide, by decide⟩

/-- The characters of the digits of `value`, the lowest first. -/
def digitChars (b : IntegerBase) (value : ℕ) : List UInt8 :=
  (Nat.digits b.base value).map fun d => b.digits.getD d 0

/-- The digits of `value` with commas, as they are written. -/
def digitText (b : IntegerBase) (group : Bool) (value : ℕ) : List UInt8 :=
  (if group then separate (chr ',') b.group 0 (digitChars b value) else digitChars b value).reverse

/-- The zeros before them. -/
def zeroCount (b : IntegerBase) (c : PrintfConversion) (value : ℕ) : ℕ :=
  let digits := digitText b c.flags.group value
  let zeros := (min (if c.precision < 0 then 1 else c.precision) 63).toNat - digits.length
  if c.flags.pound ∧ b.base = 8 ∧ (List.replicate zeros (chr '0') ++ digits).head? ≠ some (chr '0')
  then zeros + 1 else zeros

/-- What the buffer holds at the end, as it is written. -/
def bufferText (b : IntegerBase) (c : PrintfConversion) (value : ℕ) : List UInt8 :=
  List.replicate (zeroCount b c value) (chr '0') ++ digitText b c.flags.group value

namespace IntegerBase.Sound

variable {b : IntegerBase} {c : PrintfConversion} {value : ℕ} {buf : List UInt8}

theorem one_lt (h : b.Sound) : 1 < b.base := lt_of_lt_of_le (by decide) h.base

theorem digitChars_mem (h : b.Sound) {ch : UInt8} (hch : ch ∈ digitChars b value) : ch ∈ b.digits := by
  obtain ⟨d, hd, rfl⟩ := List.mem_map.mp hch
  have hlt : d < b.digits.length := by
    rw [h.length]
    exact Nat.digits_lt_base h.one_lt hd
  rw [List.getD_eq_getElem _ _ hlt]
  exact List.getElem_mem hlt

theorem comma_notMem (h : b.Sound) : chr ',' ∉ digitChars b value := fun hm => h.comma (h.digitChars_mem hm)

/-- A 64-bit value has at most 22 digits. -/
theorem length_digitChars (h : b.Sound) (hv : value < 2 ^ 64) : (digitChars b value).length ≤ 22 := by
  rw [digitChars, List.length_map, Nat.digits_length_le_iff h.one_lt]
  calc value < 2 ^ 64 := hv
    _ ≤ 8 ^ 22 := by norm_num
    _ ≤ b.base ^ 22 := Nat.pow_le_pow_left h.base 22

/-- With the commas, there are at most 29 characters. -/
theorem length_digitText (h : b.Sound) (hv : value < 2 ^ 64) (group : Bool) :
    (digitText b group value).length ≤ 29 := by
  have h22 := h.length_digitChars hv
  rw [digitText, List.length_reverse]
  cases group with
  | false => exact h22.trans (by decide)
  | true =>
      have hg : 0 < b.group := lt_of_lt_of_le (by decide) h.group
      have hlen := @length_separate _ (chr ',') _ hg (digitChars b value) 0
      have hdiv : (digitChars b value).length / b.group ≤ 22 / 3 := Nat.div_le_div h22 h.group (by decide)
      simp only [if_true, Nat.add_zero] at hlen ⊢
      omega

theorem push_ok {ch : UInt8} (hlen : buf.length < 64) : push ch buf = .ok (ch :: buf) := if_pos hlen

/-- `digit_cnt` and the number of digits in the current group. -/
structure Counts (g digitCnt r : ℕ) : Prop where
  le : r ≤ g
  zero : r = 0 ↔ digitCnt = 0
  groups : ∃ q, digitCnt = g * q + r

/-- The comma is due when the group is full. -/
theorem Counts.due {g digitCnt r : ℕ} (h : Counts g digitCnt r) (hg : 0 < g) :
    0 < digitCnt ∧ digitCnt % g = 0 ↔ r = g := by
  obtain ⟨hle, hzero, q, hq⟩ := h
  have hmod : digitCnt % g = r % g := by rw [hq, Nat.mul_add_mod]
  rw [hmod]
  rcases Nat.lt_or_eq_of_le hle with hlt | rfl
  · rw [Nat.mod_eq_of_lt hlt]
    omega
  · rw [Nat.mod_self]
    omega

theorem Counts.next {g digitCnt r : ℕ} (h : Counts g digitCnt r) (hg : 0 < g) :
    Counts g (digitCnt + 1) (if r = g then 1 else r + 1) := by
  obtain ⟨hle, hzero, q, hq⟩ := h
  split
  · next e =>
      refine ⟨hg, by simp, q + 1, ?_⟩
      rw [hq, e, Nat.mul_succ]
  · next hne => exact ⟨by omega, by simp, q, by omega⟩

/-- **The digits of the value** are put into the buffer, with commas between the groups. -/
theorem accumulate_run (h : b.Sound) (group : Bool) {n digitCnt r : ℕ} (hn : (digitChars b value).length ≤ n)
    (hr : Counts b.group digitCnt r)
    (hroom : buf.length + (separate (chr ',') b.group r (digitChars b value)).length ≤ 64) :
    accumulate b group n value digitCnt buf =
      .ok ((if group then separate (chr ',') b.group r (digitChars b value)
        else digitChars b value).reverse ++ buf) := by
  have hg : 0 < b.group := lt_of_lt_of_le (by decide) h.group
  induction n generalizing value digitCnt r buf with
  | zero =>
      have hnil := List.eq_nil_of_length_eq_zero (Nat.le_zero.mp hn)
      have hzero : value = 0 := by
        rw [digitChars, List.map_eq_nil_iff] at hnil
        exact Nat.digits_eq_nil_iff_eq_zero.mp hnil
      rw [accumulate, if_neg (by omega), hnil]
      cases group with
      | false => rfl
      | true => rfl
  | succ n ih =>
      rw [accumulate]
      rcases Nat.eq_zero_or_pos value with rfl | hpos
      · rw [if_neg (by omega)]
        cases group with
        | false => simp [digitChars]
        | true => simp [digitChars, separate]
      have hdigits : digitChars b value =
          b.digits.getD (value % b.base) 0 :: digitChars b (value / b.base) := by
        rw [digitChars, Nat.digits_def' h.one_lt hpos, List.map_cons]
        rfl
      have hn' : (digitChars b (value / b.base)).length ≤ n := by
        rw [hdigits, List.length_cons] at hn
        omega
      rw [hdigits, separate] at hroom
      rw [if_pos hpos, hdigits, separate]
      simp only [hr.due hg]
      have hnext := hr.next hg
      by_cases hfull : r = b.group
      · rw [if_pos hfull] at hroom hnext ⊢
        rw [List.length_cons, List.length_cons] at hroom
        cases group with
        | false =>
            rw [if_neg (by simp), ok_bind, push_ok (by omega), ok_bind, ih hn' hnext (by simp; omega)]
            simp
        | true =>
            rw [if_pos ⟨rfl, hfull⟩, push_ok (by omega), ok_bind,
              push_ok (by rw [List.length_cons]; omega), ok_bind, ih hn' hnext (by simp; omega)]
            simp
      · rw [if_neg hfull] at hroom hnext ⊢
        rw [List.length_cons] at hroom
        rw [if_neg (fun hc => hfull hc.2), ok_bind, push_ok (by omega), ok_bind,
          ih hn' hnext (by rw [List.length_cons]; omega)]
        cases group with
        | false => simp
        | true => simp

/-- **Zeros** are appended up to the precision, and not beyond the last place but one. -/
theorem appendZeros_run {precision : ℤ} {n : ℕ} (hn : 63 - buf.length < n) :
    appendZeros precision n buf =
      .ok (List.replicate ((min precision 63).toNat - buf.length) (chr '0') ++ buf) := by
  induction n generalizing buf with
  | zero => omega
  | succ n ih =>
      have hsize : sizeofBuf = 64 := rfl
      rw [appendZeros, hsize]
      split
      · next hcond =>
          have hcount : (min precision 63).toNat - buf.length =
              (min precision 63).toNat - (buf.length + 1) + 1 := by omega
          rw [push_ok (by omega), ok_bind, ih (by rw [List.length_cons]; omega), List.length_cons, hcount,
            List.replicate_succ']
          simp
      · next hcond =>
          have hcount : (min precision 63).toNat - buf.length = 0 := by omega
          rw [hcount]
          rfl

/-- The zeros and the digits fit into the buffer. -/
theorem length_bufferText (h : b.Sound) (c : PrintfConversion) (hv : value < 2 ^ 64) :
    min c.precision 63 ≤ (bufferText b c value).length ∧ (bufferText b c value).length ≤ 64 := by
  have hlen := h.length_digitText hv c.flags.group
  have hprecision : min c.precision 63 ≤ min (if c.precision < 0 then 1 else c.precision) 63 := by
    split <;> omega
  rw [bufferText, List.length_append, List.length_replicate, zeroCount]
  generalize (if c.precision < 0 then 1 else c.precision) = precision at hprecision ⊢
  split
  · omega
  · omega

/-- **What the three statements that fill the buffer leave in it.** -/
theorem buffer_run (h : b.Sound) (c : PrintfConversion) (hv : value < 2 ^ 64) :
    ∃ buf buf', accumulate b c.flags.group sizeofBuf value 0 [] = .ok buf ∧
      appendZeros (if c.precision < 0 then 1 else c.precision) sizeofBuf buf = .ok buf' ∧
      octalZero b c buf' = .ok (bufferText b c value) := by
  have hlen := h.length_digitText hv c.flags.group
  have hcounts : Counts b.group 0 0 := ⟨Nat.zero_le _, by simp, 0, by simp⟩
  have hroom := h.length_digitText hv true
  simp only [digitText, if_true, List.length_reverse] at hroom
  have hsize : sizeofBuf = 64 := rfl
  have hfit : (digitChars b value).length ≤ sizeofBuf := (h.length_digitChars hv).trans (by decide)
  have hdigits := h.accumulate_run c.flags.group hfit hcounts
    (show ([] : List UInt8).length + _ ≤ 64 by rw [List.length_nil]; omega)
  rw [List.append_nil, ← digitText] at hdigits
  refine ⟨_, _, hdigits, appendZeros_run (by omega), ?_⟩
  rw [octalZero, bufferText, zeroCount]
  generalize (if c.precision < 0 then 1 else c.precision) = precision
  split
  · rw [push_ok (by rw [List.length_append, List.length_replicate]; omega), List.replicate_succ,
      List.cons_append]
  · rfl

end IntegerBase.Sound

/-! ## The text of a conversion -/

/-- The sign, if there is one. -/
def signText (c : PrintfConversion) (isSigned negative : Bool) : List UInt8 :=
  if signOf c isSigned negative = 0 then [] else [signOf c isSigned negative]

/-- The prefix, if there is one. -/
def prefixText (b : IntegerBase) (c : PrintfConversion) (value : UInt64) : List UInt8 :=
  if c.flags.pound ∧ value ≠ 0 ∧ b.x ≠ 0 then [chr '0', b.x] else []

/-- The text that the field is filled up with. -/
def padText (width : ℤ) (ch : UInt8) (text : List UInt8) : List UInt8 :=
  List.replicate (wrap32 (width - text.length)).toNat ch

/-- What `format_integer` writes. -/
def integerText (value : UInt64) (isSigned negative : Bool) (b : IntegerBase) (c : PrintfConversion) :
    List UInt8 :=
  let front := signText c isSigned negative ++ prefixText b c value
  let digits := bufferText b c value.toNat
  (if ¬ c.flags.minus ∧ ¬ c.flags.zero then padText c.width (chr ' ') (front ++ digits) else []) ++ front ++
    (if c.flags.zero then padText c.width (chr '0') (front ++ digits) else []) ++ digits ++
    (if c.flags.minus then padText c.width (chr ' ') (front ++ digits) else [])

section

variable {σ : Type} {output : UInt8 → σ → σ} {aux : σ} {b : IntegerBase} {c : PrintfConversion}
variable {value : UInt64} {isSigned negative : Bool}

theorem emit_signText : emit output (signText c isSigned negative) aux =
    if signOf c isSigned negative ≠ 0 then output (signOf c isSigned negative) aux else aux := by
  rw [signText]
  by_cases h : signOf c isSigned negative = 0
  · rw [if_pos h, if_neg (not_not.mpr h), emit_nil]
  · rw [if_neg h, if_pos h, emit_cons, emit_nil]

theorem emit_prefixText (x : UInt8) (hx : x = if c.flags.pound ∧ value ≠ 0 then b.x else 0) :
    emit output (prefixText b c value) aux =
      if x ≠ 0 then output x (output (chr '0') aux) else aux := by
  rw [prefixText]
  by_cases h : c.flags.pound ∧ value ≠ 0
  · rw [if_pos h] at hx
    subst hx
    by_cases hx : b.x = 0
    · rw [if_neg (by simp [hx]), if_neg (by simp [hx]), emit_nil]
    · rw [if_pos ⟨h.1, h.2, hx⟩, if_pos hx, emit_cons, emit_cons, emit_nil]
  · rw [if_neg h] at hx
    subst hx
    rw [if_neg (fun h' => h ⟨h'.1, h'.2.1⟩), if_neg (by simp), emit_nil]

theorem emit_ite (p : Prop) [Decidable p] (text : List UInt8) :
    emit output (if p then text else []) aux = if p then emit output text aux else aux := by
  split
  · rfl
  · rfl

/-- The number of pad characters. -/
theorem padCnt_eq (x : UInt8) (hx : x = if c.flags.pound ∧ value ≠ 0 then b.x else 0) (digits : List UInt8) :
    c.width - digits.length - (if x ≠ 0 then 2 else 0) -
        (if signOf c isSigned negative ≠ 0 then 1 else 0) =
      c.width - (signText c isSigned negative ++ prefixText b c value ++ digits).length := by
  have hsign : (signText c isSigned negative).length =
      if signOf c isSigned negative ≠ 0 then 1 else 0 := by
    rw [signText]
    by_cases h : signOf c isSigned negative = 0
    · rw [if_pos h, if_neg (not_not.mpr h), List.length_nil]
    · rw [if_neg h, if_pos h, List.length_singleton]
  have hprefix : (prefixText b c value).length = if x ≠ 0 then 2 else 0 := by
    rw [prefixText, hx]
    by_cases h : c.flags.pound ∧ value ≠ 0
    · rw [if_pos h]
      by_cases hb : b.x = 0
      · simp [hb]
      · rw [if_pos ⟨h.1, h.2, hb⟩, if_pos hb]
        rfl
    · rw [if_neg h, if_neg (fun h' => h ⟨h'.1, h'.2.1⟩)]
      rfl
  rw [List.length_append, List.length_append, hsign, hprefix]
  push_cast
  omega

/-- **`format_integer`** writes its text, whatever the callback does. -/
theorem formatInteger_run (h : b.Sound) : formatInteger value isSigned negative b c output aux =
    .ok (emit output (integerText value isSigned negative b c) aux) := by
  obtain ⟨buf, buf', hdigits, hzeros, hoctal⟩ := h.buffer_run c value.toNat_lt
  set x := if c.flags.pound ∧ value ≠ 0 then b.x else 0 with hx
  rw [formatInteger, hdigits]
  simp only [ok_bind]
  rw [hzeros]
  simp only [ok_bind]
  rw [hoctal]
  simp only [ok_bind, ← hx, padCnt_eq x hx]
  have hpad : ∀ n : ℤ, (if n < 0 then 0 else n.toNat) = n.toNat := fun n => by
    split
    · omega
    · rfl
  show Except.ok _ = _
  simp only [hpad, outputDup_run, outputBuf_run, integerText, emit_append, emit_ite, emit_signText,
    emit_prefixText x hx, padText]

end

/-! ## What the text consists of -/

section

variable {b : IntegerBase} {c : PrintfConversion} {value : UInt64} {isSigned negative : Bool}

theorem signText_eq : signText c isSigned negative =
    if isSigned then
      if negative then [chr '-'] else if c.flags.plus then [chr '+'] else if c.flags.space then [chr ' '] else []
    else [] := by
  rw [signText, signOf]
  cases isSigned with
  | false => rfl
  | true =>
      cases negative with
      | false =>
          cases c.flags.plus with
          | false =>
              cases c.flags.space with
              | false => rfl
              | true => rfl
          | true => rfl
      | true =>
          cases c.flags.plus with
          | false =>
              cases c.flags.space with
              | false => rfl
              | true => rfl
          | true => rfl

theorem length_signText : (signText c isSigned negative).length ≤ 1 := by
  rw [signText]
  split
  · exact Nat.zero_le _
  · exact le_rfl

theorem length_prefixText : (prefixText b c value).length ≤ 2 := by
  rw [prefixText]
  split
  · exact le_rfl
  · exact Nat.zero_le _

/-- Only the bases 16 have an `x`. -/
theorem x_ne_zero_iff (hb : b ∈ bases) : b.x ≠ 0 ↔ b.base = 16 := by
  simp only [bases, List.mem_cons, List.not_mem_nil, or_false] at hb
  rcases hb with rfl | rfl | rfl | rfl
  · decide
  · decide
  · decide
  · decide

theorem prefixText_eq (hb : b ∈ bases) : prefixText b c value =
    if c.flags.pound ∧ value ≠ 0 ∧ b.base = 16 then [chr '0', b.x] else [] := by
  rw [prefixText]
  simp only [x_ne_zero_iff hb]

/-- Where the commas stand, counted from the right. -/
theorem comma_iff (h : b.Sound) {group : Bool} {n k : ℕ} {ch : UInt8}
    (hk : (digitText b group n).reverse[k]? = some ch) :
    ch = chr ',' ↔ group = true ∧ k % (b.group + 1) = b.group := by
  rw [digitText, List.reverse_reverse] at hk
  cases group with
  | false =>
      have hm : ch ∈ digitChars b n := List.mem_of_getElem? hk
      exact iff_of_false (fun e => h.comma_notMem (e ▸ hm)) (by simp)
  | true =>
      rw [getElem_separate_iff (lt_of_lt_of_le (by decide) h.group) h.comma_notMem (Nat.zero_le _) hk,
        Nat.zero_add, and_iff_right rfl]

/-- The digits without the commas. -/
theorem filter_digitText (h : b.Sound) (group : Bool) (n : ℕ) :
    (digitText b group n).filter (fun ch => ch ≠ chr ',') = (digitChars b n).reverse := by
  rw [digitText, List.filter_reverse]
  cases group with
  | false =>
      congr 1
      refine List.filter_eq_self.mpr fun ch hch => ?_
      exact decide_eq_true fun e => h.comma_notMem (e ▸ hch)
  | true => exact congrArg List.reverse (filter_separate h.comma_notMem 0)

/-- The digits are read back. -/
theorem readNumeral_digitText (h : b.Sound) (group : Bool) (n : ℕ) :
    readNumeral (fun ch => b.digits.idxOf ch) b.base ((digitText b group n).filter fun ch => ch ≠ chr ',') =
      n := by
  rw [filter_digitText h]
  exact readNumeral_digits h.one_lt h.digits n

theorem mem_of_mem_digitText (h : b.Sound) {group : Bool} {n : ℕ} {ch : UInt8} (hch : ch ∈ digitText b group n)
    (hne : ch ≠ chr ',') : ch ∈ b.digits := by
  have hm : ch ∈ (digitText b group n).filter fun ch => ch ≠ chr ',' :=
    List.mem_filter.mpr ⟨hch, decide_eq_true hne⟩
  rw [filter_digitText h, List.mem_reverse] at hm
  exact h.digitChars_mem hm

/-- The first character is a digit. -/
theorem head?_digitText (h : b.Sound) (group : Bool) (n : ℕ) :
    (digitText b group n).head? ≠ some (chr ',') := by
  have hlast : (digitText b group n).head? = (digitChars b n).getLast? := by
    rw [digitText, List.head?_reverse]
    cases group with
    | false => rfl
    | true => exact getLast?_separate _ 0
  rw [hlast]
  exact fun e => h.comma_notMem (List.mem_of_getLast? e)

end

/-- The parts of the text of an integer conversion, and what is said of them. -/
structure IntegerField (value : UInt64) (isSigned negative : Bool) (b : IntegerBase) (c : PrintfConversion)
    (spaces : ℕ) (sign pre : List UInt8) (padZeros zeros : ℕ) (digits : List UInt8) (spaces' : ℕ) :
    Prop where
  signed : sign = if isSigned then
      if negative then [chr '-'] else if c.flags.plus then [chr '+'] else if c.flags.space then [chr ' '] else []
    else []
  prefixed : pre = if c.flags.pound ∧ value ≠ 0 ∧ b.base = 16 then [chr '0', b.x] else []
  reads : readNumeral (fun ch => b.digits.idxOf ch) b.base (digits.filter fun ch => ch ≠ chr ',') = value.toNat
  chars : ∀ ch ∈ digits, ch ≠ chr ',' → ch ∈ b.digits
  commas : ∀ k ch, digits.reverse[k]? = some ch →
    (ch = chr ',' ↔ c.flags.group = true ∧ k % (b.group + 1) = b.group)
  first : digits.head? ≠ some (chr ',')
  precise : min c.precision 63 ≤ zeros + digits.length
  room : zeros + digits.length ≤ sizeofBuf
  padding : ((spaces, padZeros, spaces') : ℕ × ℕ × ℕ) =
    let pad := c.width.toNat - (sign.length + pre.length + zeros + digits.length)
    if c.flags.minus then (0, 0, pad) else if c.flags.zero then (0, pad, 0) else (pad, 0, 0)

/-- The padding of a field that does not overflow. -/
theorem padText_eq {width : ℤ} (h0 : 0 ≤ width) (h1 : width < 2 ^ 31) (ch : UInt8) {text : List UInt8}
    (hlen : text.length ≤ 2 ^ 31) :
    padText width ch text = List.replicate (width.toNat - text.length) ch := by
  rw [padText, wrap32_of_range (by omega) (by omega)]
  congr 1
  omega

/-- **Integer conversion is exact**: the buffer is not overrun, and what is written is spaces, the
sign, the prefix, zeros, the digits of the value with their commas, and spaces. -/
theorem formatInteger_exact (value : UInt64) (isSigned negative : Bool) {b : IntegerBase} (hb : b ∈ bases)
    {c : PrintfConversion} (hflags : ¬ (c.flags.minus = true ∧ c.flags.zero = true)) (h0 : 0 ≤ c.width)
    (h1 : c.width < 2 ^ 31) :
    ∃ (spaces : ℕ) (sign pre : List UInt8) (padZeros zeros : ℕ) (digits : List UInt8) (spaces' : ℕ),
      IntegerField value isSigned negative b c spaces sign pre padZeros zeros digits spaces' ∧
      ∀ (σ : Type) (output : UInt8 → σ → σ) (aux : σ),
        formatInteger value isSigned negative b c output aux =
          .ok (emit output (List.replicate spaces (chr ' ') ++ sign ++ pre ++
            List.replicate padZeros (chr '0') ++ (List.replicate zeros (chr '0') ++ digits) ++
            List.replicate spaces' (chr ' ')) aux) := by
  have h := sound_of_mem hb
  have hbuffer := h.length_bufferText c value.toNat_lt
  have hsign := @length_signText c isSigned negative
  have hpre := @length_prefixText b c value
  have hlen : (bufferText b c value.toNat).length =
      zeroCount b c value.toNat + (digitText b c.flags.group value.toNat).length := by
    rw [bufferText, List.length_append, List.length_replicate]
  rw [hlen] at hbuffer
  have hpad : ∀ ch, padText c.width ch (signText c isSigned negative ++ prefixText b c value ++
      bufferText b c value.toNat) =
      List.replicate (c.width.toNat - ((signText c isSigned negative).length + (prefixText b c value).length +
        zeroCount b c value.toNat + (digitText b c.flags.group value.toNat).length)) ch := by
    intro ch
    have htotal : (signText c isSigned negative ++ prefixText b c value ++ bufferText b c value.toNat).length =
        (signText c isSigned negative).length + (prefixText b c value).length +
          zeroCount b c value.toNat + (digitText b c.flags.group value.toNat).length := by
      rw [List.length_append, List.length_append, hlen, ← Nat.add_assoc]
    rw [padText_eq h0 h1 ch (by omega), htotal]
  set pad := c.width.toNat - ((signText c isSigned negative).length + (prefixText b c value).length +
    zeroCount b c value.toNat + (digitText b c.flags.group value.toNat).length) with hpaddef
  refine ⟨if c.flags.minus ∨ c.flags.zero then 0 else pad, _, _, if c.flags.zero then pad else 0, _, _,
    if c.flags.minus then pad else 0,
    ⟨signText_eq, prefixText_eq hb, readNumeral_digitText h _ _,
      fun _ hch hne => mem_of_mem_digitText h hch hne, fun k ch hk => comma_iff h hk, head?_digitText h _ _,
      by exact_mod_cast hbuffer.1, hbuffer.2, ?_⟩, fun σ output aux => ?_⟩
  · simp only [← hpaddef]
    cases hminus : c.flags.minus with
    | false =>
        cases hzero : c.flags.zero with
        | false => rfl
        | true => rfl
    | true =>
        cases hzero : c.flags.zero with
        | false => rfl
        | true => exact absurd ⟨hminus, hzero⟩ hflags
  · rw [formatInteger_run h, integerText]
    simp only [hpad]
    congr 2
    cases hminus : c.flags.minus with
    | false =>
        cases hzero : c.flags.zero with
        | false => simp [bufferText]
        | true => simp [bufferText]
    | true =>
        cases hzero : c.flags.zero with
        | false => simp [bufferText]
        | true => exact absurd ⟨hminus, hzero⟩ hflags

/-- `-1,234` in a field of 8 characters. -/
theorem formatInteger_exact_group :
    ∃ (spaces : ℕ) (sign pre : List UInt8) (padZeros zeros : ℕ) (digits : List UInt8) (spaces' : ℕ),
      IntegerField 1234 true true baseD ⟨{ group := true }, 8, -1, .int⟩ spaces sign pre padZeros zeros
        digits spaces' ∧
      ∀ (σ : Type) (output : UInt8 → σ → σ) (aux : σ),
        formatInteger 1234 true true baseD ⟨{ group := true }, 8, -1, .int⟩ output aux =
          .ok (emit output (List.replicate spaces (chr ' ') ++ sign ++ pre ++
            List.replicate padZeros (chr '0') ++ (List.replicate zeros (chr '0') ++ digits) ++
            List.replicate spaces' (chr ' ')) aux) :=
  formatInteger_exact 1234 true true (by decide) (by decide) (by decide) (by decide)

example : formatInteger 1234 true true baseD ⟨{ group := true }, 8, -1, .int⟩ (fun ch out => out ++ [ch]) [] =
    .ok ([' ', ' ', '-', '1', ',', '2', '3', '4'].map chr) := by decide +kernel

end Pintos.Stdio
