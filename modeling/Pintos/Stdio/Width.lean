import Pintos.Stdio.Printf

/-!
# Field widths

The padding of a conversion.  The flags are normalised before the width is known, and a negative
width adds a flag afterwards; `format_integer` pads in three places, by the flags, and `%p` sets
the flags to its own.

* **`convert_text`** — what a conversion writes when memory does not change.
* **`fieldWidth_iff`** — which conversions fill their field as they should.
-/

namespace Pintos.Stdio

open Lib

/-! ## What should be written -/

/-- A text that begins with `front`, in a field of `width` characters. -/
def fieldText (left zeros : Bool) (width : ℕ) (front body : List UInt8) : List UInt8 :=
  if left then front ++ body ++ List.replicate (width - (front ++ body).length) (chr ' ')
  else if zeros then front ++ List.replicate (width - (front ++ body).length) (chr '0') ++ body
  else List.replicate (width - (front ++ body).length) (chr ' ') ++ front ++ body

theorem length_fieldText (left zeros : Bool) (width : ℕ) (front body : List UInt8) :
    (fieldText left zeros width front body).length = max width (front ++ body).length := by
  rw [fieldText]
  split
  · simp only [List.length_append, List.length_replicate]
    omega
  · split
    · simp only [List.length_append, List.length_replicate]
      omega
    · simp only [List.length_append, List.length_replicate]
      omega

/-- The characters of the string that `%s` prints, when memory does not change. -/
def stringArg (mem : ℕ → UInt8) (args : VaList) : ℕ → UInt8 := fun i =>
  if (args 0).toNat = 0 then nullText.getD i 0 else mem ((args 0).toNat + i)

/-- The sign and the prefix of an integer. -/
def IntegerArg.front (a : IntegerArg) : List UInt8 :=
  signText a.c a.isSigned a.negative ++ prefixText a.base a.c a.value

/-- The digits of an integer, with the zeros that belong to them. -/
def IntegerArg.body (a : IntegerArg) : List UInt8 := bufferText a.base a.c a.value.toNat

/-- What is printed before the place for zeros: the sign and the prefix. -/
def frontText (ch : UInt8) (c : PrintfConversion) (args : VaList) : List UInt8 :=
  if ch ∈ integerChars then (integerArg ch c args).front else []

/-- The rest of the text without padding. -/
def bodyText (mem : ℕ → UInt8) (ch : UInt8) (c : PrintfConversion) (args : VaList) : List UInt8 :=
  if ch ∈ integerChars then (integerArg ch c args).body
  else if ch = chr 'c' then [UInt8.ofNat (args 0).toNat]
  else (List.range (strnlen (stringArg mem args) (ofInt32 c.precision))).map (stringArg mem args)

/-- The text is to be padded on the right. -/
def padsRight (format : List UInt8) (args : VaList) : Bool :=
  flagGiven (chr '-') format || decide (givenWidth format args < 0)

/-- The text is to be padded with zeros: an integer with the flag `0`, and neither a precision nor padding on
the right. -/
def padsZeros (ch : UInt8) (format : List UInt8) (args : VaList) (c : PrintfConversion) : Bool :=
  flagGiven (chr '0') format && !padsRight format args && decide (c.precision < 0) &&
    decide (ch ∈ integerChars ∧ ch ≠ chr 'p')

section

variable {σ : Type} {mem : ℕ → UInt8} {ch : UInt8} {c : PrintfConversion} {args : VaList} {s : ℕ → UInt8}

/-! ## Strings -/

theorem strnlenLoop_le (s : ℕ → UInt8) (n length : ℕ) : strnlenLoop s n length ≤ length + n := by
  induction n generalizing length with
  | zero => exact le_rfl
  | succ n ih =>
      rw [strnlenLoop]
      split
      · exact (ih _).trans (by omega)
      · omega

theorem strnlen_le (s : ℕ → UInt8) (maxlen : ℕ) : strnlen s maxlen ≤ maxlen :=
  (strnlenLoop_le s maxlen 0).trans (Nat.zero_add _).le

theorem outputString_run (output : UInt8 → σ → σ) (n i : ℕ) (aux : σ) :
    outputString (fun _ => s) n i output aux = emit output ((List.range' i n).map s) aux := by
  induction n generalizing i aux with
  | zero => rfl
  | succ n ih => rw [outputString, ih, List.range'_succ, List.map_cons, emit_cons]

/-- What `format_string` writes. -/
def stringText (s : ℕ → UInt8) (length : ℤ) (c : PrintfConversion) : List UInt8 :=
  let pad := List.replicate (ofInt32 (wrap32 (c.width - length))) (chr ' ')
  (if length < c.width ∧ ¬ c.flags.minus then pad else []) ++ (List.range length.toNat).map s ++
    (if length < c.width ∧ c.flags.minus then pad else [])

theorem formatString_run (output : UInt8 → σ → σ) (length : ℤ) (aux : σ) :
    formatString (fun _ => s) length c output aux = emit output (stringText s length c) aux := by
  simp only [formatString, stringText, emit_append, emit_ite, outputDup_run, outputString_run,
    List.range_eq_range']

/-- The padding of a string whose length is not negative as an `int`. -/
theorem stringText_eq {n width : ℕ} (hw : c.width = width) (hwidth : width < 2 ^ 31) (hn : n < 2 ^ 31) :
    stringText s n c = fieldText c.flags.minus false width [] ((List.range n).map s) := by
  have hlen : ([] ++ (List.range n).map s).length = n := by simp
  have hpad : (n : ℤ) < c.width → ofInt32 (wrap32 (c.width - n)) = width - n := fun h => by
    rw [wrap32_of_range (by omega) (by omega), ofInt32]
    omega
  rw [stringText, fieldText, hlen, Int.toNat_natCast]
  by_cases hlt : (n : ℤ) < c.width
  · rw [hpad hlt]
    cases hminus : c.flags.minus with
    | false => simp [hlt]
    | true => simp [hlt]
  · have hzero : width - n = 0 := by omega
    cases hminus : c.flags.minus with
    | false => simp [hlt, hzero]
    | true => simp [hlt, hzero]

/-- A string whose length is negative as an `int`: spaces, and nothing of the string. -/
theorem stringText_overflow {n width : ℕ} (hw : c.width = width) (hwidth : width < 2 ^ 31) (hn : 2 ^ 31 ≤ n)
    (hn' : n < 2 ^ 32) : stringText s (toInt32 n) c = List.replicate (width + 2 ^ 32 - n) (chr ' ') := by
  have hneg : toInt32 n = (n : ℤ) - 2 ^ 32 := by
    rw [toInt32, if_neg (by omega)]
  have hlt : toInt32 n < c.width := by omega
  have hpad : ofInt32 (wrap32 (c.width - toInt32 n)) = width + 2 ^ 32 - n := by
    rw [hneg, hw]
    unfold wrap32 toInt32 ofInt32
    split <;> omega
  have hnil : (toInt32 n).toNat = 0 := by omega
  rw [stringText, hpad, hnil]
  rw [List.range_zero, List.map_nil, List.append_nil]
  cases c.flags.minus with
  | false => rw [if_pos ⟨hlt, Bool.false_ne_true⟩, if_neg fun h => Bool.false_ne_true h.2, List.append_nil]
  | true => rw [if_neg fun h => h.2 rfl, if_pos ⟨hlt, rfl⟩, List.nil_append]

/-! ## Integers -/

section

variable {a : IntegerArg} {width : ℕ}

/-- The text without padding is short. -/
theorem length_unpadded (hb : a.base.Sound) : (a.front ++ a.body).length ≤ 67 := by
  have hsign := @length_signText a.c a.isSigned a.negative
  have hprefix := @length_prefixText a.base a.c a.value
  have hbuffer := (hb.length_bufferText a.c a.value.toNat_lt).2
  rw [IntegerArg.front, IntegerArg.body, List.length_append, List.length_append]
  omega

/-- The text without padding holds no spaces behind the sign. -/
theorem space_notMem (hb : a.base ∈ bases) (hsigned : a.isSigned = false) : chr ' ' ∉ a.front ++ a.body := by
  have hsign : signText a.c a.isSigned a.negative = [] := by
    rw [signText_eq, hsigned]
    rfl
  rw [IntegerArg.front, hsign, prefixText_eq hb, IntegerArg.body, bufferText, List.nil_append]
  intro hm
  simp only [List.mem_append] at hm
  have hspace : ∀ b ∈ bases, chr ' ' ∉ b.digits ∧ b.x ≠ chr ' ' := by decide
  rcases hm with hm | hm | hm
  · split at hm
    · simp only [List.mem_cons, List.not_mem_nil, or_false] at hm
      rcases hm with e | e
      · exact absurd e (by decide)
      · exact (hspace _ hb).2 e.symm
    · cases hm
  · exact absurd (List.eq_of_mem_replicate hm) (by decide)
  · exact (hspace _ hb).1 (mem_of_mem_digitText (sound_of_mem hb) hm (by decide))

/-- The padding of an integer conversion. -/
theorem padText_integer (hb : a.base.Sound) (hw : a.c.width = width) (hwidth : width < 2 ^ 31) (ch : UInt8) :
    padText a.c.width ch (a.front ++ a.body) =
      List.replicate (width - (a.front ++ a.body).length) ch := by
  have hlen := length_unpadded hb
  rw [padText_eq (by omega) (by omega) ch (by omega), hw, Int.toNat_natCast]

theorem IntegerArg.text_eq (a : IntegerArg) : a.text =
    (if ¬ a.c.flags.minus ∧ ¬ a.c.flags.zero then padText a.c.width (chr ' ') (a.front ++ a.body) else []) ++
      a.front ++ (if a.c.flags.zero then padText a.c.width (chr '0') (a.front ++ a.body) else []) ++ a.body ++
      (if a.c.flags.minus then padText a.c.width (chr ' ') (a.front ++ a.body) else []) := rfl

/-- With at most one of the flags `-` and `0`, the field is as it should be. -/
theorem text_eq_fieldText (hb : a.base.Sound) (hw : a.c.width = width) (hwidth : width < 2 ^ 31)
    (hflags : ¬ (a.c.flags.minus = true ∧ a.c.flags.zero = true)) :
    a.text = fieldText a.c.flags.minus a.c.flags.zero width a.front a.body := by
  rw [a.text_eq, padText_integer hb hw hwidth, padText_integer hb hw hwidth, fieldText]
  cases hminus : a.c.flags.minus with
  | false =>
      cases hzero : a.c.flags.zero with
      | false => simp
      | true => simp
  | true =>
      cases hzero : a.c.flags.zero with
      | false => simp
      | true => exact absurd ⟨hminus, hzero⟩ hflags

/-- With both flags, the text is padded twice. -/
theorem text_eq_twice (hb : a.base.Sound) (hw : a.c.width = width) (hwidth : width < 2 ^ 31)
    (hminus : a.c.flags.minus = true) (hzero : a.c.flags.zero = true) :
    a.text = a.front ++ List.replicate (width - (a.front ++ a.body).length) (chr '0') ++ a.body ++
      List.replicate (width - (a.front ++ a.body).length) (chr ' ') := by
  rw [a.text_eq, padText_integer hb hw hwidth, padText_integer hb hw hwidth, hminus, hzero,
    if_neg fun h => h.1 rfl, if_pos rfl, if_pos rfl, List.nil_append]

/-- A text without spaces is padded on both sides alike only if there is nothing to pad. -/
theorem padded_comm_iff {text : List UInt8} (h : chr ' ' ∉ text) (n : ℕ) :
    List.replicate n (chr ' ') ++ text = text ++ List.replicate n (chr ' ') ↔ text = [] ∨ n = 0 := by
  constructor
  · intro e
    cases text with
    | nil => exact .inl rfl
    | cons ch text =>
        cases n with
        | zero => exact .inr rfl
        | succ n =>
            rw [List.replicate_succ, List.cons_append, List.cons_append] at e
            exact absurd (by rw [(List.cons.inj e).1]; exact List.mem_cons_self) h
  · rintro (rfl | rfl)
    · simp
    · simp

end

/-! ## The conversion -/

def fieldChars : List UInt8 := ['d', 'i', 'o', 'u', 'x', 'X', 'c', 's', 'p'].map chr

/-- **What a conversion writes** when memory does not change. -/
theorem convert_text (hch : ch ∈ fieldChars) (mem : ℕ → UInt8) (c : PrintfConversion) (args : VaList) :
    ∃ rest, convert (recorder mem) ch c args [] = .ok (some (rest,
      if ch ∈ integerChars then (integerArg ch c args).text
      else if ch = chr 'c' then stringText (fun _ => UInt8.ofNat (args 0).toNat) 1 c
      else stringText (stringArg mem args) (toInt32 (strnlen (stringArg mem args) (ofInt32 c.precision))) c)) := by
  have hemit : ∀ text, emit (recorder mem).output text [] = text := fun text => emit_record text []
  by_cases hint : ch ∈ integerChars
  · rw [if_pos hint, convert_integer hint, hemit]
    exact ⟨_, rfl⟩
  rw [if_neg hint]
  have hcs : ch = chr 'c' ∨ ch = chr 's' := by
    simp only [fieldChars, integerChars, List.map_cons, List.map_nil, List.mem_cons, List.not_mem_nil,
      or_false] at hch hint
    tauto
  rcases hcs with rfl | rfl
  · refine ⟨args.skip 1, ?_⟩
    rw [if_pos rfl, ← hemit (stringText _ _ _), ← formatString_run]
    rfl
  · refine ⟨args.skip 1, ?_⟩
    rw [if_neg (by decide), ← hemit (stringText _ _ _), ← formatString_run]
    rfl

/-- **The field is exact**: the conversion `ch` of the specification at `format` writes as many
characters as it should, with the padding where it should be. -/
def Exact (mem : ℕ → UInt8) (format : List UInt8) (args args' : VaList) (ch : UInt8) (c : PrintfConversion) :
    Prop :=
  ∃ rest out, convert (recorder mem) ch c args' [] = .ok (some (rest, out)) ∧
    out.length = max (givenWidth format args).natAbs
      (frontText ch c args' ++ bodyText mem ch c args').length ∧
    out = fieldText (padsRight format args) (padsZeros ch format args c) (givenWidth format args).natAbs
      (frontText ch c args') (bodyText mem ch c args')

section

variable {format rest : List UInt8} {args' : VaList}

/-- The field is exact if what is written is the text of the field. -/
theorem exact_iff (hch : ch ∈ fieldChars) : Exact mem format args args' ch c ↔
    (if ch ∈ integerChars then (integerArg ch c args').text
      else if ch = chr 'c' then stringText (fun _ => UInt8.ofNat (args' 0).toNat) 1 c
      else stringText (stringArg mem args') (toInt32 (strnlen (stringArg mem args') (ofInt32 c.precision))) c) =
    fieldText (padsRight format args) (padsZeros ch format args c) (givenWidth format args).natAbs
      (frontText ch c args') (bodyText mem ch c args') := by
  obtain ⟨rest, hrun⟩ := convert_text hch mem c args'
  constructor
  · rintro ⟨rest', out, hrun', -, e⟩
    rw [hrun] at hrun'
    rw [← e]
    exact (Prod.mk.inj (Option.some.inj (Except.ok.inj hrun'))).2
  · intro e
    exact ⟨rest, _, hrun, by rw [e, length_fieldText], e⟩

/-- What the parser makes of the specification. -/
structure Parsed (format : List UInt8) (args : VaList) (c : PrintfConversion) : Prop where
  width : c.width = (givenWidth format args).natAbs
  small : (givenWidth format args).natAbs < 2 ^ 31
  minus : c.flags.minus = padsRight format args
  zero : c.flags.zero =
    (flagGiven (chr '0') format && !flagGiven (chr '-') format && decide (c.precision < 0))

theorem parsed_of_conveys (h : Conveys format args c) (hw : |givenWidth format args| ≤ 2 ^ 31 - 1) :
    Parsed format args c := by
  obtain ⟨hlow, hhigh⟩ := abs_le.mp hw
  have hwrap : wrap32 (givenWidth format args) = givenWidth format args := wrap32_of_range (by omega) (by omega)
  have hneg : wrap32 (-givenWidth format args) = -givenWidth format args := wrap32_of_range (by omega) (by omega)
  refine ⟨?_, by omega, by rw [h.minus, hwrap]; rfl, h.zero⟩
  rw [h.width, hwrap, hneg]
  split <;> omega

theorem integerArg_c (hp : ch ≠ chr 'p') (c : PrintfConversion) (args : VaList) :
    (integerArg ch c args).c = c := by
  rw [integerArg]
  split
  · rfl
  · rfl

/-- An integer conversion other than `%p`. -/
theorem exact_integer (h : Parsed format args c) (hint : ch ∈ integerChars) (hp : ch ≠ chr 'p') :
    (integerArg ch c args').text = fieldText (padsRight format args) (padsZeros ch format args c)
      (givenWidth format args).natAbs (frontText ch c args') (bodyText mem ch c args') ↔
    (flagGiven (chr '0') format = true ∧ flagGiven (chr '-') format = false ∧ c.precision < 0 ∧
      givenWidth format args < 0 →
      (givenWidth format args).natAbs ≤ (frontText ch c args' ++ bodyText mem ch c args').length) := by
  have hb := sound_of_mem (integerArg_base ch c args')
  have hc := integerArg_c hp c args'
  have hfront : frontText ch c args' = (integerArg ch c args').front := if_pos hint
  have hbody : bodyText mem ch c args' = (integerArg ch c args').body := if_pos hint
  have hzeros : padsZeros ch format args c =
      (flagGiven (chr '0') format && !padsRight format args && decide (c.precision < 0)) := by
    rw [padsZeros, decide_eq_true (show ch ∈ integerChars ∧ ch ≠ chr 'p' from ⟨hint, hp⟩), Bool.and_true]
  rw [hfront, hbody]
  generalize integerArg ch c args' = a at hb hc
  subst hc
  by_cases hflags : a.c.flags.minus = true ∧ a.c.flags.zero = true
  · obtain ⟨hminus, hzero⟩ := hflags
    have hright : padsRight format args = true := by rw [← h.minus, hminus]
    have hgiven := h.zero
    rw [hzero] at hgiven
    simp only [Bool.true_eq, Bool.and_eq_true, Bool.not_eq_true', decide_eq_true_eq] at hgiven
    have hneg : givenWidth format args < 0 := by
      rw [padsRight, hgiven.1.2, Bool.false_or] at hright
      exact of_decide_eq_true hright
    rw [text_eq_twice hb h.width h.small hminus hzero]
    constructor
    · intro e _
      have hlen := congrArg List.length e
      rw [length_fieldText] at hlen
      simp only [List.length_append, List.length_replicate] at hlen ⊢
      omega
    · intro hcond
      have hle := hcond ⟨hgiven.1.1, hgiven.1.2, hgiven.2, hneg⟩
      rw [fieldText, hright, if_pos rfl, Nat.sub_eq_zero_of_le hle, List.replicate_zero, List.append_nil,
        List.replicate_zero, List.append_nil]
  · rw [text_eq_fieldText hb h.width h.small hflags, h.minus]
    have htext : fieldText (padsRight format args) a.c.flags.zero (givenWidth format args).natAbs a.front a.body =
        fieldText (padsRight format args) (padsZeros ch format args a.c) (givenWidth format args).natAbs a.front
          a.body := by
      cases hright : padsRight format args with
      | true => rfl
      | false =>
          have hnot : flagGiven (chr '-') format = false := by
            rw [padsRight, Bool.or_eq_false_iff] at hright
            exact hright.1
          rw [hzeros, hright, h.zero, hnot]
    refine iff_of_true htext fun hgiven => absurd ⟨?_, ?_⟩ hflags
    · rw [h.minus, padsRight, decide_eq_true hgiven.2.2.2, Bool.or_true]
    · rw [h.zero, hgiven.1, hgiven.2.1, decide_eq_true hgiven.2.2.1]
      rfl

/-- `%p`: its own flags have no `-`. -/
theorem exact_pointer (h : Parsed format args c) :
    (integerArg (chr 'p') c args').text = fieldText (padsRight format args) (padsZeros (chr 'p') format args c)
      (givenWidth format args).natAbs (frontText (chr 'p') c args') (bodyText mem (chr 'p') c args') ↔
    (padsRight format args = true → frontText (chr 'p') c args' ++ bodyText mem (chr 'p') c args' = [] ∨
      (givenWidth format args).natAbs ≤
        (frontText (chr 'p') c args' ++ bodyText mem (chr 'p') c args').length) := by
  have hb := integerArg_base (chr 'p') c args'
  have hfront : frontText (chr 'p') c args' = (integerArg (chr 'p') c args').front := if_pos (by decide)
  have hbody : bodyText mem (chr 'p') c args' = (integerArg (chr 'p') c args').body := if_pos (by decide)
  have hzeros : padsZeros (chr 'p') format args c = false := by
    rw [padsZeros, decide_eq_false (show ¬ (chr 'p' ∈ integerChars ∧ chr 'p' ≠ chr 'p') from fun hc => hc.2 rfl),
      Bool.and_false]
  have hspace := space_notMem hb rfl
  have htext := text_eq_fieldText (a := integerArg (chr 'p') c args') (sound_of_mem hb) h.width h.small
    (fun hc => Bool.false_ne_true hc.1)
  rw [htext, hfront, hbody, hzeros]
  show fieldText false false _ _ _ = _ ↔ _
  generalize integerArg (chr 'p') c args' = a at hspace
  cases padsRight format args with
  | false => exact iff_of_true rfl fun e => absurd e Bool.false_ne_true
  | true =>
      rw [fieldText, fieldText, if_neg Bool.false_ne_true, if_neg Bool.false_ne_true, if_pos rfl, List.append_assoc,
        padded_comm_iff hspace, Nat.sub_eq_zero_iff_le]
      exact ⟨fun hor _ => hor, fun himp => himp rfl⟩

/-- `%s`. -/
theorem exact_string (h : Parsed format args c) :
    stringText (stringArg mem args') (toInt32 (strnlen (stringArg mem args') (ofInt32 c.precision))) c =
      fieldText (padsRight format args) (padsZeros (chr 's') format args c) (givenWidth format args).natAbs
        (frontText (chr 's') c args') (bodyText mem (chr 's') c args') ↔
    ((bodyText mem (chr 's') c args').length < 2 ^ 31 ∨ bodyText mem (chr 's') c args' = List.replicate
      ((givenWidth format args).natAbs + 2 ^ 32 - (bodyText mem (chr 's') c args').length) (chr ' ')) := by
  have hbody : bodyText mem (chr 's') c args' = (List.range (strnlen (stringArg mem args')
      (ofInt32 c.precision))).map (stringArg mem args') := by
    rw [bodyText, if_neg (by decide), if_neg (by decide)]
  have hfront : frontText (chr 's') c args' = [] := by rw [frontText, if_neg (by decide)]
  have hzeros : padsZeros (chr 's') format args c = false := by
    rw [padsZeros, decide_eq_false (show ¬ (chr 's' ∈ integerChars ∧ chr 's' ≠ chr 'p') by decide), Bool.and_false]
  have hlt := lt_of_le_of_lt (strnlen_le (stringArg mem args') (ofInt32 c.precision)) (ofInt32_lt _)
  set n := strnlen (stringArg mem args') (ofInt32 c.precision) with hn
  rw [hfront, hzeros, hbody, List.length_map, List.length_range]
  by_cases hshort : n < 2 ^ 31
  · have hint : toInt32 n = n := by rw [toInt32, if_pos hshort]
    rw [hint, stringText_eq h.width h.small hshort, h.minus]
    exact iff_of_true rfl (.inl hshort)
  · have hlong : fieldText (padsRight format args) false (givenWidth format args).natAbs []
        ((List.range n).map (stringArg mem args')) = (List.range n).map (stringArg mem args') := by
      have hsmall := h.small
      have hzero : (givenWidth format args).natAbs -
          ([] ++ (List.range n).map (stringArg mem args')).length = 0 := by
        rw [List.nil_append, List.length_map, List.length_range]
        omega
      rw [fieldText, hzero]
      cases padsRight format args with
      | false => simp
      | true => simp
    rw [hlong, stringText_overflow h.width h.small (not_lt.mp hshort) hlt, or_iff_right hshort]
    exact eq_comm

/-- **Field widths**: the field is exact unless zeros are asked for and a negative width given as an
argument asks for spaces on the right, or `%p` is to be padded on the right, and there is something to pad; or
a string of `2 ^ 31` characters is printed. -/
theorem fieldWidth_iff (hmem : 0 ∈ format) (hparse : parseConversion format args = .ok (ch :: rest, c, args'))
    (hch : ch ∈ fieldChars) (hw : |givenWidth format args| ≤ 2 ^ 31 - 1) (mem : ℕ → UInt8) :
    Exact mem format args args' ch c ↔
      (ch ∈ integerChars ∧ ch ≠ chr 'p' → flagGiven (chr '0') format = true ∧
        flagGiven (chr '-') format = false ∧ c.precision < 0 ∧ givenWidth format args < 0 →
        (givenWidth format args).natAbs ≤ (frontText ch c args' ++ bodyText mem ch c args').length) ∧
      (ch = chr 'p' → padsRight format args = true → frontText ch c args' ++ bodyText mem ch c args' = [] ∨
        (givenWidth format args).natAbs ≤ (frontText ch c args' ++ bodyText mem ch c args').length) ∧
      (ch = chr 's' → (bodyText mem ch c args').length < 2 ^ 31 ∨ bodyText mem ch c args' = List.replicate
        ((givenWidth format args).natAbs + 2 ^ 32 - (bodyText mem ch c args').length) (chr ' ')) := by
  obtain ⟨c', args2, hparse', hconveys⟩ := parseConversion_run hmem args
  rw [hparse'] at hparse
  obtain ⟨-, hcargs⟩ := Prod.mk.inj (Except.ok.inj hparse)
  obtain ⟨rfl, -⟩ := Prod.mk.inj hcargs
  have h := parsed_of_conveys hconveys hw
  rw [exact_iff hch]
  by_cases hint : ch ∈ integerChars
  · have hs : ch ≠ chr 's' := fun e => absurd (e ▸ hint) (by decide)
    rw [if_pos hint]
    by_cases hp : ch = chr 'p'
    · subst hp
      rw [exact_pointer h]
      exact ⟨fun hright => ⟨fun hne => absurd rfl hne.2, fun _ => hright, fun e => absurd e hs⟩,
        fun hall => hall.2.1 rfl⟩
    · rw [exact_integer h hint hp]
      exact ⟨fun hcond => ⟨fun _ => hcond, fun e => absurd e hp, fun e => absurd e hs⟩,
        fun hall => hall.1 ⟨hint, hp⟩⟩
  have hp : ch ≠ chr 'p' := fun e => hint (e ▸ (by decide))
  rw [if_neg hint]
  by_cases hchar : ch = chr 'c'
  · subst hchar
    rw [if_pos rfl]
    refine iff_of_true ?_ ⟨fun hne => absurd hne.1 hint, fun e => absurd e hp, fun e => absurd e (by decide)⟩
    have hfront : frontText (chr 'c') c' args' = [] := if_neg hint
    have hbody : bodyText mem (chr 'c') c' args' = [UInt8.ofNat (args' 0).toNat] := by
      rw [bodyText, if_neg hint, if_pos rfl]
    have hzeros : padsZeros (chr 'c') format args c' = false := by
      rw [padsZeros, decide_eq_false (show ¬ (chr 'c' ∈ integerChars ∧ chr 'c' ≠ chr 'p') from fun hc => hint hc.1),
        Bool.and_false]
    have htext := @stringText_eq c' (fun _ => UInt8.ofNat (args' 0).toNat) 1 _ h.width h.small (by decide)
    rw [hfront, hbody, hzeros, ← h.minus]
    exact htext
  · have hs : ch = chr 's' := by
      simp only [fieldChars, integerChars, List.map_cons, List.map_nil, List.mem_cons, List.not_mem_nil,
        or_false] at hch hint
      tauto
    subst hs
    rw [if_neg hchar, exact_string h]
    exact ⟨fun hor => ⟨fun hne => absurd hne.1 hint, fun e => absurd e hp, fun _ => hor⟩, fun hall => hall.2.2 rfl⟩

end

end

/-- `"%5d"`. -/
theorem fieldWidth_decimal : Exact (fun _ => 0) [chr '5', chr 'd', 0] (fun _ => 7) (fun _ => 7) (chr 'd')
    ⟨{}, 5, -1, .int⟩ :=
  (fieldWidth_iff (by decide) (show parseConversion [chr '5', chr 'd', 0] (fun _ => 7) =
      .ok (chr 'd' :: [0], ⟨{}, 5, -1, .int⟩, fun _ => 7) from rfl) (by decide) (by decide) fun _ => 0).mpr
    ⟨fun _ hgiven => absurd hgiven.1 (by decide), fun e => absurd e (by decide), fun e => absurd e (by decide)⟩

/-- `"%0*d"` with the width -5: nine characters for a field of five. -/
theorem fieldWidth_twice : ¬ ∀ (mem : ℕ → UInt8) (format rest : List UInt8) (args args' : VaList) (ch : UInt8)
    (c : PrintfConversion), 0 ∈ format → parseConversion format args = .ok (ch :: rest, c, args') →
    ch ∈ fieldChars → |givenWidth format args| ≤ 2 ^ 31 - 1 → Exact mem format args args' ch c := by
  intro h
  set args : VaList := fun k => if k = 0 then 0xfffffffb else 7 with hargs
  have hexact := h (fun _ => 0) [chr '0', chr '*', chr 'd', 0] [0] args (args.skip 1) (chr 'd')
    ⟨{ minus := true, zero := true }, 5, -1, .int⟩ (by decide) rfl (by decide) (by decide)
  obtain ⟨rest, out, hrun, hlen, -⟩ := hexact
  have hout : (convert (recorder fun _ => 0) (chr 'd') ⟨{ minus := true, zero := true }, 5, -1, .int⟩
      (args.skip 1) []).toOption.bind (Option.map fun r => r.2) =
      some (['0', '0', '0', '0', '7', ' ', ' ', ' ', ' '].map chr) := by decide +kernel
  rw [hrun] at hout
  have e : out = ['0', '0', '0', '0', '7', ' ', ' ', ' ', ' '].map chr := Option.some.inj hout
  rw [e] at hlen
  exact absurd hlen (by decide +kernel)

end Pintos.Stdio
