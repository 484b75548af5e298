import Mathlib.Data.List.TakeWhile
import Pintos.Stdio.Integer

/-!
# `parse_conversion`

The part of `lib/stdio.c` that reads a conversion specification: flags, a field width, a
precision, a type.  A pointer into the format is what the format holds from there on, up to and
with the terminator; there is nothing to be read behind it.  Arguments are 32-bit words.

* **`parseConversion_run`** — a terminated format is parsed, up to the terminator at most; what
  is read from it.
-/

namespace Pintos.Stdio

open Lib

/-! ## Arguments -/

/-- A `va_list`: the words that have not been fetched. -/
abbrev VaList : Type := ℕ → UInt32

/-- The list behind an argument of `n` words. -/
def VaList.skip (args : VaList) (n : ℕ) : VaList := fun k => args (k + n)

/-- `va_arg (args, int)`. -/
def VaList.int (args : VaList) : ℤ := toInt32 (args 0).toNat

/-! ## The code -/

/-- `*format`. -/
def charAt : List UInt8 → Except PrintfFault UInt8
  | [] => .error .pastEnd
  | ch :: _ => .ok ch

/-- A flag character, if `ch` is one. -/
def addFlag (flags : Flags) (ch : UInt8) : Option Flags :=
  if ch = chr '-' then some { flags with minus := true }
  else if ch = chr '+' then some { flags with plus := true }
  else if ch = chr ' ' then some { flags with space := true }
  else if ch = chr '#' then some { flags with pound := true }
  else if ch = chr '0' then some { flags with zero := true }
  else if ch = 0x27 then some { flags with group := true }
  else none

/-- The loop over the flag characters. -/
def parseFlags : List UInt8 → Flags → Except PrintfFault (List UInt8 × Flags)
  | [], _ => .error .pastEnd
  | ch :: format, flags =>
      match addFlag flags ch with
      | some flags => parseFlags format flags
      | none => .ok (ch :: format, flags)

/-- `isdigit`. -/
def isdigit (ch : UInt8) : Bool := chr '0' ≤ ch ∧ ch ≤ chr '9'

/-- The loops over the digits of a width and of a precision. -/
def parseDigits : List UInt8 → ℤ → Except PrintfFault (List UInt8 × ℤ)
  | [], _ => .error .pastEnd
  | ch :: format, n =>
      if isdigit ch then parseDigits format (wrap32 (n * 10 + ch.toNat - (chr '0').toNat))
      else .ok (ch :: format, n)

/-- The field width. -/
def parseWidth (format : List UInt8) (args : VaList) : Except PrintfFault (List UInt8 × ℤ × VaList) := do
  let ch ← charAt format
  if ch = chr '*' then return (format.tail, args.int, args.skip 1)
  else do
    let (format, width) ← parseDigits format 0
    return (format, width, args)

/-- The precision. -/
def parsePrecision (format : List UInt8) (args : VaList) :
    Except PrintfFault (List UInt8 × ℤ × VaList) := do
  let ch ← charAt format
  if ch = chr '.' then do
    let ch ← charAt format.tail
    if ch = chr '*' then return (format.tail.tail, if args.int < 0 then -1 else args.int, args.skip 1)
    else do
      let (format, precision) ← parseDigits format.tail 0
      return (format, if precision < 0 then -1 else precision, args)
  else return (format, -1, args)

/-- A type of one character or of two of them. -/
def parseTwice (ch : UInt8) (format : List UInt8) (once twice : ArgType) :
    Except PrintfFault (List UInt8 × ArgType) := do
  let next ← charAt format
  if next = ch then return (format.tail, twice) else return (format, once)

/-- The type. -/
def parseType (format : List UInt8) : Except PrintfFault (List UInt8 × ArgType) := do
  let ch ← charAt format
  if ch = chr 'h' then parseTwice (chr 'h') format.tail .short .char
  else if ch = chr 'j' then return (format.tail, .intmax)
  else if ch = chr 'l' then parseTwice (chr 'l') format.tail .long .longlong
  else if ch = chr 't' then return (format.tail, .ptrdifft)
  else if ch = chr 'z' then return (format.tail, .sizet)
  else return (format, .int)

/-- `-` overrides `0`, and `+` overrides the space. -/
def Flags.normalised (flags : Flags) : Flags :=
  { flags with zero := flags.zero && !flags.minus, space := flags.space && !flags.plus }

/-- `parse_conversion`: the format from the conversion character on, the conversion, and the
arguments that are left. -/
def parseConversion (format : List UInt8) (args : VaList) :
    Except PrintfFault (List UInt8 × PrintfConversion × VaList) := do
  let (format, flags) ← parseFlags format {}
  let flags := flags.normalised
  let (format, width, args) ← parseWidth format args
  let flags := if width < 0 then { flags with minus := true } else flags
  let width := if width < 0 then wrap32 (-width) else width
  let (format, precision, args) ← parsePrecision format args
  let flags := if 0 ≤ precision then { flags with zero := false } else flags
  let (format, type) ← parseType format
  return (format, ⟨flags, width, precision, type⟩, args)

/-! ## What is read -/

def isFlag (ch : UInt8) : Bool := (addFlag {} ch).isSome

/-- The format behind the flags. -/
def afterFlags (format : List UInt8) : List UInt8 := format.dropWhile isFlag

/-- The format behind a field width. -/
def afterWidth (format : List UInt8) : List UInt8 :=
  if format.head? = some (chr '*') then format.tail else format.dropWhile isdigit

/-- The format behind a precision. -/
def afterPrecision (format : List UInt8) : List UInt8 :=
  if format.head? = some (chr '.') then afterWidth format.tail else format

/-- The format behind a type. -/
def afterType (format : List UInt8) : List UInt8 :=
  if format.head? = some (chr 'h') ∨ format.head? = some (chr 'l') then
    if format.tail.head? = format.head? then format.tail.tail else format.tail
  else if format.head? = some (chr 'j') ∨ format.head? = some (chr 't') ∨ format.head? = some (chr 'z') then
    format.tail
  else format

/-- The format behind a specification: from the conversion character on. -/
def afterSpec (format : List UInt8) : List UInt8 :=
  afterType (afterPrecision (afterWidth (afterFlags format)))

/-- The field width that stands at the beginning of `format`. -/
def widthAt (format : List UInt8) (args : VaList) : ℤ :=
  if format.head? = some (chr '*') then args.int
  else readNumeral (fun ch => ch.toNat - (chr '0').toNat) 10 (format.takeWhile isdigit)

/-- The field width that a specification gives. -/
def givenWidth (format : List UInt8) (args : VaList) : ℤ := widthAt (afterFlags format) args

/-- The flag `ch` is given. -/
def flagGiven (ch : UInt8) (format : List UInt8) : Bool := (format.takeWhile isFlag).contains ch

section

variable {format : List UInt8} {args : VaList}

/-! ## The terminator is not passed -/

theorem mem_dropWhile {p : UInt8 → Bool} (hp : p 0 = false) (h : 0 ∈ format) : 0 ∈ format.dropWhile p := by
  rw [← List.takeWhile_append_dropWhile (p := p) (l := format)] at h
  rcases List.mem_append.mp h with hm | hm
  · have := List.mem_takeWhile_imp hm
    rw [hp] at this
    cases this
  · exact hm

theorem mem_tail {ch : UInt8} (hch : ch ≠ 0) (h : 0 ∈ format) (hhead : format.head? = some ch) :
    0 ∈ format.tail := by
  obtain ⟨rest, rfl⟩ := List.head?_eq_some_iff.mp hhead
  exact (List.mem_cons.mp h).resolve_left hch.symm

theorem mem_afterFlags (h : 0 ∈ format) : 0 ∈ afterFlags format := mem_dropWhile (by decide) h

theorem mem_afterWidth (h : 0 ∈ format) : 0 ∈ afterWidth format := by
  rw [afterWidth]
  split
  · next hhead => exact mem_tail (by decide) h hhead
  · exact mem_dropWhile (by decide) h

theorem mem_afterPrecision (h : 0 ∈ format) : 0 ∈ afterPrecision format := by
  rw [afterPrecision]
  split
  · next hhead => exact mem_afterWidth (mem_tail (by decide) h hhead)
  · exact h

theorem mem_afterType (h : 0 ∈ format) : 0 ∈ afterType format := by
  have hne : ∀ ch : UInt8, format.head? = some ch → ch ≠ 0 → 0 ∈ format.tail := fun ch hhead hch =>
    mem_tail hch h hhead
  rw [afterType]
  split
  · next hhead =>
      have htail : 0 ∈ format.tail := hhead.elim (fun e => hne _ e (by decide)) fun e => hne _ e (by decide)
      split
      · next hsame =>
          rcases hhead with e | e
          · exact mem_tail (by decide) htail (hsame.trans e)
          · exact mem_tail (by decide) htail (hsame.trans e)
      · exact htail
  · split
    · next hhead =>
        rcases hhead with e | e | e
        · exact hne _ e (by decide)
        · exact hne _ e (by decide)
        · exact hne _ e (by decide)
    · exact h

theorem mem_afterSpec (h : 0 ∈ format) : 0 ∈ afterSpec format :=
  mem_afterType (mem_afterPrecision (mem_afterWidth (mem_afterFlags h)))

/-! ## The phases of the parser -/

theorem charAt_run (h : 0 ∈ format) : ∃ ch, format.head? = some ch ∧ charAt format = .ok ch := by
  obtain ⟨ch, rest, rfl⟩ := List.exists_cons_of_ne_nil (List.ne_nil_of_mem h)
  exact ⟨ch, rfl, rfl⟩

/-- Whether a character is a flag does not depend on the flags before it. -/
theorem addFlag_isSome (flags : Flags) (ch : UInt8) : (addFlag flags ch).isSome = isFlag ch := by
  simp only [isFlag, addFlag]
  repeat' split
  all_goals rfl

/-- The flags that a list of characters sets. -/
def addFlags (flags : Flags) (chars : List UInt8) : Flags :=
  chars.foldl (fun flags ch => (addFlag flags ch).getD flags) flags

theorem addFlags_minus (chars : List UInt8) (flags : Flags) :
    (addFlags flags chars).minus = (flags.minus || chars.contains (chr '-')) := by
  induction chars generalizing flags with
  | nil => simp [addFlags]
  | cons ch chars ih =>
      have hstep : ((addFlag flags ch).getD flags).minus = (flags.minus || (chr '-' == ch)) := by
        by_cases e : ch = chr '-'
        · subst e
          simp [addFlag]
        · have hne : (chr '-' == ch) = false := by simpa using Ne.symm e
          rw [hne, Bool.or_false, addFlag, if_neg e]
          repeat' split
          all_goals rfl
      rw [addFlags, List.foldl_cons, ← addFlags, ih, hstep, List.contains_cons, Bool.or_assoc]

theorem addFlags_zero (chars : List UInt8) (flags : Flags) :
    (addFlags flags chars).zero = (flags.zero || chars.contains (chr '0')) := by
  induction chars generalizing flags with
  | nil => simp [addFlags]
  | cons ch chars ih =>
      have hstep : ((addFlag flags ch).getD flags).zero = (flags.zero || (chr '0' == ch)) := by
        by_cases e : ch = chr '0'
        · subst e
          simp [addFlag, chr]
        · have hne : (chr '0' == ch) = false := by simpa using Ne.symm e
          rw [hne, Bool.or_false, addFlag]
          repeat' split
          all_goals rfl
      rw [addFlags, List.foldl_cons, ← addFlags, ih, hstep, List.contains_cons, Bool.or_assoc]

theorem parseFlags_run (h : 0 ∈ format) (flags : Flags) :
    parseFlags format flags = .ok (afterFlags format, addFlags flags (format.takeWhile isFlag)) := by
  induction format generalizing flags with
  | nil => cases h
  | cons ch format ih =>
      rw [parseFlags, afterFlags, List.dropWhile_cons, List.takeWhile_cons]
      have hsome := addFlag_isSome flags ch
      cases hadd : addFlag flags ch with
      | some flags' =>
          have hflag : isFlag ch = true := by rw [← hsome, hadd]; rfl
          have hne : ch ≠ 0 := by
            rintro rfl
            cases hflag
          rw [if_pos hflag, if_pos hflag]
          simp only
          rw [ih ((List.mem_cons.mp h).resolve_left hne.symm), addFlags, addFlags, List.foldl_cons, hadd]
          rfl
      | none =>
          have hflag : ¬ isFlag ch = true := by
            rw [← hsome, hadd]
            decide
          rw [if_neg hflag, if_neg hflag]
          rfl

/-- A wrapped number may be wrapped again. -/
theorem wrap32_step (m : ℤ) (d : ℤ) : wrap32 (wrap32 m * 10 + d) = wrap32 (m * 10 + d) := by
  unfold wrap32 toInt32 ofInt32
  split <;> split <;> split <;> omega

theorem parseDigits_run (h : 0 ∈ format) (m : ℕ) : parseDigits format (wrap32 m) =
    .ok (format.dropWhile isdigit,
      wrap32 ((format.takeWhile isdigit).foldl (fun n ch => n * 10 + (ch.toNat - (chr '0').toNat)) m : ℕ)) := by
  induction format generalizing m with
  | nil => cases h
  | cons ch format ih =>
      rw [parseDigits, List.dropWhile_cons, List.takeWhile_cons]
      by_cases hdigit : isdigit ch = true
      · have hge : (chr '0').toNat ≤ ch.toNat := by
          simp only [isdigit, decide_eq_true_eq] at hdigit
          exact UInt8.le_iff_toNat_le.mp hdigit.1
        have hne : ch ≠ 0 := by
          rintro rfl
          cases hdigit
        rw [if_pos hdigit, if_pos hdigit, if_pos hdigit, List.foldl_cons,
          ← ih ((List.mem_cons.mp h).resolve_left hne.symm), add_sub_assoc, wrap32_step]
        congr 2
        push_cast [hge]
        ring
      · rw [if_neg hdigit, if_neg hdigit, if_neg hdigit]
        rfl

theorem VaList.int_range (args : VaList) : -2 ^ 31 ≤ args.int ∧ args.int < 2 ^ 31 := by
  have := (args 0).toNat_lt
  rw [VaList.int, toInt32]
  split <;> omega

theorem parseWidth_run (h : 0 ∈ format) (args : VaList) : ∃ args',
    parseWidth format args = .ok (afterWidth format, wrap32 (widthAt format args), args') := by
  obtain ⟨ch, hhead, hch⟩ := charAt_run h
  rw [parseWidth, hch, ok_bind, afterWidth, widthAt, hhead]
  by_cases hstar : ch = chr '*'
  · subst hstar
    rw [if_pos rfl, if_pos rfl, if_pos rfl, wrap32_of_range args.int_range.1 args.int_range.2]
    exact ⟨_, rfl⟩
  · have hzero : wrap32 (0 : ℕ) = 0 := by decide
    have hsome : ¬ some ch = some (chr '*') := fun e => hstar (Option.some.inj e)
    have hdigits := parseDigits_run h 0
    rw [hzero] at hdigits
    rw [if_neg hstar, if_neg hsome, if_neg hsome, hdigits]
    exact ⟨_, rfl⟩

theorem parsePrecision_run (h : 0 ∈ format) (args : VaList) : ∃ precision args',
    parsePrecision format args = .ok (afterPrecision format, precision, args') := by
  obtain ⟨ch, hhead, hch⟩ := charAt_run h
  rw [parsePrecision, hch, ok_bind, afterPrecision, hhead]
  by_cases hdot : ch = chr '.'
  · subst hdot
    have htail := mem_tail (by decide) h hhead
    obtain ⟨ch', hhead', hch'⟩ := charAt_run htail
    rw [if_pos rfl, if_pos rfl, hch', ok_bind, afterWidth, hhead']
    by_cases hstar : ch' = chr '*'
    · subst hstar
      rw [if_pos rfl, if_pos rfl]
      exact ⟨_, _, rfl⟩
    · have hzero : wrap32 (0 : ℕ) = 0 := by decide
      have hsome : ¬ some ch' = some (chr '*') := fun e => hstar (Option.some.inj e)
      have hdigits := parseDigits_run htail 0
      rw [hzero] at hdigits
      rw [if_neg hstar, if_neg hsome, hdigits]
      exact ⟨_, _, rfl⟩
  · rw [if_neg hdot, if_neg fun e => hdot (Option.some.inj e)]
    exact ⟨_, _, rfl⟩

theorem parseTwice_run (ch : UInt8) (h : 0 ∈ format) (once twice : ArgType) : ∃ type,
    parseTwice ch format once twice =
      .ok (if format.head? = some ch then format.tail else format, type) := by
  obtain ⟨next, hhead, hnext⟩ := charAt_run h
  rw [parseTwice, hnext, ok_bind, hhead]
  by_cases e : next = ch
  · rw [if_pos e, if_pos (congrArg some e)]
    exact ⟨_, rfl⟩
  · rw [if_neg e, if_neg fun e' => e (Option.some.inj e')]
    exact ⟨_, rfl⟩

theorem parseType_run (h : 0 ∈ format) : ∃ type, parseType format = .ok (afterType format, type) := by
  obtain ⟨ch, hhead, hch⟩ := charAt_run h
  rw [parseType, hch, ok_bind, afterType, hhead]
  simp only [Option.some.injEq]
  by_cases hh : ch = chr 'h'
  · subst hh
    obtain ⟨type, htype⟩ := parseTwice_run (chr 'h') (mem_tail (by decide) h hhead) .short .char
    rw [if_pos rfl, htype, if_pos (show chr 'h' = chr 'h' ∨ chr 'h' = chr 'l' from .inl rfl)]
    exact ⟨_, rfl⟩
  by_cases hl : ch = chr 'l'
  · subst hl
    obtain ⟨type, htype⟩ := parseTwice_run (chr 'l') (mem_tail (by decide) h hhead) .long .longlong
    rw [if_neg (by decide), if_neg (by decide), if_pos rfl, htype,
      if_pos (show chr 'l' = chr 'h' ∨ chr 'l' = chr 'l' from .inr rfl)]
    exact ⟨_, rfl⟩
  rw [if_neg hh, if_neg hl, if_neg (not_or.mpr ⟨hh, hl⟩)]
  by_cases hj : ch = chr 'j'
  · rw [if_pos hj, if_pos (.inl hj)]
    exact ⟨_, rfl⟩
  by_cases ht : ch = chr 't'
  · rw [if_neg hj, if_pos ht, if_pos (.inr (.inl ht))]
    exact ⟨_, rfl⟩
  by_cases hz : ch = chr 'z'
  · rw [if_neg hj, if_neg ht, if_pos hz, if_pos (.inr (.inr hz))]
    exact ⟨_, rfl⟩
  · rw [if_neg hj, if_neg ht, if_neg hz, if_neg (by tauto)]
    exact ⟨_, rfl⟩

/-! ## The parser -/

/-- The conversion `c` is what the specification at the beginning of `format` says. -/
structure Conveys (format : List UInt8) (args : VaList) (c : PrintfConversion) : Prop where
  minus : c.flags.minus = (flagGiven (chr '-') format || decide (wrap32 (givenWidth format args) < 0))
  zero : c.flags.zero = (flagGiven (chr '0') format && !flagGiven (chr '-') format && decide (c.precision < 0))
  width : c.width = if wrap32 (givenWidth format args) < 0 then wrap32 (-wrap32 (givenWidth format args))
    else wrap32 (givenWidth format args)

/-- **A terminated format is parsed**, up to the terminator at most. -/
theorem parseConversion_run (h : 0 ∈ format) (args : VaList) : ∃ c args',
    parseConversion format args = .ok (afterSpec format, c, args') ∧ Conveys format args c := by
  have h1 := mem_afterFlags h
  have h2 := mem_afterWidth h1
  have h3 := mem_afterPrecision h2
  obtain ⟨args1, hwidth⟩ := parseWidth_run h1 args
  obtain ⟨precision, args2, hprecision⟩ := parsePrecision_run h2 args1
  obtain ⟨type, htype⟩ := parseType_run h3
  rw [← givenWidth] at hwidth
  rw [parseConversion, parseFlags_run h, ok_bind]
  simp only
  rw [hwidth, ok_bind]
  simp only
  rw [hprecision, ok_bind]
  simp only
  rw [htype, ok_bind]
  refine ⟨_, _, rfl, ?_, ?_, rfl⟩
  · have hminus := addFlags_minus (format.takeWhile isFlag) {}
    rw [flagGiven, ← Bool.false_or (List.contains _ _), ← hminus]
    split
    · split
      · next hneg => simp [hneg]
      · next hpos => simp [hpos, Flags.normalised]
    · split
      · next hneg => simp [hneg]
      · next hpos => simp [hpos, Flags.normalised]
  · have hminus := addFlags_minus (format.takeWhile isFlag) {}
    have hzero := addFlags_zero (format.takeWhile isFlag) {}
    rw [flagGiven, flagGiven, ← Bool.false_or (List.contains _ _), ← Bool.false_or (List.contains _ (chr '-')),
      ← hminus, ← hzero]
    split
    · next hpos => simp [not_lt.mpr hpos]
    · next hneg =>
        have hlt : precision < 0 := not_le.mp hneg
        split
        · simp [hlt, Flags.normalised]
        · simp [hlt, Flags.normalised]

end

end Pintos.Stdio
