import Pintos.Stdio.Conversion

/-!
# `__vprintf`

The loop of `lib/stdio.c` that copies the format to the output and converts arguments.  The
callback `output` may change memory, as that of `vsnprintf` does, so that strings are read from
the memory that the state of the callback shows at that time.

A specification that the terminator cuts short is reported as an unknown conversion, and then the
loop steps over the terminator.

* **`vprintf_complete`** — formats whose specifications are complete are printed.
* **`vprintf_returns_iff`** — on the others, the loop leaves the format.
-/

namespace Pintos.Stdio

open Lib

/-- A callback, and the memory that its state shows. -/
structure Sink (σ : Type) where
  output : UInt8 → σ → σ
  mem : σ → ℕ → UInt8

/-! ## The code -/

/-- The signed number in the low `bits` bits of a word. -/
def signedBits (bits w : ℕ) : ℤ :=
  if w % 2 ^ bits < 2 ^ (bits - 1) then (w % 2 ^ bits : ℕ) else (w % 2 ^ bits : ℕ) - 2 ^ bits

/-- The two words of a 64-bit argument. -/
def VaList.wide (args : VaList) : ℕ := (args 0).toNat + 2 ^ 32 * (args 1).toNat

/-- The argument of a signed conversion, and the list behind it. -/
def signedArg (type : ArgType) (args : VaList) : ℤ × VaList :=
  match type with
  | .char => (signedBits 8 (args 0).toNat, args.skip 1)
  | .short => (signedBits 16 (args 0).toNat, args.skip 1)
  | .int | .long | .ptrdifft => (args.int, args.skip 1)
  | .intmax | .longlong => (signedBits 64 args.wide, args.skip 2)
  | .sizet =>
      -- `SIZE_MAX` is `2 ^ 32 - 1`
      let value : ℤ := (args 0).toNat
      (if (2 ^ 32 - 1) / 2 < value then value - (2 ^ 32 - 1) - 1 else value, args.skip 1)

/-- The argument of an unsigned conversion, and the list behind it. -/
def unsignedArg (type : ArgType) (args : VaList) : UInt64 × VaList :=
  match type with
  | .char => (UInt64.ofNat ((args 0).toNat % 2 ^ 8), args.skip 1)
  | .short => (UInt64.ofNat ((args 0).toNat % 2 ^ 16), args.skip 1)
  | .int | .long | .sizet => (UInt64.ofNat (args 0).toNat, args.skip 1)
  | .intmax | .longlong => (UInt64.ofNat args.wide, args.skip 2)
  | .ptrdifft => (UInt64.ofInt args.int &&& 0xffffffff, args.skip 1)

/-- The loop of `strnlen`, with `n` characters to go. -/
def strnlenLoop (string : ℕ → UInt8) : ℕ → ℕ → ℕ
  | 0, length => length
  | n + 1, length => if string length ≠ 0 then strnlenLoop string n (length + 1) else length

/-- `strnlen`. -/
def strnlen (string : ℕ → UInt8) (maxlen : ℕ) : ℕ := strnlenLoop string maxlen 0

/-- `"(null)"`. -/
def nullText : List UInt8 := ['(', 'n', 'u', 'l', 'l', ')'].map chr

/-- The formats `"<<no %%%c in kernel>>"` and `"<<no %%%c conversion>>"`. -/
def noFormat (ch : UInt8) : List UInt8 :=
  if ch ∈ ['f', 'e', 'E', 'g', 'G', 'n'].map chr then
    ['<', '<', 'n', 'o', ' ', '%', '%', '%', 'c', ' ', 'i', 'n', ' ', 'k', 'e', 'r', 'n', 'e', 'l', '>', '>'].map chr
      ++ [0]
  else
    ['<', '<', 'n', 'o', ' ', '%', '%', '%', 'c', ' ', 'c', 'o', 'n', 'v', 'e', 'r', 's', 'i', 'o', 'n', '>', '>'].map
      chr ++ [0]

section

variable {σ : Type}

/-- The loop of `format_string`, with `n` characters to go. -/
def outputString (string : σ → ℕ → UInt8) : ℕ → ℕ → (UInt8 → σ → σ) → σ → σ
  | 0, _, _, aux => aux
  | n + 1, i, output, aux => outputString string n (i + 1) output (output (string aux i) aux)

/-- `format_string`. -/
def formatString (string : σ → ℕ → UInt8) (length : ℤ) (c : PrintfConversion) (output : UInt8 → σ → σ)
    (aux : σ) : σ :=
  let padCnt := ofInt32 (wrap32 (c.width - length))
  let aux := if length < c.width ∧ ¬ c.flags.minus then outputDup (chr ' ') padCnt output aux else aux
  let aux := outputString string length.toNat 0 output aux
  if length < c.width ∧ c.flags.minus then outputDup (chr ' ') padCnt output aux else aux

/-- The conversions that are supported: the arguments that are left, or nothing. -/
def convert (k : Sink σ) (ch : UInt8) (c : PrintfConversion) (args : VaList) (aux : σ) :
    Except PrintfFault (Option (VaList × σ)) :=
  if ch = chr 'd' ∨ ch = chr 'i' then do
    let (value, args) := signedArg c.type args
    let aux ← formatInteger (UInt64.ofInt (if value < 0 then -value else value)) true (decide (value < 0))
      baseD c k.output aux
    return some (args, aux)
  else if ch = chr 'o' ∨ ch = chr 'u' ∨ ch = chr 'x' ∨ ch = chr 'X' then do
    let (value, args) := unsignedArg c.type args
    let b := if ch = chr 'o' then baseO else if ch = chr 'u' then baseD
      else if ch = chr 'x' then baseX else baseUpperX
    let aux ← formatInteger value false false b c k.output aux
    return some (args, aux)
  else if ch = chr 'c' then
    let ch := UInt8.ofNat (args 0).toNat
    return some (args.skip 1, formatString (fun _ _ => ch) 1 c k.output aux)
  else if ch = chr 's' then
    let s := (args 0).toNat
    -- a null pointer is shown as a text
    let string : σ → ℕ → UInt8 := fun aux i => if s = 0 then nullText.getD i 0 else k.mem aux (s + i)
    let length := toInt32 (strnlen (string aux) (ofInt32 c.precision))
    return some (args.skip 1, formatString string length c k.output aux)
  else if ch = chr 'p' then do
    let p := UInt64.ofNat (args 0).toNat
    -- the flags of the format are replaced
    let c := { c with flags := { pound := true } }
    let aux ← formatInteger p false false baseX c k.output aux
    return some (args.skip 1, aux)
  else return none

/-- The rest of a round of the loop, where `print` is the loop: what is not a supported conversion is
reported, the character being passed on to `__printf` as an `int`. -/
def finishRound (print : List UInt8 → VaList → σ → Except PrintfFault σ) (ch : UInt8) (format : List UInt8)
    (args : VaList) (aux : σ) : Option (VaList × σ) → Except PrintfFault σ
  | some (args, aux) => print format args aux
  | none => do
      let aux ← print (noFormat ch) (fun _ => UInt32.ofNat (ofInt32 (signedBits 8 ch.toNat))) aux
      print format args aux

/-- `__vprintf`. -/
def vprintf (k : Sink σ) : ℕ → List UInt8 → VaList → σ → Except PrintfFault σ
  | 0, _, _, _ => .error .unending
  | n + 1, format, args, aux => do
      let ch ← charAt format
      if ch = 0 then return aux
      else if ch ≠ chr '%' then vprintf k n format.tail args (k.output ch aux)
      else do
        let format := format.tail
        let ch ← charAt format
        if ch = chr '%' then vprintf k n format.tail args (k.output (chr '%') aux)
        else do
          let (format, c, args) ← parseConversion format args
          let ch ← charAt format
          let done ← convert k ch c args aux
          finishRound (vprintf k n) ch format.tail args aux done

end

/-- Each percent sign of the format starts a complete conversion: behind a specification, there is
a character before the terminator. -/
inductive Complete : List UInt8 → Prop
  | finish : Complete [0]
  | literal {ch : UInt8} {format : List UInt8} (h0 : ch ≠ 0) (h : ch ≠ chr '%') (rest : Complete format) :
      Complete (ch :: format)
  | percent {format : List UInt8} (rest : Complete format) : Complete (chr '%' :: chr '%' :: format)
  | conversion {format rest : List UInt8} {ch : UInt8} (h : format.head? ≠ some (chr '%'))
      (spec : afterSpec format = ch :: rest) (h0 : ch ≠ 0) (complete : Complete rest) :
      Complete (chr '%' :: format)

/-! ## Integer conversions -/

/-- What an integer conversion hands to `format_integer`, and the arguments that are left. -/
structure IntegerArg where
  value : UInt64
  isSigned : Bool
  negative : Bool
  base : IntegerBase
  c : PrintfConversion
  rest : VaList

/-- The text of an integer conversion. -/
def IntegerArg.text (a : IntegerArg) : List UInt8 := integerText a.value a.isSigned a.negative a.base a.c

/-- The base of an unsigned conversion. -/
def unsignedBase (ch : UInt8) : IntegerBase :=
  if ch = chr 'o' then baseO else if ch = chr 'u' then baseD else if ch = chr 'x' then baseX else baseUpperX

/-- The integer conversions. -/
def integerArg (ch : UInt8) (c : PrintfConversion) (args : VaList) : IntegerArg :=
  if ch = chr 'd' ∨ ch = chr 'i' then
    ⟨UInt64.ofInt (if (signedArg c.type args).1 < 0 then -(signedArg c.type args).1 else (signedArg c.type args).1),
      true, decide ((signedArg c.type args).1 < 0), baseD, c, (signedArg c.type args).2⟩
  else if ch = chr 'p' then
    ⟨UInt64.ofNat (args 0).toNat, false, false, baseX, { c with flags := { pound := true } }, args.skip 1⟩
  else ⟨(unsignedArg c.type args).1, false, false, unsignedBase ch, c, (unsignedArg c.type args).2⟩

def integerChars : List UInt8 := ['d', 'i', 'o', 'u', 'x', 'X', 'p'].map chr

theorem integerArg_base (ch : UInt8) (c : PrintfConversion) (args : VaList) :
    (integerArg ch c args).base ∈ bases := by
  have hd : baseD ∈ bases := by decide
  have ho : baseO ∈ bases := by decide
  have hx : baseX ∈ bases := by decide
  have hupper : baseUpperX ∈ bases := by decide
  rw [integerArg]
  split
  · exact hd
  split
  · exact hx
  show unsignedBase ch ∈ bases
  rw [unsignedBase]
  split
  · exact ho
  split
  · exact hd
  split
  · exact hx
  · exact hupper

section

variable {σ : Type} {k : Sink σ} {ch : UInt8} {c : PrintfConversion} {args : VaList} {aux aux' : σ}
variable {format text s : List UInt8} {n fuel : ℕ}

/-! ## One conversion -/

/-- **An integer conversion** writes its text. -/
theorem convert_integer (h : ch ∈ integerChars) : convert k ch c args aux =
    .ok (some ((integerArg ch c args).rest, emit k.output (integerArg ch c args).text aux)) := by
  have hrun : formatInteger (integerArg ch c args).value (integerArg ch c args).isSigned
      (integerArg ch c args).negative (integerArg ch c args).base (integerArg ch c args).c k.output aux =
      .ok (emit k.output (integerArg ch c args).text aux) :=
    formatInteger_run (sound_of_mem (integerArg_base ch c args))
  rw [convert]
  by_cases hd : ch = chr 'd' ∨ ch = chr 'i'
  · have ha : integerArg ch c args = ⟨UInt64.ofInt (if (signedArg c.type args).1 < 0 then
        -(signedArg c.type args).1 else (signedArg c.type args).1), true,
        decide ((signedArg c.type args).1 < 0), baseD, c, (signedArg c.type args).2⟩ := by
      rw [integerArg, if_pos hd]
    rw [if_pos hd]
    rw [ha] at hrun ⊢
    revert hrun
    rcases signedArg c.type args with ⟨value, rest⟩
    simp only
    intro hrun
    rw [hrun]
    rfl
  by_cases hp : ch = chr 'p'
  · have ha : integerArg ch c args = ⟨UInt64.ofNat (args 0).toNat, false, false, baseX,
        { c with flags := { pound := true } }, args.skip 1⟩ := by
      rw [integerArg, if_neg hd, if_pos hp]
    rw [if_neg hd, if_neg (by rw [hp]; decide), if_neg (by rw [hp]; decide), if_neg (by rw [hp]; decide),
      if_pos hp]
    rw [ha] at hrun ⊢
    simp only at hrun ⊢
    rw [hrun]
    rfl
  · have ha : integerArg ch c args = ⟨(unsignedArg c.type args).1, false, false, unsignedBase ch, c,
        (unsignedArg c.type args).2⟩ := by
      rw [integerArg, if_neg hd, if_neg hp]
    have hu : ch = chr 'o' ∨ ch = chr 'u' ∨ ch = chr 'x' ∨ ch = chr 'X' := by
      simp only [integerChars, List.map_cons, List.map_nil, List.mem_cons, List.not_mem_nil, or_false] at h
      tauto
    rw [if_neg hd, if_pos hu]
    rw [ha] at hrun ⊢
    revert hrun
    rcases unsignedArg c.type args with ⟨value, rest⟩
    simp only [unsignedBase]
    intro hrun
    rw [hrun]
    rfl

/-- **A conversion returns**: no conversion overruns the buffer. -/
theorem convert_returns (k : Sink σ) (ch : UInt8) (c : PrintfConversion) (args : VaList) (aux : σ) :
    ∃ r, convert k ch c args aux = .ok r := by
  by_cases h : ch ∈ integerChars
  · exact ⟨_, convert_integer h⟩
  have hne : ∀ d ∈ integerChars, ch ≠ d := fun d hd e => h (e ▸ hd)
  rw [convert, if_neg (not_or.mpr ⟨hne _ (by decide), hne _ (by decide)⟩),
    if_neg (not_or.mpr ⟨hne _ (by decide), not_or.mpr ⟨hne _ (by decide), not_or.mpr ⟨hne _ (by decide),
      hne _ (by decide)⟩⟩⟩)]
  split
  · exact ⟨_, rfl⟩
  split
  · exact ⟨_, rfl⟩
  rw [if_neg (hne _ (by decide))]
  exact ⟨_, rfl⟩

/-! ## Text -/

/-- The loop copies what is neither a percent sign nor the terminator. -/
theorem vprintf_literal (h : ∀ ch ∈ text, ch ≠ 0 ∧ ch ≠ chr '%') (n : ℕ) (format : List UInt8) (args : VaList)
    (aux : σ) : vprintf k (text.length + n) (text ++ format) args aux =
      vprintf k n format args (emit k.output text aux) := by
  induction text generalizing aux with
  | nil => rw [List.length_nil, Nat.zero_add, List.nil_append, emit_nil]
  | cons ch text ih =>
      obtain ⟨h0, hpercent⟩ := h ch List.mem_cons_self
      rw [List.length_cons, Nat.add_right_comm, List.cons_append, vprintf, charAt, ok_bind, if_neg h0,
        if_pos hpercent, List.tail_cons, ih fun d hd => h d (List.mem_cons_of_mem _ hd), emit_cons]

/-- The formats of `__printf` are text, a percent sign, a character, and text. -/
theorem noFormat_eq (ch : UInt8) : ∃ front back : List UInt8,
    (∀ d ∈ front, d ≠ 0 ∧ d ≠ chr '%') ∧ (∀ d ∈ back, d ≠ 0 ∧ d ≠ chr '%') ∧
    front.length = 5 ∧ back.length ≤ 13 ∧
    noFormat ch = front ++ chr '%' :: chr '%' :: chr '%' :: chr 'c' :: (back ++ [0]) := by
  rw [noFormat]
  split
  · exact ⟨['<', '<', 'n', 'o', ' '].map chr,
      [' ', 'i', 'n', ' ', 'k', 'e', 'r', 'n', 'e', 'l', '>', '>'].map chr, by decide +kernel, by decide +kernel,
      by decide, by decide, rfl⟩
  · exact ⟨['<', '<', 'n', 'o', ' '].map chr,
      [' ', 'c', 'o', 'n', 'v', 'e', 'r', 's', 'i', 'o', 'n', '>', '>'].map chr, by decide +kernel, by decide +kernel,
      by decide, by decide, rfl⟩

theorem vprintf_finish (n : ℕ) (args : VaList) (aux : σ) : vprintf k (n + 1) [0] args aux = .ok aux := rfl

/-- **`__printf`** of the two formats returns. -/
theorem vprintf_noFormat (hn : 21 ≤ n) (ch : UInt8) (args : VaList) (aux : σ) :
    ∃ aux', vprintf k n (noFormat ch) args aux = .ok aux' := by
  obtain ⟨front, back, hfront, hback, hlen, hlen', e⟩ := noFormat_eq ch
  obtain ⟨m, rfl⟩ : ∃ m, n = front.length + ((back.length + (m + 1)) + 1 + 1) := ⟨n - back.length - 8, by omega⟩
  have hmem : 0 ∈ chr 'c' :: (back ++ [0]) := by simp
  have hspec : afterSpec (chr 'c' :: (back ++ [0])) = chr 'c' :: (back ++ [0]) := rfl
  rw [e, vprintf_literal hfront, vprintf, charAt, ok_bind, if_neg (by decide), if_neg (by decide)]
  simp only [List.tail_cons]
  rw [charAt, ok_bind, if_pos rfl, vprintf, charAt, ok_bind, if_neg (by decide), if_neg (by decide)]
  simp only [List.tail_cons]
  obtain ⟨c, args', hparse, -⟩ := parseConversion_run hmem args
  rw [hspec] at hparse
  rw [charAt, ok_bind, if_neg (by decide), hparse, ok_bind]
  simp only [List.tail_cons]
  have hconvert : ∃ rest aux2, convert k (chr 'c') c args'
      (k.output (chr '%') (emit k.output front aux)) = .ok (some (rest, aux2)) := ⟨_, _, rfl⟩
  obtain ⟨rest, aux2, hconvert⟩ := hconvert
  rw [charAt, ok_bind, hconvert, ok_bind, finishRound, vprintf_literal hback, vprintf_finish]
  exact ⟨_, rfl⟩

/-! ## The whole format -/

/-- The terminator of `format` is its end. -/
def Terminated (format : List UInt8) : Prop := ∃ s : List UInt8, 0 ∉ s ∧ format = s ++ [0]

theorem Terminated.mem (h : Terminated format) : 0 ∈ format := by
  obtain ⟨s, -, rfl⟩ := h
  simp

/-- What stands behind a character is terminated as well. -/
theorem Terminated.tail (h : Terminated (ch :: format)) (hch : ch ≠ 0) : Terminated format := by
  obtain ⟨s, hs, e⟩ := h
  cases s with
  | nil => exact absurd (List.cons.inj e).1 hch
  | cons d s => exact ⟨s, fun hm => hs (List.mem_cons_of_mem _ hm), (List.cons.inj e).2⟩

theorem Terminated.eq_of_zero (h : Terminated (0 :: format)) : format = [] := by
  obtain ⟨s, hs, e⟩ := h
  cases s with
  | nil => exact (List.cons.inj e).2
  | cons d s => exact absurd (by rw [(List.cons.inj e).1]; exact List.mem_cons_self) hs

/-- A part of the format that goes up to the terminator. -/
theorem Terminated.suffix {rest : List UInt8} (h : Terminated format) (hsuffix : rest <:+ format)
    (hmem : 0 ∈ rest) : Terminated rest := by
  obtain ⟨s, hs, rfl⟩ := h
  rcases List.suffix_concat_iff.mp hsuffix with rfl | ⟨t, rfl, ht⟩
  · cases hmem
  · exact ⟨t, fun hm => hs (ht.subset hm), rfl⟩

theorem suffix_afterWidth (format : List UInt8) : afterWidth format <:+ format := by
  rw [afterWidth]
  split
  · exact List.tail_suffix _
  · exact List.dropWhile_suffix _

theorem suffix_afterPrecision (format : List UInt8) : afterPrecision format <:+ format := by
  rw [afterPrecision]
  split
  · exact (suffix_afterWidth _).trans (List.tail_suffix _)
  · exact List.suffix_rfl

theorem suffix_afterType (format : List UInt8) : afterType format <:+ format := by
  rw [afterType]
  split
  · split
    · exact (List.tail_suffix _).trans (List.tail_suffix _)
    · exact List.tail_suffix _
  · split
    · exact List.tail_suffix _
    · exact List.suffix_rfl

/-- A specification ends inside the format. -/
theorem suffix_afterSpec (format : List UInt8) : afterSpec format <:+ format :=
  (suffix_afterType _).trans ((suffix_afterPrecision _).trans ((suffix_afterWidth _).trans
    (List.dropWhile_suffix _)))

theorem Complete.mem (h : Complete format) : 0 ∈ format := by
  induction h with
  | finish => exact List.mem_cons_self
  | literal _ _ _ ih => exact List.mem_cons_of_mem _ ih
  | percent _ ih => exact List.mem_cons_of_mem _ (List.mem_cons_of_mem _ ih)
  | conversion _ spec _ _ ih =>
      exact List.mem_cons_of_mem _ ((suffix_afterSpec _).subset (spec ▸ List.mem_cons_of_mem _ ih))

/-- One round of the loop at a conversion. -/
theorem vprintf_conversion {rest : List UInt8} (hmem : 0 ∈ format) (h : format.head? ≠ some (chr '%'))
    (spec : afterSpec format = ch :: rest) (n : ℕ) (args : VaList) (aux : σ) :
    ∃ c args', parseConversion format args = .ok (ch :: rest, c, args') ∧
      vprintf k (n + 1) (chr '%' :: format) args aux =
        (convert k ch c args' aux >>= finishRound (vprintf k n) ch rest args' aux) := by
  obtain ⟨c, args', hparse, -⟩ := parseConversion_run hmem args
  rw [spec] at hparse
  refine ⟨c, args', hparse, ?_⟩
  obtain ⟨d, hhead, hd⟩ := charAt_run hmem
  have hne : d ≠ chr '%' := fun e => h (e ▸ hhead)
  rw [vprintf, charAt, ok_bind, if_neg (by decide), if_neg (by decide)]
  simp only [List.tail_cons]
  rw [hd, ok_bind, if_neg hne, hparse, ok_bind]
  simp only [List.tail_cons]
  rw [charAt, ok_bind]

/-- **A format whose specifications are complete is printed.** -/
theorem vprintf_complete (h : Complete format) (hf : format.length + 21 ≤ fuel) (args : VaList) (aux : σ) :
    ∃ aux', vprintf k fuel format args aux = .ok aux' := by
  induction h generalizing fuel args aux with
  | finish =>
      obtain ⟨n, rfl⟩ : ∃ n, fuel = n + 1 := ⟨fuel - 1, by omega⟩
      exact ⟨aux, vprintf_finish n args aux⟩
  | literal h0 hpercent _ ih =>
      obtain ⟨n, rfl⟩ : ∃ n, fuel = n + 1 := ⟨fuel - 1, by omega⟩
      rw [vprintf, charAt, ok_bind, if_neg h0, if_pos hpercent]
      exact ih (by simp only [List.length_cons] at hf; omega) _ _
  | percent _ ih =>
      obtain ⟨n, rfl⟩ : ∃ n, fuel = n + 1 := ⟨fuel - 1, by omega⟩
      rw [vprintf, charAt, ok_bind, if_neg (by decide), if_neg (by decide)]
      simp only [List.tail_cons]
      rw [charAt, ok_bind, if_pos rfl]
      exact ih (by simp only [List.length_cons] at hf; omega) _ _
  | @conversion format rest ch hhead spec h0 complete ih =>
      obtain ⟨n, rfl⟩ : ∃ n, fuel = n + 1 := ⟨fuel - 1, by omega⟩
      have hle := (suffix_afterSpec format).length_le
      have hmem : 0 ∈ format :=
        (suffix_afterSpec format).subset (spec ▸ List.mem_cons_of_mem _ complete.mem)
      obtain ⟨c, args', -, hrun⟩ := vprintf_conversion (k := k) hmem hhead spec n args aux
      rw [spec, List.length_cons] at hle
      rw [List.length_cons] at hf
      obtain ⟨r, hr⟩ := convert_returns k ch c args' aux
      rw [hrun, hr, ok_bind]
      cases r with
      | some r => exact ih (by omega) r.1 r.2
      | none =>
          obtain ⟨aux', hno⟩ := vprintf_noFormat (k := k) (n := n) (by omega) ch
            (fun _ => UInt32.ofNat (ofInt32 (signedBits 8 ch.toNat))) aux
          rw [finishRound, hno, ok_bind]
          exact ih (by omega) _ _

/-- Behind the terminator, there is nothing to be read. -/
theorem vprintf_nil (n : ℕ) (args : VaList) (aux aux' : σ) : vprintf k n [] args aux ≠ .ok aux' := by
  cases n with
  | zero => exact fun h => by cases h
  | succ n => exact fun h => by cases h

/-- **A format that is printed is complete.** -/
theorem complete_of_vprintf (h : Terminated format) (hrun : vprintf k fuel format args aux = .ok aux') :
    Complete format := by
  induction fuel generalizing format args aux with
  | zero => cases hrun
  | succ n ih =>
      cases format with
      | nil => exact absurd hrun (vprintf_nil _ _ _ _)
      | cons ch format =>
          by_cases h0 : ch = 0
          · subst h0
            rw [h.eq_of_zero]
            exact .finish
          have htail := h.tail h0
          by_cases hpercent : ch = chr '%'
          · subst hpercent
            by_cases hhead : format.head? = some (chr '%')
            · obtain ⟨rest, rfl⟩ := List.head?_eq_some_iff.mp hhead
              rw [vprintf, charAt, ok_bind, if_neg h0, if_neg (by simp)] at hrun
              simp only [List.tail_cons] at hrun
              rw [charAt, ok_bind, if_pos rfl] at hrun
              exact .percent (ih (htail.tail (by decide)) hrun)
            · have hmem := mem_afterSpec htail.mem
              have hspec := htail.suffix (suffix_afterSpec format) hmem
              obtain ⟨ch, rest, spec⟩ := List.exists_cons_of_ne_nil (List.ne_nil_of_mem hmem)
              rw [spec] at hspec
              obtain ⟨c, args', -, e⟩ := vprintf_conversion (k := k) htail.mem hhead spec n args aux
              obtain ⟨r, hr⟩ := convert_returns k ch c args' aux
              rw [e, hr, ok_bind] at hrun
              -- whatever is printed, the loop goes on behind the character of the conversion
              obtain ⟨args2, aux2, hrest⟩ : ∃ args2 aux2, vprintf k n rest args2 aux2 = .ok aux' := by
                cases r with
                | some r => exact ⟨_, _, hrun⟩
                | none =>
                    rw [finishRound] at hrun
                    cases hno : vprintf k n (noFormat ch)
                        (fun _ => UInt32.ofNat (ofInt32 (signedBits 8 ch.toNat))) aux with
                    | error e =>
                        rw [hno] at hrun
                        cases hrun
                    | ok aux2 =>
                        rw [hno, ok_bind] at hrun
                        exact ⟨_, _, hrun⟩
              by_cases hzero : ch = 0
              · subst hzero
                rw [hspec.eq_of_zero] at hrest
                exact absurd hrest (vprintf_nil _ _ _ _)
              · exact .conversion hhead spec hzero (ih (hspec.tail hzero) hrest)
          · rw [vprintf, charAt, ok_bind, if_neg h0, if_pos hpercent] at hrun
            exact .literal h0 hpercent (ih htail hrun)

/-- **Scanning stays inside the format** and ends at its terminator if and only if each percent
sign starts a complete conversion. -/
theorem vprintf_returns_iff (k : Sink σ) (h : 0 ∉ s) (hf : s.length + 22 ≤ fuel) (args : VaList) (aux : σ) :
    (∃ aux', vprintf k fuel (s ++ [0]) args aux = .ok aux') ↔ Complete (s ++ [0]) := by
  constructor
  · rintro ⟨aux', hrun⟩
    exact complete_of_vprintf ⟨s, h, rfl⟩ hrun
  · intro hc
    exact vprintf_complete hc (by rw [List.length_append, List.length_singleton]; omega) args aux

/-- The sink that keeps all characters, with a memory that does not change. -/
def recorder (mem : ℕ → UInt8) : Sink (List UInt8) := ⟨fun ch out => out ++ [ch], fun _ => mem⟩

/-- `"%d"` is printed. -/
theorem vprintf_returns_decimal : ∃ out, vprintf (recorder fun _ => 0) 64 ([chr '%', chr 'd'] ++ [0])
    (fun _ => 7) [] = .ok out :=
  (vprintf_returns_iff (recorder fun _ => 0) (by decide) (by decide) (fun _ => 7) []).mpr
    (.conversion (by decide) (show afterSpec [chr 'd', 0] = chr 'd' :: [0] from rfl) (by decide) .finish)

/-- On `"%"`, the loop steps over the terminator. -/
theorem vprintf_leaves_format : ¬ ∀ (s : List UInt8) (mem : ℕ → UInt8) (args : VaList), 0 ∉ s →
    ∃ fuel out, vprintf (recorder mem) fuel (s ++ [0]) args [] = .ok out := by
  intro h
  obtain ⟨fuel, out, hrun⟩ := h [chr '%'] (fun _ => 0) (fun _ => 0) (by decide)
  have hc : Complete [chr '%', 0] := complete_of_vprintf ⟨[chr '%'], by decide, rfl⟩ hrun
  cases hc with
  | literal h0 h rest => exact h rfl
  | conversion h spec h0 complete =>
      have e : afterSpec [0] = [0] := rfl
      rw [e] at spec
      exact h0 (List.cons.inj spec).1.symm

end

end Pintos.Stdio
