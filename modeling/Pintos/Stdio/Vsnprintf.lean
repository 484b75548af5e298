import Pintos.Stdio.Printf

/-!
# `vsnprintf`

`vsnprintf` of `lib/stdio.c` collects the output of `__vprintf` in a buffer, through a callback
that counts all characters and stores as many as there is room for.  The buffer is a part of the
memory that the conversions read strings from.

What is printed is what a second callback has seen that keeps all characters, in the same run.

* **`vprintf_simulates`** — callbacks that keep a relation between their states.
* **`vsnprintf_bounded`** — the result, the buffer, and the memory around it.
-/

namespace Pintos.Stdio

open Lib

/-! ## The code -/

/-- `struct vsnprintf_aux`, and memory. -/
structure VsnprintfAux where
  p : ℕ
  length : ℤ
  maxLength : ℤ
  mem : ℕ → UInt8

/-- `vsnprintf_helper`. -/
def vsnprintfHelper (ch : UInt8) (aux : VsnprintfAux) : VsnprintfAux :=
  if aux.length < aux.maxLength then
    { aux with length := wrap32 (aux.length + 1), mem := Function.update aux.mem aux.p ch, p := aux.p + 1 }
  else { aux with length := wrap32 (aux.length + 1) }

/-- The callback of `vsnprintf`. -/
def vsnprintfSink : Sink VsnprintfAux := ⟨vsnprintfHelper, VsnprintfAux.mem⟩

/-- The state that `vsnprintf` sets up. -/
def vsnprintfStart (buffer bufSize : ℕ) (mem : ℕ → UInt8) : VsnprintfAux :=
  ⟨buffer, 0, if 0 < bufSize then toInt32 (bufSize - 1) else 0, mem⟩

/-- `vsnprintf`: the result, and memory. -/
def vsnprintf (fuel buffer bufSize : ℕ) (format : List UInt8) (args : VaList) (mem : ℕ → UInt8) :
    Except PrintfFault (ℤ × (ℕ → UInt8)) := do
  let aux ← vprintf vsnprintfSink fuel format args (vsnprintfStart buffer bufSize mem)
  return (aux.length, if 0 < bufSize then Function.update aux.mem aux.p 0 else aux.mem)

/-! ## Two callbacks in one run -/

section

variable {σ τ : Type} {k : Sink σ} {k' : Sink τ} {R : σ → τ → Prop}

/-- The callbacks keep a relation between their states, and show the same memory in related ones. -/
structure Sink.Simulates (k : Sink σ) (k' : Sink τ) (R : σ → τ → Prop) : Prop where
  output : ∀ ch a b, R a b → R (k.output ch a) (k'.output ch b)
  mem : ∀ a b, R a b → k.mem a = k'.mem b

namespace Sink.Simulates

theorem emit (h : k.Simulates k' R) {a : σ} {b : τ} (hab : R a b) (text : List UInt8) :
    R (emit k.output text a) (emit k'.output text b) := by
  induction text generalizing a b with
  | nil => exact hab
  | cons ch text ih => exact ih (h.output ch a b hab)

theorem outputDup (h : k.Simulates k' R) {a : σ} {b : τ} (hab : R a b) (ch : UInt8) (cnt : ℕ) :
    R (outputDup ch cnt k.output a) (outputDup ch cnt k'.output b) := by
  rw [outputDup_run, outputDup_run]
  exact h.emit hab _

theorem outputString (h : k.Simulates k' R) {string : σ → ℕ → UInt8} {string' : τ → ℕ → UInt8}
    (hs : ∀ a b, R a b → string a = string' b) {a : σ} {b : τ} (hab : R a b) (n i : ℕ) :
    R (outputString string n i k.output a) (outputString string' n i k'.output b) := by
  induction n generalizing i a b with
  | zero => exact hab
  | succ n ih =>
      rw [Stdio.outputString, Stdio.outputString, hs a b hab]
      exact ih (h.output _ a b hab) (i + 1)

theorem formatString (h : k.Simulates k' R) {string : σ → ℕ → UInt8} {string' : τ → ℕ → UInt8}
    (hs : ∀ a b, R a b → string a = string' b) {a : σ} {b : τ} (hab : R a b) (length : ℤ)
    (c : PrintfConversion) :
    R (formatString string length c k.output a) (formatString string' length c k'.output b) := by
  have hdup : ∀ (p : Prop) [Decidable p] (cnt : ℕ) (a : σ) (b : τ), R a b →
      R (if p then Stdio.outputDup (chr ' ') cnt k.output a else a)
        (if p then Stdio.outputDup (chr ' ') cnt k'.output b else b) := by
    intro p _ cnt a b hab
    split
    · exact h.outputDup hab _ _
    · exact hab
  exact hdup _ _ _ _ (h.outputString hs (hdup _ _ _ _ hab) _ _)

/-- A conversion takes the same arguments with both callbacks. -/
theorem convert (h : k.Simulates k' R) {a : σ} {b : τ} (hab : R a b) (ch : UInt8) (c : PrintfConversion)
    (args : VaList) :
    (convert k ch c args a = .ok none ∧ convert k' ch c args b = .ok none) ∨
    ∃ rest a' b', convert k ch c args a = .ok (some (rest, a')) ∧
      convert k' ch c args b = .ok (some (rest, b')) ∧ R a' b' := by
  by_cases hint : ch ∈ integerChars
  · exact .inr ⟨_, _, _, convert_integer hint, convert_integer hint, h.emit hab _⟩
  have hne : ∀ d ∈ integerChars, ch ≠ d := fun d hd e => hint (e ▸ hd)
  have hsigned : ¬ (ch = chr 'd' ∨ ch = chr 'i') := not_or.mpr ⟨hne _ (by decide), hne _ (by decide)⟩
  have hunsigned : ¬ (ch = chr 'o' ∨ ch = chr 'u' ∨ ch = chr 'x' ∨ ch = chr 'X') := by
    rintro (e | e | e | e)
    · exact hne _ (by decide) e
    · exact hne _ (by decide) e
    · exact hne _ (by decide) e
    · exact hne _ (by decide) e
  have hpointer : ch ≠ chr 'p' := hne _ (by decide)
  rw [Stdio.convert, Stdio.convert, if_neg hsigned, if_neg hsigned, if_neg hunsigned, if_neg hunsigned]
  by_cases hc : ch = chr 'c'
  · rw [if_pos hc, if_pos hc]
    exact .inr ⟨_, _, _, rfl, rfl, h.formatString (fun _ _ _ => rfl) hab _ _⟩
  rw [if_neg hc, if_neg hc]
  by_cases hs : ch = chr 's'
  · rw [if_pos hs, if_pos hs]
    have hstring : ∀ a b, R a b →
        (fun i => if (args 0).toNat = 0 then nullText.getD i 0 else k.mem a ((args 0).toNat + i)) =
        (fun i => if (args 0).toNat = 0 then nullText.getD i 0 else k'.mem b ((args 0).toNat + i)) :=
      fun a b hab => by rw [h.mem a b hab]
    refine .inr ⟨_, _, _, rfl, rfl, ?_⟩
    beta_reduce
    rw [hstring a b hab]
    exact h.formatString hstring hab _ _
  · rw [if_neg hs, if_neg hs, if_neg hpointer, if_neg hpointer]
    exact .inl ⟨rfl, rfl⟩

end Sink.Simulates

/-- **The two callbacks in two runs of the loop**: if one returns, so does the other, in related
states. -/
theorem vprintf_simulates (h : k.Simulates k' R) {fuel : ℕ} {format : List UInt8} {args : VaList} {a a' : σ}
    {b : τ} (hab : R a b) (hrun : vprintf k fuel format args a = .ok a') :
    ∃ b', vprintf k' fuel format args b = .ok b' ∧ R a' b' := by
  induction fuel generalizing format args a a' b with
  | zero => cases hrun
  | succ n ih =>
      rw [vprintf] at hrun ⊢
      cases hch : charAt format with
      | error e =>
          rw [hch] at hrun
          cases hrun
      | ok ch =>
      rw [hch, ok_bind] at hrun
      rw [ok_bind]
      by_cases h0 : ch = 0
      · rw [if_pos h0] at hrun ⊢
        cases hrun
        exact ⟨b, rfl, hab⟩
      rw [if_neg h0] at hrun ⊢
      by_cases hpercent : ch ≠ chr '%'
      · rw [if_pos hpercent] at hrun ⊢
        exact ih (h.output ch a b hab) hrun
      rw [if_neg hpercent] at hrun ⊢
      simp only at hrun ⊢
      cases hnext : charAt format.tail with
      | error e =>
          rw [hnext] at hrun
          cases hrun
      | ok next =>
      rw [hnext, ok_bind] at hrun
      rw [ok_bind]
      by_cases htwice : next = chr '%'
      · rw [if_pos htwice] at hrun ⊢
        exact ih (h.output _ a b hab) hrun
      rw [if_neg htwice] at hrun ⊢
      cases hparse : parseConversion format.tail args with
      | error e =>
          rw [hparse] at hrun
          cases hrun
      | ok r =>
      obtain ⟨rest, c, args'⟩ := r
      rw [hparse, ok_bind] at hrun
      rw [ok_bind]
      simp only at hrun ⊢
      cases hconv : charAt rest with
      | error e =>
          rw [hconv] at hrun
          cases hrun
      | ok conv =>
      rw [hconv, ok_bind] at hrun
      rw [ok_bind]
      rcases h.convert hab conv c args' with ⟨e, e'⟩ | ⟨args2, a2, b2, e, e', hab2⟩
      · rw [e, ok_bind, finishRound] at hrun
        rw [e', ok_bind, finishRound]
        cases hno : vprintf k n (noFormat conv) (fun _ => UInt32.ofNat (ofInt32 (signedBits 8 conv.toNat))) a with
        | error e =>
            rw [hno] at hrun
            cases hrun
        | ok a2 =>
            rw [hno, ok_bind] at hrun
            obtain ⟨b2, hno', hab2⟩ := ih hab hno
            rw [hno', ok_bind]
            exact ih hab2 hrun
      · rw [e, ok_bind, finishRound] at hrun
        rw [e', ok_bind, finishRound]
        exact ih hab2 hrun

end

/-! ## The buffer -/

/-- The callback that also keeps all characters. -/
def logged {σ : Type} (k : Sink σ) : Sink (List UInt8 × σ) :=
  ⟨fun ch a => (a.1 ++ [ch], k.output ch a.2), fun a => k.mem a.2⟩

/-- The buffer of `bufSize` bytes at `buffer` holds as much of the text as there is room for, and a
zero byte behind it; other memory is not changed. -/
structure Holds (mem mem' : ℕ → UInt8) (buffer bufSize : ℕ) (text : List UInt8) : Prop where
  stored : 0 < bufSize → ∀ i < min text.length (bufSize - 1), mem' (buffer + i) = text.getD i 0
  ended : 0 < bufSize → mem' (buffer + min text.length (bufSize - 1)) = 0
  others : ∀ a, a < buffer ∨ buffer + bufSize ≤ a → mem' a = mem a

section

variable {buffer bufSize : ℕ} {mem : ℕ → UInt8}

/-- **The three counters**, as long as `length` has not overflowed: it is the length of the output,
and `p` stands behind what is stored. -/
structure Stored (mem : ℕ → UInt8) (buffer bufSize : ℕ) (text : List UInt8) (aux : VsnprintfAux) : Prop where
  maxLength : aux.maxLength = ((bufSize - 1 : ℕ) : ℤ)
  length : aux.length = text.length
  p : aux.p = buffer + min text.length (bufSize - 1)
  stored : ∀ i < min text.length (bufSize - 1), aux.mem (buffer + i) = text.getD i 0
  others : ∀ a, a < buffer ∨ buffer + (bufSize - 1) ≤ a → aux.mem a = mem a

theorem stored_start (hsize : bufSize < 2 ^ 31) :
    Stored mem buffer bufSize [] (vsnprintfStart buffer bufSize mem) := by
  refine ⟨?_, rfl, by simp [vsnprintfStart], by simp, fun _ _ => rfl⟩
  rw [vsnprintfStart, toInt32]
  split
  · rw [if_pos (by omega)]
  · simp only
    omega

/-- One more character. -/
theorem Stored.output {text : List UInt8} {aux : VsnprintfAux} (h : Stored mem buffer bufSize text aux)
    (hlen : text.length + 1 < 2 ^ 31) (ch : UInt8) :
    Stored mem buffer bufSize (text ++ [ch]) (vsnprintfHelper ch aux) := by
  have hwrap : wrap32 (aux.length + 1) = ((text ++ [ch]).length : ℤ) := by
    rw [h.length, wrap32_of_range (by omega) (by omega), List.length_append, List.length_singleton]
    rfl
  have hlt : aux.length < aux.maxLength ↔ text.length < bufSize - 1 := by
    rw [h.length, h.maxLength]
    omega
  have hlength : (text ++ [ch]).length = text.length + 1 := by simp
  rw [vsnprintfHelper]
  by_cases hroom : text.length < bufSize - 1
  · rw [if_pos (hlt.mpr hroom)]
    have hp : aux.p = buffer + text.length := by rw [h.p]; omega
    refine ⟨h.maxLength, hwrap, ?_, fun i hi => ?_, fun a ha => ?_⟩
    · simp only
      omega
    · rw [hlength] at hi
      simp only [hp]
      rcases Nat.lt_or_eq_of_le (show i ≤ text.length by omega) with hlt | rfl
      · rw [Function.update_of_ne (by omega), h.stored i (by omega), List.getD_append _ _ _ _ hlt]
      · rw [Function.update_self, List.getD_append_right _ _ _ _ le_rfl, Nat.sub_self]
        rfl
    · simp only [hp]
      rw [Function.update_of_ne (by omega), h.others a ha]
  · rw [if_neg (fun hc => hroom (hlt.mp hc))]
    refine ⟨h.maxLength, hwrap, ?_, fun i hi => ?_, h.others⟩
    · simp only
      rw [h.p]
      omega
    · rw [h.stored i (by omega), List.getD_append _ _ _ _ (by omega)]

/-- **Bounded formatting**: when the output, which is all that `__vprintf` emits in this run, is
shorter than `2 ^ 31`, its length is returned, and the buffer holds what there is room for. -/
theorem vsnprintf_bounded {format : List UInt8} {fuel : ℕ} (h : Complete format)
    (hf : format.length + 21 ≤ fuel) (hsize : bufSize < 2 ^ 31) (args : VaList) :
    ∃ text aux, vprintf (logged vsnprintfSink) fuel format args ([], vsnprintfStart buffer bufSize mem) =
        .ok (text, aux) ∧
      (text.length < 2 ^ 31 → ∃ mem', vsnprintf fuel buffer bufSize format args mem =
        .ok ((text.length : ℤ), mem') ∧ Holds mem mem' buffer bufSize text) := by
  obtain ⟨⟨text, aux⟩, hrun⟩ :=
    vprintf_complete (k := logged vsnprintfSink) h hf args ([], vsnprintfStart buffer bufSize mem)
  have hsim : (logged vsnprintfSink).Simulates vsnprintfSink fun a b =>
      a.2 = b ∧ (a.1.length < 2 ^ 31 → Stored mem buffer bufSize a.1 a.2) := by
    refine ⟨fun ch a b hab => ⟨congrArg (vsnprintfHelper ch) hab.1, fun hlen => ?_⟩, fun a b hab =>
      congrArg VsnprintfAux.mem hab.1⟩
    have hlen' : a.1.length + 1 < 2 ^ 31 := by simpa [logged] using hlen
    exact (hab.2 (by omega)).output hlen' ch
  obtain ⟨aux', hrun', rfl, hstored⟩ := vprintf_simulates hsim
    (show _ = _ ∧ (_ → _) from ⟨rfl, fun _ => stored_start hsize⟩) hrun
  refine ⟨text, aux, hrun, fun hlen => ?_⟩
  have hfinal : Stored mem buffer bufSize text aux := hstored hlen
  refine ⟨if 0 < bufSize then Function.update aux.mem aux.p 0 else aux.mem, ?_, fun hpos i hi => ?_,
    fun hpos => ?_, fun a ha => ?_⟩
  · rw [vsnprintf, hrun', ok_bind, ← hfinal.length]
    rfl
  · rw [if_pos hpos, hfinal.p, Function.update_of_ne (by omega), hfinal.stored i hi]
  · rw [if_pos hpos, hfinal.p, Function.update_self]
  · split
    · next hpos => rw [hfinal.p, Function.update_of_ne (by omega), hfinal.others a (by omega)]
    · next hzero => exact hfinal.others a (by omega)

/-- `"%d"` in a buffer of 4 bytes. -/
theorem vsnprintf_bounded_decimal :
    ∃ text aux, vprintf (logged vsnprintfSink) 64 [chr '%', chr 'd', 0] (fun _ => 7)
        ([], vsnprintfStart 16 4 fun _ => 0) = .ok (text, aux) ∧
      (text.length < 2 ^ 31 → ∃ mem', vsnprintf 64 16 4 [chr '%', chr 'd', 0] (fun _ => 7) (fun _ => 0) =
        .ok ((text.length : ℤ), mem') ∧ Holds (fun _ => 0) mem' 16 4 text) :=
  vsnprintf_bounded (.conversion (by decide) (show afterSpec [chr 'd', 0] = chr 'd' :: [0] from rfl)
    (by decide) .finish) (by decide) (by decide) _

end

end Pintos.Stdio
