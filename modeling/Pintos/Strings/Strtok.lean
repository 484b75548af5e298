import Mathlib.Data.List.TakeWhile
import Pintos.Lib.Command
import Pintos.Lib.Memory
import Pintos.Lib.Words

/-!
# Strings and their tokens

`strlen` and `strtok_r` of `lib/string.c`, the same in both kernels, as code that runs on memory.
A pointer is an address, and 0 is the null pointer.  The delimiters are given as the characters
they are; `strchr` finds the terminator in any string, which is why both loops of `strtok_r` end
there.

The loops run as far as the string goes; `fuel` bounds them.

* **`strlcpy_run`** — a copy of a string.
* **`strtokR_spec`** — a call cuts the next word of the text off, or finds that there is none.
-/

namespace Pintos.Strings

open Lib

/-- How code on strings may end without returning. -/
inductive StringStop where
  | assertFailed
  | unending
deriving DecidableEq, Repr

/-- Code on strings. -/
abbrev StringCode (α : Type) : Type := EStateM StringStop (ℕ → UInt8) α

/-- `ASSERT`. -/
def stringAssert (c : Bool) : StringCode Unit := if c then pure () else stop .assertFailed

/-- The loop of `strlen`: the address of the terminator. -/
def strlenLoop : ℕ → ℕ → StringCode ℕ
  | 0, _ => stop .unending
  | n + 1, p => do
      let c ← fetch fun mem => mem p
      if c = 0 then pure p else strlenLoop n (p + 1)

/-- `strlen`. -/
def strlen (fuel string : ℕ) : StringCode ℕ := do
  stringAssert (string ≠ 0)
  let p ← strlenLoop fuel string
  return p - string

/-- `strchr (delimiters, c) != NULL`. -/
def strchrFinds (delimiters : List UInt8) (c : UInt8) : Bool := c = 0 || delimiters.contains c

/-- The first loop of `strtok_r`: where it stops, and whether it is at the terminator. -/
def skipDelimiters (delimiters : List UInt8) : ℕ → ℕ → StringCode (ℕ × Bool)
  | 0, _ => stop .unending
  | n + 1, s => do
      let c ← fetch fun mem => mem s
      if strchrFinds delimiters c then
        if c = 0 then pure (s, true) else skipDelimiters delimiters n (s + 1)
      else pure (s, false)

/-- The second loop of `strtok_r`. -/
def skipToken (delimiters : List UInt8) : ℕ → ℕ → StringCode ℕ
  | 0, _ => stop .unending
  | n + 1, s => do
      let c ← fetch fun mem => mem s
      if strchrFinds delimiters c then pure s else skipToken delimiters n (s + 1)

/-- `strlcpy`, for strings that do not overlap. -/
def strlcpy (fuel dst src size : ℕ) : StringCode ℕ := do
  stringAssert (dst ≠ 0)
  stringAssert (src ≠ 0)
  let srcLen ← strlen fuel src
  if 0 < size then do
    let dstLen := min srcLen (size - 1)
    change fun mem a => if dst ≤ a ∧ a < dst + dstLen then mem (src + (a - dst)) else mem a
    change fun mem => Function.update mem (dst + dstLen) 0
    return srcLen
  else return srcLen

/-- `strtok_r`: the token and the new value of `*save_ptr`. -/
def strtokR (fuel : ℕ) (delimiters : List UInt8) (s savePtr : ℕ) : StringCode (ℕ × ℕ) := do
  let s := if s = 0 then savePtr else s
  stringAssert (s ≠ 0)
  let (token, atEnd) ← skipDelimiters delimiters fuel s
  if atEnd then return (0, token)
  else do
    let s ← skipToken delimiters fuel token
    let c ← fetch fun mem => mem s
    if c ≠ 0 then do
      change fun mem => Function.update mem s 0
      return (token, s + 1)
    else return (token, s)

section

variable {mem : ℕ → UInt8} {delimiters text run : List UInt8} {fuel s : ℕ}

/-! ## The loops -/

theorem strlenLoop_run : ∀ {text : List UInt8} {fuel s : ℕ}, IsString mem s text → text.length < fuel →
    strlenLoop fuel s mem = .ok (s + text.length) mem := by
  intro text
  induction text with
  | nil =>
      intro fuel s h hf
      obtain ⟨n, rfl⟩ : ∃ n, fuel = n + 1 := ⟨fuel - 1, by simp at hf; omega⟩
      rw [strlenLoop, fetch_bind, if_pos (IsString.nil_iff.mp h)]
      rfl
  | cons c text ih =>
      intro fuel s h hf
      obtain ⟨n, rfl⟩ : ∃ n, fuel = n + 1 := ⟨fuel - 1, by simp at hf; omega⟩
      obtain ⟨hc, hne, h'⟩ := IsString.cons_iff.mp h
      rw [strlenLoop, fetch_bind, hc, if_neg hne, ih h' (by simpa using hf), List.length_cons]
      congr 1
      omega

/-- **`strlen`**. -/
theorem strlen_run (h : IsString mem s text) (hs : s ≠ 0) (hf : text.length < fuel) :
    strlen fuel s mem = .ok text.length mem := by
  have hassert : stringAssert (decide (s ≠ 0)) mem = .ok () mem := by
    rw [decide_eq_true hs]
    rfl
  rw [strlen, bind_of_ok hassert, bind_of_ok (strlenLoop_run h hf)]
  show EStateM.Result.ok (s + text.length - s) mem = _
  rw [Nat.add_sub_cancel_left]

/-- Delimiters are skipped up to a word. -/
theorem skipDelimiters_word : ∀ {skipped : List UInt8} {fuel s : ℕ} {c : UInt8} {text : List UInt8},
    IsString mem s (skipped ++ c :: text) → (∀ x ∈ skipped, x ∈ delimiters) → c ∉ delimiters →
    skipped.length < fuel →
    skipDelimiters delimiters fuel s mem = .ok (s + skipped.length, false) mem := by
  intro skipped
  induction skipped with
  | nil =>
      intro fuel s c text h _ hc hf
      obtain ⟨n, rfl⟩ : ∃ n, fuel = n + 1 := ⟨fuel - 1, by simp at hf; omega⟩
      obtain ⟨hs, hne, -⟩ := IsString.cons_iff.mp h
      rw [skipDelimiters, fetch_bind, hs, if_neg (by simp [strchrFinds, hne, hc])]
      rfl
  | cons x skipped ih =>
      intro fuel s c text h hd hc hf
      obtain ⟨n, rfl⟩ : ∃ n, fuel = n + 1 := ⟨fuel - 1, by simp at hf; omega⟩
      obtain ⟨hs, hne, h'⟩ := IsString.cons_iff.mp h
      rw [skipDelimiters, fetch_bind, hs, if_pos (by simp [strchrFinds, hd x List.mem_cons_self]),
        if_neg hne, ih h' (fun y hy => hd y (List.mem_cons_of_mem _ hy)) hc (by simpa using hf),
        List.length_cons]
      congr 2
      omega

/-- Delimiters are skipped up to the terminator. -/
theorem skipDelimiters_end : ∀ {skipped : List UInt8} {fuel s : ℕ}, IsString mem s skipped →
    (∀ x ∈ skipped, x ∈ delimiters) → skipped.length < fuel →
    skipDelimiters delimiters fuel s mem = .ok (s + skipped.length, true) mem := by
  intro skipped
  induction skipped with
  | nil =>
      intro fuel s h _ hf
      obtain ⟨n, rfl⟩ : ∃ n, fuel = n + 1 := ⟨fuel - 1, by simp at hf; omega⟩
      have hs := IsString.nil_iff.mp h
      rw [skipDelimiters, fetch_bind, hs, if_pos (by simp [strchrFinds]), if_pos rfl]
      rfl
  | cons x skipped ih =>
      intro fuel s h hd hf
      obtain ⟨n, rfl⟩ : ∃ n, fuel = n + 1 := ⟨fuel - 1, by simp at hf; omega⟩
      obtain ⟨hs, hne, h'⟩ := IsString.cons_iff.mp h
      rw [skipDelimiters, fetch_bind, hs, if_pos (by simp [strchrFinds, hd x List.mem_cons_self]),
        if_neg hne, ih h' (fun y hy => hd y (List.mem_cons_of_mem _ hy)) (by simpa using hf),
        List.length_cons]
      congr 2
      omega

/-- A token goes on as long as there are no delimiters. -/
theorem skipToken_run : ∀ {run : List UInt8} {fuel s : ℕ} {rest : List UInt8},
    IsString mem s (run ++ rest) → (∀ x ∈ run, x ∉ delimiters) → (∀ x ∈ rest.head?, x ∈ delimiters) →
    run.length < fuel → skipToken delimiters fuel s mem = .ok (s + run.length) mem := by
  intro run
  induction run with
  | nil =>
      intro fuel s rest h _ hrest hf
      obtain ⟨n, rfl⟩ : ∃ n, fuel = n + 1 := ⟨fuel - 1, by simp at hf; omega⟩
      have hfinds : strchrFinds delimiters (mem s) = true := by
        cases rest with
        | nil => simp [strchrFinds, IsString.nil_iff.mp h]
        | cons c rest =>
            rw [(IsString.cons_iff.mp h).1]
            simp [strchrFinds, hrest c rfl]
      rw [skipToken, fetch_bind, if_pos hfinds]
      rfl
  | cons x run ih =>
      intro fuel s rest h hd hrest hf
      obtain ⟨n, rfl⟩ : ∃ n, fuel = n + 1 := ⟨fuel - 1, by simp at hf; omega⟩
      obtain ⟨hs, hne, h'⟩ := IsString.cons_iff.mp h
      rw [skipToken, fetch_bind, hs, if_neg (by simp [strchrFinds, hne, hd x List.mem_cons_self]),
        ih h' (fun y hy => hd y (List.mem_cons_of_mem _ hy)) hrest (by simpa using hf), List.length_cons]
      congr 1
      omega

/-! ## `strlcpy` -/

/-- Where a text stands for the tokenizer: nothing but delimiters, or a word after some. -/
theorem split_text (delimiters text : List UInt8) :
    (∀ x ∈ text, x ∈ delimiters) ∨
    ∃ skipped run rest, text = skipped ++ run ++ rest ∧ (∀ x ∈ skipped, x ∈ delimiters) ∧
      run ≠ [] ∧ (∀ x ∈ run, x ∉ delimiters) ∧ ∀ x ∈ rest.head?, x ∈ delimiters := by
  have hskip : ∀ x ∈ text.takeWhile delimiters.contains, x ∈ delimiters := fun x hx => by
    simpa using List.mem_takeWhile_imp hx
  cases htext : text.dropWhile delimiters.contains with
  | nil =>
      refine .inl fun x hx => hskip x ?_
      rwa [← List.takeWhile_append_dropWhile (p := delimiters.contains) (l := text), htext,
        List.append_nil] at hx
  | cons c tail =>
      have hc : c ∉ delimiters := by
        have hne : text.dropWhile delimiters.contains ≠ [] := by simp [htext]
        have := List.head_dropWhile_not delimiters.contains hne
        simpa [htext] using this
      refine .inr ⟨text.takeWhile delimiters.contains,
        c :: tail.takeWhile (fun x => !delimiters.contains x),
        tail.dropWhile (fun x => !delimiters.contains x), ?_, hskip, by simp, ?_, ?_⟩
      · rw [List.append_assoc, List.cons_append, List.takeWhile_append_dropWhile, ← htext,
          List.takeWhile_append_dropWhile]
      · intro x hx
        rcases List.mem_cons.mp hx with rfl | hx
        · exact hc
        · simpa using List.mem_takeWhile_imp hx
      · intro x hx
        have hne : tail.dropWhile (fun x => !delimiters.contains x) ≠ [] := by
          rintro e
          rw [e] at hx
          cases hx
        have hy := List.head_dropWhile_not (fun x => !delimiters.contains x) hne
        rw [List.head?_eq_some_head hne, Option.mem_some_iff] at hx
        rw [hx] at hy
        simpa using hy

/-- The first loop of a call, from the pointer that it starts at. -/
theorem strtokR_start (hs : s ≠ 0) {s0 save0 : ℕ} (harg : (if s0 = 0 then save0 else s0) = s) :
    strtokR fuel delimiters s0 save0 mem =
      (skipDelimiters delimiters fuel s >>= fun r => if r.2 then pure (0, r.1) else do
        let s ← skipToken delimiters fuel r.1
        let c ← fetch fun mem => mem s
        if c ≠ 0 then do
          change fun mem => Function.update mem s 0
          return (r.1, s + 1)
        else return (r.1, s)) mem := by
  have hassert : stringAssert (decide (s ≠ 0)) mem = .ok () mem := by
    rw [decide_eq_true hs]
    rfl
  rw [strtokR]
  simp only [harg]
  rw [bind_of_ok hassert]

/-- **A call at nothing but delimiters** returns null, and stays at the end of the text. -/
theorem strtokR_end (h : IsString mem s text) (hall : ∀ x ∈ text, x ∈ delimiters) (hs : s ≠ 0)
    (hf : text.length < fuel) {s0 save0 : ℕ} (harg : (if s0 = 0 then save0 else s0) = s) :
    strtokR fuel delimiters s0 save0 mem = .ok (0, s + text.length) mem := by
  rw [strtokR_start hs harg, bind_of_ok (skipDelimiters_end h hall hf)]
  rfl

section Word

variable {skipped rest : List UInt8}

/-- **A call at a word** finds the two ends of the word. -/
theorem strtokR_word (h : IsString mem s (skipped ++ run ++ rest)) (hs : s ≠ 0)
    (hskip : ∀ x ∈ skipped, x ∈ delimiters) (hne : run ≠ []) (hrun : ∀ x ∈ run, x ∉ delimiters)
    (hrest : ∀ x ∈ rest.head?, x ∈ delimiters) (hf : (skipped ++ run ++ rest).length < fuel)
    {s0 save0 : ℕ} (harg : (if s0 = 0 then save0 else s0) = s) :
    strtokR fuel delimiters s0 save0 mem =
      (if mem (s + skipped.length + run.length) ≠ 0 then
        .ok (s + skipped.length, s + skipped.length + run.length + 1)
          (Function.update mem (s + skipped.length + run.length) 0)
      else .ok (s + skipped.length, s + skipped.length + run.length) mem) := by
  obtain ⟨c, run', rfl⟩ := List.exists_cons_of_ne_nil hne
  rw [List.append_assoc] at h
  have hword : IsString mem (s + skipped.length) (c :: run' ++ rest) := h.suffix
  simp only [List.length_append, List.length_cons] at hf
  rw [strtokR_start hs harg, bind_of_ok (skipDelimiters_word h hskip (hrun c List.mem_cons_self)
    (by omega))]
  simp only [Bool.false_eq_true, if_false]
  rw [bind_of_ok (skipToken_run hword hrun hrest (by simp only [List.length_cons]; omega)), fetch_bind]
  split
  · rfl
  · rfl

/-- The last word of a text. -/
theorem strtokR_last (h : IsString mem s (skipped ++ run)) (hs : s ≠ 0)
    (hskip : ∀ x ∈ skipped, x ∈ delimiters) (hne : run ≠ []) (hrun : ∀ x ∈ run, x ∉ delimiters)
    (hf : (skipped ++ run).length < fuel) {s0 save0 : ℕ} (harg : (if s0 = 0 then save0 else s0) = s) :
    strtokR fuel delimiters s0 save0 mem =
      .ok (s + skipped.length, s + skipped.length + run.length) mem := by
  have hzero := h.terminator
  rw [List.length_append, ← Nat.add_assoc] at hzero
  rw [strtokR_word (by rwa [List.append_nil]) hs hskip hne hrun (by simp) (by rwa [List.append_nil]) harg,
    if_neg (not_not.mpr hzero)]

/-- A word and a delimiter behind it. -/
theorem strtokR_next {d : UInt8} (h : IsString mem s (skipped ++ run ++ d :: rest)) (hs : s ≠ 0)
    (hskip : ∀ x ∈ skipped, x ∈ delimiters) (hne : run ≠ []) (hrun : ∀ x ∈ run, x ∉ delimiters)
    (hd : d ∈ delimiters) (hf : (skipped ++ run ++ d :: rest).length < fuel) {s0 save0 : ℕ}
    (harg : (if s0 = 0 then save0 else s0) = s) :
    strtokR fuel delimiters s0 save0 mem =
      .ok (s + skipped.length, s + skipped.length + run.length + 1)
        (Function.update mem (s + skipped.length + run.length) 0) := by
  obtain ⟨hend, hd0, -⟩ := IsString.cons_iff.mp h.suffix
  rw [List.length_append, ← Nat.add_assoc] at hend
  rw [strtokR_word h hs hskip hne hrun (by simpa using hd) hf harg, hend, if_pos hd0]

end Word

/-- What a call of `strtok_r` on the text at `s` leaves when it has cut off the token `w`: the
rest of the text at `save`, and memory as it was but for a zero byte behind the token. -/
structure Cut (mem mem' : ℕ → UInt8) (s : ℕ) (text : List UInt8) (token save : ℕ) (w rest : List UInt8) :
    Prop where
  word : IsString mem' token w
  following : IsString mem' save rest
  ends : save + rest.length = s + text.length
  start : s ≤ token
  next : token + w.length ≤ save
  frame : ∀ a, a < s ∨ s + text.length ≤ a → mem' a = mem a

/-- **`strtok_r`** on a text, at the first call or a later one: null and the end of the text if
there is no word left, or the next word. -/
theorem strtokR_spec (h : IsString mem s text) (hs : s ≠ 0) (hf : text.length < fuel) {s0 save0 : ℕ}
    (harg : (if s0 = 0 then save0 else s0) = s) :
    (words delimiters.contains text = [] ∧
      strtokR fuel delimiters s0 save0 mem = .ok (0, s + text.length) mem) ∨
    ∃ token save w rest mem', strtokR fuel delimiters s0 save0 mem = .ok (token, save) mem' ∧
      words delimiters.contains text = w :: words delimiters.contains rest ∧ token ≠ 0 ∧
      Cut mem mem' s text token save w rest := by
  rcases split_text delimiters text with hall | ⟨skipped, run, rest, rfl, hskip, hne, hrun, hrest⟩
  · refine .inl ⟨?_, strtokR_end h hall hs hf harg⟩
    clear h hf harg
    induction text with
    | nil => exact words_nil
    | cons c text ih =>
        rw [words_cons (by simpa using hall c List.mem_cons_self)]
        exact ih fun x hx => hall x (List.mem_cons_of_mem _ hx)
  · have hwords : words delimiters.contains (skipped ++ run ++ rest) =
        words delimiters.contains (run ++ rest) := by
      clear h hf harg
      rw [List.append_assoc]
      induction skipped with
      | nil => rfl
      | cons c skipped ih =>
          rw [List.cons_append, words_cons (by simpa using hskip c List.mem_cons_self)]
          exact ih fun x hx => hskip x (List.mem_cons_of_mem _ hx)
    have hword : IsString mem (s + skipped.length) (run ++ rest) := by
      rw [List.append_assoc] at h
      exact h.suffix
    have hrun0 : ∀ x ∈ run, delimiters.contains x = false := fun x hx => by
      simpa using hrun x hx
    have hend : IsString mem (s + skipped.length + run.length) rest := hword.suffix
    cases rest with
    | nil =>
        rw [List.append_nil] at h hf hword
        refine .inr ⟨_, _, run, [], mem, strtokR_last h hs hskip hne hrun hf harg, ?_, by omega,
          ⟨hword, hend, ?_, by omega, le_rfl, fun _ _ => rfl⟩⟩
        · rw [hwords, List.append_nil, words_of_all hrun0 hne, words_nil]
        · simp only [List.length_append, List.length_nil]
          omega
    | cons d rest =>
        obtain ⟨-, -, hrest'⟩ := IsString.cons_iff.mp hend
        have hd := hrest d rfl
        refine .inr ⟨_, _, run, rest, _, strtokR_next h hs hskip hne hrun hd hf harg, ?_, by omega,
          ⟨hword.cut, ?_, ?_, by omega, by omega, fun a ha => ?_⟩⟩
        · rw [hwords, words_run hrun0 hne (by simpa using hd)]
        · exact hrest'.congr fun i _ => Function.update_of_ne (by omega) _ _
        · simp only [List.length_append, List.length_cons]
          omega
        · refine Function.update_of_ne ?_ _ _
          simp only [List.length_append, List.length_cons] at ha
          omega

end

end Pintos.Strings
