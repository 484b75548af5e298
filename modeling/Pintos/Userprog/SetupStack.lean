import Pintos.Userprog.Kernel

/-!
# The stack of a new process

`setup_stack` of `fs_PintOS/userprog/process.c`.  `strtok_r` cuts the command line up where it
lies; the array `args`, a page of its own, takes the addresses of the words, and then everything
goes to the user stack byte by byte, from `PHYS_BASE` down.

The value `TID_ERROR`, which is returned when there are too many words, is not 0, and the function
returns a `bool`.  `numOfBytes` is computed and not used, and is left out.

* **`collectArgs_run`** — what the first loop leaves in memory.
-/

namespace Pintos.Userprog

open Lib Strings
open Vm (Memory PageDir PageTable Pte Image PallocFlags pgSize physBase isUserVaddr pdNo ptNo fillPage
  copyBytes)

/-! ## `setup_stack` -/

/-- The delimiters `" "`. -/
def space : List UInt8 := [0x20]

/-- `memcpy (myEsp, &c, 1)`. -/
def stackStore (myEsp : ℕ) (c : UInt8) : Code Unit := do
  storeByte myEsp c
  change fun k => { k with userStores := k.userStores ++ [myEsp] }

/-- `memcpy (myEsp, &v, 4)`. -/
def stackStoreWord (myEsp v : ℕ) : Code Unit := do
  stackStore myEsp (Block.wordByte v 0)
  stackStore (myEsp + 1) (Block.wordByte v 1)
  stackStore (myEsp + 2) (Block.wordByte v 2)
  stackStore (myEsp + 3) (Block.wordByte v 3)

/-- The loop over the words of the command line: their number, or nothing if there are more than
100. -/
def collectArgs (fuel args : ℕ) : ℕ → ℕ → ℕ → ℕ → Code (Option ℕ)
  | 0, _, _, _ => stop .unending
  | n + 1, token, savePtr, counter =>
      if token = 0 then pure (some counter)
      else if 100 ≤ counter then pure none
      else do
        storeWord (args + 4 * counter) token
        let (token, savePtr) ← onMemory (strtokR fuel space 0 savePtr)
        collectArgs fuel args n token savePtr (counter + 1)

/-- The characters of `args[index]`, from the last of `n` characters to the first. -/
def pushChars (args index : ℕ) : ℕ → ℕ → Code ℕ
  | 0, myEsp => pure myEsp
  | i + 1, myEsp => do
      let temp ← loadWord (args + 4 * index)
      let c ← loadByte (temp + i)
      stackStore myEsp c
      pushChars args index i (myEsp - 1)

/-- The loop over the arguments, last one first: the new `myEsp` and `totalBytes`. -/
def pushStrings (fuel args : ℕ) : ℕ → ℕ → ℕ → Code (ℕ × ℕ)
  | 0, myEsp, totalBytes => pure (myEsp, totalBytes)
  | index + 1, myEsp, totalBytes => do
      stackStore myEsp 0
      let arg ← loadWord (args + 4 * index)
      let indexBytes := (← onMemory (strlen fuel arg)) + 1
      let myEsp ← pushChars args index (indexBytes - 1) (myEsp - 1)
      pushStrings fuel args index myEsp (totalBytes + indexBytes)

/-- The loop over the padding. -/
def pushPadding : ℕ → ℕ → Code ℕ
  | 0, myEsp => pure myEsp
  | x + 1, myEsp => do
      stackStore myEsp 0
      pushPadding x (myEsp - 1)

/-- The loop over the pointers to the arguments, last one first. -/
def pushPointers (fuel args : ℕ) : ℕ → ℕ → ℕ → Code ℕ
  | 0, _, myEsp => pure myEsp
  | indexAddr + 1, ptrToArgs, myEsp => do
      let arg ← loadWord (args + 4 * indexAddr)
      let ptrToArgs := ptrToArgs - ((← onMemory (strlen fuel arg)) + 1)
      stackStoreWord myEsp ptrToArgs
      pushPointers fuel args indexAddr ptrToArgs (myEsp - 4)

/-- Everything that goes to the stack: the new `myEsp`. -/
def pushArguments (fuel args counter : ℕ) : Code ℕ := do
  stackStore physBase 0
  let (myEsp, totalBytes) ← pushStrings fuel args counter (physBase - 1) 0
  let padding := 4 - totalBytes % 4
  let myEsp ← pushPadding padding myEsp
  let myEsp := myEsp - if padding = 0 then 4 else 3
  stackStore myEsp 0
  let myEsp ← pushPointers fuel args counter physBase (myEsp - 4)
  stackStoreWord myEsp (myEsp + 4)
  let myEsp := myEsp - 4
  stackStore myEsp (UInt8.ofNat counter)
  return myEsp - 4

/-- The rest of `setup_stack`, once the arguments are known. -/
def buildStack (fuel args counter : ℕ) : Code Bool := do
  match ← pallocGetPage { user := true, zero := true } with
  | none => pure false
  | some kpage => do
      let success ← installPage (physBase - pgSize) kpage true
      if success then do
        change fun k => { k with esp := physBase }
        let myEsp ← pushArguments fuel args counter
        change fun k => { k with esp := myEsp }
        return success
      else do
        pallocFreePage kpage
        return success

/-- `setup_stack`. -/
def setupStack (fuel cmdLine : ℕ) : Code Bool := do
  let args ← pallocGetPage {}
  let (token, savePtr) ← onMemory (strtokR fuel space cmdLine 0)
  match ← collectArgs fuel (args.getD 0) fuel token savePtr 0 with
  | none => return true
  | some counter => buildStack fuel (args.getD 0) counter

/-! ## Memory that the kernel has to itself -/

section Access

variable {α β : Type} {k : Kernel} {a v : ℕ} {c : UInt8}

theorem locate_kernel (h : physBase ≤ a) (write : Bool) : k.locate a write = some a := by
  rw [Kernel.locate, isUserVaddr, if_neg (by simpa using h)]

theorem loadByte_kernel (h : physBase ≤ a) : loadByte a k = .ok (k.mem a) k := by
  simp only [loadByte, fetch_bind, locate_kernel h]
  rfl

theorem storeByte_kernel (h : physBase ≤ a) :
    storeByte a c k = .ok () { k with mem := Function.update k.mem a c } := by
  simp only [storeByte, fetch_bind, locate_kernel h]
  rfl

theorem loadWord_kernel (h : physBase ≤ a) : loadWord a k = .ok (wordAtAddr k.mem a) k := by
  rw [loadWord, bind_of_ok (loadByte_kernel h), bind_of_ok (loadByte_kernel (by omega)),
    bind_of_ok (loadByte_kernel (by omega)), bind_of_ok (loadByte_kernel (by omega))]
  rfl

/-- The four bytes of a word. -/
theorem update_four (mem : ℕ → UInt8) (a v : ℕ) :
    Function.update (Function.update (Function.update (Function.update mem a (Block.wordByte v 0))
      (a + 1) (Block.wordByte v 1)) (a + 2) (Block.wordByte v 2)) (a + 3) (Block.wordByte v 3) =
      putWord mem a v := by
  funext b
  rw [putWord]
  split
  · next h =>
      obtain ⟨i, hi, rfl⟩ : ∃ i < 4, b = a + i := ⟨b - a, by omega, by omega⟩
      rw [Nat.add_sub_cancel_left]
      interval_cases i <;> simp
  · next h =>
      rw [Function.update_of_ne (by omega), Function.update_of_ne (by omega),
        Function.update_of_ne (by omega), Function.update_of_ne (by omega)]

theorem storeWord_kernel (h : physBase ≤ a) :
    storeWord a v k = .ok () { k with mem := putWord k.mem a v } := by
  rw [storeWord, bind_of_ok (storeByte_kernel h), bind_of_ok (storeByte_kernel (by omega)),
    bind_of_ok (storeByte_kernel (by omega)), storeByte_kernel (by omega), ← update_four]

theorem onMemory_ok {m : StringCode α} {r : α} {mem : Memory} (h : m k.mem = .ok r mem) :
    onMemory m k = .ok r { k with mem } := by
  rw [onMemory, h]

end Access

/-! ## The words of the command line -/

/-- The words, as the tokenizer cuts them. -/
abbrev tokens (line : List UInt8) : List (List UInt8) := words space.contains line

/-- The tokenizer stands before the words `ws`: at a token, with what is behind it from `save`
to the end of the line at `top`, or at the end. -/
inductive Stands (mem : Memory) (low top : ℕ) : ℕ → ℕ → List (List UInt8) → Prop
  | done (save : ℕ) : Stands mem low top 0 save []
  | word {token save : ℕ} {w rest : List UInt8} (null : token ≠ 0) (here : IsString mem token w)
      (following : IsString mem save rest) (start : low ≤ token) (next : token + w.length ≤ save)
      (ends : save + rest.length = top) : Stands mem low top token save (w :: tokens rest)

/-- The array `args` has pointers to the strings `strs`, from index `first` on, which lie between
`low` and `top`. -/
structure Collected (mem : Memory) (args low top first : ℕ) (strs : List (List UInt8)) : Prop where
  arg : ∀ i (h : i < strs.length), ∃ p, wordAtAddr mem (args + 4 * (first + i)) = p ∧
    IsString mem p strs[i] ∧ low ≤ p ∧ p + strs[i].length ≤ top

/-- The next call of the tokenizer. -/
theorem stands_next {mem : Memory} {save : ℕ} {rest : List UInt8} {fuel : ℕ}
    (h : IsString mem save rest) (h0 : save ≠ 0) (hf : rest.length < fuel) (s0 save0 : ℕ)
    (harg : (if s0 = 0 then save0 else s0) = save) :
    ∃ token' save' mem', strtokR fuel space s0 save0 mem = .ok (token', save') mem' ∧
      Stands mem' save (save + rest.length) token' save' (tokens rest) ∧ save ≤ save' ∧
      (∀ a, a < save ∨ save + rest.length ≤ a → mem' a = mem a) ∧ (rest = [] → mem' = mem) := by
  rcases strtokR_spec h h0 hf harg with ⟨hw, hrun⟩ | ⟨token, save', w, rest', mem', hrun, hw, hne, cut⟩
  · refine ⟨0, _, mem, hrun, ?_, Nat.le_add_right _ _, fun _ _ => rfl, fun _ => rfl⟩
    rw [tokens, hw]
    exact .done _
  · refine ⟨token, save', mem', hrun, ?_, ?_, cut.frame, ?_⟩
    · rw [tokens, hw]
      exact .word hne cut.word cut.following cut.start cut.next cut.ends
    · have := cut.start
      have := cut.next
      omega
    · rintro rfl
      simp at hw

/-- The characters of a word are before what follows it, or the word is the last. -/
theorem word_before {mem : Memory} {token save : ℕ} {w rest : List UInt8} (here : IsString mem token w)
    (following : IsString mem save rest) (next : token + w.length ≤ save) (hne : rest ≠ []) :
    token + w.length < save := by
  refine lt_of_le_of_ne next fun e => ?_
  obtain ⟨c, rest', rfl⟩ := List.exists_cons_of_ne_nil hne
  obtain ⟨hc, h0, -⟩ := IsString.cons_iff.mp following
  rw [← e, here.terminator] at hc
  exact h0 hc.symm

theorem Stands.mono {mem : Memory} {low low' top token save : ℕ} {ws : List (List UInt8)}
    (h : Stands mem low' top token save ws) (hle : low ≤ low') : Stands mem low top token save ws := by
  cases h with
  | done => exact .done _
  | word null here following start next ends => exact .word null here following (by omega) next ends

/-- **The loop over the words** counts them, up to 100, and collects pointers to them; it writes to
the array and to what is left of the line. -/
theorem collectArgs_run {fuel args low top : ℕ} (hargs : physBase ≤ args)
    (apart : top < args ∨ args + pgSize ≤ low) (htop : top < 2 ^ 32) (hf : top < low + fuel) :
    ∀ (n counter token save : ℕ) (ws : List (List UInt8)) (k : Kernel),
      Stands k.mem low top token save ws → counter ≤ 100 → ws.length < n →
      ∃ mem', collectArgs fuel args n token save counter k =
          .ok (if counter + ws.length ≤ 100 then some (counter + ws.length) else none)
            { k with mem := mem' } ∧
        (counter + ws.length ≤ 100 → Collected mem' args low top counter ws) ∧
        ∀ a, (a < args + 4 * counter ∨ args + pgSize ≤ a) → (a < save ∨ top ≤ a) → mem' a = k.mem a := by
  have hpage : pgSize = 4096 := rfl
  intro n
  induction n with
  | zero => exact fun _ _ _ _ _ _ _ h => absurd h (Nat.not_lt_zero _)
  | succ n ih =>
      intro counter token save ws k stands hcounter hn
      cases stands with
      | done =>
          refine ⟨k.mem, ?_, fun _ => ⟨fun i h => absurd h (Nat.not_lt_zero i)⟩, fun _ _ _ => rfl⟩
          rw [collectArgs, if_pos rfl, List.length_nil, Nat.add_zero, if_pos hcounter]
          rfl
      | @word _ _ w rest null here following start next ends =>
          rw [List.length_cons] at hn
          rw [collectArgs, if_neg null, List.length_cons]
          by_cases hmany : 100 ≤ counter
          · refine ⟨k.mem, ?_, fun h => absurd h (by omega), fun _ _ _ => rfl⟩
            rw [if_pos hmany, if_neg (by omega)]
            rfl
          rw [if_neg hmany]
          -- the pointer is stored, and the line stays as it is
          have hstore := storeWord_kernel (k := k) (a := args + 4 * counter) (v := token) (by omega)
          have away : ∀ a, low ≤ a → a ≤ top → putWord k.mem (args + 4 * counter) token a = k.mem a :=
            fun a h1 h2 => if_neg (by omega)
          have following1 : IsString (putWord k.mem (args + 4 * counter) token) save rest :=
            following.congr fun i hi => away _ (by omega) (by omega)
          have hlen : rest.length < fuel := by omega
          have hsave : save ≠ 0 := by omega
          obtain ⟨token', save', mem2, hrun2, stands2, hle, frame2, hsame⟩ :=
            stands_next following1 hsave hlen 0 save (if_pos rfl)
          rw [ends] at stands2 frame2
          have hargSame : wordAtAddr mem2 (args + 4 * counter) =
              wordAtAddr (putWord k.mem (args + 4 * counter) token) (args + 4 * counter) :=
            wordAtAddr_congr fun i hi => frame2 _ (by omega)
          obtain ⟨mem3, hrun3, collected3, frame3⟩ := ih (counter + 1) token' save' (tokens rest)
            { k with mem := mem2 } (stands2.mono (by omega)) (by omega) (by omega)
          have hword : ∀ i ≤ w.length, mem3 (token + i) = k.mem (token + i) := by
            intro i hi
            by_cases hnil : rest = []
            · have htop : top = save := by rw [← ends, hnil, List.length_nil, Nat.add_zero]
              rw [frame3 _ (by omega) (by omega), show mem2 = _ from hsame hnil]
              exact away _ (by omega) (by omega)
            · have hlt := word_before here following next hnil
              rw [frame3 _ (by omega) (by omega)]
              exact (frame2 _ (by omega)).trans (away _ (by omega) (by omega))
          refine ⟨mem3, ?_, fun hall => ⟨fun i hi => ?_⟩, fun a ha ha' => ?_⟩
          · rw [bind_of_ok hstore, bind_of_ok (onMemory_ok hrun2)]
            show collectArgs fuel args n token' save' (counter + 1) { k with mem := mem2 } = _
            rw [hrun3]
            simp only [Nat.add_assoc, Nat.add_comm 1]
          · cases i with
            | zero =>
                refine ⟨token, ?_, here.congr fun i hi => hword i hi, start, by simp; omega⟩
                have hlast : wordAtAddr mem3 (args + 4 * counter) = wordAtAddr mem2 (args + 4 * counter) :=
                  wordAtAddr_congr fun i hi => frame3 _ (by omega) (by omega)
                rw [Nat.add_zero, hlast, hargSame, wordAtAddr_putWord (by omega)]
            | succ i =>
                obtain ⟨p, hp⟩ := (collected3 (by omega)).arg i (by simpa using hi)
                exact ⟨p, by rwa [show counter + (i + 1) = counter + 1 + i by omega]⟩
          · rw [frame3 a (by omega) (by omega)]
            refine (frame2 a (by omega)).trans (if_neg ?_)
            omega

end Pintos.Userprog
