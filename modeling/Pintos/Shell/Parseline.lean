import Mathlib.Data.List.TakeWhile
import Pintos.Lib.Command
import Pintos.Lib.Memory

/-!
# The command line of the shell

`parseline` of `Project0/util.c` copies the command line into a static array, puts a space in the
place of its last character, and cuts it into the arguments: a pointer for each of them is stored in
`argv`, and its delimiter becomes a zero byte.  A pointer is an index into the array.

A store outside the array or outside `argv` is undefined in C; the model stops there.

* **`tokens`** — the words of a line.
* **`argvLoop_ends`** — the loop stores the words that are left, if `argv` has room for them.
* **`parseline_tokens`** — a line that ends in a newline is cut into its words.
* **`parseline_keeps_bounds_iff`** — which lines are taken as a whole, and without a store out of
  bounds.
-/

namespace Pintos.Shell

open Lib

/-! ## The functions of `util.c` -/

/-- `MAXLINE`. -/
def maxLine : ℕ := 1024

/-- `MAXARGS`. -/
def maxArgs : ℕ := 128

def space : UInt8 := 32

def newline : UInt8 := 10

def quote : UInt8 := 39

def ampersand : UInt8 := 38

/-- Where `parseline` leaves what C defines. -/
inductive LineStop where
  | outsideArray
  | outsideArgv
  | nullPointer
  | unending
deriving DecidableEq, Repr

/-- The static array of `parseline`, and the array its caller gives for the arguments. -/
structure LineState where
  array : ℕ → UInt8
  argv : ℕ → Option ℕ

abbrev LineCode (α : Type) : Type := EStateM LineStop LineState α

/-- A store to the static array. -/
def storeArray (i : ℤ) (c : UInt8) : LineCode Unit :=
  if 0 ≤ i ∧ i < maxLine then
    change fun s => { s with array := Function.update s.array i.toNat c }
  else stop .outsideArray

/-- A store to `argv`. -/
def storeArgv (i : ℕ) (p : Option ℕ) : LineCode Unit :=
  if i < maxArgs then change fun s => { s with argv := Function.update s.argv i p }
  else stop .outsideArgv

/-- The characters from `p` to the next zero byte, of which there are not more than `n`. -/
def textFrom (array : ℕ → UInt8) : ℕ → ℕ → List UInt8
  | 0, _ => []
  | n + 1, p => if array p = 0 then [] else array p :: textFrom array n (p + 1)

/-- The string at `p`. -/
def textAt (array : ℕ → UInt8) (p : ℕ) : List UInt8 := textFrom array (maxLine - p) p

/-- `strchr`. -/
def strchr (array : ℕ → UInt8) (p : ℕ) (c : UInt8) : Option ℕ :=
  if c ∈ textAt array p then some (p + (textAt array p).idxOf c) else none

/-- `strcpy`, to the place `i` of the array. -/
def strcpy : ℕ → List UInt8 → LineCode Unit
  | i, [] => storeArray i 0
  | i, c :: s => do
      storeArray i c
      strcpy (i + 1) s

/-- `strcpy (buf, cmdline); buf[strlen (buf) - 1] = ' ';` -/
def copyLine (cmdline : List UInt8) : LineCode Unit := do
  strcpy 0 cmdline
  let n ← fetch fun s => (textAt s.array 0).length
  storeArray ((n : ℤ) - 1) space

/-- `while (*buf && (*buf == ' ')) buf++;` -/
def skipSpaces (array : ℕ → UInt8) (buf : ℕ) : ℕ :=
  buf + ((textAt array buf).takeWhile (· = space)).length

/-- `if (*buf == '\'') { buf++; delim = strchr (buf, '\''); } else { delim = strchr (buf, ' '); }` -/
def findDelim (array : ℕ → UInt8) (buf : ℕ) : ℕ × Option ℕ :=
  if array buf = quote then (buf + 1, strchr array (buf + 1) quote) else (buf, strchr array buf space)

/-- `buf` and `delim` for the next argument. -/
def nextToken (array : ℕ → UInt8) (buf : ℕ) : ℕ × Option ℕ := findDelim array (skipSpaces array buf)

/-- The loop of `parseline`: the number of arguments. -/
def argvLoop : ℕ → ℕ → Option ℕ → ℕ → LineCode ℕ
  | _, _, none, argc => pure argc
  | 0, _, some _, _ => stop .unending
  | fuel + 1, buf, some delim, argc => do
      storeArgv argc (some buf)
      storeArray delim 0
      let next ← fetch fun s => nextToken s.array (delim + 1)
      argvLoop fuel next.1 next.2 (argc + 1)

/-- `*argv[i] == '&'`. -/
def startsWithAmpersand (i : ℕ) : LineCode Bool := fun s =>
  match s.argv i with
  | some p => .ok (s.array p = ampersand) s
  | none => .error .nullPointer s

/-- `parseline`. -/
def parseline (cmdline : List UInt8) : LineCode ℤ := do
  copyLine cmdline
  let first ← fetch fun s => nextToken s.array 0
  let argc ← argvLoop maxLine first.1 first.2 0
  storeArgv argc none
  if argc = 0 then
    return 1
  let bg ← startsWithAmpersand (argc - 1)
  if bg then
    storeArgv (argc - 1) none
    return 1
  return 0

/-! ## The words of a line -/

theorem length_dropWhile_le (p : UInt8 → Bool) (l : List UInt8) : (l.dropWhile p).length ≤ l.length :=
  (List.dropWhile_suffix p).length_le

/-- What a line says.  Spaces are skipped; a word that starts with a quote ends before the next one,
and if there is no other, nothing more is read; any other word ends before the next space. -/
def tokens : List UInt8 → List (List UInt8)
  | [] => []
  | c :: l =>
      if c = space then tokens l
      else if c = quote then
        if quote ∈ l then
          l.takeWhile (· ≠ quote) :: tokens (l.dropWhile (· ≠ quote)).tail
        else []
      else (c :: l.takeWhile (· ≠ space)) :: tokens (l.dropWhile (· ≠ space))
termination_by l => l.length
decreasing_by
  · simp
  · have := length_dropWhile_le (· ≠ quote) l
    simp only [List.length_tail, List.length_cons]
    omega
  · have := length_dropWhile_le (· ≠ space) l
    simp only [List.length_cons]
    omega

section Tokens

variable {c d : UInt8} {a b l : List UInt8}

theorem takeWhile_ne (h : d ∉ a) : (a ++ d :: b).takeWhile (· ≠ d) = a := by
  rw [List.takeWhile_append_of_pos fun x hx => by simpa using fun e : x = d => h (e ▸ hx)]
  simp

theorem dropWhile_ne (h : d ∉ a) : (a ++ d :: b).dropWhile (· ≠ d) = d :: b := by
  rw [List.dropWhile_append_of_pos fun x hx => by simpa using fun e : x = d => h (e ▸ hx)]
  simp

theorem tokens_space : tokens (space :: l) = tokens l := by
  rw [tokens, if_pos rfl]

theorem tokens_spaces (h : ∀ x ∈ a, x = space) : tokens (a ++ l) = tokens l := by
  induction a with
  | nil => rfl
  | cons x a ih =>
      rw [List.cons_append, h x List.mem_cons_self, tokens_space,
        ih fun y hy => h y (List.mem_cons_of_mem _ hy)]

theorem tokens_quoted (h : quote ∉ a) : tokens (quote :: (a ++ quote :: b)) = a :: tokens b := by
  rw [tokens, if_neg (by decide), if_pos rfl, if_pos (by simp), takeWhile_ne h, dropWhile_ne h,
    List.tail_cons]

theorem tokens_unclosed (h : quote ∉ l) : tokens (quote :: l) = [] := by
  rw [tokens, if_neg (by decide), if_pos rfl, if_neg h]

theorem tokens_word (hs : c ≠ space) (hq : c ≠ quote) (h : space ∉ a) :
    tokens (c :: (a ++ space :: b)) = (c :: a) :: tokens b := by
  rw [tokens, if_neg hs, if_neg hq, takeWhile_ne h, dropWhile_ne h, tokens_space]

theorem tokens_last_word (hs : c ≠ space) (hq : c ≠ quote) (h : space ∉ l) :
    tokens (c :: l) = [c :: l] := by
  have hall : ∀ x ∈ l, decide (x ≠ space) = true := fun x hx => by
    simpa using fun e : x = space => h (e ▸ hx)
  rw [tokens, if_neg hs, if_neg hq, List.takeWhile_eq_self_iff.mpr hall,
    List.dropWhile_eq_nil_iff.mpr hall, tokens]

/-- The delimiter at the end of the line makes no difference. -/
theorem tokens_append_space (l : List UInt8) : tokens (l ++ [space]) = tokens l := by
  induction h : l.length using Nat.strong_induction_on generalizing l with
  | _ n ih =>
      subst h
      cases l with
      | nil => rw [List.nil_append, tokens_space]
      | cons c l =>
          rw [List.cons_append]
          by_cases hs : c = space
          · subst hs
            rw [tokens_space, tokens_space]
            exact ih _ (by simp) l rfl
          by_cases hq : c = quote
          · subst hq
            by_cases hm : quote ∈ l
            · obtain ⟨a, b, rfl, ha⟩ := List.eq_append_cons_of_mem hm
              rw [List.append_assoc, List.cons_append, tokens_quoted ha, tokens_quoted ha,
                ih _ (by simp; omega) b rfl]
            · have hm' : quote ∉ l ++ [space] := by simpa [hm] using (by decide : quote ≠ space)
              rw [tokens_unclosed hm, tokens_unclosed hm']
          by_cases hm : space ∈ l
          · obtain ⟨a, b, rfl, ha⟩ := List.eq_append_cons_of_mem hm
            rw [List.append_assoc, List.cons_append, tokens_word hs hq ha, tokens_word hs hq ha,
              ih _ (by simp; omega) b rfl]
          · rw [tokens_word hs hq hm, tokens_last_word hs hq hm, tokens]

end Tokens

/-! ## Strings in the array -/

section Strings

variable {array : ℕ → UInt8} {p n : ℕ} {c : UInt8} {text a b : List UInt8}

theorem textFrom_eq (h : IsString array p text) (hn : text.length < n) : textFrom array n p = text := by
  induction text generalizing p n with
  | nil =>
      cases n with
      | zero => cases hn
      | succ n => rw [textFrom, if_pos (IsString.nil_iff.mp h)]
  | cons c text ih =>
      cases n with
      | zero => cases hn
      | succ n =>
          obtain ⟨hc, hne, h⟩ := IsString.cons_iff.mp h
          rw [textFrom, hc, if_neg hne, ih h (by simpa using hn)]

theorem textAt_eq (h : IsString array p text) (hp : p + text.length < maxLine) :
    textAt array p = text := textFrom_eq h (by omega)

theorem strchr_of_mem (h : IsString array p (a ++ c :: b)) (hp : p + (a ++ c :: b).length < maxLine)
    (ha : c ∉ a) : strchr array p c = some (p + a.length) := by
  rw [strchr, textAt_eq h hp, if_pos (by simp), List.idxOf_append_of_notMem ha, List.idxOf_cons_self,
    Nat.add_zero]

theorem strchr_of_notMem (h : IsString array p text) (hp : p + text.length < maxLine) (hc : c ∉ text) :
    strchr array p c = none := by
  rw [strchr, textAt_eq h hp, if_neg hc]

theorem skipSpaces_eq (h : IsString array p (a ++ b)) (hp : p + (a ++ b).length < maxLine)
    (ha : ∀ x ∈ a, x = space) (hb : ∀ x, b.head? = some x → x ≠ space) :
    skipSpaces array p = p + a.length := by
  have hall : ∀ x ∈ a, decide (x = space) = true := fun x hx => by simpa using ha x hx
  have hnone : b.takeWhile (· = space) = [] := by
    cases b with
    | nil => rfl
    | cons x b =>
        have hx : ¬ x = space := hb x rfl
        simp [hx]
  rw [skipSpaces, textAt_eq h hp, List.takeWhile_append_of_pos hall, hnone, List.append_nil]

end Strings

/-- Every line is some spaces and then something else. -/
theorem split_spaces (text : List UInt8) :
    ∃ a b, text = a ++ b ∧ (∀ x ∈ a, x = space) ∧ ∀ x, b.head? = some x → x ≠ space := by
  refine ⟨text.takeWhile (· = space), text.dropWhile (· = space), ?_, fun x hx => ?_, fun x hx => ?_⟩
  · exact List.takeWhile_append_dropWhile.symm
  · simpa using List.mem_takeWhile_imp hx
  · have := List.head?_dropWhile_not (fun x => decide (x = space)) text
    rw [hx] at this
    simpa using this

/-- Either nothing is left, or what is left ends in a space. -/
def EndsInSpace (text : List UInt8) : Prop := ∀ x, text.getLast? = some x → x = space

namespace EndsInSpace

variable {a b : List UInt8} {c : UInt8}

theorem suffix (h : EndsInSpace (a ++ b)) : EndsInSpace b := fun x hx => by
  refine h x ?_
  rw [List.getLast?_append, hx]
  rfl

theorem mem (h : EndsInSpace (c :: a)) : space ∈ c :: a := by
  have hlast := h _ (List.getLast?_eq_some_getLast (List.cons_ne_nil c a))
  rw [← hlast]
  exact List.getLast_mem _

end EndsInSpace

/-! ## Stores -/

section Stores

variable {σ : LineState} {i : ℕ}

theorem storeArray_run (c : UInt8) (h : i < maxLine) :
    storeArray i c σ = .ok () { σ with array := Function.update σ.array i c } := by
  rw [storeArray, if_pos ⟨by omega, by exact_mod_cast h⟩]
  rfl

theorem storeArgv_run (p : Option ℕ) (h : i < maxArgs) :
    storeArgv i p σ = .ok () { σ with argv := Function.update σ.argv i p } := by
  rw [storeArgv, if_pos h]
  rfl

theorem storeArgv_outside (p : Option ℕ) (h : maxArgs ≤ i) :
    storeArgv i p σ = .error .outsideArgv σ := by
  rw [storeArgv, if_neg (by omega)]
  rfl

end Stores

/-! ## The loop -/

/-- The words `ts` have been stored from `argv[argc]` on, and lie behind `p`.  What was there before
is unchanged. -/
structure Parsed (σ σ' : LineState) (p argc : ℕ) (ts : List (List UInt8)) : Prop where
  before : ∀ i < p, σ'.array i = σ.array i
  argvBefore : ∀ i < argc, σ'.argv i = σ.argv i
  args : ∀ i t, ts[i]? = some t → ∃ q, σ'.argv (argc + i) = some q ∧ IsString σ'.array q t

/-- The loop stores the words `ts` if there is room for them. -/
structure LoopEnds (r : EStateM.Result LineStop LineState ℕ) (σ : LineState) (p argc : ℕ)
    (ts : List (List UInt8)) : Prop where
  fits : argc + ts.length ≤ maxArgs → ∃ σ', r = .ok (argc + ts.length) σ' ∧ Parsed σ σ' p argc ts
  overflows : argc ≤ maxArgs → maxArgs < argc + ts.length → ∃ σ', r = .error .outsideArgv σ'

theorem LoopEnds.nil {σ : LineState} {p argc : ℕ} : LoopEnds (.ok argc σ) σ p argc [] where
  fits _ := ⟨σ, rfl, fun _ _ => rfl, fun _ _ => rfl, fun i t h => by cases h⟩
  overflows h h' := absurd h' (Nat.not_lt.mpr h)

section Loop

variable {σ : LineState} {argc fuel p buf : ℕ} {d : UInt8} {a rest : List UInt8}
  {ts : List (List UInt8)}

/-- One round of the loop: the word `a` is cut off, and `ts` are the words behind it. -/
theorem argvLoop_step (h : IsString σ.array buf (a ++ d :: rest)) (hp : p ≤ buf)
    (hlen : buf + (a ++ d :: rest).length < maxLine)
    (ih : ∀ σ' : LineState, IsString σ'.array (buf + a.length + 1) rest →
      LoopEnds (argvLoop fuel (nextToken σ'.array (buf + a.length + 1)).1
        (nextToken σ'.array (buf + a.length + 1)).2 (argc + 1) σ') σ' (buf + a.length + 1) (argc + 1) ts) :
    LoopEnds (argvLoop (fuel + 1) buf (some (buf + a.length)) argc σ) σ p argc (a :: ts) := by
  simp only [List.length_append, List.length_cons] at hlen
  by_cases hroom : argc < maxArgs
  · -- the two stores
    let σ1 : LineState :=
      { array := Function.update σ.array (buf + a.length) 0
        argv := Function.update σ.argv argc (some buf) }
    have hrest : IsString σ1.array (buf + a.length + 1) rest := by
      have h2 : IsString σ.array (buf + a.length + 1) rest := by
        rw [show a ++ d :: rest = (a ++ [d]) ++ rest by simp] at h
        simpa [Nat.add_assoc] using h.suffix
      exact h2.congr fun i _ => Function.update_of_ne (by omega) _ _
    have hword : IsString σ1.array buf a := h.cut
    have hrun : argvLoop (fuel + 1) buf (some (buf + a.length)) argc σ
        = argvLoop fuel (nextToken σ1.array (buf + a.length + 1)).1
            (nextToken σ1.array (buf + a.length + 1)).2 (argc + 1) σ1 := by
      rw [argvLoop, bind_of_ok (storeArgv_run _ hroom), bind_of_ok (storeArray_run _ (by omega))]
      rfl
    have hend := ih σ1 hrest
    rw [hrun]
    constructor
    · intro hfits
      rw [List.length_cons] at hfits
      obtain ⟨σ2, hok, parsed⟩ := hend.fits (by omega)
      refine ⟨σ2, ?_, fun i hi => ?_, fun i hi => ?_, fun i t ht => ?_⟩
      · rw [hok, List.length_cons]
        congr 1
        omega
      · rw [parsed.before i (by omega)]
        exact Function.update_of_ne (by omega) _ _
      · rw [parsed.argvBefore i (by omega)]
        exact Function.update_of_ne (by omega) _ _
      · cases i with
        | zero =>
            cases ht
            refine ⟨buf, ?_, hword.congr fun i hi => parsed.before _ (by omega)⟩
            rw [Nat.add_zero, parsed.argvBefore argc (by omega)]
            exact Function.update_self ..
        | succ i =>
            have := parsed.args i t ht
            rwa [Nat.add_right_comm, Nat.add_assoc] at this
    · intro _ hover
      rw [List.length_cons] at hover
      exact hend.overflows (by omega) (by omega)
  · have hstop : argvLoop (fuel + 1) buf (some (buf + a.length)) argc σ = .error .outsideArgv σ := by
      rw [argvLoop, bind_of_error (storeArgv_outside _ (by omega))]
    rw [hstop]
    constructor
    · intro hfits
      rw [List.length_cons] at hfits
      omega
    · exact fun _ _ => ⟨σ, rfl⟩

theorem argvLoop_none : argvLoop fuel buf none argc σ = .ok argc σ := by
  cases fuel <;> rfl

/-- Behind the last word there are only spaces. -/
theorem argvLoop_spaces {sp : List UInt8} (h : IsString σ.array p sp) (hsp : ∀ x ∈ sp, x = space)
    (hlen : p + sp.length < maxLine) :
    LoopEnds (argvLoop fuel (nextToken σ.array p).1 (nextToken σ.array p).2 argc σ) σ p argc [] := by
  have h0 : IsString σ.array p (sp ++ []) := by rwa [List.append_nil]
  have hskip : skipSpaces σ.array p = p + sp.length :=
    skipSpaces_eq h0 (by rwa [List.append_nil]) hsp fun x hx => by cases hx
  have hend := h0.suffix
  have hzero : σ.array (p + sp.length) ≠ quote := by
    rw [IsString.nil_iff.mp hend]
    decide
  have hnone : strchr σ.array (p + sp.length) space = none :=
    strchr_of_notMem hend (by simpa using hlen) List.not_mem_nil
  rw [nextToken, hskip, findDelim, if_neg hzero, hnone, argvLoop_none]
  exact .nil

/-- **The loop stores the words that are left**, if `argv` has room for them. -/
theorem argvLoop_ends {text : List UInt8} (h : IsString σ.array p text) (hspace : EndsInSpace text)
    (hlen : p + text.length < maxLine) (hf : text.length ≤ fuel) :
    LoopEnds (argvLoop fuel (nextToken σ.array p).1 (nextToken σ.array p).2 argc σ) σ p argc
      (tokens text) := by
  induction fuel generalizing σ p argc text with
  | zero =>
      obtain rfl := List.length_eq_zero_iff.mp (Nat.le_zero.mp hf)
      rw [tokens]
      exact argvLoop_spaces h (fun x hx => by cases hx) hlen
  | succ fuel ih =>
      obtain ⟨sp, t, rfl, hsp, ht⟩ := split_spaces text
      rw [tokens_spaces hsp]
      cases t with
      | nil =>
          rw [List.append_nil] at h hlen
          rw [tokens]
          exact argvLoop_spaces h hsp hlen
      | cons c l =>
          have hbuf := h.suffix
          have hcl := hspace.suffix
          obtain ⟨hc, -, hl⟩ := IsString.cons_iff.mp hbuf
          have hs : c ≠ space := ht c rfl
          rw [nextToken, skipSpaces_eq h hlen hsp ht]
          simp only [List.length_append, List.length_cons] at hlen hf
          obtain ⟨buf, hpb⟩ : ∃ buf, buf = p + sp.length := ⟨_, rfl⟩
          rw [← hpb] at hbuf hc hl ⊢
          rw [findDelim]
          by_cases hq : c = quote
          · subst hq
            rw [if_pos hc]
            by_cases hm : quote ∈ l
            · obtain ⟨a, rest, rfl, ha⟩ := List.eq_append_cons_of_mem hm
              simp only [List.length_append, List.length_cons] at hlen hf
              have hlt : buf + 1 + (a ++ quote :: rest).length < maxLine := by
                simp only [List.length_append, List.length_cons]
                omega
              have hrest : EndsInSpace rest := by
                rw [show quote :: (a ++ quote :: rest) = (quote :: a ++ [quote]) ++ rest by simp] at hcl
                exact hcl.suffix
              rw [strchr_of_mem hl hlt ha, tokens_quoted ha]
              exact argvLoop_step hl (by omega) hlt fun σ' hr => ih hr hrest (by omega) (by omega)
            · rw [strchr_of_notMem hl (by omega) hm, tokens_unclosed hm, argvLoop_none]
              exact .nil
          · have hm : space ∈ l := (List.mem_cons.mp hcl.mem).resolve_left fun e => hs e.symm
            obtain ⟨a, rest, rfl, ha⟩ := List.eq_append_cons_of_mem hm
            simp only [List.length_append, List.length_cons] at hlen hf
            have hlt : buf + (c :: a ++ space :: rest).length < maxLine := by
              simp only [List.length_append, List.length_cons]
              omega
            have hca : space ∉ c :: a := by simpa [ha] using fun e : space = c => hs e.symm
            have hrest : EndsInSpace rest := by
              rw [show c :: (a ++ space :: rest) = (c :: a ++ [space]) ++ rest by simp] at hcl
              exact hcl.suffix
            rw [if_neg fun e => hq (hc.symm.trans e), strchr_of_mem (a := c :: a) hbuf hlt hca,
              tokens_word hs hq ha]
            refine argvLoop_step (a := c :: a) hbuf (by omega) hlt fun σ' hr => ih hr hrest ?_ ?_
            · simp only [List.length_cons]
              omega
            · omega

end Loop

/-! ## The copy of the line -/

section Copy

variable {σ : LineState}

/-- `strcpy` succeeds if the line and its zero byte have room, and fails if not. -/
theorem strcpy_run {i : ℕ} {line : List UInt8} (h0 : 0 ∉ line) (hlen : i + line.length < maxLine) :
    ∃ σ', strcpy i line σ = .ok () σ' ∧ σ'.argv = σ.argv ∧ IsString σ'.array i line ∧
      ∀ j < i, σ'.array j = σ.array j := by
  induction line generalizing i σ with
  | nil =>
      have hrun : strcpy i [] σ = .ok () { σ with array := Function.update σ.array i 0 } :=
        storeArray_run 0 (by simpa using hlen)
      refine ⟨_, hrun, rfl, IsString.nil_iff.mpr (Function.update_self ..), fun j hj => ?_⟩
      exact Function.update_of_ne (by omega) _ _
  | cons c line ih =>
      rw [List.length_cons] at hlen
      have hstore := storeArray_run (σ := σ) (i := i) c (by omega)
      obtain ⟨σ', hrun, hargv, hstring, hsame⟩ := ih (σ := { σ with array := Function.update σ.array i c })
        (i := i + 1) (fun h => h0 (List.mem_cons_of_mem _ h)) (by omega)
      have hhead : σ'.array i = c := by
        rw [hsame i (Nat.lt_succ_self i)]
        exact Function.update_self ..
      refine ⟨σ', (bind_of_ok hstore).trans hrun, hargv, ?_, fun j hj => ?_⟩
      · exact IsString.cons_iff.mpr ⟨hhead, fun e => h0 (e ▸ List.mem_cons_self), hstring⟩
      · rw [hsame j (by omega)]
        exact Function.update_of_ne (by omega) _ _

/-- The last character is replaced, whatever it is. -/
theorem copyLine_run {body : List UInt8} {c : UInt8} (h0 : 0 ∉ body ++ [c])
    (hlen : (body ++ [c]).length < maxLine) :
    ∃ σ', copyLine (body ++ [c]) σ = .ok () σ' ∧ σ'.argv = σ.argv ∧
      IsString σ'.array 0 (body ++ [space]) := by
  obtain ⟨σ1, hrun, hargv, hstring, -⟩ := strcpy_run (σ := σ) (i := 0) h0 (by omega)
  have htext : textAt σ1.array 0 = body ++ [c] := textAt_eq hstring (by omega)
  have hbody : body.length < maxLine := by
    rw [List.length_append] at hlen
    omega
  have hindex : (((textAt σ1.array 0).length : ℕ) : ℤ) - 1 = (body.length : ℕ) := by
    rw [htext, List.length_append, List.length_singleton]
    omega
  have hstore : storeArray ((((textAt σ1.array 0).length : ℕ) : ℤ) - 1) space σ1
      = .ok () { σ1 with array := Function.update σ1.array body.length space } := by
    rw [hindex]
    exact storeArray_run space hbody
  refine ⟨_, (bind_of_ok hrun).trans hstore, hargv, fun i hi => ?_, ?_⟩
  · rw [List.length_append, List.length_singleton] at hi
    have hold := hstring.chars i (by simpa using hi)
    by_cases hib : i = body.length
    · subst hib
      show Function.update σ1.array body.length space (0 + body.length) = _
      rw [Nat.zero_add, Function.update_self]
      simp
    · show Function.update σ1.array body.length space (0 + i) = _
      rw [Nat.zero_add, Function.update_of_ne hib]
      rw [Nat.zero_add] at hold
      rw [hold]
      rcases Nat.lt_or_gt_of_ne hib with hlt | hgt
      · rw [List.getD_append _ _ _ _ hlt, List.getD_append _ _ _ _ hlt]
      · rw [List.getD_eq_default _ _ (by simp; omega), List.getD_eq_default _ _ (by simp; omega)]
  · intro hm
    rcases List.mem_append.mp hm with hm | hm
    · exact h0 (List.mem_append_left _ hm)
    · exact absurd (List.mem_singleton.mp hm) (by decide)

end Copy

/-! ## Lines -/

/-- The last word asks for the background. -/
def inBackground (ts : List (List UInt8)) : Bool :=
  ts.getLast?.any fun w => w.head? = some ampersand

/-- The words that stay in `argv`. -/
def arguments (ts : List (List UInt8)) : List (List UInt8) :=
  if inBackground ts then ts.dropLast else ts

/-- What `parseline` returns. -/
def bgResult (ts : List (List UInt8)) : ℤ := if ts = [] ∨ inBackground ts then 1 else 0

/-- `argv` has the words `ts` and a null pointer behind them. -/
structure Stored (σ : LineState) (ts : List (List UInt8)) : Prop where
  args : ∀ i t, ts[i]? = some t → ∃ q, σ.argv i = some q ∧ IsString σ.array q t
  terminator : σ.argv ts.length = none

section Lines

variable {σ σ' : LineState} {ts : List (List UInt8)} {body : List UInt8} {c : UInt8}

theorem startsWithAmpersand_run {i q : ℕ} {w : List UInt8} (hq : σ.argv i = some q)
    (hw : IsString σ.array q w) : startsWithAmpersand i σ = .ok (w.head? = some ampersand) σ := by
  have hiff : σ.array q = ampersand ↔ w.head? = some ampersand := by
    cases w with
    | nil =>
        rw [IsString.nil_iff.mp hw]
        decide
    | cons c w =>
        rw [(IsString.cons_iff.mp hw).1]
        simp
  simp only [startsWithAmpersand, hq, hiff]

/-- What comes after the loop. -/
theorem finish_run (parsed : Parsed σ σ' 0 0 ts) (hroom : ts.length < maxArgs) :
    ∃ σ'', (do
        storeArgv ts.length none
        if ts.length = 0 then
          return 1
        let bg ← startsWithAmpersand (ts.length - 1)
        if bg then
          storeArgv (ts.length - 1) none
          return 1
        return 0 : LineCode ℤ) σ' = .ok (bgResult ts) σ'' ∧ Stored σ'' (arguments ts) := by
  let σ1 : LineState := { σ' with argv := Function.update σ'.argv ts.length none }
  have hlt : ∀ {i t}, ts[i]? = some t → i < ts.length := fun h => (List.getElem?_eq_some_iff.mp h).1
  have hargs : ∀ i t, ts[i]? = some t → ∃ q, σ1.argv i = some q ∧ IsString σ1.array q t := by
    intro i t ht
    obtain ⟨q, hq, hs⟩ := parsed.args i t ht
    rw [Nat.zero_add] at hq
    exact ⟨q, (Function.update_of_ne (hlt ht).ne _ _).trans hq, hs⟩
  have hend : σ1.argv ts.length = none := Function.update_self ..
  rw [bind_of_ok (storeArgv_run none hroom)]
  rcases List.eq_nil_or_concat' ts with rfl | ⟨init, w, rfl⟩
  · exact ⟨σ1, rfl, hargs, hend⟩
  · have hne : ¬ (init ++ [w]).length = 0 := by simp
    have hpred : (init ++ [w]).length - 1 = init.length := by simp
    obtain ⟨q, hq, hw⟩ := hargs init.length w (by simp)
    have hbg : inBackground (init ++ [w]) = decide (w.head? = some ampersand) := by
      simp [inBackground]
    rw [if_neg hne, hpred, bind_of_ok (startsWithAmpersand_run hq hw)]
    by_cases hb : w.head? = some ampersand
    · -- the word is taken out of `argv` again
      have hstored : arguments (init ++ [w]) = init := by
        rw [arguments, hbg, if_pos (by simpa using hb), List.dropLast_concat]
      have hresult : bgResult (init ++ [w]) = 1 := if_pos (.inr (by rw [hbg]; simpa using hb))
      have hlen : init.length < maxArgs := by
        rw [List.length_append] at hroom
        omega
      rw [if_pos (by simpa using hb), bind_of_ok (storeArgv_run none hlen), hresult, hstored]
      refine ⟨_, rfl, fun i t ht => ?_, Function.update_self ..⟩
      have hi := (List.getElem?_eq_some_iff.mp ht).1
      obtain ⟨q, hq, hs⟩ := hargs i t (by rw [List.getElem?_append_left hi, ht])
      exact ⟨q, (Function.update_of_ne hi.ne _ _).trans hq, hs⟩
    · have hstored : arguments (init ++ [w]) = init ++ [w] := by
        rw [arguments, hbg, if_neg (by simpa using hb)]
      have hresult : bgResult (init ++ [w]) = 0 := if_neg (by simp [hbg, hb])
      rw [if_neg (by simpa using hb), hresult, hstored]
      exact ⟨σ1, rfl, hargs, hend⟩

/-- The loop on the copy of a line. -/
theorem argvLoop_line (h : IsString σ.array 0 (body ++ [space])) (hlen : body.length + 1 < maxLine) :
    LoopEnds (argvLoop maxLine (nextToken σ.array 0).1 (nextToken σ.array 0).2 0 σ) σ 0 0
      (tokens body) := by
  have hspace : EndsInSpace (body ++ [space]) := fun x hx => by simpa using hx.symm
  have hf : (body ++ [space]).length ≤ maxLine := by
    rw [List.length_append, List.length_singleton]
    omega
  rw [← tokens_append_space]
  exact argvLoop_ends h hspace (by simpa using hlen) hf

/-- A line is cut into its words, if `argv` has room for them and the null pointer. -/
theorem parseline_run (h0 : 0 ∉ body ++ [c]) (hlen : (body ++ [c]).length < maxLine)
    (hroom : (tokens body).length < maxArgs) :
    ∃ σ', parseline (body ++ [c]) σ = .ok (bgResult (tokens body)) σ' ∧
      Stored σ' (arguments (tokens body)) := by
  obtain ⟨σ1, hcopy, -, hstring⟩ := copyLine_run (σ := σ) h0 hlen
  have hends := argvLoop_line hstring (by simpa using hlen)
  obtain ⟨σ2, hloop, parsed⟩ := hends.fits (by omega)
  rw [Nat.zero_add] at hloop
  obtain ⟨σ3, hfinish, stored⟩ := finish_run parsed hroom
  refine ⟨σ3, ?_, stored⟩
  rw [parseline, bind_of_ok hcopy, fetch_bind, bind_of_ok hloop]
  exact hfinish

/-- Otherwise something is stored behind `argv`. -/
theorem parseline_overflows (h0 : 0 ∉ body ++ [c]) (hlen : (body ++ [c]).length < maxLine)
    (hroom : maxArgs ≤ (tokens body).length) :
    ∃ σ', parseline (body ++ [c]) σ = .error .outsideArgv σ' := by
  obtain ⟨σ1, hcopy, -, hstring⟩ := copyLine_run (σ := σ) h0 hlen
  have hends := argvLoop_line hstring (by simpa using hlen)
  rcases Nat.eq_or_lt_of_le hroom with heq | hgt
  · -- the words have room, but not the null pointer
    obtain ⟨σ2, hloop, -⟩ := hends.fits (by omega)
    refine ⟨σ2, ?_⟩
    rw [parseline, bind_of_ok hcopy, fetch_bind, bind_of_ok hloop,
      bind_of_error (storeArgv_outside none (by omega))]
  · obtain ⟨σ2, hloop⟩ := hends.overflows (Nat.zero_le _) (by omega)
    refine ⟨σ2, ?_⟩
    rw [parseline, bind_of_ok hcopy, fetch_bind, bind_of_error hloop]

/-- **A line that ends in a newline is cut into its words.** -/
theorem parseline_tokens (h0 : 0 ∉ body) (hlen : (body ++ [newline]).length < maxLine)
    (hroom : (tokens body).length < maxArgs) :
    ∃ σ', parseline (body ++ [newline]) σ = .ok (bgResult (tokens body)) σ' ∧
      Stored σ' (arguments (tokens body)) :=
  parseline_run (by simpa [h0] using (by decide : (0 : UInt8) ≠ newline)) hlen hroom

end Lines

/-- `ls 'a b' &` -/
theorem parseline_tokens_small :
    ∃ σ', parseline ([108, 115, 32, 39, 97, 32, 98, 39, 32, 38] ++ [newline])
        ⟨fun _ => 0, fun _ => none⟩ = .ok 1 σ' ∧
      Stored σ' [[108, 115], [97, 32, 98]] := by
  have htokens : tokens [108, 115, 32, 39, 97, 32, 98, 39, 32, 38]
      = [[108, 115], [97, 32, 98], [38]] := by
    simp [tokens, space, quote]
  have hroom : (tokens [108, 115, 32, 39, 97, 32, 98, 39, 32, 38]).length < maxArgs := by
    rw [htokens]
    decide
  have := parseline_tokens (σ := ⟨fun _ => 0, fun _ => none⟩) (by decide) (by decide) hroom
  rwa [htokens] at this

/-! ## Nothing is dropped -/

/-- The text consists of these words: between them are spaces, a word in quotes is whatever the quotes
enclose, and a word without ends before a space. -/
inductive Cut : List UInt8 → List (List UInt8) → Prop where
  | nil : Cut [] []
  | space {l ts} : Cut l ts → Cut (space :: l) ts
  | quoted {t l ts} : quote ∉ t → Cut l ts → Cut (quote :: (t ++ quote :: l)) (t :: ts)
  | word {c t l ts} : c ≠ Shell.space → c ≠ quote → Shell.space ∉ t → Cut l ts →
      Cut (c :: (t ++ Shell.space :: l)) ((c :: t) :: ts)

/-- Every quote that begins a word has another one behind it. -/
def Closed : List UInt8 → Prop
  | [] => True
  | c :: l =>
      if c = space then Closed l
      else if c = quote then quote ∈ l ∧ Closed (l.dropWhile (· ≠ quote)).tail
      else Closed (l.dropWhile (· ≠ space))
termination_by l => l.length
decreasing_by
  · simp
  · have := length_dropWhile_le (· ≠ quote) l
    simp only [List.length_tail, List.length_cons]
    omega
  · have := length_dropWhile_le (· ≠ space) l
    simp only [List.length_cons]
    omega

/-- A last word that asks for the background says nothing else. -/
def BackgroundAlone (ts : List (List UInt8)) : Prop :=
  ∀ w, ts.getLast? = some w → w.head? = some ampersand → w = [ampersand]

section Cut

variable {c : UInt8} {a b l : List UInt8} {ts : List (List UInt8)}

theorem closed_space : Closed (space :: l) ↔ Closed l := by
  rw [Closed, if_pos rfl]

theorem closed_quoted (h : quote ∉ a) : Closed (quote :: (a ++ quote :: b)) ↔ Closed b := by
  rw [Closed, if_neg (by decide), if_pos rfl, dropWhile_ne h, List.tail_cons]
  exact and_iff_right (by simp)

theorem not_closed (h : quote ∉ l) : ¬ Closed (quote :: l) := by
  rw [Closed, if_neg (by decide), if_pos rfl]
  exact fun hc => h hc.1

theorem closed_word (hs : c ≠ space) (hq : c ≠ quote) (h : space ∉ a) :
    Closed (c :: (a ++ space :: b)) ↔ Closed b := by
  rw [Closed, if_neg hs, if_neg hq, dropWhile_ne h, closed_space]

theorem closed_last_word (hs : c ≠ space) (hq : c ≠ quote) (h : space ∉ l) : Closed (c :: l) := by
  have hall : ∀ x ∈ l, decide (x ≠ space) = true := fun x hx => by
    simpa using fun e : x = space => h (e ▸ hx)
  rw [Closed, if_neg hs, if_neg hq, List.dropWhile_eq_nil_iff.mpr hall, Closed]
  trivial

/-- The delimiter at the end of the line makes no difference. -/
theorem closed_append_space (l : List UInt8) : Closed (l ++ [space]) ↔ Closed l := by
  induction h : l.length using Nat.strong_induction_on generalizing l with
  | _ n ih =>
      subst h
      cases l with
      | nil => rw [List.nil_append, closed_space]
      | cons c l =>
          rw [List.cons_append]
          by_cases hs : c = space
          · subst hs
            rw [closed_space, closed_space]
            exact ih _ (by simp) l rfl
          by_cases hq : c = quote
          · subst hq
            by_cases hm : quote ∈ l
            · obtain ⟨a, b, rfl, ha⟩ := List.eq_append_cons_of_mem hm
              rw [List.append_assoc, List.cons_append, closed_quoted ha, closed_quoted ha]
              exact ih _ (by simp; omega) b rfl
            · have hm' : quote ∉ l ++ [space] := by simpa [hm] using (by decide : quote ≠ space)
              exact iff_of_false (not_closed hm') (not_closed hm)
          by_cases hm : space ∈ l
          · obtain ⟨a, b, rfl, ha⟩ := List.eq_append_cons_of_mem hm
            rw [List.append_assoc, List.cons_append, closed_word hs hq ha, closed_word hs hq ha]
            exact ih _ (by simp; omega) b rfl
          · refine iff_of_true ((closed_word hs hq hm).mpr ?_) (closed_last_word hs hq hm)
            rw [Closed]
            trivial

/-- The words are those that `parseline` finds, and no quote is left open. -/
theorem Cut.tokens_closed (h : Cut l ts) : tokens l = ts ∧ Closed l := by
  induction h with
  | nil => exact ⟨by rw [tokens], by rw [Closed]; trivial⟩
  | space _ ih => exact ⟨tokens_space.trans ih.1, closed_space.mpr ih.2⟩
  | quoted ht _ ih => exact ⟨by rw [tokens_quoted ht, ih.1], (closed_quoted ht).mpr ih.2⟩
  | word hs hq ht _ ih => exact ⟨by rw [tokens_word hs hq ht, ih.1], (closed_word hs hq ht).mpr ih.2⟩

/-- A text that ends in a space and has no open quote consists of its words. -/
theorem cut_of_closed (l : List UInt8) (hend : EndsInSpace l) (hclosed : Closed l) : Cut l (tokens l) := by
  induction h : l.length using Nat.strong_induction_on generalizing l with
  | _ n ih =>
      subst h
      cases l with
      | nil =>
          rw [tokens]
          exact .nil
      | cons c l =>
          by_cases hs : c = space
          · subst hs
            rw [tokens_space]
            exact .space (ih _ (by simp) l (hend.suffix (a := [space])) (closed_space.mp hclosed) rfl)
          by_cases hq : c = quote
          · subst hq
            by_cases hm : quote ∈ l
            · obtain ⟨a, b, rfl, ha⟩ := List.eq_append_cons_of_mem hm
              have hb : EndsInSpace b := EndsInSpace.suffix (a := quote :: (a ++ [quote])) (by simpa using hend)
              rw [tokens_quoted ha]
              exact .quoted ha (ih _ (by simp; omega) b hb ((closed_quoted ha).mp hclosed) rfl)
            · exact absurd hclosed (not_closed hm)
          · have hm : space ∈ l := by simpa [Ne.symm hs] using hend.mem
            obtain ⟨a, b, rfl, ha⟩ := List.eq_append_cons_of_mem hm
            have hb : EndsInSpace b := EndsInSpace.suffix (a := c :: (a ++ [space])) (by simpa using hend)
            rw [tokens_word hs hq ha]
            exact .word hs hq ha (ih _ (by simp; omega) b hb ((closed_word hs hq ha).mp hclosed) rfl)

/-- Which lines consist of words. -/
theorem cut_line_iff {body : List UInt8} :
    Cut (body ++ [space]) ts ↔ ts = tokens body ∧ Closed body := by
  constructor
  · intro h
    obtain ⟨htokens, hclosed⟩ := h.tokens_closed
    rw [tokens_append_space] at htokens
    exact ⟨htokens.symm, (closed_append_space body).mp hclosed⟩
  · rintro ⟨rfl, hclosed⟩
    have hend : EndsInSpace (body ++ [space]) := fun x hx => by simpa using hx.symm
    have hcut := cut_of_closed _ hend ((closed_append_space body).mpr hclosed)
    rwa [tokens_append_space] at hcut

/-- Which words `argv` has all of, if what is taken out of it is a mark for the background. -/
theorem stored_iff {σ : LineState} (stored : Stored σ (arguments ts)) :
    (Stored σ ts ∨ bgResult ts = 1 ∧ ∃ init, ts = init ++ [[ampersand]] ∧ Stored σ init) ↔
      BackgroundAlone ts := by
  rcases List.eq_nil_or_concat' ts with rfl | ⟨init, w, rfl⟩
  · exact iff_of_true (.inl stored) (fun w hw => by cases hw)
  have hbg : inBackground (init ++ [w]) = decide (w.head? = some ampersand) := by
    simp [inBackground]
  have halone : BackgroundAlone (init ++ [w]) ↔ (w.head? = some ampersand → w = [ampersand]) := by
    simp [BackgroundAlone]
  rw [halone]
  by_cases hb : w.head? = some ampersand
  · rw [arguments, hbg, if_pos (by simpa using hb), List.dropLast_concat] at stored
    have hresult : bgResult (init ++ [w]) = 1 := if_pos (.inr (by rw [hbg]; simpa using hb))
    constructor
    · rintro (hall | ⟨-, init', e, -⟩) _
      · -- the place of the last word has a null pointer
        obtain ⟨q, hq, -⟩ := hall.args init.length w (by simp)
        rw [stored.terminator] at hq
        cases hq
      · exact (List.append_inj' e rfl).2 |> List.singleton_injective
    · intro h
      exact .inr ⟨hresult, init, by rw [h hb], stored⟩
  · rw [arguments, hbg, if_neg (by simpa using hb)] at stored
    exact iff_of_true (.inl stored) fun h => absurd h hb

end Cut

/-! ## Bounds -/

/-- `parseline` stores nothing out of bounds and drops nothing: the copy has every character of the line
but a newline at the end, it consists of words, and `argv` gets all of them, or all but a last word `&`,
which is the value returned. -/
def KeepsBounds (cmdline : List UInt8) (σ : LineState) : Prop :=
  ∃ r σ', parseline cmdline σ = .ok r σ' ∧ ∀ σ1, copyLine cmdline σ = .ok () σ1 →
    (∀ (i : ℕ) (c : UInt8), cmdline[i]? = some c →
      σ1.array i = c ∨ i + 1 = cmdline.length ∧ c = newline) ∧
    ∃ ts, Cut (textAt σ1.array 0) ts ∧
      (Stored σ' ts ∨ r = 1 ∧ ∃ init, ts = init ++ [[ampersand]] ∧ Stored σ' init)

section Bounds

variable {σ : LineState} {cmdline body : List UInt8} {c : UInt8}

/-- The space for the last character of an empty line goes in front of the array. -/
theorem parseline_nil : ∃ σ', parseline [] σ = .error .outsideArray σ' := by
  have hempty : 0 + ([] : List UInt8).length < maxLine := by decide
  obtain ⟨σ1, hrun, -, hstring, -⟩ := strcpy_run (σ := σ) (by simp) hempty
  have htext : textAt σ1.array 0 = [] := textAt_eq hstring (by decide)
  have hstop : copyLine [] σ = .error .outsideArray σ1 := by
    rw [copyLine, bind_of_ok hrun, fetch_bind, htext]
    rfl
  exact ⟨σ1, by rw [parseline, bind_of_error hstop]⟩

/-- What the copy keeps of a line. -/
theorem copy_keeps_iff {σ1 : LineState} (hstring : IsString σ1.array 0 (body ++ [space])) :
    (∀ (i : ℕ) (d : UInt8), (body ++ [c])[i]? = some d →
      σ1.array i = d ∨ i + 1 = (body ++ [c]).length ∧ d = newline) ↔ c = newline ∨ c = space := by
  have hchar : ∀ i ≤ body.length, σ1.array i = (body ++ [space]).getD i 0 := fun i hi => by
    have := hstring.chars i (by simp; omega)
    rwa [Nat.zero_add] at this
  have hlast : σ1.array body.length = space := by
    rw [hchar _ le_rfl]
    simp
  constructor
  · intro h
    rcases h body.length c (by simp) with e | ⟨-, e⟩
    · exact .inr (e.symm.trans hlast)
    · exact .inl e
  · intro hc i d hd
    have hi := (List.getElem?_eq_some_iff.mp hd).1
    rw [List.length_append, List.length_singleton] at hi
    rcases Nat.lt_or_eq_of_le (Nat.le_of_lt_succ hi) with hlt | rfl
    · left
      rw [hchar i hlt.le, List.getD_append _ _ _ _ hlt, List.getD_eq_getElem?_getD]
      rw [List.getElem?_append_left hlt] at hd
      rw [hd, Option.getD_some]
    · obtain rfl : c = d := by simpa using hd
      rcases hc with rfl | rfl
      · exact .inr ⟨by simp, rfl⟩
      · exact .inl hlast

/-- **Which lines are taken as a whole, and without a store out of bounds.** -/
theorem parseline_keeps_bounds_iff (h0 : 0 ∉ cmdline) (hlen : cmdline.length < maxLine) :
    KeepsBounds cmdline σ ↔
      (cmdline.getLast? = some newline ∨ cmdline.getLast? = some space) ∧
        (tokens cmdline.dropLast).length < maxArgs ∧ Closed cmdline.dropLast ∧
          BackgroundAlone (tokens cmdline.dropLast) := by
  rcases List.eq_nil_or_concat' cmdline with rfl | ⟨body, c, rfl⟩
  · obtain ⟨σ1, hstop⟩ := parseline_nil (σ := σ)
    constructor
    · rintro ⟨r, σ', hrun, -⟩
      rw [hstop] at hrun
      cases hrun
    · rintro ⟨h | h, -⟩ <;> cases h
  obtain ⟨σ1, hcopy, -, hstring⟩ := copyLine_run (σ := σ) h0 hlen
  have htext : textAt σ1.array 0 = body ++ [space] := textAt_eq hstring (by simpa using hlen)
  rw [List.getLast?_concat, List.dropLast_concat, Option.some_inj, Option.some_inj]
  by_cases hroom : (tokens body).length < maxArgs
  · obtain ⟨σ2, hrun, stored⟩ := parseline_run (σ := σ) h0 hlen hroom
    rw [← copy_keeps_iff hstring, ← stored_iff stored]
    constructor
    · rintro ⟨r, σ', hrun', hkeeps⟩
      rw [hrun] at hrun'
      cases hrun'
      obtain ⟨hchars, ts, hcut, hstored⟩ := hkeeps σ1 hcopy
      rw [htext] at hcut
      obtain ⟨rfl, hclosed⟩ := cut_line_iff.mp hcut
      exact ⟨hchars, hroom, hclosed, hstored⟩
    · rintro ⟨hchars, -, hclosed, hstored⟩
      refine ⟨_, σ2, hrun, fun σ' hcopy' => ?_⟩
      rw [hcopy] at hcopy'
      cases hcopy'
      refine ⟨hchars, tokens body, ?_, hstored⟩
      rw [htext]
      exact cut_line_iff.mpr ⟨rfl, hclosed⟩
  · refine iff_of_false ?_ fun h => hroom h.2.1
    rintro ⟨r, σ', hrun, -⟩
    obtain ⟨σ2, hstop⟩ := parseline_overflows (σ := σ) h0 hlen (Nat.not_lt.mp hroom)
    rw [hstop] at hrun
    cases hrun

end Bounds

/-- `ls 'a b' &` -/
theorem parseline_keeps_bounds_small :
    KeepsBounds ([108, 115, 32, 39, 97, 32, 98, 39, 32, 38] ++ [newline]) ⟨fun _ => 0, fun _ => none⟩ := by
  have hlast : ([108, 115, 32, 39, 97, 32, 98, 39, 32, 38] ++ [newline]).dropLast =
      [108, 115, 32, 39, 97, 32, 98, 39, 32, 38] := List.dropLast_concat
  refine (parseline_keeps_bounds_iff (by decide) (by decide)).mpr ?_
  rw [hlast]
  have htokens : tokens [108, 115, 32, 39, 97, 32, 98, 39, 32, 38]
      = [[108, 115], [97, 32, 98], [38]] := by
    simp [tokens, space, quote]
  have hclosed : Closed [108, 115, 32, 39, 97, 32, 98, 39, 32, 38] := by
    simp [Closed, space, quote]
  rw [htokens]
  refine ⟨.inl (by simp), by decide, hclosed, ?_⟩
  simp [BackgroundAlone, ampersand]

/-- `a a … a`, with as many words as `argv` has places. -/
def manyWords : List UInt8 := (List.replicate maxArgs [97, space]).flatten

theorem tokens_manyWords (n : ℕ) :
    tokens (List.replicate n [97, space]).flatten = List.replicate n [97] := by
  induction n with
  | zero => simp [tokens]
  | succ n ih =>
      rw [List.replicate_succ, List.flatten_cons, List.replicate_succ, ← ih]
      exact tokens_word (a := []) (by decide) (by decide) List.not_mem_nil

/-- The null pointer goes behind the end of `argv`. -/
theorem manyWords_out_of_bounds :
    (0 ∉ manyWords ++ [newline] ∧ (manyWords ++ [newline]).length < maxLine) ∧
      ¬ KeepsBounds (manyWords ++ [newline]) ⟨fun _ => 0, fun _ => none⟩ := by
  have h0 : 0 ∉ manyWords ++ [newline] := by
    intro h
    rcases List.mem_append.mp h with h | h
    · obtain ⟨w, hw, h⟩ := List.mem_flatten.mp h
      rw [List.eq_of_mem_replicate hw] at h
      exact absurd h (by decide)
    · exact absurd h (by decide)
  have hlen : (manyWords ++ [newline]).length < maxLine := by
    rw [manyWords, List.length_append, List.length_flatten, List.map_replicate, List.sum_replicate]
    decide
  refine ⟨⟨h0, hlen⟩, ?_⟩
  rintro ⟨r, σ', hrun, -⟩
  have hroom : maxArgs ≤ (tokens manyWords).length := by
    rw [manyWords, tokens_manyWords, List.length_replicate]
  obtain ⟨σ1, hstop⟩ := parseline_overflows (σ := ⟨fun _ => 0, fun _ => none⟩) h0 hlen hroom
  rw [hstop] at hrun
  cases hrun

end Pintos.Shell
