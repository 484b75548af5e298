import Pintos.Lib.Memory
import Pintos.Vm.Load

/-!
# What lies on the stack of a new process

`setup_stack` stores the same bytes in both kernels, `stackStores`: the strings from `PHYS_BASE`
down, the padding, a null pointer, the pointers to the strings, the address of the first of them
and the number of arguments.  Here is what the process finds when it reads these bytes.

The first byte goes to `PHYS_BASE` itself, which is not in the page of the stack.  The number of
arguments is stored as one byte.

* **`stackStores_found`** — what the stack holds, for arguments that fit into its page.
* **`StackFound.decodes`** — and that these are the arguments.
-/

namespace Pintos.Userprog

open Lib
open Vm (physBase pgSize stackStores downStores wordStores pointerStores)

/-! ## Sizes -/

/-- The bytes of some strings, each with its terminator. -/
def stringBytes (args : List (List UInt8)) : ℕ := (args.map fun arg => arg.length + 1).sum

@[simp] theorem stringBytes_nil : stringBytes [] = 0 := rfl

@[simp] theorem stringBytes_cons (arg : List UInt8) (args : List (List UInt8)) :
    stringBytes (arg :: args) = arg.length + 1 + stringBytes args := rfl

theorem stringBytes_append (s t : List (List UInt8)) :
    stringBytes (s ++ t) = stringBytes s + stringBytes t := by
  simp [stringBytes]

theorem stringBytes_reverse (args : List (List UInt8)) : stringBytes args.reverse = stringBytes args := by
  simp [stringBytes]

theorem stringBytes_take_le (args : List (List UInt8)) (m : ℕ) :
    stringBytes (args.take m) ≤ stringBytes args := by
  conv_rhs => rw [← List.take_append_drop m args, stringBytes_append]
  exact Nat.le_add_right _ _

theorem stringBytes_take_succ {args : List (List UInt8)} {m : ℕ} (h : m < args.length) :
    stringBytes (args.take (m + 1)) = stringBytes (args.take m) + (args[m].length + 1) := by
  rw [List.take_add_one, List.getElem?_eq_getElem h, stringBytes_append]
  rfl

/-- The bytes the arguments take on the stack: strings, padding, pointers, and three words. -/
def layoutSize (args : List (List UInt8)) : ℕ :=
  stringBytes args + (4 - stringBytes args % 4) + 4 * (args.length + 1) + 12

/-- The stack pointer the process starts with. -/
def startEsp (args : List (List UInt8)) : ℕ := physBase - layoutSize args

/-- The address of the string `args[i]`. -/
def argAddr (args : List (List UInt8)) (i : ℕ) : ℕ := physBase - stringBytes (args.drop i)

theorem stringBytes_drop_le (args : List (List UInt8)) (m : ℕ) :
    stringBytes (args.drop m) ≤ stringBytes args := by
  conv_rhs => rw [← List.take_append_drop m args, stringBytes_append]
  exact Nat.le_add_left _ _

theorem le_argAddr (args : List (List UInt8)) (i : ℕ) : physBase - stringBytes args ≤ argAddr args i :=
  Nat.sub_le_sub_left (stringBytes_drop_le args i) _

theorem argAddr_le (args : List (List UInt8)) (i : ℕ) : argAddr args i ≤ physBase := Nat.sub_le _ _

/-- The strings follow each other. -/
theorem argAddr_add {args : List (List UInt8)} {i : ℕ} (h : i < args.length)
    (room : stringBytes args ≤ physBase) :
    argAddr args i + (args[i].length + 1) = argAddr args (i + 1) := by
  have hdrop : stringBytes (args.drop i) = args[i].length + 1 + stringBytes (args.drop (i + 1)) := by
    rw [List.drop_eq_getElem_cons h, stringBytes_cons]
  have := stringBytes_drop_le args i
  rw [argAddr, argAddr]
  omega

theorem argAddr_mono (args : List (List UInt8)) {i j : ℕ} (h : i ≤ j) : argAddr args i ≤ argAddr args j := by
  refine Nat.sub_le_sub_left ?_ _
  rw [show j = i + (j - i) by omega, ← List.drop_drop]
  exact stringBytes_drop_le _ _

theorem reverse_take_succ {α : Type} {l : List α} {m : ℕ} (h : m < l.length) :
    (l.take (m + 1)).reverse = l[m] :: (l.take m).reverse := by
  rw [List.take_add_one, List.getElem?_eq_getElem h, List.reverse_append]
  rfl

/-! ## Bytes stored from an address down -/

section Down

variable {mem : ℕ → UInt8} {esp a : ℕ} {bytes : List UInt8}

theorem mem_downStores {p : ℕ × UInt8} (h : p ∈ downStores esp bytes) :
    ∃ i < bytes.length, p.1 = esp - i := by
  obtain ⟨⟨c, i⟩, hb, rfl⟩ := List.mem_map.mp h
  have := List.mem_zipIdx hb
  exact ⟨i, by omega, rfl⟩

theorem downStores_append (esp : ℕ) (s t : List UInt8) :
    downStores esp (s ++ t) = downStores esp s ++ downStores (esp - s.length) t := by
  rw [downStores, List.zipIdx_append, List.map_append, downStores, downStores]
  congr 1
  rw [Nat.zero_add, List.zipIdx_eq_map_add, List.map_map]
  refine List.map_congr_left fun b _ => ?_
  show (esp - (s.length + b.2), b.1) = (esp - s.length - b.2, b.1)
  rw [Nat.sub_sub]

theorem downStores_cons (esp : ℕ) (c : UInt8) (s : List UInt8) :
    downStores esp (c :: s) = (esp, c) :: downStores (esp - 1) s := downStores_append esp [c] s

/-- A byte stored from `esp` down. -/
theorem putAll_downStores (hesp : bytes.length ≤ esp) {i : ℕ} (hi : i < bytes.length) :
    putAll mem (downStores esp bytes) (esp - i) = bytes.getD i 0 := by
  induction bytes generalizing mem esp i with
  | nil => exact absurd hi (Nat.not_lt_zero i)
  | cons c s ih =>
      rw [List.length_cons] at hesp hi
      rw [downStores_cons, putAll_cons]
      cases i with
      | zero =>
          rw [Nat.sub_zero, putAll_of_notMem]
          · exact Function.update_self ..
          · intro p hp e
            obtain ⟨j, -, hj⟩ := mem_downStores hp
            omega
      | succ i =>
          rw [show esp - (i + 1) = esp - 1 - i by omega, ih (by omega) (by omega), List.getD_cons_succ]

/-- The strings, last one first, each from its terminator down. -/
def stringStores (rev : List (List UInt8)) : List UInt8 := rev.flatMap fun arg => 0 :: arg.reverse

theorem length_stringStores (rev : List (List UInt8)) : (stringStores rev).length = stringBytes rev := by
  induction rev with
  | nil => rfl
  | cons arg rev ih =>
      rw [stringStores, List.flatMap_cons, List.length_append, ← stringStores, ih, stringBytes_cons]
      simp

theorem getD_stringStores : ∀ {rev : List (List UInt8)} {m : ℕ} (h : m < rev.length) {q : ℕ},
    q ≤ rev[m].length →
    (stringStores rev).getD (stringBytes (rev.take m) + q) 0 = (0 :: rev[m].reverse).getD q 0 := by
  intro rev
  induction rev with
  | nil => exact fun h => absurd h (Nat.not_lt_zero _)
  | cons arg rev ih =>
      intro m h q hq
      rw [stringStores, List.flatMap_cons, ← stringStores]
      cases m with
      | zero =>
          rw [List.take_zero, stringBytes_nil, Nat.zero_add, List.getElem_cons_zero]
          rw [List.getElem_cons_zero] at hq
          exact List.getD_append _ _ _ _ (by simp; omega)
      | succ m =>
          rw [List.getElem_cons_succ] at hq ⊢
          rw [List.take_succ_cons, stringBytes_cons,
            List.getD_append_right _ _ _ _ (by simp; omega), ← ih (by simpa using h) hq]
          congr 1
          simp
          omega

/-- A string stored from its terminator down, behind others. -/
theorem string_of_stores {rev : List (List UInt8)} {m top : ℕ} (h : m < rev.length)
    (hz : 0 ∉ rev[m]) (htop : stringBytes rev ≤ top)
    (held : ∀ i < stringBytes rev, mem (top - 1 - i) = (stringStores rev).getD i 0) :
    IsString mem (top - stringBytes (rev.take (m + 1))) rev[m] := by
  refine ⟨fun i hi => ?_, hz⟩
  have hle := stringBytes_take_le rev (m + 1)
  rw [stringBytes_take_succ h] at hle ⊢
  have hget := getD_stringStores h (q := rev[m].length - i) (by omega)
  have haddr : top - (stringBytes (rev.take m) + (rev[m].length + 1)) + i =
      top - 1 - (stringBytes (rev.take m) + (rev[m].length - i)) := by omega
  rw [haddr, held _ (by omega), hget]
  rcases Nat.lt_or_eq_of_le hi with hlt | rfl
  · obtain ⟨j, hj⟩ : ∃ j, rev[m].length - i = j + 1 := ⟨rev[m].length - i - 1, by omega⟩
    rw [hj, List.getD_cons_succ, List.getD_eq_getElem _ _ (by simp; omega), List.getElem_reverse,
      List.getD_eq_getElem _ _ hlt]
    congr 1
    omega
  · rw [Nat.sub_self, List.getD_eq_default _ _ le_rfl]
    rfl

end Down

/-! ## Words and pointers -/

section Words

variable {mem : ℕ → UInt8} {esp ptr a v : ℕ}

theorem putAll_wordStores : putAll mem (wordStores a v) = putWord mem a v := by
  funext b
  simp only [wordStores, List.range_succ, List.range_zero, List.map_cons, List.map_nil, List.nil_append,
    List.cons_append, putAll_cons, putAll_nil, putWord]
  split
  · next h =>
      obtain ⟨i, hi, rfl⟩ : ∃ i < 4, b = a + i := ⟨b - a, by omega, by omega⟩
      rw [Nat.add_sub_cancel_left]
      interval_cases i <;> simp [Block.wordByte]
  · next h =>
      rw [Function.update_of_ne (by omega), Function.update_of_ne (by omega),
        Function.update_of_ne (by omega), Function.update_of_ne (by omega)]

theorem mem_wordStores {p : ℕ × UInt8} (h : p ∈ wordStores a v) : a ≤ p.1 ∧ p.1 < a + 4 := by
  obtain ⟨i, hi, rfl⟩ := List.mem_map.mp h
  have := List.mem_range.mp hi
  exact ⟨Nat.le_add_right _ _, by simp; omega⟩

theorem mem_pointerStores : ∀ {rev : List (List UInt8)} {ptr esp : ℕ} {p : ℕ × UInt8},
    p ∈ pointerStores rev ptr esp → 4 * rev.length ≤ esp → esp + 4 ≤ p.1 + 4 * rev.length ∧ p.1 < esp + 4 := by
  intro rev
  induction rev with
  | nil => exact fun h => absurd h List.not_mem_nil
  | cons arg rev ih =>
      intro ptr esp p h hesp
      rw [List.length_cons] at hesp ⊢
      rcases List.mem_append.mp h with h | h
      · have := mem_wordStores h
        omega
      · have := ih h (by omega)
        omega

/-- A pointer, among those stored from `esp` down. -/
theorem putAll_pointerStores : ∀ {rev : List (List UInt8)} {mem : ℕ → UInt8} {ptr esp m : ℕ},
    m < rev.length → 4 * rev.length ≤ esp → ptr < 2 ^ 32 →
    wordAtAddr (putAll mem (pointerStores rev ptr esp)) (esp - 4 * m) =
      ptr - stringBytes (rev.take (m + 1)) := by
  intro rev
  induction rev with
  | nil => exact fun h => absurd h (Nat.not_lt_zero _)
  | cons arg rev ih =>
      intro mem ptr esp m h hesp hptr
      rw [List.length_cons] at h hesp
      rw [pointerStores, putAll_append, putAll_wordStores]
      cases m with
      | zero =>
          have hsame : wordAtAddr (putAll (putWord mem esp (ptr - (arg.length + 1)))
              (pointerStores rev (ptr - (arg.length + 1)) (esp - 4))) esp =
              wordAtAddr (putWord mem esp (ptr - (arg.length + 1))) esp :=
            wordAtAddr_congr fun k hk => putAll_of_notMem fun p hp e => by
              have := mem_pointerStores hp (by omega)
              omega
          rw [Nat.mul_zero, Nat.sub_zero, hsame, wordAtAddr_putWord (by omega)]
          simp
      | succ m =>
          rw [show esp - 4 * (m + 1) = esp - 4 - 4 * m by omega, ih (by omega) (by omega) (by omega),
            List.take_succ_cons, stringBytes_cons]
          omega

end Words

/-! ## The stack -/

/-- What a process with its stack pointer at `esp` finds: a null return address, `argc`, `argv`, the
array of pointers to the strings and behind it a null pointer. -/
structure StackFound (mem : ℕ → UInt8) (args : List (List UInt8)) (argc esp : ℕ) : Prop where
  ret : wordAtAddr mem esp = 0
  argc : wordAtAddr mem (esp + 4) = argc
  argv : wordAtAddr mem (esp + 8) = esp + 12
  pointer : ∀ i < args.length, wordAtAddr mem (esp + 12 + 4 * i) = argAddr args i
  string : ∀ i (h : i < args.length), IsString mem (argAddr args i) args[i]
  last : wordAtAddr mem (esp + 12 + 4 * args.length) = 0

section Found

variable {mem : ℕ → UInt8} {args : List (List UInt8)}

theorem argAddr_eq {i : ℕ} (h : i < args.length) :
    argAddr args i = physBase - stringBytes (args.reverse.take (args.length - 1 - i + 1)) := by
  rw [argAddr, show args.length - 1 - i + 1 = args.length - i by omega, List.take_reverse,
    stringBytes_reverse, show args.length - (args.length - i) = i by omega]

theorem length_descending (args : List (List UInt8)) :
    ((0 : UInt8) :: stringStores args.reverse ++ List.replicate (4 - stringBytes args % 4) 0).length =
      1 + stringBytes args + (4 - stringBytes args % 4) := by
  rw [List.length_append, List.length_cons, length_stringStores, stringBytes_reverse,
    List.length_replicate]
  omega

/-- The stores in five groups: what goes down byte by byte, the null pointer, the pointers, their
address and their number. -/
theorem stackStores_eq {esp : ℕ} (h : esp + layoutSize args = physBase) :
    stackStores args =
      downStores physBase (0 :: stringStores args.reverse ++
        List.replicate (4 - stringBytes args % 4) 0) ++
      [(esp + 12 + 4 * args.length, 0)] ++
      pointerStores args.reverse physBase (esp + 8 + 4 * args.length) ++
      wordStores (esp + 8) (esp + 12) ++ [(esp + 4, UInt8.ofNat args.length)] := by
  have hbase : physBase = 3221225472 := rfl
  have hlen := length_descending args
  unfold layoutSize at h
  set bytes := (0 : UInt8) :: stringStores args.reverse ++
    List.replicate (4 - stringBytes args % 4) 0 with hbytes
  have h1 : physBase - bytes.length - 3 = esp + 12 + 4 * args.length := by omega
  have h2 : esp + 12 + 4 * args.length - 4 = esp + 8 + 4 * args.length := by omega
  have h3 : esp + 8 + 4 * args.length - 4 * args.length = esp + 8 := by omega
  have h4 : esp + 8 - 4 = esp + 4 := by omega
  show downStores physBase bytes ++ [(physBase - bytes.length - 3, 0)] ++
    pointerStores args.reverse physBase (physBase - bytes.length - 3 - 4) ++
    wordStores (physBase - bytes.length - 3 - 4 - 4 * args.length)
      (physBase - bytes.length - 3 - 4 - 4 * args.length + 4) ++
    [(physBase - bytes.length - 3 - 4 - 4 * args.length - 4, UInt8.ofNat args.length)] = _
  rw [h1, h2, h3, h4]

/-- **The stack, from the stores that make it.** -/
theorem stackStores_found (fits : layoutSize args ≤ pgSize) (hz : ∀ arg ∈ args, 0 ∉ arg)
    (zero : ∀ a, physBase - pgSize ≤ a → a < physBase → mem a = 0) :
    StackFound (putAll mem (stackStores args)) args (args.length % 256) (startEsp args) := by
  have hbase : physBase = 3221225472 := rfl
  have hpage : pgSize = 4096 := rfl
  unfold layoutSize at fits
  set B := stringBytes args with hB
  set n := args.length with hn
  have hB' : stringBytes args.reverse = B := stringBytes_reverse args
  obtain ⟨esp, hesp, hE⟩ : ∃ esp, startEsp args = esp ∧ esp + (B + (4 - B % 4) + 4 * (n + 1) + 12) =
      physBase := ⟨_, rfl, by unfold startEsp layoutSize; omega⟩
  rw [hesp]
  set bytes := (0 : UInt8) :: stringStores args.reverse ++ List.replicate (4 - B % 4) 0 with hbytes
  have hlen : bytes.length = 1 + B + (4 - B % 4) := length_descending args
  have hstores : stackStores args = _ := stackStores_eq hE
  rw [← hB, ← hn, ← hbytes] at hstores
  rw [hstores, putAll_append, putAll_append, putAll_append, putAll_append]
  -- where the stores of each group are
  have g1 : ∀ p ∈ downStores physBase bytes, esp + 16 + 4 * n ≤ p.1 := fun p hp => by
    obtain ⟨i, hi, e⟩ := mem_downStores hp
    omega
  have g3 : ∀ p ∈ pointerStores args.reverse physBase (esp + 8 + 4 * n),
      esp + 12 ≤ p.1 ∧ p.1 < esp + 12 + 4 * n := fun p hp => by
    have := mem_pointerStores hp (by rw [List.length_reverse]; omega)
    rw [List.length_reverse] at this
    omega
  set m1 := putAll mem (downStores physBase bytes) with hm1
  set m2 := putAll m1 [(esp + 12 + 4 * n, 0)] with hm2
  set m3 := putAll m2 (pointerStores args.reverse physBase (esp + 8 + 4 * n)) with hm3
  set m4 := putAll m3 (wordStores (esp + 8) (esp + 12)) with hm4
  have same1 : ∀ a, a < esp + 16 + 4 * n → m1 a = mem a := fun a ha =>
    putAll_of_notMem fun p hp e => by have := g1 p hp; omega
  have same2 : ∀ a, a ≠ esp + 12 + 4 * n → m2 a = m1 a := fun a ha => Function.update_of_ne ha _ _
  have same3 : ∀ a, a < esp + 12 ∨ esp + 12 + 4 * n ≤ a → m3 a = m2 a := fun a ha =>
    putAll_of_notMem fun p hp e => by have := g3 p hp; omega
  have same4 : ∀ a, a < esp + 8 ∨ esp + 12 ≤ a → m4 a = m3 a := fun a ha =>
    putAll_of_notMem fun p hp e => by have := mem_wordStores hp; omega
  have same5 : ∀ a, a ≠ esp + 4 → putAll m4 [(esp + 4, UInt8.ofNat n)] a = m4 a := fun a ha =>
    Function.update_of_ne ha _ _
  have below : ∀ a, esp ≤ a → a < esp + 8 → m4 a = 0 := fun a h1 h2 => by
    rw [same4 a (by omega), same3 a (by omega), same2 a (by omega), same1 a (by omega),
      zero a (by omega) (by omega)]
  constructor
  · refine wordAtAddr_of_bytes (fun i hi => ?_) (by omega)
    rw [same5 _ (by omega), below _ (by omega) (by omega), wordByte_zero]
  · refine wordAtAddr_of_bytes (fun i hi => ?_) (by omega)
    rcases Nat.eq_zero_or_pos i with rfl | hpos
    · rw [Nat.add_zero, show putAll m4 [(esp + 4, UInt8.ofNat n)] (esp + 4) = UInt8.ofNat n from
        Function.update_self .., wordByte_mod_256]
    · rw [same5 _ (by omega), below _ (by omega) (by omega), wordByte_of_lt (by omega) hpos]
  · have hword : wordAtAddr m4 (esp + 8) = esp + 12 := by
      rw [hm4, putAll_wordStores, wordAtAddr_putWord (by omega)]
    rw [← hword]
    exact wordAtAddr_congr fun i hi => same5 _ (by omega)
  · intro i hi
    have hword : wordAtAddr m3 (esp + 8 + 4 * n - 4 * (n - 1 - i)) = _ :=
      putAll_pointerStores (by rw [List.length_reverse]; omega) (by rw [List.length_reverse]; omega)
        (by omega)
    rw [argAddr_eq hi, ← hword, show esp + 8 + 4 * n - 4 * (n - 1 - i) = esp + 12 + 4 * i by omega]
    refine wordAtAddr_congr fun j hj => ?_
    rw [same5 _ (by omega), same4 _ (by omega)]
  · intro i hi
    have hm : n - 1 - i < args.reverse.length := by rw [List.length_reverse]; omega
    have hrev : args.reverse[n - 1 - i] = args[i] := by
      rw [List.getElem_reverse]
      congr 1
      omega
    have held : ∀ j < stringBytes args.reverse, m1 (physBase - 1 - j) =
        (stringStores args.reverse).getD j 0 := fun j hj => by
      have hdown : m1 (physBase - (j + 1)) = bytes.getD (j + 1) 0 :=
        putAll_downStores (by omega) (by omega)
      rw [show physBase - 1 - j = physBase - (j + 1) by omega, hdown, hbytes, List.cons_append,
        List.getD_cons_succ, List.getD_append _ _ _ _ (by rw [length_stringStores]; omega)]
    have hstring := string_of_stores hm (by rw [hrev]; exact hz _ (List.getElem_mem hi)) (by omega) held
    rw [hrev, ← argAddr_eq hi] at hstring
    refine hstring.congr fun j hj => ?_
    have hlow := le_argAddr args i
    rw [same5 _ (by omega), same4 _ (by omega), same3 _ (by omega), same2 _ (by omega)]
  · refine wordAtAddr_of_bytes (fun i hi => ?_) (by omega)
    rw [same5 _ (by omega), same4 _ (by omega), same3 _ (by omega), wordByte_zero]
    rcases Nat.eq_zero_or_pos i with rfl | hpos
    · exact Function.update_self ..
    · rw [same2 _ (by omega), same1 _ (by omega), zero _ (by omega) (by omega)]

/-- The stack, in memory that is the same there. -/
theorem StackFound.congr {mem' : ℕ → UInt8} {argc : ℕ} (h : StackFound mem args argc (startEsp args))
    (fits : layoutSize args ≤ pgSize)
    (same : ∀ a, startEsp args ≤ a → a < physBase → mem' a = mem a) :
    StackFound mem' args argc (startEsp args) := by
  have hbase : physBase = 3221225472 := rfl
  have hpage : pgSize = 4096 := rfl
  have hE : startEsp args + layoutSize args = physBase := by unfold startEsp; omega
  unfold layoutSize at hE fits
  have words : ∀ a, startEsp args ≤ a → a + 4 ≤ physBase → wordAtAddr mem' a = wordAtAddr mem a :=
    fun a h1 h2 => wordAtAddr_congr fun j hj => same _ (by omega) (by omega)
  refine ⟨?_, ?_, ?_, fun i hi => ?_, fun i hi => ?_, ?_⟩
  · rw [words _ le_rfl (by omega), h.ret]
  · rw [words _ (by omega) (by omega), h.argc]
  · rw [words _ (by omega) (by omega), h.argv]
  · rw [words _ (by omega) (by omega), h.pointer i hi]
  · have hlow := le_argAddr args i
    have htop := argAddr_add hi (by omega)
    have hnext := argAddr_le args (i + 1)
    exact (h.string i hi).congr fun j hj => same _ (by omega) (by omega)
  · rw [words _ (by omega) (by omega), h.last]

/-! ## What a process reads -/

/-- `argv[i]`. -/
def argvAt (mem : ℕ → UInt8) (esp i : ℕ) : ℕ := wordAtAddr mem (wordAtAddr mem (esp + 8) + 4 * i)

/-- The stack of a process with the arguments `args`: a return address, `argc` and `argv`, and from
there on the pointers to the copies of the arguments, which lie behind the pointers, one after the
other. -/
structure Decodes (mem : ℕ → UInt8) (args : List (List UInt8)) (esp : ℕ) : Prop where
  aligned : esp % 4 = 0
  ret : wordAtAddr mem esp = 0
  argc : wordAtAddr mem (esp + 4) = args.length
  copy : ∀ i (h : i < args.length), IsString mem (argvAt mem esp i) args[i]
  last : argvAt mem esp args.length = 0
  array : esp + 12 ≤ wordAtAddr mem (esp + 8)
  behind : ∀ i < args.length, wordAtAddr mem (esp + 8) + 4 * (args.length + 1) ≤ argvAt mem esp i
  apart : ∀ i j (h : i < j) (hj : j < args.length),
    argvAt mem esp i + args[i].length + 1 ≤ argvAt mem esp j
  below : ∀ i (h : i < args.length), argvAt mem esp i + args[i].length + 1 ≤ physBase

/-- **What the stack holds is the arguments.** -/
theorem StackFound.decodes (h : StackFound mem args args.length (startEsp args))
    (fits : layoutSize args ≤ pgSize) : Decodes mem args (startEsp args) := by
  have hbase : physBase = 3221225472 := rfl
  have hpage : pgSize = 4096 := rfl
  have hE : startEsp args + layoutSize args = physBase := by unfold startEsp; omega
  unfold layoutSize at hE fits
  have hargv : ∀ i < args.length, argvAt mem (startEsp args) i = argAddr args i := fun i hi => by
    rw [argvAt, h.argv, h.pointer i hi]
  refine ⟨by omega, h.ret, h.argc, fun i hi => ?_, ?_, h.argv.ge, fun i hi => ?_, fun i j hij hj => ?_,
    fun i hi => ?_⟩
  · rw [hargv i hi]
    exact h.string i hi
  · rw [argvAt, h.argv, h.last]
  · rw [hargv i hi, h.argv]
    have := le_argAddr args i
    omega
  · rw [hargv i (by omega), hargv j hj, Nat.add_assoc, argAddr_add (by omega) (by omega)]
    exact argAddr_mono args hij
  · rw [hargv i hi, Nat.add_assoc, argAddr_add hi (by omega)]
    exact argAddr_le args _

end Found

end Pintos.Userprog
