import Pintos.Userprog.Pages
import Pintos.Userprog.SetupStack
import Pintos.Userprog.StackLayout

/-!
# The run of `setup_stack`

The loops of `setup_stack` store, one after the other, the bytes of `stackStores`.  `Ready` is what
they need: the page of the stack is mapped, and the array and the words lie elsewhere, so that what
is stored does not change what is still to be read.

* **`pushArguments_run`** — what goes to the stack.
* **`setupStack_front`** — the run up to the second page.
-/

namespace Pintos.Userprog

open Lib Strings
open Vm (Memory PageDir PageTable Pte Image PallocFlags pgSize physBase isUserVaddr pdNo ptNo fillPage
  copyBytes stackStores downStores wordStores pointerStores)

/-! ## Stores through the stack pointer -/

/-- Where an address of the stack is in kernel memory. -/
def place (kpage a : ℕ) : ℕ := if a < physBase then kpage + a % pgSize else a

/-- The state after some stores through the stack pointer. -/
def Kernel.stored (k : Kernel) (kpage : ℕ) (stores : List (ℕ × UInt8)) : Kernel :=
  { k with
    mem := putAll k.mem (stores.map fun p => (place kpage p.1, p.2))
    userStores := k.userStores ++ stores.map Prod.fst }

/-- The addresses of the page of the stack, and the first one behind it. -/
def OnStack (a : ℕ) : Prop := physBase - pgSize ≤ a ∧ a ≤ physBase

/-- The address is not where the stack is. -/
def Away (kpage a : ℕ) : Prop := a ≠ physBase ∧ ¬ InPage kpage a

section Stores

variable {k : Kernel} {kpage a : ℕ} {s t : List (ℕ × UInt8)}

@[simp] theorem stored_nil : k.stored kpage [] = k := by
  simp [Kernel.stored]

theorem stored_stored : (k.stored kpage s).stored kpage t = k.stored kpage (s ++ t) := by
  simp [Kernel.stored, putAll_append]

@[simp] theorem entryAt_stored : (k.stored kpage s).entryAt a = k.entryAt a := rfl

theorem mod_pgSize_lt (a : ℕ) : a % pgSize < pgSize := Nat.mod_lt a (by decide)

theorem mem_stored_of_away (ha : Away kpage a) (h : ∀ p ∈ s, OnStack p.1) :
    (k.stored kpage s).mem a = k.mem a := by
  refine putAll_of_notMem fun q hq e => ?_
  obtain ⟨p, hp, rfl⟩ := List.mem_map.mp hq
  simp only [place] at e
  split at e
  · have := mod_pgSize_lt p.1
    exact ha.2 ⟨by omega, by omega⟩
  · next hlow => exact ha.1 (le_antisymm (e ▸ (h p hp).2) (e ▸ Nat.le_of_not_lt hlow))

/-- What the loops of `setup_stack` need: the array at `args` points to the strings `strs`. -/
structure Ready (k : Kernel) (kpage args : ℕ) (strs : List (List UInt8)) : Prop where
  stack : ∀ a, physBase - pgSize ≤ a → a < physBase → k.entryAt a = some ⟨kpage, true⟩
  kernel : strs ≠ [] → physBase ≤ args
  array : ∀ a, args ≤ a → a < args + 4 * strs.length → Away kpage a
  arg : ∀ i (h : i < strs.length), ∃ p, wordAtAddr k.mem (args + 4 * i) = p ∧ physBase ≤ p ∧
    IsString k.mem p strs[i] ∧ ∀ j ≤ strs[i].length, Away kpage (p + j)

namespace Ready

variable {args : ℕ} {strs : List (List UInt8)}

theorem stored (h : Ready k kpage args strs) (hs : ∀ p ∈ s, OnStack p.1) :
    Ready (k.stored kpage s) kpage args strs where
  stack := h.stack
  kernel := h.kernel
  array := h.array
  arg i hi := by
    obtain ⟨p, hp, hle, hstring, haway⟩ := h.arg i hi
    refine ⟨p, ?_, hle, hstring.congr fun j hj => mem_stored_of_away (haway j hj) hs, haway⟩
    rw [← hp]
    exact wordAtAddr_congr fun j hj =>
      mem_stored_of_away (h.array _ (by omega) (by omega)) hs

theorem locate (h : Ready k kpage args strs) (ha : OnStack a) :
    k.locate a true = some (place kpage a) := by
  rw [Kernel.locate, place]
  by_cases hlow : a < physBase
  · have hentry := h.stack a ha.1 hlow
    rw [Kernel.entryAt] at hentry
    simp [isUserVaddr, hlow, hentry]
  · simp [isUserVaddr, hlow]

/-- A byte is stored. -/
theorem stackStore_run (h : Ready k kpage args strs) (ha : OnStack a) (c : UInt8) :
    stackStore a c k = .ok () (k.stored kpage [(a, c)]) := by
  have hstore : storeByte a c k = .ok () { k with mem := Function.update k.mem (place kpage a) c } := by
    rw [storeByte, fetch_bind, h.locate ha]
    rfl
  rw [stackStore, bind_of_ok hstore]
  rfl

/-- A pointer of the array is read. -/
theorem loadArg (h : Ready k kpage args strs) {i : ℕ} (hi : i < strs.length) :
    loadWord (args + 4 * i) k = .ok (wordAtAddr k.mem (args + 4 * i)) k := by
  have hne : strs ≠ [] := by rintro rfl; exact absurd hi (Nat.not_lt_zero i)
  exact loadWord_kernel (le_trans (h.kernel hne) (Nat.le_add_right _ _))

/-- The length of a string is taken. -/
theorem strlenArg (h : Ready k kpage args strs) {i fuel : ℕ} (hi : i < strs.length)
    (hf : strs[i].length < fuel) :
    onMemory (strlen fuel (wordAtAddr k.mem (args + 4 * i))) k = .ok strs[i].length k := by
  obtain ⟨p, hp, hle, hstring, -⟩ := h.arg i hi
  have hbase : 0 < physBase := by decide
  rw [hp]
  exact onMemory_ok (strlen_run hstring (by omega) hf)

/-- A character of a string is read. -/
theorem loadChar (h : Ready k kpage args strs) {i j : ℕ} (hi : i < strs.length) (hj : j < strs[i].length) :
    loadByte (wordAtAddr k.mem (args + 4 * i) + j) k = .ok strs[i][j] k := by
  obtain ⟨p, hp, hle, hstring, -⟩ := h.arg i hi
  rw [hp, loadByte_kernel (by omega), hstring.chars j hj.le, List.getD_eq_getElem _ _ hj]

end Ready

end Stores

/-! ## The loops -/

section Loops

variable {k : Kernel} {kpage args fuel : ℕ} {strs : List (List UInt8)}

theorem onStack_downStores {esp : ℕ} {bytes : List UInt8} (hesp : esp ≤ physBase)
    (room : physBase - pgSize + bytes.length ≤ esp + 1) : ∀ p ∈ downStores esp bytes, OnStack p.1 := by
  intro p hp
  obtain ⟨i, hi, e⟩ := mem_downStores hp
  exact ⟨by omega, by omega⟩

theorem onStack_pointerStores {rev : List (List UInt8)} {ptr esp : ℕ} (hesp : esp + 3 ≤ physBase)
    (room : physBase - pgSize + 4 * rev.length ≤ esp + 4) (hrev : 4 * rev.length ≤ esp) :
    ∀ p ∈ pointerStores rev ptr esp, OnStack p.1 := by
  intro p hp
  have := mem_pointerStores hp hrev
  exact ⟨by omega, by omega⟩

/-- The loop over the characters. -/
theorem pushChars_run {index : ℕ} (hi : index < strs.length) :
    ∀ (n esp : ℕ) (k : Kernel), Ready k kpage args strs → n ≤ strs[index].length → esp ≤ physBase →
      physBase - pgSize + n ≤ esp + 1 →
      pushChars args index n esp k =
        .ok (esp - n) (k.stored kpage (downStores esp (strs[index].take n).reverse)) := by
  intro n
  induction n with
  | zero =>
      intro esp k _ _ _ _
      simp [pushChars, downStores]
  | succ n ih =>
      intro esp k ready hn hesp room
      have hstack : OnStack esp := ⟨by omega, hesp⟩
      have hready := ready.stored (s := [(esp, strs[index][n])]) (by simpa using hstack)
      rw [pushChars, bind_of_ok (ready.loadArg hi), bind_of_ok (ready.loadChar hi (by omega)),
        bind_of_ok (ready.stackStore_run hstack _),
        ih (esp - 1) _ hready (by omega) (by omega) (by omega), stored_stored]
      rw [reverse_take_succ hn, downStores_cons, Nat.sub_sub, Nat.add_comm 1 n]
      rfl

/-- The loop over the strings. -/
theorem pushStrings_run (hfuel : ∀ arg ∈ strs, arg.length < fuel) :
    ∀ (m esp total : ℕ) (k : Kernel), Ready k kpage args strs → m ≤ strs.length → esp ≤ physBase →
      physBase - pgSize + stringBytes (strs.take m) ≤ esp + 1 →
      pushStrings fuel args m esp total k =
        .ok (esp - stringBytes (strs.take m), total + stringBytes (strs.take m))
          (k.stored kpage (downStores esp (stringStores (strs.take m).reverse))) := by
  intro m
  induction m with
  | zero =>
      intro esp total k _ _ _ _
      simp [pushStrings, downStores, stringStores]
  | succ m ih =>
      intro esp total k ready hm hesp room
      have hi : m < strs.length := hm
      rw [stringBytes_take_succ hi] at room ⊢
      have hstack : OnStack esp := ⟨by omega, hesp⟩
      have ready1 := ready.stored (s := [(esp, 0)]) (by simpa using hstack)
      have hchars := pushChars_run hi strs[m].length (esp - 1) _ ready1 le_rfl (by omega) (by omega)
      rw [List.take_length] at hchars
      have hdown : ∀ p ∈ downStores (esp - 1) strs[m].reverse, OnStack p.1 :=
        onStack_downStores (by omega) (by rw [List.length_reverse]; omega)
      have ready2 := ready1.stored hdown
      rw [pushStrings, bind_of_ok (ready.stackStore_run hstack 0), bind_of_ok (ready1.loadArg hi),
        bind_of_ok (ready1.strlenArg hi (hfuel _ (List.getElem_mem hi))), Nat.add_sub_cancel,
        bind_of_ok hchars, ih _ _ _ ready2 (by omega) (by omega) (by omega), stored_stored, stored_stored]
      have hstores : downStores esp (stringStores (strs.take (m + 1)).reverse) = [(esp, 0)] ++
          downStores (esp - 1) strs[m].reverse ++
            downStores (esp - 1 - strs[m].length) (stringStores (strs.take m).reverse) := by
        rw [reverse_take_succ hi, stringStores, List.flatMap_cons, List.cons_append, downStores_cons,
          downStores_append, List.length_reverse]
        rfl
      rw [hstores]
      congr 2
      · omega
      · omega

/-- The loop over the padding. -/
theorem pushPadding_run : ∀ (x esp : ℕ) (k : Kernel), Ready k kpage args strs → esp ≤ physBase →
    physBase - pgSize + x ≤ esp + 1 →
    pushPadding x esp k = .ok (esp - x) (k.stored kpage (downStores esp (List.replicate x 0))) := by
  intro x
  induction x with
  | zero =>
      intro esp k _ _ _
      simp [pushPadding, downStores]
  | succ x ih =>
      intro esp k ready hesp room
      have hstack : OnStack esp := ⟨by omega, hesp⟩
      have ready1 := ready.stored (s := [(esp, 0)]) (by simpa using hstack)
      rw [pushPadding, bind_of_ok (ready.stackStore_run hstack 0), ih _ _ ready1 (by omega) (by omega),
        stored_stored, List.replicate_succ, downStores_cons, Nat.sub_sub, Nat.add_comm 1 x]
      rfl

/-- A word is stored. -/
theorem Ready.stackStoreWord_run (h : Ready k kpage args strs) {a : ℕ} (v : ℕ)
    (hlow : physBase - pgSize ≤ a) (htop : a + 3 ≤ physBase) :
    stackStoreWord a v k = .ok () (k.stored kpage (wordStores a v)) := by
  have stack : ∀ i ≤ 3, OnStack (a + i) := fun i hi => ⟨by omega, by omega⟩
  have one : ∀ (i : ℕ) (c : UInt8), i ≤ 3 → ∀ p ∈ [(a + i, c)], OnStack p.1 := fun i c hi p hp => by
    rw [List.mem_singleton.mp hp]
    exact stack i hi
  have h1 : Ready (k.stored kpage [(a, Block.wordByte v 0)]) kpage args strs :=
    h.stored (one 0 (Block.wordByte v 0) (by omega))
  have h2 := h1.stored (one 1 (Block.wordByte v 1) (by omega))
  have h3 := h2.stored (one 2 (Block.wordByte v 2) (by omega))
  rw [stackStoreWord, bind_of_ok (h.stackStore_run (a := a) (stack 0 (by omega)) _),
    bind_of_ok (h1.stackStore_run (stack 1 (by omega)) _),
    bind_of_ok (h2.stackStore_run (stack 2 (by omega)) _), h3.stackStore_run (stack 3 (by omega)) _,
    stored_stored, stored_stored, stored_stored]
  rfl

/-- The loop over the pointers. -/
theorem pushPointers_run (hfuel : ∀ arg ∈ strs, arg.length < fuel) :
    ∀ (m ptr esp : ℕ) (k : Kernel), Ready k kpage args strs → m ≤ strs.length → esp + 3 ≤ physBase →
      physBase - pgSize + 4 * m ≤ esp + 4 → 4 * m ≤ esp →
      pushPointers fuel args m ptr esp k =
        .ok (esp - 4 * m) (k.stored kpage (pointerStores (strs.take m).reverse ptr esp)) := by
  intro m
  induction m with
  | zero =>
      intro ptr esp k _ _ _ _ _
      simp [pushPointers, pointerStores]
  | succ m ih =>
      intro ptr esp k ready hm hesp room hpos
      have hi : m < strs.length := hm
      have hword : ∀ p ∈ wordStores esp (ptr - (strs[m].length + 1)), OnStack p.1 := fun p hp => by
        have := mem_wordStores hp
        exact ⟨by omega, by omega⟩
      rw [pushPointers, bind_of_ok (ready.loadArg hi),
        bind_of_ok (ready.strlenArg hi (hfuel _ (List.getElem_mem hi))),
        bind_of_ok (ready.stackStoreWord_run _ (by omega) hesp),
        ih _ _ _ (ready.stored hword) (by omega) (by omega) (by omega) (by omega), stored_stored,
        reverse_take_succ hi, pointerStores, Nat.sub_sub, Nat.mul_succ, Nat.add_comm 4]

/-- **What goes to the stack**, when it fits into the page. -/
theorem pushArguments_run (ready : Ready k kpage args strs) (hfuel : ∀ arg ∈ strs, arg.length < fuel)
    (fits : layoutSize strs ≤ pgSize) :
    pushArguments fuel args strs.length k = .ok (startEsp strs) (k.stored kpage (stackStores strs)) := by
  have hbase : physBase = 3221225472 := rfl
  have hpage : pgSize = 4096 := rfl
  obtain ⟨esp, hE⟩ : ∃ esp, esp + layoutSize strs = physBase := ⟨physBase - layoutSize strs, by omega⟩
  have hstart : startEsp strs = esp := by unfold startEsp; omega
  rw [stackStores_eq hE, hstart]
  have hlen := length_descending strs
  unfold layoutSize at fits hE
  set B := stringBytes strs with hB
  set n := strs.length with hn
  have hall : strs.take n = strs := List.take_length
  -- the strings and the padding, in one piece
  have first : ∀ p ∈ [(physBase, (0 : UInt8))], OnStack p.1 := fun p hp => by
    rw [List.mem_singleton.mp hp]
    exact ⟨by omega, le_rfl⟩
  have ready1 := ready.stored first
  have hstrings := pushStrings_run hfuel n (physBase - 1) 0 _ ready1 le_rfl (by omega)
    (by rw [hall]; omega)
  rw [hall, ← hB, Nat.zero_add, stored_stored] at hstrings
  have ready2 : Ready (k.stored kpage ([(physBase, 0)] ++ downStores (physBase - 1)
      (stringStores strs.reverse))) kpage args strs := by
    rw [← stored_stored]
    exact ready1.stored (onStack_downStores (by omega)
      (by rw [length_stringStores, stringBytes_reverse]; omega))
  have hpadding := pushPadding_run (4 - B % 4) (physBase - 1 - B) _ ready2 (by omega) (by omega)
  have hdown : [(physBase, 0)] ++ downStores (physBase - 1) (stringStores strs.reverse) ++
      downStores (physBase - 1 - B) (List.replicate (4 - B % 4) 0) =
      downStores physBase (0 :: stringStores strs.reverse ++ List.replicate (4 - B % 4) 0) := by
    show _ = downStores physBase (0 :: (stringStores strs.reverse ++ List.replicate (4 - B % 4) 0))
    rw [downStores_cons, downStores_append, length_stringStores, stringBytes_reverse, List.append_assoc]
    rfl
  rw [stored_stored, hdown] at hpadding
  have hdownStack := onStack_downStores (le_refl physBase) (by rw [hlen]; omega)
  set down := downStores physBase (0 :: stringStores strs.reverse ++ List.replicate (4 - B % 4) 0)
  have ready3 : Ready (k.stored kpage down) kpage args strs := ready.stored hdownStack
  -- the null pointer, and what is stored as words
  have hnull : OnStack (esp + 12 + 4 * n) := ⟨by omega, by omega⟩
  have ready4 := ready3.stored (s := [(esp + 12 + 4 * n, 0)]) (by simpa using hnull)
  have hpointers := pushPointers_run hfuel n physBase (esp + 8 + 4 * n) _ ready4 le_rfl (by omega)
    (by omega) (by omega)
  rw [hall] at hpointers
  have hrevLen : strs.reverse.length = n := List.length_reverse
  have ready5 := ready4.stored (s := pointerStores strs.reverse physBase (esp + 8 + 4 * n))
    (onStack_pointerStores (by omega) (by omega) (by omega))
  have hargv := ready5.stackStoreWord_run (a := esp + 8) (esp + 12) (by omega) (by omega)
  have ready6 := ready5.stored (s := wordStores (esp + 8) (esp + 12)) fun p hp => by
    have := mem_wordStores hp
    exact ⟨by omega, by omega⟩
  have hargc := ready6.stackStore_run (a := esp + 4) ⟨by omega, by omega⟩ (UInt8.ofNat n)
  rw [pushArguments, bind_of_ok (ready.stackStore_run ⟨by omega, le_rfl⟩ 0), bind_of_ok hstrings]
  simp only []
  rw [bind_of_ok hpadding, if_neg (by omega),
    show physBase - 1 - B - (4 - B % 4) - 3 = esp + 12 + 4 * n by omega,
    bind_of_ok (ready3.stackStore_run hnull 0), show esp + 12 + 4 * n - 4 = esp + 8 + 4 * n by omega,
    bind_of_ok hpointers, show esp + 8 + 4 * n - 4 * n = esp + 8 by omega, bind_of_ok hargv,
    show esp + 8 - 4 = esp + 4 by omega, bind_of_ok hargc]
  simp only [stored_stored]
  rfl

end Loops

/-! ## The words -/

/-- What `load` gives to `setup_stack`: a line in a page of its own, shorter than a page, and a page
directory that does not map the first page. -/
structure Loading (k : Kernel) (cmdLine : ℕ) (line : List UInt8) : Prop where
  page : isRamPage k.initRamPages cmdLine = true
  taken : cmdLine ∈ k.used
  text : IsString k.mem cmdLine line
  short : line.length < pgSize
  ram : physBase + pgSize * k.initRamPages ≤ 2 ^ 32
  dir : k.pagedir ≠ none
  null : k.entryAt 0 = none

section Front

variable {k : Kernel} {cmdLine fuel : ℕ} {line : List UInt8}

/-- The words of a line that lies in memory have no zero bytes. -/
theorem nonzero_of_tokens {mem : Memory} {a : ℕ} (h : IsString mem a line) :
    ∀ w ∈ tokens line, (0 : UInt8) ∉ w := fun _ hw hm => h.nonzero ((sublist_of_mem_words hw).subset hm)

theorem length_token_le {w : List UInt8} (h : w ∈ tokens line) : w.length ≤ line.length :=
  (sublist_of_mem_words h).length_le

/-- A word is stored at the address 0. -/
theorem storeWord_null (h : k.entryAt 0 = none) (v : ℕ) : storeWord 0 v k = .error .kernelBug k := by
  have hlocate : k.locate 0 true = none := by
    rw [Kernel.entryAt] at h
    rw [Kernel.locate, if_pos (by decide), h]
  have hstore : storeByte 0 (Block.wordByte v 0) k = .error .kernelBug k := by
    rw [storeByte, fetch_bind, hlocate]
    rfl
  rw [storeWord, bind_of_error hstore]

/-- **The run of `setup_stack` up to the second page**: the array needs a page, if there are words,
and with more than 100 of them this is the end. -/
theorem setupStack_front (loading : Loading k cmdLine line) (hf : pgSize ≤ fuel) :
    (k.found = none ∧ tokens line ≠ [] ∧
      ∃ mem', setupStack fuel cmdLine k = .error .kernelBug { k.afterGet {} with mem := mem' }) ∨
    ((k.found ≠ none ∨ tokens line = []) ∧ ∃ mem',
      (∀ a, (∀ args, k.found = some args → ¬ InPage args a) → ¬ InPage cmdLine a →
        mem' a = k.mem a) ∧
      (100 < (tokens line).length →
        setupStack fuel cmdLine k = .ok true { k.afterGet {} with mem := mem' }) ∧
      ((tokens line).length ≤ 100 →
        setupStack fuel cmdLine k = buildStack fuel (k.found.getD 0) (tokens line).length
          { k.afterGet {} with mem := mem' } ∧
        Collected mem' (k.found.getD 0) cmdLine (cmdLine + line.length) 0 (tokens line))) := by
  have hpage : pgSize = 4096 := rfl
  have hbase : physBase = 3221225472 := rfl
  obtain ⟨hmod, hlow, hhigh⟩ := isRamPage_iff.mp loading.page
  have hshort := loading.short
  have hram := loading.ram
  set k1 := k.afterGet {} with hk1
  have hmem1 : k1.mem = k.mem := by
    rw [hk1, Kernel.afterGet]
    cases k.found <;> rfl
  have hline : IsString k1.mem cmdLine line := hmem1 ▸ loading.text
  have hfuel : line.length < fuel := by omega
  have hcmd : cmdLine ≠ 0 := by omega
  obtain ⟨token, save, mem2, hrun, stands, hsave, frame, -⟩ :=
    stands_next hline hcmd hfuel cmdLine 0 (if_neg hcmd)
  have hstart : setupStack fuel cmdLine k =
      (collectArgs fuel (k.found.getD 0) fuel token save 0 >>= fun r =>
        r.elim (pure true) (buildStack fuel (k.found.getD 0))) { k1 with mem := mem2 } := by
    rw [setupStack, bind_of_ok (pallocGetPage_run _ _), bind_of_ok (onMemory_ok hrun)]
    simp only [bind, EStateM.bind]
    cases collectArgs fuel (k.found.getD 0) fuel token save 0 { k1 with mem := mem2 } with
    | error e k2 => rfl
    | ok r k2 => cases r <;> rfl
  have hframe : ∀ a, ¬ InPage cmdLine a → mem2 a = k.mem a := fun a ha => by
    rw [frame a (by unfold InPage at ha; omega), hmem1]
  rw [hstart]
  cases hfound : k.found with
  | none =>
      generalize hwords : tokens line = ws at stands
      cases stands with
      | done =>
          refine .inr ⟨.inr rfl, mem2, fun a _ => hframe a, fun h => absurd h (by simp), fun _ => ?_⟩
          obtain ⟨n, rfl⟩ : ∃ n, fuel = n + 1 := ⟨fuel - 1, by omega⟩
          refine ⟨?_, ⟨fun i h => absurd h (Nat.not_lt_zero i)⟩⟩
          have hrun2 : collectArgs (n + 1) 0 (n + 1) 0 save 0 { k1 with mem := mem2 } =
              .ok (some 0) { k1 with mem := mem2 } := by
            rw [collectArgs, if_pos rfl]
            rfl
          rw [Option.getD_none, bind_of_ok hrun2]
          rfl
      | word null here following start next ends =>
          refine .inl ⟨rfl, by simp, mem2, ?_⟩
          obtain ⟨n, rfl⟩ : ∃ n, fuel = n + 1 := ⟨fuel - 1, by omega⟩
          have hentry : ({ k1 with mem := mem2 } : Kernel).entryAt 0 = none := by
            have hdir : k1.pagedir = k.pagedir := pagedir_afterGet k {}
            have hnull := loading.null
            rw [Kernel.entryAt, ← hdir] at hnull
            exact hnull
          have hrun2 : collectArgs (n + 1) 0 (n + 1) token save 0 { k1 with mem := mem2 } =
              .error .kernelBug { k1 with mem := mem2 } := by
            rw [collectArgs, if_neg null, if_neg (by omega)]
            exact bind_of_error (storeWord_null hentry token)
          rw [Option.getD_none, bind_of_error hrun2]
  | some args =>
      obtain ⟨hramArgs, hfree⟩ := Kernel.found_some hfound
      obtain ⟨hmodArgs, hlowArgs, -⟩ := isRamPage_iff.mp hramArgs
      have hne : args ≠ cmdLine := fun e => hfree (e ▸ loading.taken)
      rw [hpage] at hmod hmodArgs hshort hhigh hram
      have hargs : physBase ≤ args := le_trans (Nat.le_add_right _ _) hlowArgs
      have apart : cmdLine + line.length < args ∨ args + pgSize ≤ cmdLine := by omega
      have htop : cmdLine + line.length < 2 ^ 32 := by omega
      obtain ⟨mem3, hrun3, collected, frame3⟩ := collectArgs_run hargs apart htop
        (Nat.add_lt_add_left hfuel cmdLine) fuel 0 token save (tokens line) { k1 with mem := mem2 } stands
        (by omega) (lt_of_le_of_lt (length_words_le _ _) hfuel)
      rw [Nat.zero_add] at hrun3 collected
      refine .inr ⟨.inl (by simp), mem3, fun a ha ha' => ?_, fun hmany => ?_, fun hfew => ⟨?_, ?_⟩⟩
      · have hargs := ha args rfl
        unfold InPage at hargs ha'
        rw [frame3 a (by omega) (by omega)]
        exact hframe a ha'
      · rw [Option.getD_some, bind_of_ok hrun3, if_neg (by omega)]
        rfl
      · rw [Option.getD_some, bind_of_ok hrun3, if_pos hfew]
        rfl
      · exact collected hfew

end Front

end Pintos.Userprog
