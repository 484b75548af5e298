import Mathlib.Data.List.GetD
import Pintos.Lib.Command
import Pintos.Lib.Heapsort

/-!
# Sorting and searching arrays

`lib/stdlib.c` of `fs_PintOS`: `sort` is a heapsort with indexes from 1, and `binary_search` halves
a range of pointers.  Both see an array as bytes: an element is what lies at
`array + (idx - 1) * size`, and elements are exchanged byte by byte.

The memory is a byte for some addresses and nothing for the others; to read or write there is
`unmapped`.  The numbers are those of the machine, so that an index that is too large or a pointer
behind the end of memory would wrap around.

* **`heapify_run`** — the loop of `heapify` lets an element float down.
* **`sort_run`** — `sort` sorts.
* **`binarySearch_run`** — `binary_search` finds what is there.
* **`stdlib_sorts_and_finds`** — both, for an array in memory.
-/

namespace Pintos.Containers

open Lib

/-! ## The functions of `stdlib.c` -/

/-- Where a function stops without returning. -/
inductive ArrayStop
  | unmapped
  | assertion
  | outOfFuel
  deriving DecidableEq, Repr

/-- A function on the bytes in memory. -/
abbrev ArrayM := EStateM ArrayStop (ℕ → Option UInt8)

/-- The result of a comparison is like that of `strcmp`. -/
abbrev Compare := List UInt8 → List UInt8 → ℤ

def readByte (p : UInt32) : ArrayM UInt8 := fun m =>
  match m p.toNat with
  | some v => .ok v m
  | none => .error .unmapped m

def writeByte (p : UInt32) (v : UInt8) : ArrayM Unit := fun m =>
  match m p.toNat with
  | some _ => .ok () (Function.update m p.toNat (some v))
  | none => .error .unmapped m

/-- What a comparison reads through a pointer. -/
def readElement (p size : UInt32) : ArrayM (List UInt8) :=
  (List.range size.toNat).mapM fun i => readByte (p + UInt32.ofNat i)

/-- The body of the loop in `do_swap`. -/
def swapByte (a b : UInt32) (i : ℕ) : ArrayM Unit := do
  let t ← readByte (a + UInt32.ofNat i)
  writeByte (a + UInt32.ofNat i) (← readByte (b + UInt32.ofNat i))
  writeByte (b + UInt32.ofNat i) t

/-- `do_swap`. -/
def doSwap (array aIdx bIdx size : UInt32) : ArrayM Unit := do
  let a := array + (aIdx - 1) * size
  let b := array + (bIdx - 1) * size
  forM (List.range size.toNat) (swapByte a b)

/-- `do_compare`. -/
def doCompare (array aIdx bIdx size : UInt32) (compare : Compare) : ArrayM ℤ := do
  let a ← readElement (array + (aIdx - 1) * size) size
  let b ← readElement (array + (bIdx - 1) * size) size
  pure (compare a b)

/-- `if (child <= cnt && do_compare (array, child, max, …) > 0) max = child;`, of `heapify`. -/
def largerOf (array child max cnt size : UInt32) (compare : Compare) : ArrayM UInt32 := do
  if child ≤ cnt then
    let cmp ← doCompare array child max size compare
    if 0 < cmp then pure child else pure max
  else
    pure max

/-- `heapify`. -/
def heapify : ℕ → UInt32 → UInt32 → UInt32 → UInt32 → Compare → ArrayM Unit
  | 0, _, _, _, _, _ => stop .outOfFuel
  | fuel + 1, array, i, cnt, size, compare => do
      let left := 2 * i
      let right := 2 * i + 1
      let max ← largerOf array left i cnt size compare
      let max ← largerOf array right max cnt size compare
      if max = i then
        pure ()
      else
        doSwap array i max size
        heapify fuel array max cnt size compare

/-- `for (i = …; i > 0; i--) heapify (array, i, cnt, …);` -/
def buildHeap (fuel : ℕ) (array cnt size : UInt32) (compare : Compare) : ℕ → ArrayM Unit
  | 0 => pure ()
  | i + 1 => do
      heapify fuel array (UInt32.ofNat (i + 1)) cnt size compare
      buildHeap fuel array cnt size compare i

/-- `for (i = …; i > 1; i--) { do_swap (array, 1, i, …); heapify (array, 1, i - 1, …); }` -/
def sortHeap (fuel : ℕ) (array size : UInt32) (compare : Compare) : ℕ → ArrayM Unit
  | 0 | 1 => pure ()
  | i + 2 => do
      doSwap array 1 (UInt32.ofNat (i + 2)) size
      heapify fuel array 1 (UInt32.ofNat (i + 2) - 1) size compare
      sortHeap fuel array size compare (i + 1)

/-- `ASSERT`. -/
def arrayAssert (b : Bool) : ArrayM Unit := if b then pure () else stop .assertion

/-- `sort`.  That `compare` is not a null pointer is part of its type. -/
def sort (fuel : ℕ) (array cnt size : UInt32) (compare : Compare) : ArrayM Unit := do
  arrayAssert (array ≠ 0 || cnt = 0)
  arrayAssert (0 < size)
  buildHeap fuel array cnt size compare (cnt / 2).toNat
  sortHeap fuel array size compare cnt.toNat

/-- The loop of `binary_search`. -/
def searchLoop (key : List UInt8) (size : UInt32) (compare : Compare) :
    ℕ → UInt32 → UInt32 → ArrayM UInt32
  | 0, _, _ => stop .outOfFuel
  | fuel + 1, first, last => do
      if first < last then
        let range := (last - first) / size
        let middle := first + range / 2 * size
        let cmp := compare key (← readElement middle size)
        if cmp < 0 then
          searchLoop key size compare fuel first middle
        else if 0 < cmp then
          searchLoop key size compare fuel (middle + size) last
        else
          pure middle
      else
        pure 0

/-- `binary_search`. -/
def binarySearch (fuel : ℕ) (key : List UInt8) (array cnt size : UInt32) (compare : Compare) :
    ArrayM UInt32 :=
  searchLoop key size compare fuel array (array + size * cnt)

/-! ## Arrays -/

/-- An array of the program.  It does not wrap around the end of memory, and like every object of a
C program it is so small that the difference of two pointers into it is a number. -/
structure ArrayObject where
  base : UInt32
  cnt : UInt32
  size : UInt32
  size_pos : 0 < size.toNat
  inMemory : base.toNat + cnt.toNat * size.toNat < 2 ^ 32
  object : cnt.toNat * size.toNat < 2 ^ 31
  nonnull : base = 0 → cnt = 0

namespace ArrayObject

/-- The address of the element with the number `k`, from 0. -/
def address (A : ArrayObject) (k : ℕ) : ℕ := A.base.toNat + k * A.size.toNat

/-- The address `a` is one of the array's. -/
def Inside (A : ArrayObject) (a : ℕ) : Prop :=
  A.base.toNat ≤ a ∧ a < A.base.toNat + A.cnt.toNat * A.size.toNat

instance (A : ArrayObject) (a : ℕ) : Decidable (A.Inside a) := inferInstanceAs (Decidable (_ ∧ _))

/-- The array is in memory. -/
def Mapped (A : ArrayObject) (m : ℕ → Option UInt8) : Prop := ∀ a, A.Inside a → (m a).isSome

/-- The element with the number `k`, from 1. -/
def element (A : ArrayObject) (m : ℕ → Option UInt8) : ℕ → List UInt8
  | 0 => []
  | k + 1 => (List.range A.size.toNat).map fun i => (m (A.address k + i)).getD 0

/-- The elements of the array. -/
def contents (A : ArrayObject) (m : ℕ → Option UInt8) : List (List UInt8) :=
  (List.range' 1 A.cnt.toNat).map (A.element m)

/-- A memory with nothing in it but the array. -/
def only (A : ArrayObject) (m : ℕ → Option UInt8) : ℕ → Option UInt8 := fun a =>
  if A.Inside a then m a else none

end ArrayObject

variable {A : ArrayObject} {m m' : ℕ → Option UInt8} {compare : Compare} {k j n i lo fuel : ℕ}

section Addresses

theorem ArrayObject.inside_of_lt (hk : k < A.cnt.toNat) (hi : i < A.size.toNat) :
    A.Inside (A.address k + i) := by
  have : (k + 1) * A.size.toNat ≤ A.cnt.toNat * A.size.toNat := Nat.mul_le_mul_right _ hk
  rw [Nat.succ_mul] at this
  simp only [ArrayObject.Inside, ArrayObject.address]
  omega

theorem ArrayObject.cnt_lt : A.cnt.toNat < 2 ^ 31 :=
  (Nat.le_mul_of_pos_right _ A.size_pos).trans_lt A.object

/-- Two elements have no byte in common. -/
theorem ArrayObject.address_disjoint (hkj : k ≠ j) {a b : ℕ} (ha : a < A.size.toNat)
    (hb : b < A.size.toNat) : A.address k + a ≠ A.address j + b := by
  have key : ∀ {k j a b : ℕ}, k < j → a < A.size.toNat → A.address k + a < A.address j + b := by
    intro k j a b h ha
    have : (k + 1) * A.size.toNat ≤ j * A.size.toNat := Nat.mul_le_mul_right _ h
    rw [Nat.succ_mul] at this
    simp only [ArrayObject.address]
    omega
  rcases Nat.lt_or_gt_of_ne hkj with h | h
  · exact (key h ha).ne
  · exact (key h hb).ne'

/-- `array + (idx - 1) * size`. -/
theorem ArrayObject.toNat_slot (hk : k < A.cnt.toNat) :
    (A.base + (UInt32.ofNat (k + 1) - 1) * A.size).toNat = A.address k := by
  have hsub : UInt32.ofNat (k + 1) - 1 = UInt32.ofNat k := by
    rw [UInt32.ofNat_add]
    exact UInt32.add_sub_cancel _ _
  have hin := A.inside_of_lt hk A.size_pos
  have hlt := A.inMemory
  have hcnt := A.cnt_lt
  simp only [ArrayObject.Inside, ArrayObject.address] at hin
  rw [hsub, UInt32.toNat_add, UInt32.toNat_mul, UInt32.toNat_ofNat_of_lt' (by simp [UInt32.size]; omega),
    ArrayObject.address, Nat.mod_eq_of_lt (a := k * _) (by omega), Nat.mod_eq_of_lt (by omega)]

theorem toNat_add_ofNat {p : UInt32} (h : p.toNat + i < 2 ^ 32) :
    (p + UInt32.ofNat i).toNat = p.toNat + i := by
  rw [UInt32.toNat_add, UInt32.toNat_ofNat_of_lt' (by simp [UInt32.size]; omega), Nat.mod_eq_of_lt h]

end Addresses

/-! ## Bytes -/

theorem readByte_run {p : UInt32} {v : UInt8} (h : m p.toNat = some v) : readByte p m = .ok v m := by
  rw [readByte, h]

theorem writeByte_run {p : UInt32} {v : UInt8} (h : (m p.toNat).isSome) :
    writeByte p v m = .ok () (Function.update m p.toNat (some v)) := by
  obtain ⟨w, hw⟩ := Option.isSome_iff_exists.mp h
  rw [writeByte, hw]

/-- Reading does not change the memory. -/
theorem mapM_read {β γ : Type} {f : β → ArrayM γ} {g : β → γ} {l : List β}
    (h : ∀ x ∈ l, f x m = .ok (g x) m) : l.mapM f m = .ok (l.map g) m := by
  induction l with
  | nil => rfl
  | cons x l ih =>
      rw [List.mapM_cons, bind_of_ok (h x List.mem_cons_self),
        bind_of_ok (ih fun y hy => h y (List.mem_cons_of_mem _ hy))]
      rfl

theorem readElement_run {p : UInt32} (mapped : A.Mapped m) (hk : k < A.cnt.toNat)
    (hp : p.toNat = A.address k) : readElement p A.size m = .ok (A.element m (k + 1)) m := by
  refine mapM_read fun i hi => readByte_run ?_
  have hin := A.inside_of_lt hk (List.mem_range.mp hi)
  have hlt := A.inMemory
  rw [toNat_add_ofNat (by rw [hp]; exact hin.2.trans hlt), hp]
  obtain ⟨v, hv⟩ := Option.isSome_iff_exists.mp (mapped _ hin)
  rw [hv, Option.getD_some]

/-- The memory after the first `n` bytes at `a` and `b` have been exchanged. -/
def exchanged (m : ℕ → Option UInt8) (a b n : ℕ) : ℕ → Option UInt8 := fun x =>
  if a ≤ x ∧ x < a + n then m (b + (x - a))
  else if b ≤ x ∧ x < b + n then m (a + (x - b))
  else m x

section Exchange

variable {a b x : ℕ}

theorem exchanged_first (hi : i < n) : exchanged m a b n (a + i) = m (b + i) := by
  rw [exchanged, if_pos (by omega), Nat.add_sub_cancel_left]

theorem exchanged_second (hi : i < n) (h : ∀ j < n, b + i ≠ a + j) :
    exchanged m a b n (b + i) = m (a + i) := by
  have hout : ¬ (a ≤ b + i ∧ b + i < a + n) := fun hin => h (b + i - a) (by omega) (by omega)
  rw [exchanged, if_neg hout, if_pos (by omega), Nat.add_sub_cancel_left]

theorem exchanged_other (ha : ∀ j < n, x ≠ a + j) (hb : ∀ j < n, x ≠ b + j) :
    exchanged m a b n x = m x := by
  have hout : ¬ (a ≤ x ∧ x < a + n) := fun hin => ha (x - a) (by omega) (by omega)
  have hout' : ¬ (b ≤ x ∧ x < b + n) := fun hin => hb (x - b) (by omega) (by omega)
  rw [exchanged, if_neg hout, if_neg hout']

/-- One more byte. -/
theorem exchanged_succ (h : ∀ i < n + 1, ∀ j < n + 1, a + i ≠ b + j) :
    exchanged m a b (n + 1) =
      Function.update (Function.update (exchanged m a b n) (a + n) (m (b + n))) (b + n) (m (a + n)) := by
  funext x
  by_cases hxb : x = b + n
  · subst hxb
    rw [Function.update_self]
    exact exchanged_second (Nat.lt_succ_self n) fun j hj e => h j hj n (Nat.lt_succ_self n) e.symm
  rw [Function.update_of_ne hxb]
  by_cases hxa : x = a + n
  · subst hxa
    rw [Function.update_self]
    exact exchanged_first (Nat.lt_succ_self n)
  rw [Function.update_of_ne hxa, exchanged, exchanged]
  have ha : a ≤ x ∧ x < a + (n + 1) ↔ a ≤ x ∧ x < a + n := by omega
  have hb : b ≤ x ∧ x < b + (n + 1) ↔ b ≤ x ∧ x < b + n := by omega
  simp only [ha, hb]

end Exchange

section Swap

variable {a b : UInt32}

theorem swapByte_run {v w : UInt8} (ha : a.toNat + i < 2 ^ 32) (hb : b.toNat + i < 2 ^ 32)
    (hv : m (a.toNat + i) = some v) (hw : m (b.toNat + i) = some w) :
    swapByte a b i m = .ok ()
      (Function.update (Function.update m (a.toNat + i) (some w)) (b.toNat + i) (some v)) := by
  have hreadA : readByte (a + UInt32.ofNat i) m = .ok v m :=
    readByte_run (by rw [toNat_add_ofNat ha, hv])
  have hreadB : readByte (b + UInt32.ofNat i) m = .ok w m :=
    readByte_run (by rw [toNat_add_ofNat hb, hw])
  have hwriteA : writeByte (a + UInt32.ofNat i) w m
      = .ok () (Function.update m (a.toNat + i) (some w)) := by
    rw [writeByte_run (by rw [toNat_add_ofNat ha, hv]; rfl), toNat_add_ofNat ha]
  have hmapped : (Function.update m (a.toNat + i) (some w) (b.toNat + i)).isSome := by
    by_cases e : b.toNat + i = a.toNat + i
    · rw [e, Function.update_self]
      rfl
    · rw [Function.update_of_ne e, hw]
      rfl
  rw [swapByte, bind_of_ok hreadA, bind_of_ok hreadB, bind_of_ok hwriteA,
    writeByte_run (by rwa [toNat_add_ofNat hb]), toNat_add_ofNat hb]

/-- The loop of `do_swap`. -/
theorem swapLoop_run (ha : a.toNat + n ≤ 2 ^ 32) (hb : b.toNat + n ≤ 2 ^ 32)
    (hma : ∀ i < n, (m (a.toNat + i)).isSome) (hmb : ∀ i < n, (m (b.toNat + i)).isSome)
    (hdis : ∀ i < n, ∀ j < n, a.toNat + i ≠ b.toNat + j) :
    forM (List.range n) (swapByte a b) m = .ok () (exchanged m a.toNat b.toNat n) := by
  induction n with
  | zero =>
      have : exchanged m a.toNat b.toNat 0 = m := funext fun x => by
        rw [exchanged, if_neg (by omega), if_neg (by omega)]
      rw [this]
      rfl
  | succ n ih =>
      have hrun := ih (by omega) (by omega) (fun i hi => hma i (by omega))
        (fun i hi => hmb i (by omega)) fun i hi j hj => hdis i (by omega) j (by omega)
      obtain ⟨v, hv⟩ := Option.isSome_iff_exists.mp (hma n (Nat.lt_succ_self n))
      obtain ⟨w, hw⟩ := Option.isSome_iff_exists.mp (hmb n (Nat.lt_succ_self n))
      -- the loop has not come to these bytes
      have hsameA : exchanged m a.toNat b.toNat n (a.toNat + n) = some v := by
        rw [exchanged_other (fun j hj => by omega) fun j hj => hdis n (by omega) j (by omega), hv]
      have hsameB : exchanged m a.toNat b.toNat n (b.toNat + n) = some w := by
        rw [exchanged_other (fun j hj => (hdis j (by omega) n (by omega)).symm) (fun j hj => by omega), hw]
      rw [List.range_succ, List.forM_append, bind_of_ok hrun, List.forM_cons,
        bind_of_ok (swapByte_run (by omega) (by omega) hsameA hsameB), exchanged_succ hdis, hv, hw]
      rfl

end Swap

/-! ## Exchanging elements -/

/-- The elements from `lo` to `n` may have changed places.  Nothing else in memory has changed. -/
structure Moved (A : ArrayObject) (lo n : ℕ) (m m' : ℕ → Option UInt8) : Prop where
  mapped : A.Mapped m'
  rearranged : Rearranged lo n (A.element m) (A.element m')
  outside : ∀ a, ¬ A.Inside a → m' a = m a

namespace Moved

variable {m'' : ℕ → Option UInt8} {lo' n' : ℕ}

theorem refl (mapped : A.Mapped m) : Moved A lo n m m := ⟨mapped, .refl _, fun _ _ => rfl⟩

theorem trans (w : Moved A lo n m m') (w' : Moved A lo n m' m'') : Moved A lo n m m'' :=
  ⟨w'.mapped, w.rearranged.trans w'.rearranged, fun a ha => (w'.outside a ha).trans (w.outside a ha)⟩

theorem mono (w : Moved A lo n m m') (hlo : lo' ≤ lo) (hn : n ≤ n') : Moved A lo' n' m m' :=
  ⟨w.mapped, w.rearranged.mono hlo hn, w.outside⟩

end Moved

theorem element_exchanged (hkj : k ≠ j) :
    A.element (exchanged m (A.address k) (A.address j) A.size.toNat)
      = A.element m ∘ Equiv.swap (k + 1) (j + 1) := by
  have hne : ∀ {x y : ℕ}, x ≠ y → ∀ i < A.size.toNat, ∀ t < A.size.toNat,
      A.address x + i ≠ A.address y + t := fun hxy i hi t ht => A.address_disjoint hxy hi ht
  funext x
  rw [Function.comp_apply]
  cases x with
  | zero =>
      rw [Equiv.swap_apply_of_ne_of_ne (by omega) (by omega)]
      rfl
  | succ x =>
      by_cases hxk : x = k
      · subst hxk
        rw [Equiv.swap_apply_left]
        refine List.map_congr_left fun i hi => ?_
        rw [exchanged_first (List.mem_range.mp hi)]
      by_cases hxj : x = j
      · subst hxj
        rw [Equiv.swap_apply_right]
        refine List.map_congr_left fun i hi => ?_
        rw [exchanged_second (List.mem_range.mp hi) (hne hxk i (List.mem_range.mp hi))]
      rw [Equiv.swap_apply_of_ne_of_ne (by omega) (by omega)]
      refine List.map_congr_left fun i hi => ?_
      rw [exchanged_other (hne hxk i (List.mem_range.mp hi)) (hne hxj i (List.mem_range.mp hi))]

/-- `do_swap` exchanges two elements. -/
theorem doSwap_run (mapped : A.Mapped m) (hk : k < A.cnt.toNat) (hj : j < A.cnt.toNat) (hkj : k ≠ j) :
    ∃ m', doSwap A.base (UInt32.ofNat (k + 1)) (UInt32.ofNat (j + 1)) A.size m = .ok () m' ∧
      A.element m' = A.element m ∘ Equiv.swap (k + 1) (j + 1) ∧ A.Mapped m' ∧
      ∀ a, ¬ A.Inside a → m' a = m a := by
  have hpk := A.toNat_slot hk
  have hpj := A.toNat_slot hj
  have hend : ∀ {x}, x < A.cnt.toNat → A.address x + A.size.toNat ≤ 2 ^ 32 := fun {x} hx => by
    have := (A.inside_of_lt hx (i := A.size.toNat - 1) (by have := A.size_pos; omega)).2
    have := A.inMemory
    omega
  have hrun := swapLoop_run (m := m) (n := A.size.toNat) (hpk ▸ hend hk) (hpj ▸ hend hj)
    (fun i hi => by rw [hpk]; exact mapped _ (A.inside_of_lt hk hi))
    (fun i hi => by rw [hpj]; exact mapped _ (A.inside_of_lt hj hi))
    (fun i hi t ht => by rw [hpk, hpj]; exact A.address_disjoint hkj hi ht)
  rw [hpk, hpj] at hrun
  refine ⟨_, hrun, element_exchanged hkj, fun a ha => ?_, fun a ha => ?_⟩
  · rw [exchanged]
    split_ifs with h h'
    · exact mapped _ (A.inside_of_lt hj (by omega))
    · exact mapped _ (A.inside_of_lt hk (by omega))
    · exact mapped a ha
  · refine exchanged_other ?_ ?_
    · rintro i hi rfl
      exact ha (A.inside_of_lt hk hi)
    · rintro i hi rfl
      exact ha (A.inside_of_lt hj hi)

/-! ## Comparisons -/

/-- `compare` is a total preorder on `S`. -/
structure TotalPreorderOn (S : Set (List UInt8)) (compare : Compare) : Prop where
  swap : ∀ x ∈ S, ∀ y ∈ S, 0 < compare x y ↔ compare y x < 0
  trans : ∀ x ∈ S, ∀ y ∈ S, ∀ z ∈ S, compare x y ≤ 0 → compare y z ≤ 0 → compare x z ≤ 0

/-- The order of `compare`, with everything outside `S` above it. -/
def Ranked (S : Set (List UInt8)) (compare : Compare) (x y : List UInt8) : Prop :=
  y ∉ S ∨ x ∈ S ∧ compare x y ≤ 0

section Order

variable {S : Set (List UInt8)} {x y : List UInt8}

theorem ranked_iff (hx : x ∈ S) (hy : y ∈ S) : Ranked S compare x y ↔ compare x y ≤ 0 := by
  simp [Ranked, hx, hy]

namespace TotalPreorderOn

variable (order : TotalPreorderOn S compare)
include order

theorem total : Std.Total (Ranked S compare) := by
  refine ⟨fun x y => ?_⟩
  by_cases hx : x ∈ S
  · by_cases hy : y ∈ S
    · rw [ranked_iff hx hy, ranked_iff hy hx]
      by_cases h : compare x y ≤ 0
      · exact .inl h
      · have := (order.swap x hx y hy).mp (by omega)
        exact .inr (by omega)
    · exact .inl (.inl hy)
  · exact .inr (.inl hx)

theorem isTrans : IsTrans (List UInt8) (Ranked S compare) := by
  refine ⟨fun x y z hxy hyz => ?_⟩
  rcases hyz with hz | ⟨hy, hyz⟩
  · exact .inl hz
  rcases hxy with hy' | ⟨hx, hxy⟩
  · exact absurd hy hy'
  by_cases hz : z ∈ S
  · exact .inr ⟨hx, order.trans x hx y hy z hz hxy hyz⟩
  · exact .inl hz

theorem self (x : List UInt8) : Ranked S compare x x :=
  (order.total.total x x).elim id id

/-- The comparison found `y` greater than `x`. -/
theorem ranked_of_pos (hx : x ∈ S) (hy : y ∈ S) (h : 0 < compare y x) : Ranked S compare x y :=
  (ranked_iff hx hy).mpr ((order.swap y hy x hx).mp h).le

end TotalPreorderOn

/-! ## Sorting -/

/-- All elements of the array are in `S`. -/
def ElementsIn (A : ArrayObject) (m : ℕ → Option UInt8) (S : Set (List UInt8)) : Prop :=
  ∀ k, 1 ≤ k → k ≤ A.cnt.toNat → A.element m k ∈ S

theorem elementsIn_iff : ElementsIn A m S ↔ ∀ x ∈ A.contents m, x ∈ S := by
  simp only [ElementsIn, ArrayObject.contents, List.mem_map, List.mem_range'_1]
  constructor
  · rintro h x ⟨k, hk, rfl⟩
    exact h k hk.1 (by omega)
  · exact fun h k hk hk' => h _ ⟨k, ⟨hk, by omega⟩, rfl⟩

theorem ElementsIn.moved (w : ElementsIn A m S) (moved : Moved A lo n m m') (hlo : 1 ≤ lo)
    (hn : n ≤ A.cnt.toNat) : ElementsIn A m' S := by
  intro k hk hkc
  obtain ⟨j, hj, e⟩ := (moved.rearranged.mono hlo hn).inside ⟨hk, hkc⟩
  rw [e]
  exact w j hj.1 hj.2

theorem doCompare_run (mapped : A.Mapped m) (hk : k < A.cnt.toNat) (hj : j < A.cnt.toNat) :
    doCompare A.base (UInt32.ofNat (k + 1)) (UInt32.ofNat (j + 1)) A.size compare m
      = .ok (compare (A.element m (k + 1)) (A.element m (j + 1))) m := by
  rw [doCompare, bind_of_ok (readElement_run mapped hk (A.toNat_slot hk)),
    bind_of_ok (readElement_run mapped hj (A.toNat_slot hj))]
  rfl

theorem ofNat_le_iff {a b : ℕ} (ha : a < 2 ^ 32) (hb : b < 2 ^ 32) :
    UInt32.ofNat a ≤ UInt32.ofNat b ↔ a ≤ b := by
  rw [UInt32.le_iff_toNat_le, UInt32.toNat_ofNat_of_lt' ha, UInt32.toNat_ofNat_of_lt' hb]

theorem ofNat_eq_iff {a b : ℕ} (ha : a < 2 ^ 32) (hb : b < 2 ^ 32) :
    UInt32.ofNat a = UInt32.ofNat b ↔ a = b := by
  rw [← UInt32.toNat_inj, UInt32.toNat_ofNat_of_lt' ha, UInt32.toNat_ofNat_of_lt' hb]

/-- The greater of the element `t` and its child `c`, if there is one. -/
theorem largerOf_run (order : TotalPreorderOn S compare) (mapped : A.Mapped m) (inS : ElementsIn A m S)
    (hn : n ≤ A.cnt.toNat) {c t : ℕ} (hc : 1 ≤ c) (hc' : c < 2 ^ 32) (ht : 1 ≤ t) (htn : t ≤ n) :
    ∃ g, largerOf A.base (UInt32.ofNat c) (UInt32.ofNat t) (UInt32.ofNat n) A.size compare m
        = .ok (UInt32.ofNat g) m ∧ (g = t ∨ g = c ∧ c ≤ n) ∧
      Ranked S compare (A.element m t) (A.element m g) ∧
      (c ≤ n → Ranked S compare (A.element m c) (A.element m g)) := by
  have hcnt := A.cnt_lt
  have hle := ofNat_le_iff hc' (b := n) (by omega)
  rw [largerOf]
  by_cases hcn : c ≤ n
  · rw [if_pos (hle.mpr hcn)]
    obtain ⟨c, rfl⟩ : ∃ c', c = c' + 1 := ⟨c - 1, by omega⟩
    obtain ⟨t, rfl⟩ : ∃ t', t = t' + 1 := ⟨t - 1, by omega⟩
    have hxc := inS (c + 1) hc (by omega)
    have hxt := inS (t + 1) ht (by omega)
    rw [bind_of_ok (doCompare_run mapped (by omega) (by omega))]
    split_ifs with h
    · exact ⟨c + 1, rfl, .inr ⟨rfl, hcn⟩, order.ranked_of_pos hxt hxc h, fun _ => order.self _⟩
    · exact ⟨t + 1, rfl, .inl rfl, order.self _, fun _ => (ranked_iff hxc hxt).mpr (by omega)⟩
  · rw [if_neg fun h => hcn (hle.mp h)]
    exact ⟨t, rfl, .inl rfl, order.self _, fun h => absurd h hcn⟩

/-- **`heapify` lets an element float down** until the elements from `lo` on are a heap. -/
theorem heapify_run (order : TotalPreorderOn S compare) (mapped : A.Mapped m) (inS : ElementsIn A m S)
    (hlo : 1 ≤ lo) (hi : lo ≤ i) (hin : i ≤ n) (hn : n ≤ A.cnt.toNat)
    (but : HeapBut (Ranked S compare) (A.element m) lo n i) (hf : n < i + fuel) :
    ∃ m', heapify fuel A.base (UInt32.ofNat i) (UInt32.ofNat n) A.size compare m = .ok () m' ∧
      Moved A lo n m m' ∧ HeapFrom (Ranked S compare) (A.element m') lo n := by
  have htrans := order.isTrans
  have hcnt := A.cnt_lt
  induction fuel generalizing m i with
  | zero => omega
  | succ fuel ih =>
      have hleft : 2 * UInt32.ofNat i = UInt32.ofNat (2 * i) := (UInt32.ofNat_mul 2 i).symm
      have hright : 2 * UInt32.ofNat i + 1 = UInt32.ofNat (2 * i + 1) := by
        rw [hleft, UInt32.ofNat_add]
        rfl
      obtain ⟨t, hrun1, ht, hit, hlt⟩ := largerOf_run order mapped inS hn (c := 2 * i) (t := i)
        (by omega) (by omega) (by omega) hin
      obtain ⟨c, hrun2, hc, htc, hrc⟩ := largerOf_run order mapped inS hn (c := 2 * i + 1) (t := t)
        (by omega) (by omega) (by omega) (by omega)
      have hic : Ranked S compare (A.element m i) (A.element m c) := htrans.trans _ _ _ hit htc
      have hmax : ∀ k ≤ n, k / 2 = i → Ranked S compare (A.element m k) (A.element m c) := by
        intro k hk hki
        rcases (by omega : k = 2 * i ∨ k = 2 * i + 1) with rfl | rfl
        · exact htrans.trans _ _ _ (hlt hk) htc
        · exact hrc hk
      have heq := ofNat_eq_iff (a := c) (b := i) (by omega) (by omega)
      rw [← hleft] at hrun1
      rw [← hright] at hrun2
      rw [heapify, bind_of_ok hrun1, bind_of_ok hrun2]
      by_cases hci : c = i
      · subst hci
        rw [if_pos rfl]
        exact ⟨m, rfl, .refl mapped, but.heapFrom hmax⟩
      · rw [if_neg fun e => hci (heq.mp e)]
        have hcn : c ≤ n ∧ c / 2 = i := by omega
        obtain ⟨m1, hswap, helem, mapped1, hout⟩ := doSwap_run mapped (k := i - 1) (j := c - 1)
          (by omega) (by omega) (by omega)
        rw [Nat.sub_add_cancel (by omega), Nat.sub_add_cancel (by omega)] at hswap helem
        have hmoved : Moved A lo n m m1 :=
          ⟨mapped1, helem ▸ Rearranged.swap ⟨hi, hin⟩ ⟨by omega, hcn.1⟩, hout⟩
        have hbut : HeapBut (Ranked S compare) (A.element m1) lo n c :=
          helem ▸ but.exchange (by omega) hi hcn.1 hcn.2 hic hmax
        obtain ⟨m2, hrun, hmoved2, hheap⟩ := ih mapped1 (inS.moved hmoved hlo hn) (by omega) hcn.1
          hbut (by omega)
        exact ⟨m2, (bind_of_ok hswap).trans hrun, hmoved.trans hmoved2, hheap⟩

/-- The first loop of `sort`. -/
theorem buildHeap_run (order : TotalPreorderOn S compare) (mapped : A.Mapped m) (inS : ElementsIn A m S)
    (hi : i ≤ A.cnt.toNat / 2) (heap : HeapFrom (Ranked S compare) (A.element m) (i + 1) A.cnt.toNat)
    (hf : A.cnt.toNat < fuel) :
    ∃ m', buildHeap fuel A.base A.cnt A.size compare i m = .ok () m' ∧ Moved A 1 A.cnt.toNat m m' ∧
      HeapFrom (Ranked S compare) (A.element m') 1 A.cnt.toNat := by
  induction i generalizing m with
  | zero => exact ⟨m, rfl, .refl mapped, heap⟩
  | succ i ih =>
      have hfuel : A.cnt.toNat < i + 1 + fuel := by omega
      obtain ⟨m1, hrun1, moved1, heap1⟩ := heapify_run order mapped inS (by omega) le_rfl (by omega)
        le_rfl (heap.heapBut (by omega)) hfuel
      rw [UInt32.ofNat_toNat] at hrun1
      have moved : Moved A 1 A.cnt.toNat m m1 := moved1.mono (by omega) le_rfl
      obtain ⟨m2, hrun2, moved2, heap2⟩ := ih moved.mapped (inS.moved moved le_rfl le_rfl) (by omega) heap1
      exact ⟨m2, (bind_of_ok hrun1).trans hrun2, moved.trans moved2, heap2⟩

/-- The second loop of `sort`: the elements behind `i` are in their places. -/
theorem sortHeap_run (order : TotalPreorderOn S compare) (mapped : A.Mapped m) (inS : ElementsIn A m S)
    (hi : i ≤ A.cnt.toNat) (heap : HeapFrom (Ranked S compare) (A.element m) 1 i)
    (tail : SortedTail (Ranked S compare) (A.element m) i A.cnt.toNat) (hf : A.cnt.toNat < fuel) :
    ∃ m', sortHeap fuel A.base A.size compare i m = .ok () m' ∧ Moved A 1 A.cnt.toNat m m' ∧
      ((List.range' 1 A.cnt.toNat).map (A.element m')).Pairwise (Ranked S compare) := by
  have htotal := order.total
  have htrans := order.isTrans
  induction i using Nat.twoStepInduction generalizing m with
  | zero => exact ⟨m, rfl, .refl mapped, tail.pairwise (by omega)⟩
  | one => exact ⟨m, rfl, .refl mapped, tail.pairwise le_rfl⟩
  | more i _ ih =>
      obtain ⟨m1, hswap, helem, mapped1, hout⟩ := doSwap_run mapped (k := 0) (j := i + 1) (by omega)
        (by omega) (by omega)
      have moved1 : Moved A 1 (i + 2) m m1 :=
        ⟨mapped1, helem ▸ Rearranged.swap ⟨le_rfl, by omega⟩ ⟨by omega, le_rfl⟩, hout⟩
      have hbut : HeapBut (Ranked S compare) (A.element m1) 1 (i + 1) 1 :=
        helem ▸ heap.swap_last (by omega)
      have hfuel : i + 1 < 1 + fuel := by omega
      obtain ⟨m2, hheapify, moved2, heap2⟩ := heapify_run order mapped1
        (inS.moved moved1 le_rfl hi) le_rfl le_rfl (by omega) (by omega) hbut hfuel
      have moved : Moved A 1 (i + 2) m m2 := moved1.trans (moved2.mono le_rfl (by omega))
      have hlast : A.element m2 (i + 2) = A.element m 1 := by
        rw [moved2.rearranged.outside (by omega), helem, Function.comp_apply, Equiv.swap_apply_right]
      have moved' : Moved A 1 A.cnt.toNat m m2 := moved.mono le_rfl hi
      obtain ⟨m3, hrun, moved3, sorted⟩ := ih moved2.mapped (inS.moved moved' le_rfl le_rfl) (by omega)
        heap2 (tail.next heap moved.rearranged hlast)
      refine ⟨m3, ?_, moved'.trans moved3, sorted⟩
      have hsub : UInt32.ofNat (i + 2) - 1 = UInt32.ofNat (i + 1) := by
        rw [UInt32.ofNat_add (i + 1) 1]
        exact UInt32.add_sub_cancel _ _
      rw [← hsub] at hheapify
      exact (bind_of_ok hswap).trans ((bind_of_ok hheapify).trans hrun)

theorem arrayAssert_bind {β : Type} {b : Bool} {f : Unit → ArrayM β} (h : b = true) :
    (arrayAssert b >>= f) m = f () m := by
  subst h
  rfl

/-- **`sort` sorts** the elements it finds, and changes nothing else. -/
theorem sort_run (order : TotalPreorderOn S compare) (mapped : A.Mapped m)
    (inS : ∀ x ∈ A.contents m, x ∈ S) (hf : A.cnt.toNat < fuel) :
    ∃ m', sort fuel A.base A.cnt A.size compare m = .ok () m' ∧ A.Mapped m' ∧
      (A.contents m').Perm (A.contents m) ∧
      (A.contents m').Pairwise (fun x y => compare x y ≤ 0) ∧ ∀ a, ¬ A.Inside a → m' a = m a := by
  have inS := elementsIn_iff.mpr inS
  have hnull : A.base ≠ 0 ∨ A.cnt = 0 := or_iff_not_imp_left.mpr fun h => A.nonnull (not_not.mp h)
  have hsize : 0 < A.size := UInt32.lt_iff_toNat_lt.mpr A.size_pos
  have hhalf : (A.cnt / 2).toNat = A.cnt.toNat / 2 := UInt32.toNat_div A.cnt 2
  obtain ⟨m1, hbuild, moved1, heap⟩ := buildHeap_run order mapped inS le_rfl heapFrom_middle hf
  obtain ⟨m2, hsort, moved2, sorted⟩ := sortHeap_run order moved1.mapped
    (inS.moved moved1 le_rfl le_rfl) le_rfl heap sortedTail_end hf
  have moved := moved1.trans moved2
  refine ⟨m2, ?_, moved.mapped, moved.rearranged.perm, ?_, moved.outside⟩
  · rw [sort, arrayAssert_bind (by simpa using hnull), arrayAssert_bind (by simpa using hsize), hhalf,
      bind_of_ok hbuild, hsort]
  · have inS2 := elementsIn_iff.mp (inS.moved moved le_rfl le_rfl)
    exact sorted.imp_of_mem fun hx hy h => (ranked_iff (inS2 _ hx) (inS2 _ hy)).mp h

/-! ## Searching -/

theorem mapped_only (mapped : A.Mapped m) : A.Mapped (A.only m) := fun a ha => by
  rw [ArrayObject.only, if_pos ha]
  exact mapped a ha

theorem element_only (hk : k < A.cnt.toNat) : A.element (A.only m) (k + 1) = A.element m (k + 1) := by
  refine List.map_congr_left fun i hi => ?_
  rw [ArrayObject.only, if_pos (A.inside_of_lt hk (List.mem_range.mp hi))]

/-- The element with the number `k`, counted from 0, equals the key, and `p` points to it. -/
structure FoundAt (A : ArrayObject) (m : ℕ → Option UInt8) (compare : Compare) (key : List UInt8)
    (p : UInt32) (k : ℕ) : Prop where
  lt : k < A.cnt.toNat
  address : p.toNat = A.address k
  equal : compare key (A.element m (k + 1)) = 0

theorem ArrayObject.address_add (d : ℕ) : A.address (k + d) = A.address k + d * A.size.toNat := by
  rw [ArrayObject.address, ArrayObject.address, Nat.add_mul, Nat.add_assoc]

theorem ArrayObject.address_lt (hk : k ≤ A.cnt.toNat) : A.address k < 2 ^ 32 := by
  have := Nat.mul_le_mul_right A.size.toNat hk
  have := A.inMemory
  rw [ArrayObject.address]
  omega

/-- The middle of the range. -/
theorem toNat_middle {hi : ℕ} {first last : UInt32} (hlo : lo < hi) (hhi : hi ≤ A.cnt.toNat)
    (hfirst : first.toNat = A.address lo) (hlast : last.toNat = A.address hi) :
    (first + (last - first) / A.size / 2 * A.size).toNat = A.address (lo + (hi - lo) / 2) := by
  have hdist : A.address hi = A.address lo + (hi - lo) * A.size.toNat := by
    rw [← A.address_add, Nat.add_sub_cancel' hlo.le]
  have hrange : ((last - first) / A.size).toNat = hi - lo := by
    rw [UInt32.toNat_div, UInt32.toNat_sub_of_le _ _ (by rw [UInt32.le_iff_toNat_le]; omega), hfirst,
      hlast, hdist, Nat.add_sub_cancel_left, Nat.mul_div_cancel _ A.size_pos]
  have hhalf : ((last - first) / A.size / 2).toNat = (hi - lo) / 2 := by
    rw [UInt32.toNat_div, hrange]
    rfl
  have hlt := A.address_lt (k := lo + (hi - lo) / 2) (by omega)
  rw [A.address_add] at hlt ⊢
  rw [UInt32.toNat_add, UInt32.toNat_mul, hhalf, hfirst, Nat.mod_eq_of_lt (a := _ * _) (by omega),
    Nat.mod_eq_of_lt hlt]

theorem toNat_next {p : UInt32} (hk : k < A.cnt.toNat) (hp : p.toNat = A.address k) :
    (p + A.size).toNat = A.address (k + 1) := by
  have hlt := A.address_lt (k := k + 1) hk
  rw [A.address_add, Nat.one_mul] at hlt ⊢
  rw [UInt32.toNat_add, hp, Nat.mod_eq_of_lt hlt]

/-- The key is not among the greater elements. -/
theorem TotalPreorderOn.ne_of_less {key : List UInt8} (order : TotalPreorderOn S compare)
    (hkey : key ∈ S) (hx : x ∈ S) (hy : y ∈ S) (h : compare key x < 0) (hxy : compare x y ≤ 0) :
    compare key y ≠ 0 := by
  intro e
  have hback : compare y key ≤ 0 := by
    by_contra hlt
    have := (order.swap y hy key hkey).mp (by omega)
    omega
  have := order.trans x hx y hy key hkey hxy hback
  have := (order.swap x hx key hkey).mpr h
  omega

/-- The key is not among the smaller elements. -/
theorem TotalPreorderOn.ne_of_greater {key : List UInt8} (order : TotalPreorderOn S compare)
    (hkey : key ∈ S) (hx : x ∈ S) (hy : y ∈ S) (h : 0 < compare key x) (hyx : compare y x ≤ 0) :
    compare key y ≠ 0 := fun e => by
  have := order.trans key hkey y hy x hx e.le hyx
  omega

/-- **The loop of `binary_search`**: nothing before `lo` and nothing from `hi` on equals the key. -/
theorem searchLoop_run {key : List UInt8} {hi : ℕ} {first last : UInt32}
    (order : TotalPreorderOn S compare) (hkey : key ∈ S) (mapped : A.Mapped m) (inS : ElementsIn A m S)
    (sorted : ∀ k j, k < j → j < A.cnt.toNat → compare (A.element m (k + 1)) (A.element m (j + 1)) ≤ 0)
    (hlohi : lo ≤ hi) (hhi : hi ≤ A.cnt.toNat)
    (hfirst : first.toNat = A.address lo) (hlast : last.toNat = A.address hi)
    (below : ∀ k < lo, compare key (A.element m (k + 1)) ≠ 0)
    (above : ∀ k, hi ≤ k → k < A.cnt.toNat → compare key (A.element m (k + 1)) ≠ 0)
    (hf : hi < lo + fuel) :
    ∃ p, searchLoop key A.size compare fuel first last m = .ok p m ∧
      ((∃ k, FoundAt A m compare key p k) ∨
        p = 0 ∧ ∀ k < A.cnt.toNat, compare key (A.element m (k + 1)) ≠ 0) := by
  induction fuel generalizing lo hi first last with
  | zero => omega
  | succ fuel ih =>
      have hsize := A.size_pos
      have hlt : first < last ↔ lo < hi := by
        rw [UInt32.lt_iff_toNat_lt, hfirst, hlast, ArrayObject.address, ArrayObject.address,
          Nat.add_lt_add_iff_left, Nat.mul_lt_mul_right hsize]
      rw [searchLoop]
      by_cases hlo : lo < hi
      · rw [if_pos (hlt.mpr hlo)]
        have hmiddle := toNat_middle hlo hhi hfirst hlast
        have hmid : lo ≤ lo + (hi - lo) / 2 ∧ lo + (hi - lo) / 2 < hi := by omega
        generalize lo + (hi - lo) / 2 = mid at hmiddle hmid
        generalize first + (last - first) / A.size / 2 * A.size = middle at hmiddle ⊢
        have hmidS := inS (mid + 1) (by omega) (by omega)
        rw [bind_of_ok (readElement_run mapped (by omega) hmiddle)]
        split_ifs with hless hgreater
        · -- the key is not behind the middle either
          refine ih hmid.1 (by omega) hfirst hmiddle below (fun k hk hkc => ?_) (by omega)
          rcases Nat.lt_or_eq_of_le hk with h | rfl
          · exact order.ne_of_less hkey hmidS (inS (k + 1) (by omega) (by omega)) hless (sorted mid k h hkc)
          · exact hless.ne
        · have hnext : (middle + A.size).toNat = A.address (mid + 1) := toNat_next (by omega) hmiddle
          refine ih (by omega) hhi hnext hlast (fun k hk => ?_) above (by omega)
          rcases Nat.lt_or_eq_of_le (Nat.le_of_lt_succ hk) with h | rfl
          · exact order.ne_of_greater hkey hmidS (inS (k + 1) (by omega) (by omega)) hgreater
              (sorted k mid h (by omega))
          · exact hgreater.ne'
        · exact ⟨middle, rfl, .inl ⟨mid, by omega, hmiddle, by omega⟩⟩
      · rw [if_neg fun h => hlo (hlt.mp h)]
        refine ⟨0, rfl, .inr ⟨rfl, fun k hk => ?_⟩⟩
        by_cases hk' : k < lo
        · exact below k hk'
        · exact above k (by omega) hk

/-- **`binary_search` finds what is there**, and looks nowhere but in the array. -/
theorem binarySearch_run {key : List UInt8} (order : TotalPreorderOn S compare) (hkey : key ∈ S)
    (mapped : A.Mapped m) (inS : ∀ x ∈ A.contents m, x ∈ S)
    (sorted : (A.contents m).Pairwise fun x y => compare x y ≤ 0) (hf : A.cnt.toNat < fuel) :
    ∃ p, binarySearch fuel key A.base A.cnt A.size compare (A.only m) = .ok p (A.only m) ∧
      ((∃ k, FoundAt A m compare key p k ∧ p ≠ 0) ∨ p = 0 ∧ ∀ x ∈ A.contents m, compare key x ≠ 0) := by
  have helem : ∀ k, 1 ≤ k → k ≤ A.cnt.toNat → A.element (A.only m) k = A.element m k := by
    intro k hk hkc
    obtain ⟨k, rfl⟩ : ∃ k', k = k' + 1 := ⟨k - 1, by omega⟩
    exact element_only (by omega)
  have inS' : ElementsIn A (A.only m) S := fun k hk hkc => by
    rw [helem k hk hkc]
    exact elementsIn_iff.mpr inS k hk hkc
  have sorted' : ∀ k j, k < j → j < A.cnt.toNat →
      compare (A.element (A.only m) (k + 1)) (A.element (A.only m) (j + 1)) ≤ 0 := by
    intro k j hkj hj
    rw [element_only (by omega), element_only hj]
    rw [ArrayObject.contents, List.pairwise_map, List.pairwise_iff_getElem] at sorted
    have := sorted k j (by simp; omega) (by simpa using hj) hkj
    simpa [List.getElem_range', Nat.add_comm 1] using this
  have hlast : (A.base + A.size * A.cnt).toNat = A.address A.cnt.toNat := by
    have hlt := A.inMemory
    rw [UInt32.toNat_add, UInt32.toNat_mul, Nat.mul_comm, Nat.mod_eq_of_lt (a := _ * _) (by omega),
      Nat.mod_eq_of_lt hlt, ArrayObject.address]
  have hfirst : A.base.toNat = A.address 0 := by
    rw [ArrayObject.address, Nat.zero_mul, Nat.add_zero]
  have hfuel : A.cnt.toNat < 0 + fuel := by omega
  obtain ⟨p, hrun, hp⟩ := searchLoop_run order hkey (mapped_only mapped) inS' sorted' (Nat.zero_le _)
    le_rfl hfirst hlast (fun k hk => by omega) (fun k hk hk' => by omega) hfuel
  refine ⟨p, hrun, hp.imp ?_ ?_⟩
  · rintro ⟨k, hk, hpk, heq⟩
    refine ⟨k, ⟨hk, hpk, by rwa [← element_only hk]⟩, ?_⟩
    rintro rfl
    have hbase : A.base = 0 := by
      rw [← UInt32.toNat_inj]
      rw [ArrayObject.address] at hpk
      have : (0 : UInt32).toNat = 0 := rfl
      omega
    have hcnt := congrArg UInt32.toNat (A.nonnull hbase)
    rw [hcnt] at hk
    exact absurd hk (Nat.not_lt_zero k)
  · rintro ⟨rfl, hnone⟩
    refine ⟨rfl, fun x hx => ?_⟩
    simp only [ArrayObject.contents, List.mem_map, List.mem_range'_1] at hx
    obtain ⟨k, hk, rfl⟩ := hx
    obtain ⟨k, rfl⟩ : ∃ k', k = k' + 1 := ⟨k - 1, by omega⟩
    rw [← element_only (by omega)]
    exact hnone k (by omega)

/-- **The arrays of `stdlib.c`.**  Any comparison that is a total preorder on the elements and the
key will do. -/
theorem stdlib_sorts_and_finds (order : TotalPreorderOn S compare) (mapped : A.Mapped m)
    (inS : ∀ x ∈ A.contents m, x ∈ S) (hf : A.cnt.toNat < fuel) :
    (∃ m', sort fuel A.base A.cnt A.size compare m = .ok () m' ∧ A.Mapped m' ∧
      (A.contents m').Perm (A.contents m) ∧
      (A.contents m').Pairwise (fun x y => compare x y ≤ 0) ∧ ∀ a, ¬ A.Inside a → m' a = m a) ∧
    ((A.contents m).Pairwise (fun x y => compare x y ≤ 0) → ∀ key ∈ S,
      ∃ p, binarySearch fuel key A.base A.cnt A.size compare (A.only m) = .ok p (A.only m) ∧
        ((∃ k, FoundAt A m compare key p k ∧ p ≠ 0) ∨
          p = 0 ∧ ∀ x ∈ A.contents m, compare key x ≠ 0)) :=
  ⟨sort_run order mapped inS hf, fun sorted _ hkey =>
    binarySearch_run order hkey mapped inS sorted hf⟩

end Order

/-- Three elements of two bytes. -/
def smallArray : ArrayObject where
  base := 100
  cnt := 3
  size := 2
  size_pos := by decide
  inMemory := by decide
  object := by decide
  nonnull := by decide

/-- The second byte counts. -/
def bySecondByte : Compare := fun x y => ((x.getD 1 0).toNat : ℤ) - (y.getD 1 0).toNat

theorem stdlib_sorts_and_finds_small :
    let m : ℕ → Option UInt8 := fun a => some (UInt8.ofNat (a * 91))
    (∃ m', sort 4 100 3 2 bySecondByte m = .ok () m' ∧ smallArray.Mapped m' ∧
      (smallArray.contents m').Perm (smallArray.contents m) ∧
      (smallArray.contents m').Pairwise (fun x y => bySecondByte x y ≤ 0) ∧
      ∀ a, ¬ smallArray.Inside a → m' a = m a) ∧
    ((smallArray.contents m).Pairwise (fun x y => bySecondByte x y ≤ 0) →
      ∀ key ∈ (Set.univ : Set (List UInt8)),
      ∃ p, binarySearch 4 key 100 3 2 bySecondByte (smallArray.only m) = .ok p (smallArray.only m) ∧
        ((∃ k, FoundAt smallArray m bySecondByte key p k ∧ p ≠ 0) ∨
          p = 0 ∧ ∀ x ∈ smallArray.contents m, bySecondByte key x ≠ 0)) := by
  have hfuel : smallArray.cnt.toNat < 4 := by decide
  refine stdlib_sorts_and_finds ⟨?_, ?_⟩ (fun _ _ => rfl) (fun _ _ => Set.mem_univ _) hfuel
  · intro x _ y _
    simp only [bySecondByte]
    omega
  · intro x _ y _ z _ hxy hyz
    simp only [bySecondByte] at *
    omega

end Pintos.Containers
