import Mathlib.Data.List.Nodup
import Mathlib.Data.List.Perm.Basic
import Mathlib.Data.List.Range
import Mathlib.Logic.Equiv.Basic
import Mathlib.Tactic.Ring
import Mathlib.Order.RelClasses

/-!
# Heaps in an array

The elements of an array are `f 1`, …, `f n`, and the parent of the element `k` is `k / 2`.  A
heapsort exchanges elements until no element is greater than its parent, and then takes the
greatest away, over and over.  Nothing is said here about how the exchanges come about: the rules
are about `f` before and after one.

* **`HeapBut.exchange`**, **`HeapBut.heapFrom`** — an element floats down, and when it may stop.
* **`HeapFrom.root`** — the first element of a heap is the greatest.
* **`SortedTail.next`** — taking the greatest element away.
* **`Rearranged.perm`** — the elements are still the same ones.
-/

namespace Lib

variable {α : Type} {r : α → α → Prop} {f g : ℕ → α} {lo n i : ℕ}

/-! ## Rearrangements -/

/-- `g` has the elements of `f`, and only those from `lo` to `n` have moved. -/
def Rearranged (lo n : ℕ) (f g : ℕ → α) : Prop :=
  ∃ σ : Equiv.Perm ℕ, g = f ∘ σ ∧ ∀ k, σ k ≠ k → lo ≤ k ∧ k ≤ n

namespace Rearranged

variable {h : ℕ → α} {lo' n' a b : ℕ}

theorem refl (f : ℕ → α) : Rearranged lo n f f := ⟨.refl ℕ, rfl, fun _ hk => absurd rfl hk⟩

theorem trans (w : Rearranged lo n f g) (w' : Rearranged lo n g h) : Rearranged lo n f h := by
  obtain ⟨σ, rfl, hσ⟩ := w
  obtain ⟨τ, rfl, hτ⟩ := w'
  refine ⟨τ.trans σ, rfl, fun k hk => ?_⟩
  by_cases hk' : τ k = k
  · refine hσ k fun e => hk ?_
    rw [Equiv.trans_apply, hk', e]
  · exact hτ k hk'

theorem mono (w : Rearranged lo n f g) (hlo : lo' ≤ lo) (hn : n ≤ n') : Rearranged lo' n' f g := by
  obtain ⟨σ, rfl, hσ⟩ := w
  exact ⟨σ, rfl, fun k hk => ⟨hlo.trans (hσ k hk).1, (hσ k hk).2.trans hn⟩⟩

theorem swap (ha : lo ≤ a ∧ a ≤ n) (hb : lo ≤ b ∧ b ≤ n) : Rearranged lo n f (f ∘ Equiv.swap a b) := by
  refine ⟨Equiv.swap a b, rfl, fun k hk => ?_⟩
  by_cases hka : k = a
  · exact hka ▸ ha
  by_cases hkb : k = b
  · exact hkb ▸ hb
  exact absurd (Equiv.swap_apply_of_ne_of_ne hka hkb) hk

theorem outside (w : Rearranged lo n f g) {k : ℕ} (hk : ¬ (lo ≤ k ∧ k ≤ n)) : g k = f k := by
  obtain ⟨σ, rfl, hσ⟩ := w
  have : σ k = k := by
    by_contra e
    exact hk (hσ k e)
  exact congrArg f this

theorem inside (w : Rearranged lo n f g) {k : ℕ} (hk : lo ≤ k ∧ k ≤ n) :
    ∃ j, (lo ≤ j ∧ j ≤ n) ∧ g k = f j := by
  obtain ⟨σ, rfl, hσ⟩ := w
  refine ⟨σ k, ?_, rfl⟩
  by_cases e : σ k = k
  · rwa [e]
  · exact hσ _ fun e' => e (σ.injective e')

/-- The elements are still the same ones. -/
theorem perm (w : Rearranged 1 n f g) : ((List.range' 1 n).map g).Perm ((List.range' 1 n).map f) := by
  obtain ⟨σ, rfl, hσ⟩ := w
  have hsame : ((List.range' 1 n).map σ).Perm (List.range' 1 n) := by
    refine (List.perm_ext_iff_of_nodup ?_ List.nodup_range').mpr fun k => ?_
    · exact List.Nodup.map σ.injective List.nodup_range'
    · have hback : ∀ j, σ j = k → (1 ≤ j ∧ j ≤ n ↔ 1 ≤ k ∧ k ≤ n) := by
        rintro j rfl
        by_cases e : σ j = j
        · rw [e]
        · have hj := hσ j e
          have hσj := hσ (σ j) fun e' => e (σ.injective e')
          exact ⟨fun _ => hσj, fun _ => hj⟩
      simp only [List.mem_map, List.mem_range'_1]
      constructor
      · rintro ⟨j, hj, e⟩
        have := (hback j e).mp (by omega)
        omega
      · intro hk
        have := (hback (σ.symm k) (σ.apply_symm_apply k)).mpr (by omega)
        exact ⟨σ.symm k, by omega, σ.apply_symm_apply k⟩
  rw [← List.map_map]
  exact hsame.map f

end Rearranged

/-! ## Heaps -/

/-- No element below one from `lo` on is greater than its parent. -/
def HeapFrom (r : α → α → Prop) (f : ℕ → α) (lo n : ℕ) : Prop :=
  ∀ k ≤ n, lo ≤ k / 2 → r (f k) (f (k / 2))

/-- As `HeapFrom`, but the children of `i` may be greater than `i`. -/
structure HeapBut (r : α → α → Prop) (f : ℕ → α) (lo n i : ℕ) : Prop where
  others : ∀ k ≤ n, lo ≤ k / 2 → k / 2 ≠ i → r (f k) (f (k / 2))
  above : ∀ k ≤ n, k / 2 = i → lo ≤ i / 2 → r (f k) (f (i / 2))

/-- The next element that a heap is built for. -/
theorem HeapFrom.heapBut (w : HeapFrom r f (lo + 1) n) (hlo : 1 ≤ lo) : HeapBut r f lo n lo where
  others k hk hk' hne := w k hk (by omega)
  above k _ _ h := by omega

/-- The first and the last element of a heap are exchanged, and the last one is taken away. -/
theorem HeapFrom.swap_last (w : HeapFrom r f 1 n) (hn : 2 ≤ n) :
    HeapBut r (f ∘ Equiv.swap 1 n) 1 (n - 1) 1 where
  others k hk hk' hne := by
    have h1 : Equiv.swap 1 n k = k := Equiv.swap_apply_of_ne_of_ne (by omega) (by omega)
    have h2 : Equiv.swap 1 n (k / 2) = k / 2 := Equiv.swap_apply_of_ne_of_ne hne (by omega)
    simp only [Function.comp_apply, h1, h2]
    exact w k (by omega) hk'
  above k _ _ h := by omega

namespace HeapBut

/-- The element is exchanged for the greatest of its children. -/
theorem exchange (w : HeapBut r f lo n i) (hi : 1 ≤ i) (hlo : lo ≤ i) {c : ℕ} (hc : c ≤ n)
    (hchild : c / 2 = i) (hle : r (f i) (f c)) (hmax : ∀ k ≤ n, k / 2 = i → r (f k) (f c)) :
    HeapBut r (f ∘ Equiv.swap i c) lo n c := by
  have hic : i < c := by omega
  have hfi : Equiv.swap i c i = c := Equiv.swap_apply_left i c
  have hfc : Equiv.swap i c c = i := Equiv.swap_apply_right i c
  have hother : ∀ k, k ≠ i → k ≠ c → Equiv.swap i c k = k := fun k => Equiv.swap_apply_of_ne_of_ne
  constructor
  · intro k hk hk' hne
    simp only [Function.comp_apply]
    by_cases hki : k / 2 = i
    · rw [hki, hfi]
      by_cases hkc : k = c
      · rwa [hkc, hfc]
      · rw [hother k (by omega) hkc]
        exact hmax k hk hki
    · rw [hother (k / 2) hki hne]
      by_cases hki' : k = i
      · -- the parent of `i` was not smaller than `c`
        subst hki'
        rw [hfi]
        exact w.above c hc hchild hk'
      · rw [hother k hki' (by rintro rfl; exact hki hchild)]
        exact w.others k hk hk' hki
  · intro k hk hkc _
    simp only [Function.comp_apply]
    rw [hchild, hfi, hother k (by omega) (by omega), ← hkc]
    exact w.others k hk (by omega) (by omega)

/-- The element may stop where no child is greater. -/
theorem heapFrom (w : HeapBut r f lo n i) (hmax : ∀ k ≤ n, k / 2 = i → r (f k) (f i)) :
    HeapFrom r f lo n := by
  intro k hk hk'
  by_cases hki : k / 2 = i
  · rw [hki]
    exact hmax k hk hki
  · exact w.others k hk hk' hki

end HeapBut

/-- Nothing has a parent behind the middle. -/
theorem heapFrom_middle : HeapFrom r f (n / 2 + 1) n := fun k hk hk' => by
  have := Nat.div_le_div_right (c := 2) hk
  omega

/-- The elements behind `i` are sorted, and none before them is greater. -/
def SortedTail (r : α → α → Prop) (f : ℕ → α) (i n : ℕ) : Prop :=
  ∀ j k, 1 ≤ j → j < k → i < k → k ≤ n → r (f j) (f k)

theorem sortedTail_end : SortedTail r f n n := fun _ _ _ _ h h' => absurd h' (Nat.not_le.mpr h)

section Order

variable [Std.Total r] [IsTrans α r]

/-- **The first element of a heap is the greatest.** -/
theorem HeapFrom.root (w : HeapFrom r f 1 n) {k : ℕ} (hk : 1 ≤ k) (hkn : k ≤ n) : r (f k) (f 1) := by
  induction k using Nat.strong_induction_on with
  | _ k ih =>
      by_cases h1 : k = 1
      · subst h1
        exact (Std.Total.total (r := r) (f 1) (f 1)).elim id id
      · exact IsTrans.trans _ _ _ (w k hkn (by omega)) (ih (k / 2) (by omega) (by omega) (by omega))

/-- The greatest of the first `i` elements has come to the place `i`. -/
theorem SortedTail.next (w : SortedTail r f i n) (heap : HeapFrom r f 1 i) (moved : Rearranged 1 i f g)
    (hlast : g i = f 1) : SortedTail r g (i - 1) n := by
  intro j k hj hjk hik hkn
  by_cases hki : k = i
  · subst hki
    obtain ⟨j', hj', e⟩ := moved.inside ⟨hj, hjk.le⟩
    rw [e, hlast]
    exact heap.root hj'.1 hj'.2
  · rw [moved.outside (k := k) (by omega)]
    by_cases hji : j ≤ i
    · obtain ⟨j', hj', e⟩ := moved.inside ⟨hj, hji⟩
      rw [e]
      exact w j' k hj'.1 (by omega) (by omega) hkn
    · rw [moved.outside (k := j) (by omega)]
      exact w j k hj hjk (by omega) hkn

end Order

/-- At the end of the sort, everything is sorted. -/
theorem SortedTail.pairwise (w : SortedTail r f i n) (hi : i ≤ 1) :
    ((List.range' 1 n).map f).Pairwise r := by
  rw [List.pairwise_map]
  refine List.Pairwise.imp_of_mem (fun {j k} hj hk hjk => ?_) List.pairwise_lt_range'
  rw [List.mem_range'_1] at hj hk
  exact w j k hj.1 hjk (by omega) (by omega)

end Lib
