import Mathlib.Data.Nat.Digits.Lemmas

/-!
# Numerals with separators

The digits of a number are produced from the lowest to the highest, with a separator after each
group, and are read from the highest to the lowest.  `separate` is the text from the right to the
left.

* **`filter_separate`** — without the separators, the digits are left.
* **`getElem_separate_iff`** — where the separators stand.
* **`readNumeral_digits`** — the digits of a number are read back.
-/

namespace Lib

variable {α : Type} {sep : α} {g : ℕ} {l : List α}

/-! ## Separators -/

/-- A list with a separator before each element for which the group before it is full; `r` elements
of a group are there already. -/
def separate (sep : α) (g : ℕ) : ℕ → List α → List α
  | _, [] => []
  | r, x :: l => if r = g then sep :: x :: separate sep g 1 l else x :: separate sep g (r + 1) l

/-- **Without the separators, the list is left.** -/
theorem filter_separate [DecidableEq α] (h : sep ∉ l) (r : ℕ) :
    (separate sep g r l).filter (fun x => x ≠ sep) = l := by
  induction l generalizing r with
  | nil => rfl
  | cons x l ih =>
      have hx : x ≠ sep := fun e => h (by simp [e])
      have hl : sep ∉ l := fun hm => h (List.mem_cons_of_mem _ hm)
      rw [separate]
      split
      · rw [List.filter_cons_of_neg (by simp), List.filter_cons_of_pos (by simpa using hx), ih hl]
      · rw [List.filter_cons_of_pos (by simpa using hx), ih hl]

/-- **Where the separators stand**: behind each group. -/
theorem getElem_separate_iff (hg : 0 < g) (h : sep ∉ l) {r : ℕ} (hr : r ≤ g) {k : ℕ} {x : α}
    (hx : (separate sep g r l)[k]? = some x) : x = sep ↔ (r + k) % (g + 1) = g := by
  induction l generalizing r k with
  | nil => simp [separate] at hx
  | cons y l ih =>
      have hy : y ≠ sep := fun e => h (by simp [e])
      have hl : sep ∉ l := fun hm => h (List.mem_cons_of_mem _ hm)
      rw [separate] at hx
      split at hx
      · next e =>
          subst e
          match k with
          | 0 =>
              obtain rfl : sep = x := by simpa using hx
              rw [Nat.add_zero, Nat.mod_eq_of_lt (Nat.lt_succ_self r)]
              simp
          | 1 =>
              obtain rfl : y = x := by simpa using hx
              rw [Nat.mod_self]
              exact iff_of_false hy (by omega)
          | k + 2 =>
              rw [ih hl hg (by simpa using hx), show r + (k + 2) = 1 + k + (r + 1) by omega,
                Nat.add_mod_right]
      · next hne =>
          match k with
          | 0 =>
              obtain rfl : y = x := by simpa using hx
              rw [Nat.add_zero, Nat.mod_eq_of_lt (by omega)]
              exact iff_of_false hy hne
          | k + 1 =>
              rw [ih hl (r := r + 1) (by omega) (by simpa using hx), show r + 1 + k = r + (k + 1) by omega]

/-- The last element is that of the list. -/
theorem getLast?_separate (l : List α) (r : ℕ) : (separate sep g r l).getLast? = l.getLast? := by
  induction l generalizing r with
  | nil => rfl
  | cons x l ih =>
      have hlast : ∀ r', (x :: separate sep g r' l).getLast? = (x :: l).getLast? := fun r' => by
        rw [List.getLast?_cons, List.getLast?_cons, ih r']
      rw [separate]
      split
      · rw [List.getLast?_cons_cons, hlast]
      · exact hlast _

/-- There is at most one separator for each full group. -/
theorem length_separate (hg : 0 < g) (l : List α) (r : ℕ) :
    (separate sep g r l).length ≤ l.length + (l.length + r) / g := by
  induction l generalizing r with
  | nil => simp [separate]
  | cons x l ih =>
      rw [separate]
      split
      · next e =>
          have := ih 1
          rw [List.length_cons, List.length_cons, List.length_cons, e, Nat.add_div_right _ hg]
          omega
      · have := ih (r + 1)
        rw [List.length_cons, List.length_cons, Nat.add_right_comm l.length 1 r]
        rw [← Nat.add_assoc] at this
        omega

/-! ## Reading -/

/-- What a text means as a number. -/
def readNumeral (digit : α → ℕ) (base : ℕ) (text : List α) : ℕ :=
  text.foldl (fun n c => n * base + digit c) 0

/-- **The digits of a number are read back.** -/
theorem readNumeral_digits {digit : α → ℕ} {char : ℕ → α} {base : ℕ} (hb : 1 < base)
    (h : ∀ d < base, digit (char d) = d) (n : ℕ) :
    readNumeral digit base ((Nat.digits base n).map char).reverse = n := by
  have hread : ∀ ds : List ℕ, (∀ d ∈ ds, d < base) →
      readNumeral digit base (ds.map char).reverse = Nat.ofDigits base ds := by
    intro ds hds
    induction ds with
    | nil => rfl
    | cons d ds ih =>
        have hd := hds d List.mem_cons_self
        rw [readNumeral, List.map_cons, List.reverse_cons, List.foldl_append, ← readNumeral,
          ih fun e he => hds e (List.mem_cons_of_mem _ he), List.foldl_cons, List.foldl_nil, h d hd,
          Nat.ofDigits_cons, Nat.mul_comm, Nat.add_comm]
  rw [hread _ fun d hd => Nat.digits_lt_base hb hd, Nat.ofDigits_digits]

end Lib
