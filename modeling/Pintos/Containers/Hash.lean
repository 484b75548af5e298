import Mathlib.Tactic
import Mathlib.Data.Finset.Dedup
import Pintos.Lib.Runs
import Pintos.Lib.ClassSet

/-!
# The hash table

`lib/kernel/hash.c`: an array of lists, each element in the list its hash value selects.  An
element is the object the caller has put its `struct hash_elem` into; it is compared and
hashed by functions of the caller, whose `aux` is fixed with them.  As the elements lie in
memory, their number does not overflow.

`rehash` runs at the end of every insertion and deletion.  It may find no memory, and then it
leaves the table as it is; whether `malloc` succeeds is an argument.

The purpose of the table is a finite set with at most one element of each class of equal
elements: `SetStep` says what every call does to such a set and what it returns.

* **`hash_of_run`** — in every run, every call does to the elements of the table what it should
  do to a set, and every state is in order: one element per class, each in its bucket, all
  counted, and all visited once by an iteration.
-/

namespace Pintos.Containers

open Lib

/-! ## The table -/

variable {α : Type} [DecidableEq α]

/-- `hash_hash_func` and `hash_less_func`. -/
structure Keys (α : Type) where
  hash : α → UInt32
  less : α → α → Bool

/-- `struct hash`. -/
structure Hash (α : Type) where
  elemCnt : ℕ
  bucketCnt : ℕ
  buckets : ℕ → List α

/-- `hash_init`, if there is memory for the buckets. -/
def hashInit : Hash α := ⟨0, 4, fun _ => []⟩

/-- `hash_clear`. -/
def hashClear (h : Hash α) : Hash α := ⟨0, h.bucketCnt, fun _ => []⟩

/-- The number of the bucket an element belongs in, of `cnt`. -/
def bucketIdx (k : Keys α) (cnt : ℕ) (e : α) : ℕ := (k.hash e).toNat &&& (cnt - 1)

/-- Two elements are equal for the table. -/
def Keys.same (k : Keys α) (a b : α) : Bool := !k.less a b && !k.less b a

/-- `find_elem`, in the bucket of `e`. -/
def findElem (k : Keys α) (h : Hash α) (e : α) : Option α :=
  (h.buckets (bucketIdx k h.bucketCnt e)).find? fun hi => k.same hi e

/-- `list_push_front` on a bucket. -/
def pushFront (buckets : ℕ → List α) (i : ℕ) (e : α) : ℕ → List α :=
  Function.update buckets i (e :: buckets i)

/-- `insert_elem`, into the bucket of `e`. -/
def insertElem (k : Keys α) (h : Hash α) (e : α) : Hash α :=
  { h with elemCnt := h.elemCnt + 1, buckets := pushFront h.buckets (bucketIdx k h.bucketCnt e) e }

/-- `remove_elem`: `list_remove` takes the element off the list it is on. -/
def removeElem (h : Hash α) (e : α) : Hash α :=
  { h with elemCnt := h.elemCnt - 1, buckets := fun i => (h.buckets i).erase e }

/-- `turn_off_least_1bit`. -/
def turnOffLeast1bit (x : ℕ) : ℕ := x &&& (x - 1)

/-- `is_power_of_2`. -/
def isPowerOf2 (x : ℕ) : Bool := x ≠ 0 && turnOffLeast1bit x = 0

/-- The loop of `rehash` that looks for a power of 2; it is run at most as often as there are
numbers below `x`. -/
def lowerPowerOf2 : ℕ → ℕ → ℕ
  | 0, x => x
  | fuel + 1, x => if isPowerOf2 x then x else lowerPowerOf2 fuel (turnOffLeast1bit x)

/-- `new_bucket_cnt`. -/
def newBucketCnt (elemCnt : ℕ) : ℕ :=
  let cnt := if elemCnt / 2 < 4 then 4 else elemCnt / 2
  lowerPowerOf2 cnt cnt

/-- Move the elements of a list to their buckets, of `cnt`. -/
def moveAll (k : Keys α) (cnt : ℕ) (buckets : ℕ → List α) (elems : List α) : ℕ → List α :=
  elems.foldl (fun buckets e => pushFront buckets (bucketIdx k cnt e) e) buckets

/-- `rehash`; `memory` is whether `malloc` succeeds. -/
def rehash (k : Keys α) (memory : Bool) (h : Hash α) : Hash α :=
  let cnt := newBucketCnt h.elemCnt
  if cnt = h.bucketCnt then h
  else if memory then
    ⟨h.elemCnt, cnt,
      (List.range h.bucketCnt).foldl (fun buckets i => moveAll k cnt buckets (h.buckets i)) fun _ => []⟩
  else h

/-- `hash_insert`. -/
def hashInsert (k : Keys α) (memory : Bool) (h : Hash α) (new : α) : Option α × Hash α :=
  match findElem k h new with
  | none => (none, rehash k memory (insertElem k h new))
  | some old => (some old, rehash k memory h)

/-- `hash_replace`. -/
def hashReplace (k : Keys α) (memory : Bool) (h : Hash α) (new : α) : Option α × Hash α :=
  match findElem k h new with
  | none => (none, rehash k memory (insertElem k h new))
  | some old => (some old, rehash k memory (insertElem k (removeElem h old) new))

/-- `hash_find`. -/
def hashFind (k : Keys α) (h : Hash α) (e : α) : Option α := findElem k h e

/-- `hash_delete`. -/
def hashDelete (k : Keys α) (memory : Bool) (h : Hash α) (e : α) : Option α × Hash α :=
  match findElem k h e with
  | none => (none, h)
  | some found => (some found, rehash k memory (removeElem h found))

/-! ## Iterating -/

/-- `struct hash_iterator`: a bucket, and a position in its list, where 0 is the head of the list
and one more than its length the end; `none` is the null pointer. -/
structure HashIterator where
  bucket : ℕ
  elem : Option ℕ

/-- `hash_first`. -/
def hashFirst : HashIterator := ⟨0, some 0⟩

/-- The loop of `hash_next`, which is run at most once for every bucket. -/
def skipEnds (h : Hash α) : ℕ → HashIterator → HashIterator
  | 0, i => i
  | fuel + 1, i =>
      if i.elem = some ((h.buckets i.bucket).length + 1) then
        if h.bucketCnt ≤ i.bucket + 1 then ⟨i.bucket + 1, none⟩
        else skipEnds h fuel ⟨i.bucket + 1, some 1⟩
      else i

/-- The element an iterator is at. -/
def hashCur (h : Hash α) (i : HashIterator) : Option α :=
  i.elem.bind fun pos => (h.buckets i.bucket)[pos - 1]?

/-- `hash_next`; `none` is a step from the null pointer. -/
def hashNext (h : Hash α) (i : HashIterator) : Option (Option α × HashIterator) :=
  match i.elem with
  | none => none
  | some pos =>
      let next := skipEnds h h.bucketCnt ⟨i.bucket, some (pos + 1)⟩
      some (hashCur h next, next)

/-- `while (hash_next (&i))`: the elements in the order in which they are visited. -/
def visit (h : Hash α) : ℕ → HashIterator → Option (List α)
  | 0, _ => none
  | fuel + 1, i =>
      match hashNext h i with
      | none => none
      | some (none, _) => some []
      | some (some e, next) => (visit h fuel next).map (e :: ·)

/-! ## Order -/

/-- The order of the caller is a strict weak order, and equal elements have equal hash values. -/
structure Keys.Lawful (k : Keys α) : Prop where
  irrefl : ∀ a, k.less a a = false
  trans : ∀ a b c, k.less a b = true → k.less b c = true → k.less a c = true
  incomp : ∀ a b c, k.same a b = true → k.same b c = true → k.same a c = true
  hash : ∀ a b, k.same a b = true → k.hash a = k.hash b

/-- The elements, bucket by bucket. -/
def contents (h : Hash α) : List α := (List.range h.bucketCnt).flatMap h.buckets

/-- The elements as a set. -/
def elems (h : Hash α) : Finset α := (contents h).toFinset

/-- The state of the table is in order, the classes of its elements aside. -/
structure HashInv (k : Keys α) (h : Hash α) : Prop where
  power : ∃ n, 2 ≤ n ∧ h.bucketCnt = 2 ^ n
  placed : ∀ i < h.bucketCnt, ∀ e ∈ h.buckets i, bucketIdx k h.bucketCnt e = i
  nodup : (contents h).Nodup
  count : h.elemCnt = (contents h).length

section Contents

variable {k : Keys α} {h : Hash α} {e x : α} {f g : ℕ → List α} {n i : ℕ}

omit [DecidableEq α] in
theorem Keys.Lawful.equivalence (hk : k.Lawful) : Equivalence fun a b => k.same a b = true := by
  refine ⟨fun a => ?_, fun {a b} h => ?_, fun {a b c} => hk.incomp a b c⟩
  · simp [Keys.same, hk.irrefl]
  · rwa [Keys.same, Bool.and_comm] at h

omit [DecidableEq α] in
theorem HashInv.pos (inv : HashInv k h) : 0 < h.bucketCnt := by
  obtain ⟨m, -, e⟩ := inv.power
  rw [e]
  positivity

omit [DecidableEq α] in
theorem bucketIdx_lt (hpos : 0 < n) (e : α) : bucketIdx k n e < n := by
  have := Nat.and_le_right (n := (k.hash e).toNat) (m := n - 1)
  unfold bucketIdx
  omega

omit [DecidableEq α] in
theorem contents_nil (elemCnt bucketCnt : ℕ) :
    contents (⟨elemCnt, bucketCnt, fun _ => []⟩ : Hash α) = [] := by
  simp [contents]

omit [DecidableEq α] in
theorem mem_contents : x ∈ contents h ↔ ∃ i < h.bucketCnt, x ∈ h.buckets i := by
  simp [contents]

theorem mem_elems : x ∈ elems h ↔ x ∈ contents h := List.mem_toFinset

/-- One list of several has an element more. -/
theorem flatMap_perm_cons (hi : i < n) (hx : (f i).Perm (x :: g i)) (h : ∀ j < n, j ≠ i → f j = g j) :
    ((List.range n).flatMap f).Perm (x :: (List.range n).flatMap g) := by
  induction n with
  | zero => omega
  | succ n ih =>
      rw [List.range_succ, List.flatMap_append, List.flatMap_append, List.flatMap_singleton,
        List.flatMap_singleton]
      rcases Nat.lt_or_ge i n with hlt | hge
      · rw [h n (by omega) (by omega), ← List.cons_append]
        exact (ih hlt fun j hj => h j (by omega)).append_right _
      · have hin : i = n := by omega
        subst hin
        have hsame : (List.range i).flatMap f = (List.range i).flatMap g := by
          refine List.flatMap_congr fun j hj => ?_
          rw [List.mem_range] at hj
          exact h j (by omega) (by omega)
        rw [hsame]
        exact (hx.append_left _).trans List.perm_middle

/-- An element that is pushed to a bucket is one more. -/
theorem perm_pushFront {buckets : ℕ → List α} (hi : i < n) :
    ((List.range n).flatMap (pushFront buckets i e)).Perm (e :: (List.range n).flatMap buckets) := by
  refine flatMap_perm_cons hi ?_ fun j _ hj => Function.update_of_ne hj _ _
  rw [pushFront, Function.update_self]

/-- The elements before a removal are those after it and the one removed. -/
theorem perm_removeElem (inv : HashInv k h) (hx : x ∈ contents h) :
    (contents h).Perm (x :: contents (removeElem h x)) := by
  obtain ⟨i, hi, hmem⟩ := mem_contents.mp hx
  refine flatMap_perm_cons hi (List.perm_cons_erase hmem) fun j hj hne => ?_
  refine (List.erase_of_not_mem fun hmem' => hne ?_).symm
  rw [← inv.placed j hj x hmem', inv.placed i hi x hmem]

omit [DecidableEq α] in
/-- What is found is an equal element. -/
theorem findElem_some (inv : HashInv k h) (hf : findElem k h e = some x) :
    x ∈ contents h ∧ k.same x e = true :=
  ⟨mem_contents.mpr ⟨_, bucketIdx_lt inv.pos e, List.mem_of_find?_eq_some hf⟩, by
    simpa using List.find?_some hf⟩

omit [DecidableEq α] in
/-- If nothing is found, there is no equal element in any bucket. -/
theorem findElem_none (hk : k.Lawful) (inv : HashInv k h) (hf : findElem k h e = none) :
    ∀ x ∈ contents h, ¬ k.same x e = true := by
  intro x hx hsame
  obtain ⟨i, hi, hmem⟩ := mem_contents.mp hx
  have hbucket : i = bucketIdx k h.bucketCnt e := by
    rw [← inv.placed i hi x hmem, bucketIdx, bucketIdx, hk.hash x e hsame]
  have := List.find?_eq_none.mp hf x (hbucket ▸ hmem)
  exact this hsame

theorem stands_findElem (hk : k.Lawful) (inv : HashInv k h) (e : α) :
    Stands (fun a b => k.same a b = true) (elems h) e (findElem k h e) := by
  cases hf : findElem k h e with
  | none => exact fun x hx => findElem_none hk inv hf x (mem_elems.mp hx)
  | some x =>
      obtain ⟨hx, hsame⟩ := findElem_some inv hf
      exact ⟨mem_elems.mpr hx, hsame⟩

end Contents

/-! ## Rehashing -/

section Rehash

variable {k : Keys α} {h : Hash α} {e x : α}

/-- Turning off the lowest bit leaves the highest, unless there is only one. -/
theorem turnOff_range {n x : ℕ} (hlo : 2 ^ n < x) (hhi : x < 2 ^ (n + 1)) :
    2 ^ n ≤ turnOffLeast1bit x ∧ turnOffLeast1bit x < x := by
  have hbit : ∀ y, 2 ^ n ≤ y → y < 2 ^ (n + 1) → y.testBit n = true := by
    intro y h1 h2
    rw [Nat.testBit_eq_decide_div_mod_eq, decide_eq_true_eq]
    have : y / 2 ^ n = 1 := by
      rw [Nat.div_eq_of_lt_le]
      · omega
      · rw [pow_succ] at h2
        omega
    rw [this]
  refine ⟨?_, ?_⟩
  · apply Nat.ge_two_pow_of_testBit
    unfold turnOffLeast1bit
    rw [Nat.testBit_and, hbit x (by omega) hhi, hbit (x - 1) (by omega) (by omega)]
    rfl
  · have : turnOffLeast1bit x ≤ x - 1 := Nat.and_le_right
    omega

theorem turnOff_pow (n : ℕ) : turnOffLeast1bit (2 ^ n) = 0 := by
  rw [turnOffLeast1bit, Nat.and_two_pow_sub_one_eq_mod, Nat.mod_self]

/-- **The loop ends at the highest power of 2.** -/
theorem lowerPowerOf2_eq {n : ℕ} : ∀ (fuel x : ℕ), x ≤ fuel → 2 ^ n ≤ x → x < 2 ^ (n + 1) →
    lowerPowerOf2 fuel x = 2 ^ n := by
  intro fuel
  induction fuel with
  | zero =>
      intro x hx hlo _
      have : 0 < 2 ^ n := by positivity
      omega
  | succ fuel ih =>
      intro x hx hlo hhi
      rw [lowerPowerOf2]
      rcases Nat.eq_or_lt_of_le hlo with rfl | hlt
      · rw [if_pos]
        simp [isPowerOf2, turnOff_pow]
      · obtain ⟨h1, h2⟩ := turnOff_range hlt hhi
        have hpos : 0 < 2 ^ n := by positivity
        rw [if_neg]
        · exact ih _ (by omega) h1 (by omega)
        · simp only [isPowerOf2, Bool.and_eq_true, decide_eq_true_eq, not_and]
          intro _
          omega

theorem newBucketCnt_power (m : ℕ) : ∃ n, 2 ≤ n ∧ newBucketCnt m = 2 ^ n := by
  unfold newBucketCnt
  generalize hcnt : (if m / 2 < 4 then 4 else m / 2) = cnt
  have h4 : 4 ≤ cnt := by
    rw [← hcnt]
    split <;> omega
  refine ⟨Nat.log 2 cnt, ?_, lowerPowerOf2_eq cnt cnt le_rfl ?_ ?_⟩
  · exact Nat.le_log_of_pow_le (by decide) h4
  · exact Nat.pow_log_le_self 2 (by omega)
  · exact Nat.lt_pow_succ_log_self (by decide) cnt

/-- Each element that is moved is pushed to its bucket. -/
theorem moveAll_spec {cnt : ℕ} (hpos : 0 < cnt) : ∀ (l : List α) (buckets : ℕ → List α),
    (∀ i < cnt, ∀ e ∈ buckets i, bucketIdx k cnt e = i) →
    (∀ i < cnt, ∀ e ∈ moveAll k cnt buckets l i, bucketIdx k cnt e = i) ∧
      ((List.range cnt).flatMap (moveAll k cnt buckets l)).Perm
        (l ++ (List.range cnt).flatMap buckets) := by
  intro l
  induction l with
  | nil => exact fun buckets h => ⟨h, .refl _⟩
  | cons x l ih =>
      intro buckets h
      have hpush : ∀ i < cnt, ∀ e ∈ pushFront buckets (bucketIdx k cnt x) x i, bucketIdx k cnt e = i := by
        intro i hi e he
        by_cases hix : i = bucketIdx k cnt x
        · rw [pushFront, hix, Function.update_self, List.mem_cons] at he
          rcases he with rfl | he
          · exact hix.symm
          · exact hix ▸ h _ (hix ▸ hi) e he
        · rw [pushFront, Function.update_of_ne hix] at he
          exact h i hi e he
      obtain ⟨hplaced, hperm⟩ := ih _ hpush
      refine ⟨hplaced, hperm.trans ?_⟩
      exact ((perm_pushFront (bucketIdx_lt hpos x)).append_left l).trans List.perm_middle

omit [DecidableEq α] in
/-- The loops over the old buckets, as one. -/
theorem rehash_moves (k : Keys α) (cnt : ℕ) (h : Hash α) :
    (List.range h.bucketCnt).foldl (fun buckets i => moveAll k cnt buckets (h.buckets i)) (fun _ => []) =
      moveAll k cnt (fun _ => []) (contents h) := by
  rw [moveAll, contents, List.foldl_flatMap]
  rfl

/-- **`rehash` keeps the table in order and all its elements**, with or without memory. -/
theorem rehash_spec (inv : HashInv k h) (memory : Bool) :
    HashInv k (rehash k memory h) ∧ (contents (rehash k memory h)).Perm (contents h) := by
  unfold rehash
  simp only
  split
  · exact ⟨inv, .refl _⟩
  split
  · obtain ⟨n, hn, hcnt⟩ := newBucketCnt_power h.elemCnt
    have hpos : 0 < newBucketCnt h.elemCnt := by
      rw [hcnt]
      positivity
    rw [rehash_moves]
    obtain ⟨hplaced, hperm⟩ := moveAll_spec (k := k) hpos (contents h) (fun _ => [])
      fun i _ e he => absurd he List.not_mem_nil
    have hperm : (contents ⟨h.elemCnt, newBucketCnt h.elemCnt,
        moveAll k (newBucketCnt h.elemCnt) (fun _ => []) (contents h)⟩).Perm (contents h) := by
      have hnil : (List.range (newBucketCnt h.elemCnt)).flatMap (fun _ => ([] : List α)) = [] :=
        contents_nil h.elemCnt _
      rwa [hnil, List.append_nil] at hperm
    exact ⟨⟨⟨n, hn, hcnt⟩, hplaced, hperm.nodup_iff.mpr inv.nodup, inv.count.trans hperm.length_eq.symm⟩,
      hperm⟩
  · exact ⟨inv, .refl _⟩

theorem elems_rehash (inv : HashInv k h) (memory : Bool) : elems (rehash k memory h) = elems h :=
  List.toFinset_eq_of_perm _ _ (rehash_spec inv memory).2

/-- A new element is put into its bucket. -/
theorem insertElem_spec (inv : HashInv k h) (hnew : e ∉ contents h) :
    HashInv k (insertElem k h e) ∧ elems (insertElem k h e) = insert e (elems h) := by
  have hperm : (contents (insertElem k h e)).Perm (e :: contents h) :=
    perm_pushFront (bucketIdx_lt inv.pos e)
  refine ⟨⟨inv.power, fun i hi x hx => ?_, ?_, ?_⟩, ?_⟩
  · by_cases hie : i = bucketIdx k h.bucketCnt e
    · have hx : x ∈ pushFront h.buckets (bucketIdx k h.bucketCnt e) e i := hx
      rw [pushFront, hie, Function.update_self, List.mem_cons] at hx
      rcases hx with rfl | hx
      · exact hie.symm
      · exact hie ▸ inv.placed _ (hie ▸ hi) x hx
    · have hx : x ∈ pushFront h.buckets (bucketIdx k h.bucketCnt e) e i := hx
      rw [pushFront, Function.update_of_ne hie] at hx
      exact inv.placed i hi x hx
  · exact hperm.nodup_iff.mpr (List.nodup_cons.mpr ⟨hnew, inv.nodup⟩)
  · show h.elemCnt + 1 = _
    rw [hperm.length_eq, List.length_cons, inv.count]
  · rw [elems, List.toFinset_eq_of_perm _ _ hperm, List.toFinset_cons]
    rfl

/-- An element is taken out. -/
theorem removeElem_spec (inv : HashInv k h) (hx : x ∈ contents h) :
    HashInv k (removeElem h x) ∧ elems (removeElem h x) = (elems h).erase x := by
  have hperm := perm_removeElem inv hx
  have hnodup := List.nodup_cons.mp (hperm.nodup_iff.mp inv.nodup)
  refine ⟨⟨inv.power, fun i hi e he => ?_, hnodup.2, ?_⟩, ?_⟩
  · exact inv.placed i hi e (List.mem_of_mem_erase he)
  · show h.elemCnt - 1 = _
    rw [inv.count, hperm.length_eq, List.length_cons]
    rfl
  · rw [elems, elems, List.toFinset_eq_of_perm _ _ hperm, List.toFinset_cons, Finset.erase_insert]
    rw [List.mem_toFinset]
    exact hnodup.1

end Rehash

/-! ## Iterations -/

section Iterate

variable {k : Keys α} {h : Hash α}

/-- The elements from position `pos` of bucket `b` on. -/
def restFrom (h : Hash α) (b pos : ℕ) : List α :=
  (h.buckets b).drop pos ++ (List.range' (b + 1) (h.bucketCnt - (b + 1))).flatMap h.buckets

omit [DecidableEq α] in
/-- The loop of `hash_next` at the end of bucket `b` goes to the first element of the rest. -/
theorem skipEnds_end : ∀ (fuel b : ℕ), b < h.bucketCnt → h.bucketCnt ≤ fuel + b →
    let next := skipEnds h fuel ⟨b, some ((h.buckets b).length + 1)⟩
    (restFrom h b (h.buckets b).length = [] ∧ hashCur h next = none) ∨
    (∃ b' x, b' < h.bucketCnt ∧ next = ⟨b', some 1⟩ ∧ hashCur h next = some x ∧
      1 ≤ (h.buckets b').length ∧ restFrom h b (h.buckets b).length = x :: restFrom h b' 1) := by
  intro fuel
  induction fuel with
  | zero =>
      intro b hb hfuel
      omega
  | succ fuel ih =>
      intro b hb hfuel
      simp only [skipEnds, if_true]
      by_cases hlast : h.bucketCnt ≤ b + 1
      · rw [if_pos hlast]
        refine .inl ⟨?_, rfl⟩
        have h0 : h.bucketCnt - (b + 1) = 0 := by omega
        rw [restFrom, List.drop_length, h0]
        rfl
      · rw [if_neg hlast]
        -- the rest after bucket `b` is what bucket `b + 1` begins
        have hrest : restFrom h b (h.buckets b).length = restFrom h (b + 1) 0 := by
          have hcnt : h.bucketCnt - (b + 1) = h.bucketCnt - (b + 1 + 1) + 1 := by omega
          rw [restFrom, restFrom, List.drop_length, List.nil_append, List.drop_zero, hcnt,
            List.range'_succ, List.flatMap_cons]
        rw [hrest]
        cases hbucket : h.buckets (b + 1) with
        | nil =>
            have hnext := ih (b + 1) (by omega) (by omega)
            rw [hbucket] at hnext
            exact hnext
        | cons x l =>
            have hstay : skipEnds h fuel ⟨b + 1, some 1⟩ = ⟨b + 1, some 1⟩ := by
              cases fuel with
              | zero => rfl
              | succ fuel =>
                  rw [skipEnds, if_neg]
                  simp [hbucket]
            rw [hstay]
            refine .inr ⟨b + 1, x, by omega, rfl, ?_, ?_, ?_⟩
            · simp [hashCur, hbucket]
            · simp [hbucket]
            · rw [restFrom, restFrom, hbucket]
              rfl

/-- **An iteration visits the rest of the elements in order.** -/
theorem visit_restFrom : ∀ (fuel b pos : ℕ), b < h.bucketCnt → pos ≤ (h.buckets b).length →
    (restFrom h b pos).length < fuel → visit h fuel ⟨b, some pos⟩ = some (restFrom h b pos) := by
  intro fuel
  induction fuel with
  | zero =>
      intro b pos _ _ hfuel
      omega
  | succ fuel ih =>
      intro b pos hb hpos hfuel
      rw [visit, hashNext]
      simp only
      rcases Nat.lt_or_ge pos (h.buckets b).length with hlt | hge
      · -- there is another element in the bucket
        have hstay : skipEnds h h.bucketCnt ⟨b, some (pos + 1)⟩ = ⟨b, some (pos + 1)⟩ := by
          cases hcnt : h.bucketCnt with
          | zero => omega
          | succ n =>
              rw [skipEnds, if_neg]
              simp only [Option.some.injEq]
              omega
        have hcur : hashCur h ⟨b, some (pos + 1)⟩ = some (h.buckets b)[pos] := by
          simp [hashCur, hlt]
        have hcons : restFrom h b pos = (h.buckets b)[pos] :: restFrom h b (pos + 1) := by
          rw [restFrom, restFrom, List.drop_eq_getElem_cons hlt]
          rfl
        rw [hcons, List.length_cons] at hfuel
        rw [hstay, hcur, hcons]
        simp only
        rw [ih b (pos + 1) hb hlt (by omega)]
        rfl
      · have hend : pos = (h.buckets b).length := by omega
        subst hend
        rcases skipEnds_end h.bucketCnt b hb (by omega) with ⟨hnil, hcur⟩ | ⟨b', x, hb', hnext, hcur, hpos', hrest⟩
        · rw [hcur, hnil]
        · rw [hcur, hnext, hrest]
          rw [hrest, List.length_cons] at hfuel
          simp only
          rw [ih b' 1 hb' hpos' (by omega)]
          rfl

/-- **`hash_first` and repeated `hash_next` visit the whole table.** -/
theorem visit_contents (inv : HashInv k h) : visit h (h.elemCnt + 1) hashFirst = some (contents h) := by
  have hrest : restFrom h 0 0 = contents h := by
    have hcnt : h.bucketCnt = h.bucketCnt - 1 + 1 := by
      have := inv.pos
      omega
    rw [restFrom, contents, List.range_eq_range', hcnt, List.range'_succ, List.flatMap_cons, List.drop_zero]
    simp
  rw [← hrest]
  refine visit_restFrom _ 0 0 inv.pos (Nat.zero_le _) ?_
  rw [hrest, inv.count]
  omega

end Iterate

/-! ## Runs -/

/-- A call, and whether `malloc` succeeds if it rehashes. -/
structure HashCall (α : Type) where
  op : SetOp α
  memory : Bool

/-- What a call returns and leaves. -/
def Hash.call (k : Keys α) (h : Hash α) (c : HashCall α) : Option α × Hash α :=
  match c.op with
  | .insert new => hashInsert k c.memory h new
  | .replace new => hashReplace k c.memory h new
  | .find e => (hashFind k h e, h)
  | .delete e => hashDelete k c.memory h e
  | .clear => (none, hashClear h)

/-- The table after a call. -/
def Hash.after (k : Keys α) (h : Hash α) (c : HashCall α) : Hash α := (h.call k c).2

/-- **The table is in order.** -/
structure HashOk (k : Keys α) (h : Hash α) : Prop where
  /-- There is at most one element of each class. -/
  one : OnePerClass (fun a b => k.same a b = true) (elems h)
  /-- The elements are counted. -/
  count : h.elemCnt = (elems h).card
  /-- The number of buckets is a power of 2, and at least 4. -/
  power : 4 ≤ h.bucketCnt ∧ ∃ n, h.bucketCnt = 2 ^ n
  /-- Each element is in the bucket its hash value selects, and in no other. -/
  placed : ∀ e i, i < h.bucketCnt → (e ∈ h.buckets i ↔ e ∈ elems h ∧ bucketIdx k h.bucketCnt e = i)
  /-- An iteration visits every element once. -/
  visits : ∃ l, visit h (h.elemCnt + 1) hashFirst = some l ∧ l.Nodup ∧ l.toFinset = elems h

/-- **The call does what it should do to a set**: it returns and leaves what the set operation
prescribes, and nothing else is prescribed. -/
def CallOk (k : Keys α) (h : Hash α) (c : HashCall α) : Prop :=
  ∀ r S, SetStep (fun a b => k.same a b = true) (elems h) c.op r S ↔
    r = (h.call k c).1 ∧ S = elems (h.after k c)

section Runs

variable {k : Keys α} {h : Hash α}

theorem hashOk_of_inv (inv : HashInv k h) (one : OnePerClass (fun a b => k.same a b = true) (elems h)) :
    HashOk k h := by
  refine ⟨one, ?_, ?_, fun e i hi => ⟨fun he => ?_, fun he => ?_⟩, ⟨_, visit_contents inv, inv.nodup, rfl⟩⟩
  · rw [inv.count, elems, List.toFinset_card_of_nodup inv.nodup]
  · obtain ⟨n, hn, e⟩ := inv.power
    refine ⟨?_, n, e⟩
    rw [e]
    show 2 ^ 2 ≤ 2 ^ n
    exact Nat.pow_le_pow_right (by decide) hn
  · exact ⟨mem_elems.mpr (mem_contents.mpr ⟨i, hi, he⟩), inv.placed i hi e he⟩
  · obtain ⟨j, hj, hmem⟩ := mem_contents.mp (mem_elems.mp he.1)
    have hij : j = i := by rw [← inv.placed j hj e hmem, he.2]
    exact hij ▸ hmem

/-- **A call** keeps the table in order, and takes its elements from one set to the next. -/
theorem call_spec (hk : k.Lawful) (inv : HashInv k h)
    (one : OnePerClass (fun a b => k.same a b = true) (elems h)) (c : HashCall α) :
    HashInv k (h.after k c) ∧
      SetStep (fun a b => k.same a b = true) (elems h) c.op (h.call k c).1 (elems (h.after k c)) := by
  obtain ⟨op, memory⟩ := c
  have equiv := hk.equivalence
  have absent : ∀ {h : Hash α} {e : α}, (∀ x ∈ elems h, ¬ k.same x e = true) → e ∉ contents h :=
    fun hnone he => hnone _ (mem_elems.mpr he) (equiv.refl _)
  cases op with
  | find e =>
      refine ⟨inv, fun e' he => ?_, nofun, rfl⟩
      cases he
      exact stands_findElem hk inv e
  | clear =>
      have hnil : contents (hashClear h) = [] := contents_nil ..
      refine ⟨⟨inv.power, fun i _ e he => absurd he List.not_mem_nil, ?_, ?_⟩, nofun, fun _ => rfl, ?_⟩
      · show (contents (hashClear h)).Nodup
        rw [hnil]
        exact List.nodup_nil
      · show 0 = (contents (hashClear h)).length
        rw [hnil]
        rfl
      · show elems (hashClear h) = _
        rw [elems, hnil]
        rfl
  | insert new =>
      have hstands := stands_findElem hk inv new
      show HashInv k (hashInsert k memory h new).2 ∧ SetStep _ _ _ (hashInsert k memory h new).1
        (elems (hashInsert k memory h new).2)
      unfold hashInsert
      cases hf : findElem k h new with
      | none =>
          rw [hf] at hstands
          obtain ⟨inv', helems⟩ := insertElem_spec inv (absent hstands)
          refine ⟨(rehash_spec inv' memory).1, fun e he => ?_, nofun, ?_⟩
          · cases he
            exact hstands
          · rw [elems_rehash inv', helems]
            rfl
      | some old =>
          rw [hf] at hstands
          refine ⟨(rehash_spec inv memory).1, fun e he => ?_, nofun, elems_rehash inv memory⟩
          cases he
          exact hstands
  | replace new =>
      have hstands := stands_findElem hk inv new
      show HashInv k (hashReplace k memory h new).2 ∧ SetStep _ _ _ (hashReplace k memory h new).1
        (elems (hashReplace k memory h new).2)
      unfold hashReplace
      cases hf : findElem k h new with
      | none =>
          rw [hf] at hstands
          obtain ⟨inv', helems⟩ := insertElem_spec inv (absent hstands)
          refine ⟨(rehash_spec inv' memory).1, fun e he => ?_, nofun, ?_⟩
          · cases he
            exact hstands
          · rw [elems_rehash inv', helems]
            rfl
      | some old =>
          rw [hf] at hstands
          obtain ⟨inv1, helems1⟩ := removeElem_spec inv (mem_elems.mp hstands.1)
          -- without the old element, the class of the new one has none
          have hnone := one.none_of_erase equiv hstands.1 hstands.2
          rw [← helems1] at hnone
          obtain ⟨inv', helems⟩ := insertElem_spec inv1 (absent hnone)
          refine ⟨(rehash_spec inv' memory).1, fun e he => ?_, nofun, ?_⟩
          · cases he
            exact hstands
          · rw [elems_rehash inv', helems, helems1]
            rfl
  | delete e =>
      have hstands := stands_findElem hk inv e
      show HashInv k (hashDelete k memory h e).2 ∧ SetStep _ _ _ (hashDelete k memory h e).1
        (elems (hashDelete k memory h e).2)
      unfold hashDelete
      cases hf : findElem k h e with
      | none =>
          rw [hf] at hstands
          refine ⟨inv, fun e' he => ?_, nofun, rfl⟩
          cases he
          exact hstands
      | some found =>
          rw [hf] at hstands
          obtain ⟨inv', helems⟩ := removeElem_spec inv (mem_elems.mp hstands.1)
          refine ⟨(rehash_spec inv' memory).1, fun e' he => ?_, nofun, ?_⟩
          · cases he
            exact hstands
          · rw [elems_rehash inv', helems]
            rfl

omit [DecidableEq α] in
theorem hashInv_init : HashInv k (hashInit : Hash α) := by
  have hnil : contents (hashInit : Hash α) = [] := contents_nil ..
  refine ⟨⟨2, le_rfl, rfl⟩, fun _ _ e he => absurd he List.not_mem_nil, ?_, ?_⟩
  · rw [hnil]
    exact List.nodup_nil
  · rw [hnil]
    rfl

end Runs

/-- **The hash table is a set with one element of each class**, throughout every run of calls,
whether `malloc` succeeds or not. -/
theorem hash_of_run (k : Keys α) (lawful : k.Lawful) (calls : List (HashCall α)) :
    Always (Hash.after k) (HashOk k) hashInit calls ∧ Along (Hash.after k) (CallOk k) hashInit calls := by
  have equiv := lawful.equivalence
  have hstep : ∀ (h : Hash α) (c : HashCall α),
      HashInv k h ∧ OnePerClass (fun a b => k.same a b = true) (elems h) → True →
      HashInv k (h.after k c) ∧ OnePerClass (fun a b => k.same a b = true) (elems (h.after k c)) := by
    intro h c hinv _
    obtain ⟨inv', hset⟩ := call_spec lawful hinv.1 hinv.2 c
    exact ⟨inv', hset.onePerClass equiv hinv.2⟩
  have free : ∀ (calls : List (HashCall α)) (h : Hash α), Along (Hash.after k) (fun _ _ => True) h calls := by
    intro calls
    induction calls with
    | nil => exact fun _ => trivial
    | cons c calls ih => exact fun h => ⟨trivial, ih _⟩
  have hinv := Always.of_along hstep calls hashInit
    ⟨hashInv_init, fun a ha => by simp [elems, hashInit, contents_nil] at ha⟩ (free calls _)
  refine ⟨Always.mono (fun h hh => hashOk_of_inv hh.1 hh.2) calls _ hinv,
    Along.of_always_before (fun h c hh _ r S => ?_) calls _ hinv (free calls _)⟩
  obtain ⟨-, hset⟩ := call_spec lawful hh.1 hh.2 c
  constructor
  · exact fun hother => hother.unique equiv hh.2 hset
  · rintro ⟨rfl, rfl⟩
    exact hset

/-- Numbers that are equal if their last digits are. -/
def lastDigit : Keys ℕ := ⟨fun a => UInt32.ofNat (a % 10), fun a b => a % 10 < b % 10⟩

theorem lastDigit_same {a b : ℕ} : lastDigit.same a b = true ↔ a % 10 = b % 10 := by
  simp only [Keys.same, lastDigit, Bool.and_eq_true, Bool.not_eq_true', decide_eq_false_iff_not]
  omega

theorem lastDigit_lawful : lastDigit.Lawful := by
  refine ⟨fun a => by simp [lastDigit], fun a b c => ?_, fun a b c => ?_, fun a b => ?_⟩
  · simp only [lastDigit, decide_eq_true_eq]
    omega
  · simp only [lastDigit_same]
    omega
  · rw [lastDigit_same]
    intro e
    simp only [lastDigit, e]

/-- The second 3 replaces the first, and the table does not find memory. -/
theorem hash_of_small_run :
    lastDigit.Lawful ∧ Always (Hash.after lastDigit) (HashOk lastDigit) hashInit
      [⟨.insert 3, true⟩, ⟨.insert 14, true⟩, ⟨.replace 13, false⟩, ⟨.delete 4, true⟩] := by
  exact ⟨lastDigit_lawful, (hash_of_run lastDigit lastDigit_lawful _).1⟩

end Pintos.Containers
