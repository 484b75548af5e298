import Pintos.Lib.Command
import Pintos.Lib.Linked

/-!
# Doubly linked lists

`lib/kernel/list.c`, the same in both kernels, at the level of pointers.  A `struct list_elem`
is two pointers somewhere in memory, mostly inside a bigger structure; a `struct list` is two of
them, `head` and `tail`, eight bytes apart.

The heap maps an address to the `struct list_elem` there, if there is one, and to the structure
around it, if that is an entry: a sentinel has none.  Code that follows a pointer to nothing
stops, and so does `list_entry` on a sentinel.

* **`IsList h l xs`** — the list at `l` is well formed and has the elements `xs`.
* **`listPushBack_spec`** — an element is put at the end.
* **`listNext_tail`** — from the tail there is no way on.
-/

namespace Pintos.Containers

open Lib

/-! ## The heap -/

/-- `struct list_elem`. -/
structure Elem where
  prev : ℕ
  next : ℕ
deriving DecidableEq, Repr

/-- Memory, as far as lists see it.  `data` holds the structures that list elements are in. -/
structure Heap (ν : Type) where
  elem : ℕ → Option Elem
  data : ℕ → Option ν

/-- How code on lists may end without returning. -/
inductive ListStop where
  /-- A failed `ASSERT`. -/
  | assertFailed
  /-- A pointer to memory that is not, or no longer, in use. -/
  | dangling
  /-- `list_entry` on something that is in no structure. -/
  | notEntry
  /-- A loop that does not come to its end. -/
  | unending
deriving DecidableEq, Repr

/-- Code on lists. -/
abbrev ListCode (ν α : Type) : Type := EStateM ListStop (Heap ν) α

section

variable {ν : Type}

namespace Heap

/-- `elem->prev`. -/
def prev (h : Heap ν) (a : ℕ) : Option ℕ := (h.elem a).map (·.prev)

/-- `elem->next`. -/
def next (h : Heap ν) (a : ℕ) : Option ℕ := (h.elem a).map (·.next)

/-- A `struct list_elem` is stored. -/
def setElem (h : Heap ν) (a : ℕ) (e : Elem) : Heap ν :=
  { h with elem := Function.update h.elem a (some e) }

/-- A new structure, which starts with a `struct list_elem` nobody has set. -/
def alloc (h : Heap ν) (a : ℕ) (junk : Elem) (v : ν) : Heap ν where
  elem := Function.update h.elem a (some junk)
  data := Function.update h.data a (some v)

@[simp] theorem setElem_elem (h : Heap ν) (a : ℕ) (e : Elem) :
    (h.setElem a e).elem = Function.update h.elem a (some e) := rfl

@[simp] theorem setElem_data (h : Heap ν) (a : ℕ) (e : Elem) : (h.setElem a e).data = h.data := rfl

@[simp] theorem setElem_next (h : Heap ν) (a : ℕ) (e : Elem) :
    (h.setElem a e).next = Function.update h.next a (some e.next) := by
  funext b
  by_cases hb : b = a
  · subst hb
    simp [next]
  · simp [next, Function.update_of_ne hb]

@[simp] theorem setElem_prev (h : Heap ν) (a : ℕ) (e : Elem) :
    (h.setElem a e).prev = Function.update h.prev a (some e.prev) := by
  funext b
  by_cases hb : b = a
  · subst hb
    simp [prev]
  · simp [prev, Function.update_of_ne hb]

theorem setElem_setElem (h : Heap ν) (a : ℕ) (e e' : Elem) :
    (h.setElem a e).setElem a e' = h.setElem a e' := by
  simp [setElem]

theorem alloc_eq (h : Heap ν) (a : ℕ) (junk : Elem) (v : ν) :
    h.alloc a junk v = { h with data := Function.update h.data a (some v) }.setElem a junk := rfl

/-- The structure is given back. -/
def drop (h : Heap ν) (a : ℕ) : Heap ν where
  elem := Function.update h.elem a none
  data := Function.update h.data a none

end Heap

/-! ## The functions of `list.c` -/

/-- Follow a pointer to a list element. -/
def getElem (a : ℕ) : ListCode ν Elem := do
  match ← fetch fun h => h.elem a with
  | some e => pure e
  | none => stop .dangling

/-- `ASSERT`. -/
def listAssert (c : Bool) : ListCode ν Unit := if c then pure () else stop .assertFailed

/-- `elem->prev = p`. -/
def setPrev (a p : ℕ) : ListCode ν Unit := do
  let e ← getElem a
  change fun h => h.setElem a { e with prev := p }

/-- `elem->next = p`. -/
def setNext (a p : ℕ) : ListCode ν Unit := do
  let e ← getElem a
  change fun h => h.setElem a { e with next := p }

/-- `is_head`. -/
def isHead (a : ℕ) : ListCode ν Bool :=
  if a = 0 then pure false
  else do
    let e ← getElem a
    return e.prev = 0 && e.next ≠ 0

/-- `is_interior`. -/
def isInterior (a : ℕ) : ListCode ν Bool :=
  if a = 0 then pure false
  else do
    let e ← getElem a
    return e.prev ≠ 0 && e.next ≠ 0

/-- `is_tail`. -/
def isTail (a : ℕ) : ListCode ν Bool :=
  if a = 0 then pure false
  else do
    let e ← getElem a
    return e.prev ≠ 0 && e.next = 0

/-- `list_init`. -/
def listInit (l : ℕ) : ListCode ν Unit := do
  listAssert (l ≠ 0)
  change fun h => (h.setElem l ⟨0, l + 8⟩).setElem (l + 8) ⟨l, 0⟩

/-- `list_begin`. -/
def listBegin (l : ℕ) : ListCode ν ℕ := do
  listAssert (l ≠ 0)
  let e ← getElem l
  return e.next

/-- `list_end`. -/
def listEnd (l : ℕ) : ℕ := l + 8

/-- `list_next`. -/
def listNext (a : ℕ) : ListCode ν ℕ := do
  let head ← isHead a
  let interior ← isInterior a
  listAssert (head || interior)
  let e ← getElem a
  return e.next

/-- `list_insert`. -/
def listInsert (before a : ℕ) : ListCode ν Unit := do
  let interior ← isInterior before
  let tail ← isTail before
  listAssert (interior || tail)
  listAssert (a ≠ 0)
  setPrev a (← getElem before).prev
  setNext a before
  setNext (← getElem before).prev a
  setPrev before a

/-- `list_push_back`. -/
def listPushBack (l a : ℕ) : ListCode ν Unit := listInsert (listEnd l) a

/-- `list_remove`. -/
def listRemove (a : ℕ) : ListCode ν ℕ := do
  let interior ← isInterior a
  listAssert interior
  setNext (← getElem a).prev (← getElem a).next
  setPrev (← getElem a).next (← getElem a).prev
  return (← getElem a).next

/-- `list_entry`, and the first use of the structure. -/
def listEntry (a : ℕ) : ListCode ν ν := do
  let _ ← getElem a
  match ← fetch fun h => h.data a with
  | some v => pure v
  | none => stop .notEntry

/-! ## Well-formed lists -/

/-- The list at `l` has the elements `xs`. -/
structure IsList (h : Heap ν) (l : ℕ) (xs : List ℕ) : Prop where
  chain : Linked h.next h.prev l xs (listEnd l)
  first : h.prev l = some 0
  last : h.next (listEnd l) = some 0
  nodup : (l :: xs ++ [listEnd l]).Nodup
  nonnull : 0 ∉ l :: xs ++ [listEnd l]
  entries : ∀ x ∈ xs, ∃ v, h.data x = some v
  head : h.data l = none
  tail : h.data (listEnd l) = none

section Steps

variable {α : Type} {h : Heap ν} {a l p q : ℕ} {xs : List ℕ}

theorem elem_of (hp : h.prev a = some p) (hq : h.next a = some q) : h.elem a = some ⟨p, q⟩ := by
  cases he : h.elem a with
  | none => simp [Heap.prev, he] at hp
  | some e =>
      simp only [Heap.prev, Heap.next, he, Option.map_some, Option.some.injEq] at hp hq
      rw [← hp, ← hq]

theorem getElem_run {e : Elem} (he : h.elem a = some e) : (getElem a : ListCode ν Elem) h = .ok e h := by
  simp [getElem, he]

theorem getElem_bind {e : Elem} (he : h.elem a = some e) (f : Elem → ListCode ν α) :
    (getElem a >>= f) h = f e h := bind_of_ok (getElem_run he)

theorem getElem_none (he : h.elem a = none) : (getElem a : ListCode ν Elem) h = .error .dangling h := by
  simp [getElem, he]

theorem listEntry_run {v : ν} {e : Elem} (he : h.elem a = some e) (hv : h.data a = some v) :
    (listEntry a : ListCode ν ν) h = .ok v h := by
  rw [listEntry, getElem_bind he]
  simp [hv]

theorem listEntry_none {e : Elem} (he : h.elem a = some e) (hv : h.data a = none) :
    (listEntry a : ListCode ν ν) h = .error .notEntry h := by
  rw [listEntry, getElem_bind he]
  simp [hv]

theorem setPrev_bind {e : Elem} (he : h.elem a = some e) (f : Unit → ListCode ν α) :
    (setPrev a p >>= f) h = f () (h.setElem a ⟨p, e.next⟩) := by
  rw [setPrev, bind_assoc, getElem_bind he]
  rfl

theorem setNext_bind {e : Elem} (he : h.elem a = some e) (f : Unit → ListCode ν α) :
    (setNext a p >>= f) h = f () (h.setElem a ⟨e.prev, p⟩) := by
  rw [setNext, bind_assoc, getElem_bind he]
  rfl

theorem isHead_bind {e : Elem} (he : h.elem a = some e) (ha : a ≠ 0) (f : Bool → ListCode ν α) :
    (isHead a >>= f) h = f (e.prev = 0 && e.next ≠ 0) h := by
  rw [isHead, if_neg ha, bind_assoc, getElem_bind he]
  rfl

theorem isInterior_bind {e : Elem} (he : h.elem a = some e) (ha : a ≠ 0) (f : Bool → ListCode ν α) :
    (isInterior a >>= f) h = f (e.prev ≠ 0 && e.next ≠ 0) h := by
  rw [isInterior, if_neg ha, bind_assoc, getElem_bind he]
  rfl

theorem isTail_bind {e : Elem} (he : h.elem a = some e) (ha : a ≠ 0) (f : Bool → ListCode ν α) :
    (isTail a >>= f) h = f (e.prev ≠ 0 && e.next = 0) h := by
  rw [isTail, if_neg ha, bind_assoc, getElem_bind he]
  rfl

theorem listAssert_bind {c : Bool} (hc : c = true) (f : Unit → ListCode ν α) :
    (listAssert c >>= f) h = f () h := by
  rw [hc]
  rfl

theorem listAssert_fail {c : Bool} (hc : c = false) (f : Unit → ListCode ν α) :
    (listAssert c >>= f) h = .error .assertFailed h := by
  rw [hc]
  rfl

/-- The step from an element that has one behind it. -/
theorem listNext_run {e : Elem} (he : h.elem a = some e) (ha : a ≠ 0) (hn : e.next ≠ 0) :
    (listNext a : ListCode ν ℕ) h = .ok e.next h := by
  have hassert : (decide (e.prev = 0) && decide (e.next ≠ 0) ||
      (decide (e.prev ≠ 0) && decide (e.next ≠ 0))) = true := by
    by_cases hp : e.prev = 0 <;> simp [hp, hn]
  rw [listNext, isHead_bind he ha, isInterior_bind he ha, listAssert_bind hassert, getElem_bind he]
  rfl

/-- From freed memory there is no way on. -/
theorem listNext_freed (he : h.elem a = none) (ha : a ≠ 0) :
    (listNext a : ListCode ν ℕ) h = .error .dangling h := by
  have hhead : (isHead a : ListCode ν Bool) h = .error .dangling h := by
    rw [isHead, if_neg ha]
    exact bind_of_error (getElem_none he)
  exact bind_of_error hhead

namespace IsList

/-- The head, with the element behind it. -/
theorem elem_head (w : IsList h l xs) :
    ∃ q ∈ xs ++ [listEnd l], h.elem l = some ⟨0, q⟩ ∧ q ≠ 0 := by
  obtain ⟨q, hq, hnext⟩ := w.chain.next_mem (List.mem_cons_self (a := l) (l := xs))
  refine ⟨q, hq, elem_of w.first hnext, ?_⟩
  rintro rfl
  exact w.nonnull (List.mem_cons_of_mem _ hq)

/-- The tail, with the element before it. -/
theorem elem_tail (w : IsList h l xs) :
    ∃ p ∈ l :: xs, h.elem (listEnd l) = some ⟨p, 0⟩ ∧ p ≠ 0 := by
  obtain ⟨p, hp, hprev⟩ := w.chain.prev_mem (List.mem_append_right xs (List.mem_singleton_self _))
  refine ⟨p, hp, elem_of hprev w.last, ?_⟩
  rintro rfl
  exact w.nonnull (List.mem_append_left _ hp)

/-- A list is a matter of its own pointers. -/
theorem congr {h' : Heap ν} (w : IsList h l xs)
    (elem : ∀ y ∈ l :: xs ++ [listEnd l], h'.elem y = h.elem y) (data : h'.data = h.data) :
    IsList h' l xs := by
  have next : ∀ y ∈ l :: xs ++ [listEnd l], h'.next y = h.next y := fun y hy => by
    rw [Heap.next, Heap.next, elem y hy]
  have prev : ∀ y ∈ l :: xs ++ [listEnd l], h'.prev y = h.prev y := fun y hy => by
    rw [Heap.prev, Heap.prev, elem y hy]
  refine ⟨w.chain.congr (fun y hy => next y (List.mem_append_left _ hy))
    (fun y hy => prev y (List.mem_cons_of_mem _ hy)), (prev l (by simp)).trans w.first,
    (next _ (by simp)).trans w.last, w.nodup, w.nonnull, ?_, ?_, ?_⟩
  · rw [data]
    exact w.entries
  · rw [data]
    exact w.head
  · rw [data]
    exact w.tail

theorem ne_null (w : IsList h l xs) {x : ℕ} (hx : x ∈ l :: xs ++ [listEnd l]) : x ≠ 0 := by
  rintro rfl
  exact w.nonnull hx

end IsList

/-- **From the tail there is no way on.** -/
theorem listNext_tail (w : IsList h l xs) :
    (listNext (listEnd l) : ListCode ν ℕ) h = .error .assertFailed h := by
  obtain ⟨p, -, he, hp⟩ := w.elem_tail
  have hne : listEnd l ≠ 0 := w.ne_null (by simp)
  rw [listNext, isHead_bind he hne, isInterior_bind he hne, listAssert_fail (by simp [hp])]

/-- The tail cannot be removed. -/
theorem listRemove_tail (w : IsList h l xs) :
    (listRemove (listEnd l) : ListCode ν ℕ) h = .error .assertFailed h := by
  obtain ⟨p, -, he, -⟩ := w.elem_tail
  have hne : listEnd l ≠ 0 := w.ne_null (by simp)
  rw [listRemove, isInterior_bind he hne, listAssert_fail (by simp)]

end Steps

/-! ## Building a list -/

section Build

variable {h : Heap ν} {l x : ℕ} {xs : List ℕ}

/-- Memory as `list_init` needs it. -/
def RoomFor (h : Heap ν) (l : ℕ) : Prop := l ≠ 0 ∧ h.data l = none ∧ h.data (listEnd l) = none

/-- `list_init`. -/
theorem listInit_spec (room : RoomFor h l) :
    ∃ h', (listInit l : ListCode ν Unit) h = .ok () h' ∧ IsList h' l [] ∧ h'.data = h.data ∧
      ∀ y ∉ [l, listEnd l], h'.elem y = h.elem y := by
  obtain ⟨hl, hhead, htail⟩ := room
  have hne : l ≠ l + 8 := by omega
  refine ⟨(h.setElem l ⟨0, l + 8⟩).setElem (l + 8) ⟨l, 0⟩, ?_,
    ⟨⟨?_, ?_⟩, ?_, ?_, ?_, ?_, ?_, hhead, htail⟩, rfl, fun y hy => ?_⟩
  · rw [listInit, listAssert_bind (by simpa using hl)]
    rfl
  · simp [listEnd]
  · simp [listEnd]
  · simp
  · simp [listEnd]
  · simp [listEnd]
  · simp [listEnd, Ne.symm hl]
  · simp
  · simp only [List.mem_cons, List.not_mem_nil, or_false, not_or, listEnd] at hy
    simp [Function.update_of_ne hy.1, Function.update_of_ne hy.2]

/-- What becomes of memory when `x` is put before the tail, behind `p`, which has `q` before it. -/
def Heap.pushed (h : Heap ν) (l x p q : ℕ) : Heap ν :=
  ((h.setElem x ⟨p, listEnd l⟩).setElem p ⟨q, x⟩).setElem (listEnd l) ⟨x, 0⟩

/-- The element before the tail. -/
theorem IsList.before_tail (w : IsList h l xs) : ∃ p q, p ∈ l :: xs ∧ p ≠ 0 ∧
    h.elem (listEnd l) = some ⟨p, 0⟩ ∧ h.elem p = some ⟨q, listEnd l⟩ := by
  obtain ⟨p, hp, htail, hp0⟩ := w.elem_tail
  obtain ⟨z, ws, e, hnext, hprev⟩ := w.chain.exists_last
  have hz : z = p := by
    have : h.prev (listEnd l) = some p := by simp [Heap.prev, htail]
    exact Option.some.inj (hprev.symm.trans this)
  subst hz
  cases he : h.elem z with
  | none => simp [Heap.next, he] at hnext
  | some e =>
      refine ⟨z, e.prev, hp, hp0, htail, ?_⟩
      simp only [Heap.next, he, Option.map_some, Option.some.injEq] at hnext
      rw [he, ← hnext]

/-- `list_push_back`, as four stores. -/
theorem listPushBack_run {e : Elem} {p q : ℕ} (hend : listEnd l ≠ 0) (h0 : x ≠ 0) (hp0 : p ≠ 0)
    (hxe : x ≠ listEnd l) (hxp : x ≠ p) (hpe : p ≠ listEnd l) (htail : h.elem (listEnd l) = some ⟨p, 0⟩)
    (hp : h.elem p = some ⟨q, listEnd l⟩) (hx : h.elem x = some e) :
    (listPushBack l x : ListCode ν Unit) h = .ok () (h.pushed l x p q) := by
  have h1 : (h.setElem x ⟨p, e.next⟩).elem x = some ⟨p, e.next⟩ := Function.update_self ..
  have h2 : (h.setElem x ⟨p, listEnd l⟩).elem (listEnd l) = some ⟨p, 0⟩ := by
    rw [Heap.setElem_elem, Function.update_of_ne (Ne.symm hxe), htail]
  have h3 : (h.setElem x ⟨p, listEnd l⟩).elem p = some ⟨q, listEnd l⟩ := by
    rw [Heap.setElem_elem, Function.update_of_ne (Ne.symm hxp), hp]
  have h4 : ((h.setElem x ⟨p, listEnd l⟩).setElem p ⟨q, x⟩).elem (listEnd l) = some ⟨p, 0⟩ := by
    rw [Heap.setElem_elem, Function.update_of_ne (Ne.symm hpe), h2]
  rw [listPushBack, listInsert, isInterior_bind htail hend, isTail_bind htail hend,
    listAssert_bind (by simp [hp0]), listAssert_bind (by simpa using h0), getElem_bind htail,
    setPrev_bind hx, setNext_bind h1, Heap.setElem_setElem, getElem_bind h2, setNext_bind h3, setPrev,
    getElem_bind h4]
  rfl

/-- **`list_push_back`** of a new entry. -/
theorem listPushBack_spec (w : IsList h l xs) (junk : Elem) (v : ν) (hx : x ∉ l :: xs ++ [listEnd l])
    (h0 : x ≠ 0) :
    ∃ h', (listPushBack l x : ListCode ν Unit) (h.alloc x junk v) = .ok () h' ∧
      IsList h' l (xs ++ [x]) ∧ h'.data = Function.update h.data x (some v) ∧
      ∀ y ∉ l :: xs ++ [listEnd l], y ≠ x → h'.elem y = h.elem y := by
  obtain ⟨p, q, hp, hp0, htail, hpelem⟩ := w.before_tail
  have hend : listEnd l ≠ 0 := w.ne_null (by simp)
  have hxe : x ≠ listEnd l := fun e => hx (by simp [e])
  have hxp : x ≠ p := fun e => hx (List.mem_append_left _ (e ▸ hp))
  have hxl : x ≠ l := fun e => hx (by simp [e])
  have hpe : p ≠ listEnd l := fun e =>
    (List.nodup_append.mp w.nodup).2.2 p hp (listEnd l) (by simp) e
  have hrun := listPushBack_run (h := h.alloc x junk v) (e := junk) hend h0 hp0 hxe hxp hpe
    ((Function.update_of_ne (Ne.symm hxe) _ _).trans htail)
    ((Function.update_of_ne (Ne.symm hxp) _ _).trans hpelem) (Function.update_self ..)
  have hnext : ((h.alloc x junk v).pushed l x p q).next =
      Function.update (Function.update h.next x (some (listEnd l))) p (some x) := by
    funext y
    rw [Heap.pushed, Heap.alloc_eq, Heap.setElem_setElem]
    by_cases hy : y = listEnd l
    · subst hy
      simp [Function.update_of_ne (Ne.symm hpe), Function.update_of_ne (Ne.symm hxe), w.last]
    · simp [Function.update_of_ne hy]
      rfl
  have hprev : ((h.alloc x junk v).pushed l x p q).prev =
      Function.update (Function.update h.prev x (some p)) (listEnd l) (some x) := by
    funext y
    rw [Heap.pushed, Heap.alloc_eq, Heap.setElem_setElem]
    have hpq : h.prev p = some q := by simp [Heap.prev, hpelem]
    by_cases hy : y = p
    · subst hy
      simp [Function.update_of_ne hpe, Function.update_of_ne (Ne.symm hxp), hpq]
    · simp [Function.update_apply, hy]
      rfl
  have hprev_end : h.prev (listEnd l) = some p := by simp [Heap.prev, htail]
  refine ⟨_, hrun, ⟨?_, ?_, ?_, ?_, ?_, ?_, ?_, ?_⟩, rfl, fun y hy hyx => ?_⟩
  · rw [hnext, hprev]
    exact w.chain.insert_last hprev_end w.nodup hx
  · have hle : l ≠ listEnd l := by simp [listEnd]
    rw [hprev, Function.update_of_ne hle, Function.update_of_ne (Ne.symm hxl)]
    exact w.first
  · rw [hnext, Function.update_of_ne (Ne.symm hpe), Function.update_of_ne (Ne.symm hxe)]
    exact w.last
  · have perm : (l :: (xs ++ [x]) ++ [listEnd l]).Perm (x :: (l :: xs ++ [listEnd l])) := by
      simp only [List.cons_append, List.append_assoc, List.nil_append]
      refine (List.Perm.cons l List.perm_middle).trans (List.Perm.swap ..)
    exact perm.nodup_iff.mpr (List.nodup_cons.mpr ⟨hx, w.nodup⟩)
  · intro h
    simp only [List.cons_append, List.append_assoc, List.nil_append, List.mem_cons, List.mem_append,
      List.not_mem_nil, or_false] at h
    have := w.nonnull
    simp only [List.cons_append, List.mem_cons, List.mem_append, List.not_mem_nil, or_false, not_or] at this
    tauto
  · intro y hy
    rcases List.mem_append.mp hy with hy | hy
    · obtain ⟨u, hu⟩ := w.entries y hy
      by_cases e : y = x
      · exact ⟨v, by rw [e]; exact Function.update_self ..⟩
      · exact ⟨u, (Function.update_of_ne e _ _).trans hu⟩
    · rw [List.mem_singleton.mp hy]
      exact ⟨v, Function.update_self ..⟩
  · exact (Function.update_of_ne (Ne.symm hxl) _ _).trans w.head
  · exact (Function.update_of_ne (Ne.symm hxe) _ _).trans w.tail
  · have hye : y ≠ listEnd l := fun e => hy (by simp [e])
    have hyp : y ≠ p := fun e => hy (List.mem_append_left _ (e ▸ hp))
    rw [Heap.pushed, Heap.alloc_eq, Heap.setElem_setElem]
    simp [Function.update_of_ne hye, Function.update_of_ne hyp, Function.update_of_ne hyx]

end Build

end

end Pintos.Containers
