import Pintos.Containers.List
import Pintos.Lib.Chain

/-!
# The other functions of `list.c`

What `lib/kernel/list.c` of `fs_PintOS` does to lists beyond `Pintos.Containers.List`, and when
a list is well formed as far as its pointers are concerned.  The comparison function is given the
addresses of two elements; it reads the structures around them, which no function of the list
changes, so it is a function of the addresses.  A loop has fuel, and stops as unending when there
is none left.

* **`ListAt h l xs`** — the pointers of the list at `l` are those of a list with the elements `xs`.
* **`ListAt.disjoint`** — two lists share nothing.
-/

namespace Pintos.Containers

open Lib

section

variable {ν : Type}

/-! ## Functions -/

/-- `list_prev`. -/
def listPrev (a : ℕ) : ListCode ν ℕ := do
  let interior ← isInterior a
  let tail ← isTail a
  listAssert (interior || tail)
  let e ← getElem a
  return e.prev

/-- `list_empty`. -/
def listEmpty (l : ℕ) : ListCode ν Bool := do
  return (← listBegin l) = listEnd l

/-- `list_front`. -/
def listFront (l : ℕ) : ListCode ν ℕ := do
  listAssert !(← listEmpty l)
  return (← getElem l).next

/-- `list_back`. -/
def listBack (l : ℕ) : ListCode ν ℕ := do
  listAssert !(← listEmpty l)
  return (← getElem (listEnd l)).prev

/-- `list_splice`. -/
def listSplice (before first last : ℕ) : ListCode ν Unit := do
  let interior ← isInterior before
  let tail ← isTail before
  listAssert (interior || tail)
  if first = last then pure ()
  else do
    let last ← listPrev last
    listAssert (← isInterior first)
    listAssert (← isInterior last)
    -- remove the range from its list
    setNext (← getElem first).prev (← getElem last).next
    setPrev (← getElem last).next (← getElem first).prev
    -- put it into the other
    setPrev first (← getElem before).prev
    setNext last before
    setNext (← getElem before).prev first
    setPrev before last

/-- `list_push_front`. -/
def listPushFront (l a : ℕ) : ListCode ν Unit := do
  listInsert (← listBegin l) a

/-- `list_pop_front`. -/
def listPopFront (l : ℕ) : ListCode ν ℕ := do
  let front ← listFront l
  let _ ← listRemove front
  return front

/-- `list_pop_back`. -/
def listPopBack (l : ℕ) : ListCode ν ℕ := do
  let back ← listBack l
  let _ ← listRemove back
  return back

/-- A `struct list_elem *` in memory: one of the two pointers of an element. -/
inductive Link where
  | prev (a : ℕ)
  | next (a : ℕ)
deriving DecidableEq, Repr

/-- The pointer there. -/
def Link.load : Link → ListCode ν ℕ
  | .prev a => do return (← getElem a).prev
  | .next a => do return (← getElem a).next

/-- A pointer is stored there. -/
def Link.store : Link → ℕ → ListCode ν Unit
  | .prev a, p => setPrev a p
  | .next a, p => setNext a p

/-- `swap`. -/
def swap (a b : Link) : ListCode ν Unit := do
  let t ← a.load
  a.store (← b.load)
  b.store t

/-- The loop of `list_reverse`. -/
def reverseLoop (l : ℕ) : ℕ → ℕ → ListCode ν Unit
  | 0, _ => stop .unending
  | fuel + 1, e =>
      if e = listEnd l then pure ()
      else do
        swap (.prev e) (.next e)
        reverseLoop l fuel (← getElem e).prev

/-- `list_reverse`. -/
def listReverse (fuel l : ℕ) : ListCode ν Unit := do
  if ← listEmpty l then pure ()
  else do
    reverseLoop l fuel (← listBegin l)
    swap (.next l) (.prev (listEnd l))
    swap (.prev (← getElem l).next) (.next (← getElem (listEnd l)).prev)

/-- The loop of `list_insert_ordered`: the element before which `a` belongs. -/
def findPlace (l a : ℕ) (less : ℕ → ℕ → Bool) : ℕ → ℕ → ListCode ν ℕ
  | 0, _ => stop .unending
  | fuel + 1, e =>
      if e = listEnd l then pure e
      else if less a e then pure e
      else do findPlace l a less fuel (← listNext e)

/-- `list_insert_ordered`. -/
def listInsertOrdered (fuel l a : ℕ) (less : ℕ → ℕ → Bool) : ListCode ν Unit := do
  listAssert (l ≠ 0)
  listAssert (a ≠ 0)
  let e ← findPlace l a less fuel (← listBegin l)
  listInsert e a

/-- The loop of `list_unique`. -/
def uniqueLoop (l duplicates : ℕ) (less : ℕ → ℕ → Bool) : ℕ → ℕ → ListCode ν Unit
  | 0, _ => stop .unending
  | fuel + 1, elem => do
      let next ← listNext elem
      if next = listEnd l then pure ()
      else if !less elem next && !less next elem then do
        let _ ← listRemove next
        if duplicates ≠ 0 then listPushBack duplicates next
        uniqueLoop l duplicates less fuel elem
      else uniqueLoop l duplicates less fuel next

/-- `list_unique`; `duplicates` may be null. -/
def listUnique (fuel l duplicates : ℕ) (less : ℕ → ℕ → Bool) : ListCode ν Unit := do
  listAssert (l ≠ 0)
  if ← listEmpty l then pure ()
  else do uniqueLoop l duplicates less fuel (← listBegin l)

/-! ## Stores -/

namespace Heap

variable {h : Heap ν} {a b p q : ℕ}

/-- There is an element. -/
def Mapped (h : Heap ν) (a : ℕ) : Prop := (h.elem a).isSome

/-- The heap after `a->prev = p`. -/
def withPrev (h : Heap ν) (a p : ℕ) : Heap ν :=
  { h with elem := Function.update h.elem a ((h.elem a).map fun e => { e with prev := p }) }

/-- The heap after `a->next = p`. -/
def withNext (h : Heap ν) (a p : ℕ) : Heap ν :=
  { h with elem := Function.update h.elem a ((h.elem a).map fun e => { e with next := p }) }

@[simp] theorem withPrev_data : (h.withPrev a p).data = h.data := rfl

@[simp] theorem withNext_data : (h.withNext a p).data = h.data := rfl

@[simp] theorem withPrev_next : (h.withPrev a p).next = h.next := by
  funext b
  by_cases hb : b = a
  · subst hb
    simp [next, withPrev, Option.map_map, Function.comp_def]
  · simp [next, withPrev, Function.update_of_ne hb]

@[simp] theorem withNext_prev : (h.withNext a p).prev = h.prev := by
  funext b
  by_cases hb : b = a
  · subst hb
    simp [prev, withNext, Option.map_map, Function.comp_def]
  · simp [prev, withNext, Function.update_of_ne hb]

theorem withPrev_prev (ha : h.Mapped a) : (h.withPrev a p).prev = Function.update h.prev a (some p) := by
  obtain ⟨e, he⟩ := Option.isSome_iff_exists.mp ha
  funext b
  by_cases hb : b = a
  · subst hb
    simp [prev, withPrev, he]
  · simp [prev, withPrev, Function.update_of_ne hb]

theorem withNext_next (ha : h.Mapped a) : (h.withNext a p).next = Function.update h.next a (some p) := by
  obtain ⟨e, he⟩ := Option.isSome_iff_exists.mp ha
  funext b
  by_cases hb : b = a
  · subst hb
    simp [next, withNext, he]
  · simp [next, withNext, Function.update_of_ne hb]

@[simp] theorem mapped_withPrev : (h.withPrev a p).Mapped b ↔ h.Mapped b := by
  by_cases hb : b = a
  · subst hb
    simp [Mapped, withPrev]
  · simp [Mapped, withPrev, Function.update_of_ne hb]

@[simp] theorem mapped_withNext : (h.withNext a p).Mapped b ↔ h.Mapped b := by
  by_cases hb : b = a
  · subst hb
    simp [Mapped, withNext]
  · simp [Mapped, withNext, Function.update_of_ne hb]

theorem withPrev_elem_of_ne (hb : b ≠ a) : (h.withPrev a p).elem b = h.elem b :=
  Function.update_of_ne hb _ _

theorem withNext_elem_of_ne (hb : b ≠ a) : (h.withNext a p).elem b = h.elem b :=
  Function.update_of_ne hb _ _

theorem mapped_of_next (hn : h.next a = some p) : h.Mapped a := by
  cases he : h.elem a with
  | none => simp [next, he] at hn
  | some e => simp [Mapped, he]

theorem mapped_of_prev (hp : h.prev a = some p) : h.Mapped a := by
  cases he : h.elem a with
  | none => simp [prev, he] at hp
  | some e => simp [Mapped, he]

end Heap

section Steps

variable {α : Type} {h : Heap ν} {a p q : ℕ}

theorem withPrev_bind (ha : h.Mapped a) (f : Unit → ListCode ν α) :
    (setPrev a p >>= f) h = f () (h.withPrev a p) := by
  obtain ⟨e, he⟩ := Option.isSome_iff_exists.mp ha
  rw [setPrev_bind he, Heap.setElem, Heap.withPrev, he]
  rfl

theorem withNext_bind (ha : h.Mapped a) (f : Unit → ListCode ν α) :
    (setNext a p >>= f) h = f () (h.withNext a p) := by
  obtain ⟨e, he⟩ := Option.isSome_iff_exists.mp ha
  rw [setNext_bind he, Heap.setElem, Heap.withNext, he]
  rfl

theorem setPrev_run (ha : h.Mapped a) : (setPrev a p : ListCode ν Unit) h = .ok () (h.withPrev a p) := by
  rw [← bind_pure (setPrev a p), withPrev_bind ha]
  rfl

theorem setNext_run (ha : h.Mapped a) : (setNext a p : ListCode ν Unit) h = .ok () (h.withNext a p) := by
  rw [← bind_pure (setNext a p), withNext_bind ha]
  rfl

/-- A value that needs only the `prev` of an element. -/
theorem prev_bind {f : ℕ → ListCode ν α} (hp : h.prev a = some p) :
    (getElem a >>= fun e => f e.prev) h = f p h := by
  cases he : h.elem a with
  | none => simp [Heap.prev, he] at hp
  | some e =>
      rw [getElem_bind he]
      simp only [Heap.prev, he, Option.map_some, Option.some.injEq] at hp
      rw [hp]

/-- A value that needs only the `next` of an element. -/
theorem next_bind {f : ℕ → ListCode ν α} (hn : h.next a = some p) :
    (getElem a >>= fun e => f e.next) h = f p h := by
  cases he : h.elem a with
  | none => simp [Heap.next, he] at hn
  | some e =>
      rw [getElem_bind he]
      simp only [Heap.next, he, Option.map_some, Option.some.injEq] at hn
      rw [hn]

/-- Something with an element before it is behind a head. -/
theorem notHead_bind {f : Unit → ListCode ν α} (ha : a ≠ 0) (hm : h.Mapped a) (hp : h.prev a = some p)
    (h0 : p ≠ 0) :
    (do let interior ← isInterior a; let tail ← isTail a; listAssert (interior || tail); f ()) h =
      f () h := by
  obtain ⟨e, he⟩ := Option.isSome_iff_exists.mp hm
  have hprev : e.prev ≠ 0 := by
    simp only [Heap.prev, he, Option.map_some, Option.some.injEq] at hp
    rwa [hp]
  rw [isInterior_bind he ha, isTail_bind he ha]
  refine listAssert_bind ?_ _
  by_cases hn : e.next = 0 <;> simp [hprev, hn]

/-- The step back. -/
theorem listPrev_run (ha : a ≠ 0) (hm : h.Mapped a) (hp : h.prev a = some p) (h0 : p ≠ 0) :
    (listPrev a : ListCode ν ℕ) h = .ok p h := by
  rw [listPrev]
  refine (notHead_bind (f := fun _ => do let e ← getElem a; return e.prev) ha hm hp h0).trans ?_
  rw [prev_bind hp]
  rfl

end Steps

/-! ## Well-formed lists -/

/-- The element before the place behind `as`. -/
def before (l : ℕ) (as : List ℕ) : ℕ := as.getLast?.getD l

/-- The element behind the place before `bs`. -/
def behind (l : ℕ) (bs : List ℕ) : ℕ := bs.head?.getD (listEnd l)

/-- The list at `l` and its elements, with the sentinels. -/
def nodes (l : ℕ) (xs : List ℕ) : List ℕ := l :: xs ++ [listEnd l]

theorem nodes_append (l : ℕ) (as bs : List ℕ) :
    nodes l (as ++ bs) = (l :: as) ++ (bs ++ [listEnd l]) := by
  simp [nodes]

theorem getLast?_cons_before (l : ℕ) (as : List ℕ) : (l :: as).getLast? = some (before l as) := by
  rw [List.getLast?_cons, before]

theorem head?_behind (l : ℕ) (bs : List ℕ) : (bs ++ [listEnd l]).head? = some (behind l bs) := by
  cases bs <;> rfl

theorem before_mem (l : ℕ) (as bs : List ℕ) : before l as ∈ nodes l (as ++ bs) := by
  rw [nodes_append]
  exact List.mem_append_left _ (List.mem_of_getLast? (getLast?_cons_before l as))

theorem behind_mem (l : ℕ) (as bs : List ℕ) : behind l bs ∈ nodes l (as ++ bs) := by
  rw [nodes_append]
  exact List.mem_append_right _ (List.mem_of_head? (head?_behind l bs))

/-- The pointers at `l` are those of a list with the elements `xs`. -/
structure ListAt (h : Heap ν) (l : ℕ) (xs : List ℕ) : Prop where
  chain : (nodes l xs).IsChain (Joined h.next h.prev)
  first : h.prev l = some 0
  last : h.next (listEnd l) = some 0
  nodup : (nodes l xs).Nodup
  nonnull : 0 ∉ nodes l xs

/-- What a function leaves alone: the structures around the elements, and the pointers of
everything but `changed`. -/
structure Frame (changed : List ℕ) (h h' : Heap ν) : Prop where
  data : h'.data = h.data
  elem : ∀ y ∉ changed, h'.elem y = h.elem y

theorem Frame.refl {changed : List ℕ} (h : Heap ν) : Frame changed h h := ⟨rfl, fun _ _ => rfl⟩

theorem Frame.trans {changed : List ℕ} {h h' h'' : Heap ν} (w : Frame changed h h')
    (w' : Frame changed h' h'') : Frame changed h h'' :=
  ⟨w'.data.trans w.data, fun y hy => (w'.elem y hy).trans (w.elem y hy)⟩

theorem Frame.mono {changed changed' : List ℕ} {h h' : Heap ν} (w : Frame changed h h')
    (sub : ∀ y ∈ changed, y ∈ changed') : Frame changed' h h' :=
  ⟨w.data, fun y hy => w.elem y fun hm => hy (sub y hm)⟩

namespace ListAt

variable {h h' : Heap ν} {l l' : ℕ} {xs ys : List ℕ}

theorem ne_null (w : ListAt h l xs) {x : ℕ} (hx : x ∈ nodes l xs) : x ≠ 0 := by
  rintro rfl
  exact w.nonnull hx

/-- A list is a matter of its own pointers. -/
theorem congr (w : ListAt h l xs) (elem : ∀ y ∈ nodes l xs, h'.elem y = h.elem y) :
    ListAt h' l xs := by
  have hnext : ∀ y ∈ nodes l xs, h'.next y = h.next y := fun y hy => by
    rw [Heap.next, Heap.next, elem y hy]
  have hprev : ∀ y ∈ nodes l xs, h'.prev y = h.prev y := fun y hy => by
    rw [Heap.prev, Heap.prev, elem y hy]
  refine ⟨isChain_congr w.chain w.nodup (fun u hu _ => hnext u hu) fun u hu _ => hprev u hu, ?_, ?_,
    w.nodup, w.nonnull⟩
  · rw [hprev l (by simp [nodes]), w.first]
  · rw [hnext _ (by simp [nodes]), w.last]

/-- The two nodes around a place. -/
theorem joined (w : ListAt h l (xs ++ ys)) : Joined h.next h.prev (before l xs) (behind l ys) := by
  have hchain := w.chain
  rw [nodes_append] at hchain
  exact (List.isChain_append.mp hchain).2.2 _ (getLast?_cons_before l xs) _ (head?_behind l ys)

theorem prev_behind (w : ListAt h l (xs ++ ys)) : h.prev (behind l ys) = some (before l xs) :=
  w.joined.2

theorem next_before (w : ListAt h l (xs ++ ys)) : h.next (before l xs) = some (behind l ys) :=
  w.joined.1

theorem before_ne_zero (w : ListAt h l (xs ++ ys)) : before l xs ≠ 0 :=
  w.ne_null (before_mem l xs ys)

theorem behind_ne_zero (w : ListAt h l (xs ++ ys)) : behind l ys ≠ 0 :=
  w.ne_null (behind_mem l xs ys)

/-- Each element, and the tail, has one before it. -/
theorem exists_prev (w : ListAt h l xs) {x : ℕ} (hx : x ∈ nodes l xs) (hne : x ≠ l) :
    ∃ p ∈ nodes l xs, h.prev x = some p := by
  have hx : x ∈ xs ++ [listEnd l] := (List.mem_cons.mp hx).resolve_left hne
  obtain ⟨p, hp, e⟩ := (linked_iff_isChain.mpr w.chain).prev_mem hx
  exact ⟨p, List.mem_append_left _ hp, e⟩

/-- **No element of one list is in another.** -/
theorem disjoint (w : ListAt h l xs) (w' : ListAt h l' ys) (hne : l ≠ l') :
    ∀ x ∈ nodes l xs, x ∉ nodes l' ys := by
  intro x hx hx'
  -- the way back from an element leads to one head only
  have hl : l ∈ nodes l' ys := by
    refine first_mem w.chain (fun u hu v hv huv => ?_) hx hx'
    by_cases e : v = l'
    · subst e
      have h0 : u = 0 := Option.some.inj (huv.2.symm.trans w'.first)
      exact absurd h0 (w.ne_null hu)
    · obtain ⟨p, hp, hprev⟩ := w'.exists_prev hv e
      rwa [Option.some.inj (huv.2.symm.trans hprev)]
  obtain ⟨p, hp, hprev⟩ := w'.exists_prev hl hne
  have h0 : p = 0 := Option.some.inj (hprev.symm.trans w.first)
  exact w'.ne_null hp h0

end ListAt

end

end Pintos.Containers
