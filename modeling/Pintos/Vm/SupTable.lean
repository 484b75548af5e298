import Pintos.Containers.List
import Pintos.Vm.Swap

/-!
# The supplemental table as a list in memory

`vm/page.c` of `vm_PintOS` at the level of pointers.  The table of a thread is a `struct list`
inside its `struct thread`; an entry is a `struct sup_page`, which starts with its list element.

The functions that walk the table begin with `struct list sup_page_list = …`, a copy of the two
sentinels on the stack.  The first pointer of the copy leads to the entries, the last entry points
to the tail of the original, and the loop waits for the tail of the copy.

* **`tableOk_iff`** — the operations on the table do what they are for exactly if an entry is
  looked up that is there.
* **`getSupPage_refines`** — a lookup at this level and in the table as a list of entries.
-/

namespace Pintos.Vm.Pointers

open Lib Containers

/-- Code on the table. -/
abbrev TableCode (α : Type) : Type := ListCode SupPage α

/-! ## The functions of `page.c` -/

/-- `struct list` assignment, from the list at `l` to a local variable at `c`. -/
def copyList (l c : ℕ) : TableCode Unit := do
  let head ← getElem l
  let tail ← getElem (listEnd l)
  change fun h => (h.setElem c head).setElem (listEnd c) tail

/-- The function returns, and its local variables are gone. -/
def leave (c : ℕ) : TableCode Unit := change fun h => (h.drop c).drop (listEnd c)

/-- `free`. -/
def free (a : ℕ) : TableCode Unit := do
  let _ ← listEntry a
  change fun h => h.drop a

/-- `add_sup_page`. -/
def addSupPage (l page : ℕ) : TableCode Unit := listPushBack l page

/-- The loop of `get_sup_page`; 0 is the null pointer. -/
def getLoop (c addr : ℕ) : ℕ → ℕ → TableCode ℕ
  | 0, _ => stop .unending
  | n + 1, e =>
      if e = listEnd c then pure 0
      else do
        let temp ← listEntry e
        if temp.vAddr = addr then pure e
        else do
          let e ← listNext e
          getLoop c addr n e

/-- `get_sup_page`, with its local variable at `c`. -/
def getSupPage (fuel l c addr : ℕ) : TableCode ℕ := do
  copyList l c
  let e ← listBegin c
  let r ← getLoop c addr fuel e
  leave c
  return r

/-- The statement inside the loop of `delete_sup_page`: whether the entry was found. -/
def deleteOne (page e : ℕ) (found : Bool) : TableCode Bool := do
  let temp ← listEntry e
  let key ← listEntry page
  if temp.vAddr = key.vAddr then do
    let _ ← listRemove e
    free e
    return true
  else return found

/-- The loop of `delete_sup_page`. -/
def deleteLoop (c page : ℕ) : ℕ → ℕ → Bool → TableCode Unit
  | 0, _, _ => stop .unending
  | n + 1, e, found =>
      if e = listEnd c ∨ found then pure ()
      else do
        let found ← deleteOne page e found
        let e ← listNext e
        deleteLoop c page n e found

/-- `delete_sup_page`. -/
def deleteSupPage (fuel l c page : ℕ) : TableCode Unit := do
  copyList l c
  let e ← listBegin c
  deleteLoop c page fuel e false
  leave c

/-- The loop of `destroy_sup_page_table`.  Its `found` stays false. -/
def destroyLoop (c : ℕ) : ℕ → ℕ → TableCode Unit
  | 0, _ => stop .unending
  | n + 1, e =>
      if e = listEnd c then pure ()
      else do
        let _ ← listEntry e
        let _ ← listRemove e
        free e
        let e ← listNext e
        destroyLoop c n e

/-- `destroy_sup_page_table`. -/
def destroySupPageTable (fuel l c : ℕ) : TableCode Unit := do
  copyList l c
  let e ← listBegin c
  destroyLoop c fuel e
  leave c

/-! ## Tables -/

/-- What memory holds after `list_init` on the table of a new thread, and after any number of
calls of `add_sup_page`, each with an entry just allocated. -/
inductive Built (l : ℕ) : Heap SupPage → List (ℕ × SupPage) → Prop
  | init {h h' : Heap SupPage} (room : Containers.RoomFor h l) (run : listInit l h = .ok () h') : Built l h' []
  | add {h h' : Heap SupPage} {table : List (ℕ × SupPage)} {x : ℕ} {junk : Elem} {page : SupPage}
      (built : Built l h table) (null : x ≠ 0) (fresh : x ∉ l :: table.map (·.1) ++ [listEnd l])
      (run : addSupPage l x (h.alloc x junk page) = .ok () h') : Built l h' (table ++ [(x, page)])

/-- The entries, in order, lie in memory where the list says. -/
structure IsTable (h : Heap SupPage) (l : ℕ) (table : List (ℕ × SupPage)) : Prop where
  list : IsList h l (table.map (·.1))
  pages : ∀ p ∈ table, h.data p.1 = some p.2

theorem Built.isTable {l : ℕ} {h : Heap SupPage} {table : List (ℕ × SupPage)} (b : Built l h table) :
    IsTable h l table := by
  induction b with
  | init room run =>
      obtain ⟨h', run', list, -, -⟩ := listInit_spec room
      cases run.symm.trans run'
      exact ⟨list, by simp⟩
  | @add h h' table x junk page built null fresh run ih =>
      obtain ⟨h'', run', list, hdata, -⟩ := listPushBack_spec ih.list junk page fresh null
      cases run.symm.trans run'
      refine ⟨by rwa [List.map_append, List.map_singleton], fun p hp => ?_⟩
      rw [hdata]
      rcases List.mem_append.mp hp with hp | hp
      · have hne : p.1 ≠ x := fun e =>
          fresh (e ▸ List.mem_append_left _ (List.mem_cons_of_mem _ (List.mem_map_of_mem hp)))
        exact (Function.update_of_ne hne _ _).trans (ih.pages p hp)
      · rw [List.mem_singleton.mp hp]
        exact Function.update_self ..

/-- A place on the stack for a `struct list`. -/
structure Local (h : Heap SupPage) (l c : ℕ) (table : List (ℕ × SupPage)) : Prop where
  null : c ≠ 0
  head : c ∉ l :: table.map (·.1) ++ [listEnd l]
  tail : listEnd c ∉ l :: table.map (·.1) ++ [listEnd l]
  unused : h.elem c = none ∧ h.elem (listEnd c) = none ∧ h.data c = none ∧ h.data (listEnd c) = none

/-! ## What the operations are for -/

/-- The calls on a table. -/
inductive TableOp where
  | get (addr : ℕ)
  | delete (page : ℕ)
  | destroy

/-- The address of the first entry for a page, or null. -/
def entryFor (table : List (ℕ × SupPage)) (addr : ℕ) : ℕ :=
  ((table.find? fun p => p.2.vAddr = addr).map (·.1)).getD 0

/-- Memory without some of the entries of a table that it held before. -/
def Freed (h h' : Heap SupPage) (gone : List ℕ) : Prop := ∀ x, h'.data x = if x ∈ gone then none else h.data x

/-- What a call is for, on a table in the memory `h`. -/
def TableOk (fuel l c : ℕ) (h : Heap SupPage) (table : List (ℕ × SupPage)) : TableOp → Prop
  | .get addr => getSupPage fuel l c addr h = .ok (entryFor table addr) h
  | .delete page => ∃ key, h.data page = some key ∧ ∃ h', deleteSupPage fuel l c page h = .ok () h' ∧
      IsTable h' l (table.eraseP fun p => p.2.vAddr = key.vAddr) ∧
      Freed h h' ((table.find? fun p => p.2.vAddr = key.vAddr).map (·.1)).toList
  | .destroy => ∃ h', destroySupPageTable fuel l c h = .ok () h' ∧ IsTable h' l [] ∧
      Freed h h' (table.map (·.1))

/-! ## Walking a table -/

section Walk

variable {h : Heap SupPage} {l c : ℕ} {table : List (ℕ × SupPage)}

/-- Memory with the copy of a list in it. -/
def copied (h : Heap SupPage) (c : ℕ) (head tail : Elem) : Heap SupPage :=
  (h.setElem c head).setElem (listEnd c) tail

/-- **The copy**: the table is as it was, and the loop starts where the first entry is, or at
the tail of the original. -/
theorem copyList_spec (w : IsTable h l table) (loc : Local h l c table) :
    ∃ q tail, copyList l c h = .ok () (copied h c ⟨0, q⟩ tail) ∧
      IsTable (copied h c ⟨0, q⟩ tail) l table ∧
      (copied h c ⟨0, q⟩ tail).next l = some q ∧
      (listBegin c : TableCode ℕ) (copied h c ⟨0, q⟩ tail) = .ok q (copied h c ⟨0, q⟩ tail) := by
  obtain ⟨q, -, hhead, -⟩ := w.list.elem_head
  obtain ⟨p, -, htail, -⟩ := w.list.elem_tail
  have hce : c ≠ listEnd c := by simp [listEnd]
  have same : ∀ y ∈ l :: table.map (·.1) ++ [listEnd l],
      (copied h c ⟨0, q⟩ ⟨p, 0⟩).elem y = h.elem y := by
    intro y hy
    have hyc : y ≠ c := fun e => loc.head (e ▸ hy)
    have hye : y ≠ listEnd c := fun e => loc.tail (e ▸ hy)
    rw [copied, Heap.setElem_elem, Heap.setElem_elem, Function.update_of_ne hye,
      Function.update_of_ne hyc]
  have hc : (copied h c ⟨0, q⟩ ⟨p, 0⟩).elem c = some ⟨0, q⟩ := by
    rw [copied, Heap.setElem_elem, Heap.setElem_elem, Function.update_of_ne hce, Function.update_self]
  refine ⟨q, ⟨p, 0⟩, ?_, ⟨w.list.congr same rfl, w.pages⟩, ?_, ?_⟩
  · rw [copyList, getElem_bind hhead, getElem_bind htail]
    rfl
  · rw [Heap.next, same l (by simp), hhead]
    rfl
  · rw [listBegin, listAssert_bind (by simpa using loc.null), getElem_bind hc]
    rfl

/-- When the function returns, memory is as it was before the copy. -/
theorem leave_run (loc : Local h l c table) (head tail : Elem) :
    leave c (copied h c head tail) = .ok () h := by
  obtain ⟨h1, h2, h3, h4⟩ := loc.unused
  have helem : (((copied h c head tail).drop c).drop (listEnd c)).elem = h.elem := by
    funext y
    by_cases e : y = listEnd c
    · subst e
      simp [Heap.drop, h2]
    · by_cases e' : y = c
      · subst e'
        simp [Heap.drop, Function.update_of_ne e, h1]
      · simp [Heap.drop, copied, Function.update_of_ne e, Function.update_of_ne e']
  have hdata : (((copied h c head tail).drop c).drop (listEnd c)).data = h.data := by
    funext y
    by_cases e : y = listEnd c
    · subst e
      simp [Heap.drop, h4]
    · by_cases e' : y = c
      · subst e'
        simp [Heap.drop, Function.update_of_ne e, h3]
      · simp [Heap.drop, copied, Function.update_of_ne e, Function.update_of_ne e']
  show EStateM.Result.ok () (((copied h c head tail).drop c).drop (listEnd c)) = _
  congr 1
  cases h
  exact congrArg₂ Heap.mk helem hdata

/-- A part of a table, from the element `a` on. -/
structure Rest (h : Heap SupPage) (l c a : ℕ) (rest : List (ℕ × SupPage)) : Prop where
  chain : Linked h.next h.prev a (rest.map (·.1)) (listEnd l)
  pages : ∀ p ∈ rest, h.data p.1 = some p.2
  nonnull : a ≠ 0 ∧ 0 ∉ rest.map (·.1) ++ [listEnd l]
  other : listEnd c ∉ rest.map (·.1) ++ [listEnd l]
  last : h.next (listEnd l) = some 0
  tail : h.data (listEnd l) = none

theorem IsTable.rest (w : IsTable h l table) (hc : listEnd c ∉ l :: table.map (·.1) ++ [listEnd l]) :
    Rest h l c l table :=
  ⟨w.list.chain, w.pages, ⟨w.list.ne_null (by simp), fun h0 =>
    w.list.nonnull (List.mem_cons_of_mem _ h0)⟩, fun he => hc (List.mem_cons_of_mem _ he),
    w.list.last, w.list.tail⟩

/-- At the end of the table there is the tail of the original. -/
theorem Rest.at_end {a e : ℕ} (r : Rest h l c a []) (he : h.next a = some e) :
    e = listEnd l ∧ e ≠ listEnd c ∧ (listEntry e : TableCode SupPage) h = .error .notEntry h := by
  have hle : e = listEnd l := Option.some.inj (he.symm.trans r.chain.1)
  refine ⟨hle, fun hc => r.other (by simp [← hc, hle]), ?_⟩
  rw [hle]
  exact listEntry_none (elem_of r.chain.2 r.last) r.tail

/-- Before the end there is an entry, with a way on. -/
theorem Rest.at_entry {a e : ℕ} {p : ℕ × SupPage} {rest : List (ℕ × SupPage)}
    (r : Rest h l c a (p :: rest)) (he : h.next a = some e) :
    e = p.1 ∧ e ≠ 0 ∧ e ≠ listEnd c ∧ (listEntry e : TableCode SupPage) h = .ok p.2 h ∧
      ∃ e', h.next e = some e' ∧ (listNext e : TableCode ℕ) h = .ok e' h ∧ Rest h l c e rest := by
  obtain ⟨⟨hnext, hprev⟩, chain⟩ := r.chain
  obtain rfl : e = p.1 := Option.some.inj (he.symm.trans hnext)
  have h0 : p.1 ≠ 0 := fun e => r.nonnull.2 (by simp [← e])
  obtain ⟨e', hmem, hnext'⟩ := chain.next_mem List.mem_cons_self
  have he0 : e' ≠ 0 := by
    rintro rfl
    exact r.nonnull.2 (List.mem_cons_of_mem _ hmem)
  refine ⟨rfl, h0, fun e => r.other (by simp [← e]), ?_, e', hnext', ?_, chain,
    fun q hq => r.pages q (List.mem_cons_of_mem _ hq), ⟨h0, fun hm => r.nonnull.2 ?_⟩,
    fun hm => r.other ?_, r.last, r.tail⟩
  · exact listEntry_run (elem_of hprev hnext') (r.pages p List.mem_cons_self)
  · exact listNext_run (elem_of hprev hnext') h0 he0
  · exact List.mem_cons_of_mem _ hm
  · exact List.mem_cons_of_mem _ hm

/-- **The walk of `get_sup_page`**: it ends at the first entry for the page, or it takes the tail
of the original for an entry. -/
theorem getLoop_spec (addr : ℕ) : ∀ (rest : List (ℕ × SupPage)) {n a e : ℕ}, Rest h l c a rest →
    rest.length < n → h.next a = some e → getLoop c addr n e h =
      (rest.find? fun p => p.2.vAddr = addr).elim (.error .notEntry h) fun p => .ok p.1 h := by
  intro rest
  induction rest with
  | nil =>
      intro n a e r hn he
      obtain ⟨m, rfl⟩ : ∃ m, n = m + 1 := ⟨n - 1, by simp at hn; omega⟩
      obtain ⟨-, hne, hentry⟩ := r.at_end he
      rw [getLoop, if_neg hne, bind_of_error hentry]
      rfl
  | cons p rest ih =>
      intro n a e r hn he
      obtain ⟨m, rfl⟩ : ∃ m, n = m + 1 := ⟨n - 1, by simp at hn; omega⟩
      obtain ⟨rfl, -, hne, hentry, e', hnext, hrun, r'⟩ := r.at_entry he
      rw [getLoop, if_neg hne, bind_of_ok hentry]
      by_cases hp : p.2.vAddr = addr
      · rw [if_pos hp, List.find?_cons_of_pos (by simpa using hp)]
        rfl
      · rw [if_neg hp, bind_of_ok hrun, List.find?_cons_of_neg (by simpa using hp)]
        exact ih r' (by simpa using hn) hnext

theorem listEntry_keeps {a : ℕ} : Ends (listEntry a h) (fun (_ : SupPage) h' => h' = h)
    fun _ _ => True := by
  cases he : h.elem a with
  | none =>
      rw [listEntry, bind_of_error (getElem_none he)]
      trivial
  | some e =>
      cases hv : h.data a with
      | none =>
          rw [listEntry_none he hv]
          trivial
      | some v =>
          rw [listEntry_run he hv]
          rfl

theorem ends_any {α : Type} {r : EStateM.Result ListStop (Heap SupPage) α} :
    Ends r (fun _ _ => True) fun _ _ => True := by
  cases r <;> trivial

theorem free_spec {a : ℕ} : Ends (free a h) (fun _ h' => h'.elem a = none) fun _ _ => True :=
  Ends.bind listEntry_keeps fun _ _ _ => Function.update_self ..

/-- If the statement inside the loop of `delete_sup_page` finds the entry, the element the loop
is at is gone. -/
theorem deleteOne_spec {e page : ℕ} : Ends (deleteOne page e false h)
    (fun found h' => found = true ∧ h'.elem e = none ∨ found = false ∧ h' = h) fun _ _ => True := by
  refine Ends.bind listEntry_keeps ?_
  rintro temp _ rfl
  refine Ends.bind listEntry_keeps ?_
  rintro key _ rfl
  refine Ends.ite (fun _ => ?_) fun _ => .inr ⟨rfl, rfl⟩
  refine Ends.bind ends_any fun _ h1 _ => ?_
  exact Ends.bind free_spec fun _ h2 hfree => .inl ⟨rfl, hfree⟩

/-- **The walk of `delete_sup_page` never comes to its end**: it steps on from freed memory, or
it takes the tail of the original for an entry. -/
theorem deleteLoop_stops (page : ℕ) : ∀ (rest : List (ℕ × SupPage)) {n a e : ℕ}, Rest h l c a rest →
    h.next a = some e → Ends (deleteLoop c page n e false h) (fun _ _ => False) fun _ _ => True := by
  intro rest
  induction rest with
  | nil =>
      intro n a e r he
      cases n with
      | zero => trivial
      | succ n =>
          obtain ⟨-, hne, hentry⟩ := r.at_end he
          rw [deleteLoop, if_neg (by simp [hne]), deleteOne, bind_assoc, bind_of_error hentry]
          trivial
  | cons p rest ih =>
      intro n a e r he
      cases n with
      | zero => trivial
      | succ n =>
          obtain ⟨-, h0, hne, -, e', hnext, hrun, r'⟩ := r.at_entry he
          rw [deleteLoop, if_neg (by simp [hne])]
          refine Ends.bind deleteOne_spec ?_
          rintro found h' (⟨rfl, hfreed⟩ | ⟨rfl, rfl⟩)
          · rw [bind_of_error (listNext_freed hfreed h0)]
            trivial
          · rw [bind_of_ok hrun]
            exact ih r' hnext

/-- **Neither does that of `destroy_sup_page_table`.** -/
theorem destroyLoop_stops {n a e : ℕ} {rest : List (ℕ × SupPage)} (r : Rest h l c a rest)
    (he : h.next a = some e) : Ends (destroyLoop c n e h) (fun _ _ => False) fun _ _ => True := by
  cases n with
  | zero => trivial
  | succ n =>
      cases rest with
      | nil =>
          obtain ⟨-, hne, hentry⟩ := r.at_end he
          rw [destroyLoop, if_neg hne, bind_of_error hentry]
          trivial
      | cons p rest =>
          obtain ⟨-, h0, hne, hentry, -⟩ := r.at_entry he
          rw [destroyLoop, if_neg hne, bind_of_ok hentry]
          refine Ends.bind ends_any fun _ h1 _ => ?_
          refine Ends.bind free_spec fun _ h2 hfreed => ?_
          rw [bind_of_error (listNext_freed hfreed h0)]
          trivial

end Walk

/-! ## The operations -/

section Operations

variable {fuel l c : ℕ} {h : Heap SupPage} {table : List (ℕ × SupPage)}

/-- **A lookup**: the entry, or a walk past the table. -/
theorem getSupPage_run (w : IsTable h l table) (loc : Local h l c table) (addr : ℕ)
    (hf : table.length < fuel) :
    (∀ p, table.find? (fun p => p.2.vAddr = addr) = some p →
      getSupPage fuel l c addr h = .ok p.1 h) ∧
    (table.find? (fun p => p.2.vAddr = addr) = none →
      ∃ h', getSupPage fuel l c addr h = .error .notEntry h') := by
  obtain ⟨q, tail, hcopy, w', hnext, hbegin⟩ := copyList_spec w loc
  have hloop := getLoop_spec addr table (w'.rest loc.tail) hf hnext
  constructor
  · intro p hp
    rw [hp] at hloop
    rw [getSupPage, bind_of_ok hcopy, bind_of_ok hbegin, bind_of_ok hloop,
      bind_of_ok (leave_run loc _ _)]
    rfl
  · intro hnone
    rw [hnone] at hloop
    exact ⟨_, by rw [getSupPage, bind_of_ok hcopy, bind_of_ok hbegin, bind_of_error hloop]⟩

theorem deleteSupPage_stops (w : IsTable h l table) (loc : Local h l c table) (page : ℕ) :
    Ends (deleteSupPage fuel l c page h) (fun _ _ => False) fun _ _ => True := by
  obtain ⟨q, tail, hcopy, w', hnext, hbegin⟩ := copyList_spec w loc
  rw [deleteSupPage, bind_of_ok hcopy, bind_of_ok hbegin]
  exact Ends.bind (deleteLoop_stops page table (w'.rest loc.tail) hnext) fun _ _ h => h.elim

theorem destroySupPageTable_stops (w : IsTable h l table) (loc : Local h l c table) :
    Ends (destroySupPageTable fuel l c h) (fun _ _ => False) fun _ _ => True := by
  obtain ⟨q, tail, hcopy, w', hnext, hbegin⟩ := copyList_spec w loc
  rw [destroySupPageTable, bind_of_ok hcopy, bind_of_ok hbegin]
  exact Ends.bind (destroyLoop_stops (w'.rest loc.tail) hnext) fun _ _ h => h.elim

/-- The entry looked up is there. -/
def Found (table : List (ℕ × SupPage)) : TableOp → Prop
  | .get addr => ∃ p ∈ table, p.2.vAddr = addr
  | .delete _ => False
  | .destroy => False

/-- **An operation on a table does what it is for exactly if it looks up an entry that is
there.** -/
theorem tableOk_iff (b : Built l h table) (loc : Local h l c table) (hf : table.length < fuel)
    (op : TableOp) : TableOk fuel l c h table op ↔ Found table op := by
  have w := b.isTable
  cases op with
  | get addr =>
      obtain ⟨hit, miss⟩ := getSupPage_run w loc addr hf
      constructor
      · intro ok
        by_contra hnone
        have hfind : table.find? (fun p => p.2.vAddr = addr) = none :=
          List.find?_eq_none.mpr fun p hp e => hnone ⟨p, hp, by simpa using e⟩
        obtain ⟨h', hrun⟩ := miss hfind
        have ok' : getSupPage fuel l c addr h = .ok (entryFor table addr) h := ok
        cases ok'.symm.trans hrun
      · rintro ⟨p, hp, hv⟩
        obtain ⟨q, hq⟩ := Option.isSome_iff_exists.mp
          (List.find?_isSome.mpr ⟨p, hp, by simpa using hv⟩ :
            (table.find? fun p => p.2.vAddr = addr).isSome)
        have hfirst : entryFor table addr = q.1 := by
          rw [entryFor, hq]
          rfl
        show getSupPage fuel l c addr h = .ok (entryFor table addr) h
        rw [hfirst]
        exact hit q hq
  | delete page =>
      refine ⟨?_, False.elim⟩
      rintro ⟨key, -, h', hrun, -⟩
      have stops : Ends (deleteSupPage fuel l c page h) (fun _ _ => False) fun _ _ => True :=
        deleteSupPage_stops w loc page
      rwa [hrun] at stops
  | destroy =>
      refine ⟨?_, False.elim⟩
      rintro ⟨h', hrun, -⟩
      have stops : Ends (destroySupPageTable fuel l c h) (fun _ _ => False) fun _ _ => True :=
        destroySupPageTable_stops w loc
      rwa [hrun] at stops

/-- A table with one more entry; the copy made later has its own memory. -/
theorem exists_add (b : Built l h table) (loc : Local h l c table) {x : ℕ} (null : x ≠ 0)
    (fresh : x ∉ l :: table.map (·.1) ++ [listEnd l]) (head : x ≠ c) (tail : x ≠ listEnd c)
    (page : SupPage) :
    ∃ h', Built l h' (table ++ [(x, page)]) ∧ Local h' l c (table ++ [(x, page)]) := by
  obtain ⟨h', hrun, -, hdata, helem⟩ := listPushBack_spec b.isTable.list ⟨0, 0⟩ page fresh null
  have unused : ∀ y, y ∉ l :: table.map (·.1) ++ [listEnd l] → x ≠ y →
      h.elem y = none ∧ h.data y = none → h'.elem y = none ∧ h'.data y = none := by
    intro y hy hne hnone
    refine ⟨(helem y hy hne.symm).trans hnone.1, ?_⟩
    rw [hdata, Function.update_of_ne hne.symm]
    exact hnone.2
  have apart : ∀ y, y ∉ l :: table.map (·.1) ++ [listEnd l] → x ≠ y →
      y ∉ l :: (table ++ [(x, page)]).map (·.1) ++ [listEnd l] := by
    intro y hy hne
    simp only [List.map_append, List.map_singleton, List.cons_append, List.mem_cons,
      List.mem_append, List.not_mem_nil, or_false, not_or] at hy ⊢
    exact ⟨hy.1, ⟨hy.2.1, hne.symm⟩, hy.2.2⟩
  obtain ⟨h1, h2, h3, h4⟩ := loc.unused
  obtain ⟨e1, d1⟩ := unused c loc.head head ⟨h1, h3⟩
  obtain ⟨e2, d2⟩ := unused (listEnd c) loc.tail tail ⟨h2, h4⟩
  exact ⟨h', b.add null fresh hrun, loc.null, apart c loc.head head,
    apart (listEnd c) loc.tail tail, e1, e2, d1, d2⟩

/-- The table of a thread that has just been made. -/
theorem exists_empty : ∃ h, Built 100 h [] ∧ Local h 100 300 [] := by
  have room : Containers.RoomFor (⟨fun _ => none, fun _ => none⟩ : Heap SupPage) 100 :=
    ⟨by decide, rfl, rfl⟩
  obtain ⟨h, hrun, list, hdata, helem⟩ := listInit_spec room
  exact ⟨h, Built.init room hrun, by decide, by decide, by decide, helem _ (by decide),
    helem _ (by decide), by rw [hdata], by rw [hdata]⟩

/-- Two entries, at 200 and 220, for the pages at 4096 and 8192. -/
def smallTable : List (ℕ × SupPage) :=
  [(200, newSupPage 0 0 4096 4096 0 true), (220, newSupPage 1 0 8192 4096 0 true)]

/-- Both entries of the small table are found. -/
theorem tableOk_small : ∃ h, Built 100 h smallTable ∧
    TableOk 3 100 300 h smallTable (.get 4096) ∧ TableOk 3 100 300 h smallTable (.get 8192) := by
  obtain ⟨h, built, loc⟩ := exists_empty
  obtain ⟨h', built', loc'⟩ := exists_add built loc (x := 200) (by decide) (by decide) (by decide)
    (by decide) (newSupPage 0 0 4096 4096 0 true)
  obtain ⟨h'', built'', loc''⟩ := exists_add built' loc' (x := 220) (by decide) (by decide)
    (by decide) (by decide) (newSupPage 1 0 8192 4096 0 true)
  exact ⟨h'', built'',
    (tableOk_iff built'' loc'' (by decide) (.get 4096)).mpr ⟨_, List.mem_cons_self, rfl⟩,
    (tableOk_iff built'' loc'' (by decide) (.get 8192)).mpr
      ⟨_, List.mem_cons_of_mem _ List.mem_cons_self, rfl⟩⟩

/-- **In an empty table there is nothing, and the lookup does not say so.** -/
theorem empty_table_not_ok : ¬ ∀ (fuel l c : ℕ) (h : Heap SupPage) (table : List (ℕ × SupPage))
    (op : TableOp), Built l h table → Local h l c table → table.length < fuel →
    TableOk fuel l c h table op := by
  intro claim
  obtain ⟨h, built, loc⟩ := exists_empty
  have ok : getSupPage 1 100 300 0 h = .ok (entryFor [] 0) h :=
    claim 1 100 300 h [] (.get 0) built loc (by decide)
  have hlen : ([] : List (ℕ × SupPage)).length < 1 := by decide
  obtain ⟨h', hrun⟩ := (getSupPage_run built.isTable loc 0 hlen).2 rfl
  cases ok.symm.trans hrun

/-- **The lookup in the table as a list of entries** is that at the level of pointers. -/
theorem getSupPage_refines (b : Built l h table) (loc : Local h l c table) (hf : table.length < fuel)
    (addr : ℕ) :
    (∃ x page, getSupPage fuel l c addr h = .ok x h ∧ h.data x = some page ∧
      Vm.getSupPage (table.map (·.2)) addr = .ok page) ∨
    (∃ e h', getSupPage fuel l c addr h = .error e h') ∧
      Vm.getSupPage (table.map (·.2)) addr = .error .danglingPointer := by
  obtain ⟨hit, miss⟩ := getSupPage_run b.isTable loc addr hf
  have hmap : (table.map (·.2)).find? (fun p => p.vAddr = addr) =
      (table.find? fun p => p.2.vAddr = addr).map (·.2) := by
    rw [List.find?_map]
    rfl
  cases hfind : table.find? (fun p => p.2.vAddr = addr) with
  | none =>
      obtain ⟨h', hrun⟩ := miss hfind
      exact .inr ⟨⟨_, _, hrun⟩, by rw [Vm.getSupPage, hmap, hfind]; rfl⟩
  | some p =>
      refine .inl ⟨p.1, p.2, hit p hfind, b.isTable.pages p (List.mem_of_find?_eq_some hfind), ?_⟩
      rw [Vm.getSupPage, hmap, hfind]
      rfl

end Operations

end Pintos.Vm.Pointers
