import Pintos.Containers.Sequences
import Mathlib.Data.List.Sort
import Mathlib.Tactic.Tauto

/-!
# Lists refine sequences

The functions of `list.c` that walk over a list, and what all of them come to.  `list_reverse`
exchanges the two pointers of each element while it follows them; `list_insert_ordered` looks for
the first element that is larger; `list_unique` compares each element with the last one it kept.

* **`listOps_refine`** — each function leaves a well-formed list with the elements that the
  operation on sequences gives, and every other list as it was.
-/

namespace Pintos.Containers

open Lib

section

variable {ν : Type} {h h' : Heap ν} {l a : ℕ} {as bs xs : List ℕ}

/-! ## `list_reverse` -/

/-- The heap with the pointers of some elements exchanged. -/
def Heap.exchanged (h : Heap ν) (xs : List ℕ) : Heap ν :=
  { h with elem := fun y => if y ∈ xs then (h.elem y).map fun e => ⟨e.next, e.prev⟩ else h.elem y }

namespace Heap

theorem exchanged_elem_of_mem {y : ℕ} (hy : y ∈ xs) {e : Elem} (he : h.elem y = some e) :
    (h.exchanged xs).elem y = some ⟨e.next, e.prev⟩ := by
  simp [exchanged, hy, he]

theorem exchanged_elem_of_not_mem {y : ℕ} (hy : y ∉ xs) : (h.exchanged xs).elem y = h.elem y := by
  simp [exchanged, hy]

theorem exchanged_nil : h.exchanged [] = h := by
  simp [exchanged]

/-- One more element. -/
theorem exchanged_snoc {x : ℕ} {e : Elem} (hx : x ∉ xs) (he : h.elem x = some e) :
    (h.exchanged xs).setElem x ⟨e.next, e.prev⟩ = h.exchanged (xs ++ [x]) := by
  have : Function.update (h.exchanged xs).elem x (some ⟨e.next, e.prev⟩) = (h.exchanged (xs ++ [x])).elem := by
    funext y
    by_cases hy : y = x
    · subst hy
      rw [Function.update_self, exchanged_elem_of_mem (by simp) he]
    · rw [Function.update_of_ne hy]
      simp [exchanged, hy]
  rw [setElem, this]
  rfl

theorem exchanged_next {y : ℕ} (hy : y ∈ xs) : (h.exchanged xs).next y = h.prev y := by
  cases he : h.elem y with
  | none => simp [next, prev, exchanged, hy, he]
  | some e => simp [next, prev, exchanged, hy, he]

theorem exchanged_prev {y : ℕ} (hy : y ∈ xs) : (h.exchanged xs).prev y = h.next y := by
  cases he : h.elem y with
  | none => simp [next, prev, exchanged, hy, he]
  | some e => simp [next, prev, exchanged, hy, he]

theorem exchanged_next_of_not_mem {y : ℕ} (hy : y ∉ xs) : (h.exchanged xs).next y = h.next y := by
  rw [next, next, exchanged_elem_of_not_mem hy]

theorem exchanged_prev_of_not_mem {y : ℕ} (hy : y ∉ xs) : (h.exchanged xs).prev y = h.prev y := by
  rw [prev, prev, exchanged_elem_of_not_mem hy]

end Heap

/-- The pointer at a link. -/
def Heap.at (h : Heap ν) : Link → Option ℕ
  | .prev a => h.prev a
  | .next a => h.next a

/-- The heap with another pointer there. -/
def Heap.stored (h : Heap ν) : Link → ℕ → Heap ν
  | .prev a, p => h.withPrev a p
  | .next a, p => h.withNext a p

/-- `swap` stores at each link what was at the other. -/
theorem swap_run {a b : Link} {p q : ℕ} (ha : h.at a = some p) (hb : h.at b = some q) :
    (swap a b : ListCode ν Unit) h = .ok () ((h.stored a q).stored b p) := by
  have load : ∀ {c : Link} {v : ℕ}, h.at c = some v → (c.load : ListCode ν ℕ) h = .ok v h := by
    intro c v hc
    cases c with
    | prev x => exact prev_bind hc
    | next x => exact next_bind hc
  have hstore : (a.store q : ListCode ν Unit) h = .ok () (h.stored a q) := by
    cases a with
    | prev x => exact setPrev_run (Heap.mapped_of_prev ha)
    | next x => exact setNext_run (Heap.mapped_of_next ha)
  have hmapped : ∀ y, (h.stored a q).Mapped y ↔ h.Mapped y := by
    intro y
    cases a with
    | prev x => exact Heap.mapped_withPrev
    | next x => exact Heap.mapped_withNext
  have hstore' : (b.store p : ListCode ν Unit) (h.stored a q) = .ok () ((h.stored a q).stored b p) := by
    cases b with
    | prev x => exact setPrev_run ((hmapped x).mpr (Heap.mapped_of_prev hb))
    | next x => exact setNext_run ((hmapped x).mpr (Heap.mapped_of_next hb))
  rw [swap, bind_of_ok (load ha), bind_of_ok (load hb), bind_of_ok hstore, hstore']

/-- `swap` of the two pointers of an element. -/
theorem swap_self {x : ℕ} {e : Elem} (he : h.elem x = some e) :
    (swap (.prev x) (.next x) : ListCode ν Unit) h = .ok () (h.setElem x ⟨e.next, e.prev⟩) := by
  have hp : h.at (.prev x) = some e.prev := by simp [Heap.at, Heap.prev, he]
  have hn : h.at (.next x) = some e.next := by simp [Heap.at, Heap.next, he]
  rw [swap_run hp hn]
  simp [Heap.stored, Heap.withPrev, Heap.withNext, Heap.setElem, he]

/-- The loop exchanges the pointers of every element. -/
theorem reverseLoop_run (w : ListAt h l (as ++ bs)) {fuel : ℕ} (hf : bs.length < fuel) :
    (reverseLoop l fuel (behind l bs) : ListCode ν Unit) (h.exchanged as) =
      .ok () (h.exchanged (as ++ bs)) := by
  induction bs generalizing as fuel with
  | nil =>
      obtain ⟨fuel, rfl⟩ := Nat.exists_eq_succ_of_ne_zero hf.ne'
      have hend : behind l [] = listEnd l := rfl
      rw [reverseLoop, if_pos hend, List.append_nil]
      rfl
  | cons x bs ih =>
      obtain ⟨fuel, rfl⟩ := Nat.exists_eq_succ_of_ne_zero (Nat.ne_zero_of_lt hf)
      have w' : ListAt h l (as ++ [x] ++ bs) := by simpa using w
      have hx : x ∉ as := fun hm => w'.range_not_rest x (by simp) (by simp [nodes, hm])
      have hne : ¬ behind l (x :: bs) = listEnd l := fun e => by
        cases w.behind_eq_end.mp e
      have hp : h.prev x = some (before l as) := w.prev_behind
      have hn : h.next x = some (behind l bs) := by
        have := w'.next_before
        rwa [show before l (as ++ [x]) = x by simp [before]] at this
      have he : h.elem x = some ⟨before l as, behind l bs⟩ := elem_of hp hn
      have he' : (h.exchanged as).elem x = some ⟨before l as, behind l bs⟩ := by
        rw [Heap.exchanged_elem_of_not_mem hx, he]
      have hswap := swap_self he'
      rw [Heap.exchanged_snoc hx he] at hswap
      have hx' : (h.exchanged (as ++ [x])).elem x = some ⟨behind l bs, before l as⟩ :=
        Heap.exchanged_elem_of_mem (by simp) he
      have hrest := ih w' (Nat.lt_of_succ_lt_succ hf)
      rw [reverseLoop, if_neg hne]
      rw [show behind l (x :: bs) = x from rfl]
      rw [bind_of_ok hswap, getElem_bind hx', hrest, List.append_assoc]
      rfl

/-- `list_reverse`. -/
theorem listReverse_spec (w : ListAt h l xs) {fuel : ℕ} (hf : xs.length < fuel) :
    ∃ h', listReverse fuel l h = .ok () h' ∧ ListAt h' l xs.reverse ∧ Frame (nodes l xs) h h' := by
  cases hxs : xs with
  | nil =>
      subst hxs
      refine ⟨h, ?_, w, .refl h⟩
      rw [listReverse, bind_of_ok (listEmpty_run w)]
      rfl
  | cons x rest =>
      rw [← hxs]
      have w0 : ListAt h l ([] ++ xs) := w
      have w1 : ListAt h l (xs ++ []) := by simpa using w
      have hl : l ∉ xs := fun hm => (List.nodup_cons.mp w.nodup).1 (by simp [hm])
      have hend : listEnd l ∉ xs := fun hm => by
        have := w.nodup
        rw [nodes] at this
        exact (List.nodup_append.mp this).2.2 _ (List.mem_cons_of_mem _ hm) _ (by simp) rfl
      have hle : l ≠ listEnd l := by simp [listEnd]
      set g := h.exchanged xs with hg
      have hloop : (reverseLoop l fuel (behind l xs) : ListCode ν Unit) h = .ok () g := by
        have := reverseLoop_run w0 hf
        rwa [Heap.exchanged_nil, List.nil_append] at this
      obtain ⟨z, hz⟩ : ∃ z, xs.getLast? = some z :=
        ⟨_, List.getLast?_eq_getLast_of_ne_nil (by simp [hxs])⟩
      have hzx : z ∈ xs := List.mem_of_getLast? hz
      have hx : xs.head? = some x := by simp [hxs]
      have hxx : x ∈ xs := List.mem_of_head? hx
      have hfirst : behind l xs = x := by simp [behind, hx]
      have hlast : before l xs = z := by simp [before, hz]
      -- the pointers after the loop
      have hgl : g.next l = some x := by
        rw [hg, Heap.exchanged_next_of_not_mem hl, ← hfirst]
        exact w0.next_before
      have hge : g.prev (listEnd l) = some z := by
        rw [hg, Heap.exchanged_prev_of_not_mem hend, ← hlast]
        exact w1.prev_behind
      have hgz : g.prev z = some (listEnd l) := by
        rw [hg, Heap.exchanged_prev hzx, ← hlast]
        exact w1.next_before
      have hgx : g.next x = some l := by
        rw [hg, Heap.exchanged_next hxx, ← hfirst]
        exact w0.prev_behind
      have hml : g.Mapped l := Heap.mapped_of_next hgl
      have hme : g.Mapped (listEnd l) := Heap.mapped_of_prev hge
      have hmz : g.Mapped z := Heap.mapped_of_prev hgz
      have hmx : g.Mapped x := Heap.mapped_of_next hgx
      have hzl : z ≠ l := fun e => hl (e ▸ hzx)
      have hxe : x ≠ listEnd l := fun e => hend (e ▸ hxx)
      have hxl : x ≠ l := fun e => hl (e ▸ hxx)
      have hze : z ≠ listEnd l := fun e => hend (e ▸ hzx)
      set g1 := (g.withNext l z).withPrev (listEnd l) x with hg1
      have hn1 : g1.next = Function.update g.next l (some z) := by
        rw [hg1, Heap.withPrev_next, Heap.withNext_next hml]
      have hp1 : g1.prev = Function.update g.prev (listEnd l) (some x) := by
        rw [hg1, Heap.withPrev_prev (Heap.mapped_withNext.mpr hme), Heap.withNext_prev]
      have hm1 : ∀ y, g1.Mapped y ↔ g.Mapped y := fun y => by
        rw [hg1, Heap.mapped_withPrev, Heap.mapped_withNext]
      have hz1 : g1.prev z = some (listEnd l) := by rw [hp1, Function.update_of_ne hze, hgz]
      have hx1 : g1.next x = some l := by rw [hn1, Function.update_of_ne hxl, hgx]
      have hl1 : g1.elem l = some ⟨0, z⟩ := by
        refine elem_of ?_ (by rw [hn1, Function.update_self])
        rw [hp1, Function.update_of_ne hle, hg, Heap.exchanged_prev_of_not_mem hl, w.first]
      have he1 : g1.elem (listEnd l) = some ⟨x, 0⟩ := by
        refine elem_of (by rw [hp1, Function.update_self]) ?_
        rw [hn1, Function.update_of_ne hle.symm, hg, Heap.exchanged_next_of_not_mem hend, w.last]
      set g2 := (g1.withPrev z l).withNext x (listEnd l) with hg2
      have hn2 : g2.next = Function.update (Function.update g.next x (some (listEnd l))) l (some z) := by
        rw [hg2, Heap.withNext_next (Heap.mapped_withPrev.mpr ((hm1 x).mpr hmx)), Heap.withPrev_next, hn1,
          Function.update_comm hxl]
      have hp2 : g2.prev = Function.update (Function.update g.prev z (some l)) (listEnd l) (some x) := by
        rw [hg2, Heap.withNext_prev, Heap.withPrev_prev ((hm1 z).mpr hmz), hp1, Function.update_comm hze]
      refine ⟨g2, ?_, ?_, rfl, fun y hy => ?_⟩
      · have hs1 : (swap (.next l) (.prev (listEnd l)) : ListCode ν Unit) g = .ok () g1 :=
          swap_run (a := .next l) (b := .prev (listEnd l)) hgl hge
        have hs2 : (swap (.prev z) (.next x) : ListCode ν Unit) g1 = .ok () g2 :=
          swap_run (a := .prev z) (b := .next x) hz1 hx1
        rw [listReverse, bind_of_ok (listEmpty_run w)]
        have hne : decide (xs = []) = false := by simp [hxs]
        rw [hne]
        change (listBegin l >>= _) h = _
        rw [bind_of_ok (listBegin_run w), bind_of_ok hloop, bind_of_ok hs1, getElem_bind hl1,
          getElem_bind he1]
        exact hs2
      · have hnodes : nodes l xs.reverse = [l] ++ xs.reverse ++ [listEnd l] := by simp [nodes]
        have hperm : (nodes l xs.reverse).Perm (nodes l xs) := by
          rw [nodes, nodes]
          exact ((List.reverse_perm xs).cons l).append_right _
        have hnodup : (nodes l xs.reverse).Nodup := hperm.nodup_iff.mpr w.nodup
        have hrange : xs.reverse.IsChain (Joined g.next g.prev) := by
          have hwchain := w.chain
          rw [nodes, List.cons_append] at hwchain
          have hxschain : xs.IsChain (Joined h.next h.prev) :=
            (List.isChain_append.mp hwchain.tail).1
          refine isChain_congr (isChain_flip.mpr hxschain) ?_ ?_ ?_
          · exact (List.reverse_perm xs).nodup_iff.mpr
              (List.nodup_append.mp (List.nodup_cons.mp w.nodup).2).1
          · exact fun u hu _ => Heap.exchanged_next (List.mem_reverse.mp hu)
          · exact fun u hu _ => Heap.exchanged_prev (List.mem_reverse.mp hu)
        refine ⟨?_, ?_, ?_, hnodup, fun h0 => w.nonnull (hperm.mem_iff.mp h0)⟩
        · rw [hnodes] at hnodup ⊢
          rw [hn2, hp2]
          exact isChain_paste (.singleton l) (.singleton (listEnd l)) hrange hnodup rfl rfl
            (by rw [List.head?_reverse, hz]) (by rw [List.getLast?_reverse, hx])
        · rw [hp2, Function.update_of_ne hle, Function.update_of_ne hzl.symm, hg,
            Heap.exchanged_prev_of_not_mem hl, w.first]
        · rw [hn2, Function.update_of_ne hle.symm, Function.update_of_ne hxe.symm, hg,
            Heap.exchanged_next_of_not_mem hend, w.last]
      · have hyx : ∀ u ∈ nodes l xs, y ≠ u := fun u hu e => hy (e ▸ hu)
        rw [hg2, Heap.withNext_elem_of_ne (hyx x (by simp [nodes, hxx])),
          Heap.withPrev_elem_of_ne (hyx z (by simp [nodes, hzx])), hg1,
          Heap.withPrev_elem_of_ne (hyx _ (by simp [nodes])),
          Heap.withNext_elem_of_ne (hyx _ (by simp [nodes])), hg,
          Heap.exchanged_elem_of_not_mem fun hm => hy (by simp [nodes, hm])]

/-! ## `list_insert_ordered` -/

variable {less : ℕ → ℕ → Bool}

theorem findPlace_run (w : ListAt h l (as ++ bs)) {fuel : ℕ} (hf : bs.length < fuel) :
    (findPlace l a less fuel (behind l bs) : ListCode ν ℕ) h =
      .ok (behind l (bs.dropWhile fun y => !less a y)) h := by
  induction bs generalizing as fuel with
  | nil =>
      obtain ⟨fuel, rfl⟩ := Nat.exists_eq_succ_of_ne_zero hf.ne'
      have hend : behind l [] = listEnd l := rfl
      rw [findPlace, if_pos hend]
      rfl
  | cons x bs ih =>
      obtain ⟨fuel, rfl⟩ := Nat.exists_eq_succ_of_ne_zero (Nat.ne_zero_of_lt hf)
      have hne : ¬ behind l (x :: bs) = listEnd l := fun e => by
        cases w.behind_eq_end.mp e
      have hx : behind l (x :: bs) = x := rfl
      rw [findPlace, if_neg hne, hx]
      by_cases hless : less a x = true
      · rw [if_pos hless, List.dropWhile_cons_of_neg (by simp [hless])]
        rfl
      · have w' : ListAt h l ((as ++ [x]) ++ bs) := by simpa using w
        rw [if_neg hless, bind_of_ok (listNext_behind w), ih w' (Nat.lt_of_succ_lt_succ hf),
          List.dropWhile_cons_of_pos (by simp [hless])]

/-- `list_insert_ordered`. -/
theorem listInsertOrdered_spec (w : ListAt h l xs) (fresh : Fresh h l xs a) {fuel : ℕ}
    (hf : xs.length < fuel) :
    ∃ h', listInsertOrdered fuel l a less h = .ok () h' ∧
      ListAt h' l (xs.takeWhile (fun y => !less a y) ++ a :: xs.dropWhile (fun y => !less a y)) ∧
      Frame (a :: nodes l xs) h h' := by
  have w0 : ListAt h l ([] ++ xs) := w
  have hsplit : xs.takeWhile (fun y => !less a y) ++ xs.dropWhile (fun y => !less a y) = xs :=
    List.takeWhile_append_dropWhile
  have w' : ListAt h l (xs.takeWhile (fun y => !less a y) ++ xs.dropWhile (fun y => !less a y)) := by
    rwa [hsplit]
  have fresh' : Fresh h l (xs.takeWhile (fun y => !less a y) ++ xs.dropWhile (fun y => !less a y)) a := by
    rwa [hsplit]
  obtain ⟨h', hrun, wl, hframe⟩ := listInsert_spec w' fresh'
  have hframe' := frame_insert hframe
  rw [hsplit] at hframe'
  refine ⟨h', ?_, wl, hframe'⟩
  have hl : l ≠ 0 := w.ne_null (by simp [nodes])
  rw [listInsertOrdered, listAssert_bind (by simpa using hl), listAssert_bind (by simpa using fresh.nonnull),
    bind_of_ok (listBegin_run w), bind_of_ok (findPlace_run w0 hf), hrun]

/-! ## `list_unique` -/

/-- What `list_unique` keeps of the elements behind `x`, and what it removes. -/
def uniqueFrom (less : ℕ → ℕ → Bool) (x : ℕ) : List ℕ → List ℕ × List ℕ
  | [] => ([], [])
  | y :: ys =>
      if !less x y && !less y x then
        let r := uniqueFrom less x ys
        (r.1, y :: r.2)
      else
        let r := uniqueFrom less y ys
        (y :: r.1, r.2)

/-- The elements `list_unique` keeps, the first of each set of adjacent equal ones, and those it
removes. -/
def uniqueList (less : ℕ → ℕ → Bool) : List ℕ → List ℕ × List ℕ
  | [] => ([], [])
  | x :: xs =>
      let r := uniqueFrom less x xs
      (x :: r.1, r.2)

/-- A list for the duplicates, if there is one. -/
def DuplicatesAt (h : Heap ν) (l duplicates : ℕ) (ds : List ℕ) : Prop :=
  duplicates = 0 ∨ (duplicates ≠ l ∧ ListAt h duplicates ds)

/-- The nodes of that list. -/
def duplicateNodes (duplicates : ℕ) (ds : List ℕ) : List ℕ :=
  if duplicates = 0 then [] else nodes duplicates ds

/-- One element is a duplicate, and goes to the other list. -/
theorem moveDuplicate {x y d : ℕ} {ds : List ℕ} (w : ListAt h l (as ++ x :: y :: bs))
    (hne : d ≠ l) (wd : ListAt h d ds) :
    ∃ h1 h2, listRemove y h = .ok (behind l bs) h1 ∧ listPushBack d y h1 = .ok () h2 ∧
      ListAt h2 l (as ++ x :: bs) ∧ ListAt h2 d (ds ++ [y]) ∧
      Frame (nodes l (as ++ x :: y :: bs) ++ nodes d ds) h h2 := by
  have w' : ListAt h l ((as ++ [x]) ++ y :: bs) := by simpa using w
  have hdisj := wd.disjoint w hne
  obtain ⟨h1, hrun, wl, hframe, hself⟩ := listRemove_spec w'
  have hframe' := frame_remove (a := y) hframe
  have hnodes : nodes l (as ++ [x] ++ y :: bs) = nodes l (as ++ x :: y :: bs) := by simp
  rw [hnodes] at hframe'
  have wd1 : ListAt h1 d ds := wd.congr fun u hu => hframe'.elem u (hdisj u hu)
  have hy : y ∈ nodes l (as ++ x :: y :: bs) := by simp [nodes]
  have hymap : h.Mapped y := Heap.mapped_of_prev w'.prev_behind
  have fresh : Fresh h1 d ds y :=
    ⟨by rw [Heap.Mapped, hself]; exact hymap, w.ne_null hy, fun hm => hdisj y hm hy⟩
  obtain ⟨h2, hrun2, wd2, hframe2⟩ := listPushBack_refines wd1 fresh
  have hyrest : y ∉ nodes l ((as ++ [x]) ++ bs) := by
    have w'' : ListAt h l ((as ++ [x]) ++ [y] ++ bs) := by simpa using w
    exact w''.range_not_rest y (by simp)
  have wl2 : ListAt h2 l ((as ++ [x]) ++ bs) := wl.congr fun u hu => hframe2.elem u fun hm => by
    rcases List.mem_cons.mp hm with rfl | hm
    · exact hyrest hu
    · exact hdisj u hm (hnodes ▸ ListAt.mem_of_rest hu)
  refine ⟨h1, h2, hrun, hrun2, by simpa using wl2, wd2, ?_⟩
  refine (hframe'.mono fun u hu => List.mem_append_left _ hu).trans (hframe2.mono fun u hu => ?_)
  rcases List.mem_cons.mp hu with rfl | hu
  · exact List.mem_append_left _ hy
  · exact List.mem_append_right _ hu

/-- One round that removes an element. -/
theorem removeDuplicate {x y d : ℕ} {ds : List ℕ} (w : ListAt h l (as ++ x :: y :: bs))
    (wd : DuplicatesAt h l d ds) :
    ∃ h', (∀ f : ListCode ν Unit, (do
        let _ ← listRemove y
        if d ≠ 0 then listPushBack d y
        f) h = f h') ∧
      ListAt h' l (as ++ x :: bs) ∧ DuplicatesAt h' l d (ds ++ [y]) ∧
      Frame (nodes l (as ++ x :: y :: bs) ++ duplicateNodes d ds) h h' := by
  have w' : ListAt h l ((as ++ [x]) ++ y :: bs) := by simpa using w
  rcases wd with rfl | ⟨hne, wd⟩
  · obtain ⟨h1, hrun, wl, hframe, -⟩ := listRemove_spec w'
    have hframe' := frame_remove (a := y) hframe
    refine ⟨h1, fun f => ?_, by simpa using wl, .inl rfl, hframe'.mono fun u hu => ?_⟩
    · rw [bind_of_ok hrun, if_neg (by simp)]
    · simp only [List.append_assoc, List.cons_append, List.nil_append] at hu
      exact List.mem_append_left _ hu
  · have hd : d ≠ 0 := wd.ne_null (by simp [nodes])
    obtain ⟨h1, h2, hrun, hpush, wl, wd2, hframe⟩ := moveDuplicate w hne wd
    refine ⟨h2, fun f => ?_, wl, .inr ⟨hne, wd2⟩, ?_⟩
    · rw [bind_of_ok hrun, if_pos hd, bind_of_ok hpush]
    · rwa [duplicateNodes, if_neg hd]

theorem mem_duplicateNodes {y d u : ℕ} {ds : List ℕ} (hu : u ∈ duplicateNodes d (ds ++ [y])) :
    u = y ∨ u ∈ duplicateNodes d ds := by
  unfold duplicateNodes at hu ⊢
  split
  case isTrue h =>
      rw [if_pos h] at hu
      cases hu
  case isFalse h =>
      rw [if_neg h] at hu
      simp only [nodes, List.cons_append, List.append_assoc, List.mem_cons, List.mem_append,
        List.not_mem_nil, or_false, List.nil_append] at hu ⊢
      tauto

/-- The loop keeps the first of each set of adjacent equal elements. -/
theorem uniqueLoop_run {x d : ℕ} {ds : List ℕ} (w : ListAt h l (as ++ x :: bs))
    (wd : DuplicatesAt h l d ds) {fuel : ℕ} (hf : bs.length < fuel) :
    ∃ h', uniqueLoop l d less fuel x h = .ok () h' ∧
      ListAt h' l (as ++ x :: (uniqueFrom less x bs).1) ∧
      DuplicatesAt h' l d (ds ++ (uniqueFrom less x bs).2) ∧
      Frame (nodes l (as ++ x :: bs) ++ duplicateNodes d ds) h h' := by
  induction bs generalizing as x ds h fuel with
  | nil =>
      obtain ⟨fuel, rfl⟩ := Nat.exists_eq_succ_of_ne_zero hf.ne'
      refine ⟨h, ?_, w, by simpa [uniqueFrom] using wd, .refl h⟩
      have hend : behind l [] = listEnd l := rfl
      rw [uniqueLoop, bind_of_ok (listNext_behind w), if_pos hend]
      rfl
  | cons y bs ih =>
      obtain ⟨fuel, rfl⟩ := Nat.exists_eq_succ_of_ne_zero (Nat.ne_zero_of_lt hf)
      have hf' : bs.length < fuel := Nat.lt_of_succ_lt_succ hf
      have w' : ListAt h l ((as ++ [x]) ++ y :: bs) := by simpa using w
      have hne : ¬ behind l (y :: bs) = listEnd l := fun e => by
        cases w'.behind_eq_end.mp e
      have hy : behind l (y :: bs) = y := rfl
      rw [uniqueLoop, bind_of_ok (listNext_behind w), if_neg hne, hy]
      by_cases heq : (!less x y && !less y x) = true
      · obtain ⟨h1, hrun, wl, wd1, hframe⟩ := removeDuplicate w wd
        obtain ⟨h2, hrest, wl2, wd2, hframe2⟩ := ih wl wd1 hf'
        refine ⟨h2, ?_, by simpa [uniqueFrom, heq] using wl2, by simpa [uniqueFrom, heq] using wd2,
          hframe.trans (hframe2.mono fun u hu => ?_)⟩
        · rw [if_pos heq]
          exact (hrun _).trans hrest
        · have hym : y ∈ nodes l (as ++ x :: y :: bs) := by simp [nodes]
          rcases List.mem_append.mp hu with hu | hu
          · have hu' : u ∈ nodes l ((as ++ [x]) ++ y :: bs) :=
              ListAt.mem_of_rest (by simpa using hu)
            exact List.mem_append_left _ (by simpa using hu')
          · rcases mem_duplicateNodes hu with rfl | hu
            · exact List.mem_append_left _ hym
            · exact List.mem_append_right _ hu
      · obtain ⟨h2, hrest, wl2, wd2, hframe2⟩ := ih w' wd hf'
        refine ⟨h2, ?_, by simpa [uniqueFrom, heq] using wl2, by simpa [uniqueFrom, heq] using wd2, ?_⟩
        · rw [if_neg heq, hrest]
        · simpa using hframe2

/-- `list_unique`. -/
theorem listUnique_spec {d : ℕ} {ds : List ℕ} (w : ListAt h l xs) (wd : DuplicatesAt h l d ds)
    {fuel : ℕ} (hf : xs.length < fuel) :
    ∃ h', listUnique fuel l d less h = .ok () h' ∧ ListAt h' l (uniqueList less xs).1 ∧
      DuplicatesAt h' l d (ds ++ (uniqueList less xs).2) ∧
      Frame (nodes l xs ++ duplicateNodes d ds) h h' := by
  have hl : l ≠ 0 := w.ne_null (by simp [nodes])
  have hassert : (decide (l ≠ 0)) = true := by simpa using hl
  cases xs with
  | nil =>
      refine ⟨h, ?_, w, by simpa [uniqueList] using wd, .refl h⟩
      rw [listUnique, listAssert_bind hassert, bind_of_ok (listEmpty_run w)]
      rfl
  | cons x xs =>
      have w0 : ListAt h l ([] ++ x :: xs) := w
      obtain ⟨h', hrun, wl, wd', hframe⟩ := uniqueLoop_run w0 wd (Nat.lt_of_succ_lt hf)
      refine ⟨h', ?_, wl, wd', hframe⟩
      rw [listUnique, listAssert_bind hassert, bind_of_ok (listEmpty_run w)]
      change (listBegin l >>= _) h = _
      rw [bind_of_ok (listBegin_run w)]
      exact hrun

/-! ## What all of them come to -/

/-- Every list but those at `ls` is as it was, if the element `a` is not in it. -/
structure Others (ls es : List ℕ) (h h' : Heap ν) : Prop where
  data : h'.data = h.data
  lists : ∀ l' ys, l' ∉ ls → ListAt h l' ys → (∀ e ∈ es, e ∉ nodes l' ys) →
    ListAt h' l' ys ∧ ∀ y ∈ nodes l' ys, h'.elem y = h.elem y

/-- A function that touches only some lists leaves the others alone. -/
theorem Frame.others {changed ls es : List ℕ} (w : Frame changed h h')
    (covered : ∀ y ∈ changed, y ∈ es ∨ ∃ l ∈ ls, ∃ xs, ListAt h l xs ∧ y ∈ nodes l xs) :
    Others ls es h h' := by
  refine ⟨w.data, fun l' ys hl' wl hes => ?_⟩
  have hkeep : ∀ y ∈ nodes l' ys, h'.elem y = h.elem y := fun y hy => by
    refine w.elem y fun hc => ?_
    rcases covered y hc with he | ⟨l, hl, xs, wxs, hyl⟩
    · exact hes y he hy
    · have hne : l ≠ l' := by
        rintro rfl
        exact hl' hl
      exact wxs.disjoint wl hne y hyl hy
  exact ⟨wl.congr hkeep, hkeep⟩

/-- **The functions of `list.c` refine the operations on sequences.**  An element to be put into a
list is one in memory that is not in it. -/
structure RefinesSequences (ν : Type) : Prop where
  insert : ∀ (h : Heap ν) l as bs a, ListAt h l (as ++ bs) → Fresh h l (as ++ bs) a →
    ∃ h', listInsert (behind l bs) a h = .ok () h' ∧ ListAt h' l (as ++ a :: bs) ∧
      Others [l] [a] h h'
  spliceSame : ∀ (h : Heap ν) l as rs bs cs ds, ListAt h l (as ++ rs ++ bs) → cs ++ ds = as ++ bs →
    ∃ h', listSplice (behind l ds) (behind l (rs ++ bs)) (behind l bs) h = .ok () h' ∧
      ListAt h' l (cs ++ rs ++ ds) ∧ Others [l] [] h h'
  spliceOther : ∀ (h : Heap ν) m as rs bs l cs ds, ListAt h m (as ++ rs ++ bs) →
    ListAt h l (cs ++ ds) → m ≠ l →
    ∃ h', listSplice (behind l ds) (behind m (rs ++ bs)) (behind m bs) h = .ok () h' ∧
      ListAt h' m (as ++ bs) ∧ ListAt h' l (cs ++ rs ++ ds) ∧ Others [m, l] [] h h'
  pushFront : ∀ (h : Heap ν) l xs a, ListAt h l xs → Fresh h l xs a →
    ∃ h', listPushFront l a h = .ok () h' ∧ ListAt h' l (a :: xs) ∧ Others [l] [a] h h'
  pushBack : ∀ (h : Heap ν) l xs a, ListAt h l xs → Fresh h l xs a →
    ∃ h', listPushBack l a h = .ok () h' ∧ ListAt h' l (xs ++ [a]) ∧ Others [l] [a] h h'
  remove : ∀ (h : Heap ν) l as a bs, ListAt h l (as ++ a :: bs) →
    ∃ h', listRemove a h = .ok (behind l bs) h' ∧ ListAt h' l (as ++ bs) ∧ Others [l] [] h h'
  popFront : ∀ (h : Heap ν) l x xs, ListAt h l (x :: xs) →
    ∃ h', listPopFront l h = .ok x h' ∧ ListAt h' l xs ∧ Others [l] [] h h'
  popBack : ∀ (h : Heap ν) l x xs, ListAt h l (xs ++ [x]) →
    ∃ h', listPopBack l h = .ok x h' ∧ ListAt h' l xs ∧ Others [l] [] h h'
  reverse : ∀ (h : Heap ν) l xs fuel, ListAt h l xs → xs.length < fuel →
    ∃ h', listReverse fuel l h = .ok () h' ∧ ListAt h' l xs.reverse ∧ Others [l] [] h h'
  insertOrdered : ∀ (h : Heap ν) l xs a less fuel, ListAt h l xs → Fresh h l xs a →
    xs.length < fuel → ∃ h', listInsertOrdered fuel l a less h = .ok () h' ∧
      ListAt h' l (xs.orderedInsert (fun x y => less x y = true) a) ∧ Others [l] [a] h h'
  unique : ∀ (h : Heap ν) l xs d ds less fuel, ListAt h l xs → DuplicatesAt h l d ds →
    xs.length < fuel → ∃ h', listUnique fuel l d less h = .ok () h' ∧
      ListAt h' l (uniqueList less xs).1 ∧ DuplicatesAt h' l d (ds ++ (uniqueList less xs).2) ∧
      Others [l, d] [] h h'

theorem covered_list {xs es : List ℕ} (w : ListAt h l xs) {y : ℕ} (hy : y ∈ nodes l xs) :
    y ∈ es ∨ ∃ l' ∈ [l], ∃ xs, ListAt h l' xs ∧ y ∈ nodes l' xs :=
  .inr ⟨l, List.mem_singleton_self l, xs, w, hy⟩

theorem covered_insert {xs : List ℕ} (w : ListAt h l xs) {y : ℕ} (hy : y ∈ a :: nodes l xs) :
    y ∈ [a] ∨ ∃ l' ∈ [l], ∃ xs, ListAt h l' xs ∧ y ∈ nodes l' xs := by
  rcases List.mem_cons.mp hy with rfl | hy
  · exact .inl (List.mem_singleton_self _)
  · exact covered_list w hy

theorem listOps_refine : RefinesSequences ν where
  insert h l as bs a w fresh := by
    obtain ⟨h', hrun, wl, hframe⟩ := listInsert_spec w fresh
    exact ⟨h', hrun, wl, (frame_insert hframe).others fun y hy => covered_insert w hy⟩
  spliceSame h l as rs bs cs ds w e := by
    obtain ⟨h', hrun, wl, hframe⟩ := listSplice_same w e
    exact ⟨h', hrun, wl, hframe.others fun y hy => covered_list w hy⟩
  spliceOther h m as rs bs l cs ds w wl hne := by
    obtain ⟨h', hrun, wm, wl', hframe⟩ := listSplice_other w wl hne
    refine ⟨h', hrun, wm, wl', hframe.others fun y hy => .inr ?_⟩
    rcases List.mem_append.mp hy with hy | hy
    · exact ⟨m, by simp, _, w, hy⟩
    · exact ⟨l, by simp, _, wl, hy⟩
  pushFront h l xs a w fresh := by
    obtain ⟨h', hrun, wl, hframe⟩ := listPushFront_refines w fresh
    exact ⟨h', hrun, wl, hframe.others fun y hy => covered_insert w hy⟩
  pushBack h l xs a w fresh := by
    obtain ⟨h', hrun, wl, hframe⟩ := listPushBack_refines w fresh
    exact ⟨h', hrun, wl, hframe.others fun y hy => covered_insert w hy⟩
  remove h l as a bs w := by
    obtain ⟨h', hrun, wl, hframe, -⟩ := listRemove_spec w
    exact ⟨h', hrun, wl, (frame_remove (a := a) hframe).others fun y hy => covered_list w hy⟩
  popFront h l x xs w := by
    obtain ⟨h', hrun, wl, hframe⟩ := listPopFront_spec w
    exact ⟨h', hrun, wl, hframe.others fun y hy => covered_list w hy⟩
  popBack h l x xs w := by
    obtain ⟨h', hrun, wl, hframe⟩ := listPopBack_spec w
    exact ⟨h', hrun, wl, hframe.others fun y hy => covered_list w hy⟩
  reverse h l xs fuel w hf := by
    obtain ⟨h', hrun, wl, hframe⟩ := listReverse_spec w hf
    exact ⟨h', hrun, wl, hframe.others fun y hy => covered_list w hy⟩
  insertOrdered h l xs a less fuel w fresh hf := by
    obtain ⟨h', hrun, wl, hframe⟩ := listInsertOrdered_spec w fresh hf
    refine ⟨h', hrun, ?_, hframe.others fun y hy => covered_insert w hy⟩
    rw [List.orderedInsert_eq_take_drop]
    simpa using wl
  unique h l xs d ds less fuel w wd hf := by
    obtain ⟨h', hrun, wl, wd', hframe⟩ := listUnique_spec w wd hf
    refine ⟨h', hrun, wl, wd', hframe.others fun y hy => .inr ?_⟩
    rcases List.mem_append.mp hy with hy | hy
    · exact ⟨l, by simp, _, w, hy⟩
    · rcases wd with rfl | ⟨-, wd⟩
      · cases hy
      · rw [duplicateNodes, if_neg (wd.ne_null (by simp [nodes]))] at hy
        exact ⟨d, by simp, _, wd, hy⟩

/-- A list at 100 of the elements at 200 and 300, and an element at 400 that is in no list. -/
def smallHeap : Heap Unit where
  elem a :=
    if a = 100 then some ⟨0, 200⟩
    else if a = 200 then some ⟨100, 300⟩
    else if a = 300 then some ⟨200, 108⟩
    else if a = 108 then some ⟨300, 0⟩
    else if a = 400 then some ⟨0, 0⟩
    else none
  data _ := none

theorem listAt_smallHeap : ListAt smallHeap 100 [200, 300] where
  chain := by simp [nodes, Lib.Joined, Heap.next, Heap.prev, smallHeap, listEnd]
  first := rfl
  last := rfl
  nodup := by decide
  nonnull := by decide

/-- The element goes in front of the one at 200. -/
theorem listOps_refine_small :
    ∃ h', listInsert 200 400 smallHeap = .ok () h' ∧ ListAt h' 100 [400, 200, 300] ∧
      Others [100] [400] smallHeap h' := by
  refine listOps_refine.insert smallHeap 100 [] [200, 300] 400 listAt_smallHeap ⟨?_, ?_, ?_⟩
  · simp [Heap.Mapped, smallHeap]
  · decide
  · decide

end

end Pintos.Containers
