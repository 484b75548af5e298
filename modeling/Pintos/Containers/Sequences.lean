import Pintos.Containers.ListOps

/-!
# Lists are sequences

The operations of `lib/kernel/list.c` that change a list, on the sequence of its elements (`ListAt`).
Each of them stores into the links of at most four elements, and is one or two of the same changes of
the memory: a range of a list is taken out by two stores (`ListAt.cut`), and a range is put between two
neighbours by four (`ListAt.paste`).

* **`listInsert_spec`, `listRemove_spec`** — one element is put before another, or taken out.
* **`listSplice_same`, `listSplice_other`** — a range moves within a list, or from one list to another;
  both lists are sequences again.
* The last section is about the two ends: `list_begin`, `list_empty`, pushing and popping.

Each specification comes with a `Frame`: the elements that may have changed.  All others, and with them
every other list, are as they were.
-/

namespace Pintos.Containers

open Lib

section

variable {ν : Type} {h h' : Heap ν} {l a : ℕ} {as bs rs : List ℕ}

/-! ## Cutting and pasting -/

namespace ListAt

theorem nodup_cut (w : ListAt h l (as ++ rs ++ bs)) : (nodes l (as ++ bs)).Nodup := by
  refine w.nodup.sublist ?_
  rw [nodes_append, nodes_append]
  refine List.Sublist.append (List.Sublist.cons_cons l (List.sublist_append_left as rs)) (List.Sublist.refl _)

theorem before_ne_end (nodup : (nodes l (as ++ bs)).Nodup) : before l as ≠ listEnd l := by
  rw [nodes_append] at nodup
  refine (List.nodup_append.mp nodup).2.2 _ ?_ _ (by simp)
  exact List.mem_of_getLast? (getLast?_cons_before l as)

theorem behind_ne_head (nodup : (nodes l (as ++ bs)).Nodup) : behind l bs ≠ l := by
  rw [nodes_append] at nodup
  refine ((List.nodup_append.mp nodup).2.2 _ (by simp) _ ?_).symm
  exact List.mem_of_head? (head?_behind l bs)

theorem nodes_range (l : ℕ) (as rs bs : List ℕ) :
    nodes l (as ++ rs ++ bs) = (l :: as) ++ rs ++ (bs ++ [listEnd l]) := by
  simp [nodes]

theorem range_mem {x : ℕ} (hx : x ∈ rs) : x ∈ nodes l (as ++ rs ++ bs) := by
  rw [nodes_range]
  exact List.mem_append_left _ (List.mem_append_right _ hx)

theorem nodup_range (w : ListAt h l (as ++ rs ++ bs)) : rs.Nodup := by
  have := w.nodup
  rw [nodes_range] at this
  exact (List.nodup_append.mp (List.nodup_append.mp this).1).2.1

theorem nonnull_range (w : ListAt h l (as ++ rs ++ bs)) : 0 ∉ rs := fun h0 => w.nonnull (range_mem h0)

/-- A range does not reach its neighbours. -/
theorem range_apart (w : ListAt h l (as ++ rs ++ bs)) :
    ∀ x ∈ rs, before l as ≠ x ∧ behind l bs ≠ x := by
  intro x hx
  have := w.nodup
  rw [nodes_range] at this
  obtain ⟨hl, -, hr⟩ := List.nodup_append.mp this
  obtain ⟨-, -, hm⟩ := List.nodup_append.mp hl
  exact ⟨hm _ (List.mem_of_getLast? (getLast?_cons_before l as)) x hx,
    (hr x (List.mem_append_right _ hx) _ (List.mem_of_head? (head?_behind l bs))).symm⟩

/-- Nor is it in what is left. -/
theorem range_not_rest (w : ListAt h l (as ++ rs ++ bs)) : ∀ x ∈ rs, x ∉ nodes l (as ++ bs) := by
  intro x hx hm
  have hnodup := w.nodup
  rw [nodes_range] at hnodup
  obtain ⟨hl, -, hr⟩ := List.nodup_append.mp hnodup
  rw [nodes_append] at hm
  rcases List.mem_append.mp hm with hm | hm
  · exact (List.nodup_append.mp hl).2.2 x hm x hx rfl
  · exact hr x (List.mem_append_right _ hx) x hm rfl

theorem next_of_range (w : ListAt h l (as ++ rs ++ bs)) {x : ℕ} (hx : x ∈ rs) :
    ∃ n, h.next x = some n ∧ n ≠ 0 := by
  obtain ⟨n, hn, e⟩ := (linked_iff_isChain.mpr w.chain).next_mem (y := x) (by simp [hx])
  exact ⟨n, e, w.ne_null (List.mem_cons_of_mem _ hn)⟩

theorem prev_of_range (w : ListAt h l (as ++ rs ++ bs)) {x : ℕ} (hx : x ∈ rs) :
    ∃ p, h.prev x = some p ∧ p ≠ 0 := by
  obtain ⟨p, hp, e⟩ := (linked_iff_isChain.mpr w.chain).prev_mem (y := x) (by simp [hx])
  exact ⟨p, e, w.ne_null (List.mem_append_left _ hp)⟩

/-- A range is taken out of a list by two stores. -/
theorem cut (w : ListAt h l (as ++ rs ++ bs))
    (hnext : h'.next = Function.update h.next (before l as) (some (behind l bs)))
    (hprev : h'.prev = Function.update h.prev (behind l bs) (some (before l as))) :
    ListAt h' l (as ++ bs) ∧ rs.IsChain (Joined h'.next h'.prev) := by
  have hnodes : nodes l (as ++ rs ++ bs) = (l :: as) ++ rs ++ (bs ++ [listEnd l]) := by
    simp [nodes]
  have hchain := w.chain
  have hnodup := w.nodup
  rw [hnodes] at hchain hnodup
  obtain ⟨hrest, hrange⟩ := isChain_cut hchain hnodup (getLast?_cons_before l as) (head?_behind l bs)
  rw [hnext, hprev]
  refine ⟨⟨?_, ?_, ?_, w.nodup_cut, fun h0 => w.nonnull ?_⟩, hrange⟩
  · rw [hnext, hprev, nodes_append]
    exact hrest
  · rw [hprev, Function.update_of_ne (behind_ne_head w.nodup_cut).symm, w.first]
  · rw [hnext, Function.update_of_ne (before_ne_end w.nodup_cut).symm, w.last]
  · rw [nodes_append] at h0
    rw [hnodes, List.append_assoc]
    rcases List.mem_append.mp h0 with h0 | h0
    · exact List.mem_append_left _ h0
    · exact List.mem_append_right _ (List.mem_append_right _ h0)

/-- A range is put into a list by four stores. -/
theorem paste {f z : ℕ} (w : ListAt h l (as ++ bs)) (range : rs.IsChain (Joined h.next h.prev))
    (nodup : rs.Nodup) (nonnull : 0 ∉ rs) (apart : ∀ x ∈ rs, x ∉ nodes l (as ++ bs))
    (hf : rs.head? = some f) (hz : rs.getLast? = some z)
    (hnext : h'.next = Function.update (Function.update h.next z (some (behind l bs)))
      (before l as) (some f))
    (hprev : h'.prev = Function.update (Function.update h.prev f (some (before l as)))
      (behind l bs) (some z)) :
    ListAt h' l (as ++ rs ++ bs) := by
  have hnodes : nodes l (as ++ rs ++ bs) = (l :: as) ++ rs ++ (bs ++ [listEnd l]) := by
    simp [nodes]
  have hchain := w.chain
  have hnodup := w.nodup
  rw [nodes_append] at hchain hnodup
  obtain ⟨hA, hB, -⟩ := List.isChain_append.mp hchain
  have hperm : ((l :: as) ++ rs ++ (bs ++ [listEnd l])).Perm (rs ++ ((l :: as) ++ (bs ++ [listEnd l]))) := by
    rw [← List.append_assoc rs]
    exact List.Perm.append_right _ List.perm_append_comm
  have hall : ((l :: as) ++ rs ++ (bs ++ [listEnd l])).Nodup := by
    refine hperm.nodup_iff.mpr (List.nodup_append.mpr ⟨nodup, hnodup, ?_⟩)
    rintro x hx _ hy rfl
    exact apart x hx (by rwa [nodes_append])
  have hfr : f ∈ rs := List.mem_of_head? hf
  have hzr : z ∈ rs := List.mem_of_getLast? hz
  have hend : z ≠ listEnd l := fun e => apart z hzr (e ▸ by simp [nodes])
  have hhead : f ≠ l := fun e => apart f hfr (e ▸ by simp [nodes])
  refine ⟨?_, ?_, ?_, by rwa [hnodes], ?_⟩
  · rw [hnext, hprev, hnodes]
    exact isChain_paste hA hB range hall (getLast?_cons_before l as) (head?_behind l bs) hf hz
  · rw [hprev, Function.update_of_ne (behind_ne_head w.nodup).symm, Function.update_of_ne hhead.symm,
      w.first]
  · rw [hnext, Function.update_of_ne (before_ne_end w.nodup).symm, Function.update_of_ne hend.symm,
      w.last]
  · rw [hnodes, hperm.mem_iff, List.mem_append, ← nodes_append]
    rintro (h0 | h0)
    · exact nonnull h0
    · exact w.nonnull h0

end ListAt

/-! ## `list_insert` and `list_remove` -/

/-- An element that is in memory, and can be put into the list. -/
structure Fresh (h : Heap ν) (l : ℕ) (xs : List ℕ) (a : ℕ) : Prop where
  mapped : h.Mapped a
  nonnull : a ≠ 0
  new : a ∉ nodes l xs

/-- **`list_insert`** -/
theorem listInsert_spec (w : ListAt h l (as ++ bs)) (fresh : Fresh h l (as ++ bs) a) :
    ∃ h', listInsert (behind l bs) a h = .ok () h' ∧ ListAt h' l (as ++ a :: bs) ∧
      Frame [a, before l as, behind l bs] h h' := by
  have hbm : h.Mapped (behind l bs) := Heap.mapped_of_prev w.prev_behind
  obtain ⟨e, he⟩ := Option.isSome_iff_exists.mp hbm
  have hpm : h.Mapped (before l as) := Heap.mapped_of_next w.next_before
  have hprev : e.prev = before l as := by
    have := w.prev_behind
    simpa [Heap.prev, he] using this
  have hna : behind l bs ≠ a := fun e => fresh.new (e ▸ behind_mem l as bs)
  have hpa : before l as ≠ a := fun e => fresh.new (e ▸ before_mem l as bs)
  -- the four stores
  set h1 := h.withPrev a (before l as) with hh1
  set h2 := h1.withNext a (behind l bs) with hh2
  set h3 := h2.withNext (before l as) a with hh3
  have he2 : h2.elem (behind l bs) = some e := by
    rw [hh2, Heap.withNext_elem_of_ne hna, hh1, Heap.withPrev_elem_of_ne hna, he]
  have hm1 : h1.Mapped a := Heap.mapped_withPrev.mpr fresh.mapped
  have hm2 : h2.Mapped (before l as) := Heap.mapped_withNext.mpr (Heap.mapped_withPrev.mpr hpm)
  have hm3 : h3.Mapped (behind l bs) :=
    Heap.mapped_withNext.mpr (Heap.mapped_withNext.mpr (Heap.mapped_withPrev.mpr hbm))
  refine ⟨h3.withPrev (behind l bs) a, ?_, ?_, ?_⟩
  · rw [listInsert, isInterior_bind he w.behind_ne_zero, isTail_bind he w.behind_ne_zero,
      listAssert_bind (by
        have h0 : e.prev ≠ 0 := hprev ▸ w.before_ne_zero
        by_cases hn : e.next = 0 <;> simp [h0, hn]),
      listAssert_bind (by simpa using fresh.nonnull), getElem_bind he, hprev,
      withPrev_bind fresh.mapped, withNext_bind hm1, getElem_bind he2, hprev, withNext_bind hm2,
      setPrev_run hm3]
  · have hrange : [a].IsChain (Joined h.next h.prev) := .singleton a
    have hpasted : ListAt (h3.withPrev (behind l bs) a) l (as ++ [a] ++ bs) :=
      w.paste (f := a) (z := a) hrange (List.nodup_singleton a) (by simpa using fresh.nonnull.symm)
        (by simpa using fresh.new) rfl rfl ?_ ?_
    · simpa using hpasted
    · rw [Heap.withPrev_next, hh3, Heap.withNext_next hm2, hh2, Heap.withNext_next hm1, hh1, Heap.withPrev_next]
    · rw [Heap.withPrev_prev hm3, hh3, Heap.withNext_prev, hh2, Heap.withNext_prev, hh1,
        Heap.withPrev_prev fresh.mapped]
  · refine ⟨rfl, fun y hy => ?_⟩
    simp only [List.mem_cons, List.not_mem_nil, or_false, not_or] at hy
    rw [Heap.withPrev_elem_of_ne hy.2.2, hh3, Heap.withNext_elem_of_ne hy.2.1, hh2,
      Heap.withNext_elem_of_ne hy.1, hh1, Heap.withPrev_elem_of_ne hy.1]

/-- **`list_remove`** -/
theorem listRemove_spec (w : ListAt h l (as ++ a :: bs)) :
    ∃ h', listRemove a h = .ok (behind l bs) h' ∧ ListAt h' l (as ++ bs) ∧
      Frame [before l as, behind l bs] h h' ∧ h'.elem a = h.elem a := by
  have w' : ListAt h l (as ++ [a] ++ bs) := by simpa using w
  have hprev : h.prev a = some (before l as) := w.prev_behind
  have hlast : before l (as ++ [a]) = a := by simp [before]
  have hnext : h.next a = some (behind l bs) := by
    have := w'.next_before
    rwa [hlast] at this
  have he : h.elem a = some ⟨before l as, behind l bs⟩ := elem_of hprev hnext
  have ha0 : a ≠ 0 := w.behind_ne_zero
  have hp0 : before l as ≠ 0 := w.before_ne_zero
  have hb0 : behind l bs ≠ 0 := w'.behind_ne_zero
  have hpm : h.Mapped (before l as) := Heap.mapped_of_next w.next_before
  have hbm : h.Mapped (behind l bs) := Heap.mapped_of_prev w'.prev_behind
  obtain ⟨hpa, hba⟩ := w'.range_apart a (by simp)
  set h1 := h.withNext (before l as) (behind l bs) with hh1
  have he1 : h1.elem a = some ⟨before l as, behind l bs⟩ := by
    rw [hh1, Heap.withNext_elem_of_ne hpa.symm, he]
  have hm1 : h1.Mapped (behind l bs) := Heap.mapped_withNext.mpr hbm
  have he2 : (h1.withPrev (behind l bs) (before l as)).elem a = some ⟨before l as, behind l bs⟩ := by
    rw [Heap.withPrev_elem_of_ne hba.symm, he1]
  refine ⟨h1.withPrev (behind l bs) (before l as), ?_, (w'.cut ?_ ?_).1, ⟨rfl, fun y hy => ?_⟩, ?_⟩
  · rw [listRemove, isInterior_bind he ha0, listAssert_bind (by simp [hp0, hb0]), getElem_bind he,
      getElem_bind he, withNext_bind hpm, getElem_bind he1, getElem_bind he1, withPrev_bind hm1,
      getElem_bind he2]
    rfl
  · rw [Heap.withPrev_next, hh1, Heap.withNext_next hpm]
  · rw [Heap.withPrev_prev hm1, hh1, Heap.withNext_prev]
  · simp only [List.mem_cons, List.not_mem_nil, or_false, not_or] at hy
    rw [Heap.withPrev_elem_of_ne hy.2, hh1, Heap.withNext_elem_of_ne hy.1]
  · rw [he2, he]

/-! ## `list_splice` -/

/-- The heap with a range taken out of the list `m`. -/
def Heap.without (h : Heap ν) (m : ℕ) (as bs : List ℕ) : Heap ν :=
  (h.withNext (before m as) (behind m bs)).withPrev (behind m bs) (before m as)

theorem ListAt.cut_without {m : ℕ} (w : ListAt h m (as ++ rs ++ bs)) :
    ListAt (h.without m as bs) m (as ++ bs) ∧
      rs.IsChain (Joined (h.without m as bs).next (h.without m as bs).prev) := by
  have wl : ListAt h m (as ++ (rs ++ bs)) := by simpa using w
  have hpm : h.Mapped (before m as) := Heap.mapped_of_next wl.next_before
  have hbm : h.Mapped (behind m bs) := Heap.mapped_of_prev w.prev_behind
  refine w.cut ?_ ?_
  · rw [Heap.without, Heap.withPrev_next, Heap.withNext_next hpm]
  · rw [Heap.without, Heap.withPrev_prev (Heap.mapped_withNext.mpr hbm), Heap.withNext_prev]

/-- `list_splice`, when the range `rs` of the list `m` goes to a place that is there once the range
is out. -/
theorem listSplice_run {m f : ℕ} {cs ds : List ℕ} (w : ListAt h m (as ++ rs ++ bs))
    (hf : rs.head? = some f) (w1 : ListAt (h.without m as bs) l (cs ++ ds))
    (apart : ∀ x ∈ rs, x ∉ nodes l (cs ++ ds)) {q : ℕ} (hq : h.prev (behind l ds) = some q)
    (hq0 : q ≠ 0) :
    ∃ h' z, rs.getLast? = some z ∧ listSplice (behind l ds) f (behind m bs) h = .ok () h' ∧
      ListAt h' l (cs ++ rs ++ ds) ∧
        Frame [f, z, before l cs, behind l ds] (h.without m as bs) h' := by
  have hrs : rs ≠ [] := by
    rintro rfl
    cases hf
  obtain ⟨z, hz⟩ : ∃ z, rs.getLast? = some z := ⟨_, List.getLast?_eq_getLast_of_ne_nil hrs⟩
  have hfr : f ∈ rs := List.mem_of_head? hf
  have hzr : z ∈ rs := List.mem_of_getLast? hz
  have wl : ListAt h m (as ++ (rs ++ bs)) := by simpa using w
  -- the ends of the range
  have hfirst : behind m (rs ++ bs) = f := by
    rw [behind, List.head?_append, hf]
    rfl
  have hlast : before m (as ++ rs) = z := by
    rw [before, List.getLast?_append, hz]
    rfl
  have hfp : h.prev f = some (before m as) := hfirst ▸ wl.prev_behind
  have hzn : h.next z = some (behind m bs) := hlast ▸ w.next_before
  have hbp : h.prev (behind m bs) = some z := hlast ▸ w.prev_behind
  have hpn : h.next (before m as) = some f := hfirst ▸ wl.next_before
  have hp0 : before m as ≠ 0 := wl.before_ne_zero
  have hb0 : behind m bs ≠ 0 := w.behind_ne_zero
  have hf0 : f ≠ 0 := hfirst ▸ wl.behind_ne_zero
  have hz0 : z ≠ 0 := hlast ▸ w.before_ne_zero
  obtain ⟨n, hfn, hn0⟩ := w.next_of_range hfr
  obtain ⟨p, hzp, hp0'⟩ := w.prev_of_range hzr
  have hef : h.elem f = some ⟨before m as, n⟩ := elem_of hfp hfn
  have hez : h.elem z = some ⟨p, behind m bs⟩ := elem_of hzp hzn
  obtain ⟨hpf, hbf⟩ := w.range_apart f hfr
  obtain ⟨hpz, hbz⟩ := w.range_apart z hzr
  have hpm : h.Mapped (before m as) := Heap.mapped_of_next hpn
  have hbm : h.Mapped (behind m bs) := Heap.mapped_of_prev hbp
  obtain ⟨eb, heb⟩ := Option.isSome_iff_exists.mp hbm
  -- the place
  have hq' : (behind l ds) ≠ 0 := w1.behind_ne_zero
  obtain ⟨ep, hep⟩ := Option.isSome_iff_exists.mp (Heap.mapped_of_prev hq)
  have hpq : ep.prev = q := by simpa [Heap.prev, hep] using hq
  set h0 := h.withNext (before m as) (behind m bs) with hh0
  set h1 := h.without m as bs with hh1
  have hef0 : h0.elem f = some ⟨before m as, n⟩ := by
    rw [hh0, Heap.withNext_elem_of_ne hpf.symm, hef]
  have hez0 : h0.elem z = some ⟨p, behind m bs⟩ := by
    rw [hh0, Heap.withNext_elem_of_ne hpz.symm, hez]
  have hbm0 : h0.Mapped (behind m bs) := Heap.mapped_withNext.mpr hbm
  have hmapped : ∀ y, h1.Mapped y ↔ h.Mapped y := fun y => by
    rw [hh1, Heap.without, Heap.mapped_withPrev, Heap.mapped_withNext]
  have hm1 : h1.Mapped f := (hmapped f).mpr (Heap.mapped_of_prev hfp)
  obtain ⟨e1, he1⟩ := Option.isSome_iff_exists.mp (Heap.mapped_of_prev w1.prev_behind)
  have he1p : e1.prev = before l cs := by
    have := w1.prev_behind
    simpa [Heap.prev, he1] using this
  have hfb : behind l ds ≠ f := fun e => apart f hfr (e ▸ behind_mem l cs ds)
  have hzb : behind l ds ≠ z := fun e => apart z hzr (e ▸ behind_mem l cs ds)
  set h2 := h1.withPrev f (before l cs) with hh2
  set h3 := h2.withNext z (behind l ds) with hh3
  set h4 := h3.withNext (before l cs) f with hh4
  have hm2 : h2.Mapped z := Heap.mapped_withPrev.mpr ((hmapped z).mpr (Heap.mapped_of_next hzn))
  have he3 : h3.elem (behind l ds) = some e1 := by
    rw [hh3, Heap.withNext_elem_of_ne hzb, hh2, Heap.withPrev_elem_of_ne hfb, he1]
  have hm3 : h3.Mapped (before l cs) :=
    Heap.mapped_withNext.mpr (Heap.mapped_withPrev.mpr (Heap.mapped_of_next w1.next_before))
  have hm4 : h4.Mapped (behind l ds) := Heap.mapped_withNext.mpr (Heap.mapped_withNext.mpr
    (Heap.mapped_withPrev.mpr (Heap.mapped_of_prev w1.prev_behind)))
  have hrun : listSplice (behind l ds) f (behind m bs) h = .ok () (h4.withPrev (behind l ds) z) := by
    have hprevrun : (listPrev (behind m bs) : ListCode ν ℕ) h = .ok z h := listPrev_run hb0 hbm hbp hz0
    rw [listSplice, isInterior_bind hep hq', isTail_bind hep hq', listAssert_bind (by
        have h0 : ep.prev ≠ 0 := hpq ▸ hq0
        by_cases hn : ep.next = 0 <;> simp [h0, hn]),
      if_neg hbf.symm, bind_of_ok hprevrun, isInterior_bind hef hf0, listAssert_bind (by simp [hp0, hn0]),
      isInterior_bind hez hz0, listAssert_bind (by simp [hp0', hb0]), getElem_bind hef, getElem_bind hez,
      withNext_bind hpm, getElem_bind hez0, getElem_bind hef0, withPrev_bind hbm0]
    change (getElem (behind l ds) >>= _) h1 = _
    rw [getElem_bind he1, he1p, withPrev_bind hm1, withNext_bind hm2, getElem_bind he3, he1p,
      withNext_bind hm3, setPrev_run hm4]
  refine ⟨h4.withPrev (behind l ds) z, z, hz, hrun, ?_, ⟨rfl, fun y hy => ?_⟩⟩
  · refine w1.paste w.cut_without.2 w.nodup_range (fun h0 => w.nonnull_range h0) apart hf hz ?_ ?_
    · rw [Heap.withPrev_next, hh4, Heap.withNext_next hm3, hh3, Heap.withNext_next hm2, hh2,
        Heap.withPrev_next]
    · rw [Heap.withPrev_prev hm4, hh4, Heap.withNext_prev, hh3, Heap.withNext_prev, hh2,
        Heap.withPrev_prev hm1]
  · simp only [List.mem_cons, List.not_mem_nil, or_false, not_or] at hy
    rw [Heap.withPrev_elem_of_ne hy.2.2.2, hh4, Heap.withNext_elem_of_ne hy.2.2.1, hh3,
      Heap.withNext_elem_of_ne hy.2.1, hh2, Heap.withPrev_elem_of_ne hy.1]

/-- An empty range. -/
theorem listSplice_nothing {b f q : ℕ} (hb : b ≠ 0) (hq : h.prev b = some q) (hq0 : q ≠ 0) :
    listSplice b f f h = .ok () h := by
  obtain ⟨e, he⟩ := Option.isSome_iff_exists.mp (Heap.mapped_of_prev hq)
  have hpq : e.prev = q := by simpa [Heap.prev, he] using hq
  rw [listSplice, isInterior_bind he hb, isTail_bind he hb, listAssert_bind (by
    have h0 : e.prev ≠ 0 := hpq ▸ hq0
    by_cases hn : e.next = 0 <;> simp [h0, hn]), if_pos rfl]
  rfl

theorem ListAt.place_mem {as bs cs ds : List ℕ} (e : cs ++ ds = as ++ bs) {y : ℕ}
    (hy : y ∈ nodes l (cs ++ ds)) : y ∈ nodes l (as ++ rs ++ bs) := by
  rw [e, nodes_append] at hy
  rw [nodes_range, List.append_assoc]
  rcases List.mem_append.mp hy with hy | hy
  · exact List.mem_append_left _ hy
  · exact List.mem_append_right _ (List.mem_append_right _ hy)

theorem ListAt.mem_of_rest {y : ℕ} (hy : y ∈ nodes l (as ++ bs)) : y ∈ nodes l (as ++ a :: bs) := by
  have : y ∈ nodes l (as ++ [a] ++ bs) := ListAt.place_mem rfl hy
  simpa using this

/-- What `list_splice` may touch. -/
theorem frame_splice {changed : List ℕ} {m f z : ℕ} {cs ds : List ℕ}
    (w : Frame [f, z, before l cs, behind l ds] (h.without m as bs) h')
    (hf : f ∈ changed) (hz : z ∈ changed) (hx : before m as ∈ changed) (hy : behind m bs ∈ changed)
    (hp : before l cs ∈ changed) (hb : behind l ds ∈ changed) : Frame changed h h' := by
  refine ⟨w.data, fun y hy' => ?_⟩
  have hne : ∀ {u}, u ∈ changed → y ≠ u := fun hu e => hy' (e ▸ hu)
  rw [w.elem y (by simp [hne hf, hne hz, hne hp, hne hb]), Heap.without,
    Heap.withPrev_elem_of_ne (hne hy), Heap.withNext_elem_of_ne (hne hx)]

/-- **`list_splice` within one list**: the range goes to a place outside of it. -/
theorem listSplice_same {cs ds : List ℕ} (w : ListAt h l (as ++ rs ++ bs)) (e : cs ++ ds = as ++ bs) :
    ∃ h', listSplice (behind l ds) (behind l (rs ++ bs)) (behind l bs) h = .ok () h' ∧
      ListAt h' l (cs ++ rs ++ ds) ∧ Frame (nodes l (as ++ rs ++ bs)) h h' := by
  have hplace : behind l ds ∈ nodes l (as ++ rs ++ bs) := ListAt.place_mem e (behind_mem l cs ds)
  have hnodup : (nodes l (cs ++ ds)).Nodup := e ▸ w.nodup_cut
  obtain ⟨q, hqm, hq⟩ := w.exists_prev hplace (ListAt.behind_ne_head hnodup)
  have hq0 : q ≠ 0 := w.ne_null hqm
  cases hrs : rs with
  | nil =>
      subst hrs
      have wl : ListAt h l (cs ++ ds) := by simpa [e] using w
      refine ⟨h, ?_, by simpa using wl, .refl h⟩
      exact listSplice_nothing wl.behind_ne_zero hq hq0
  | cons f rs' =>
      rw [← hrs]
      have hf : rs.head? = some f := by simp [hrs]
      have hfirst : behind l (rs ++ bs) = f := by simp [behind, hrs]
      have w1 : ListAt (h.without l as bs) l (cs ++ ds) := e ▸ w.cut_without.1
      have apart : ∀ x ∈ rs, x ∉ nodes l (cs ++ ds) := fun x hx => e ▸ w.range_not_rest x hx
      obtain ⟨h', z, hz, hrun, wl, hframe⟩ := listSplice_run w hf w1 apart hq hq0
      refine ⟨h', by rwa [hfirst], wl, frame_splice hframe (ListAt.range_mem (List.mem_of_head? hf))
        (ListAt.range_mem (List.mem_of_getLast? hz)) ?_ ?_ (ListAt.place_mem e (before_mem l cs ds)) hplace⟩
      · rw [List.append_assoc]
        exact before_mem l as _
      · exact behind_mem l _ bs

/-- **`list_splice` between two lists.** -/
theorem listSplice_other {m : ℕ} {cs ds : List ℕ} (w : ListAt h m (as ++ rs ++ bs))
    (wl : ListAt h l (cs ++ ds)) (hne : m ≠ l) :
    ∃ h', listSplice (behind l ds) (behind m (rs ++ bs)) (behind m bs) h = .ok () h' ∧
      ListAt h' m (as ++ bs) ∧ ListAt h' l (cs ++ rs ++ ds) ∧
        Frame (nodes m (as ++ rs ++ bs) ++ nodes l (cs ++ ds)) h h' := by
  have hq := wl.prev_behind
  have hq0 := wl.before_ne_zero
  have hdisj := w.disjoint wl hne
  cases hrs : rs with
  | nil =>
      subst hrs
      exact ⟨h, listSplice_nothing wl.behind_ne_zero hq hq0, by simpa using w, by simpa using wl, .refl h⟩
  | cons f rs' =>
      rw [← hrs]
      have hf : rs.head? = some f := by simp [hrs]
      have hfirst : behind m (rs ++ bs) = f := by simp [behind, hrs]
      have hx : before m as ∈ nodes m (as ++ rs ++ bs) := by
        rw [List.append_assoc]
        exact before_mem m as _
      have hy : behind m bs ∈ nodes m (as ++ rs ++ bs) := behind_mem m _ bs
      obtain ⟨wm, -⟩ := w.cut_without
      have w1 : ListAt (h.without m as bs) l (cs ++ ds) := wl.congr fun y hy' => by
        have hne : ∀ u ∈ nodes m (as ++ rs ++ bs), y ≠ u := by
          rintro u hu rfl
          exact hdisj y hu hy'
        rw [Heap.without, Heap.withPrev_elem_of_ne (hne _ hy), Heap.withNext_elem_of_ne (hne _ hx)]
      have apart : ∀ x ∈ rs, x ∉ nodes l (cs ++ ds) := fun x hx => hdisj x (ListAt.range_mem hx)
      obtain ⟨h', z, hz, hrun, wl', hframe⟩ := listSplice_run w hf w1 apart hq hq0
      have hfm : f ∈ nodes m (as ++ rs ++ bs) := ListAt.range_mem (List.mem_of_head? hf)
      have hzm : z ∈ nodes m (as ++ rs ++ bs) := ListAt.range_mem (List.mem_of_getLast? hz)
      refine ⟨h', by rwa [hfirst], ?_, wl', frame_splice hframe (List.mem_append_left _ hfm)
        (List.mem_append_left _ hzm) (List.mem_append_left _ hx) (List.mem_append_left _ hy)
        (List.mem_append_right _ (before_mem l cs ds)) (List.mem_append_right _ (behind_mem l cs ds))⟩
      -- the four stores that put the range in are not in the rest of the list it came from
      refine wm.congr fun y hym => hframe.elem y ?_
      have hym' : y ∈ nodes m (as ++ rs ++ bs) := ListAt.place_mem rfl hym
      have hapart : ∀ x ∈ rs, y ≠ x := by
        rintro x hx rfl
        exact w.range_not_rest y hx hym
      have hnl : ∀ x ∈ nodes l (cs ++ ds), y ≠ x := by
        rintro x hx rfl
        exact hdisj y hym' hx
      simp only [List.mem_cons, List.not_mem_nil, or_false, not_or]
      exact ⟨hapart f (List.mem_of_head? hf), hapart z (List.mem_of_getLast? hz),
        hnl _ (before_mem l cs ds), hnl _ (behind_mem l cs ds)⟩

/-! ## The ends of a list -/

theorem listBegin_run {xs : List ℕ} (w : ListAt h l xs) :
    (listBegin l : ListCode ν ℕ) h = .ok (behind l xs) h := by
  have w0 : ListAt h l ([] ++ xs) := w
  have hn : h.next l = some (behind l xs) := w0.next_before
  have hl : l ≠ 0 := w.ne_null (by simp [nodes])
  rw [listBegin, listAssert_bind (by simpa using hl), getElem_bind (elem_of w.first hn)]
  rfl

theorem ListAt.behind_eq_end {xs : List ℕ} (w : ListAt h l (as ++ xs)) :
    behind l xs = listEnd l ↔ xs = [] := by
  cases xs with
  | nil => simp [behind]
  | cons x xs =>
      refine iff_of_false (fun e => ?_) (by simp)
      have hx : x = listEnd l := e
      have := w.nodup
      rw [nodes_append] at this
      have hnot := (List.nodup_cons.mp (List.nodup_append.mp this).2.1).1
      exact hnot (by simp [hx])

theorem listEmpty_run {xs : List ℕ} (w : ListAt h l xs) :
    (listEmpty l : ListCode ν Bool) h = .ok (decide (xs = [])) h := by
  rw [listEmpty, bind_of_ok (listBegin_run w)]
  have w0 : ListAt h l ([] ++ xs) := w
  have : (decide (behind l xs = listEnd l)) = decide (xs = []) :=
    decide_eq_decide.mpr w0.behind_eq_end
  rw [this]
  rfl

/-- The step from an element to the one behind it. -/
theorem listNext_behind {x : ℕ} (w : ListAt h l (as ++ x :: bs)) :
    (listNext x : ListCode ν ℕ) h = .ok (behind l bs) h := by
  have w' : ListAt h l (as ++ [x] ++ bs) := by simpa using w
  have hp : h.prev x = some (before l as) := w.prev_behind
  have hn : h.next x = some (behind l bs) := by
    have := w'.next_before
    rwa [show before l (as ++ [x]) = x by simp [before]] at this
  exact listNext_run (elem_of hp hn) w.behind_ne_zero w'.behind_ne_zero

theorem frame_insert {as bs : List ℕ} (w : Frame [a, before l as, behind l bs] h h') :
    Frame (a :: nodes l (as ++ bs)) h h' := by
  refine w.mono fun y hy => ?_
  simp only [List.mem_cons, List.not_mem_nil, or_false] at hy
  rcases hy with rfl | rfl | rfl
  · exact List.mem_cons_self
  · exact List.mem_cons_of_mem _ (before_mem l as bs)
  · exact List.mem_cons_of_mem _ (behind_mem l as bs)

/-- `list_push_front`. -/
theorem listPushFront_refines {xs : List ℕ} (w : ListAt h l xs) (fresh : Fresh h l xs a) :
    ∃ h', listPushFront l a h = .ok () h' ∧ ListAt h' l (a :: xs) ∧ Frame (a :: nodes l xs) h h' := by
  have w0 : ListAt h l ([] ++ xs) := w
  obtain ⟨h', hrun, wl, hframe⟩ := listInsert_spec w0 fresh
  refine ⟨h', ?_, wl, frame_insert hframe⟩
  rw [listPushFront, bind_of_ok (listBegin_run w)]
  exact hrun

/-- `list_push_back`. -/
theorem listPushBack_refines {xs : List ℕ} (w : ListAt h l xs) (fresh : Fresh h l xs a) :
    ∃ h', listPushBack l a h = .ok () h' ∧ ListAt h' l (xs ++ [a]) ∧ Frame (a :: nodes l xs) h h' := by
  have w' : ListAt h l (xs ++ []) := by simpa using w
  have fresh' : Fresh h l (xs ++ []) a := by simpa using fresh
  obtain ⟨h', hrun, wl, hframe⟩ := listInsert_spec w' fresh'
  refine ⟨h', hrun, wl, ?_⟩
  have := frame_insert hframe
  rwa [List.append_nil] at this

theorem frame_remove {as bs : List ℕ} (w : Frame [before l as, behind l bs] h h') :
    Frame (nodes l (as ++ a :: bs)) h h' := by
  refine w.mono fun y hy => ?_
  simp only [List.mem_cons, List.not_mem_nil, or_false] at hy
  rcases hy with rfl | rfl
  · exact before_mem l as _
  · have := behind_mem l (as ++ [a]) bs
    simpa using this

/-- `list_pop_front`. -/
theorem listPopFront_spec {x : ℕ} {xs : List ℕ} (w : ListAt h l (x :: xs)) :
    ∃ h', listPopFront l h = .ok x h' ∧ ListAt h' l xs ∧ Frame (nodes l (x :: xs)) h h' := by
  have w0 : ListAt h l ([] ++ x :: xs) := w
  obtain ⟨h', hrun, wl, hframe, -⟩ := listRemove_spec w0
  refine ⟨h', ?_, wl, frame_remove hframe⟩
  have hn : h.next l = some x := w0.next_before
  have hfront : (listFront l : ListCode ν ℕ) h = .ok x h := by
    rw [listFront, bind_of_ok (listEmpty_run w), listAssert_bind (by simp),
      getElem_bind (elem_of w.first hn)]
    rfl
  rw [listPopFront, bind_of_ok hfront, bind_of_ok hrun]
  rfl

/-- `list_pop_back`. -/
theorem listPopBack_spec {x : ℕ} {xs : List ℕ} (w : ListAt h l (xs ++ [x])) :
    ∃ h', listPopBack l h = .ok x h' ∧ ListAt h' l xs ∧ Frame (nodes l (xs ++ [x])) h h' := by
  obtain ⟨h', hrun, wl, hframe, -⟩ := listRemove_spec w
  refine ⟨h', ?_, by simpa using wl, frame_remove hframe⟩
  have w' : ListAt h l (xs ++ [x] ++ []) := by simpa using w
  have hp : h.prev (listEnd l) = some x := by
    have := w'.prev_behind
    rwa [show before l (xs ++ [x]) = x by simp [before]] at this
  have hback : (listBack l : ListCode ν ℕ) h = .ok x h := by
    rw [listBack, bind_of_ok (listEmpty_run w), listAssert_bind (by simp),
      getElem_bind (elem_of hp w.last)]
    rfl
  rw [listPopBack, bind_of_ok hback, bind_of_ok hrun]
  rfl

end

end Pintos.Containers
