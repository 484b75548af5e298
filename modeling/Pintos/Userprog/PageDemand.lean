import Pintos.Userprog.Frame

/-!
# The pages that a mapping takes

Each page of a program is asked for, and so is a page for every page table the page directory does
not have yet.  What the allocator finds depends on what was asked for before, not on what the pages
are for, so it can be said beforehand whether there are pages enough: `Kernel.page k n` is what it
finds after `n` other requests, and `Kernel.demand` counts the requests.

* **`Kernel.CanMap`** — pages can be mapped to these addresses.
* **`Mapped`** — they were, and **`Mapped.append`**, **`Mapped.canMap_append`** put mappings one after
  the other.
* **`installPage_demand`** — when `install_page` returns true.
-/

namespace Pintos.Userprog

open Lib
open Vm (Memory PageDir PageTable Pte Image PallocFlags pgSize physBase isUserVaddr pdNo ptNo fillPage
  copyBytes)

/-! ## Requests -/

/-- The state after `n` pages were asked for. -/
def Kernel.gets (k : Kernel) : ℕ → Kernel
  | 0 => k
  | n + 1 => (k.gets n).afterGet {}

/-- The page that is found after `n` other requests. -/
def Kernel.page (k : Kernel) (n : ℕ) : Option ℕ := (k.gets n).found

/-- Between `k` and `k'` there were `n` requests, and no page was given back. -/
structure Asked (n : ℕ) (k k' : Kernel) : Prop where
  answers : k'.answers = k.answers
  asked : k'.asked = (k.gets n).asked
  used : k'.used = (k.gets n).used
  ram : k'.initRamPages = k.initRamPages

section Asked

variable {k k' k'' : Kernel} {m n : ℕ}

theorem grown_gets (k : Kernel) : ∀ n, Grown k (k.gets n)
  | 0 => .refl k
  | n + 1 => (grown_gets k n).trans (grown_afterGet _ _)

theorem answers_afterGet (k : Kernel) (flags : PallocFlags) : (k.afterGet flags).answers = k.answers := by
  rw [(grown_afterGet k flags).rest]

namespace Asked

theorem refl (k : Kernel) : Asked 0 k k := ⟨rfl, rfl, rfl, rfl⟩

theorem found (h : Asked n k k') : k'.found = k.page n := by
  have hrest := (grown_gets k n).rest
  refine found_congr ?_ h.asked h.used (h.ram.trans (grown_gets k n).initRamPages_eq.symm)
  rw [hrest]
  exact h.answers

/-- One more request, whatever the page is for. -/
theorem afterGet (h : Asked n k k') (flags : PallocFlags) : Asked (n + 1) k (k'.afterGet flags) where
  answers := (answers_afterGet k' flags).trans h.answers
  asked := by
    rw [asked_afterGet, h.asked, Kernel.gets, asked_afterGet]
  used := by
    rw [used_afterGet, h.found, h.used, Kernel.gets, used_afterGet]
    rfl
  ram := (grown_afterGet k' flags).initRamPages_eq.trans h.ram

/-- Nothing but other parts of the state changes. -/
theorem of_same (h : Asked n k k') (hanswers : k''.answers = k'.answers) (hasked : k''.asked = k'.asked)
    (hused : k''.used = k'.used) (hram : k''.initRamPages = k'.initRamPages) : Asked n k k'' :=
  ⟨hanswers.trans h.answers, hasked.trans h.asked, hused.trans h.used, hram.trans h.ram⟩

theorem gets (h : Asked n k k') : ∀ m, Asked (n + m) k (k'.gets m)
  | 0 => h
  | m + 1 => (h.gets m).afterGet _

/-- What is found later. -/
theorem page (h : Asked n k k') (m : ℕ) : k'.page m = k.page (n + m) := (h.gets m).found

theorem trans (h : Asked n k k') (h' : Asked m k' k'') : Asked (n + m) k k'' := by
  have hgets := h.gets m
  exact ⟨h'.answers.trans h.answers, h'.asked.trans hgets.asked, h'.used.trans hgets.used,
    h'.ram.trans h.ram⟩

end Asked

theorem forall_page_append (h : Asked n k k') :
    (∀ j < n + m, k.page j ≠ none) ↔ (∀ j < n, k.page j ≠ none) ∧ ∀ j < m, k'.page j ≠ none := by
  constructor
  · exact fun hall => ⟨fun j hj => hall j (by omega), fun j hj => h.page j ▸ hall (n + j) (by omega)⟩
  · rintro ⟨hfirst, hrest⟩ j hj
    rcases Nat.lt_or_ge j n with hlt | hge
    · exact hfirst j hlt
    · have := hrest (j - n) (by omega)
      rwa [h.page, Nat.add_sub_cancel' hge] at this

end Asked

/-! ## Pages for some addresses -/

/-- The page directory has a page table with this number. -/
def Kernel.hasTable (k : Kernel) (i : ℕ) : Bool := (k.pagedir.bind fun pd => pd.tables i).isSome

/-- How many pages are asked for, for pages at the addresses `as`. -/
def Kernel.demand (k : Kernel) (as : List ℕ) : ℕ :=
  as.length + ((as.map pdNo).toFinset.filter fun i => k.hasTable i = false).card

/-- Pages can be mapped to these addresses: nothing is mapped there, no address is twice among them,
and there are pages enough. -/
structure Kernel.CanMap (k : Kernel) (as : List ℕ) : Prop where
  free : ∀ a ∈ as, k.entryAt a = none
  apart : as.Nodup
  pages : ∀ j < k.demand as, k.page j ≠ none

/-- Every page that is mapped was taken. -/
def Kernel.Owned (k : Kernel) : Prop :=
  ∀ a pte, k.entryAt a = some pte → pte.kpage ∈ k.used ∧ isRamPage k.initRamPages pte.kpage = true

/-- Pages were mapped to these addresses, and nothing else. -/
structure Mapped (k k' : Kernel) (as : List ℕ) : Prop where
  asked : Asked (k.demand as) k k'
  entries : ∀ a, a % pgSize = 0 → (k'.entryAt a = none ↔ k.entryAt a = none ∧ a ∉ as)
  tables : ∀ i, k'.hasTable i = true ↔ k.hasTable i = true ∨ i ∈ as.map pdNo
  owned : k.Owned → k'.Owned

section Mapped

variable {k k' k'' : Kernel} {as bs : List ℕ} {a : ℕ}

/-- Page tables come into being with the first address that needs them. -/
theorem demand_append (h : ∀ i, k'.hasTable i = true ↔ k.hasTable i = true ∨ i ∈ as.map pdNo) :
    k.demand (as ++ bs) = k.demand as + k'.demand bs := by
  have hunion : (((as ++ bs).map pdNo).toFinset.filter fun i => k.hasTable i = false) =
      ((as.map pdNo).toFinset.filter fun i => k.hasTable i = false) ∪
        ((bs.map pdNo).toFinset.filter fun i => k'.hasTable i = false) := by
    ext i
    have hi := h i
    simp only [List.map_append, List.toFinset_append, Finset.mem_filter, Finset.mem_union,
      List.mem_toFinset, ← Bool.not_eq_true] at hi ⊢
    tauto
  have hdisjoint : Disjoint ((as.map pdNo).toFinset.filter fun i => k.hasTable i = false)
      ((bs.map pdNo).toFinset.filter fun i => k'.hasTable i = false) := by
    refine Finset.disjoint_left.mpr fun i hi hi' => ?_
    have hmem := (Finset.mem_filter.mp hi).1
    have hnone := (Finset.mem_filter.mp hi').2
    rw [(h i).mpr (.inr (List.mem_toFinset.mp hmem))] at hnone
    cases hnone
  rw [Kernel.demand, Kernel.demand, Kernel.demand, hunion, Finset.card_union_of_disjoint hdisjoint,
    List.length_append]
  omega

theorem Mapped.nil (k : Kernel) : Mapped k k [] where
  asked := .refl k
  entries _ _ := by simp
  tables _ := by simp
  owned := id

theorem canMap_nil (k : Kernel) : k.CanMap [] where
  free _ ha := absurd ha List.not_mem_nil
  apart := List.nodup_nil
  pages j hj := absurd hj (Nat.not_lt_zero j)

/-- **Mappings one after the other.** -/
theorem Mapped.append (h : Mapped k k' as) (h' : Mapped k' k'' bs) : Mapped k k'' (as ++ bs) where
  asked := by
    rw [demand_append h.tables]
    exact h.asked.trans h'.asked
  entries a ha := by
    rw [h'.entries a ha, h.entries a ha, List.mem_append]
    tauto
  tables i := by
    rw [h'.tables, h.tables, List.map_append, List.mem_append]
    tauto
  owned hk := h'.owned (h.owned hk)

theorem Kernel.CanMap.left (h : k.CanMap (as ++ bs)) : k.CanMap as where
  free a ha := h.free a (List.mem_append_left _ ha)
  apart := h.apart.of_append_left
  pages j hj := by
    refine h.pages j (lt_of_lt_of_le hj ?_)
    rw [Kernel.demand, Kernel.demand, List.length_append, List.map_append, List.toFinset_append]
    refine Nat.add_le_add (Nat.le_add_right _ _) (Finset.card_le_card ?_)
    exact Finset.filter_subset_filter _ Finset.subset_union_left

/-- **What can be mapped after a mapping.** -/
theorem Mapped.canMap_append (h : Mapped k k' as) (haligned : ∀ a ∈ bs, a % pgSize = 0) :
    k.CanMap (as ++ bs) ↔ k.CanMap as ∧ k'.CanMap bs := by
  have hdemand : k.demand (as ++ bs) = k.demand as + k'.demand bs := demand_append h.tables
  constructor
  · intro hall
    refine ⟨hall.left, fun a ha => ?_, hall.apart.of_append_right, fun j hj => ?_⟩
    · rw [h.entries a (haligned a ha)]
      exact ⟨hall.free a (List.mem_append_right _ ha),
        fun hm => (List.nodup_append.mp hall.apart).2.2 a hm a ha rfl⟩
    · rw [h.asked.page]
      exact hall.pages _ (by omega)
  · rintro ⟨hfirst, hrest⟩
    refine ⟨fun a ha => ?_, ?_, ?_⟩
    · rcases List.mem_append.mp ha with ha | ha
      · exact hfirst.free a ha
      · exact ((h.entries a (haligned a ha)).mp (hrest.free a ha)).1
    · refine List.nodup_append.mpr ⟨hfirst.apart, hrest.apart, fun a ha b hb e => ?_⟩
      subst e
      exact ((h.entries a (haligned a hb)).mp (hrest.free a hb)).2 ha
    · rw [hdemand]
      exact (forall_page_append h.asked).mpr ⟨hfirst.pages, hrest.pages⟩

/-- Other parts of the state do not matter. -/
theorem Asked.canMap_congr (h : Asked 0 k k') (hdir : k'.pagedir = k.pagedir) :
    k'.CanMap as ↔ k.CanMap as := by
  have hentry : ∀ a, k'.entryAt a = k.entryAt a := fun a => by rw [Kernel.entryAt, Kernel.entryAt, hdir]
  have hhas : ∀ i, k'.hasTable i = k.hasTable i := fun i => by rw [Kernel.hasTable, Kernel.hasTable, hdir]
  have hdemand : k'.demand as = k.demand as := by simp only [Kernel.demand, hhas]
  have hpage : ∀ j, k'.page j = k.page j := fun j => by rw [h.page, Nat.zero_add]
  constructor
  · rintro ⟨h1, h2, h3⟩
    exact ⟨fun a ha => hentry a ▸ h1 a ha, h2, fun j hj => hpage j ▸ h3 j (hdemand ▸ hj)⟩
  · rintro ⟨h1, h2, h3⟩
    exact ⟨fun a ha => (hentry a).trans (h1 a ha), h2, fun j hj => hpage j ▸ h3 j (hdemand ▸ hj)⟩

theorem Asked.mapped_nil (h : Asked 0 k k') (hdir : k'.pagedir = k.pagedir) : Mapped k k' [] where
  asked := h
  entries a _ := by simp [Kernel.entryAt, hdir]
  tables i := by simp [Kernel.hasTable, hdir]
  owned hk a pte hpte := by
    rw [Kernel.entryAt, hdir] at hpte
    rw [h.ram, h.used]
    exact hk a pte hpte

/-- The demand of one page. -/
theorem demand_singleton (k : Kernel) (a : ℕ) :
    k.demand [a] = 1 + if k.hasTable (pdNo a) = true then 0 else 1 := by
  rw [Kernel.demand, List.map_singleton, List.toFinset_cons, List.toFinset_nil, insert_empty_eq,
    Finset.filter_singleton]
  cases k.hasTable (pdNo a) <;> rfl

theorem canMap_singleton_iff : k.CanMap [a] ↔
    k.entryAt a = none ∧ k.page 0 ≠ none ∧ (k.hasTable (pdNo a) = true ∨ k.page 1 ≠ none) := by
  have hdemand := demand_singleton k a
  constructor
  · intro h
    refine ⟨h.free a List.mem_cons_self, h.pages 0 (by omega), ?_⟩
    by_cases htable : k.hasTable (pdNo a) = true
    · exact .inl htable
    · rw [if_neg htable] at hdemand
      exact .inr (h.pages 1 (by omega))
  · rintro ⟨hfree, hpage, htable⟩
    refine ⟨by simpa using hfree, List.nodup_singleton a, fun j hj => ?_⟩
    obtain rfl | hpos := Nat.eq_zero_or_pos j
    · exact hpage
    · by_cases htable' : k.hasTable (pdNo a) = true
      · rw [hdemand, if_pos htable'] at hj
        omega
      · rw [hdemand, if_neg htable'] at hj
        obtain rfl : j = 1 := by omega
        exact htable.resolve_left htable'

end Mapped

/-! ## `install_page` -/

section Install

variable {k k' : Kernel} {pd : PageDir} {upage kpage : ℕ} {writable : Bool}

theorem hasTable_eq (hpd : k.pagedir = some pd) (i : ℕ) : k.hasTable i = (pd.tables i).isSome := by
  rw [Kernel.hasTable, hpd]
  rfl

/-- **When `install_page` maps the page**, and what it asks for then. -/
theorem installPage_demand (hdir : k.pagedir ≠ none) (hu : upage % pgSize = 0) (hlow : upage < physBase)
    (hk : isRamPage k.initRamPages kpage = true) {b : Bool}
    (hrun : installPage upage kpage writable k = .ok b k') :
    (b = true ↔ k.entryAt upage = none ∧ (k.hasTable (pdNo upage) = true ∨ k.found ≠ none)) ∧
      (b = true → Asked (if k.hasTable (pdNo upage) = true then 0 else 1) k k' ∧
        ∀ i, k'.hasTable i = true ↔ k.hasTable i = true ∨ i = pdNo upage) := by
  obtain ⟨pd, hpd⟩ := Option.ne_none_iff_exists'.mp hdir
  have hentryAt : k.entryAt upage = pd.entry upage := by rw [Kernel.entryAt, hpd]; rfl
  have htables := hasTable_eq hpd
  by_cases htaken : (pd.entry upage).isSome = true
  · have hrefused : installPage upage kpage writable k = .ok false k :=
      installPage_taken hpd hlow htaken
    cases hrefused.symm.trans hrun
    refine ⟨iff_of_false Bool.false_ne_true fun h => ?_, fun h => by cases h⟩
    rw [← hentryAt, h.1] at htaken
    cases htaken
  have hentry : pd.entry upage = none := by simpa using htaken
  have huntaken : installPage upage kpage writable k = _ := installPage_untaken hpd hlow hentry
  cases hpt : pd.tables (pdNo upage) with
  | some pt =>
      -- the page table is there: nothing is asked for
      have hfree : pt.entries (ptNo upage) = none := by
        rw [PageDir.entry, hpt] at hentry
        exact hentry
      have hhas : k.hasTable (pdNo upage) = true := by rw [htables, hpt]; rfl
      cases (huntaken.trans (pagedirSetPage_some hu hlow hk (lookupPage_some hpd hlow hpt)
        hfree)).symm.trans hrun
      refine ⟨iff_of_true rfl ⟨hentryAt.trans hentry, .inl hhas⟩, fun _ => ⟨?_, fun i => ?_⟩⟩
      · rw [if_pos hhas]
        exact ⟨rfl, rfl, rfl, rfl⟩
      · have hset : (k.setTable (pdNo upage) (pt.setEntry (ptNo upage) ⟨kpage, writable⟩)).pagedir =
            some (pd.setTable (pdNo upage) (pt.setEntry (ptNo upage) ⟨kpage, writable⟩)) := by
          rw [Kernel.setTable, hpd]
          rfl
        rw [hasTable_eq hset, htables, PageDir.setTable]
        by_cases hi : i = pdNo upage
        · subst hi
          simp [hpt]
        · simp [hi]
  | none =>
      -- `lookup_page` asks for a page for the table
      have hhas : ¬ k.hasTable (pdNo upage) = true := by rw [htables, hpt]; exact Bool.false_ne_true
      cases hfound : k.found with
      | none =>
          have h : installPage upage kpage writable k = _ := installPage_full hpd hu hlow hk hpt hfound
          cases h.symm.trans hrun
          refine ⟨iff_of_false Bool.false_ne_true fun h => ?_, fun h => by cases h⟩
          exact h.2.elim hhas fun h => h rfl
      | some p =>
          cases (huntaken.trans (pagedirSetPage_some hu hlow hk (lookupPage_new hpd hlow hpt hfound)
            rfl)).symm.trans hrun
          refine ⟨iff_of_true rfl ⟨hentryAt.trans hentry, .inr (Option.some_ne_none p)⟩,
            fun _ => ⟨?_, fun i => ?_⟩⟩
          · rw [if_neg hhas]
            exact ((Asked.refl k).afterGet { zero := true }).of_same rfl rfl rfl rfl
          · have hset : (((k.afterGet { zero := true }).setTable (pdNo upage) ⟨p, fun _ => none⟩).setTable
                (pdNo upage) (PageTable.setEntry ⟨p, fun _ => none⟩ (ptNo upage) ⟨kpage, writable⟩)).pagedir =
                some ((pd.setTable (pdNo upage) ⟨p, fun _ => none⟩).setTable (pdNo upage)
                  (PageTable.setEntry ⟨p, fun _ => none⟩ (ptNo upage) ⟨kpage, writable⟩)) := by
              simp only [Kernel.setTable, pagedir_afterGet, hpd, Option.map_some]
            rw [hasTable_eq hset, htables, PageDir.setTable, PageDir.setTable]
            by_cases hi : i = pdNo upage
            · subst hi
              simp
            · simp [hi]

/-- A page was found; can it be mapped? -/
theorem Asked.canMap_iff (h : Asked 1 k k') (hdir : k'.pagedir = k.pagedir) (hfound : k.found ≠ none) :
    k.CanMap [upage] ↔
      k'.entryAt upage = none ∧ (k'.hasTable (pdNo upage) = true ∨ k'.found ≠ none) := by
  rw [canMap_singleton_iff, h.found, Kernel.entryAt, Kernel.entryAt, Kernel.hasTable, Kernel.hasTable, hdir]
  exact and_congr_right fun _ => and_iff_right hfound

/-- A page was found, and mapped. -/
theorem Asked.mapped {k'' : Kernel} (h : Asked 1 k k') (hdir : k'.pagedir = k.pagedir)
    (hu : upage % pgSize = 0) (hused : kpage ∈ k'.used) (hk : isRamPage k'.initRamPages kpage = true)
    (hinst : Installed k' k'' upage kpage writable)
    (htable : Asked (if k'.hasTable (pdNo upage) = true then 0 else 1) k' k'')
    (htables : ∀ i, k''.hasTable i = true ↔ k'.hasTable i = true ∨ i = pdNo upage) :
    Mapped k k'' [upage] := by
  have hhas : ∀ i, k'.hasTable i = k.hasTable i := fun i => by rw [Kernel.hasTable, Kernel.hasTable, hdir]
  have hentry : ∀ a, k'.entryAt a = k.entryAt a := fun a => by rw [Kernel.entryAt, Kernel.entryAt, hdir]
  have hsame : ∀ a, a % pgSize = 0 → (a / pgSize = upage / pgSize ↔ a = upage) := fun a ha => by
    have hpage : pgSize = 4096 := rfl
    rw [hpage] at ha hu ⊢
    omega
  refine ⟨?_, fun a ha => ?_, fun i => ?_, fun hk' a pte hpte => ?_⟩
  · rw [demand_singleton, ← hhas]
    exact h.trans htable
  · rw [hinst.entryAt, hentry, List.mem_singleton, ← hsame a ha]
    split
    · next e => exact iff_of_false (Option.some_ne_none _) fun h' => h'.2 e
    · next e => exact (and_iff_left e).symm
  · rw [htables, hhas, List.map_singleton, List.mem_singleton]
  · rw [hinst.grown.initRamPages_eq]
    rw [hinst.entryAt] at hpte
    split at hpte
    · cases hpte
      exact ⟨hinst.grown.used hused, hk⟩
    · rw [hentry] at hpte
      obtain ⟨hold, hram⟩ := hk' a pte hpte
      refine ⟨hinst.grown.used ?_, h.ram.symm ▸ hram⟩
      rw [h.used]
      exact (grown_gets k 1).used hold

end Install

end Pintos.Userprog
