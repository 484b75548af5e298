import Pintos.Userprog.Pages

/-!
# What is left alone while a process is made

Pages that were taken before stay taken, and none of them is mapped: what `load` maps and what it
gives back it has taken itself.  `KeepsPages k0` says so of every state that comes after `k0`; a page
that was found in the meantime is not a page of `k0`, so that it may be mapped and given back.
`Stable` says also that what is in the pages stays, and what is known of the files.

* **`installPage_maps`** — what `install_page` maps.
* **`Stable.installed`**, **`Stable.freed`** — a new page is mapped, or given back.
-/

namespace Pintos.Userprog

open Lib
open Vm (Memory PageDir PageTable Pte Image PallocFlags pgSize physBase isUserVaddr pdNo ptNo fillPage
  copyBytes)

/-! ## Pages of a page directory -/

section Maps

variable {k k' : Kernel} {pd : PageDir} {pt : PageTable} {pte : Pte} {upage kpage page i : ℕ}
  {writable : Bool}

/-- The page is given back with the page directory. -/
def Kernel.Maps (k : Kernel) (page : ℕ) : Prop := ∃ pd, k.pagedir = some pd ∧ page ∈ pd.pages

theorem mem_tablePages : page ∈ pt.pages ↔
    page = pt.page ∨ ∃ j < 1024, ∃ pte, pt.entries j = some pte ∧ pte.kpage = page := by
  simp only [PageTable.pages, List.mem_append, List.mem_filterMap, List.mem_range, List.mem_singleton,
    Option.map_eq_some_iff]
  exact or_comm

theorem mem_dirPages : page ∈ pd.pages ↔
    page = pd.page ∨ ∃ i < 768, ∃ pt, pd.tables i = some pt ∧ page ∈ pt.pages := by
  have htable : ∀ i, page ∈ ((pd.tables i).map PageTable.pages).getD [] ↔
      ∃ pt, pd.tables i = some pt ∧ page ∈ pt.pages := fun i => by
    cases pd.tables i <;> simp
  simp only [PageDir.pages, List.mem_append, List.mem_flatMap, List.mem_range, List.mem_singleton, htable]
  exact or_comm

theorem not_maps_of_none (h : k.pagedir = none) (page : ℕ) : ¬ k.Maps page := by
  rintro ⟨pd, hpd, -⟩
  cases h.symm.trans hpd

theorem maps_congr (h : k'.pagedir = k.pagedir) : k'.Maps page ↔ k.Maps page := by
  rw [Kernel.Maps, Kernel.Maps, h]

/-- The pages of a directory with a new table. -/
theorem maps_setTable (h : (k.setTable i pt).Maps page) : k.Maps page ∨ page ∈ pt.pages := by
  obtain ⟨pd', hpd', hp⟩ := h
  obtain ⟨pd, hpd, rfl⟩ := Option.map_eq_some_iff.mp hpd'
  rcases mem_dirPages.mp hp with hp | ⟨i', hi, pt', hpt, hp⟩
  · exact .inl ⟨pd, hpd, mem_dirPages.mpr (.inl hp)⟩
  · by_cases he : i' = i
    · subst he
      simp only [PageDir.setTable, Function.update_self] at hpt
      cases hpt
      exact .inr hp
    · simp only [PageDir.setTable, Function.update_of_ne he] at hpt
      exact .inl ⟨pd, hpd, mem_dirPages.mpr (.inr ⟨i', hi, pt', hpt, hp⟩)⟩

/-- The pages of a table with a new entry. -/
theorem mem_setEntry {j : ℕ} (h : page ∈ (pt.setEntry j pte).pages) : page ∈ pt.pages ∨ page = pte.kpage := by
  rcases mem_tablePages.mp h with h | ⟨j', hj, pte', hpte, rfl⟩
  · exact .inl (mem_tablePages.mpr (.inl h))
  · by_cases he : j' = j
    · subst he
      simp only [PageTable.setEntry, Function.update_self] at hpte
      cases hpte
      exact .inr rfl
    · simp only [PageTable.setEntry, Function.update_of_ne he] at hpte
      exact .inl (mem_tablePages.mpr (.inr ⟨j', hj, pte', hpte, rfl⟩))

/-- **What `install_page` maps**: besides the page there may be a new one for the table. -/
theorem installPage_maps (hdir : k.pagedir ≠ none) (hu : upage % pgSize = 0) (hlow : upage < physBase)
    (hk : isRamPage k.initRamPages kpage = true) {b : Bool}
    (hrun : installPage upage kpage writable k = .ok b k') (hm : k'.Maps page) :
    k.Maps page ∨ page = kpage ∨ page ∉ k.used := by
  obtain ⟨pd, hpd⟩ := Option.ne_none_iff_exists'.mp hdir
  have hno : pdNo upage < 768 := by
    have hbase : physBase = 3221225472 := rfl
    rw [pdNo]
    omega
  by_cases htaken : (pd.entry upage).isSome = true
  · have h : installPage upage kpage writable k = _ := installPage_taken hpd hlow htaken
    cases h.symm.trans hrun
    exact .inl hm
  have hentry : pd.entry upage = none := by simpa using htaken
  have huntaken : installPage upage kpage writable k = _ := installPage_untaken hpd hlow hentry
  cases hpt : pd.tables (pdNo upage) with
  | some pt =>
      have hfree : pt.entries (ptNo upage) = none := by
        rw [PageDir.entry, hpt] at hentry
        exact hentry
      cases (huntaken.trans (pagedirSetPage_some hu hlow hk (lookupPage_some hpd hlow hpt)
        hfree)).symm.trans hrun
      rcases maps_setTable hm with hm | hm
      · exact .inl hm
      · rcases mem_setEntry hm with hm | hm
        · exact .inl ⟨pd, hpd, mem_dirPages.mpr (.inr ⟨_, hno, pt, hpt, hm⟩)⟩
        · exact .inr (.inl hm)
  | none =>
      cases hfound : k.found with
      | none =>
          have h : installPage upage kpage writable k = _ := installPage_full hpd hu hlow hk hpt hfound
          cases h.symm.trans hrun
          exact .inl ((maps_congr (pagedir_afterGet k _)).mp hm)
      | some p =>
          cases (huntaken.trans (pagedirSetPage_some hu hlow hk (lookupPage_new hpd hlow hpt hfound)
            rfl)).symm.trans hrun
          have hnew : ∀ q, q ∈ PageTable.pages ⟨p, fun _ => none⟩ → q = p := fun q hq => by
            rcases mem_tablePages.mp hq with h | ⟨_, _, _, h, _⟩
            · exact h
            · cases h
          have hp := (Kernel.found_some hfound).2
          rcases maps_setTable hm with hm | hm
          · rcases maps_setTable hm with hm | hm
            · exact .inl ((maps_congr (pagedir_afterGet k _)).mp hm)
            · exact .inr (.inr (hnew _ hm ▸ hp))
          · rcases mem_setEntry hm with hm | hm
            · exact .inr (.inr (hnew _ hm ▸ hp))
            · exact .inr (.inl hm)

end Maps

/-! ## Pages that stay -/

section Stable

variable {k0 k k' : Kernel} {page upage kpage : ℕ} {writable : Bool}

/-- The pages of `k0` are still taken, and none of them is newly mapped. -/
structure KeepsPages (k0 k : Kernel) : Prop where
  used : k0.used ⊆ k.used
  ram : k.initRamPages = k0.initRamPages
  maps : ∀ p ∈ k0.used, k.Maps p → k0.Maps p

namespace KeepsPages

theorem refl (k : Kernel) : KeepsPages k k := ⟨List.Subset.refl _, rfl, fun _ _ h => h⟩

theorem trans (h : KeepsPages k0 k) (h' : KeepsPages k k') : KeepsPages k0 k' where
  used := List.Subset.trans h.used h'.used
  ram := h'.ram.trans h.ram
  maps p hp hm := h.maps p hp (h'.maps p (h.used hp) hm)

/-- Nothing but other parts of the state changes. -/
theorem of_same (h : KeepsPages k0 k) (hused : k'.used = k.used) (hram : k'.initRamPages = k.initRamPages)
    (hdir : k'.pagedir = k.pagedir) : KeepsPages k0 k' where
  used := hused ▸ h.used
  ram := hram.trans h.ram
  maps p hp hm := h.maps p hp ((maps_congr hdir).mp hm)

/-- A page is taken, and it is a new one. -/
theorem afterGet (h : KeepsPages k0 k) (flags : PallocFlags) :
    KeepsPages k0 (k.afterGet flags) ∧ ∀ page, k.found = some page → page ∉ k0.used :=
  ⟨⟨List.Subset.trans h.used (grown_afterGet k flags).used,
    (grown_afterGet k flags).initRamPages_eq.trans h.ram,
    fun p hp hm => h.maps p hp ((maps_congr (pagedir_afterGet k flags)).mp hm)⟩,
    fun _ hfound hp => (Kernel.found_some hfound).2 (h.used hp)⟩

/-- A new page is given back. -/
theorem freed (h : KeepsPages k0 k) (hp : page ∉ k0.used) : KeepsPages k0 (k.freed page) where
  used q hq := by
    have hne : q ≠ page := by
      rintro rfl
      exact hp hq
    exact (List.mem_erase_of_ne hne).mpr (h.used hq)
  ram := h.ram
  maps q hq hm := h.maps q hq hm

/-- A new page is mapped. -/
theorem installed (h : KeepsPages k0 k) (hp : kpage ∉ k0.used) (hdir : k.pagedir ≠ none)
    (hu : upage % pgSize = 0) (hlow : upage < physBase) (hk : isRamPage k.initRamPages kpage = true)
    (hgrown : Grown k k') {b : Bool} (hrun : installPage upage kpage writable k = .ok b k') :
    KeepsPages k0 k' where
  used := List.Subset.trans h.used hgrown.used
  ram := hgrown.initRamPages_eq.trans h.ram
  maps q hq hm := by
    rcases installPage_maps hdir hu hlow hk hrun hm with hm | rfl | hm
    · exact h.maps q hq hm
    · exact absurd hq hp
    · exact absurd (h.used hq) hm

end KeepsPages

/-- What is in the pages stays too, and so do the page directory, the unmapped first page and the
counts of the inodes; files only move on. -/
structure Stable (k0 k : Kernel) : Prop extends KeepsPages k0 k where
  mem : ∀ a, k0.InUse a → k.mem a = k0.mem a
  image : k.image = k0.image
  dir : k0.pagedir ≠ none → k.pagedir ≠ none
  null : k0.entryAt 0 = none → k.entryAt 0 = none
  openCnt : k.openCnt = k0.openCnt
  denyWriteCnt : k.denyWriteCnt = k0.denyWriteCnt
  files : ∀ file f, k0.files file = some f → ∃ pos, k.files file = some { f with pos }

namespace Stable

theorem refl (k : Kernel) : Stable k k where
  toKeepsPages := .refl k
  mem _ _ := rfl
  image := rfl
  dir := id
  null := id
  openCnt := rfl
  denyWriteCnt := rfl
  files _ f h := ⟨f.pos, h⟩

theorem inUse {a : ℕ} (h : Stable k0 k) (ha : k0.InUse a) : k.InUse a := by
  rcases ha with ha | ⟨page, hp, hram, hin⟩
  · exact .inl ha
  · exact .inr ⟨page, h.used hp, by rwa [h.ram], hin⟩

theorem trans (h : Stable k0 k) (h' : Stable k k') : Stable k0 k' where
  toKeepsPages := h.toKeepsPages.trans h'.toKeepsPages
  mem a ha := (h'.mem a (h.inUse ha)).trans (h.mem a ha)
  image := h'.image.trans h.image
  dir hd := h'.dir (h.dir hd)
  null hn := h'.null (h.null hn)
  openCnt := h'.openCnt.trans h.openCnt
  denyWriteCnt := h'.denyWriteCnt.trans h.denyWriteCnt
  files file f hf := by
    obtain ⟨pos, hpos⟩ := h.files file f hf
    obtain ⟨pos', hpos'⟩ := h'.files file _ hpos
    exact ⟨pos', hpos'⟩

/-- Growth, in a page directory that still does not map the first page. -/
theorem grown (h : Stable k0 k) (hgrown : Grown k k') (hpages : KeepsPages k0 k')
    (hdir : k.pagedir ≠ none → k'.pagedir ≠ none) (hnull : k.entryAt 0 = none → k'.entryAt 0 = none) :
    Stable k0 k' where
  toKeepsPages := hpages
  mem a ha := (hgrown.mem a (h.inUse ha)).trans (h.mem a ha)
  image := by
    rw [hgrown.rest]
    exact h.image
  dir hd := hdir (h.dir hd)
  null hn := hnull (h.null hn)
  openCnt := hgrown.openCnt_eq.trans h.openCnt
  denyWriteCnt := by
    rw [hgrown.rest]
    exact h.denyWriteCnt
  files := by
    rw [hgrown.rest]
    exact h.files

theorem afterGet (h : Stable k0 k) (flags : PallocFlags) : Stable k0 (k.afterGet flags) :=
  h.grown (grown_afterGet k flags) (h.toKeepsPages.afterGet flags).1
    (fun hd => by rwa [pagedir_afterGet])
    (fun hn => by rwa [Kernel.entryAt, pagedir_afterGet])

/-- Memory changes where nothing was in use. -/
theorem write (h : Stable k0 k) {mem : Memory} (hm : ∀ a, k0.InUse a → mem a = k.mem a) :
    Stable k0 { k with mem } where
  toKeepsPages := h.toKeepsPages.of_same rfl rfl rfl
  mem a ha := (hm a ha).trans (h.mem a ha)
  image := h.image
  dir := h.dir
  null := h.null
  openCnt := h.openCnt
  denyWriteCnt := h.denyWriteCnt
  files := h.files

/-- A file moves on. -/
theorem seek (h : Stable k0 k) {file pos : ℕ} {f : OpenFile} (hf : k.files file = some f) :
    Stable k0 (k.setFile file { f with pos }) where
  toKeepsPages := h.toKeepsPages.of_same rfl rfl rfl
  mem := h.mem
  image := h.image
  dir := h.dir
  null := h.null
  openCnt := h.openCnt
  denyWriteCnt := h.denyWriteCnt
  files file' f' hf' := by
    obtain ⟨pos', hpos⟩ := h.files file' f' hf'
    by_cases he : file' = file
    · subst he
      cases hf.symm.trans hpos
      exact ⟨pos, Function.update_self ..⟩
    · exact ⟨pos', (Function.update_of_ne he _ _).trans hpos⟩

/-- **A new page is given back.** -/
theorem freed (h : Stable k0 k) (hp : page ∉ k0.used) (haway : ∀ a, k0.InUse a → ¬ InPage page a) :
    Stable k0 (k.freed page) where
  toKeepsPages := h.toKeepsPages.freed hp
  mem a ha := (if_neg (haway a ha)).trans (h.mem a ha)
  image := h.image
  dir := h.dir
  null := h.null
  openCnt := h.openCnt
  denyWriteCnt := h.denyWriteCnt
  files := h.files

/-- **A new page is mapped**, not as the first one. -/
theorem installed (h : Stable k0 k) (hp : kpage ∉ k0.used) (hdir : k.pagedir ≠ none)
    (hu : upage % pgSize = 0) (hlow : upage < physBase) (hpos : pgSize ≤ upage)
    (hk : isRamPage k.initRamPages kpage = true) (hgrown : Grown k k') {b : Bool}
    (hrun : installPage upage kpage writable k = .ok b k')
    (hinst : (b = true ∧ Installed k k' upage kpage writable) ∨ k'.pagedir = k.pagedir) :
    Stable k0 k' := by
  refine h.grown hgrown (h.toKeepsPages.installed hp hdir hu hlow hk hgrown hrun) (fun hd => ?_)
    fun hn => ?_
  · rcases hinst with ⟨-, hinst⟩ | hsame
    · intro hnone
      have := hinst.entryAt upage
      rw [if_pos rfl, Kernel.entryAt, hnone] at this
      cases this
    · rwa [hsame]
  · rcases hinst with ⟨-, hinst⟩ | hsame
    · have hne : 0 / pgSize ≠ upage / pgSize := by
        have hpage : pgSize = 4096 := rfl
        rw [hpage] at hpos ⊢
        omega
      rw [hinst.entryAt, if_neg hne, hn]
    · rwa [Kernel.entryAt, hsame]

end Stable

end Stable

end Pintos.Userprog
