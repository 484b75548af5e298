import Pintos.Userprog.Kernel

/-!
# Pages for a process

What `palloc_get_page` and `install_page` do to the state.  `Grown k k'` says that what is new in
`k'` was free in `k`: pages in use keep their contents, and besides pages and page tables the state
is as it was.

* **`pallocGetPage_run`**, **`Kernel.found_some`** — the page that is found, and the state after.
* **`installPage_taken`**, **`installPage_full`**, **`installPage_done`** — a page is mapped unless
  its address is, or there is no page for a page table.
-/

namespace Pintos.Userprog

open Lib
open Vm (Memory PageDir PageTable Pte Image PallocFlags pgSize physBase isUserVaddr pdNo ptNo fillPage
  copyBytes)

/-! ## Pages of RAM -/

/-- The address is in the page. -/
def InPage (page a : ℕ) : Prop := page ≤ a ∧ a < page + pgSize

theorem isRamPage_iff {n page : ℕ} : isRamPage n page = true ↔
    page % pgSize = 0 ∧ physBase + 0x100000 ≤ page ∧ page < physBase + pgSize * n := by
  simp [isRamPage, and_assoc]

theorem isRamPage_lt {n page : ℕ} (h : isRamPage n page = true) : physBase < page :=
  lt_of_lt_of_le (Nat.lt_add_of_pos_right (by decide)) (isRamPage_iff.mp h).2.1

/-- The number of the frame of a page is below the number of frames. -/
theorem ram_frame {n page : ℕ} (h : isRamPage n page = true) :
    page % pgSize = 0 ∧ physBase ≤ page ∧ (page - physBase) / pgSize < n := by
  obtain ⟨h1, h2, h3⟩ := isRamPage_iff.mp h
  have hle : physBase ≤ page := le_trans (Nat.le_add_right _ _) h2
  exact ⟨h1, hle, Nat.div_lt_of_lt_mul (Nat.sub_lt_left_of_lt_add hle h3)⟩

/-- Two pages are the same or apart. -/
theorem InPage.disjoint {n n' page page' a : ℕ} (h : isRamPage n page = true)
    (h' : isRamPage n' page' = true) (ha : InPage page a) (ha' : InPage page' a) : page = page' := by
  have hpage : pgSize = 4096 := rfl
  have h1 := (isRamPage_iff.mp h).1
  have h2 := (isRamPage_iff.mp h').1
  rw [InPage, hpage] at ha ha'
  rw [hpage] at h1 h2
  omega

section Pages

variable {k k' k'' : Kernel} {page a : ℕ} {flags : PallocFlags}

theorem Kernel.found_some (h : k.found = some page) :
    isRamPage k.initRamPages page = true ∧ page ∉ k.used := by
  have hcond := Option.eq_some_iff_get_eq.mp h
  have := Option.mem_filter_iff.mp (Option.mem_def.mpr h)
  simpa using this.2

/-- What is in memory after a page was taken. -/
def Kernel.memAfterGet (k : Kernel) (flags : PallocFlags) (page : ℕ) : Memory :=
  if flags.zero then fillPage k.mem page 0 else k.mem

/-- The state after `palloc_get_page`. -/
def Kernel.afterGet (k : Kernel) (flags : PallocFlags) : Kernel :=
  match k.found with
  | none => { k with asked := k.asked + 1 }
  | some page => { k with
      asked := k.asked + 1
      used := page :: k.used
      mem := k.memAfterGet flags page }

/-- **`palloc_get_page`**. -/
theorem pallocGetPage_run (flags : PallocFlags) (k : Kernel) :
    pallocGetPage flags k = .ok k.found (k.afterGet flags) := by
  rw [pallocGetPage, fetch_bind, change_bind, Kernel.afterGet]
  cases k.found <;> rfl

theorem memAfterGet_of_not_inPage (h : ¬ InPage page a) : k.memAfterGet flags page a = k.mem a := by
  rw [Kernel.memAfterGet]
  split
  · exact if_neg h
  · rfl

theorem memAfterGet_zero (hz : flags.zero = true) (h : InPage page a) :
    k.memAfterGet flags page a = 0 := by
  rw [Kernel.memAfterGet, if_pos hz]
  exact if_pos h

/-! ## Growth -/

/-- Memory that is in use: pages that were taken, and the first megabyte. -/
def Kernel.InUse (k : Kernel) (a : ℕ) : Prop :=
  a < physBase + 0x100000 ∨ ∃ page ∈ k.used, isRamPage k.initRamPages page = true ∧ InPage page a

/-- Nothing in use was touched on the way from `k` to `k'`. -/
structure Grown (k k' : Kernel) : Prop where
  used : k.used ⊆ k'.used
  mem : ∀ a, k.InUse a → k'.mem a = k.mem a
  rest : k' = { k with mem := k'.mem, used := k'.used, asked := k'.asked, pagedir := k'.pagedir }

namespace Grown

theorem refl (k : Kernel) : Grown k k := ⟨List.Subset.refl _, fun _ _ => rfl, rfl⟩

theorem initRamPages_eq (h : Grown k k') : k'.initRamPages = k.initRamPages := by
  rw [h.rest]

theorem openCnt_eq (h : Grown k k') : k'.openCnt = k.openCnt := by
  rw [h.rest]

theorem inUse (h : Grown k k') (ha : k.InUse a) : k'.InUse a := by
  rcases ha with ha | ⟨page, hp, hram, hin⟩
  · exact .inl ha
  · exact .inr ⟨page, h.used hp, by rwa [h.initRamPages_eq], hin⟩

theorem trans (h : Grown k k') (h' : Grown k' k'') : Grown k k'' where
  used := List.Subset.trans h.used h'.used
  mem a ha := (h'.mem a (h.inUse ha)).trans (h.mem a ha)
  rest := by
    rw [h'.rest, h.rest]

end Grown

/-- A page that is found is not in use. -/
theorem not_inPage_of_inUse (hf : k.found = some page) (ha : k.InUse a) : ¬ InPage page a := by
  obtain ⟨hram, hfree⟩ := Kernel.found_some hf
  intro hin
  rcases ha with ha | ⟨page', hp, hram', hin'⟩
  · have := (isRamPage_iff.mp hram).2.1
    have := hin.1
    omega
  · exact hfree (hin'.disjoint hram' hram hin ▸ hp)

theorem grown_afterGet (k : Kernel) (flags : PallocFlags) : Grown k (k.afterGet flags) := by
  rw [Kernel.afterGet]
  cases hf : k.found with
  | none => exact ⟨List.Subset.refl _, fun _ _ => rfl, rfl⟩
  | some page =>
      exact ⟨List.subset_cons_self .., fun a ha => memAfterGet_of_not_inPage (not_inPage_of_inUse hf ha),
        rfl⟩

theorem grown_setTable (k : Kernel) (i : ℕ) (pt : PageTable) : Grown k (k.setTable i pt) :=
  ⟨List.Subset.refl _, fun _ _ => rfl, rfl⟩

@[simp] theorem pagedir_afterGet (k : Kernel) (flags : PallocFlags) :
    (k.afterGet flags).pagedir = k.pagedir := by
  rw [Kernel.afterGet]
  cases k.found <;> rfl

theorem used_afterGet (k : Kernel) (flags : PallocFlags) :
    (k.afterGet flags).used = k.found.toList ++ k.used := by
  rw [Kernel.afterGet]
  cases k.found <;> rfl

theorem asked_afterGet (k : Kernel) (flags : PallocFlags) : (k.afterGet flags).asked = k.asked + 1 := by
  rw [Kernel.afterGet]
  cases k.found <;> rfl

/-- What is found next. -/
theorem found_congr (hanswers : k'.answers = k.answers) (hasked : k'.asked = k.asked)
    (hused : k'.used = k.used) (hram : k'.initRamPages = k.initRamPages) : k'.found = k.found := by
  rw [Kernel.found, Kernel.found, hanswers, hasked, hused, hram]

/-- What is found after a page was taken does not depend on what is in memory. -/
theorem found_afterGet (flags flags' : PallocFlags) (hanswers : k'.answers = k.answers)
    (hasked : k'.asked = k.asked) (hused : k'.used = k.used) (hram : k'.initRamPages = k.initRamPages) :
    (k'.afterGet flags).found = (k.afterGet flags').found := by
  have hfound := found_congr hanswers hasked hused hram
  refine found_congr ?_ ?_ ?_ ?_
  · rw [(grown_afterGet k' flags).rest, (grown_afterGet k flags').rest]
    exact hanswers
  · rw [asked_afterGet, asked_afterGet, hasked]
  · rw [used_afterGet, used_afterGet, hfound, hused]
  · rw [(grown_afterGet k' flags).initRamPages_eq, (grown_afterGet k flags').initRamPages_eq, hram]

@[simp] theorem used_afterGet_of_some (h : k.found = some page) :
    (k.afterGet flags).used = page :: k.used := by
  rw [Kernel.afterGet, h]

@[simp] theorem mem_afterGet_of_some (h : k.found = some page) :
    (k.afterGet flags).mem = k.memAfterGet flags page := by
  rw [Kernel.afterGet, h]

end Pages

/-! ## Page tables -/

section Tables

variable {k k' : Kernel} {pd : PageDir} {pt : PageTable} {pte : Pte} {upage kpage page a : ℕ}
  {writable : Bool}

/-- The entry of a user address. -/
def Kernel.entryAt (k : Kernel) (vaddr : ℕ) : Option Pte := k.pagedir.bind fun pd => pd.entry vaddr

theorem page_eq_iff (a b : ℕ) : a / pgSize = b / pgSize ↔ pdNo a = pdNo b ∧ ptNo a = ptNo b := by
  have hpage : pgSize = 4096 := rfl
  rw [pdNo, pdNo, ptNo, ptNo, hpage]
  omega

/-- The entries of a table that was put in place of another one with the same entries, one changed. -/
theorem entry_setTable (hpt : ∀ j, pt.entries j = (pd.tables (pdNo upage)).bind fun t => t.entries j) :
    (pd.setTable (pdNo upage) (pt.setEntry (ptNo upage) pte)).entry a =
      if a / pgSize = upage / pgSize then some pte else pd.entry a := by
  rw [PageDir.entry, PageDir.setTable]
  by_cases hd : pdNo a = pdNo upage
  · simp only [hd, Function.update_self, Option.bind_some, PageTable.setEntry]
    split
    · next h => rw [((page_eq_iff a upage).mp h).2, Function.update_self]
    · next h =>
        have ht : ptNo a ≠ ptNo upage := fun e => h ((page_eq_iff a upage).mpr ⟨hd, e⟩)
        rw [Function.update_of_ne ht, hpt, PageDir.entry, hd]
  · rw [if_neg fun h => hd ((page_eq_iff a upage).mp h).1, PageDir.entry]
    simp only [Function.update_of_ne hd]

/-- The memory of a process, as it reads it. -/
def Kernel.userMem (k : Kernel) : ℕ → UInt8 := fun a => ((k.locate a false).map k.mem).getD 0

/-- A byte of a page that is mapped. -/
theorem userMem_run (h : k.entryAt a = some ⟨kpage, writable⟩) (hlow : a < physBase) :
    k.locate a false = some (kpage + a % pgSize) ∧ k.userMem a = k.mem (kpage + a % pgSize) := by
  rw [Kernel.entryAt] at h
  have hlocate : k.locate a false = some (kpage + a % pgSize) := by
    simp [Kernel.locate, isUserVaddr, hlow, h]
  exact ⟨hlocate, by rw [Kernel.userMem, hlocate]; rfl⟩

/-- A page was mapped, and nothing else. -/
structure Installed (k k' : Kernel) (upage kpage : ℕ) (writable : Bool) : Prop where
  entryAt : ∀ a, k'.entryAt a =
    if a / pgSize = upage / pgSize then some ⟨kpage, writable⟩ else k.entryAt a
  grown : Grown k k'

theorem assert_run {c : Bool} (h : c = true) : assert c k = .ok () k := by
  rw [assert, if_pos h]
  rfl

/-- The state after a page was given back. -/
def Kernel.freed (k : Kernel) (page : ℕ) : Kernel :=
  { k with used := k.used.erase page, mem := fillPage k.mem page 0xcc }

/-- **`palloc_free_page`** of a page that was taken. -/
theorem pallocFreePage_run (hram : isRamPage k.initRamPages page = true) (h : page ∈ k.used) :
    pallocFreePage page k = .ok () (k.freed page) := by
  have hbase : 0 < physBase := by decide
  have hmod := (isRamPage_iff.mp hram).1
  have hpos : page ≠ 0 := (lt_trans hbase (isRamPage_lt hram)).ne'
  rw [pallocFreePage, bind_of_ok (assert_run (by simpa using hmod)), if_neg hpos, fetch_bind,
    bind_of_ok (assert_run (by simpa using h))]
  rfl

theorem lookupPage_some {create : Bool} (hpd : k.pagedir = some pd) (hlow : upage < physBase)
    (hpt : pd.tables (pdNo upage) = some pt) : lookupPage upage create k = .ok (some pt) k := by
  rw [lookupPage, fetch_bind, hpd]
  simp only []
  rw [bind_of_ok (assert_run (by simp [isUserVaddr, hlow])), hpt]
  rfl

theorem lookupPage_none (hpd : k.pagedir = some pd) (hpt : pd.tables (pdNo upage) = none) :
    lookupPage upage false k = .ok none k := by
  rw [lookupPage, fetch_bind, hpd]
  simp only []
  rw [bind_of_ok (assert_run (by simp)), hpt]
  rfl

theorem lookupPage_full (hpd : k.pagedir = some pd) (hlow : upage < physBase)
    (hpt : pd.tables (pdNo upage) = none) (hfound : k.found = none) :
    lookupPage upage true k = .ok none (k.afterGet { zero := true }) := by
  rw [lookupPage, fetch_bind, hpd]
  simp only []
  rw [bind_of_ok (assert_run (by simp [isUserVaddr, hlow])), hpt]
  simp only [if_true]
  rw [bind_of_ok (pallocGetPage_run _ _), hfound]
  rfl

theorem lookupPage_new (hpd : k.pagedir = some pd) (hlow : upage < physBase)
    (hpt : pd.tables (pdNo upage) = none) (hfound : k.found = some page) :
    lookupPage upage true k = .ok (some ⟨page, fun _ => none⟩)
      ((k.afterGet { zero := true }).setTable (pdNo upage) ⟨page, fun _ => none⟩) := by
  rw [lookupPage, fetch_bind, hpd]
  simp only []
  rw [bind_of_ok (assert_run (by simp [isUserVaddr, hlow])), hpt]
  simp only [if_true]
  rw [bind_of_ok (pallocGetPage_run _ _), hfound]
  rfl

theorem pagedirGetPage_run (hpd : k.pagedir = some pd) (hlow : upage < physBase) :
    pagedirGetPage upage k = .ok ((pd.entry upage).map fun pte => pte.kpage + upage % pgSize) k := by
  rw [pagedirGetPage, bind_of_ok (assert_run (by simpa [isUserVaddr] using hlow)), PageDir.entry]
  cases hpt : pd.tables (pdNo upage) with
  | some pt =>
      rw [bind_of_ok (lookupPage_some hpd hlow hpt)]
      rfl
  | none =>
      rw [bind_of_ok (lookupPage_none hpd hpt)]
      rfl

/-- The address is mapped. -/
theorem installPage_taken (hpd : k.pagedir = some pd) (hlow : upage < physBase)
    (h : (pd.entry upage).isSome) : installPage upage kpage writable k = .ok false k := by
  obtain ⟨pte, hpte⟩ := Option.isSome_iff_exists.mp h
  rw [installPage, bind_of_ok (pagedirGetPage_run hpd hlow), hpte]
  rfl

theorem installPage_untaken (hpd : k.pagedir = some pd) (hlow : upage < physBase)
    (h : pd.entry upage = none) :
    installPage upage kpage writable k = pagedirSetPage upage kpage writable k := by
  rw [installPage, bind_of_ok (pagedirGetPage_run hpd hlow), h]
  rfl

/-- `pagedir_set_page`, when there is no page for the table. -/
theorem pagedirSetPage_none (hu : upage % pgSize = 0) (hlow : upage < physBase)
    (hk : isRamPage k.initRamPages kpage = true) (h : lookupPage upage true k = .ok none k') :
    pagedirSetPage upage kpage writable k = .ok false k' := by
  obtain ⟨h1, h2, hnum⟩ := ram_frame hk
  rw [pagedirSetPage, bind_of_ok (assert_run (by simpa using hu)),
    bind_of_ok (assert_run (by simpa using h1)),
    bind_of_ok (assert_run (by simpa [isUserVaddr] using hlow)),
    bind_of_ok (assert_run (by simpa using h2)), fetch_bind,
    bind_of_ok (assert_run (by simpa using hnum)), bind_of_ok h]
  rfl

/-- `pagedir_set_page`, when there is a table with a free entry. -/
theorem pagedirSetPage_some (hu : upage % pgSize = 0) (hlow : upage < physBase)
    (hk : isRamPage k.initRamPages kpage = true) (h : lookupPage upage true k = .ok (some pt) k')
    (hfree : pt.entries (ptNo upage) = none) :
    pagedirSetPage upage kpage writable k =
      .ok true (k'.setTable (pdNo upage) (pt.setEntry (ptNo upage) ⟨kpage, writable⟩)) := by
  obtain ⟨h1, h2, hnum⟩ := ram_frame hk
  rw [pagedirSetPage, bind_of_ok (assert_run (by simpa using hu)),
    bind_of_ok (assert_run (by simpa using h1)),
    bind_of_ok (assert_run (by simpa [isUserVaddr] using hlow)),
    bind_of_ok (assert_run (by simpa using h2)), fetch_bind,
    bind_of_ok (assert_run (by simpa using hnum)), bind_of_ok h]
  simp only []
  rw [bind_of_ok (assert_run (by simp [hfree]))]
  rfl

/-- There is no page for the page table. -/
theorem installPage_full (hpd : k.pagedir = some pd) (hu : upage % pgSize = 0) (hlow : upage < physBase)
    (hk : isRamPage k.initRamPages kpage = true) (htable : pd.tables (pdNo upage) = none)
    (hfound : k.found = none) :
    installPage upage kpage writable k = .ok false (k.afterGet { zero := true }) := by
  have hentry : pd.entry upage = none := by rw [PageDir.entry, htable]; rfl
  rw [installPage_untaken hpd hlow hentry,
    pagedirSetPage_none hu hlow hk (lookupPage_full hpd hlow htable hfound)]

/-- **The page is mapped.** -/
theorem installPage_done (hpd : k.pagedir = some pd) (hu : upage % pgSize = 0) (hlow : upage < physBase)
    (hk : isRamPage k.initRamPages kpage = true) (hentry : pd.entry upage = none)
    (htable : pd.tables (pdNo upage) ≠ none ∨ k.found ≠ none) :
    ∃ k', installPage upage kpage writable k = .ok true k' ∧ Installed k k' upage kpage writable := by
  rw [installPage_untaken hpd hlow hentry]
  cases hpt : pd.tables (pdNo upage) with
  | some pt =>
      have hfree : pt.entries (ptNo upage) = none := by
        rw [PageDir.entry, hpt] at hentry
        exact hentry
      refine ⟨_, pagedirSetPage_some hu hlow hk (lookupPage_some hpd hlow hpt) hfree, fun a => ?_,
        grown_setTable _ _ _⟩
      simp only [Kernel.entryAt, Kernel.setTable, hpd, Option.map_some, Option.bind_some]
      exact entry_setTable fun j => by rw [hpt]; rfl
  | none =>
      obtain ⟨page, hfound⟩ := Option.ne_none_iff_exists'.mp (htable.resolve_left fun h => h hpt)
      refine ⟨_, pagedirSetPage_some hu hlow hk (lookupPage_new hpd hlow hpt hfound) rfl, fun a => ?_,
        (grown_afterGet _ _).trans ((grown_setTable _ _ _).trans (grown_setTable _ _ _))⟩
      simp only [Kernel.entryAt, Kernel.setTable, pagedir_afterGet, hpd, Option.map_some, Option.bind_some]
      rw [entry_setTable fun j => by simp [PageDir.setTable]]
      split
      · rfl
      · rw [PageDir.entry, PageDir.entry, PageDir.setTable]
        by_cases hd : pdNo a = pdNo upage
        · simp [hd, hpt]
        · simp only [Function.update_of_ne hd]

/-- **`install_page`** always returns, and leaves alone what is in use. -/
theorem installPage_cases (hdir : k.pagedir ≠ none) (hu : upage % pgSize = 0) (hlow : upage < physBase)
    (hk : isRamPage k.initRamPages kpage = true) :
    ∃ b k', installPage upage kpage writable k = .ok b k' ∧ Grown k k' ∧
      ((b = true ∧ Installed k k' upage kpage writable) ∨ b = false ∧ k'.pagedir = k.pagedir) := by
  obtain ⟨pd, hpd⟩ := Option.ne_none_iff_exists'.mp hdir
  by_cases htaken : (pd.entry upage).isSome = true
  · exact ⟨false, k, installPage_taken hpd hlow htaken, Grown.refl k, .inr ⟨rfl, rfl⟩⟩
  have hentry : pd.entry upage = none := by simpa using htaken
  by_cases hfull : pd.tables (pdNo upage) = none ∧ k.found = none
  · exact ⟨false, _, installPage_full hpd hu hlow hk hfull.1 hfull.2, grown_afterGet k _,
      .inr ⟨rfl, pagedir_afterGet k _⟩⟩
  · obtain ⟨k', hrun, hinstalled⟩ : ∃ k', installPage upage kpage writable k = .ok true k' ∧
        Installed k k' upage kpage writable :=
      installPage_done hpd hu hlow hk hentry (not_and_or.mp hfull)
    exact ⟨true, k', hrun, hinstalled.grown, .inl ⟨rfl, hinstalled⟩⟩

end Tables

end Pintos.Userprog
