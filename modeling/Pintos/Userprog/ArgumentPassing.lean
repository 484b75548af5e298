import Pintos.Userprog.StackRun

/-!
# The arguments on the stack of a new process

For up to 100 words that fit into a page, `setup_stack` leaves a stack from which the process reads
exactly these words.

The first byte it stores, however, goes to `PHYS_BASE`, which is the first byte of the kernel: it
stays in the page of the stack only when it stores nothing at all.

* **`setupStack_decodes`** — what a process finds on its stack.
* **`setupStack_staysInPage_iff`** — the stores are all in the page of the stack exactly when there is
  no page for the stack or for the array of words.
-/

namespace Pintos.Userprog

open Lib Strings
open Vm (Memory PageDir PageTable Pte Image PallocFlags pgSize physBase isUserVaddr pdNo ptNo fillPage
  copyBytes stackStores downStores wordStores pointerStores)

/-! ## The page of the stack -/

/-- The flags of a page for a process. -/
abbrev userZero : PallocFlags := { user := true, zero := true }

/-- There is no page for the stack: none is free, or its address is mapped, or there is no page for
the page table. -/
def Kernel.StackPageFails (k : Kernel) : Prop :=
  k.found = none ∨ ∃ pd, k.pagedir = some pd ∧
    ((pd.entry (physBase - pgSize)).isSome ∨
      pd.tables (pdNo (physBase - pgSize)) = none ∧ (k.afterGet userZero).found = none)

section Build

variable {k k' : Kernel} {fuel args counter : ℕ}

/-- What happens once the page is mapped. -/
def finishStack (fuel args counter : ℕ) : Code Bool := do
  let myEsp ← pushArguments fuel args counter
  change fun k => { k with esp := myEsp }
  return true

/-- **The second half of `setup_stack`**: without a page it returns false and has stored nothing. -/
theorem buildStack_cases (hdir : k.pagedir ≠ none) :
    (k.StackPageFails ∧
      ∃ k', buildStack fuel args counter k = .ok false k' ∧ k'.userStores = k.userStores) ∨
    (¬ k.StackPageFails ∧ ∃ kpage k2, k.found = some kpage ∧
      Installed (k.afterGet userZero) k2 (physBase - pgSize) kpage true ∧
      buildStack fuel args counter k = finishStack fuel args counter { k2 with esp := physBase }) := by
  obtain ⟨pd, hpd⟩ := Option.ne_none_iff_exists'.mp hdir
  have hlow : physBase - pgSize < physBase := by decide
  have hmod : (physBase - pgSize) % pgSize = 0 := by decide
  set k1 := k.afterGet userZero with hk1
  have hpd1 : k1.pagedir = some pd := by rw [hk1, pagedir_afterGet, hpd]
  have hrest := (grown_afterGet k userZero).rest
  rw [← hk1] at hrest
  cases hfound : k.found with
  | none =>
      refine .inl ⟨.inl hfound, k1, ?_, by rw [hrest]⟩
      rw [buildStack, bind_of_ok (pallocGetPage_run _ _), hfound]
      rfl
  | some kpage =>
      have hram : isRamPage k1.initRamPages kpage = true := by
        rw [hrest]
        exact (Kernel.found_some hfound).1
      have hstart : ∀ {b : Bool} {k2 : Kernel},
          installPage (physBase - pgSize) kpage true k1 = .ok b k2 →
          buildStack fuel args counter k = if b then finishStack fuel args counter { k2 with esp := physBase }
            else (pallocFreePage kpage >>= fun _ => pure false) k2 := fun {b k2} h => by
        rw [buildStack, bind_of_ok (pallocGetPage_run _ _), hfound]
        simp only []
        rw [bind_of_ok h]
        cases b <;> rfl
      have hfree : ∀ {k2 : Kernel}, Grown k1 k2 →
          installPage (physBase - pgSize) kpage true k1 = .ok false k2 →
          ∃ k', buildStack fuel args counter k = .ok false k' ∧ k'.userStores = k.userStores :=
        fun {k2} hgrown h => by
          have hused : kpage ∈ k2.used := hgrown.used (by rw [hk1, used_afterGet_of_some hfound]; simp)
          have hram2 : isRamPage k2.initRamPages kpage = true := by rwa [hgrown.initRamPages_eq]
          refine ⟨k2.freed kpage, ?_, ?_⟩
          · rw [hstart h, if_neg (by simp), bind_of_ok (pallocFreePage_run hram2 hused)]
            rfl
          · show k2.userStores = _
            rw [hgrown.rest, hrest]
      by_cases htaken : (pd.entry (physBase - pgSize)).isSome = true
      · exact .inl ⟨.inr ⟨pd, hpd, .inl htaken⟩, hfree (Grown.refl k1) (installPage_taken hpd1 hlow htaken)⟩
      have hentry : pd.entry (physBase - pgSize) = none := by simpa using htaken
      by_cases hfull : pd.tables (pdNo (physBase - pgSize)) = none ∧ k1.found = none
      · exact .inl ⟨.inr ⟨pd, hpd, .inr hfull⟩, hfree (grown_afterGet k1 _)
          (installPage_full hpd1 hmod hlow hram hfull.1 hfull.2)⟩
      obtain ⟨k2, hrun, hinstalled⟩ : ∃ k2, installPage (physBase - pgSize) kpage true k1 = .ok true k2 ∧
          Installed k1 k2 (physBase - pgSize) kpage true :=
        installPage_done hpd1 hmod hlow hram hentry (not_and_or.mp hfull)
      refine .inr ⟨?_, kpage, k2, rfl, hinstalled, by rw [hstart hrun, if_pos rfl]⟩
      rintro (h | ⟨pd', hpd', h⟩)
      · exact Option.some_ne_none _ (hfound.symm.trans h)
      · cases hpd.symm.trans hpd'
        exact h.elim htaken hfull

end Build

/-! ## The arguments -/

section Arguments

variable {k k' : Kernel} {fuel args cmdLine kpage : ℕ} {a : ℕ} {line : List UInt8}
  {strs : List (List UInt8)}

theorem place_inj {a b : ℕ} (hk : physBase < kpage) (ha : OnStack a) (hlow : a < physBase) (hb : OnStack b)
    (h : place kpage b = place kpage a) : b = a := by
  have hbase : physBase = 3221225472 := rfl
  have hpage : pgSize = 4096 := rfl
  rw [place, place, if_pos hlow, hpage] at h
  rw [OnStack, hbase, hpage] at ha hb
  split at h <;> omega

/-- A byte of the stack page, as the process reads it. -/
theorem userMem_stack (h : k.entryAt a = some ⟨kpage, true⟩) (hlow : a < physBase) :
    k.locate a false = some (place kpage a) ∧ k.userMem a = k.mem (place kpage a) := by
  rw [place, if_pos hlow]
  exact userMem_run h hlow

/-- The stores of the run are to the page of the stack, but for the first one. -/
theorem onStack_stackStores (fits : layoutSize strs ≤ pgSize) : ∀ p ∈ stackStores strs, OnStack p.1 := by
  have hbase : physBase = 3221225472 := rfl
  have hpage : pgSize = 4096 := rfl
  obtain ⟨esp, hE⟩ : ∃ esp, esp + layoutSize strs = physBase := ⟨physBase - layoutSize strs, by omega⟩
  have hlen := length_descending strs
  have hrev : strs.reverse.length = strs.length := List.length_reverse
  rw [stackStores_eq hE]
  unfold layoutSize at fits hE
  intro p hp
  simp only [List.mem_append, List.mem_singleton] at hp
  rcases hp with (((hp | rfl) | hp) | hp) | rfl
  · exact onStack_downStores le_rfl (by rw [hlen]; omega) p hp
  · exact ⟨by omega, by omega⟩
  · exact onStack_pointerStores (by omega) (by omega) (by omega) p hp
  · have := mem_wordStores hp
    exact ⟨by omega, by omega⟩
  · exact ⟨by omega, by omega⟩

/-- **The stack of a process whose arguments were pushed.** -/
theorem finishStack_decodes (ready : Ready k kpage args strs) (hk : physBase < kpage)
    (zero : ∀ a, InPage kpage a → k.mem a = 0) (hfuel : ∀ arg ∈ strs, arg.length < fuel)
    (hz : ∀ arg ∈ strs, (0 : UInt8) ∉ arg) (few : strs.length < 256) (fits : layoutSize strs ≤ pgSize)
    (hrun : finishStack fuel args strs.length k = .ok true k') :
    Decodes k'.userMem strs k'.esp ∧ ∀ a, k'.esp ≤ a → a < physBase → k'.locate a false ≠ none := by
  have hbase : physBase = 3221225472 := rfl
  have hpage : pgSize = 4096 := rfl
  rw [finishStack, bind_of_ok (pushArguments_run ready hfuel fits)] at hrun
  obtain rfl : ({ k.stored kpage (stackStores strs) with esp := startEsp strs } : Kernel) = k' := by
    cases hrun
    rfl
  have hlow : ∀ a, startEsp strs ≤ a → physBase - pgSize ≤ a := fun a ha => by
    unfold startEsp at ha
    omega
  have hsame : ∀ a, startEsp strs ≤ a → a < physBase →
      ({ k.stored kpage (stackStores strs) with esp := startEsp strs } : Kernel).userMem a =
        putAll (fun b => k.mem (place kpage b)) (stackStores strs) a := fun a ha ha' => by
    have hentry := ready.stack a (hlow a ha) ha'
    refine (userMem_stack (k := { k.stored kpage (stackStores strs) with esp := startEsp strs })
      hentry ha').2.trans ?_
    exact putAll_map fun p hp e =>
      place_inj hk ⟨hlow a ha, ha'.le⟩ ha' (onStack_stackStores fits p hp) e
  have hzero : ∀ a, physBase - pgSize ≤ a → a < physBase → k.mem (place kpage a) = 0 := fun a h1 h2 => by
    rw [place, if_pos h2]
    have := mod_pgSize_lt a
    exact zero _ ⟨by omega, by omega⟩
  have hfound := stackStores_found fits hz hzero
  rw [Nat.mod_eq_of_lt few] at hfound
  refine ⟨(hfound.congr fits hsame).decodes fits, fun a ha ha' => ?_⟩
  have hentry := ready.stack a (hlow a ha) ha'
  rw [(userMem_stack (k := { k.stored kpage (stackStores strs) with esp := startEsp strs })
    hentry ha').1]
  exact Option.some_ne_none _

/-- Once the page of the stack is there, and holds zeros, the loops may run. -/
theorem ready_of_installed {k1 k2 : Kernel} (hfound : k1.found = some kpage)
    (hinstalled : Installed (k1.afterGet userZero) k2 (physBase - pgSize) kpage true)
    (collected : Collected k1.mem args cmdLine (cmdLine + line.length) 0 strs)
    (hargs : strs ≠ [] → InPage args (args + 4 * strs.length) ∧
      isRamPage k1.initRamPages args = true ∧ args ∈ k1.used)
    (hcmd : isRamPage k1.initRamPages cmdLine = true ∧ cmdLine ∈ k1.used) (hshort : line.length < pgSize) :
    Ready { k2 with esp := physBase } kpage args strs ∧ physBase < kpage ∧
      ∀ a, InPage kpage a → k2.mem a = 0 := by
  have hpage : pgSize = 4096 := rfl
  have hbase : physBase = 3221225472 := rfl
  have hgrown : Grown k1 k2 := (grown_afterGet k1 userZero).trans hinstalled.grown
  have away : ∀ a, physBase < a → k1.InUse a → Away kpage a := fun a hlow ha =>
    ⟨hlow.ne', not_inPage_of_inUse hfound ha⟩
  have hcmdLow : physBase < cmdLine := isRamPage_lt hcmd.1
  have inLine : ∀ a, cmdLine ≤ a → a ≤ cmdLine + line.length → k1.InUse a := fun a h1 h2 =>
    .inr ⟨cmdLine, hcmd.2, hcmd.1, h1, by omega⟩
  have inArray : ∀ a, args ≤ a → a < args + 4 * strs.length → k1.InUse a ∧ physBase < a := fun a h1 h2 => by
    have hne : strs ≠ [] := by
      rintro rfl
      rw [List.length_nil] at h2
      omega
    obtain ⟨hin, hram, hused⟩ := hargs hne
    exact ⟨.inr ⟨args, hused, hram, h1, lt_trans h2 hin.2⟩, lt_of_lt_of_le (isRamPage_lt hram) h1⟩
  have hpageLow := isRamPage_lt (Kernel.found_some hfound).1
  refine ⟨⟨fun a h1 h2 => ?_, fun hne => (isRamPage_lt (hargs hne).2.1).le, fun a h1 h2 => ?_,
    fun i hi => ?_⟩, hpageLow, fun a ha => ?_⟩
  · refine (hinstalled.entryAt a).trans (if_pos ?_)
    rw [hbase, hpage] at h1
    rw [hbase] at h2
    rw [hbase, hpage]
    omega
  · obtain ⟨huse, hlow⟩ := inArray a h1 h2
    exact away a hlow huse
  · obtain ⟨p, hp, hstring, hlow, htop⟩ := collected.arg i hi
    rw [Nat.zero_add] at hp
    refine ⟨p, ?_, by omega, hstring.congr fun j hj => hgrown.mem _ (inLine _ (by omega) (by omega)),
      fun j hj => away _ (by omega) (inLine _ (by omega) (by omega))⟩
    rw [← hp]
    exact wordAtAddr_congr fun j hj => hgrown.mem _ (inArray _ (by omega) (by omega)).1
  · have huse : (k1.afterGet userZero).InUse a := by
      refine .inr ⟨kpage, by rw [used_afterGet_of_some hfound]; exact List.mem_cons_self, ?_, ha⟩
      rw [(grown_afterGet k1 userZero).initRamPages_eq]
      exact (Kernel.found_some hfound).1
    rw [hinstalled.grown.mem a huse, mem_afterGet_of_some hfound, memAfterGet_zero rfl ha]

/-- There is no page for the array of words, or none for the stack. -/
def NoStackPage (k : Kernel) (line : List UInt8) : Prop :=
  (k.found = none ∧ tokens line ≠ []) ∨ (k.afterGet {}).StackPageFails

theorem stackPageFails_mem (k : Kernel) (mem : Memory) :
    ({ k with mem } : Kernel).StackPageFails ↔ k.StackPageFails := by
  have hfound : (({ k with mem } : Kernel).afterGet userZero).found = (k.afterGet userZero).found :=
    found_afterGet _ _ rfl rfl rfl rfl
  rw [Kernel.StackPageFails, Kernel.StackPageFails, hfound]
  exact Iff.rfl

/-- **How far `setup_stack` comes**, with up to 100 words: without a page it stores nothing on the
stack and does not return true, and with the pages it starts to store. -/
theorem setupStack_cases (loading : Loading k cmdLine line) (hf : pgSize ≤ fuel)
    (few : (tokens line).length ≤ 100) :
    (NoStackPage k line ∧ ∃ r, setupStack fuel cmdLine k = r ∧ (final r).userStores = k.userStores ∧
      ∀ k', r ≠ .ok true k') ∨
    (¬ NoStackPage k line ∧ ∃ args kpage k2, Ready k2 kpage args (tokens line) ∧ physBase < kpage ∧
      (∀ a, InPage kpage a → k2.mem a = 0) ∧ k2.userStores = k.userStores ∧
      setupStack fuel cmdLine k = finishStack fuel args (tokens line).length k2) := by
  have hgrown := grown_afterGet k {}
  have hstores : (k.afterGet {}).userStores = k.userStores := by rw [hgrown.rest]
  rcases setupStack_front loading hf with ⟨hnone, hne, mem', h⟩ | ⟨hor, mem', -, -, hall⟩
  · exact .inl ⟨.inl ⟨hnone, hne⟩, _, h, hstores, fun k' e => by cases e⟩
  obtain ⟨hbuild, collected⟩ := hall few
  have hpages : (k.afterGet {}).StackPageFails ↔
      ({ k.afterGet {} with mem := mem' } : Kernel).StackPageFails := (stackPageFails_mem _ _).symm
  set k1 : Kernel := { k.afterGet {} with mem := mem' } with hk1
  have hdir : k1.pagedir ≠ none := by
    show (k.afterGet {}).pagedir ≠ none
    rw [pagedir_afterGet]
    exact loading.dir
  have hram : k1.initRamPages = k.initRamPages := hgrown.initRamPages_eq
  have hused : k.used ⊆ k1.used := hgrown.used
  rcases buildStack_cases (k := k1) hdir with ⟨hfails, k', h, hsame⟩ | ⟨hpage, kpage, k2, hfound, hinstalled, h⟩
  · refine .inl ⟨.inr (hpages.mpr hfails), _, hbuild.trans h, hsame.trans hstores, fun k' e => by cases e⟩
  have hargs : tokens line ≠ [] → InPage (k.found.getD 0) (k.found.getD 0 + 4 * (tokens line).length) ∧
      isRamPage k1.initRamPages (k.found.getD 0) = true ∧ k.found.getD 0 ∈ k1.used := fun hne => by
    obtain ⟨page, hpg⟩ := Option.ne_none_iff_exists'.mp (hor.resolve_right hne)
    have hmem : page ∈ (k.afterGet {}).used := by rw [used_afterGet_of_some hpg]; simp
    have hsize : pgSize = 4096 := rfl
    rw [hpg, hram]
    exact ⟨⟨Nat.le_add_right _ _, by omega⟩, (Kernel.found_some hpg).1, hmem⟩
  obtain ⟨ready, hk, hzero⟩ := ready_of_installed hfound hinstalled collected hargs
    ⟨hram ▸ loading.page, hused loading.taken⟩ loading.short
  refine .inr ⟨?_, _, kpage, _, ready, hk, hzero, ?_, hbuild.trans h⟩
  · rintro (⟨hnone, hne⟩ | hfails)
    · exact hor.elim (fun hsome => hsome hnone) hne
    · exact hpage (hpages.mp hfails)
  · show k2.userStores = _
    rw [hinstalled.grown.rest, (grown_afterGet k1 userZero).rest]
    exact hstores

/-- With the pages, and if the words fit into a page, it returns true. -/
theorem setupStack_returns (loading : Loading k cmdLine line) (hf : pgSize ≤ fuel)
    (few : (tokens line).length ≤ 100) (fits : layoutSize (tokens line) ≤ pgSize)
    (pages : ¬ NoStackPage k line) : ∃ k', setupStack fuel cmdLine k = .ok true k' := by
  rcases setupStack_cases loading hf few with ⟨hno, -⟩ | ⟨-, args, kpage, k2, ready, -, -, -, hrun⟩
  · exact absurd hno pages
  · have hfuel : ∀ w ∈ tokens line, w.length < fuel := fun w hw =>
      lt_of_le_of_lt (length_token_le hw) (lt_of_lt_of_le loading.short hf)
    exact ⟨_, by rw [hrun, finishStack, bind_of_ok (pushArguments_run ready hfuel fits)]; rfl⟩

/-- **Argument passing.**  When `setup_stack` returns true, for up to 100 words that fit into the page,
the process finds these words as its arguments. -/
theorem setupStack_decodes (loading : Loading k cmdLine line) (hf : pgSize ≤ fuel)
    (few : (tokens line).length ≤ 100) (fits : layoutSize (tokens line) ≤ pgSize)
    (hrun : setupStack fuel cmdLine k = .ok true k') :
    Decodes k'.userMem (tokens line) k'.esp ∧
      ∀ a, k'.esp ≤ a → a < physBase → k'.locate a false ≠ none := by
  rcases setupStack_cases loading hf few with ⟨-, r, h, -, hr⟩ |
    ⟨-, args, kpage, k2, ready, hk, hzero, -, h⟩
  · exact absurd (h.symm.trans hrun) (hr k')
  · exact finishStack_decodes ready hk hzero
      (fun w hw => lt_of_le_of_lt (length_token_le hw) (lt_of_lt_of_le loading.short hf))
      (nonzero_of_tokens loading.text) (by omega) fits (h.symm.trans hrun)

end Arguments

/-! ## The stores -/

section Stores

/-- Only memory is written to, and the stores of `k` are among those of `k'`. -/
structure StackOnly (k k' : Kernel) : Prop where
  stores : k.userStores <+: k'.userStores
  rest : k' = { k with mem := k'.mem, userStores := k'.userStores }

theorem StackOnly.refl (k : Kernel) : StackOnly k k := ⟨List.prefix_refl _, rfl⟩

instance : Std.Refl StackOnly := ⟨StackOnly.refl⟩

instance : IsTrans Kernel StackOnly where
  trans _ _ _ h h' := ⟨h.stores.trans h'.stores, by rw [h'.rest, h.rest]⟩

variable {k : Kernel} {fuel args : ℕ}

theorem moves_onMemory {α : Type} (m : StringCode α) : Moves StackOnly (onMemory m) := by
  intro k
  rw [onMemory]
  cases m k.mem with
  | ok a mem => exact ⟨List.prefix_refl _, rfl⟩
  | error e mem => cases e <;> exact ⟨List.prefix_refl _, rfl⟩

theorem moves_loadByte (addr : ℕ) : Moves StackOnly (loadByte addr) :=
  .bind (.fetch _) fun a => by
    cases a with
    | none => exact .stop _
    | some a => exact .fetch _

theorem moves_loadWord (addr : ℕ) : Moves StackOnly (loadWord addr) :=
  .bind (moves_loadByte _) fun _ => .bind (moves_loadByte _) fun _ => .bind (moves_loadByte _) fun _ =>
    .bind (moves_loadByte _) fun _ => .pure _

theorem moves_storeByte (addr : ℕ) (c : UInt8) : Moves StackOnly (storeByte addr c) :=
  .bind (.fetch _) fun a => by
    cases a with
    | none => exact .stop _
    | some a => exact .change fun _ => ⟨List.prefix_refl _, rfl⟩

theorem moves_storeWord (addr v : ℕ) : Moves StackOnly (storeWord addr v) :=
  .bind (moves_storeByte _ _) fun _ => .bind (moves_storeByte _ _) fun _ =>
    .bind (moves_storeByte _ _) fun _ => moves_storeByte _ _

theorem moves_stackStore (myEsp : ℕ) (c : UInt8) : Moves StackOnly (stackStore myEsp c) :=
  .bind (moves_storeByte _ _) fun _ => .change fun _ => ⟨List.prefix_append _ _, rfl⟩

theorem moves_stackStoreWord (myEsp v : ℕ) : Moves StackOnly (stackStoreWord myEsp v) :=
  .bind (moves_stackStore _ _) fun _ => .bind (moves_stackStore _ _) fun _ =>
    .bind (moves_stackStore _ _) fun _ => moves_stackStore _ _

theorem moves_pushChars (args index : ℕ) : ∀ n myEsp, Moves StackOnly (pushChars args index n myEsp)
  | 0, _ => .pure _
  | n + 1, _ => .bind (moves_loadWord _) fun _ => .bind (moves_loadByte _) fun _ =>
      .bind (moves_stackStore _ _) fun _ => moves_pushChars args index n _

theorem moves_pushStrings (fuel args : ℕ) : ∀ n myEsp total,
    Moves StackOnly (pushStrings fuel args n myEsp total)
  | 0, _, _ => .pure _
  | n + 1, _, _ => .bind (moves_stackStore _ _) fun _ => .bind (moves_loadWord _) fun _ =>
      .bind (moves_onMemory _) fun _ => .bind (moves_pushChars _ _ _ _) fun _ =>
        moves_pushStrings fuel args n _ _

theorem moves_pushPadding : ∀ x myEsp, Moves StackOnly (pushPadding x myEsp)
  | 0, _ => .pure _
  | x + 1, _ => .bind (moves_stackStore _ _) fun _ => moves_pushPadding x _

theorem moves_pushPointers (fuel args : ℕ) : ∀ n ptr myEsp,
    Moves StackOnly (pushPointers fuel args n ptr myEsp)
  | 0, _, _ => .pure _
  | n + 1, _, _ => .bind (moves_loadWord _) fun _ => .bind (moves_onMemory _) fun _ =>
      .bind (moves_stackStoreWord _ _) fun _ => moves_pushPointers fuel args n _ _

/-- After its first store, `push_arguments` takes none back. -/
theorem pushArguments_eq (fuel args counter : ℕ) : ∃ rest : Code ℕ,
    pushArguments fuel args counter = (stackStore physBase 0 >>= fun _ => rest) ∧
      Moves StackOnly rest :=
  ⟨_, rfl, .bind (moves_pushStrings _ _ _ _ _) fun _ => .bind (moves_pushPadding _ _) fun _ =>
    .bind (moves_stackStore _ _) fun _ => .bind (moves_pushPointers _ _ _ _ _) fun _ =>
      .bind (moves_stackStoreWord _ _) fun _ => .bind (moves_stackStore _ _) fun _ => .pure _⟩

/-- A store to `PHYS_BASE` does not fault. -/
theorem stackStore_physBase (k : Kernel) : stackStore physBase 0 k =
    .ok () { k with mem := Function.update k.mem physBase 0, userStores := k.userStores ++ [physBase] } := by
  rw [stackStore, bind_of_ok (storeByte_kernel le_rfl)]
  rfl

/-- **The first store** of the arguments is behind the page of the stack. -/
theorem finishStack_stores (fuel args counter : ℕ) (k : Kernel) :
    (k.userStores ++ [physBase]) <+: (final (finishStack fuel args counter k)).userStores ∧
      ∀ k', finishStack fuel args counter k ≠ .ok false k' := by
  obtain ⟨rest, hrest, hmoves⟩ := pushArguments_eq fuel args counter
  set k1 : Kernel :=
    { k with mem := Function.update k.mem physBase 0, userStores := k.userStores ++ [physBase] } with hk1
  have hpush : pushArguments fuel args counter k = rest k1 := by
    rw [hrest, bind_of_ok (stackStore_physBase k)]
  have hlonger : k1.userStores <+: (final (rest k1)).userStores := (hmoves k1).stores
  cases hrun : rest k1 with
  | ok myEsp k2 =>
      have hfinish : finishStack fuel args counter k = .ok true { k2 with esp := myEsp } := by
        rw [finishStack, bind_of_ok (hpush.trans hrun)]
        rfl
      rw [hrun] at hlonger
      rw [hfinish]
      exact ⟨hlonger, fun k' e => by cases e⟩
  | error e k2 =>
      have hfinish : finishStack fuel args counter k = .error e k2 := by
        rw [finishStack, bind_of_error (hpush.trans hrun)]
      rw [hrun] at hlonger
      rw [hfinish]
      exact ⟨hlonger, fun k' e => by cases e⟩

/-- A call of `setup_stack` returns false, or what it stores through the stack pointer is stored in the
page of the stack. -/
def StaysInPage (k : Kernel) (r : EStateM.Result Stop Kernel Bool) : Prop :=
  (∃ k', r = .ok false k') ∨
    ∀ a ∈ (final r).userStores.drop k.userStores.length, physBase - pgSize ≤ a ∧ a < physBase

/-- With the pages, a store is outside. -/
theorem not_staysInPage {k k2 : Kernel} {counter : ℕ} (h : k2.userStores = k.userStores) :
    ¬ StaysInPage k (finishStack fuel args counter k2) := by
  obtain ⟨⟨more, hmore⟩, hne⟩ := finishStack_stores fuel args counter k2
  rintro (⟨k', hk'⟩ | hall)
  · exact hne k' hk'
  · refine lt_irrefl physBase (hall physBase ?_).2
    rw [← hmore, h, List.append_assoc, List.drop_left]
    exact List.mem_cons_self

end Stores

section Bounds

variable {k : Kernel} {cmdLine fuel : ℕ} {line : List UInt8}

/-- **`setup_stack` stays in the page of the stack** exactly when a page is missing, so that it does
not come to the stores. -/
theorem setupStack_staysInPage_iff (loading : Loading k cmdLine line) (hf : pgSize ≤ fuel)
    (few : (tokens line).length ≤ 100) :
    StaysInPage k (setupStack fuel cmdLine k) ↔ NoStackPage k line := by
  rcases setupStack_cases loading hf few with ⟨hno, r, hrun, hstores, -⟩ |
    ⟨hpages, args, kpage, k2, -, -, -, hstores, hrun⟩
  · refine iff_of_true (.inr fun a ha => ?_) hno
    rw [hrun, hstores, List.drop_length] at ha
    exact absurd ha List.not_mem_nil
  · rw [hrun]
    exact iff_of_false (not_staysInPage hstores) hpages

end Bounds

/-! ## A process with two arguments -/

/-- A kernel that has three free pages, about to set up the stack for the command line `ab c`. -/
def twoWordsKernel : Kernel where
  mem a := [0x61, 0x62, 0x20, 0x63].getD (a - (physBase + 0x100000)) 0
  initRamPages := 1024
  answers n := some (physBase + 0x101000 + pgSize * n)
  asked := 0
  used := [physBase + 0x100000]
  heap _ := true
  mallocs := 0
  rootDir _ := none
  image _ := ⟨0, fun _ => 0⟩
  openCnt _ := 0
  denyWriteCnt _ := 0
  files _ := none
  nextFile := 0
  pagedir := some ⟨physBase + 0x110000, fun _ => none⟩
  execFile := none
  esp := 0
  userStores := []

/-- The command line. -/
def twoWords : List UInt8 := [0x61, 0x62, 0x20, 0x63]

theorem twoWordsKernel_loading : Loading twoWordsKernel (physBase + 0x100000) twoWords where
  page := by decide +kernel
  taken := List.mem_cons_self
  text := by
    refine ⟨fun i hi => ?_, by decide⟩
    have : i ≤ 4 := hi
    interval_cases i <;> decide +kernel
  short := by decide
  ram := by decide
  dir := Option.some_ne_none _
  null := rfl

theorem twoWordsKernel_pages : ¬ NoStackPage twoWordsKernel twoWords := by
  rintro (⟨h, -⟩ | h | ⟨pd, hpd, h | ⟨-, h⟩⟩)
  · exact absurd h (by decide +kernel)
  · exact absurd h (by decide +kernel)
  · rw [pagedir_afterGet] at hpd
    cases hpd
    exact absurd h (by simp [PageDir.entry])
  · exact absurd h (by decide +kernel)

/-- A process that finds its two arguments. -/
theorem twoWords_decodes : tokens twoWords = [[0x61, 0x62], [0x63]] ∧
    ∃ k', setupStack pgSize (physBase + 0x100000) twoWordsKernel = .ok true k' ∧
      Decodes k'.userMem (tokens twoWords) k'.esp := by
  have few : (tokens twoWords).length ≤ 100 := by decide
  have fits : layoutSize (tokens twoWords) ≤ pgSize := by decide
  obtain ⟨k', hrun⟩ := setupStack_returns twoWordsKernel_loading le_rfl few fits twoWordsKernel_pages
  exact ⟨by decide, k', hrun, (setupStack_decodes twoWordsKernel_loading le_rfl few fits hrun).1⟩

/-- A store behind the page of the stack. -/
theorem twoWords_leaves_page : ¬ ∀ (k : Kernel) (cmdLine : ℕ) (line : List UInt8),
    Loading k cmdLine line → (tokens line).length ≤ 100 →
      StaysInPage k (setupStack pgSize cmdLine k) := by
  intro h
  have hstays := h _ _ _ twoWordsKernel_loading (by decide)
  rcases setupStack_cases twoWordsKernel_loading le_rfl (by decide) with ⟨hno, -⟩ |
    ⟨-, args, kpage, k2, -, -, -, hstores, hrun⟩
  · exact twoWordsKernel_pages hno
  · rw [hrun] at hstays
    exact not_staysInPage hstores hstays

theorem twoWords_staysInPage_iff :
    StaysInPage twoWordsKernel (setupStack pgSize (physBase + 0x100000) twoWordsKernel) ↔
      NoStackPage twoWordsKernel twoWords :=
  setupStack_staysInPage_iff twoWordsKernel_loading le_rfl (by decide)

end Pintos.Userprog
