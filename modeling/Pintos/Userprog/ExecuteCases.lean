import Pintos.Userprog.OpenFiles

/-!
# The outcomes of `process_execute`

`process_execute` needs two pages and an executable that opens, and then a page for the thread.  If one
of the first three is missing, it returns `TID_ERROR` with everything as it was.

* **`processExecute_refused`** — the returns before a file is open.
* **`processExecute_opened`** — what is there once the file is open.
-/

namespace Pintos.Userprog

open Lib Strings
open Vm (Memory PageDir PageTable Pte Image PallocFlags pgSize physBase isUserVaddr pdNo ptNo fillPage
  copyBytes)

variable {k : Kernel} {fuel : ℕ} {fileName : List UInt8}

/-- The first word of the command line. -/
def command (fileName : List UInt8) : Option (List UInt8) := (tokens (cutLine fileName)).head?

/-- A page is missing for one of the two copies of the command line, or the executable does not
open. -/
def Kernel.Refuses (k : Kernel) (fileName : List UInt8) : Prop :=
  k.found = none ∨ (k.afterGet {}).found = none ∨ k.rootOpens = false ∨
    ∃ name, command fileName = some name ∧ k.opens name = false

/-- The same pages are taken, and the same inodes are open. -/
structure NothingLeft (k k' : Kernel) : Prop where
  pages : ∀ p, p ∈ k'.used ↔ p ∈ k.used
  openCnt : k'.openCnt = k.openCnt

/-- `process_execute` up to the file. -/
theorem processExecute_start {fnCopy argOne : ℕ} (hf : pgSize ≤ fuel) (hz : 0 ∉ fileName)
    (hfn : k.found = some fnCopy) (harg : (k.afterGet {}).found = some argOne) : ∃ mem',
    processExecute fuel fileName k = executeFile fnCopy argOne (command fileName)
        { (k.afterGet {}).afterGet {} with mem := mem' } ∧
      IsString mem' fnCopy (cutLine fileName) ∧ ∀ a, k.InUse a → mem' a = k.mem a := by
  have hbase : 0 < physBase := by decide
  have hlen := length_cutLine fileName
  set k1 := k.afterGet {} with hk1
  have hgrown := grown_afterGet k {}
  obtain ⟨hramFn, hfreeFn⟩ := Kernel.found_some hfn
  obtain ⟨hramArg, hfreeArg⟩ := Kernel.found_some harg
  have hused1 : k1.used = fnCopy :: k.used := used_afterGet_of_some hfn
  have hmem1 : k1.mem = k.mem := mem_afterGet_of_some hfn
  have hfn0 : fnCopy ≠ 0 := (lt_trans hbase (isRamPage_lt hramFn)).ne'
  have harg0 : argOne ≠ 0 := (lt_trans hbase (isRamPage_lt hramArg)).ne'
  have hne : fnCopy ≠ argOne := fun e => hfreeArg (by rw [hused1, e]; exact List.mem_cons_self)
  -- the first copy
  obtain ⟨m1, hcopy1, hline1, hframe1⟩ := copyLine_run (k := k1) hfn0 hz
  set k2 : Kernel := { k1 with mem := m1 } with hk2
  have harg2 : k2.found = some argOne := harg
  have hmem2 : (k2.afterGet {}).mem = m1 := mem_afterGet_of_some harg2
  -- the second copy, which is cut up
  obtain ⟨m2, hcopy2, hline2, hframe2⟩ := copyLine_run (k := k2.afterGet {}) harg0 hz
  set k3 : Kernel := { k2.afterGet {} with mem := m2 } with hk3
  have hfuel : (cutLine fileName).length < fuel := lt_of_lt_of_le hlen hf
  obtain ⟨m3, token, save, hrun, hname, hframe3⟩ := firstWord_run (k := k3) hline2 harg0 hfuel
  have hpages : ∀ a, InPage fnCopy a → ¬ InPage argOne a := fun a h h' =>
    hne (h.disjoint hramFn hramArg h')
  have hkeep : ∀ a, ¬ InPage argOne a → m3 a = m1 a := fun a ha => by
    have hout : a < argOne ∨ argOne + (cutLine fileName).length ≤ a := by
      unfold InPage at ha
      omega
    rw [hframe3 a hout]
    show m2 a = m1 a
    rw [hframe2 a ha, hmem2]
  have hstate : ({ k3 with mem := m3 } : Kernel) = { k1.afterGet {} with mem := m3 } := by
    have h1 : k2.afterGet {} = { k1.afterGet {} with mem := m1 } := by
      rw [Kernel.afterGet, Kernel.afterGet, harg, harg2]
      rfl
    rw [hk3, h1]
  refine ⟨m3, ?_, hline1.congr fun i hi => hkeep _ (hpages _ ⟨Nat.le_add_right _ _, by omega⟩),
    fun a ha => ?_⟩
  · rw [processExecute, bind_of_ok (pallocGetPage_run _ _), hfn]
    simp only []
    rw [bind_of_ok hcopy1, bind_of_ok (pallocGetPage_run _ _), harg2]
    simp only []
    rw [bind_of_ok hcopy2, bind_of_ok hrun, bind_of_ok hname, hstate]
    rfl
  · have h1 : ¬ InPage argOne a := not_inPage_of_inUse harg (hgrown.inUse ha)
    rw [hkeep a h1, hframe1 a (not_inPage_of_inUse hfn ha), hmem1]

/-! ## Nothing is opened -/

/-- **Without a page or without the executable** `process_execute` returns `TID_ERROR`, and nothing is
left of it. -/
theorem processExecute_refused (hf : pgSize ≤ fuel) (hz : 0 ∉ fileName) (h : k.Refuses fileName) :
    ∃ k', processExecute fuel fileName k = .ok none k' ∧ NothingLeft k k' := by
  have hbase : 0 < physBase := by decide
  cases hfn : k.found with
  | none =>
      refine ⟨k.afterGet {}, ?_, ?_⟩
      · rw [processExecute, bind_of_ok (pallocGetPage_run _ _), hfn]
        rfl
      · refine ⟨fun p => ?_, by rw [(grown_afterGet k {}).rest]⟩
        rw [used_afterGet, hfn]
        rfl
  | some fnCopy =>
      obtain ⟨hramFn, hfreeFn⟩ := Kernel.found_some hfn
      have hfn0 : fnCopy ≠ 0 := (lt_trans hbase (isRamPage_lt hramFn)).ne'
      have hused1 : (k.afterGet {}).used = fnCopy :: k.used := used_afterGet_of_some hfn
      have hram1 := (grown_afterGet k {}).initRamPages_eq
      cases harg : (k.afterGet {}).found with
      | none =>
          obtain ⟨m1, hcopy, -, -⟩ := copyLine_run (k := k.afterGet {}) hfn0 hz
          set k2 : Kernel := { k.afterGet {} with mem := m1 } with hk2
          have hnone : k2.found = none := harg
          have hused2 : (k2.afterGet {}).used = fnCopy :: k.used := by
            rw [used_afterGet, hnone]
            exact hused1
          have hram2 : isRamPage (k2.afterGet {}).initRamPages fnCopy = true := by
            rw [(grown_afterGet k2 {}).initRamPages_eq]
            exact hram1 ▸ hramFn
          have hrun := pallocFreePage_run hram2 (by rw [hused2]; exact List.mem_cons_self)
          refine ⟨(k2.afterGet {}).freed fnCopy, ?_, fun p => ?_, ?_⟩
          · rw [processExecute, bind_of_ok (pallocGetPage_run _ _), hfn]
            simp only []
            rw [bind_of_ok hcopy, bind_of_ok (pallocGetPage_run _ _), hnone]
            simp only []
            rw [bind_of_ok hrun]
            rfl
          · show p ∈ (k2.afterGet {}).used.erase fnCopy ↔ _
            rw [hused2, List.erase_cons_head]
          · exact (grown_afterGet k2 {}).openCnt_eq.trans (grown_afterGet k {}).openCnt_eq
      | some argOne =>
          obtain ⟨mem', hrun, -, -⟩ := processExecute_start hf hz hfn harg
          obtain ⟨hramArg, hfreeArg⟩ := Kernel.found_some harg
          have hused : ((k.afterGet {}).afterGet {}).used = argOne :: fnCopy :: k.used := by
            rw [used_afterGet_of_some harg, hused1]
          have hgrown := (grown_afterGet k {}).trans (grown_afterGet (k.afterGet {}) {})
          have hne : argOne ≠ fnCopy := fun e => hfreeArg (by rw [hused1, e]; exact List.mem_cons_self)
          set k2 : Kernel := { (k.afterGet {}).afterGet {} with mem := mem' } with hk2
          have hroot : k2.rootOpens = k.rootOpens := by
            show ((k.afterGet {}).afterGet {}).rootOpens = _
            rw [hgrown.rest]
            rfl
          have hopens : ∀ name, k2.opens name = k.opens name := fun name => by
            show ((k.afterGet {}).afterGet {}).opens name = _
            rw [hgrown.rest]
            rfl
          obtain ⟨n, hopen⟩ : ∃ n, filesysOpen (command fileName) k2 = .ok none { k2 with mallocs := n } := by
            rcases h with h | h | h | ⟨name, hname, h⟩
            · cases hfn.symm.trans h
            · cases harg.symm.trans h
            · exact ⟨_, filesysOpen_noRoot (hroot.trans h) _⟩
            · rw [hname]
              exact filesysOpen_none ((hopens name).trans h)
          set k3 : Kernel := { k2 with mallocs := n } with hk3
          have hram3 : k3.initRamPages = k.initRamPages := hgrown.initRamPages_eq
          have hused3 : k3.used = argOne :: fnCopy :: k.used := hused
          have hfree1 : pallocFreePage fnCopy k3 = _ := pallocFreePage_run (hram3 ▸ hramFn)
            (by rw [hused3]; simp)
          have hused4 : (k3.freed fnCopy).used = argOne :: k.used := by
            show k3.used.erase fnCopy = _
            rw [hused3, List.erase_cons_tail (by simpa using hne), List.erase_cons_head]
          have hfree2 : pallocFreePage argOne (k3.freed fnCopy) = _ := pallocFreePage_run
            (show isRamPage k3.initRamPages argOne = true from
              hram3 ▸ (grown_afterGet k {}).initRamPages_eq ▸ hramArg)
            (by rw [hused4]; exact List.mem_cons_self)
          refine ⟨(k3.freed fnCopy).freed argOne, ?_, fun p => ?_, ?_⟩
          · rw [hrun, executeFile, bind_of_ok hopen]
            simp only []
            rw [bind_of_ok hfree1, bind_of_ok hfree2]
            rfl
          · show p ∈ (k3.freed fnCopy).used.erase argOne ↔ _
            rw [hused4, List.erase_cons_head]
          · exact hgrown.openCnt_eq

/-! ## The executable is open -/

/-- The state once both copies are made and the executable is open. -/
def Kernel.opened (k : Kernel) (mem : Memory) (inode : ℕ) : Kernel :=
  { (k.afterGet {}).afterGet {} with
    mem := mem
    mallocs := k.mallocs + 4
    openCnt := Function.update k.openCnt inode (k.openCnt inode + 1)
    files := Function.update k.files k.nextFile (some ⟨inode, 0, false⟩)
    nextFile := k.nextFile + 1 }

/-- **With both pages and the executable**, or without a word in the line. -/
theorem processExecute_opened (hf : pgSize ≤ fuel) (hz : 0 ∉ fileName) (h : ¬ k.Refuses fileName) :
    (command fileName = none ∧ ∃ k', processExecute fuel fileName k = .error .assertFailed k') ∨
    ∃ fnCopy argOne inode mem name, command fileName = some name ∧ k.rootDir name = some inode ∧
      k.found = some fnCopy ∧ (k.afterGet {}).found = some argOne ∧
      IsString mem fnCopy (cutLine fileName) ∧
      processExecute fuel fileName k = executeThread fnCopy (k.opened mem inode) := by
  obtain ⟨fnCopy, hfn⟩ := Option.ne_none_iff_exists'.mp fun e => h (.inl e)
  obtain ⟨argOne, harg⟩ := Option.ne_none_iff_exists'.mp fun e => h (.inr (.inl e))
  have hroot : k.rootOpens = true := by simpa using fun e => h (.inr (.inr (.inl e)))
  obtain ⟨mem', hrun, hline, -⟩ := processExecute_start hf hz hfn harg
  have hgrown := (grown_afterGet k {}).trans (grown_afterGet (k.afterGet {}) {})
  set k2 : Kernel := { (k.afterGet {}).afterGet {} with mem := mem' } with hk2
  have hrest : k2 = { k with mem := mem', used := k2.used, asked := k2.asked, pagedir := k2.pagedir } := by
    rw [hk2, hgrown.rest]
  cases hname : command fileName with
  | none =>
      refine .inl ⟨rfl, { k2 with mallocs := k2.mallocs + 2 }, ?_⟩
      have hroot2 : k2.rootOpens = true := by
        rw [hrest]
        exact hroot
      rw [hrun, hname, executeFile, bind_of_error (filesysOpen_null hroot2)]
  | some name =>
      have hopens : k2.opens name = true := by
        rw [hrest]
        show k.opens name = true
        simpa using fun e => h (.inr (.inr (.inr ⟨name, hname, e⟩)))
      obtain ⟨inode, hdir, hopen⟩ := filesysOpen_some hopens
      have hdir' : k.rootDir name = some inode := by
        rw [hrest] at hdir
        exact hdir
      refine .inr ⟨fnCopy, argOne, inode, mem', name, rfl, hdir', hfn, harg, hline, ?_⟩
      have hmallocs : k2.mallocs = k.mallocs := by rw [hrest]
      have hopenCnt : k2.openCnt = k.openCnt := by rw [hrest]
      have hfiles : k2.files = k.files := by rw [hrest]
      have hnext : k2.nextFile = k.nextFile := by rw [hrest]
      rw [hrun, hname, executeFile, bind_of_ok hopen, hmallocs, hopenCnt, hfiles, hnext]
      rfl

/-- The thread is created, or not. -/
theorem executeThread_cases {fnCopy : ℕ} (hram : isRamPage k.initRamPages fnCopy = true)
    (hused : fnCopy ∈ k.used) :
    (k.found = none ∧ executeThread fnCopy k = .ok none ((k.afterGet { zero := true }).freed fnCopy)) ∨
    (k.found ≠ none ∧ k.heap k.mallocs = false ∧
      ∃ k', executeThread fnCopy k = .error .kernelBug k') ∨
    ∃ thread, k.found = some thread ∧ k.heap k.mallocs = true ∧ executeThread fnCopy k =
      .ok (some (fnCopy, thread)) { k.afterGet { zero := true } with mallocs := k.mallocs + 1 } := by
  have hgrown := grown_afterGet k { zero := true }
  set k1 := k.afterGet { zero := true } with hk1
  have hheap : k1.heap k1.mallocs = k.heap k.mallocs := by rw [hgrown.rest]
  have hmallocs : k1.mallocs = k.mallocs := by rw [hgrown.rest]
  cases hfound : k.found with
  | none =>
      refine .inl ⟨rfl, ?_⟩
      have hcreate : threadCreate k = .ok none k1 := by
        rw [threadCreate, bind_of_ok (pallocGetPage_run _ _), hfound]
        rfl
      have hfree : pallocFreePage fnCopy k1 = .ok () (k1.freed fnCopy) :=
        pallocFreePage_run (hgrown.initRamPages_eq ▸ hram) (hgrown.used hused)
      rw [executeThread, bind_of_ok hcreate]
      simp only []
      rw [bind_of_ok hfree]
      rfl
  | some thread =>
      have hmalloc := malloc_run k1
      rw [hheap, hmallocs] at hmalloc
      cases hm : k.heap k.mallocs with
      | false =>
          refine .inr (.inl ⟨Option.some_ne_none _, rfl, { k1 with mallocs := k.mallocs + 1 }, ?_⟩)
          have hcreate : threadCreate k = .error .kernelBug { k1 with mallocs := k.mallocs + 1 } := by
            rw [threadCreate, bind_of_ok (pallocGetPage_run _ _), hfound]
            simp only []
            rw [bind_of_ok hmalloc, hm]
            rfl
          rw [executeThread, bind_of_error hcreate]
      | true =>
          refine .inr (.inr ⟨thread, rfl, rfl, ?_⟩)
          have hcreate : threadCreate k = .ok (some thread) { k1 with mallocs := k.mallocs + 1 } := by
            rw [threadCreate, bind_of_ok (pallocGetPage_run _ _), hfound]
            simp only []
            rw [bind_of_ok hmalloc, hm]
            rfl
          rw [executeThread, bind_of_ok hcreate]
          rfl

end Pintos.Userprog
