import Pintos.Vm.Eviction
import Pintos.Vm.Records

/-!
# The page fault handler, locking aside

`page_fault` of `vm_PintOS/userprog/exception.c` for a page that is not there and has a supplemental
entry, in a kernel whose locks do nothing.  Every fault of user code and every write is sent to
`exit_status` before the entry is looked up.  Of the three places a page may be in, only the swap slot
is dealt with to the end: after `IN_DISK` the entry still says so, and after `ALL_ZERO` nothing is
mapped.  `load_swap` stores through the user address, so that a read-only page ends the process.

* **`getFrame_free`**, **`pagedirSetPage_mapped`** — what a fault needs of the allocator and the page
  directory.
* **`pageFault_restores_iff`** — exactly when the page is restored.
-/

namespace Pintos.Vm

open Lib Lib.Block

variable {s s' : Kernel} {fuel : ℕ}

/-! ## What stays -/

/-- Swap and the supplemental records are the same. -/
structure SameSwap (s s' : Kernel) : Prop where
  swap : s'.swap = s.swap
  records : s'.records = s.records
  locking : s'.locking = s.locking
  current : s'.current = s.current

/-- So are the frames that were handed out. -/
structure Aside (s s' : Kernel) : Prop extends SameSwap s s' where
  handed : s'.handed = s.handed

namespace SameSwap

theorem refl (s : Kernel) : SameSwap s s := ⟨rfl, rfl, rfl, rfl⟩

theorem trans {r : Kernel} (h : SameSwap r s) (h' : SameSwap s s') : SameSwap r s' :=
  ⟨h'.swap.trans h.swap, h'.records.trans h.records, h'.locking.trans h.locking,
    h'.current.trans h.current⟩

instance : Std.Refl SameSwap := ⟨refl⟩

instance : IsTrans Kernel SameSwap := ⟨fun _ _ _ => trans⟩

end SameSwap

namespace Aside

instance : Std.Refl Aside := ⟨fun s => ⟨.refl s, rfl⟩⟩

instance : IsTrans Kernel Aside :=
  ⟨fun _ _ _ h h' => ⟨h.toSameSwap.trans h'.toSameSwap, h'.handed.trans h.handed⟩⟩

theorem assert (c : Bool) : Moves Aside (Vm.assert c) := Moves.ite (Moves.pure ()) (Moves.stop _)

theorem lockRelease (l : Lock) : Moves Aside (Vm.lockRelease l) := by
  refine Moves.bind (Moves.fetch _) fun _ => Moves.bind (Moves.fetch _) fun _ => ?_
  refine Moves.ite (Moves.pure ()) (Moves.bind (assert _) fun _ => ?_)
  exact Moves.change fun _ => ⟨⟨rfl, rfl, rfl, rfl⟩, rfl⟩

theorem threadCurrent : Moves Aside Vm.threadCurrent := by
  refine Moves.bind (Moves.fetch _) fun th => ?_
  cases th with
  | none => exact Moves.stop _
  | some th => exact Moves.pure th

theorem pallocGetPage (flags : PallocFlags) : Moves Aside (Vm.pallocGetPage flags) := by
  refine Moves.bind (Moves.fetch _) fun pool => ?_
  rcases bitmapScanAndFlip pool.usedMap 0 1 false with ⟨_ | idx, usedMap⟩
  · exact Moves.bind (assert _) fun _ => Moves.pure _
  · exact Moves.bind (Moves.change fun _ => ⟨⟨rfl, rfl, rfl, rfl⟩, rfl⟩) fun _ => Moves.pure _

theorem setTable (i : ℕ) (pt : PageTable) (s : Kernel) : Aside s (s.setTable i pt) := by
  refine ⟨⟨rfl, ?_, rfl, rfl⟩, rfl⟩
  have hself : (s.setTable i pt).threads (s.setTable i pt).current =
      (s.threads s.current).map fun th => { th with pagedir := th.pagedir.map fun pd => pd.setTable i pt } :=
    threads_updateCurrent_self _
  rw [Kernel.records, Kernel.records, hself]
  cases s.threads s.current <;> rfl

theorem lookupPage (vaddr : ℕ) (create : Bool) : Moves Aside (Vm.lookupPage vaddr create) := by
  refine Moves.bind threadCurrent fun th => ?_
  cases th.pagedir with
  | none => exact Moves.stop _
  | some pd =>
      refine Moves.bind (assert _) fun _ => ?_
      cases pd.tables (pdNo vaddr) with
      | some pt => exact Moves.pure _
      | none =>
          refine Moves.ite (Moves.bind (pallocGetPage _) fun found => ?_) (Moves.pure _)
          cases found with
          | none => exact Moves.pure _
          | some page => exact Moves.bind (Moves.change (setTable _ _)) fun _ => Moves.pure _

theorem pagedirSetPage (upage kpage : ℕ) (writable : Bool) :
    Moves Aside (Vm.pagedirSetPage upage kpage writable) := by
  refine Moves.bind (assert _) fun _ => Moves.bind (assert _) fun _ => ?_
  refine Moves.bind (assert _) fun _ => Moves.bind (assert _) fun _ => ?_
  refine Moves.bind (Moves.fetch _) fun _ => Moves.bind (assert _) fun _ => ?_
  refine Moves.bind (lookupPage _ _) fun found => ?_
  cases found with
  | none => exact Moves.pure _
  | some pt =>
      refine Moves.bind (assert _) fun _ => ?_
      exact Moves.bind (Moves.change (setTable _ _)) fun _ => Moves.pure _

theorem installPage (upage kpage : ℕ) (writable : Bool) :
    Moves Aside (Vm.installPage upage kpage writable) := by
  have hget : Moves Aside (pagedirGetPage upage) := by
    refine Moves.bind (assert _) fun _ => Moves.bind (lookupPage _ _) fun found => ?_
    cases found <;> exact Moves.pure _
  refine Moves.bind hget fun found => ?_
  cases found with
  | some page => exact Moves.pure _
  | none => exact pagedirSetPage _ _ _

end Aside

/-- `free_frame` has nothing to do with swap. -/
theorem swap_freeFrame (page : ℕ) : Moves SameSwap (freeFrame page) := by
  have hassert : ∀ c, Moves SameSwap (assert c) := fun c => (Aside.assert c).mono fun _ _ h => h.toSameSwap
  have hstop : ∀ {α : Type} (r : Except Fault α), Moves SameSwap (orStop r) := fun r => by
    cases r with
    | ok a => exact Moves.pure a
    | error e => exact Moves.stop _
  have hpool : ∀ n, Moves SameSwap (freeInPool n page) := fun n => by
    refine Moves.bind (Moves.fetch _) fun _ => Moves.bind (Moves.change fun _ => ⟨rfl, rfl, rfl, rfl⟩) fun _ => ?_
    refine Moves.bind (hstop _) fun _ => Moves.bind (hassert _) fun _ => ?_
    exact Moves.bind (hstop _) fun _ => Moves.change fun _ => ⟨rfl, rfl, rfl, rfl⟩
  refine Moves.bind (Moves.change fun _ => ⟨rfl, rfl, rfl, rfl⟩) fun _ => ?_
  refine Moves.bind (hassert _) fun _ => Moves.ite (Moves.pure ()) ?_
  refine Moves.bind (Moves.fetch _) fun _ => Moves.bind (Moves.fetch _) fun _ => ?_
  exact Moves.ite (hpool _) (Moves.ite (hpool _) (Moves.stop _))

/-! ## A frame for the page -/

/-- **A free frame is found.** -/
theorem getFrame_free (fuel : ℕ) (flags : PallocFlags) (hl : s.locking = false) (hfree : ¬ s.Full flags.pool)
    (hm : s.heap s.mallocs = true) : ∃ idx s', idx < (s.pools flags.pool).usedMap.bitCnt ∧
      getFrame fuel flags s = .ok (some ((s.pools flags.pool).base + pgSize * idx)) s' ∧
      s'.threads = s.threads ∧ s'.initRamPages = s.initRamPages ∧ SameSwap s s' ∧
      ∀ n, n ≠ flags.pool → s'.pools n = s.pools n := by
  obtain ⟨idx, hscan⟩ := Option.ne_none_iff_exists'.mp hfree
  have hflip : bitmapScanAndFlip (s.pools flags.pool).usedMap 0 1 false =
      (some idx, (s.pools flags.pool).usedMap.setRange idx 1 true) := by
    rw [bitmapScanAndFlip, hscan]
    rfl
  obtain ⟨hidx, -, -⟩ := scanAndFlip_some hflip
  set page := (s.pools flags.pool).base + pgSize * idx with hpage
  set s1 : Kernel := { s.setUsed flags.pool ((s.pools flags.pool).usedMap.setRange idx 1 true) with
    grants := ⟨page, s.mappers page⟩ :: s.grants
    mem := if flags.zero then fillPage s.mem page 0 else s.mem } with hs1
  have hget : pallocGetPage flags s = .ok (some page) s1 := by
    unfold pallocGetPage
    simp only [fetch_bind]
    rw [hflip]
    rfl
  set s2 : Kernel := { s1 with
    mallocs := s1.mallocs + 1
    fifoList := s1.fifoList ++ [⟨page, s1.current⟩]
    handed := s1.handed ++ [page] } with hs2
  have hrecord : recordFrame fuel (some page) s1 = .ok () s2 := by
    rw [recordFrame, bind_of_ok (malloc_run s1), show s1.heap s1.mallocs = true from hm]
    rfl
  refine ⟨idx, s2, hidx, ?_, rfl, rfl, ⟨rfl, rfl, rfl, rfl⟩, fun n hn => Function.update_of_ne hn _ _⟩
  have hfind : findPage flags s = .ok (some page) s1 := by
    rw [findPage, bind_of_ok hget]
    rfl
  rw [getFrame, bind_of_ok (lockAcquire_off .frame hl), bind_of_ok hfind, bind_of_ok hrecord,
    bind_of_ok (lockRelease_off (s := s2) .frame hl)]
  rfl

theorem assert_run {c : Bool} (h : c = true) : assert c s = .ok () s := by
  rw [assert, if_pos h]
  rfl

theorem orStop_run {α : Type} (a : α) : orStop (.ok a) s = .ok a s := rfl

theorem threadCurrent_run {th : Thread} (h : s.threads s.current = some th) :
    threadCurrent s = .ok th s := by simp [threadCurrent, h]

/-- A thread with a page directory. -/
theorem thread_of_dirAt {pd : PageDir} (h : s.dirAt s.current = some pd) :
    ∃ th, s.threads s.current = some th ∧ th.pagedir = some pd := by
  rw [Kernel.dirAt] at h
  exact Option.bind_eq_some_iff.mp h

/-- **The page is mapped.** -/
theorem pagedirSetPage_mapped {pd : PageDir} {upage kpage : ℕ} (writable : Bool)
    (hdir : s.dirAt s.current = some pd) (hu : upage % pgSize = 0) (hlow : upage < physBase)
    (hk : kpage % pgSize = 0) (hbase : physBase ≤ kpage) (hram : vtop kpage / pgSize < s.initRamPages)
    (hfree : ¬ s.Full .kernel) (hunmapped : s.mapping upage = none) :
    ∃ s', pagedirSetPage upage kpage writable s = .ok true s' ∧
      ∀ a, s'.mapping a = if a / pgSize = upage / pgSize then some ⟨kpage, writable⟩ else s.mapping a := by
  obtain ⟨th, hth, hpd⟩ := thread_of_dirAt hdir
  -- the page table
  obtain ⟨s1, pd1, pt, hlookup, hdir1, htables, hentries⟩ : ∃ s1 pd1 pt,
      lookupPage upage true s = .ok (some pt) s1 ∧ s1.dirAt s1.current = some pd1 ∧
      (∀ j, pt.entries j = (pd1.tables (pdNo upage)).bind fun t => t.entries j) ∧
      ∀ a, pd1.entry a = pd.entry a := by
    unfold lookupPage
    rw [bind_of_ok (threadCurrent_run hth), hpd]
    simp only []
    rw [bind_of_ok (assert_run (by simp [isUserVaddr, hlow]))]
    cases hpt : pd.tables (pdNo upage) with
    | some pt => exact ⟨s, pd, pt, rfl, hdir, fun j => by rw [hpt]; rfl, fun _ => rfl⟩
    | none =>
        obtain ⟨idx, hscan⟩ := Option.ne_none_iff_exists'.mp hfree
        obtain ⟨page, s1, hget, hthreads, -, -, -, hcurrent⟩ :=
          @pallocGetPage_free _ { zero := true } _ hscan
        have hdir1 : s1.dirAt s1.current = some pd := by
          rw [Kernel.dirAt, hthreads, hcurrent]
          exact hdir
        refine ⟨s1.setTable (pdNo upage) ⟨page, fun _ => none⟩,
          pd.setTable (pdNo upage) ⟨page, fun _ => none⟩, ⟨page, fun _ => none⟩, ?_, ?_, fun j => ?_,
          fun a => ?_⟩
        · simp only [if_true]
          rw [bind_of_ok hget]
          rfl
        · show (s1.setTable _ _).dirAt s1.current = _
          rw [dirAt_setTable_self, hdir1]
          rfl
        · simp only [PageDir.setTable, Function.update_self]
          rfl
        · simp only [PageDir.entry, PageDir.setTable]
          by_cases hno : pdNo a = pdNo upage
          · rw [hno, Function.update_self, hpt]
            rfl
          · rw [Function.update_of_ne hno]
  have hfreeEntry : pt.entries (ptNo upage) = none := by
    rw [htables]
    have h : s.mapping upage = pd1.entry upage := by
      rw [Kernel.mapping, hdir, hentries]
      rfl
    rw [hunmapped] at h
    exact h.symm
  refine ⟨s1.setTable (pdNo upage) (pt.setEntry (ptNo upage) ⟨kpage, writable⟩), ?_, fun a => ?_⟩
  · rw [pagedirSetPage, bind_of_ok (assert_run (by simpa using hu)),
      bind_of_ok (assert_run (by simpa using hk)),
      bind_of_ok (assert_run (by simpa [isUserVaddr] using hlow)),
      bind_of_ok (assert_run (by simpa using hbase)), fetch_bind,
      bind_of_ok (assert_run (by simpa using hram)), bind_of_ok hlookup]
    simp only []
    rw [bind_of_ok (assert_run (by simp [hfreeEntry]))]
    rfl
  · show ((s1.setTable _ _).dirAt s1.current).bind _ = _
    rw [dirAt_setTable_self, hdir1]
    show (pd1.setTable _ _).entry a = _
    rw [Userprog.entry_setTable htables, hentries, Kernel.mapping, hdir]
    rfl

/-! ## The slot -/

/-- The slot of a page in swap: it is there, and it is taken. -/
structure SlotTaken (swap : Swap) (i : ℕ) (dev : Device) : Prop where
  initialized : swap.isInitialized = true
  role : swap.role = some dev
  valid : i < swap.swapBitmap.bitCnt
  taken : swap.swapBitmap.bits i = true
  inside : 8 * i + 8 ≤ dev.size

/-- **`load_swap`**, through an address that may be written. -/
theorem loadSwap_reads (fuel : ℕ) {i dest uaddr : ℕ} {dev : Device} {th : Thread} {e : SupPage}
    (hl : s.locking = false) (hslot : SlotTaken s.swap i dev) (hth : s.threads s.current = some th)
    (hdest : th.writeAddr uaddr = some dest) (hentry : entryOf s.records uaddr = some e) :
    ∃ s', loadSwap fuel uaddr i s = .ok () s' ∧ s'.dirAt s'.current = s.dirAt s.current ∧
      (∀ j < pgSize, s'.mem (dest + j) = byteAt (dev.disk (8 * i + j / 512)) (j % 512)) ∧
      entryOf s'.records uaddr = some { e with pageLocation := .inMemory, swapIndex := -1 } := by
  have hlt := dev.size_lt
  have hinside := hslot.inside
  have hvalid := hslot.valid
  have hidx : ofInt32 (i : ℤ) = i := by
    unfold ofInt32
    omega
  have hbase : ofInt32 ((i : ℤ) * (8 : ℕ)) = 8 * i := by
    unfold ofInt32
    omega
  have hrecords : s.records = th.supPageTable := by
    rw [Kernel.records, hth]
    rfl
  rw [hrecords] at hentry
  obtain ⟨mem', hread, hmem⟩ := readSlot_spec dev dest (8 * i) 8 0 s.mem (by omega)
  obtain ⟨table', hchange, hfind⟩ := changePageLocation_spec .inMemory (-1) hentry
  set w : SwapState := ⟨{ s.swap with swapBitmap := s.swap.swapBitmap.setRange i 1 false }, mem', table'⟩ with hw
  have htest : bitmapTest s.swap.swapBitmap (ofInt32 (i : ℤ)) = .ok true := by
    rw [hidx, bitmapTest, if_pos hvalid, hslot.taken]
  have hset : bitmapSetMultiple s.swap.swapBitmap i 1 false = .ok (s.swap.swapBitmap.setRange i 1 false) := by
    rw [bitmapSetMultiple, if_pos (by omega)]
  have hload : loadSlotAt (s.swapState th) uaddr dest i = .ok w := by
    have hdev : (s.swapState th).swap.device = .ok dev := by
      rw [Kernel.swapState, Swap.device, hslot.role]
    have hread' : readSlot dev dest (8 * i) 8 0 (s.swapState th).mem = .ok mem' := hread
    have hset' : bitmapSetMultiple (s.swapState th).swap.swapBitmap i 1 false = _ := hset
    have hchange' : changePageLocation uaddr .inMemory (-1) (s.swapState th).table = .ok table' := hchange
    simp only [loadSlotAt, hdev, ok_bind, hidx, numSectorsPerPage, hbase, hread', hset', hchange']
    rfl
  have hself : (s.setSwapState w).threads s.current = some { th with supPageTable := table' } := by
    show Function.update s.threads s.current ((s.threads s.current).map _) s.current = _
    rw [Function.update_self, hth]
    rfl
  refine ⟨s.setSwapState w, ?_, ?_, fun j hj => ?_, ?_⟩
  · rw [loadSwap, fetch_bind, hslot.initialized]
    simp only [Bool.not_true, Bool.false_eq_true, if_false]
    rw [bind_of_ok (lockAcquire_off .swap hl), bind_of_ok (threadCurrent_run hth), fetch_bind]
    simp only [id_eq]
    rw [htest, bind_of_ok (orStop_run true), bind_of_ok (assert_run rfl), hdest]
    simp only []
    rw [hload, bind_of_ok (orStop_run w)]
    exact lockRelease_off (s := s.setSwapState w) .swap hl
  · show ((s.setSwapState w).threads s.current).bind _ = _
    rw [hself, Kernel.dirAt, hth]
    rfl
  · have hpage : pgSize = 4096 := rfl
    show mem' (dest + j) = _
    rw [hmem, if_pos (by omega), Nat.add_sub_cancel_left]
  · show entryOf (((s.setSwapState w).threads s.current).map _ |>.getD []) uaddr = _
    rw [hself]
    show entryOf table' uaddr = _
    rw [hfind, if_pos rfl]

/-- **`load_swap`**, through an address that may not be written. -/
theorem loadSwap_faults {i uaddr : ℕ} {dev : Device} {th : Thread} (hl : s.locking = false)
    (hslot : SlotTaken s.swap i dev) (hth : s.threads s.current = some th)
    (haddr : th.writeAddr uaddr = none) : ∀ s', loadSwap fuel uaddr i s ≠ .ok () s' := by
  intro s' hrun
  have hlt := dev.size_lt
  have hinside := hslot.inside
  have hidx : ofInt32 (i : ℤ) = i := by
    unfold ofInt32
    omega
  have htest : bitmapTest s.swap.swapBitmap (ofInt32 (i : ℤ)) = .ok true := by
    rw [hidx, bitmapTest, if_pos hslot.valid, hslot.taken]
  rw [loadSwap, fetch_bind, hslot.initialized] at hrun
  simp only [Bool.not_true, Bool.false_eq_true, if_false] at hrun
  rw [bind_of_ok (lockAcquire_off .swap hl), bind_of_ok (threadCurrent_run hth), fetch_bind] at hrun
  simp only [id_eq] at hrun
  rw [htest, bind_of_ok (orStop_run true), bind_of_ok (assert_run rfl), haddr] at hrun
  simp only [] at hrun
  obtain ⟨e, s1, hstop⟩ := stops_of_empty (exitStatus fuel) s
  rw [bind_of_error hstop] at hrun
  cases hrun

/-! ## The fault -/

/-- What is to be in a page, according to its entry. -/
def pageContents (s : Kernel) (spage : SupPage) (j : ℕ) : UInt8 :=
  match spage.pageLocation with
  | .inSwap => (s.swap.role.map fun dev =>
      byteAt (dev.disk (8 * spage.swapIndex.toNat + j / 512)) (j % 512)).getD 0
  | .inDisk => if j < spage.readBytes then (s.files spage.file).image.byte (spage.offset.toNat + j) else 0
  | .allZero => 0
  | .inMemory => 0

/-- A fault at a user address that is not mapped and has an entry, while there is memory; the access is
permitted. -/
structure Faulting (s : Kernel) (info : FaultInfo) (spage : SupPage) : Prop where
  locking : s.locking = false
  dir : s.dirAt s.current ≠ none
  addr : info.addr < physBase
  absent : info.notPresent = true
  unmapped : s.mapping info.addr = none
  entry : entryOf s.records (info.addr / pgSize * pgSize) = some spage
  away : spage.pageLocation ≠ .inMemory
  permitted : info.write = true → spage.writable = true
  pools : Laid s.initRamPages s.pools
  frame : ¬ s.Full .user
  table : ¬ s.Full .kernel
  memory : s.heap s.mallocs = true
  slot : spage.pageLocation = .inSwap → ∃ i dev, spage.swapIndex = (i : ℕ) ∧ SlotTaken s.swap i dev

/-- The page is mapped with the writability of its entry, it has its contents, and the entry says that it is
in memory. -/
structure Restored (s s' : Kernel) (info : FaultInfo) (spage : SupPage) : Prop where
  page : ∃ kpage, s'.mapping info.addr = some ⟨kpage, spage.writable⟩ ∧
    ∀ j < pgSize, s'.mem (kpage + j) = pageContents s spage j
  entry : ∃ e, entryOf s'.records (info.addr / pgSize * pgSize) = some e ∧ e.pageLocation = .inMemory

section Faults

variable {info : FaultInfo} {spage : SupPage}

/-- **User code and writes** end in `exit_status`. -/
theorem pageFault_kills (h : info.user = true ∨ info.write = true) :
    ∀ s', pageFault fuel info s ≠ .ok () s' := by
  intro s' hrun
  have hcond : (info.user || !isUserVaddr info.addr || info.write) = true := by
    rcases h with h | h <;> simp [h]
  rw [pageFault, if_pos hcond] at hrun
  obtain ⟨e, s1, hstop⟩ := stops_of_empty (exitStatus fuel) s
  rw [bind_of_error hstop] at hrun
  cases hrun

/-- **Other faults** are dealt with according to the entry. -/
theorem pageFault_reads (fuel : ℕ) (h : Faulting s info spage) (huser : info.user = false)
    (hwrite : info.write = false) :
    (spage.pageLocation = .inSwap → pageFault fuel info s = faultInSwap fuel spage s) ∧
    (spage.pageLocation = .inDisk → pageFault fuel info s = faultInDisk fuel spage s) ∧
    (spage.pageLocation = .allZero →
      pageFault fuel info s = faultAllZero fuel (info.addr / pgSize * pgSize) spage s) := by
  obtain ⟨pd, hdir⟩ := Option.ne_none_iff_exists'.mp h.dir
  obtain ⟨th, hth, -⟩ := thread_of_dirAt hdir
  have hcond : (info.user || !isUserVaddr info.addr || info.write) = false := by
    simp [huser, hwrite, isUserVaddr, h.addr]
  have hfound : getSupPage th.supPageTable (info.addr / pgSize * pgSize) = .ok spage := by
    have hentry := h.entry
    rw [Kernel.records, hth] at hentry
    have hfind : th.supPageTable.find? (·.vAddr = info.addr / pgSize * pgSize) = some spage := hentry
    rw [getSupPage, hfind]
  refine ⟨fun e => ?_, fun e => ?_, fun e => ?_⟩
  all_goals
    rw [pageFault, hcond]
    simp only [Bool.false_eq_true, if_false]
    rw [bind_of_ok (threadCurrent_run hth), hfound, bind_of_ok (orStop_run spage), if_pos h.absent, e]

/-- The frame of a fault. -/
theorem Faulting.frame_run (fuel : ℕ) (h : Faulting s info spage) (s0 : Kernel) (h0 : s0.locking = false)
    (hpools : s0.pools = s.pools) (hram : s0.initRamPages = s.initRamPages) (hheap : s0.heap s0.mallocs = true) :
    ∃ kpage s1, getFrame fuel { user := true } s0 = .ok (some kpage) s1 ∧ s1.threads = s0.threads ∧
      SameSwap s0 s1 ∧ kpage % pgSize = 0 ∧ physBase ≤ kpage ∧ vtop kpage / pgSize < s1.initRamPages ∧
      ¬ s1.Full .kernel := by
  have hfree : ¬ s0.Full (PallocFlags.pool { user := true }) := by
    rw [Kernel.Full, hpools]
    exact h.frame
  obtain ⟨idx, s1, hidx, hrun, hthreads, hram1, hswap, hother⟩ :=
    getFrame_free fuel { user := true } h0 hfree hheap
  refine ⟨_, s1, hrun, hthreads, hswap, ?_, ?_, ?_, ?_⟩
  · rw [hpools, Nat.add_mul_mod_self_left]
    exact h.pools.aligned _
  · rw [hpools]
    exact le_trans (h.pools.lower _) (Nat.le_add_right _ _)
  · rw [hpools] at hidx ⊢
    have hpage : pgSize = 4096 := rfl
    have hupper := h.pools.upper (PallocFlags.pool { user := true })
    have hlower := h.pools.lower (PallocFlags.pool { user := true })
    rw [hram1, hram, vtop]
    rw [hpage] at hupper ⊢
    omega
  · rw [Kernel.Full, hother .kernel (by decide), hpools]
    exact h.table

/-- The page of the fault. -/
theorem Faulting.upage (h : Faulting s info spage) : info.addr / pgSize * pgSize % pgSize = 0 ∧
    info.addr / pgSize * pgSize < physBase ∧ info.addr / pgSize * pgSize / pgSize = info.addr / pgSize ∧
    spage.vAddr = info.addr / pgSize * pgSize := by
  refine ⟨Nat.mul_mod_left _ _, lt_of_le_of_lt (Nat.div_mul_le_self _ _) h.addr,
    Nat.mul_div_cancel _ (by decide), ?_⟩
  simpa using List.find?_some h.entry

/-- The mapping of an address is that of its page. -/
theorem mapping_page (s : Kernel) {a a' : ℕ} (h : a / pgSize = a' / pgSize) : s.mapping a = s.mapping a' := by
  obtain ⟨h1, h2⟩ := (Userprog.page_eq_iff a a').mp h
  simp only [Kernel.mapping, PageDir.entry, h1, h2]

/-- **`IN_SWAP`**: the frame is mapped, and then `load_swap` stores through the mapping. -/
theorem faultInSwap_run (fuel : ℕ) (h : Faulting s info spage) (hswap : spage.pageLocation = .inSwap) :
    ∃ kpage s1 i dev, spage.swapIndex = (i : ℕ) ∧ SlotTaken s1.swap i dev ∧ s.swap.role = some dev ∧
      s1.locking = false ∧ s1.records = s.records ∧
      s1.mapping info.addr = some ⟨kpage, spage.writable⟩ ∧
      faultInSwap fuel spage s = loadSwap fuel (info.addr / pgSize * pgSize) spage.swapIndex s1 := by
  obtain ⟨hmod, hlow, hdiv, hv⟩ := h.upage
  obtain ⟨kpage, s1, hrun, hthreads, hsame, hk, hbase, hram, hfree⟩ :=
    h.frame_run fuel s h.locking rfl rfl h.memory
  obtain ⟨i, dev, hi, hslot⟩ := h.slot hswap
  obtain ⟨pd, hdir⟩ := Option.ne_none_iff_exists'.mp h.dir
  have hdir1 : s1.dirAt s1.current = some pd := by
    rw [Kernel.dirAt, hthreads, hsame.current]
    exact hdir
  have hunmapped : s1.mapping (info.addr / pgSize * pgSize) = none := by
    rw [mapping_page s1 hdiv, Kernel.mapping, hdir1, ← hdir]
    exact h.unmapped
  obtain ⟨s2, hset, hmap⟩ := pagedirSetPage_mapped spage.writable hdir1 hmod hlow hk
    hbase hram hfree hunmapped
  have hsame2 : SameSwap s1 s2 := by
    have hmoves := Aside.pagedirSetPage (info.addr / pgSize * pgSize) kpage spage.writable s1
    rw [hset] at hmoves
    exact hmoves.toSameSwap
  have hl1 : s1.locking = false := hsame.locking.trans h.locking
  have hl2 : s2.locking = false := hsame2.locking.trans hl1
  refine ⟨kpage, s2, i, dev, hi, ?_, hslot.role, hl2, hsame2.records.trans hsame.records, ?_, ?_⟩
  · rw [hsame2.swap, hsame.swap]
    exact hslot
  · rw [hmap, if_pos hdiv.symm]
  · rw [faultInSwap, bind_of_ok hrun, bind_of_ok (lockAcquire_off .filesys hl1),
      bind_of_ok (lockAcquire_off .frame hl1), hv]
    show (pagedirSetPage _ kpage _ >>= _) s1 = _
    rw [bind_of_ok hset]
    show ((pure () : Code Unit) >>= _) s2 = _
    rw [pure_bind_run, bind_of_ok (lockRelease_off .frame hl2), bind_of_ok (lockRelease_off .filesys hl2)]

/-- Where the kernel may write. -/
theorem writeAddr_of_mapping {th : Thread} {a kpage : ℕ} {writable : Bool} (hth : s.threads s.current = some th)
    (hlow : a < physBase) (h : s.mapping a = some ⟨kpage, writable⟩) :
    th.writeAddr a = if writable then some (kpage + a % pgSize) else none := by
  have hentry : (th.pagedir.bind fun pd => pd.entry a) = some ⟨kpage, writable⟩ := by
    rw [Kernel.mapping, Kernel.dirAt, hth] at h
    exact h
  rw [Thread.writeAddr, if_pos (by simpa [isUserVaddr] using hlow), hentry]

/-- **A page in swap** is restored exactly if it may be written. -/
theorem faultInSwap_restores_iff (h : Faulting s info spage) (hswap : spage.pageLocation = .inSwap) :
    (∃ s', faultInSwap fuel spage s = .ok () s' ∧ Restored s s' info spage) ↔ spage.writable = true := by
  obtain ⟨hmod, hlow, hdiv, hv⟩ := h.upage
  obtain ⟨kpage, s1, i, dev, hi, hslot, hrole, hl, hrecords, hmap, hrun⟩ :=
    faultInSwap_run fuel h hswap
  have hmap' : s1.mapping (info.addr / pgSize * pgSize) = some ⟨kpage, spage.writable⟩ := by
    rw [mapping_page s1 hdiv, hmap]
  obtain ⟨pd, hdir, -⟩ := Option.bind_eq_some_iff.mp hmap
  obtain ⟨th, hth, -⟩ := thread_of_dirAt hdir
  have haddr := writeAddr_of_mapping hth hlow hmap'
  rw [hrun, hi]
  constructor
  · rintro ⟨s', hload, -⟩
    by_contra hw
    rw [if_neg hw] at haddr
    exact loadSwap_faults hl hslot hth haddr s' hload
  · intro hw
    rw [if_pos hw, hmod, Nat.add_zero] at haddr
    have hentry : entryOf s1.records (info.addr / pgSize * pgSize) = some spage := by
      rw [hrecords]
      exact h.entry
    obtain ⟨s', hload, hdir', hmem, hentry'⟩ := loadSwap_reads fuel hl hslot hth
      haddr hentry
    refine ⟨s', hload, ⟨kpage, ?_, fun j hj => ?_⟩, _, hentry', rfl⟩
    · rw [Kernel.mapping, hdir']
      exact hmap
    · rw [hmem j hj, pageContents, hswap]
      simp only []
      rw [hrole, hi]
      rfl

/-- **A page on disk** is not restored: its entry still says where it was. -/
theorem faultInDisk_not_restored (h : Faulting s info spage) (hdisk : spage.pageLocation = .inDisk)
    (hrun : faultInDisk fuel spage s = .ok () s') : ¬ Restored s s' info spage := by
  rintro ⟨-, e, hentry, hloc⟩
  obtain ⟨kpage, s1, hframe, -, hsame, -⟩ := h.frame_run fuel s h.locking rfl rfl h.memory
  rw [faultInDisk, bind_of_ok (lockAcquire_off .filesys h.locking),
    bind_of_ok (lockAcquire_off .frame h.locking), bind_of_ok hframe] at hrun
  obtain ⟨m, hm, hmrun⟩ : ∃ m : Code Unit, Moves SameSwap m ∧ m s1 = .ok () s' := by
    refine ⟨_, ?_, hrun⟩
    have haside : ∀ {α : Type} {m : Code α}, Moves Aside m → Moves SameSwap m := fun h =>
      h.mono fun _ _ hs => hs.toSameSwap
    have hfree : ∀ c, Moves SameSwap (freeUnless c kpage) := fun c =>
      Moves.ite (Moves.pure ()) (swap_freeFrame kpage)
    refine Moves.bind ?_ fun _ => Moves.bind ?_ fun n => Moves.bind (hfree _) fun _ => ?_
    · exact Moves.bind (haside (Aside.assert _)) fun _ => Moves.change fun _ => ⟨rfl, rfl, rfl, rfl⟩
    · refine Moves.bind (Moves.fetch _) fun _ => ?_
      exact Moves.bind (Moves.change fun _ => ⟨rfl, rfl, rfl, rfl⟩) fun _ => Moves.pure _
    · refine Moves.bind (haside (Aside.lockRelease _)) fun _ => ?_
      refine Moves.bind (haside (Aside.lockRelease _)) fun _ => ?_
      exact Moves.bind (haside (Aside.pagedirSetPage _ _ _)) fun mapped => hfree _
  have hmoves := hm s1
  rw [hmrun] at hmoves
  rw [show s'.records = s.records from hmoves.records.trans hsame.records, h.entry] at hentry
  cases hentry
  cases hdisk.symm.trans hloc

/-- The mappings do not depend on the records. -/
theorem mapping_updateCurrent {f : Thread → Thread} (hf : ∀ th, (f th).pagedir = th.pagedir) (a : ℕ) :
    (s.updateCurrent f).mapping a = s.mapping a := by
  have hself : (s.updateCurrent f).threads (s.updateCurrent f).current = (s.threads s.current).map f :=
    threads_updateCurrent_self f
  rw [Kernel.mapping, Kernel.dirAt, hself, Kernel.mapping, Kernel.dirAt]
  cases s.threads s.current with
  | none => rfl
  | some th => simp only [Option.map_some, Option.bind_some, hf]

/-- **A page of zeros** is not restored: nothing is mapped. -/
theorem faultAllZero_not_restored (h : Faulting s info spage)
    (hrun : faultAllZero fuel (info.addr / pgSize * pgSize) spage s = .ok () s') : ¬ Restored s s' info spage := by
  rintro ⟨⟨kpage, hmap, -⟩, -⟩
  obtain ⟨kpage, s1, hframe, hthreads, hsame, -⟩ := h.frame_run fuel s h.locking rfl rfl h.memory
  have hsame1 : s1.dirAt s1.current = s.dirAt s.current := by
    rw [Kernel.dirAt, hthreads, hsame.current, Kernel.dirAt]
  obtain ⟨pd, hdir⟩ := Option.ne_none_iff_exists'.mp h.dir
  obtain ⟨th, hth, -⟩ := thread_of_dirAt (hsame1.trans hdir)
  rw [faultAllZero, bind_of_ok hframe, bind_of_ok (threadCurrent_run hth)] at hrun
  cases htable : changePageLocation (info.addr / pgSize * pgSize) .inMemory spage.swapIndex th.supPageTable with
  | error e =>
      rw [htable] at hrun
      cases hrun
  | ok table =>
      rw [htable, bind_of_ok (orStop_run table)] at hrun
      cases hrun
      have hkeep := mapping_updateCurrent (s := s1) (f := fun th => { th with supPageTable := table })
        (fun _ => rfl) info.addr
      have hnone : s1.mapping info.addr = none := by
        rw [Kernel.mapping, hsame1]
        exact h.unmapped
      cases (hkeep.trans hnone).symm.trans hmap

/-- **The page is restored** if and only if kernel code reads a page that is in swap and may be
written. -/
theorem pageFault_restores_iff (h : Faulting s info spage) :
    (∃ s', pageFault fuel info s = .ok () s' ∧ Restored s s' info spage) ↔
      info.user = false ∧ info.write = false ∧ spage.pageLocation = .inSwap ∧ spage.writable = true := by
  by_cases hkill : info.user = true ∨ info.write = true
  · refine iff_of_false ?_ ?_
    · rintro ⟨s', hrun, -⟩
      exact pageFault_kills hkill s' hrun
    · rintro ⟨huser, hwrite, -⟩
      rcases hkill with h | h
      · cases huser.symm.trans h
      · cases hwrite.symm.trans h
  · rw [not_or, Bool.not_eq_true, Bool.not_eq_true] at hkill
    obtain ⟨huser, hwrite⟩ := hkill
    obtain ⟨hswap, hdisk, hzero⟩ := pageFault_reads fuel h huser hwrite
    rw [and_iff_right huser, and_iff_right hwrite]
    cases hloc : spage.pageLocation with
    | inSwap =>
        rw [hswap hloc, and_iff_right rfl]
        exact faultInSwap_restores_iff h hloc
    | inDisk =>
        refine iff_of_false ?_ fun hc => by cases hc.1
        rintro ⟨s', hrun, hrestored⟩
        exact faultInDisk_not_restored h hloc (hdisk hloc ▸ hrun) hrestored
    | allZero =>
        refine iff_of_false ?_ fun hc => by cases hc.1
        rintro ⟨s', hrun, hrestored⟩
        exact faultAllZero_not_restored h (hzero hloc ▸ hrun) hrestored
    | inMemory => exact absurd hloc h.away

end Faults

/-! ## A page in the first slot -/

/-- The entry of a page of data that was swapped out. -/
def swappedPage : SupPage := ⟨0, 0x08048000, 0, 0, 4096, 0, true, .inSwap⟩

/-- A kernel with locks that do nothing, and one page in swap. -/
def swappedKernel : Kernel :=
  { smallKernel with
    swap := ⟨some swapDevice, true, ⟨1, fun _ => true⟩⟩
    threads := fun t => if t = 1 then some ⟨none, some ⟨physBase + 0x110000, fun _ => none⟩, [swappedPage],
      fun _ => none, none, none, .running⟩ else none
    locking := false }

/-- The page is read. -/
def readFault (user : Bool) : FaultInfo := ⟨0x08048010, true, false, user⟩

theorem swappedKernel_faulting (user : Bool) : Faulting swappedKernel (readFault user) swappedPage where
  locking := rfl
  dir := by decide
  addr := show 0x08048010 < physBase by decide
  absent := rfl
  unmapped := rfl
  entry := by
    have hpage : 0x08048010 / pgSize * pgSize = swappedPage.vAddr := by decide
    rw [show (readFault user).addr = 0x08048010 from rfl, hpage]
    exact List.find?_cons_of_pos (by simp)
  away := by decide
  permitted h := by cases h
  pools := by
    have hkernel : initPoolFits (288 - 256 - min ((288 - 256) / 2) 1000) := by
      unfold initPoolFits
      decide
    have huser : initPoolFits (min ((288 - 256) / 2) 1000) := by
      unfold initPoolFits
      decide
    exact laid_pallocInit (fun _ _ => false) (by decide) hkernel huser
  frame := by
    rw [Kernel.Full]
    decide +kernel
  table := by
    rw [Kernel.Full]
    decide +kernel
  memory := rfl
  slot _ := ⟨0, swapDevice, rfl, rfl, rfl, by decide, rfl, by decide⟩

theorem swappedKernel_restored :
    (∃ s', pageFault 1 (readFault false) swappedKernel = .ok () s' ∧
      Restored swappedKernel s' (readFault false) swappedPage) ↔
      (readFault false).user = false ∧ (readFault false).write = false ∧ swappedPage.pageLocation = .inSwap ∧
        swappedPage.writable = true :=
  pageFault_restores_iff (swappedKernel_faulting false)

/-- **User code that reads its page** is killed. -/
theorem swappedKernel_killed : ¬ ∀ (s : Kernel) (info : FaultInfo) (spage : SupPage), Faulting s info spage →
    ∃ s', pageFault 1 info s = .ok () s' ∧ Restored s s' info spage := by
  intro h
  obtain ⟨s', hrun, -⟩ := h _ _ _ (swappedKernel_faulting true)
  exact pageFault_kills (.inl rfl) s' hrun

end Pintos.Vm
