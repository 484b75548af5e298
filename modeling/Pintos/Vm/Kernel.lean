import Pintos.Lib.Command
import Pintos.Vm.Pools
import Pintos.Vm.Swap

/-!
# Physical memory of the `vm_PintOS` kernel

The page allocator (`threads/palloc.c`), the frame table (`vm/frame.c`), page
directories (`userprog/pagedir.c`), the locked functions of `vm/swap.c`, the exit
path of `userprog/syscall.c` and the page fault handler of `userprog/exception.c`,
over one kernel state.

A page is named by its kernel virtual address.  A page directory and its page tables
are kept by value in the thread they belong to, together with the addresses of the
pages they lie in; an entry is `none` when its present bit is clear.

A call runs in the thread `current`.  It may end without returning: in a panic, with
the death of its thread, in a value that C does not define, or in the recursion of
`exit_status` that has no end.  `Stop` tells these apart, and the state at the end is
kept in every case.

* `malloc` is a parameter: `heap n` says whether the `n`-th request gets a block.  The
  pages the heap itself takes are a step of their own (`Pintos.Vm.Load`).
* A lock that another thread holds is waited for; what the call does afterwards it
  does in the state it then finds.  `lockAcquire` therefore only asks whether the
  caller holds the lock already, which is what the assertion of `lock_acquire` asks.
* The locks of the two pools are held inside `palloc_get_multiple` only and are left
  out, and so are console output and the semaphores of the parent.
-/

namespace Pintos.Vm

open Lib

/-! ## The state -/

/-- The locks the virtual memory code takes. -/
inductive Lock where
  | frame
  | swap
  | filesys
deriving DecidableEq, Repr

/-- What a thread did to a lock.  `reacquired` is the failed assertion of `lock_acquire`. -/
inductive LockEvent where
  | acquired (l : Lock)
  | reacquired (l : Lock)
  | released (l : Lock)
deriving DecidableEq, Repr

/-- A present page table entry. -/
structure Pte where
  kpage : ℕ
  writable : Bool
deriving DecidableEq, Repr

/-- A page table and the page it lies in. -/
structure PageTable where
  page : ℕ
  entries : ℕ → Option Pte

/-- The user half of a page directory and the page it lies in. -/
structure PageDir where
  page : ℕ
  tables : ℕ → Option PageTable

/-- `struct frame`. -/
structure Frame where
  page : ℕ
  thread : ℕ
deriving DecidableEq, Repr

/-- The contents of a file. -/
structure Image where
  length : ℕ
  byte : ℕ → UInt8

/-- `struct file`. -/
structure OpenFile where
  image : Image
  pos : ℕ

/-- Where a thread is: before or in `start_process`, past it, in `thread_exit`, or in a
recursion without end. -/
inductive Life where
  | starting
  | running
  | dying
  | stuck
deriving DecidableEq, Repr

/-- `struct thread`, as far as memory is concerned.  `page` is the page it lies in (the
first thread has none of its own), `fileName` the argument of `start_process`: the page
with the copy of the command line, and the text in it. -/
structure Thread where
  page : Option ℕ
  pagedir : Option PageDir
  supPageTable : List SupPage
  openFiles : ℕ → Option ℕ
  execFile : Option ℕ
  fileName : Option (ℕ × List UInt8)
  life : Life

/-- A page returned by `palloc_get_page` and the threads that mapped it at that moment. -/
structure Grant where
  page : ℕ
  mappers : List ℕ

/-- The kernel.  The last five fields are not in the source: `locking` is false if the three
locks are taken out of the kernel, to see what the code does apart from them, `lockLog` is
what happened to the locks, `handed` are the pages `get_frame` has returned and nobody has
freed since, in order, `grants` are all answers of `palloc_get_page`, and `up` is cleared by
a panic. -/
structure Kernel where
  pools : PoolName → Pool
  initRamPages : ℕ
  mem : Memory
  swap : Swap
  fifoList : List Frame
  threads : ℕ → Option Thread
  nextTid : ℕ
  current : ℕ
  files : ℕ → OpenFile
  nextFile : ℕ
  disk : List UInt8 → Option Image
  heap : ℕ → Bool
  mallocs : ℕ
  junk : ℕ → Bool
  holder : Lock → Option ℕ
  locking : Bool
  lockLog : List LockEvent
  handed : List ℕ
  grants : List Grant
  up : Bool

/-- How a call may end without returning. -/
inductive Stop where
  /-- `PANIC`, or a failed `ASSERT`. -/
  | panicked
  /-- A pointer or an index that C does not define. -/
  | undefined
  /-- `thread_exit`. -/
  | exiting
  /-- `exit_status` calls itself without end. -/
  | unending
deriving DecidableEq, Repr

/-- The other threads go on. -/
def Stop.GoesOn : Stop → Prop
  | .panicked => False
  | .undefined => False
  | .exiting => True
  | .unending => True

/-- Kernel code. -/
abbrev Code (α : Type) : Type := EStateM Stop Kernel α

/-- A fault of the file system model, as an end of a call. -/
def Stop.ofFault : Fault → Stop
  | .danglingPointer => .undefined
  | .arrayIndex _ => .undefined
  | .accessPastEnd _ => .panicked
  | .assertFailed _ => .panicked

/-- Runs code of the file system model. -/
def orStop {α : Type} : Except Fault α → Code α
  | .ok a => pure a
  | .error e => stop (Stop.ofFault e)

/-- `ASSERT`. -/
def assert (c : Bool) : Code Unit := if c then pure () else stop .panicked

/-- `thread_current`. -/
def threadCurrent : Code Thread := do
  match ← fetch fun s => s.threads s.current with
  | some th => pure th
  | none => stop .undefined

/-- The kernel with the running thread changed. -/
def Kernel.updateCurrent (s : Kernel) (f : Thread → Thread) : Kernel :=
  { s with threads := Function.update s.threads s.current ((s.threads s.current).map f) }

/-- `malloc`; `false` is a null pointer. -/
def malloc : Code Bool := do
  let ok ← fetch fun s => s.heap s.mallocs
  change fun s => { s with mallocs := s.mallocs + 1 }
  return ok

/-- `memset` of one page. -/
def fillPage (mem : Memory) (page : ℕ) (value : UInt8) : Memory :=
  fun a => if page ≤ a ∧ a < page + pgSize then value else mem a

/-- `memcpy` of `n` bytes to address `addr`. -/
def copyBytes (mem : Memory) (addr n : ℕ) (src : ℕ → UInt8) : Memory :=
  fun a => if addr ≤ a ∧ a < addr + n then src (a - addr) else mem a

/-! ## Locks -/

/-- `lock_acquire`. -/
def lockAcquire (l : Lock) : Code Unit := do
  let locking ← fetch fun s => s.locking
  let held ← fetch fun s => decide (s.holder l = some s.current)
  if !locking then pure ()
  else if held then do
    change fun s => { s with lockLog := s.lockLog ++ [.reacquired l] }
    stop .panicked
  else
    change fun s => { s with
      holder := Function.update s.holder l (some s.current)
      lockLog := s.lockLog ++ [.acquired l] }

/-- `lock_release`. -/
def lockRelease (l : Lock) : Code Unit := do
  let locking ← fetch fun s => s.locking
  let held ← fetch fun s => decide (s.holder l = some s.current)
  if !locking then pure ()
  else do
    assert held
    change fun s => { s with
      holder := Function.update s.holder l none
      lockLog := s.lockLog ++ [.released l] }

/-! ## Addresses -/

/-- `is_user_vaddr`. -/
def isUserVaddr (vaddr : ℕ) : Bool := vaddr < physBase

/-- `vtop`, without its assertion. -/
def vtop (vaddr : ℕ) : ℕ := vaddr - physBase

/-- `pd_no`. -/
def pdNo (vaddr : ℕ) : ℕ := vaddr / 2 ^ 22

/-- `pt_no`. -/
def ptNo (vaddr : ℕ) : ℕ := vaddr / pgSize % 1024

/-- The entry of a user virtual address. -/
def PageDir.entry (pd : PageDir) (vaddr : ℕ) : Option Pte :=
  (pd.tables (pdNo vaddr)).bind fun pt => pt.entries (ptNo vaddr)

/-- The address in kernel memory that a write of the kernel to `addr` goes to, if the page
is there and may be written: `CR0_WP` is set, so a read-only page stops the kernel too. -/
def Thread.writeAddr (th : Thread) (addr : ℕ) : Option ℕ :=
  if isUserVaddr addr then
    match th.pagedir.bind fun pd => pd.entry addr with
    | some pte => if pte.writable then some (pte.kpage + addr % pgSize) else none
    | none => none
  else some addr

/-! ## The page allocator -/

/-- The page directory has a present entry for the page. -/
def PageDir.maps (pd : PageDir) (page : ℕ) : Bool :=
  (List.range 768).any fun i => (pd.tables i).any fun pt =>
    (List.range 1024).any fun j => (pt.entries j).any fun pte => pte.kpage = page

/-- The threads that map the page. -/
def Kernel.mappers (s : Kernel) (page : ℕ) : List ℕ :=
  (List.range s.nextTid).filter fun t =>
    (s.threads t).any fun th => th.pagedir.any fun pd => pd.maps page

/-- The kernel with the bitmap of a pool replaced. -/
def Kernel.setUsed (s : Kernel) (n : PoolName) (usedMap : Bitmap) : Kernel :=
  { s with pools := Function.update s.pools n { s.pools n with usedMap } }

/-- `palloc_get_page`, which is `palloc_get_multiple` for one page. -/
def pallocGetPage (flags : PallocFlags) : Code (Option ℕ) := do
  let pool ← fetch fun s => s.pools flags.pool
  match bitmapScanAndFlip pool.usedMap 0 1 false with
  | (some idx, usedMap) => do
      let page := pool.base + pgSize * idx
      change fun s => { s.setUsed flags.pool usedMap with
        grants := ⟨page, s.mappers page⟩ :: s.grants
        mem := if flags.zero then fillPage s.mem page 0 else s.mem }
      return some page
  | (none, _) => do
      assert (!flags.assert)
      return none

/-- The end of `palloc_free_page`, once the pool is known. -/
def freeInPool (n : PoolName) (page : ℕ) : Code Unit := do
  let pool ← fetch fun s => s.pools n
  let idx := page / pgSize - pool.base / pgSize
  change fun s => { s with mem := fillPage s.mem page 0xcc }
  let all ← orStop (bitmapAll pool.usedMap idx 1)
  assert all
  let usedMap ← orStop (bitmapSetMultiple pool.usedMap idx 1 false)
  change fun s => { s.setUsed n usedMap with handed := s.handed.erase page }

/-- `palloc_free_page`. -/
def pallocFreePage (page : ℕ) : Code Unit := do
  assert (page % pgSize = 0)
  if page = 0 then pure ()
  else do
    let kernel ← fetch fun s => pageFromPool (s.pools .kernel) page
    let user ← fetch fun s => pageFromPool (s.pools .user) page
    if kernel then freeInPool .kernel page
    else if user then freeInPool .user page
    else stop .panicked

/-! ## Leaving -/

/-- `thread_exit`: the thread runs no more, `process_exit` does the rest. -/
def threadExit : Code Empty := do
  change fun s => s.updateCurrent fun th => { th with life := .dying }
  stop .exiting

/-- `open_files[n]`.  The word after the array is the `prev` pointer of a list head, which
is null. -/
def Thread.openFile (th : Thread) (n : ℕ) : Option ℕ := if n < 128 then th.openFiles n else none

/-- `get_file`; `bad` is its call of `exit_status`. -/
def getFile (bad : Code Empty) (fd : ℕ) : Code ℕ := do
  let th ← threadCurrent
  if fd < 2 ∨ 129 < fd then nomatch ← bad
  else match th.openFile (fd - 2) with
    | none => nomatch ← bad
    | some file => pure file

/-- `my_close`. -/
def myClose (bad : Code Empty) (fd : ℕ) : Code Unit := do
  let _ ← getFile bad fd
  change fun s => s.updateCurrent fun th =>
    { th with openFiles := Function.update th.openFiles (fd - 2) none }
  lockAcquire .filesys
  lockRelease .filesys

/-- One round of the loop of `exit_status`. -/
def closeNext (bad : Code Empty) (n : ℕ) : Code Unit := do
  let th ← threadCurrent
  if (th.openFile n).isSome then myClose bad n else pure ()

/-- `exit_status`.  Its loop calls `my_close`, and `get_file` calls `exit_status` again;
`fuel` bounds the depth. -/
def exitStatus : ℕ → Code Empty
  | 0 => stop .unending
  | fuel + 1 => do
      forEach (closeNext (exitStatus fuel)) (List.range' 2 127)
      threadExit

/-- A write through a null pointer: `page_fault` sends every write of the kernel that
faults to `exit_status`. -/
def nullWrite (fuel : ℕ) : Code Empty := exitStatus fuel

/-! ## Swap -/

/-- The first lines of `store_swap`, with `swap_init`. -/
def ensureSwap : Code Unit := do
  let initialized ← fetch fun s => s.swap.isInitialized
  if initialized then pure ()
  else do
    let present ← fetch fun s => s.swap.role.isSome
    assert present
    let block ← malloc
    assert block
    let s ← fetch id
    let swap ← orStop (ensureInit s.junk s.swap)
    change fun s => { s with swap, holder := Function.update s.holder .swap none }

/-- The state the work of `store_swap` and `load_swap` sees. -/
def Kernel.swapState (s : Kernel) (th : Thread) : SwapState := ⟨s.swap, s.mem, th.supPageTable⟩

/-- The kernel after that work. -/
def Kernel.setSwapState (s : Kernel) (w : SwapState) : Kernel :=
  { s with swap := w.swap, mem := w.mem }.updateCurrent fun th =>
    { th with supPageTable := w.table }

/-- `store_swap`.  The last line takes the lock once more. -/
def storeSwap (uaddr : ℕ) : Code ℤ := do
  ensureSwap
  lockAcquire .swap
  let th ← threadCurrent
  let s ← fetch id
  let (swapIndex, w) ← orStop (storeSlot (s.swapState th) uaddr)
  change fun s => s.setSwapState w
  lockAcquire .swap
  return swapIndex

/-- The work of `load_swap`, with the sectors copied to address `dest`. -/
def loadSlotAt (s : SwapState) (uaddr dest : ℕ) (swapIndex : ℤ) : Except Fault SwapState := do
  let dev ← s.swap.device
  let mem ← readSlot dev dest (ofInt32 (swapIndex * numSectorsPerPage)) numSectorsPerPage 0 s.mem
  let bitmap ← bitmapSetMultiple s.swap.swapBitmap (ofInt32 swapIndex) 1 false
  let table ← changePageLocation uaddr .inMemory (-1) s.table
  return ⟨{ s.swap with swapBitmap := bitmap }, mem, table⟩

/-- `load_swap`.  Before `swap_init` there is no lock to take.  The sectors are stored
through `uaddr`; if the page is not there or is read-only, the first store faults. -/
def loadSwap (fuel uaddr : ℕ) (swapIndex : ℤ) : Code Unit := do
  let initialized ← fetch fun s => s.swap.isInitialized
  -- before `swap_init` there is no bitmap to test
  if !initialized then stop .undefined
  else do
    lockAcquire .swap
    let th ← threadCurrent
    let s ← fetch id
    let valid ← orStop (bitmapTest s.swap.swapBitmap (ofInt32 swapIndex))
    assert valid
    match th.writeAddr uaddr with
    | none => nomatch ← exitStatus fuel
    | some dest => do
        let w ← orStop (loadSlotAt (s.swapState th) uaddr dest swapIndex)
        change fun s => s.setSwapState w
        lockRelease .swap

/-! ## The frame table -/

/-- `evict_frame`. -/
def evictFrame : Code Unit := do
  match ← fetch fun s => s.fifoList with
  | [] => stop .panicked
  | f :: rest => do
      change fun s => { s with fifoList := rest }
      let _ ← storeSwap f.page
      pallocFreePage f.page

/-- The part of `get_frame` that finds a page. -/
def findPage (flags : PallocFlags) : Code (Option ℕ) := do
  match ← pallocGetPage flags with
  | some page => pure (some page)
  | none => do
      evictFrame
      pallocGetPage flags

/-- The part of `get_frame` that records the page. -/
def recordFrame (fuel : ℕ) : Option ℕ → Code Unit
  | none => pure ()
  | some page => do
      let myframe ← malloc
      if myframe then
        change fun s => { s with
          fifoList := s.fifoList ++ [⟨page, s.current⟩]
          handed := s.handed ++ [page] }
      else nomatch ← nullWrite fuel

/-- `get_frame`. -/
def getFrame (fuel : ℕ) (flags : PallocFlags) : Code (Option ℕ) := do
  lockAcquire .frame
  let addr ← findPage flags
  recordFrame fuel addr
  lockRelease .frame
  return addr

/-- `free_frame`. -/
def freeFrame (page : ℕ) : Code Unit := do
  change fun s => { s with fifoList := s.fifoList.eraseP fun f => f.page = page }
  pallocFreePage page

/-! ## Page directories -/

/-- The directory with one table replaced. -/
def PageDir.setTable (pd : PageDir) (i : ℕ) (pt : PageTable) : PageDir :=
  { pd with tables := Function.update pd.tables i (some pt) }

/-- The table with one entry set. -/
def PageTable.setEntry (pt : PageTable) (j : ℕ) (pte : Pte) : PageTable :=
  { pt with entries := Function.update pt.entries j (some pte) }

/-- The kernel with one page table of the running thread replaced. -/
def Kernel.setTable (s : Kernel) (i : ℕ) (pt : PageTable) : Kernel :=
  s.updateCurrent fun th => { th with pagedir := th.pagedir.map fun pd => pd.setTable i pt }

/-- `pagedir_create`, and the assignment of the new directory to the running thread. -/
def pagedirCreate : Code Bool := do
  match ← pallocGetPage {} with
  | none => pure false
  | some page => do
      change fun s => s.updateCurrent fun th => { th with pagedir := some ⟨page, fun _ => none⟩ }
      return true

/-- `lookup_page`, for the directory of the running thread: the page table the entry of
`vaddr` is in. -/
def lookupPage (vaddr : ℕ) (create : Bool) : Code (Option PageTable) := do
  let th ← threadCurrent
  match th.pagedir with
  | none => stop .panicked
  | some pd => do
      assert (!create || isUserVaddr vaddr)
      match pd.tables (pdNo vaddr) with
      | some pt => pure (some pt)
      | none =>
          if create then do
            match ← pallocGetPage { zero := true } with
            | none => pure none
            | some page => do
                change fun s => s.setTable (pdNo vaddr) ⟨page, fun _ => none⟩
                return some ⟨page, fun _ => none⟩
          else pure none

/-- `pagedir_set_page`. -/
def pagedirSetPage (upage kpage : ℕ) (writable : Bool) : Code Bool := do
  assert (upage % pgSize = 0)
  assert (kpage % pgSize = 0)
  assert (isUserVaddr upage)
  assert (physBase ≤ kpage)
  let ram ← fetch fun s => s.initRamPages
  assert (vtop kpage / pgSize < ram)
  match ← lookupPage upage true with
  | none => pure false
  | some pt => do
      assert (pt.entries (ptNo upage)).isNone
      change fun s => s.setTable (pdNo upage) (pt.setEntry (ptNo upage) ⟨kpage, writable⟩)
      return true

/-- `pagedir_get_page`. -/
def pagedirGetPage (uaddr : ℕ) : Code (Option ℕ) := do
  assert (isUserVaddr uaddr)
  match ← lookupPage uaddr false with
  | none => pure none
  | some pt => pure ((pt.entries (ptNo uaddr)).map fun pte => pte.kpage + uaddr % pgSize)

/-- `install_page`. -/
def installPage (upage kpage : ℕ) (writable : Bool) : Code Bool := do
  match ← pagedirGetPage upage with
  | some _ => pure false
  | none => pagedirSetPage upage kpage writable

/-- The pages a page table refers to, in the order `pagedir_destroy` frees them: the
mapped pages, then the page of the table itself. -/
def PageTable.pages (pt : PageTable) : List ℕ :=
  (List.range 1024).filterMap (fun j => (pt.entries j).map (·.kpage)) ++ [pt.page]

/-- The pages of a directory in the order `pagedir_destroy` frees them. -/
def PageDir.pages (pd : PageDir) : List ℕ :=
  (List.range 768).flatMap (fun i => ((pd.tables i).map PageTable.pages).getD []) ++ [pd.page]

/-- `pagedir_destroy`. -/
def pagedirDestroy : Option PageDir → Code Unit
  | none => pure ()
  | some pd => forEach pallocFreePage pd.pages

/-- The end of `thread_schedule_tail`: the dead thread's page is freed, unless it is the
first thread. -/
def freeThread : Option ℕ → Code Unit
  | none => pure ()
  | some page => pallocFreePage page

/-- `process_exit`, and what becomes of the dead thread. -/
def processExit : Code Unit := do
  let th ← threadCurrent
  change fun s => s.updateCurrent fun th => { th with pagedir := none }
  pagedirDestroy th.pagedir
  change fun s => { s with threads := Function.update s.threads s.current none }
  freeThread th.page

/-! ## Files -/

/-- `file_seek`. -/
def fileSeek (file : ℕ) (newPos : ℤ) : Code Unit := do
  assert (0 ≤ newPos)
  change fun s => { s with
    files := Function.update s.files file { s.files file with pos := newPos.toNat } }

/-- `file_read` into kernel memory. -/
def fileRead (file addr size : ℕ) : Code ℕ := do
  let f ← fetch fun s => s.files file
  let n := min size (f.image.length - f.pos)
  change fun s => { s with
    mem := copyBytes s.mem addr n fun k => f.image.byte (f.pos + k)
    files := Function.update s.files file { f with pos := f.pos + n } }
  return n

/-! ## The page fault handler -/

/-- `cr2` and the error code of a page fault. -/
structure FaultInfo where
  addr : ℕ
  notPresent : Bool
  write : Bool
  user : Bool

/-- `free_frame` for a frame that could not be used. -/
def freeUnless (used : Bool) (page : ℕ) : Code Unit := if used then pure () else freeFrame page

/-- The case `IN_SWAP` of `page_fault`. -/
def faultInSwap (fuel : ℕ) (spage : SupPage) : Code Unit := do
  -- a null pointer from `get_frame` fails the assertions of `pagedir_set_page`
  let frame ← getFrame fuel { user := true }
  lockAcquire .filesys
  lockAcquire .frame
  let mapped ← pagedirSetPage spage.vAddr (frame.getD 0) spage.writable
  freeUnless mapped (frame.getD 0)
  lockRelease .frame
  lockRelease .filesys
  loadSwap fuel spage.vAddr spage.swapIndex

/-- The case `IN_DISK` of `page_fault`. -/
def faultInDisk (fuel : ℕ) (spage : SupPage) : Code Unit := do
  lockAcquire .filesys
  lockAcquire .frame
  let frame ← getFrame fuel { user := true }
  fileSeek spage.file spage.offset
  let n ← fileRead spage.file (frame.getD 0) spage.readBytes
  freeUnless (n = spage.readBytes) (frame.getD 0)
  lockRelease .frame
  lockRelease .filesys
  let mapped ← pagedirSetPage spage.vAddr (frame.getD 0) spage.writable
  freeUnless mapped (frame.getD 0)

/-- The case `ALL_ZERO` of `page_fault`. -/
def faultAllZero (fuel : ℕ) (upage : ℕ) (spage : SupPage) : Code Unit := do
  let _ ← getFrame fuel { user := true }
  let th ← threadCurrent
  let table ← orStop (changePageLocation upage .inMemory spage.swapIndex th.supPageTable)
  change fun s => s.updateCurrent fun th => { th with supPageTable := table }

/-- `page_fault`.  A fault that gets past the first test came from the kernel, for which
`kill` panics. -/
def pageFault (fuel : ℕ) (info : FaultInfo) : Code Unit := do
  if info.user || !isUserVaddr info.addr || info.write then nomatch ← exitStatus fuel
  else do
    let upage := info.addr / pgSize * pgSize
    let th ← threadCurrent
    let spage ← orStop (getSupPage th.supPageTable upage)
    if info.notPresent then
      match spage.pageLocation with
      | .inSwap => faultInSwap fuel spage
      | .inDisk => faultInDisk fuel spage
      | .allZero => faultAllZero fuel upage spage
      | .inMemory => pure ()
    else stop .panicked

/-! ## Rules for the common steps -/

section Rules

variable {α β : Type} {Q : β → Kernel → Prop} {E : Stop → Kernel → Prop} {s : Kernel}

theorem ends_assert {c : Bool} {f : Unit → Code β} (h : c = true → Ends (f () s) Q E)
    (h' : E .panicked s) : Ends ((assert c >>= f) s) Q E := by
  cases c with
  | false => exact h'
  | true => exact h rfl

theorem ends_malloc {f : Bool → Code β}
    (h : Ends (f (s.heap s.mallocs) { s with mallocs := s.mallocs + 1 }) Q E) :
    Ends ((malloc >>= f) s) Q E := h

theorem ends_threadCurrent {f : Thread → Code β}
    (h : ∀ th, s.threads s.current = some th → Ends (f th s) Q E) (h' : E .undefined s) :
    Ends ((threadCurrent >>= f) s) Q E := by
  cases hth : s.threads s.current with
  | none =>
      have hstop : threadCurrent s = .error .undefined s := by
        simp [threadCurrent, hth]
      rw [bind_of_error hstop]
      exact h'
  | some th =>
      have hok : threadCurrent s = .ok th s := by
        simp [threadCurrent, hth]
      rw [bind_of_ok hok]
      exact h th hth

theorem ends_orStop {r : Except Fault α} {f : α → Code β}
    (h : ∀ a, r = .ok a → Ends (f a s) Q E) (h' : ∀ e, E (Stop.ofFault e) s) :
    Ends ((orStop r >>= f) s) Q E := by
  cases r with
  | ok a => exact h a rfl
  | error e => exact h' e

end Rules

end Pintos.Vm
