import Pintos.Strings.Strtok
import Pintos.Vm.Kernel

/-!
# Memory, pages and files of a process

What `userprog/process.c` of `fs_PintOS` works on: kernel memory, the page allocator, the page
directory of the process that is being made, and the file of its program.

The page directory is kept by value, as in `Pintos.Vm.Kernel`, and so are the types of page tables
and of the bytes of a file.

* `palloc_get_page` finds any page of memory that nobody has, or none: `answers n` is the `n`-th
  find, and it counts if the page is there and free.  Other threads may take and return pages at any
  time, so nothing more is known about it.  In the same way `heap n` says whether `malloc` finds
  memory.
* The kernel reaches a user page through the page directory of the running process.  An access that
  faults there is a kernel bug to `page_fault`, which panics.
* `userStores` is not in the source: the addresses stored to through the user stack pointer.
-/

namespace Pintos.Userprog

open Lib Strings
open Vm (Memory PageDir PageTable Pte Image PallocFlags pgSize physBase isUserVaddr pdNo ptNo fillPage
  copyBytes)

/-! ## The state -/

/-- `struct file`. -/
structure OpenFile where
  inode : ℕ
  pos : ℕ
  denyWrite : Bool

/-- The state. -/
structure Kernel where
  mem : Memory
  initRamPages : ℕ
  answers : ℕ → Option ℕ
  asked : ℕ
  used : List ℕ
  heap : ℕ → Bool
  mallocs : ℕ
  rootDir : List UInt8 → Option ℕ
  image : ℕ → Image
  openCnt : ℕ → ℤ
  denyWriteCnt : ℕ → ℤ
  files : ℕ → Option OpenFile
  nextFile : ℕ
  pagedir : Option PageDir
  execFile : Option ℕ
  esp : ℕ
  userStores : List ℕ

/-- How a call may end without returning. -/
inductive Stop where
  /-- A failed `ASSERT`. -/
  | assertFailed
  /-- `kill`, called for an access of the kernel that faulted. -/
  | kernelBug
  /-- A loop that does not come to its end. -/
  | unending
deriving DecidableEq, Repr

/-- Code of the kernel. -/
abbrev Code (α : Type) : Type := EStateM Stop Kernel α

/-- `ASSERT`. -/
def assert (c : Bool) : Code Unit := if c then pure () else stop .assertFailed

/-- Code on strings, run on kernel memory. -/
def onMemory {α : Type} (m : StringCode α) : Code α := fun k =>
  match m k.mem with
  | .ok a mem => .ok a { k with mem }
  | .error .assertFailed mem => .error .assertFailed { k with mem }
  | .error .unending mem => .error .unending { k with mem }

/-- `malloc` or `calloc` of a small block: whether there was memory. -/
def malloc : Code Bool := do
  let found ← fetch fun k => k.heap k.mallocs
  change fun k => { k with mallocs := k.mallocs + 1 }
  return found

/-! ## Pages -/

/-- A page of RAM above the first megabyte. -/
def isRamPage (initRamPages page : ℕ) : Bool :=
  page % pgSize = 0 && physBase + 0x100000 ≤ page && page < physBase + pgSize * initRamPages

/-- The page the allocator finds next. -/
def Kernel.found (k : Kernel) : Option ℕ :=
  (k.answers k.asked).filter fun page => isRamPage k.initRamPages page && !k.used.contains page

/-- `palloc_get_page`. -/
def pallocGetPage (flags : PallocFlags) : Code (Option ℕ) := do
  let found ← fetch Kernel.found
  change fun k => { k with asked := k.asked + 1 }
  match found with
  | none => pure none
  | some page => do
      change fun k => { k with
        used := page :: k.used
        mem := if flags.zero then fillPage k.mem page 0 else k.mem }
      return some page

/-- `palloc_free_page`. -/
def pallocFreePage (page : ℕ) : Code Unit := do
  assert (page % pgSize = 0)
  if page = 0 then pure ()
  else do
    let taken ← fetch fun k => k.used.contains page
    assert taken
    change fun k => { k with used := k.used.erase page, mem := fillPage k.mem page 0xcc }

/-! ## Page directories -/

/-- The state with a page table of the process replaced. -/
def Kernel.setTable (k : Kernel) (i : ℕ) (pt : PageTable) : Kernel :=
  { k with pagedir := k.pagedir.map fun pd => pd.setTable i pt }

/-- `pagedir_create`, and the assignment to the running thread. -/
def pagedirCreate : Code Bool := do
  match ← pallocGetPage {} with
  | none => pure false
  | some page => do
      change fun k => { k with pagedir := some ⟨page, fun _ => none⟩ }
      return true

/-- `lookup_page`: the page table the entry of `vaddr` is in. -/
def lookupPage (vaddr : ℕ) (create : Bool) : Code (Option PageTable) := do
  match ← fetch Kernel.pagedir with
  | none => stop .assertFailed
  | some pd => do
      assert (!create || isUserVaddr vaddr)
      match pd.tables (pdNo vaddr) with
      | some pt => pure (some pt)
      | none =>
          if create then do
            match ← pallocGetPage { zero := true } with
            | none => pure none
            | some page => do
                change fun k => k.setTable (pdNo vaddr) ⟨page, fun _ => none⟩
                return some ⟨page, fun _ => none⟩
          else pure none

/-- `pagedir_set_page`. -/
def pagedirSetPage (upage kpage : ℕ) (writable : Bool) : Code Bool := do
  assert (upage % pgSize = 0)
  assert (kpage % pgSize = 0)
  assert (isUserVaddr upage)
  assert (physBase ≤ kpage)
  let ram ← fetch Kernel.initRamPages
  assert ((kpage - physBase) / pgSize < ram)
  match ← lookupPage upage true with
  | none => pure false
  | some pt => do
      assert (pt.entries (ptNo upage)).isNone
      change fun k => k.setTable (pdNo upage) (pt.setEntry (ptNo upage) ⟨kpage, writable⟩)
      return true

/-- `pagedir_get_page`. -/
def pagedirGetPage (uaddr : ℕ) : Code (Option ℕ) := do
  assert (isUserVaddr uaddr)
  match ← lookupPage uaddr false with
  | none => pure none
  | some pt => pure ((pt.entries (ptNo uaddr)).map fun pte => pte.kpage + uaddr % pgSize)

/-- `install_page`. -/
def installPage (upage kpage : ℕ) (writable : Bool) : Code Bool := do
  match ← pagedirGetPage upage with
  | some _ => pure false
  | none => pagedirSetPage upage kpage writable

/-- `pagedir_destroy`. -/
def pagedirDestroy : Option PageDir → Code Unit
  | none => pure ()
  | some pd => forEach pallocFreePage pd.pages

/-! ## Access to memory -/

/-- Where in kernel memory an address lies for the kernel.  `CR0_WP` is set, so that a read-only
page stops a store of the kernel too. -/
def Kernel.locate (k : Kernel) (addr : ℕ) (write : Bool) : Option ℕ :=
  if isUserVaddr addr then
    match k.pagedir.bind fun pd => pd.entry addr with
    | some pte => if write && !pte.writable then none else some (pte.kpage + addr % pgSize)
    | none => none
  else some addr

/-- A byte is read. -/
def loadByte (addr : ℕ) : Code UInt8 := do
  match ← fetch fun k => k.locate addr false with
  | none => stop .kernelBug
  | some a => fetch fun k => k.mem a

/-- A byte is stored. -/
def storeByte (addr : ℕ) (c : UInt8) : Code Unit := do
  match ← fetch fun k => k.locate addr true with
  | none => stop .kernelBug
  | some a => change fun k => { k with mem := Function.update k.mem a c }

/-- A word is read. -/
def loadWord (addr : ℕ) : Code ℕ := do
  let b0 ← loadByte addr
  let b1 ← loadByte (addr + 1)
  let b2 ← loadByte (addr + 2)
  let b3 ← loadByte (addr + 3)
  return b0.toNat + 256 * b1.toNat + 65536 * b2.toNat + 16777216 * b3.toNat

/-- A word is stored. -/
def storeWord (addr v : ℕ) : Code Unit := do
  storeByte addr (Block.wordByte v 0)
  storeByte (addr + 1) (Block.wordByte v 1)
  storeByte (addr + 2) (Block.wordByte v 2)
  storeByte (addr + 3) (Block.wordByte v 3)

/-! ## Files -/

/-- `inode_close`, for an inode that is not removed. -/
def inodeClose (inode : ℕ) : Code Unit :=
  change fun k => { k with openCnt := Function.update k.openCnt inode (k.openCnt inode - 1) }

/-- `dir_open_root`: whether there was memory for the inode and for the directory. -/
def dirOpenRoot : Code Bool := do
  let inode ← malloc
  let dir ← malloc
  return inode && dir

/-- `dir_lookup` in the root directory: the inode, opened. -/
def dirLookup : Option (List UInt8) → Code (Option ℕ)
  | none => stop .assertFailed
  | some name => do
      match ← fetch fun k => k.rootDir name with
      | none => pure none
      | some inode => do
          if ← malloc then do
            change fun k => { k with openCnt := Function.update k.openCnt inode (k.openCnt inode + 1) }
            return some inode
          else return none

/-- `file_open`. -/
def fileOpen (inode : Option ℕ) : Code (Option ℕ) := do
  let block ← malloc
  match inode with
  | none => pure none
  | some inode =>
      if block then do
        let file ← fetch Kernel.nextFile
        change fun k => { k with
          files := Function.update k.files file (some ⟨inode, 0, false⟩)
          nextFile := file + 1 }
        return some file
      else do
        inodeClose inode
        return none

/-- `filesys_open`; `none` is a null pointer. -/
def filesysOpen (name : Option (List UInt8)) : Code (Option ℕ) := do
  if ← dirOpenRoot then do
    let inode ← dirLookup name
    fileOpen inode
  else fileOpen none

/-- Follow a file pointer. -/
def getFile (file : ℕ) : Code OpenFile := do
  match ← fetch fun k => k.files file with
  | some f => pure f
  | none => stop .kernelBug

/-- The state with a file changed. -/
def Kernel.setFile (k : Kernel) (file : ℕ) (f : OpenFile) : Kernel :=
  { k with files := Function.update k.files file (some f) }

/-- `file_length`. -/
def fileLength (file : ℕ) : Code ℕ := do
  let f ← getFile file
  fetch fun k => (k.image f.inode).length

/-- `file_seek`. -/
def fileSeek (file : ℕ) (newPos : ℤ) : Code Unit := do
  let f ← getFile file
  assert (0 ≤ newPos)
  change fun k => k.setFile file { f with pos := newPos.toNat }

/-- `file_read` into kernel memory. -/
def fileRead (file addr size : ℕ) : Code ℕ := do
  let f ← getFile file
  let image ← fetch fun k => k.image f.inode
  let n := min size (image.length - f.pos)
  change fun k => { k with mem := copyBytes k.mem addr n fun i => image.byte (f.pos + i) }.setFile file
    { f with pos := f.pos + n }
  return n

/-- `file_deny_write`. -/
def fileDenyWrite (file : ℕ) : Code Unit := do
  let f ← getFile file
  if f.denyWrite then pure ()
  else do
    change fun k => { k with
      denyWriteCnt := Function.update k.denyWriteCnt f.inode (k.denyWriteCnt f.inode + 1) }.setFile file
        { f with denyWrite := true }
    assert (← fetch fun k => decide (k.denyWriteCnt f.inode ≤ k.openCnt f.inode))

/-- `file_allow_write`. -/
def fileAllowWrite (file : ℕ) : Code Unit := do
  let f ← getFile file
  if f.denyWrite then do
    assert (← fetch fun k => decide (0 < k.denyWriteCnt f.inode))
    assert (← fetch fun k => decide (k.denyWriteCnt f.inode ≤ k.openCnt f.inode))
    change fun k => { k with
      denyWriteCnt := Function.update k.denyWriteCnt f.inode (k.denyWriteCnt f.inode - 1) }.setFile file
        { f with denyWrite := false }
  else pure ()

/-- `file_close`. -/
def fileClose : Option ℕ → Code Unit
  | none => pure ()
  | some file => do
      fileAllowWrite file
      let f ← getFile file
      inodeClose f.inode
      change fun k => { k with files := Function.update k.files file none }

end Pintos.Userprog
