import Pintos.Vm.Kernel

/-!
# Loading programs, and runs of the kernel

`userprog/process.c` of `vm_PintOS`: `process_execute` copies the command line and
creates a thread, `start_process` loads the executable into it, `process_exit` takes
its memory away.  An executable is a file on `disk`; its ELF headers are read off the
bytes of the file.

A run is a sequence of calls, each made by some live thread and each running to its
end before the next begins.  What a call may be is `Op`; `Allowed` says which thread
may make it.  `free_frame` is called, here as in the source, with a page that
`get_frame` returned and that nothing refers to.

The zero bytes `strtok_r` leaves in the private copies of the command line are left
out, and so is the stack pointer handed to the program.
-/

namespace Pintos.Vm

open Lib

/-! ## Executables -/

/-- A 16-bit field of a file. -/
def Image.half (f : Image) (p : ℕ) : ℕ := (f.byte p).toNat + 256 * (f.byte (p + 1)).toNat

/-- A 32-bit field of a file. -/
def Image.word (f : Image) (p : ℕ) : ℕ := f.half p + 65536 * f.half (p + 2)

/-- `struct Elf32_Phdr`, the fields that are read. -/
structure Phdr where
  type : ℕ
  offset : ℕ
  vaddr : ℕ
  filesz : ℕ
  memsz : ℕ
  flags : ℕ

/-- The program header at position `p` of a file. -/
def phdrAt (f : Image) (p : ℕ) : Phdr :=
  ⟨f.word p, f.word (p + 4), f.word (p + 8), f.word (p + 16), f.word (p + 20), f.word (p + 24)⟩

/-- The test of the executable header, at the start of the file: `e_ident`, `e_type`,
`e_machine`, `e_version`, `e_phentsize` and `e_phnum`. -/
def headerOk (f : Image) : Bool :=
  (List.range 7).map f.byte = [0x7f, 0x45, 0x4c, 0x46, 1, 1, 1] && f.half 16 = 2 &&
    f.half 18 = 3 && f.word 20 = 1 && f.half 42 = 32 && f.half 44 ≤ 1024

/-- `validate_segment`. -/
def validateSegment (phdr : Phdr) (f : Image) : Bool :=
  let stop := (phdr.vaddr + phdr.memsz) % 2 ^ 32
  phdr.offset % pgSize = phdr.vaddr % pgSize && phdr.offset ≤ f.length &&
    phdr.filesz ≤ phdr.memsz && phdr.memsz ≠ 0 && isUserVaddr phdr.vaddr && isUserVaddr stop &&
    phdr.vaddr ≤ stop && pgSize ≤ phdr.vaddr

/-- `file_read` of a header into a local variable: the position it was read at, if the
file had all its bytes. -/
def readHeader (file size : ℕ) : Code (Option ℕ) := do
  let f ← fetch fun s => s.files file
  let n := min size (f.image.length - f.pos)
  change fun s => { s with files := Function.update s.files file { f with pos := f.pos + n } }
  return if n = size then some f.pos else none

/-- `filesys_open`. -/
def filesysOpen (name : List UInt8) : Code (Option ℕ) := do
  match ← fetch fun s => s.disk name with
  | none => pure none
  | some image => do
      let file ← fetch fun s => s.nextFile
      change fun s => { s with
        files := Function.update s.files file ⟨image, 0⟩
        nextFile := file + 1 }
      return some file

/-! ## Loading -/

/-- `create_sup_page`. -/
def createSupPage (file : ℕ) (ofs : ℤ) (addr readBytes zeroBytes : ℕ) (writable : Bool) :
    Code Unit := do
  let block ← malloc
  assert block
  change fun s => s.updateCurrent fun th => { th with
    supPageTable := addSupPage th.supPageTable
      (newSupPage file ofs addr readBytes zeroBytes writable) }

/-- The loop of `load_segment`, for at most `n` more pages. -/
def loadPages (fuel file : ℕ) (ofs : ℤ) (writable : Bool) : ℕ → ℕ → ℕ → ℕ → Code Bool
  | 0, _, _, _ => pure true
  | n + 1, upage, readBytes, zeroBytes =>
      if readBytes = 0 ∧ zeroBytes = 0 then pure true
      else do
        let pageReadBytes := min readBytes pgSize
        let pageZeroBytes := pgSize - pageReadBytes
        match ← getFrame fuel { user := true } with
        | none => pure false
        | some kpage => do
            -- under the kernel page, and with the offset of the segment for every page
            createSupPage file ofs kpage pageReadBytes pageZeroBytes writable
            let got ← fileRead file kpage pageReadBytes
            if got ≠ pageReadBytes then do
              freeFrame kpage
              return false
            else do
              change fun s => { s with
                mem := copyBytes s.mem (kpage + pageReadBytes) pageZeroBytes fun _ => 0 }
              let installed ← installPage upage kpage writable
              if installed then
                loadPages fuel file ofs writable n (upage + pgSize) (readBytes - pageReadBytes)
                  (zeroBytes - pageZeroBytes)
              else do
                freeFrame kpage
                return false

/-- `load_segment`. -/
def loadSegment (fuel file ofs upage readBytes zeroBytes : ℕ) (writable : Bool) : Code Bool := do
  assert ((readBytes + zeroBytes) % 2 ^ 32 % pgSize = 0)
  assert (upage % pgSize = 0)
  assert (ofs % pgSize = 0)
  fileSeek file ofs
  loadPages fuel file ofs writable ((readBytes + zeroBytes) / pgSize) upage readBytes zeroBytes

/-- The case `PT_LOAD` of `load`. -/
def loadPhdr (fuel file : ℕ) (phdr : Phdr) : Code Bool := do
  let f ← fetch fun s => s.files file
  if validateSegment phdr f.image then do
    let pageOffset := phdr.vaddr % pgSize
    let whole := (pageOffset + phdr.memsz + (pgSize - 1)) / pgSize * pgSize % 2 ^ 32
    let readBytes := if 0 < phdr.filesz then (pageOffset + phdr.filesz) % 2 ^ 32 else 0
    loadSegment fuel file (phdr.offset - phdr.offset % pgSize) (phdr.vaddr - pageOffset) readBytes
      (whole - readBytes) (phdr.flags.testBit 1)
  else return false

/-- The loop of `load` over the program headers, with `n` of them to come. -/
def loadPhdrs (fuel file : ℕ) : ℕ → ℤ → Code Bool
  | 0, _ => pure true
  | n + 1, fileOfs => do
      let f ← fetch fun s => s.files file
      if fileOfs < 0 ∨ f.image.length < fileOfs then return false
      else do
        fileSeek file fileOfs
        match ← readHeader file 32 with
        | none => pure false
        | some pos => do
            let phdr := phdrAt f.image pos
            -- `PT_DYNAMIC`, `PT_INTERP` and `PT_SHLIB`; 1 is `PT_LOAD`
            if phdr.type = 2 ∨ phdr.type = 3 ∨ phdr.type = 5 then return false
            else if phdr.type = 1 then do
              let loaded ← loadPhdr fuel file phdr
              if loaded then loadPhdrs fuel file n (fileOfs + 32) else return false
            else loadPhdrs fuel file n (fileOfs + 32)

/-- The words of a command line, as `strtok_r` cuts it at spaces. -/
def tokens (cmdline : List UInt8) : List (List UInt8) :=
  (cmdline.splitOn 0x20).filter fun token => token ≠ []

/-- The bytes of a word, lowest first, from address `addr` up. -/
def wordStores (addr value : ℕ) : List (ℕ × UInt8) :=
  (List.range 4).map fun k => (addr + k, UInt8.ofNat (value / 256 ^ k))

/-- Bytes stored at `esp`, `esp - 1`, …. -/
def downStores (esp : ℕ) (bytes : List UInt8) : List (ℕ × UInt8) :=
  bytes.zipIdx.map fun b => (esp - b.2, b.1)

/-- The pointers to the arguments, last argument first. -/
def pointerStores : List (List UInt8) → ℕ → ℕ → List (ℕ × UInt8)
  | [], _, _ => []
  | arg :: rest, ptr, esp =>
      wordStores esp (ptr - (arg.length + 1)) ++
        pointerStores rest (ptr - (arg.length + 1)) (esp - 4)

/-- Everything `setup_stack` stores, in order: the strings from the top down with a zero
byte above each, the padding, the null pointer, the pointers, `argv` and `argc`. -/
def stackStores (args : List (List UInt8)) : List (ℕ × UInt8) :=
  let strings := 0 :: args.reverse.flatMap fun arg => 0 :: arg.reverse
  let total := (args.map fun arg => arg.length + 1).sum
  let bytes := strings ++ List.replicate (4 - total % 4) 0
  let null := physBase - bytes.length - 3
  let argv := null - 4 - 4 * args.length
  downStores physBase bytes ++ [(null, 0)] ++ pointerStores args.reverse physBase (null - 4) ++
    wordStores argv (argv + 4) ++ [(argv - 4, UInt8.ofNat args.length)]

/-- A byte stored by the kernel through a user virtual address.  A store that faults ends
in `exit_status`, like every write that faults. -/
def userStore (fuel : ℕ) (store : ℕ × UInt8) : Code Unit := do
  let th ← threadCurrent
  match th.writeAddr store.1 with
  | none => nomatch ← exitStatus fuel
  | some dest => change fun s => { s with mem := Function.update s.mem dest store.2 }

/-- `get_frame` for a page that is written to without a test for null; a write to null faults. -/
def getFrameOrDie (fuel : ℕ) (flags : PallocFlags) : Code ℕ := do
  match ← getFrame fuel flags with
  | some page => pure page
  | none => nomatch ← nullWrite fuel

/-- `get_frame` for a page that goes to `strlcpy`, which asserts that it is not null. -/
def getFrameOrPanic (fuel : ℕ) (flags : PallocFlags) : Code ℕ := do
  match ← getFrame fuel flags with
  | some page => pure page
  | none => stop .panicked

/-- `strlcpy` of a command line into a page. -/
def copyLine (page : ℕ) (cmdline : List UInt8) : Code Unit :=
  change fun s => { s with
    mem := copyBytes s.mem page (cmdline.length + 1) fun k => cmdline.getD k 0 }

/-- `setup_stack`.  The array `args` has one page, which is 1024 pointers; `2^7` in the
source is an exclusive or, and its value is 5. -/
def setupStack (fuel : ℕ) (cmdline : List UInt8) : Code Bool := do
  let _ ← getFrameOrDie fuel {}
  let args := tokens cmdline
  if 1024 < args.length then stop .undefined
  else do
    forEach (fun _ => do
      let _ ← getFrame fuel { user := true, zero := true }) (List.range (args.length / 5 - 1))
    match ← getFrame fuel { user := true, zero := true } with
    | none => pure false
    | some kpage => do
        let installed ← installPage (physBase - pgSize) kpage true
        if installed then do
          forEach (userStore fuel) (stackStores args)
          return true
        else do
          freeFrame kpage
          return false

/-- `load`, from the executable header on. -/
def loadImage (fuel file : ℕ) (cmdline : List UInt8) : Code Bool := do
  let f ← fetch fun s => s.files file
  match ← readHeader file 52 with
  | none => pure false
  | some _ =>
      if headerOk f.image then do
        let loaded ← loadPhdrs fuel file (f.image.half 44) (wrap32 (f.image.word 28))
        if loaded then do
          let copy ← getFrameOrPanic fuel {}
          copyLine copy cmdline
          setupStack fuel cmdline
        else return false
      else return false

/-- The end of `load`. -/
def setExecFile (file : Option ℕ) : Code Unit :=
  change fun s => s.updateCurrent fun th => { th with execFile := file }

/-- `load`.  `filesys_open` asserts that the name is not null. -/
def load (fuel : ℕ) (cmdline : List UInt8) : Code Bool := do
  let created ← pagedirCreate
  if created then do
    let copy ← getFrameOrPanic fuel {}
    copyLine copy cmdline
    match (tokens cmdline).head? with
    | none => stop .panicked
    | some name => do
        match ← filesysOpen name with
        | none => do
            setExecFile none
            return false
        | some file => do
            let success ← loadImage fuel file cmdline
            setExecFile (some file)
            return success
  else do
    setExecFile none
    return false

/-- `start_process`.  The page of the command line passes from the stack frame of the new
thread into a local variable. -/
def startProcess (fuel : ℕ) : Code Unit := do
  let th ← threadCurrent
  match th.fileName with
  | none => stop .undefined
  | some line => do
      change fun s => s.updateCurrent fun th => { th with fileName := none }
      let success ← load fuel line.2
      freeFrame line.1
      if success then change fun s => s.updateCurrent fun th => { th with life := .running }
      else nomatch ← threadExit

/-! ## New processes -/

/-- `thread_create` for `start_process`. -/
def threadCreate (fuel fnCopy : ℕ) (cmdline : List UInt8) : Code (Option ℕ) := do
  match ← pallocGetPage { zero := true } with
  | none => pure none
  | some page => do
      let tid ← fetch fun s => s.nextTid
      change fun s => { s with nextTid := tid + 1 }
      let info ← malloc
      if info then do
        change fun s => { s with
          threads := Function.update s.threads tid
            (some ⟨some page, none, [], fun _ => none, none, some (fnCopy, cmdline), .starting⟩) }
        return some tid
      else nomatch ← nullWrite fuel

/-- `process_execute`. -/
def processExecute (fuel : ℕ) (fileName : List UInt8) : Code (Option ℕ) := do
  let cmdline := fileName.take (pgSize - 1)
  match ← getFrame fuel {} with
  | none => do
      freeFrame 0
      return none
  | some fnCopy => do
      copyLine fnCopy cmdline
      match ← getFrame fuel {} with
      | none => do
          freeFrame fnCopy
          return none
      | some argOne => do
          copyLine argOne cmdline
          match (tokens cmdline).head? with
          | none => stop .panicked
          | some token => do
              match ← filesysOpen token with
              | none => do
                  freeFrame fnCopy
                  freeFrame argOne
                  return none
              | some _ => do
                  match ← threadCreate fuel fnCopy cmdline with
                  | none => do
                      freeFrame fnCopy
                      return none
                  | some tid => return some tid

/-! ## Runs -/

/-- What a thread may do.  `heapPage` is a page the heap takes for itself, `exit` and
`kill` are the two ways to `thread_exit`, and `processExit` is what follows. -/
inductive Op where
  | execute (cmdline : List UInt8)
  | start
  | getFrame (flags : PallocFlags)
  | freeFrame (page : ℕ)
  | evictFrame
  | pageFault (info : FaultInfo)
  | heapPage
  | exit
  | kill
  | processExit

/-- The call itself. -/
def Op.call (fuel : ℕ) : Op → Code Unit
  | .execute cmdline => do
      let _ ← processExecute fuel cmdline
  | .start => startProcess fuel
  | .getFrame flags => do
      let _ ← Vm.getFrame fuel flags
  | .freeFrame page => Vm.freeFrame page
  | .evictFrame => Vm.evictFrame
  | .pageFault info => Vm.pageFault fuel info
  | .heapPage => do
      let _ ← pallocGetPage {}
  | .exit => do
      nomatch ← exitStatus fuel
  | .kill => do
      nomatch ← threadExit
  | .processExit => Vm.processExit

/-- Something the thread has refers to the page. -/
def Thread.Refers (th : Thread) (page : ℕ) : Prop :=
  th.page = some page ∨ (∃ line, th.fileName = some (page, line)) ∨
    ∃ pd, th.pagedir = some pd ∧ (pd.page = page ∨ ∃ i pt, pd.tables i = some pt ∧
      (pt.page = page ∨ ∃ j pte, pt.entries j = some pte ∧ pte.kpage = page))

/-- Thread `t` may make the call. -/
def Allowed (s : Kernel) (t : ℕ) (op : Op) : Prop :=
  ∃ th, s.threads t = some th ∧
    match op with
    | .start => th.life = .starting
    | .processExit => th.life = .dying
    | .freeFrame page => th.life = .running ∧
        (page = 0 ∨ page ∈ s.handed ∧ ∀ u th', s.threads u = some th' → ¬ th'.Refers page)
    | _ => th.life = .running

/-- The kernel after a call. -/
def after : EStateM.Result Stop Kernel Unit → Kernel
  | .ok _ s => s
  | .error .exiting s => s
  | .error .unending s => s.updateCurrent fun th => { th with life := .stuck }
  | .error .panicked s => { s with up := false }
  | .error .undefined s => { s with up := false }

/-- Thread `t` makes a call. -/
def step (fuel t : ℕ) (op : Op) (s : Kernel) : Kernel := after (op.call fuel { s with current := t })

/-- The kernel before the first process: one thread, no frame, no lock taken. -/
structure Kernel.Booted (s : Kernel) : Prop where
  pools : ∃ limit used, s.pools = pallocInit s.initRamPages limit used
  swap : s.swap.isInitialized = false
  fifoList : s.fifoList = []
  threads : s.threads = fun t =>
    if t = 1 then some ⟨none, none, [], fun _ => none, none, none, .running⟩ else none
  nextTid : s.nextTid = 2
  holder : ∀ l, s.holder l = none
  locking : s.locking = true
  handed : s.handed = []
  grants : s.grants = []
  up : s.up = true

/-- The states reached from a booted kernel by calls of any threads, in any order.  A
panic is the end. -/
inductive Reach : Kernel → Prop
  | boot {s : Kernel} (h : Kernel.Booted s) : Reach s
  | step {s : Kernel} {fuel t : ℕ} {op : Op} (h : Reach s) (up : s.up = true)
      (allowed : Allowed s t op) : Reach (step fuel t op s)

end Pintos.Vm
