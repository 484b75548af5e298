import Pintos.Userprog.SetupStack
import Pintos.Vm.Load

/-!
# Loading an executable

`load` of `fs_PintOS/userprog/process.c`, with `validate_segment` and `load_segment`.  The headers of
an executable are read off the bytes of the file; their types and the two tests on them are the same
in both kernels and are taken from `Pintos.Vm.Load`.

The fields of a program header are numbers of 32 bits, and what is computed from them wraps around:
`ofInt32` is a result as a `uint32_t`.

`load` uses the page for the copy of the command line, and `setup_stack` the page for the array of
words, without a test for null.
-/

namespace Pintos.Userprog

open Lib Strings
open Vm (Memory PageDir PageTable Pte Image PallocFlags pgSize physBase isUserVaddr pdNo ptNo fillPage
  copyBytes Phdr phdrAt headerOk validateSegment)

/-! ## Segments -/

/-- `ROUND_UP (x, PGSIZE)`. -/
def roundUp (x : ℕ) : ℕ := ofInt32 ((ofInt32 ((ofInt32 (x + pgSize) : ℤ) - 1) / pgSize * pgSize : ℕ) : ℤ)

/-- The arguments of `load_segment`. -/
structure SegmentArgs where
  ofs : ℤ
  upage : ℕ
  readBytes : ℕ
  zeroBytes : ℕ
  writable : Bool

/-- What `load` passes to `load_segment` for a program header. -/
def segmentArgs (phdr : Phdr) : SegmentArgs :=
  let pageOffset := phdr.vaddr % pgSize
  let whole := roundUp (ofInt32 (pageOffset + phdr.memsz))
  let readBytes := if 0 < phdr.filesz then ofInt32 (pageOffset + phdr.filesz) else 0
  { ofs := wrap32 (phdr.offset - phdr.offset % pgSize : ℕ)
    upage := phdr.vaddr - phdr.vaddr % pgSize
    readBytes := readBytes
    zeroBytes := if 0 < phdr.filesz then ofInt32 ((whole : ℤ) - readBytes) else whole
    writable := phdr.flags.testBit 1 }

/-- The variables of the loop of `load_segment`. -/
structure Counters where
  upage : ℕ
  readBytes : ℕ
  zeroBytes : ℕ

/-- `page_read_bytes`. -/
def Counters.pageReadBytes (c : Counters) : ℕ := if c.readBytes < pgSize then c.readBytes else pgSize

/-- `page_zero_bytes`. -/
def Counters.pageZeroBytes (c : Counters) : ℕ := pgSize - c.pageReadBytes

/-- The end of the body of the loop. -/
def Counters.advance (c : Counters) : Counters where
  upage := ofInt32 (c.upage + pgSize)
  readBytes := ofInt32 ((c.readBytes : ℤ) - c.pageReadBytes)
  zeroBytes := ofInt32 ((c.zeroBytes : ℤ) - c.pageZeroBytes)

/-- The loop ends. -/
def Counters.done (c : Counters) : Bool := c.readBytes = 0 && c.zeroBytes = 0

/-- The body of the loop of `load_segment`: whether a page was loaded. -/
def loadPage (file : ℕ) (writable : Bool) (c : Counters) : Code Bool := do
  match ← pallocGetPage { user := true } with
  | none => pure false
  | some kpage => do
      let got ← fileRead file kpage c.pageReadBytes
      if got ≠ c.pageReadBytes then do
        pallocFreePage kpage
        return false
      else do
        change fun k => { k with
          mem := copyBytes k.mem (kpage + c.pageReadBytes) c.pageZeroBytes fun _ => 0 }
        if ← installPage c.upage kpage writable then return true
        else do
          pallocFreePage kpage
          return false

/-- The loop of `load_segment`. -/
def loadPages (file : ℕ) (writable : Bool) : ℕ → Counters → Code Bool
  | 0, c => if c.done then pure true else stop .unending
  | n + 1, c =>
      if c.done then pure true
      else do
        if ← loadPage file writable c then loadPages file writable n c.advance else return false

/-- `load_segment`. -/
def loadSegment (fuel file : ℕ) (args : SegmentArgs) : Code Bool := do
  assert (ofInt32 (args.readBytes + args.zeroBytes) % pgSize = 0)
  assert (args.upage % pgSize = 0)
  assert (args.ofs % pgSize = 0)
  fileSeek file args.ofs
  loadPages file args.writable fuel ⟨args.upage, args.readBytes, args.zeroBytes⟩

/-! ## `load` -/

/-- `file_read` of a header into a local variable: the position it was read at, if the file had all
its bytes. -/
def readHeader (file size : ℕ) : Code (Option ℕ) := do
  let f ← getFile file
  let image ← fetch fun k => k.image f.inode
  let n := min size (image.length - f.pos)
  change fun k => k.setFile file { f with pos := f.pos + n }
  return if n = size then some f.pos else none

/-- The contents of an open file. -/
def imageOf (file : ℕ) : Code Image := do
  let f ← getFile file
  fetch fun k => k.image f.inode

/-- The case `PT_LOAD`. -/
def loadPhdr (fuel file : ℕ) (phdr : Phdr) : Code Bool := do
  let image ← imageOf file
  if validateSegment phdr image then loadSegment fuel file (segmentArgs phdr)
  else return false

/-- The loop over the program headers, with `n` of them to come. -/
def loadPhdrs (fuel file : ℕ) : ℕ → ℤ → Code Bool
  | 0, _ => pure true
  | n + 1, fileOfs => do
      let length ← fileLength file
      if fileOfs < 0 ∨ (length : ℤ) < fileOfs then return false
      else do
        fileSeek file fileOfs
        match ← readHeader file 32 with
        | none => pure false
        | some pos => do
            let image ← imageOf file
            let phdr := phdrAt image pos
            -- `PT_DYNAMIC`, `PT_INTERP` and `PT_SHLIB`; 1 is `PT_LOAD`
            if phdr.type = 2 ∨ phdr.type = 3 ∨ phdr.type = 5 then return false
            else if phdr.type = 1 then do
              let loaded ← loadPhdr fuel file phdr
              if loaded then loadPhdrs fuel file n (fileOfs + 32) else return false
            else loadPhdrs fuel file n (fileOfs + 32)

/-- `load`, from the executable header up to the stack. -/
def loadProgram (fuel file : ℕ) : Code Bool := do
  match ← readHeader file 52 with
  | none => pure false
  | some _ => do
      let image ← imageOf file
      if headerOk image then loadPhdrs fuel file (image.half 44) (wrap32 (image.word 28))
      else return false

/-- `load`, from the stack on. -/
def loadStack (fuel fileName : ℕ) : Code Bool := do
  let cmdlineCopy ← pallocGetPage {}
  let _ ← onMemory (Strings.strlcpy fuel (cmdlineCopy.getD 0) fileName pgSize)
  setupStack fuel (cmdlineCopy.getD 0)

/-- The end of `load`. -/
def finishLoad (file : Option ℕ) (success : Bool) : Code Bool := do
  match file with
  | none => change fun k => { k with execFile := none }
  | some file => do
      fileDenyWrite file
      change fun k => { k with execFile := some file }
  return success

/-- The string a pointer points to; nothing, if it is null. -/
def nameAt (fuel p : ℕ) : Code (Option (List UInt8)) :=
  if p = 0 then pure none
  else do
    let n ← onMemory (strlen fuel p)
    let mem ← fetch Kernel.mem
    return some ((List.range n).map fun i => mem (p + i))

/-- `load`, once there is a page directory, up to the stack: the executable, if it could be opened, and
whether it was loaded. -/
def loadFile (fuel fileName : ℕ) : Code (Option ℕ × Bool) := do
  let fnCopy ← pallocGetPage {}
  let _ ← onMemory (Strings.strlcpy fuel (fnCopy.getD 0) fileName pgSize)
  let (myFilename, _) ← onMemory (strtokR fuel space (fnCopy.getD 0) 0)
  let name ← nameAt fuel myFilename
  match ← filesysOpen name with
  | none => return (none, false)
  | some file => do
      let loaded ← loadProgram fuel file
      return (some file, loaded)

/-- `load`. -/
def load (fuel fileName : ℕ) : Code Bool := do
  if ← pagedirCreate then do
    let (file, loaded) ← loadFile fuel fileName
    if loaded then do
      let success ← loadStack fuel fileName
      finishLoad file success
    else finishLoad file false
  else finishLoad none false

end Pintos.Userprog
