import Pintos.FileSys.Directory
import Pintos.Lib.Command
import Pintos.Lib.Runs
import Pintos.Lib.Tally

/-!
# Open inodes, files and directories

The part of `filesys/inode.c`, `filesys/file.c`, `filesys/directory.c` and
`filesys/filesys.c` that keeps track of what is open: the list `open_inodes` with its
counters, and the `struct file` and `struct dir` that refer to it.

Every allocation may fail: `heap n` says whether the `n`-th call of `malloc` or `calloc`
succeeds.  What the calls do on the disk and to the contents of an inode in memory is left
to a `DataLayer`; its functions may do anything but touch the table, and they may stop the
kernel.  A memory allocation that fails inside them (a bounce buffer, an indirect block)
shows as a short count, a false result or a stop.

A pointer is the number of an allocation, so no pointer is used twice.
-/

namespace Pintos.OpenTable

open Lib

/-! ## State -/

/-- `struct inode`, without its contents. -/
structure OpenInode where
  sector : ℕ
  openCnt : ℤ
  removed : Bool
  denyWriteCnt : ℤ
deriving DecidableEq, Repr

/-- `struct file`. -/
structure OpenFile where
  inode : ℕ
  pos : ℤ
  denyWrite : Bool
deriving DecidableEq, Repr

/-- `struct dir`. -/
structure OpenDir where
  inode : ℕ
  pos : ℤ
deriving DecidableEq, Repr

/-- Everything that is open. -/
structure Table (δ : Type) where
  inodes : ℕ → Option OpenInode
  files : ℕ → Option OpenFile
  dirs : ℕ → Option OpenDir
  openInodes : List ℕ
  nextAddr : ℕ
  heap : ℕ → Bool
  mallocs : ℕ
  data : δ

/-- A function of the data layer; `none` stops the kernel. -/
abbrev DataCode (δ α : Type) : Type := δ → Option (α × δ)

/-- What the table rests on.  Inodes are given by their address. -/
structure DataLayer (δ : Type) where
  /-- `block_read` of the contents of a new inode, from a sector. -/
  load : ℕ → ℕ → DataCode δ Unit
  /-- `lookup` in a directory: the sector, the entry as `dir_remove` would write it, and its
  offset. -/
  lookup : ℕ → CString → DataCode δ (Option (ℕ × List UInt8 × ℤ))
  /-- The loop of `dir_add` for a free slot: the entry to write, and its offset. -/
  slot : ℕ → CString → ℕ → DataCode δ (List UInt8 × ℤ)
  /-- `inode_write_at` past the test for denied writes. -/
  write : ℕ → List UInt8 → ℤ → DataCode δ ℤ
  /-- `inode_create`. -/
  create : ℕ → ℤ → Bool → DataCode δ Bool
  /-- `free_map_allocate (1, …)`. -/
  allocate : DataCode δ (Option ℕ)
  /-- `free_map_release (…, 1)`. -/
  release : ℕ → DataCode δ Unit
  /-- The part of `inode_close` that releases the blocks of a removed inode. -/
  releaseBlocks : ℕ → DataCode δ Unit

/-- Why the kernel stops. -/
inductive TableStop where
  /-- In the data layer. -/
  | dataLayer
  /-- A failed `ASSERT` of `inode_deny_write` or `inode_allow_write`. -/
  | assertFailed
  /-- A pointer to memory that was freed, or null. -/
  | danglingPointer
deriving DecidableEq, Repr

/-- Code that works on the table. -/
abbrev TableCode (δ α : Type) : Type := EStateM TableStop (Table δ) α

variable {δ α : Type}

/-- Calls the data layer. -/
def onData (f : DataCode δ α) : TableCode δ α := fun t =>
  match f t.data with
  | some (a, data) => .ok a { t with data }
  | none => .error .dataLayer t

/-- `ASSERT`. -/
def tableAssert (c : Bool) : TableCode δ Unit := if c then pure () else stop .assertFailed

/-- `malloc` and `calloc`. -/
def malloc : TableCode δ (Option ℕ) := do
  let (ok, p) ← fetch fun t => (t.heap t.mallocs, t.nextAddr)
  change fun t => { t with mallocs := t.mallocs + 1 }
  if ok then do
    change fun t => { t with nextAddr := t.nextAddr + 1 }
    return some p
  else return none

/-- Reads through an inode pointer. -/
def getInode (p : ℕ) : TableCode δ OpenInode := do
  match ← fetch fun t => t.inodes p with
  | some ino => pure ino
  | none => stop .danglingPointer

/-- Stores through an inode pointer. -/
def setInode (p : ℕ) (ino : OpenInode) : TableCode δ Unit :=
  change fun t => { t with inodes := Function.update t.inodes p (some ino) }

/-- Reads through a file pointer. -/
def getFile (f : ℕ) : TableCode δ OpenFile := do
  match ← fetch fun t => t.files f with
  | some file => pure file
  | none => stop .danglingPointer

/-- Stores through a file pointer, or frees the file. -/
def setFile (f : ℕ) (file : Option OpenFile) : TableCode δ Unit :=
  change fun t => { t with files := Function.update t.files f file }

/-- Reads through a directory pointer. -/
def getDir (d : ℕ) : TableCode δ OpenDir := do
  match ← fetch fun t => t.dirs d with
  | some dir => pure dir
  | none => stop .danglingPointer

/-- Stores through a directory pointer, or frees the directory. -/
def setDir (d : ℕ) (dir : Option OpenDir) : TableCode δ Unit :=
  change fun t => { t with dirs := Function.update t.dirs d dir }

variable (L : DataLayer δ)

/-! ## Inodes -/

/-- `inode_reopen`. -/
def inodeReopen (p : ℕ) : TableCode δ Unit := do
  let ino ← getInode p
  setInode p { ino with openCnt := ino.openCnt + 1 }

/-- The search of `open_inodes`. -/
def findOpen (t : Table δ) (sector : ℕ) : Option ℕ :=
  t.openInodes.find? fun p => (t.inodes p).any fun ino => ino.sector == sector

/-- The end of `inode_open`: a new inode. -/
def newInode (sector : ℕ) : TableCode δ (Option ℕ) := do
  match ← malloc with
  | none => pure none
  | some p => do
      change fun t => { t with
        openInodes := p :: t.openInodes
        inodes := Function.update t.inodes p
          (some { sector, openCnt := 1, removed := false, denyWriteCnt := 0 }) }
      onData (L.load p sector)
      return some p

/-- `inode_open`. -/
def inodeOpen (sector : ℕ) : TableCode δ (Option ℕ) := do
  match ← fetch fun t => findOpen t sector with
  | some p => do
      inodeReopen p
      return some p
  | none => newInode L sector

/-- The part of `inode_close` for a removed inode. -/
def releaseRemoved (p : ℕ) (ino : OpenInode) : TableCode δ Unit :=
  if ino.removed then do
    onData (L.releaseBlocks p)
    onData (L.release ino.sector)
  else pure ()

/-- The end of `inode_close`, for the last opener. -/
def freeInode (p : ℕ) (ino : OpenInode) : TableCode δ Unit := do
  change fun t => { t with openInodes := t.openInodes.erase p }
  releaseRemoved L p ino
  change fun t => { t with inodes := Function.update t.inodes p none }

/-- `inode_close`. -/
def inodeClose : Option ℕ → TableCode δ Unit
  | none => pure ()
  | some p => do
      let ino ← getInode p
      setInode p { ino with openCnt := ino.openCnt - 1 }
      if ino.openCnt - 1 = 0 then freeInode L p ino else pure ()

/-- `inode_remove`. -/
def inodeRemove (p : ℕ) : TableCode δ Unit := do
  let ino ← getInode p
  setInode p { ino with removed := true }

/-- `inode_deny_write`. -/
def inodeDenyWrite (p : ℕ) : TableCode δ Unit := do
  let ino ← getInode p
  setInode p { ino with denyWriteCnt := ino.denyWriteCnt + 1 }
  tableAssert (ino.denyWriteCnt + 1 ≤ ino.openCnt)

/-- `inode_allow_write`. -/
def inodeAllowWrite (p : ℕ) : TableCode δ Unit := do
  let ino ← getInode p
  tableAssert (0 < ino.denyWriteCnt)
  tableAssert (ino.denyWriteCnt ≤ ino.openCnt)
  setInode p { ino with denyWriteCnt := ino.denyWriteCnt - 1 }

/-- `inode_write_at`. -/
def inodeWriteAt (p : ℕ) (buffer : List UInt8) (offset : ℤ) : TableCode δ ℤ := do
  let ino ← getInode p
  if ino.denyWriteCnt ≠ 0 then return 0
  else onData (L.write p buffer offset)

/-! ## Files -/

/-- `file_open`. -/
def fileOpen (inode : Option ℕ) : TableCode δ (Option ℕ) := do
  match inode, ← malloc with
  | some p, some f => do
      setFile f (some { inode := p, pos := 0, denyWrite := false })
      return some f
  | inode, _ => do
      inodeClose L inode
      return none

/-- `file_reopen`. -/
def fileReopen (f : ℕ) : TableCode δ (Option ℕ) := do
  let file ← getFile f
  inodeReopen file.inode
  fileOpen L (some file.inode)

/-- `file_deny_write`. -/
def fileDenyWrite (f : ℕ) : TableCode δ Unit := do
  let file ← getFile f
  if !file.denyWrite then do
    setFile f (some { file with denyWrite := true })
    inodeDenyWrite file.inode
  else pure ()

/-- `file_allow_write`. -/
def fileAllowWrite (f : ℕ) : TableCode δ Unit := do
  let file ← getFile f
  if file.denyWrite then do
    setFile f (some { file with denyWrite := false })
    inodeAllowWrite file.inode
  else pure ()

/-- `file_close`. -/
def fileClose : Option ℕ → TableCode δ Unit
  | none => pure ()
  | some f => do
      fileAllowWrite f
      let file ← getFile f
      inodeClose L (some file.inode)
      setFile f none

/-- `file_write`. -/
def fileWrite (f : ℕ) (buffer : List UInt8) : TableCode δ ℤ := do
  let file ← getFile f
  let written ← inodeWriteAt L file.inode buffer file.pos
  setFile f (some { file with pos := file.pos + written })
  return written

/-! ## Directories -/

/-- `dir_open`. -/
def dirOpen (inode : Option ℕ) : TableCode δ (Option ℕ) := do
  match inode, ← malloc with
  | some p, some d => do
      setDir d (some { inode := p, pos := 0 })
      return some d
  | inode, _ => do
      inodeClose L inode
      return none

/-- `dir_open_root`. -/
def dirOpenRoot : TableCode δ (Option ℕ) := do
  dirOpen L (← inodeOpen L rootDirSector)

/-- `dir_reopen`. -/
def dirReopen (d : ℕ) : TableCode δ (Option ℕ) := do
  let dir ← getDir d
  inodeReopen dir.inode
  dirOpen L (some dir.inode)

/-- `dir_close`. -/
def dirClose : Option ℕ → TableCode δ Unit
  | none => pure ()
  | some d => do
      let dir ← getDir d
      inodeClose L (some dir.inode)
      setDir d none

/-- `dir_lookup`: the inode, opened. -/
def dirLookup (d : ℕ) (name : CString) : TableCode δ (Option ℕ) := do
  let dir ← getDir d
  match ← onData (L.lookup dir.inode name) with
  | some (sector, _, _) => inodeOpen L sector
  | none => pure none

/-- `dir_add`. -/
def dirAdd (d : ℕ) (name : CString) (sector : ℕ) : TableCode δ Bool := do
  let dir ← getDir d
  if name = [] ∨ nameMax < name.length then return false
  else match ← onData (L.lookup dir.inode name) with
    | some _ => pure false
    | none => do
        let (entry, ofs) ← onData (L.slot dir.inode name sector)
        let written ← inodeWriteAt L dir.inode entry ofs
        return decide (written = 20)

/-- The end of `dir_remove`, with the inode open at `q`. -/
def eraseEntry (p q : ℕ) (entry : List UInt8) (ofs : ℤ) : TableCode δ Bool := do
  let written ← inodeWriteAt L p entry ofs
  if written ≠ 20 then do
    inodeClose L (some q)
    return false
  else do
    inodeRemove q
    inodeClose L (some q)
    return true

/-- `dir_remove`. -/
def dirRemove (d : ℕ) (name : CString) : TableCode δ Bool := do
  let dir ← getDir d
  match ← onData (L.lookup dir.inode name) with
  | none => pure false
  | some (sector, entry, ofs) => do
      match ← inodeOpen L sector with
      | none => pure false
      | some q => eraseEntry L dir.inode q entry ofs

/-! ## Files by name -/

/-- The middle of `filesys_create`, with the root directory open: the result and the sector
that was allocated, 0 if there is none. -/
def createIn (d : ℕ) (name : CString) (initialSize : ℤ) (isDir : Bool) :
    TableCode δ (Bool × ℕ) := do
  match ← onData L.allocate with
  | none => pure (false, 0)
  | some sector => do
      if ← onData (L.create sector initialSize isDir) then do
        let added ← dirAdd L d name sector
        return (added, sector)
      else return (false, sector)

/-- `filesys_create` releases a sector that is not used after all. -/
def releaseUnused (success : Bool) (sector : ℕ) : TableCode δ Unit :=
  if !success ∧ sector ≠ 0 then onData (L.release sector) else pure ()

/-- `filesys_create`. -/
def filesysCreate (name : CString) (initialSize : ℤ) (isDir : Bool) : TableCode δ Bool := do
  if name = [] then return false
  else match ← dirOpenRoot L with
    | none => pure false
    | some d => do
        let (success, sector) ← createIn L d name initialSize isDir
        releaseUnused L success sector
        dirClose L (some d)
        return success

/-- `filesys_open`. -/
def filesysOpen (name : CString) : TableCode δ (Option ℕ) := do
  match ← dirOpenRoot L with
  | none => fileOpen L none
  | some d => do
      let inode ← dirLookup L d name
      dirClose L (some d)
      fileOpen L inode

/-- `filesys_remove`. -/
def filesysRemove (name : CString) : TableCode δ Bool := do
  match ← dirOpenRoot L with
  | none => pure false
  | some d => do
      let success ← dirRemove L d name
      dirClose L (some d)
      return success

/-! ## Runs -/

/-- A call from outside.  The pointers passed are ones that the callers hold. -/
inductive TableOp where
  | inodeOpen (sector : ℕ)
  | inodeReopen (p : ℕ)
  | inodeClose (p : ℕ)
  | inodeRemove (p : ℕ)
  | inodeWriteAt (p : ℕ) (buffer : List UInt8) (offset : ℤ)
  | fileOpen (inode : Option ℕ)
  | fileReopen (f : ℕ)
  | fileClose (f : ℕ)
  | fileDenyWrite (f : ℕ)
  | fileAllowWrite (f : ℕ)
  | fileWrite (f : ℕ) (buffer : List UInt8)
  | dirOpen (inode : Option ℕ)
  | dirReopen (d : ℕ)
  | dirClose (d : ℕ)
  | dirLookup (d : ℕ) (name : CString)
  | dirAdd (d : ℕ) (name : CString) (sector : ℕ)
  | dirRemove (d : ℕ) (name : CString)
  | filesysCreate (name : CString) (initialSize : ℤ) (isDir : Bool)
  | filesysOpen (name : CString)
  | filesysRemove (name : CString)

/-- What the callers hold, by the calls they made and the replies they got: references to inodes,
files and directories. -/
structure Held where
  refs : List ℕ
  files : List ℕ
  dirs : List ℕ
deriving DecidableEq, Repr

namespace Held

/-- The callers get a reference, if there is one. -/
def addRef (h : Held) (r : Option ℕ) : Held := { h with refs := r.toList ++ h.refs }

/-- They get a file. -/
def addFile (h : Held) (r : Option ℕ) : Held := { h with files := r.toList ++ h.files }

/-- They get a directory. -/
def addDir (h : Held) (r : Option ℕ) : Held := { h with dirs := r.toList ++ h.dirs }

/-- They give a reference back, or away. -/
def dropRef (h : Held) (p : ℕ) : Held := { h with refs := h.refs.erase p }

/-- They give a file back. -/
def dropFile (h : Held) (f : ℕ) : Held := { h with files := h.files.erase f }

/-- They give a directory back. -/
def dropDir (h : Held) (d : ℕ) : Held := { h with dirs := h.dirs.erase d }

end Held

/-- The system: the table, what the callers hold, and how the kernel stopped, if it did. -/
structure Sys (δ : Type) where
  table : Table δ
  held : Held
  stopped : Option TableStop

/-- After `inode_init`. -/
def Sys.init (heap : ℕ → Bool) (data : δ) : Sys δ :=
  ⟨⟨fun _ => none, fun _ => none, fun _ => none, [], 1, heap, 0, data⟩, ⟨[], [], []⟩, none⟩

/-- The system after a call that returned, with what the callers then hold, or after a stop. -/
def Sys.ended (u : Sys δ) (held : α → Held) : EStateM.Result TableStop (Table δ) α → Sys δ
  | .ok a table => { u with table, held := held a }
  | .error e table => { u with table, stopped := some e }

/-- The effect of a call. -/
def Sys.call (u : Sys δ) : TableOp → Sys δ
  | .inodeOpen s => u.ended (fun r => u.held.addRef r) (OpenTable.inodeOpen L s u.table)
  | .inodeReopen p => u.ended (fun _ => u.held.addRef (some p)) (OpenTable.inodeReopen p u.table)
  | .inodeClose p => u.ended (fun _ => u.held.dropRef p) (OpenTable.inodeClose L (some p) u.table)
  | .inodeRemove p => u.ended (fun _ => u.held) (OpenTable.inodeRemove p u.table)
  | .inodeWriteAt p b o => u.ended (fun _ => u.held) (OpenTable.inodeWriteAt L p b o u.table)
  | .fileOpen none => u.ended (fun r => u.held.addFile r) (OpenTable.fileOpen L none u.table)
  | .fileOpen (some p) =>
      u.ended (fun r => (u.held.dropRef p).addFile r) (OpenTable.fileOpen L (some p) u.table)
  | .fileReopen f => u.ended (fun r => u.held.addFile r) (OpenTable.fileReopen L f u.table)
  | .fileClose f => u.ended (fun _ => u.held.dropFile f) (OpenTable.fileClose L (some f) u.table)
  | .fileDenyWrite f => u.ended (fun _ => u.held) (OpenTable.fileDenyWrite f u.table)
  | .fileAllowWrite f => u.ended (fun _ => u.held) (OpenTable.fileAllowWrite f u.table)
  | .fileWrite f b => u.ended (fun _ => u.held) (OpenTable.fileWrite L f b u.table)
  | .dirOpen none => u.ended (fun r => u.held.addDir r) (OpenTable.dirOpen L none u.table)
  | .dirOpen (some p) =>
      u.ended (fun r => (u.held.dropRef p).addDir r) (OpenTable.dirOpen L (some p) u.table)
  | .dirReopen d => u.ended (fun r => u.held.addDir r) (OpenTable.dirReopen L d u.table)
  | .dirClose d => u.ended (fun _ => u.held.dropDir d) (OpenTable.dirClose L (some d) u.table)
  | .dirLookup d n => u.ended (fun r => u.held.addRef r) (OpenTable.dirLookup L d n u.table)
  | .dirAdd d n s => u.ended (fun _ => u.held) (OpenTable.dirAdd L d n s u.table)
  | .dirRemove d n => u.ended (fun _ => u.held) (OpenTable.dirRemove L d n u.table)
  | .filesysCreate n k b => u.ended (fun _ => u.held) (OpenTable.filesysCreate L n k b u.table)
  | .filesysOpen n => u.ended (fun r => u.held.addFile r) (OpenTable.filesysOpen L n u.table)
  | .filesysRemove n => u.ended (fun _ => u.held) (OpenTable.filesysRemove L n u.table)

/-- The system after a call; a kernel that has stopped does nothing more. -/
def Sys.after (u : Sys δ) (op : TableOp) : Sys δ := if u.stopped.isSome then u else u.call L op

/-- The pointers of a call are ones that the callers hold. -/
def Sys.Allowed (u : Sys δ) : TableOp → Prop
  | .inodeReopen p | .inodeClose p | .inodeRemove p | .fileOpen (some p) | .dirOpen (some p) =>
      p ∈ u.held.refs
  | .inodeWriteAt p _ _ => p ∈ u.held.refs
  | .fileReopen f | .fileClose f | .fileDenyWrite f | .fileAllowWrite f => f ∈ u.held.files
  | .fileWrite f _ => f ∈ u.held.files
  | .dirReopen d | .dirClose d => d ∈ u.held.dirs
  | .dirLookup d _ | .dirAdd d _ _ | .dirRemove d _ => d ∈ u.held.dirs
  | .inodeOpen _ | .fileOpen none | .dirOpen none | .filesysCreate .. | .filesysOpen _ |
      .filesysRemove _ => True

end Pintos.OpenTable
