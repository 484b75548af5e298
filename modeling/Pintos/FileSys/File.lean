import Pintos.FileSys.Inode

/-!
# Open files

`filesys/file.c`: a file is an inode, a position and the mark that this opener
denies writes.  A position is an `off_t` that `file_seek` keeps non-negative.
-/

namespace Pintos

/-- `file_open` on an inode that is not null. -/
def fileOpen (fs : FsState) (p : ℕ) : ℕ × FsState := (fs.nextAddr, fs.pushFile p)

/-- `file_allow_write`. -/
def fileAllowWrite (fs : FsState) (f : ℕ) : Except Fault FsState := do
  let file ← fs.file f
  if file.denyWrite then
    inodeAllowWrite (fs.setFile f { file with denyWrite := false }) file.inode
  else
    return fs

/-- `file_deny_write`. -/
def fileDenyWrite (fs : FsState) (f : ℕ) : Except Fault FsState := do
  let file ← fs.file f
  if file.denyWrite then
    return fs
  else
    inodeDenyWrite (fs.setFile f { file with denyWrite := true }) file.inode

/-- `file_close` on a file that is not null. -/
def fileClose (fs : FsState) (f : ℕ) : Except Fault FsState := do
  let fs ← fileAllowWrite fs f
  let file ← fs.file f
  -- `free (file)` comes last, but `inode_close` does not look at the file
  inodeClose (fs.freeFile f) file.inode

/-- `file_read`: the bytes read. -/
def fileRead (fs : FsState) (f : ℕ) (size : ℤ) : Except Fault (List UInt8 × FsState) := do
  let file ← fs.file f
  let bytes ← inodeReadAt fs file.inode size file.pos
  return (bytes, fs.setFile f { file with pos := file.pos + bytes.length })

/-- `file_write`: the number of bytes written. -/
def fileWrite (fs : FsState) (f : ℕ) (buffer : ℕ → UInt8) (size : ℤ) :
    Except Fault (ℤ × FsState) := do
  let file ← fs.file f
  let (written, fs) ← inodeWriteAt fs file.inode buffer size file.pos
  return (written, fs.setFile f { file with pos := file.pos + written.toNat })

/-- `file_length`. -/
def fileLength (fs : FsState) (f : ℕ) : Except Fault ℤ := do
  let file ← fs.file f
  let inode ← fs.inode file.inode
  return inodeLength inode.data

/-- `file_seek`. -/
def fileSeek (fs : FsState) (f : ℕ) (newPos : ℤ) : Except Fault FsState := do
  let file ← fs.file f
  if newPos < 0 then
    .error (.assertFailed .fileSeek)
  else
    return fs.setFile f { file with pos := newPos.toNat }

/-- `file_tell`. -/
def fileTell (fs : FsState) (f : ℕ) : Except Fault ℕ := do
  let file ← fs.file f
  return file.pos

end Pintos
