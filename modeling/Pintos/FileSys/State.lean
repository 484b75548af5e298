import Pintos.FileSys.Bitmap
import Pintos.FileSys.Transfer

/-!
# The state of the file system

The in-memory objects of `filesys/`: open inodes, open files, the free map and
the device.  Pointers are heap addresses; an address that is not (or no longer)
allocated maps to `none`, and following it is a fault.

An inode keeps its on-disk half as the raw 512 bytes of `struct inode_disk`: the
same bytes go to and come from the device, and what a field of it reads as when
the sector holds something else is then what the code reads.

Everything here is common to `fs_PintOS` and `vm_PintOS`, which differ in the
layout of `struct inode_disk` and in `byte_to_sector`.
-/

namespace Pintos

open Lib

/-- `struct inode`. -/
structure Inode where
  sector : ℕ
  openCnt : ℤ
  removed : Bool
  denyWriteCnt : ℤ
  data : Sector

/-- `struct file`. -/
structure File where
  inode : ℕ
  pos : ℕ
  denyWrite : Bool
deriving DecidableEq

/-- The file system: `fs_device`, `free_map`, `free_map_file`, `open_inodes`, the
heap of inodes and files, and the working directory of the running thread. -/
structure FsState where
  dev : Device
  freeMap : Bitmap
  freeMapFile : Option ℕ
  inodes : ℕ → Option Inode
  files : ℕ → Option File
  openInodes : List ℕ
  nextAddr : ℕ
  currentWorkingDir : ℕ

namespace FsState

/-- Follow an inode pointer. -/
def inode (fs : FsState) (p : ℕ) : Except Fault Inode :=
  match fs.inodes p with
  | some ino => .ok ino
  | none => .error .danglingPointer

/-- Follow a file pointer. -/
def file (fs : FsState) (f : ℕ) : Except Fault File :=
  match fs.files f with
  | some file => .ok file
  | none => .error .danglingPointer

/-- The state with another device. -/
@[simps] def setDev (fs : FsState) (dev : Device) : FsState := { fs with dev := dev }

/-- The state with another free map. -/
@[simps] def setMap (fs : FsState) (freeMap : Bitmap) : FsState := { fs with freeMap := freeMap }

/-- Store through an inode pointer. -/
@[simps] def setInode (fs : FsState) (p : ℕ) (ino : Inode) : FsState :=
  { fs with inodes := Function.update fs.inodes p (some ino) }

/-- Take an inode off `open_inodes`. -/
@[simps] def unlistInode (fs : FsState) (p : ℕ) : FsState :=
  { fs with openInodes := fs.openInodes.erase p }

/-- Free the memory of an inode. -/
@[simps] def freeInode (fs : FsState) (p : ℕ) : FsState :=
  { fs with inodes := Function.update fs.inodes p none }

/-- The state after `inode_open` has allocated a `struct inode` for `sector`, whose
contents are `data`. -/
@[simps] def pushInode (fs : FsState) (sector : ℕ) (data : Sector) : FsState :=
  { fs with
    inodes := Function.update fs.inodes fs.nextAddr
      (some { sector, openCnt := 1, removed := false, denyWriteCnt := 0, data })
    openInodes := fs.nextAddr :: fs.openInodes
    nextAddr := fs.nextAddr + 1 }

/-- Store through a file pointer. -/
@[simps] def setFile (fs : FsState) (f : ℕ) (file : File) : FsState :=
  { fs with files := Function.update fs.files f (some file) }

/-- The state after `file_open` has allocated a `struct file` for the inode `p`. -/
@[simps] def pushFile (fs : FsState) (p : ℕ) : FsState :=
  { fs with
    files := Function.update fs.files fs.nextAddr (some { inode := p, pos := 0, denyWrite := false })
    nextAddr := fs.nextAddr + 1 }

/-- Free the memory of a file. -/
@[simps] def freeFile (fs : FsState) (f : ℕ) : FsState :=
  { fs with files := Function.update fs.files f none }

/-- The state with another `free_map_file`. -/
@[simps] def setMapFile (fs : FsState) (f : ℕ) : FsState := { fs with freeMapFile := some f }

theorem inode_ok {fs : FsState} {p : ℕ} {ino : Inode} (h : fs.inodes p = some ino) :
    fs.inode p = .ok ino := by
  simp [inode, h]

theorem file_ok {fs : FsState} {f : ℕ} {file : File} (h : fs.files f = some file) :
    fs.file f = .ok file := by
  simp [FsState.file, h]

end FsState

/-- Sector of the free map's inode. -/
def freeMapSector : ℕ := 0

/-- Sector of the root directory's inode. -/
def rootDirSector : ℕ := 1

/-- `inode_reopen`. -/
def inodeReopen (fs : FsState) (p : ℕ) : Except Fault FsState := do
  let ino ← fs.inode p
  return fs.setInode p { ino with openCnt := ino.openCnt + 1 }

/-- The search of `open_inodes` for an inode at `sector`. -/
def findOpen (fs : FsState) (sector : ℕ) : Option ℕ :=
  fs.openInodes.find? fun p => (fs.inodes p).any fun ino => ino.sector == sector

/-- `inode_open`. -/
def inodeOpen (fs : FsState) (sector : ℕ) : Except Fault (ℕ × FsState) :=
  match findOpen fs sector with
  | some p => do
      let fs ← inodeReopen fs p
      return (p, fs)
  | none => do
      let data ← blockRead fs.dev sector
      return (fs.nextAddr, fs.pushInode sector data)

section FreeMap

variable (writeAt : FsState → ℕ → (ℕ → UInt8) → ℤ → ℕ → Except Fault (ℤ × FsState))

/-- `bitmap_write (free_map, free_map_file)`, over the `inode_write_at` it ends in. -/
def bitmapWriteWith (fs : FsState) (f : ℕ) : Except Fault (Bool × FsState) := do
  let file ← fs.file f
  let size : ℤ := byteCnt fs.freeMap.bitCnt
  let (written, fs) ← writeAt fs file.inode (bitmapByte fs.freeMap) size 0
  return (decide (written = size), fs)

/-- The second half of `free_map_allocate`: write the free map out if its file is
open, and take the bits back if that fails. -/
def commitAllocation (fs : FsState) (sector cnt : ℕ) : Except Fault (Option ℕ × FsState) :=
  match fs.freeMapFile with
  | none => .ok (some sector, fs)
  | some f => do
      let (success, fs) ← bitmapWriteWith writeAt fs f
      if success then
        return (some sector, fs)
      else do
        let freeMap ← bitmapSetMultiple fs.freeMap sector cnt false
        return (none, fs.setMap freeMap)

/-- `free_map_allocate`.  The sector is returned instead of being stored through
`sectorp`; `none` is a false result. -/
def freeMapAllocateWith (fs : FsState) (cnt : ℕ) : Except Fault (Option ℕ × FsState) :=
  match bitmapScan fs.freeMap 0 cnt false with
  | none => .ok (none, fs)
  | some sector =>
      commitAllocation writeAt (fs.setMap (fs.freeMap.setRange sector cnt true)) sector cnt

/-- The second half of `free_map_release`. -/
def commitRelease (fs : FsState) : Except Fault FsState :=
  match fs.freeMapFile with
  | none => .error .danglingPointer
  | some f => do
      let (_, fs) ← bitmapWriteWith writeAt fs f
      return fs

/-- `free_map_release`. -/
def freeMapReleaseWith (fs : FsState) (sector cnt : ℕ) : Except Fault FsState := do
  let all ← bitmapAll fs.freeMap sector cnt
  if all then do
    let freeMap ← bitmapSetMultiple fs.freeMap sector cnt false
    commitRelease writeAt (fs.setMap freeMap)
  else .error (.assertFailed .freeMapRelease)

end FreeMap

end Pintos
