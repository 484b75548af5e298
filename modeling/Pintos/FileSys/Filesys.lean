import Pintos.FileSys.Directory

/-!
# The file system

`filesys/filesys.c` and the rest of `filesys/free-map.c`: bringing the file system
up, with or without formatting the device, shutting it down, and creating, opening
and removing files by name.  All names are looked up in the root directory.
-/

namespace Pintos

open Lib Lib.Block

/-! ## The free map's file -/

/-- `inode_init`, `free_map_init` and the working directory, on a machine that has
just started; `junk` is what `malloc` left in the free map's last element. -/
def freeMapInit (dev : Device) (junk : ℕ → Bool) : FsState where
  dev := dev
  freeMap := bitmapMark (bitmapMark (bitmapCreate dev.size junk) freeMapSector) rootDirSector
  freeMapFile := none
  inodes := fun _ => none
  files := fun _ => none
  openInodes := []
  nextAddr := 1
  currentWorkingDir := rootDirSector

/-- `file_open (inode_open (FREE_MAP_SECTOR))`, stored in `free_map_file`. -/
def openMapFile (fs : FsState) : Except Fault (ℕ × FsState) := do
  let (p, fs) ← inodeOpen fs freeMapSector
  let (f, fs) := fileOpen fs p
  return (f, fs.setMapFile f)

/-- `free_map_create`. -/
def freeMapCreate (fs : FsState) : Except Fault FsState := do
  let (success, fs) ← inodeCreate fs freeMapSector (byteCnt fs.freeMap.bitCnt) false
  if success then do
    let (f, fs) ← openMapFile fs
    let (written, fs) ← bitmapWriteWith inodeWriteAt fs f
    if written then return fs else .error (.assertFailed .freeMapCreate)
  else .error (.assertFailed .freeMapCreate)

/-- `bitmap_read (free_map, free_map_file)`. -/
def bitmapRead (fs : FsState) (f : ℕ) : Except Fault (Bool × FsState) :=
  if fs.freeMap.bitCnt = 0 then .ok (true, fs) else do
    let file ← fs.file f
    let bytes ← inodeReadAt fs file.inode (byteCnt fs.freeMap.bitCnt) 0
    return (decide (bytes.length = byteCnt fs.freeMap.bitCnt),
      fs.setMap (bitmapOfBytes fs.freeMap.bitCnt fun k => bytes.getD k (bitmapByte fs.freeMap k)))

/-- `free_map_open`. -/
def freeMapOpen (fs : FsState) : Except Fault FsState := do
  let (f, fs) ← openMapFile fs
  let (success, fs) ← bitmapRead fs f
  if success then return fs else .error (.assertFailed .freeMapOpen)

/-- `free_map_close`. -/
def freeMapClose (fs : FsState) : Except Fault FsState :=
  match fs.freeMapFile with
  | none => .ok fs
  | some f => fileClose fs f

/-! ## Bringing the file system up and down -/

/-- `do_format`. -/
def doFormat (fs : FsState) : Except Fault FsState := do
  let fs ← freeMapCreate fs
  let (success, fs) ← dirCreate fs rootDirSector 16 rootDirSector
  if success then freeMapClose fs else .error (.assertFailed .dirCreate)

/-- `filesys_init`. -/
def filesysInit (dev : Device) (junk : ℕ → Bool) (format : Bool) : Except Fault FsState :=
  if format then do
    let fs ← doFormat (freeMapInit dev junk)
    freeMapOpen fs
  else
    freeMapOpen (freeMapInit dev junk)

/-- `filesys_done`. -/
def filesysDone (fs : FsState) : Except Fault FsState := freeMapClose fs

/-! ## Files by name -/

/-- The middle of `filesys_create`, with the root directory open at `p`: the result
and the sector that was allocated, 0 if there is none. -/
def createIn (fs : FsState) (p : ℕ) (name : CString) (initialSize : ℤ) (isDir : Bool) :
    Except Fault (Bool × ℕ × FsState) := do
  let (r, fs) ← freeMapAllocate fs 1
  match r with
  | none => return (false, 0, fs)
  | some inodeSector => do
      let (success, fs) ← inodeCreate fs inodeSector initialSize isDir
      if success then do
        let (added, fs) ← dirAdd fs p name inodeSector
        return (added, inodeSector, fs)
      else
        return (false, inodeSector, fs)

/-- The end of `filesys_create`: a sector that is not used after all is released, and
the root directory is closed. -/
def finishCreate (fs : FsState) (p : ℕ) (success : Bool) (inodeSector : ℕ) :
    Except Fault (Bool × FsState) :=
  if !success ∧ inodeSector ≠ 0 then do
    let fs ← freeMapRelease fs inodeSector 1
    let fs ← inodeClose fs p
    return (success, fs)
  else do
    let fs ← inodeClose fs p
    return (success, fs)

/-- `filesys_create`. -/
def filesysCreate (fs : FsState) (name : CString) (initialSize : ℤ) (isDir : Bool) :
    Except Fault (Bool × FsState) :=
  if name = [] then .ok (false, fs) else do
    let (p, fs) ← inodeOpen fs rootDirSector
    let (success, inodeSector, fs) ← createIn fs p name initialSize isDir
    finishCreate fs p success inodeSector

/-- `filesys_open`: the new file, if there is one of that name. -/
def filesysOpen (fs : FsState) (name : CString) : Except Fault (Option ℕ × FsState) := do
  let (p, fs) ← inodeOpen fs rootDirSector
  let (r, fs) ← dirLookup fs p name
  let fs ← inodeClose fs p
  match r with
  | none => return (none, fs)
  | some q => do
      let (f, fs) := fileOpen fs q
      return (some f, fs)

/-- `filesys_remove`. -/
def filesysRemove (fs : FsState) (name : CString) : Except Fault (Bool × FsState) := do
  let (p, fs) ← inodeOpen fs rootDirSector
  let (success, fs) ← dirRemove fs p name
  let fs ← inodeClose fs p
  return (success, fs)

/-- `filesys_mkdir`. -/
def filesysMkdir (fs : FsState) (pathName : CString) : Except Fault (Bool × FsState) :=
  filesysCreate fs pathName 0 true

end Pintos
