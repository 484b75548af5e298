import Pintos.FileSys.Filesys
import Pintos.FileSys.Ustar

/-!
# `append` and `extract`

`filesys/fsutil.c`: the two kernel actions that move files between the file system and a ustar
archive on the scratch device.  Each keeps its own sector cursor in a static variable, which is
an argument and a result here.  Lines printed on the console are left out.

`fsutil_append` ends with the end-of-archive marker, for which it has one buffer of zeros: it
writes `buffer` and then `buffer + 1`, both to the sector of the cursor.  The last byte of the
second write is the one that follows the buffer in memory; `next` stands for it.

`fsutil_extract` reads headers until it finds one of zeros.  A sector past the end of the device
cannot be read, so that the number of iterations is bounded by the size of the device.
-/

namespace Pintos

open Lib Lib.Block

/-- Why `append` or `extract` panics. -/
inductive FsutilPanic where
  /-- "couldn't allocate buffer" -/
  | allocate
  /-- "%s: open failed" -/
  | openFailed (fileName : CString)
  /-- "%s: name too long for ustar format" -/
  | nameTooLong (fileName : CString)
  /-- "%s: out of space on scratch device" -/
  | outOfSpace (fileName : CString)
  /-- "%s: read failed with %d bytes unread" -/
  | readFailed (fileName : CString) (unread : ℕ)
  /-- "bad ustar header in sector %d (%s)" -/
  | badHeader (sector : ℕ) (error : UstarError)
  /-- "%s: create failed" -/
  | createFailed (fileName : CString)
  /-- "%s: write failed with %d bytes unwritten" -/
  | writeFailed (fileName : CString) (unwritten : ℕ)
  /-- The kernel stops in a function below. -/
  | fault (f : Fault)
deriving DecidableEq, Repr

/-- A call of the file system or of the device. -/
def kernel {α : Type} : Except Fault α → Except FsutilPanic α
  | .ok a => .ok a
  | .error f => .error (.fault f)

@[simp] theorem kernel_ok {α : Type} (a : α) : kernel (.ok a) = .ok a := rfl

/-! ## `fsutil_append` -/

/-- The buffer after `chunk_size` bytes were read into it and the rest was cleared. -/
def padded (bytes : List UInt8) : Sector := ofFn fun k => bytes.getD k 0

/-- The sector that `buffer + 1` leads to, if `buffer` is all zeros. -/
def shiftedMarker (next : UInt8) : Sector := ofFn fun k => if k + 1 < 512 then 0 else next

/-- The copying loop of `fsutil_append`; `fuel` bounds the remaining `size`. -/
def appendLoop (fileName : CString) (src : ℕ) :
    ℕ → ℕ → FsState → Device → ℕ → Except FsutilPanic (FsState × Device × ℕ)
  | 0, _, fs, dst, sector => .ok (fs, dst, sector)
  | fuel + 1, size, fs, dst, sector =>
      if size = 0 then .ok (fs, dst, sector)
      else if dst.size ≤ sector then .error (.outOfSpace fileName)
      else do
        let chunkSize := min size 512
        let (bytes, fs) ← kernel (fileRead fs src chunkSize)
        if bytes.length ≠ chunkSize then .error (.readFailed fileName size)
        else do
          let dst ← kernel (blockWrite dst sector (padded bytes))
          appendLoop fileName src fuel (size - chunkSize) fs dst (sector + 1)

/-- The file system, the scratch device and the cursor of an action. -/
structure Fsutil where
  fs : FsState
  scratch : Device
  sector : ℕ

/-- `fsutil_append`: `next` is the byte after the buffer that `malloc` returned, if it did. -/
def fsutilAppend (s : Fsutil) (fileName : CString) (next : Option UInt8) :
    Except FsutilPanic Fsutil :=
  match next with
  | none => .error .allocate
  | some next => do
      let (r, fs) ← kernel (filesysOpen s.fs fileName)
      match r with
      | none => .error (.openFailed fileName)
      | some src => do
          let size ← kernel (fileLength fs src)
          match ustarMakeHeader fileName .regular size with
          | none => .error (.nameTooLong fileName)
          | some header => do
              let dst ← kernel (blockWrite s.scratch s.sector header)
              let (fs, dst, sector) ←
                appendLoop fileName src size.toNat size.toNat fs dst (s.sector + 1)
              -- the end-of-archive marker
              let dst ← kernel (blockWrite dst sector zeros)
              let dst ← kernel (blockWrite dst sector (shiftedMarker next))
              let fs ← kernel (fileClose fs src)
              return ⟨fs, dst, sector⟩

/-- Successive calls of `fsutil_append`. -/
def appendAll : Fsutil → List (CString × UInt8) → Except FsutilPanic Fsutil
  | s, [] => .ok s
  | s, (fileName, next) :: rest => do
      let s ← fsutilAppend s fileName (some next)
      appendAll s rest

/-! ## `fsutil_extract` -/

/-- The copying loop of `fsutil_extract`; `fuel` bounds the remaining `size`. -/
def extractCopy (src : Device) (fileName : CString) (dst : ℕ) :
    ℕ → ℕ → FsState → ℕ → Except FsutilPanic (FsState × ℕ)
  | 0, _, fs, sector => .ok (fs, sector)
  | fuel + 1, size, fs, sector =>
      if size = 0 then .ok (fs, sector)
      else do
        let chunkSize := min size 512
        let data ← kernel (blockRead src sector)
        let (written, fs) ← kernel (fileWrite fs dst (byteAt data) chunkSize)
        if written ≠ chunkSize then .error (.writeFailed fileName size)
        else extractCopy src fileName dst fuel (size - chunkSize) fs (sector + 1)

/-- What `fsutil_extract` does for a regular file whose header was read. -/
def extractFile (src : Device) (fileName : CString) (size : ℕ) (fs : FsState) (sector : ℕ) :
    Except FsutilPanic (FsState × ℕ) := do
  let (created, fs) ← kernel (filesysCreate fs fileName size false)
  if created then do
    let (r, fs) ← kernel (filesysOpen fs fileName)
    match r with
    | none => .error (.openFailed fileName)
    | some dst => do
        let (fs, sector) ← extractCopy src fileName dst size size fs sector
        let fs ← kernel (fileClose fs dst)
        return (fs, sector)
  else .error (.createFailed fileName)

/-- One iteration of `fsutil_extract`; the Boolean is false at the end of the archive. -/
def extractEntry (src : Device) (fs : FsState) (sector : ℕ) :
    Except FsutilPanic (Bool × FsState × ℕ) := do
  let header ← kernel (blockRead src sector)
  match ustarParseHeader header with
  | .error e => .error (.badHeader sector e)
  | .ok .eof => return (false, fs, sector + 1)
  | .ok (.file _ .directory _) => return (true, fs, sector + 1)
  | .ok (.file fileName .regular size) => do
      let (fs, sector) ← extractFile src fileName size fs (sector + 1)
      return (true, fs, sector)

/-- The loop of `fsutil_extract`. -/
def extractLoop (src : Device) : ℕ → FsState → ℕ → Except FsutilPanic (FsState × ℕ)
  | 0, _, sector => .error (.fault (.accessPastEnd sector))
  | n + 1, fs, sector => do
      let (more, fs, sector) ← extractEntry src fs sector
      if more then extractLoop src n fs sector
      else return (fs, sector)

/-- `fsutil_extract`: `allocated` says whether `malloc` returned both buffers. -/
def fsutilExtract (s : Fsutil) (allocated : Bool) : Except FsutilPanic Fsutil :=
  if allocated then do
    let (fs, sector) ← extractLoop s.scratch (s.scratch.size + 1) s.fs s.sector
    let src ← kernel (blockWrite s.scratch 0 zeros)
    let src ← kernel (blockWrite src 1 zeros)
    return ⟨fs, src, sector⟩
  else .error .allocate

end Pintos
