import Pintos.FileSys.State

/-!
# Inodes of `fs_PintOS`

`fs_PintOS/filesys/inode.c`: an inode has 122 direct pointers, one indirect block
of 128 pointers and one doubly indirect block of 128 × 128 pointers, so a file
has at most 16634 sectors (8516608 bytes).

`struct inode_disk` as 128 words: `length`, `magic`, `is_dir` (one byte and
padding), `parent_dir`, `direct_block_sectors[122]`, `indirect_block_sector`,
`doubly_indirect_block_sector`.

`inode_write_at` may call `extend_file`, which calls `free_map_allocate`, which
writes the free map through `inode_write_at` again.  The free map's own file has
its final length from the start and never needs `extend_file`; if it did, the
nested call would acquire `extend_lock` a second time and fail the assertion of
`lock_acquire`.  That is how the recursion is tied: `inodeWriteAtWith` takes the
growth step as a parameter, and the free map uses it with one that faults.

Array indices are checked: an index outside its array is a fault, whatever the
bytes next to the array are.
-/

namespace Pintos

open Lib Lib.Block

/-! ## `struct inode_disk` -/

/-- `length`. -/
def inodeLength (d : Sector) : ℤ := toInt32 (wordAt d 0)

/-- Store `length`. -/
def setLength (d : Sector) (len : ℤ) : Sector := setWord d 0 (ofInt32 len)

/-- `direct_block_sectors[i]`. -/
def directPtr (d : Sector) (i : ℕ) : ℕ := wordAt d (4 + i)

/-- `indirect_block_sector`. -/
def indirectPtr (d : Sector) : ℕ := wordAt d 126

/-- `doubly_indirect_block_sector`. -/
def doublyPtr (d : Sector) : ℕ := wordAt d 127

/-- `bytes_to_sectors`. -/
def bytesToSectors (size : ℤ) : ℕ := ofInt32 ((wrap32 (size + 511)).tdiv 512)

/-- `ERR_VALUE`, which `byte_to_sector` returns for an offset outside the inode. -/
def errValue : ℕ := 99999999

/-- `byte_to_sector`. -/
def byteToSector (dev : Device) (d : Sector) (pos : ℕ) : Except Fault ℕ :=
  let location := pos / 512
  if (pos : ℤ) < inodeLength d then
    if location < 122 then
      .ok (directPtr d location)
    else if location < 122 + 128 then do
      let firstLvl ← blockRead dev (indirectPtr d)
      return wordAt firstLvl (location - 122)
    -- the number of the sector is compared with the length in bytes
    else if (location : ℤ) < inodeLength d then do
      let firstLvlOffset := (location - 122 - 128) % 128
      let secondLvlOffset := (location - 122 - 128) / 128
      let secondLvl ← blockRead dev (doublyPtr d)
      if 128 ≤ secondLvlOffset then
        .error (.arrayIndex secondLvlOffset)
      else do
        let firstLvl ← blockRead dev (wordAt secondLvl secondLvlOffset)
        return wordAt firstLvl firstLvlOffset
    else .ok errValue
  else .ok errValue

/-! ## Reading and writing -/

/-- `inode_read_at`: the bytes read; their number is the return value. -/
def inodeReadAt (fs : FsState) (p : ℕ) (size : ℤ) (offset : ℕ) :
    Except Fault (List UInt8) := do
  let inode ← fs.inode p
  let len := inodeLength inode.data
  if (offset : ℤ) > len then
    return []
  else
    readLoop fs.dev (byteToSector fs.dev inode.data) len size.toNat size.toNat offset

/-- The test in `inode_write_at` for a write past the allocated blocks. -/
def pastBlocks (len size : ℤ) (offset : ℕ) : Prop :=
  let last := (wrap32 (offset + size - 1)).tdiv 512
  last > len.tdiv 512 ∨ (last = 0 ∧ len = 0)

instance (len size : ℤ) (offset : ℕ) : Decidable (pastBlocks len size offset) :=
  inferInstanceAs (Decidable (_ ∨ _))

/-- The growth part of `inode_write_at`, over `extend_file`. -/
def growWith (extend : FsState → ℕ → ℤ → ℕ → Except Fault FsState)
    (fs : FsState) (p : ℕ) (size : ℤ) (offset : ℕ) : Except Fault FsState := do
  let inode ← fs.inode p
  let len := inodeLength inode.data
  if pastBlocks len size offset then
    extend fs p size offset
  else if wrap32 (offset + size) > len then do
    -- past the end of file, but inside the allocated blocks
    let data := setLength inode.data (wrap32 (offset + size))
    let dev ← blockWrite fs.dev inode.sector data
    return (fs.setInode p { inode with data }).setDev dev
  else
    return fs

/-- `inode_write_at`, over `extend_file`. -/
def inodeWriteAtWith (extend : FsState → ℕ → ℤ → ℕ → Except Fault FsState)
    (fs : FsState) (p : ℕ) (buffer : ℕ → UInt8) (size : ℤ) (offset : ℕ) :
    Except Fault (ℤ × FsState) := do
  let inode ← fs.inode p
  if inode.denyWriteCnt ≠ 0 then
    return (0, fs)
  else do
    let fs ← growWith extend fs p size offset
    let inode ← fs.inode p
    let (written, dev) ← writeLoop (fun dev => byteToSector dev inode.data)
      (inodeLength inode.data) buffer size.toNat size.toNat offset 0 fs.dev
    return (written, fs.setDev dev)

/-- `inode_write_at` on the free map's file: growing it would acquire
`extend_lock` again. -/
def freeMapWriteAt : FsState → ℕ → (ℕ → UInt8) → ℤ → ℕ → Except Fault (ℤ × FsState) :=
  inodeWriteAtWith fun _ _ _ _ => .error (.assertFailed .lockAcquire)

/-- `free_map_allocate`. -/
def freeMapAllocate : FsState → ℕ → Except Fault (Option ℕ × FsState) :=
  freeMapAllocateWith freeMapWriteAt

/-- `free_map_release`. -/
def freeMapRelease : FsState → ℕ → ℕ → Except Fault FsState :=
  freeMapReleaseWith freeMapWriteAt

/-- `free_map_allocate (1, &word)`, where `word` is word `j` of a block in memory:
on failure the word keeps its value. -/
def allocateInto (fs : FsState) (block : Sector) (j : ℕ) : Except Fault (Sector × FsState) := do
  let (r, fs) ← freeMapAllocate fs 1
  return (match r with | some s => setWord block j s | none => block, fs)

/-- `block_write (fs_device, sector, buffer)`. -/
def FsState.write (fs : FsState) (sector : ℕ) (buffer : Sector) : Except Fault FsState := do
  let dev ← blockWrite fs.dev sector buffer
  return fs.setDev dev

/-! ## Growing a file -/

/-- The first-level indirect block of an inode being grown: a new zeroed block if
there is none yet, else the block on disk.  Returns the block in memory, the
inode's data and the state. -/
def loadIndirect (fs : FsState) (p : ℕ) (inode : Inode) :
    Except Fault (Sector × Sector × FsState) :=
  if indirectPtr inode.data = 0 then do
    let (data, fs) ← allocateInto fs inode.data 126
    let fs := fs.setInode p { inode with data }
    let fs ← fs.write (indirectPtr data) zeros
    return (zeros, data, fs)
  else do
    let firstLvl ← blockRead fs.dev (indirectPtr inode.data)
    return (firstLvl, inode.data, fs)

/-- The allocation of one iteration of `extend_file`.  The level is chosen by the
running `length`, the slot by `nextIndex`; in the doubly indirect range nothing
is allocated. -/
def extendBlock (fs : FsState) (p : ℕ) (nextIndex : ℤ) : Except Fault FsState := do
  let inode ← fs.inode p
  let len := inodeLength inode.data
  -- the length of the file, not the index, selects the kind of pointer
  if len < 512 * 122 then
    if nextIndex < 0 ∨ 122 ≤ nextIndex then
      .error (.arrayIndex nextIndex)
    else do
      let (data, fs) ← allocateInto fs inode.data (4 + nextIndex.toNat)
      let fs := fs.setInode p { inode with data }
      fs.write (directPtr data nextIndex.toNat) zeros
  else if len < 512 * (122 + 128) then do
    let (firstLvl, data, fs) ← loadIndirect fs p inode
    let slot := nextIndex - 122
    if slot < 0 ∨ 128 ≤ slot then
      .error (.arrayIndex slot)
    else do
      let (firstLvl, fs) ← allocateInto fs firstLvl slot.toNat
      let fs ← fs.write (wordAt firstLvl slot.toNat) zeros
      fs.write (indirectPtr data) firstLvl
  else
    return fs

/-- The running `length` after one iteration of `extend_file`. -/
def runningLength (len size : ℤ) (offset : ℕ) : ℤ :=
  if offset > len ∧ wrap32 (offset + size - len) > 511 then wrap32 (len + 512)
  else wrap32 (size + offset)

/-- The loop of `extend_file`. -/
def extendLoop (p : ℕ) (size : ℤ) (offset : ℕ) : ℕ → ℤ → FsState → Except Fault FsState
  | 0, _, fs => .ok fs
  | sectorsToAdd + 1, nextIndex, fs => do
      let fs ← extendBlock fs p nextIndex
      let inode ← fs.inode p
      let len := runningLength (inodeLength inode.data) size offset
      let fs := fs.setInode p { inode with data := setLength inode.data len }
      extendLoop p size offset sectorsToAdd (nextIndex + 1) fs

/-- `sectors_to_add` of `extend_file`. -/
def sectorsToAdd (len size : ℤ) (offset : ℕ) : ℕ :=
  let more := wrap32 (offset + size - len)
  ofInt32 (if more.tmod 512 = 0 then more.tdiv 512 else more.tdiv 512 + 1)

/-- `extend_file`. -/
def extendFile (fs : FsState) (p : ℕ) (size : ℤ) (offset : ℕ) : Except Fault FsState := do
  let inode ← fs.inode p
  let len := inodeLength inode.data
  let fs ← extendLoop p size offset (sectorsToAdd len size offset) (len.tdiv 512 + 1) fs
  let inode ← fs.inode p
  fs.write inode.sector inode.data

/-- `inode_write_at`. -/
def inodeWriteAt : FsState → ℕ → (ℕ → UInt8) → ℤ → ℕ → Except Fault (ℤ × FsState) :=
  inodeWriteAtWith extendFile

/-! ## Creating an inode -/

/-- Allocate a zeroed sector into each of at most `k` words of `block` from word
`j` on, as long as `remaining` is positive.  The loop over the direct pointers
and the loop of `create_indirect`. -/
def fillPointers : ℕ → ℕ → ℕ → Sector → FsState → Except Fault (ℕ × Sector × FsState)
  | 0, _, remaining, block, fs => .ok (remaining, block, fs)
  | k + 1, j, remaining, block, fs =>
      if remaining = 0 then .ok (remaining, block, fs) else do
        let (block, fs) ← allocateInto fs block j
        let fs ← fs.write (wordAt block j) zeros
        fillPointers k (j + 1) (remaining - 1) block fs

/-- `create_indirect`, on a zeroed block. -/
def createIndirect (remaining : ℕ) (fs : FsState) : Except Fault (ℕ × Sector × FsState) :=
  fillPointers 128 0 remaining zeros fs

/-- The single indirect part of `inode_create`. -/
def createFirstLevel (remaining : ℕ) (d : Sector) (fs : FsState) :
    Except Fault (ℕ × Sector × FsState) :=
  if remaining = 0 then .ok (remaining, setWord d 126 0, fs) else do
    let (d, fs) ← allocateInto fs d 126
    let fs ← fs.write (indirectPtr d) zeros
    let (remaining, firstLvl, fs) ← createIndirect remaining fs
    let fs ← fs.write (indirectPtr d) firstLvl
    return (remaining, d, fs)

/-- The loop over the doubly indirect block in `inode_create`. -/
def fillSecondLevel : ℕ → ℕ → ℕ → Sector → FsState → Except Fault (ℕ × Sector × FsState)
  | 0, _, remaining, secondLvl, fs => .ok (remaining, secondLvl, fs)
  | k + 1, index, remaining, secondLvl, fs =>
      if remaining = 0 then .ok (remaining, secondLvl, fs) else do
        let (secondLvl, fs) ← allocateInto fs secondLvl index
        let fs ← fs.write (wordAt secondLvl index) zeros
        let (remaining, firstLvl, fs) ← createIndirect remaining fs
        let fs ← fs.write (wordAt secondLvl index) firstLvl
        fillSecondLevel k (index + 1) remaining secondLvl fs

/-- The doubly indirect part of `inode_create`. -/
def createSecondLevel (remaining : ℕ) (d : Sector) (fs : FsState) :
    Except Fault (Sector × FsState) :=
  if remaining = 0 then .ok (setWord d 127 0, fs) else do
    let (d, fs) ← allocateInto fs d 127
    let fs ← fs.write (doublyPtr d) zeros
    let (_, secondLvl, fs) ← fillSecondLevel 128 0 remaining zeros fs
    let fs ← fs.write (doublyPtr d) secondLvl
    return (d, fs)

/-- `INODE_MAGIC`. -/
def inodeMagic : ℕ := 0x494e4f44

/-- The header of a new `struct inode_disk`: `length`, `magic`, `is_dir` and
`parent_dir`, all pointers null. -/
def newInodeDisk (length : ℤ) (isDir : Bool) (parent : ℕ) : Sector :=
  ofWords fun j =>
    if j = 0 then ofInt32 length else if j = 1 then inodeMagic
    else if j = 2 then isDir.toNat else if j = 3 then parent else 0

/-- `inode_create`.  The result of every `free_map_allocate` is ignored, so it
always returns true. -/
def inodeCreate (fs : FsState) (sector : ℕ) (length : ℤ) (isDir : Bool) :
    Except Fault (Bool × FsState) :=
  if length < 0 then .error (.assertFailed .inodeCreate) else do
    let d := newInodeDisk length isDir fs.currentWorkingDir
    let (remaining, d, fs) ← fillPointers 122 4 (bytesToSectors length) d fs
    let (remaining, d, fs) ← createFirstLevel remaining d fs
    let (d, fs) ← createSecondLevel remaining d fs
    let fs ← fs.write sector d
    return (true, fs)

/-! ## Closing an inode -/

/-- The loop of `inode_close` over the direct pointers: stops at a null pointer. -/
def releaseDirect (d : Sector) (sectorsToFree : ℕ) :
    ℕ → ℕ → FsState → Except Fault (ℕ × FsState)
  | 0, freed, fs => .ok (freed, fs)
  | k + 1, freed, fs =>
      if freed < sectorsToFree ∧ directPtr d freed ≠ 0 then do
        let fs ← freeMapRelease fs (directPtr d freed) 1
        releaseDirect d sectorsToFree k (freed + 1) fs
      else .ok (freed, fs)

/-- The loop of `free_indirect_block`.  Both `index` and `sectors_freed` advance,
and their sum is compared with `sectors_to_free`. -/
def freeIndirectLoop (firstLvl : Sector) (sectorsToFree : ℕ) :
    ℕ → ℕ → ℕ → FsState → Except Fault (ℕ × FsState)
  | 0, _, freed, fs => .ok (freed, fs)
  | k + 1, index, freed, fs =>
      if index + freed < sectorsToFree then do
        let fs ← freeMapRelease fs (wordAt firstLvl index) 1
        freeIndirectLoop firstLvl sectorsToFree k (index + 1) (freed + 1) fs
      else .ok (freed, fs)

/-- `free_indirect_block`. -/
def freeIndirectBlock (freed sectorsToFree : ℕ) (firstLvl : Sector) (fs : FsState) :
    Except Fault (ℕ × FsState) :=
  freeIndirectLoop firstLvl sectorsToFree 128 0 freed fs

/-- The loop of `inode_close` over the doubly indirect block. -/
def releaseSecondLevel (secondLvl : Sector) (sectorsToFree : ℕ) :
    ℕ → ℕ → ℕ → FsState → Except Fault (ℕ × FsState)
  | 0, _, freed, fs => .ok (freed, fs)
  | k + 1, index, freed, fs =>
      if freed < sectorsToFree then do
        let firstLvl ← blockRead fs.dev (wordAt secondLvl index)
        let (freed, fs) ← freeIndirectBlock freed sectorsToFree firstLvl fs
        releaseSecondLevel secondLvl sectorsToFree k (index + 1) freed fs
      else .ok (freed, fs)

/-- The single indirect part of the release in `inode_close`. -/
def releaseFirst (d : Sector) (sectorsToFree freed : ℕ) (fs : FsState) :
    Except Fault (ℕ × FsState) :=
  if freed < sectorsToFree ∧ 122 ≤ freed ∧ indirectPtr d ≠ 0 then do
    let firstLvl ← blockRead fs.dev (indirectPtr d)
    freeIndirectBlock freed sectorsToFree firstLvl fs
  else .ok (freed, fs)

/-- The doubly indirect part of the release in `inode_close`. -/
def releaseSecond (d : Sector) (sectorsToFree freed : ℕ) (fs : FsState) :
    Except Fault (ℕ × FsState) :=
  if freed < sectorsToFree ∧ 122 + 128 ≤ freed ∧ doublyPtr d ≠ 0 then do
    let secondLvl ← blockRead fs.dev (doublyPtr d)
    releaseSecondLevel secondLvl sectorsToFree 128 0 freed fs
  else .ok (freed, fs)

/-- The release of a removed inode's sectors in `inode_close`. -/
def releaseBlocks (fs : FsState) (sector : ℕ) (d : Sector) : Except Fault FsState := do
  let sectorsToFree := bytesToSectors (inodeLength d)
  let (freed, fs) ← releaseDirect d sectorsToFree 122 0 fs
  let (freed, fs) ← releaseFirst d sectorsToFree freed fs
  let (_, fs) ← releaseSecond d sectorsToFree freed fs
  freeMapRelease fs sector 1

/-- `inode_close` of the last opener. -/
def inodeFree (fs : FsState) (p : ℕ) (inode : Inode) : Except Fault FsState :=
  if inode.removed then do
    let fs ← releaseBlocks (fs.unlistInode p) inode.sector inode.data
    return fs.freeInode p
  else
    return (fs.unlistInode p).freeInode p

/-- `inode_close`. -/
def inodeClose (fs : FsState) (p : ℕ) : Except Fault FsState := do
  let inode ← fs.inode p
  if inode.openCnt - 1 = 0 then
    inodeFree fs p inode
  else
    return fs.setInode p { inode with openCnt := inode.openCnt - 1 }

/-- `inode_remove`. -/
def inodeRemove (fs : FsState) (p : ℕ) : Except Fault FsState := do
  let inode ← fs.inode p
  return fs.setInode p { inode with removed := true }

/-- `inode_deny_write`. -/
def inodeDenyWrite (fs : FsState) (p : ℕ) : Except Fault FsState := do
  let inode ← fs.inode p
  if inode.denyWriteCnt + 1 ≤ inode.openCnt then
    return fs.setInode p { inode with denyWriteCnt := inode.denyWriteCnt + 1 }
  else .error (.assertFailed .inodeDenyWrite)

/-- `inode_allow_write`. -/
def inodeAllowWrite (fs : FsState) (p : ℕ) : Except Fault FsState := do
  let inode ← fs.inode p
  if 0 < inode.denyWriteCnt ∧ inode.denyWriteCnt ≤ inode.openCnt then
    return fs.setInode p { inode with denyWriteCnt := inode.denyWriteCnt - 1 }
  else .error (.assertFailed .inodeAllowWrite)

end Pintos
