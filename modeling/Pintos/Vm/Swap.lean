import Pintos.FileSys.Bitmap

/-!
# Supplemental pages and swap slots

`vm/page.c` and `vm/swap.c` of `vm_PintOS`.  The swap device is cut into slots of
eight sectors, one page each; `swap_bitmap` has a bit per slot, and the entry of a
page in the supplemental table says where the page is.

`store_swap` and `load_swap` take `swap_lock` around their work.  The work itself is
`storeSlot` and `loadSlot`; the functions with their locks are in `Pintos.Vm.Kernel`.
-/

namespace Pintos.Vm

open Lib Lib.Block

/-- Kernel memory, by address. -/
abbrev Memory : Type := ℕ → UInt8

/-! ## The supplemental table -/

/-- `location`. -/
inductive Location where
  | inMemory
  | inSwap
  | inDisk
  | allZero
deriving DecidableEq, Repr

/-- `struct sup_page`. -/
structure SupPage where
  swapIndex : ℤ
  vAddr : ℕ
  file : ℕ
  offset : ℤ
  readBytes : ℕ
  zeroBytes : ℕ
  writable : Bool
  pageLocation : Location

/-- The entry `create_sup_page` makes. -/
def newSupPage (file : ℕ) (offset : ℤ) (addr readBytes zeroBytes : ℕ) (writable : Bool) : SupPage :=
  ⟨-1, addr, file, offset, readBytes, zeroBytes, writable, .inMemory⟩

/-- `add_sup_page`. -/
def addSupPage (table : List SupPage) (page : SupPage) : List SupPage := table ++ [page]

/-- `get_sup_page`.  The function walks a copy of the `struct list`, and the last entry's
`next` is the tail of the original, which is not `list_end` of the copy: a walk that
finds nothing leaves the table and never returns a null pointer. -/
def getSupPage (table : List SupPage) (addr : ℕ) : Except Fault SupPage :=
  match table.find? (·.vAddr = addr) with
  | some page => .ok page
  | none => .error .danglingPointer

/-- `change_page_location`. -/
def changePageLocation (addr : ℕ) (t : Location) (swapIndex : ℤ) :
    List SupPage → Except Fault (List SupPage)
  | [] => .error .danglingPointer
  | page :: rest =>
      if page.vAddr = addr then .ok ({ page with pageLocation := t, swapIndex } :: rest)
      else do
        let rest ← changePageLocation addr t swapIndex rest
        return page :: rest

/-! ## The swap device -/

/-- The globals of `vm/swap.c`.  `role` is what `block_get_role (BLOCK_SWAP)` returns. -/
structure Swap where
  role : Option Device
  isInitialized : Bool
  swapBitmap : Bitmap

/-- `NUM_SECTORS_PER_PAGE`. -/
def numSectorsPerPage : ℕ := 8

/-- `swap_init`; `junk` is what `malloc` left in the bitmap.  The PANIC when there is no memory for
the bitmap is left out. -/
def swapInit (junk : ℕ → Bool) (s : Swap) : Except Fault Swap :=
  match s.role with
  | none => .error (.assertFailed .swapInit)
  | some dev => .ok { s with swapBitmap := bitmapCreate (dev.size / numSectorsPerPage) junk }

/-- The first lines of `store_swap`. -/
def ensureInit (junk : ℕ → Bool) (s : Swap) : Except Fault Swap :=
  if s.isInitialized then .ok s
  else do
    let s ← swapInit junk s
    return { s with isInitialized := true }

/-- `block_device`, once it is known. -/
def Swap.device (s : Swap) : Except Fault Device :=
  match s.role with
  | some dev => .ok dev
  | none => .error .danglingPointer

/-- The sector at address `addr` of the memory. -/
def sectorAt (mem : Memory) (addr : ℕ) : Sector := ofFn fun k => mem (addr + k)

/-- The memory with a sector copied to address `addr`. -/
def copySector (mem : Memory) (addr : ℕ) (d : Sector) : Memory :=
  fun a => if addr ≤ a ∧ a < addr + 512 then byteAt d (a - addr) else mem a

/-- The loop of `store_swap`, from sector `i` of the slot on. -/
def writeSlot (mem : Memory) (uaddr base : ℕ) : ℕ → ℕ → Device → Except Fault Device
  | 0, _, dev => .ok dev
  | n + 1, i, dev => do
      let dev ← blockWrite dev ((base + i) % 2 ^ 32) (sectorAt mem (uaddr + 512 * i))
      writeSlot mem uaddr base n (i + 1) dev

/-- The loop of `load_swap`, from sector `i` of the slot on. -/
def readSlot (dev : Device) (uaddr base : ℕ) : ℕ → ℕ → Memory → Except Fault Memory
  | 0, _, mem => .ok mem
  | n + 1, i, mem => do
      let d ← blockRead dev ((base + i) % 2 ^ 32)
      readSlot dev uaddr base n (i + 1) (copySector mem (uaddr + 512 * i) d)

/-- `bitmap_test`. -/
def bitmapTest (b : Bitmap) (idx : ℕ) : Except Fault Bool :=
  if idx < b.bitCnt then .ok (b.bits idx) else .error (.assertFailed .bitmapTest)

/-- What swapping reads and changes: the swap globals, memory, and the supplemental table
of the running thread. -/
structure SwapState where
  swap : Swap
  mem : Memory
  table : List SupPage

/-- The work of `store_swap`, after `swap_init`: find a free slot, write the page, record
the slot.  A failed scan gives the index -1. -/
def storeSlot (s : SwapState) (uaddr : ℕ) : Except Fault (ℤ × SwapState) := do
  let found := bitmapScanAndFlip s.swap.swapBitmap 0 1 false
  let swapIndex : ℤ := match found.1 with
    | some idx => idx
    | none => -1
  let dev ← s.swap.device
  let dev ← writeSlot s.mem uaddr (ofInt32 (swapIndex * numSectorsPerPage)) numSectorsPerPage 0 dev
  let table ← changePageLocation uaddr .inSwap swapIndex s.table
  return (swapIndex, ⟨{ s.swap with role := some dev, swapBitmap := found.2 }, s.mem, table⟩)

/-- The work of `load_swap`. -/
def loadSlot (s : SwapState) (uaddr : ℕ) (swapIndex : ℤ) : Except Fault SwapState := do
  let valid ← bitmapTest s.swap.swapBitmap (ofInt32 swapIndex)
  if !valid then .error (.assertFailed .loadSwap)
  else do
    let dev ← s.swap.device
    let mem ← readSlot dev uaddr (ofInt32 (swapIndex * numSectorsPerPage)) numSectorsPerPage 0 s.mem
    let bitmap ← bitmapSetMultiple s.swap.swapBitmap (ofInt32 swapIndex) 1 false
    let table ← changePageLocation uaddr .inMemory (-1) s.table
    return ⟨{ s.swap with swapBitmap := bitmap }, mem, table⟩

/-- `store_swap`, its locking aside.  The first call makes the bitmap, for which there is memory:
the PANIC of `swap_init` when there is none is left out. -/
def storeSwapUnlocked (junk : ℕ → Bool) (s : SwapState) (uaddr : ℕ) :
    Except Fault (ℤ × SwapState) := do
  let swap ← ensureInit junk s.swap
  storeSlot { s with swap } uaddr

end Pintos.Vm
