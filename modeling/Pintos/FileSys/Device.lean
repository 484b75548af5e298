import Pintos.Lib.Block

/-!
# The file system device

`devices/block.c` moves whole sectors of `BLOCK_SECTOR_SIZE` = 512 bytes and
panics on an access past the end of the device.  A kernel panic is a `Fault`:
every function of the file system model returns `Except Fault`, so that a run
that stops in an assertion, in `PANIC`, or in an array access outside its bounds
is told apart from a run that returns.

The kernel heap is taken to serve every request (`malloc` and `calloc` return a
block); the callers check for a null pointer in some places only.
-/

namespace Pintos

open Lib

/-- One sector of the device. -/
abbrev Sector : Type := Block 512

/-- Assertions and explicit panics, by the function they stand in. -/
inductive Site where
  | bitmapSet
  | bitmapContains
  | freeMapRelease
  | freeMapOpen
  | freeMapCreate
  | inodeCreate
  | inodeDenyWrite
  | inodeAllowWrite
  | lockAcquire
  | fileSeek
  | dirCreate
  | bitmapTest
  | swapInit
  | loadSwap
deriving DecidableEq, Repr

/-- Why the kernel stops. -/
inductive Fault where
  /-- `check_sector`: "Access past end of device". -/
  | accessPastEnd (sector : ℕ)
  /-- An array is indexed outside its bounds. -/
  | arrayIndex (index : ℤ)
  /-- An `ASSERT` or `PANIC` of the given function. -/
  | assertFailed (site : Site)
  /-- A pointer to freed or never allocated memory is followed. -/
  | danglingPointer
deriving DecidableEq, Repr

/-- A block device: `size` sectors, numbered by a 32-bit `block_sector_t`. -/
structure Device where
  size : ℕ
  size_lt : size < 2 ^ 32
  disk : ℕ → Sector

namespace Device

/-- The device with the contents of one sector replaced. -/
def put (dev : Device) (sector : ℕ) (data : Sector) : Device :=
  { dev with disk := Function.update dev.disk sector data }

@[simp] theorem put_size (dev : Device) (s : ℕ) (d : Sector) : (dev.put s d).size = dev.size :=
  rfl

@[simp] theorem put_disk (dev : Device) (s : ℕ) (d : Sector) :
    (dev.put s d).disk = Function.update dev.disk s d := rfl

end Device

/-- Reads sector `sector`. -/
def blockRead (dev : Device) (sector : ℕ) : Except Fault Sector :=
  if sector < dev.size then .ok (dev.disk sector) else .error (.accessPastEnd sector)

/-- Writes `buffer` to sector `sector`. -/
def blockWrite (dev : Device) (sector : ℕ) (buffer : Sector) : Except Fault Device :=
  if sector < dev.size then .ok (dev.put sector buffer) else .error (.accessPastEnd sector)

theorem blockRead_ok {dev : Device} {s : ℕ} (h : s < dev.size) :
    blockRead dev s = .ok (dev.disk s) := if_pos h

theorem blockWrite_ok {dev : Device} {s : ℕ} (b : Sector) (h : s < dev.size) :
    blockWrite dev s b = .ok (dev.put s b) := if_pos h

@[simp] theorem ok_bind {ε α β : Type} (a : α) (f : α → Except ε β) :
    (Except.ok a >>= f) = f a := rfl

@[simp] theorem error_bind {ε α β : Type} (e : ε) (f : α → Except ε β) :
    (Except.error e >>= f) = .error e := rfl

/-- A sequenced computation returns exactly when both halves do. -/
theorem bind_eq_ok {ε α β : Type} {x : Except ε α} {f : α → Except ε β} {b : β} :
    (x >>= f) = .ok b ↔ ∃ a, x = .ok a ∧ f a = .ok b := by
  cases x <;> simp

end Pintos
