import Mathlib.Data.List.GetD
import Pintos.FileSys.File

/-!
# Directories

`filesys/directory.c`: a directory is a file of 20-byte entries, an inode sector, a
name of at most 14 characters with its terminator, and the mark that the entry is
in use.  A name is the list of its characters, without the terminator.

The loops over the entries end where `inode_read_at` returns less than an entry;
they recurse on a bound that the length of the directory gives, and the
specifications show that they end before it is used up.
-/

namespace Pintos

open Lib Lib.Block

/-- A string without its terminator. -/
abbrev CString : Type := List UInt8

/-- `NAME_MAX`. -/
def nameMax : ℕ := 14

/-- `struct dir_entry`. -/
abbrev DirEntry : Type := Block 20

namespace DirEntry

/-- `inode_sector`. -/
def sector (e : DirEntry) : ℕ := wordAt e 0

/-- `name`, up to the terminator. -/
def name (e : DirEntry) : CString :=
  ((List.range (nameMax + 1)).map fun k => byteAt e (4 + k)).takeWhile fun c => c ≠ 0

/-- `in_use`. -/
def inUse (e : DirEntry) : Bool := byteAt e 19 ≠ 0

/-- The entry `dir_add` writes: what `e` held after the new name's terminator stays. -/
def fill (e : DirEntry) (name : CString) (sector : ℕ) : DirEntry :=
  ofFn fun k =>
    if k < 4 then wordByte sector k
    else if k < 4 + name.length then name.getD (k - 4) 0
    else if k = 4 + name.length then 0
    else if k = 19 then 1
    else byteAt e k

/-- The entry `dir_remove` writes. -/
def clear (e : DirEntry) : DirEntry := ofFn fun k => if k = 19 then 0 else byteAt e k

end DirEntry

/-- `inode_read_at (dir->inode, &e, sizeof e, ofs)`: the number of bytes read, and
`e` with as many bytes replaced. -/
def readEntry (fs : FsState) (p : ℕ) (e : DirEntry) (ofs : ℕ) : Except Fault (ℕ × DirEntry) := do
  let bytes ← inodeReadAt fs p 20 ofs
  return (bytes.length, ofFn fun k => bytes.getD k (byteAt e k))

/-- The loop of `lookup`: the entry and its offset. -/
def lookupLoop (fs : FsState) (p : ℕ) (name : CString) :
    ℕ → ℕ → DirEntry → Except Fault (Option (DirEntry × ℕ))
  | 0, _, _ => .ok none
  | fuel + 1, ofs, e => do
      let (n, e) ← readEntry fs p e ofs
      if n = 20 then
        if e.inUse ∧ e.name = name then
          return some (e, ofs)
        else
          lookupLoop fs p name fuel (ofs + 20) e
      else
        return none

/-- A bound on the number of entries of the directory at `p`. -/
def entryBound (fs : FsState) (p : ℕ) : ℕ :=
  match fs.inodes p with
  | some ino => (inodeLength ino.data).toNat / 20 + 1
  | none => 1

/-- `lookup`. -/
def lookup (fs : FsState) (p : ℕ) (name : CString) : Except Fault (Option (DirEntry × ℕ)) :=
  lookupLoop fs p name (entryBound fs p) 0 zeros

/-- The loop of `dir_add` for a free slot: its offset, or the end of the directory,
and the entry read last. -/
def freeSlotLoop (fs : FsState) (p : ℕ) : ℕ → ℕ → DirEntry → Except Fault (ℕ × DirEntry)
  | 0, ofs, e => .ok (ofs, e)
  | fuel + 1, ofs, e => do
      let (n, e) ← readEntry fs p e ofs
      if n = 20 then
        if e.inUse then freeSlotLoop fs p fuel (ofs + 20) e else return (ofs, e)
      else
        return (ofs, e)

/-- The end of `dir_add`, once the name is known to be new: write the entry to a
free slot. -/
def addEntry (fs : FsState) (p : ℕ) (name : CString) (sector : ℕ) :
    Except Fault (Bool × FsState) := do
  let (ofs, e) ← freeSlotLoop fs p (entryBound fs p) 0 zeros
  let (n, fs) ← inodeWriteAt fs p (byteAt (e.fill name sector)) 20 ofs
  return (decide (n = 20), fs)

/-- `dir_add`, on the directory whose inode is open at `p`. -/
def dirAdd (fs : FsState) (p : ℕ) (name : CString) (sector : ℕ) :
    Except Fault (Bool × FsState) :=
  if name = [] ∨ nameMax < name.length then .ok (false, fs) else do
    match ← lookup fs p name with
    | some _ => return (false, fs)
    | none => addEntry fs p name sector

/-- `dir_lookup`: the inode, opened. -/
def dirLookup (fs : FsState) (p : ℕ) (name : CString) : Except Fault (Option ℕ × FsState) := do
  match ← lookup fs p name with
  | some (e, _) => do
      let (q, fs) ← inodeOpen fs e.sector
      return (some q, fs)
  | none => return (none, fs)

/-- `dir_remove`. -/
def dirRemove (fs : FsState) (p : ℕ) (name : CString) : Except Fault (Bool × FsState) := do
  match ← lookup fs p name with
  | none => return (false, fs)
  | some (e, ofs) => do
      let (q, fs) ← inodeOpen fs e.sector
      let (n, fs) ← inodeWriteAt fs p (byteAt e.clear) 20 ofs
      if n ≠ 20 then do
        let fs ← inodeClose fs q
        return (false, fs)
      else do
        let fs ← inodeRemove fs q
        let fs ← inodeClose fs q
        return (true, fs)

/-- The name of a directory inside itself, `"."`. -/
def selfPath : CString := [0x2e]

/-- The name of the parent directory, `".."`. -/
def parentPath : CString := [0x2e, 0x2e]

/-- `dir_create`. -/
def dirCreate (fs : FsState) (sector entryCnt parent : ℕ) : Except Fault (Bool × FsState) := do
  let (success, fs) ← inodeCreate fs sector (20 * entryCnt) true
  let (p, fs) ← inodeOpen fs sector
  let (self, fs) ← dirAdd fs p selfPath sector
  let (up, fs) ← dirAdd fs p parentPath parent
  let fs ← inodeClose fs p
  return (success && self && up, fs)

/-! ## Entries -/

namespace DirEntry

variable (e : DirEntry) {name : CString} {sector : ℕ}

theorem sector_fill (h : sector < 2 ^ 32) : (e.fill name sector).sector = sector := by
  have key : ∀ k < 4, byteAt (e.fill name sector) (4 * 0 + k) = wordByte sector k := by
    intro k hk
    rw [fill, byteAt_ofFn _ (by omega), if_pos (by omega), Nat.mul_zero, Nat.zero_add]
  rw [DirEntry.sector, wordAt, ← Nat.add_zero (4 * 0), key 0 (by omega), key 1 (by omega),
    key 2 (by omega), key 3 (by omega)]
  exact wordByte_sum h

theorem inUse_fill (h : name.length ≤ nameMax) : (e.fill name sector).inUse = true := by
  unfold nameMax at h
  rw [inUse, fill, byteAt_ofFn _ (by omega), if_neg (by omega), if_neg (by omega),
    if_neg (by omega), if_pos rfl]
  rfl

theorem name_fill (h : name.length ≤ nameMax) (hz : ∀ c ∈ name, c ≠ 0) :
    (e.fill name sector).name = name := by
  unfold nameMax at h
  have split : ((List.range (nameMax + 1)).map fun k => byteAt (e.fill name sector) (4 + k)) =
      name ++ 0 :: (List.range (14 - name.length)).map fun k =>
        byteAt (e.fill name sector) (4 + (name.length + 1 + k)) := by
    refine List.ext_getElem (by simp [nameMax]; omega) fun k h1 h2 => ?_
    simp only [nameMax, List.length_map, List.length_range] at h1
    simp only [List.getElem_map, List.getElem_range]
    rcases Nat.lt_trichotomy k name.length with hk | hk | hk
    · rw [List.getElem_append_left hk, fill, byteAt_ofFn _ (by omega), if_neg (by omega),
        if_pos (by omega), Nat.add_sub_cancel_left, List.getD_eq_getElem _ _ hk]
    · have hend : byteAt (e.fill name sector) (4 + k) = 0 := by
        rw [fill, byteAt_ofFn _ (by omega), if_neg (by omega), if_neg (by omega), if_pos (by omega)]
      rw [hend, List.getElem_append_right (by omega)]
      simp [hk]
    · rw [List.getElem_append_right (by omega)]
      obtain ⟨j, hj⟩ := Nat.exists_eq_add_of_lt hk
      simp only [show k - name.length = j + 1 by omega, List.getElem_cons_succ, List.getElem_map,
        List.getElem_range]
      congr 2
      omega
  rw [DirEntry.name, split, List.takeWhile_append_of_pos (by simpa using hz)]
  simp

theorem inUse_clear : e.clear.inUse = false := by
  rw [inUse, clear, byteAt_ofFn _ (by omega), if_pos rfl]
  rfl

end DirEntry

end Pintos
