import Pintos.Lib.Command
import Pintos.Lib.Runs
import Pintos.Vm.Pools

/-!
# The kernel heap

`threads/malloc.c` of `fs_PintOS`.  A block and an arena are named by their addresses.
The header of an arena lies at the start of its page: `arenas a` is the header at page
`a`, and `none` if the magic number is not there.  A free list is the list of the blocks
on it, in order; that the links of the list lie in the blocks themselves is harmless, as
long as a block on a list is not in use, which is one of the things to prove.

Calls are one after the other, so the locks of the descriptors are left out.  Between
the calls, other code may take pages from the page allocator and give them back.

`live`, `held` and `taken` are not in the source: the blocks that `malloc` has returned and
nobody has freed since, with the sizes asked for; the pages that `malloc` has taken from
the page allocator and not given back; and the pages of the kernel pool that other code
has, those that were marked when `malloc_init` ran included.
-/

namespace Pintos.Memory

open Lib Vm

/-! ## Descriptors -/

/-- `struct desc`, without its list and its lock. -/
structure Desc where
  blockSize : ℕ
  blocksPerArena : ℕ
deriving DecidableEq, Repr

/-- `sizeof (struct arena)`. -/
def arenaSize : ℕ := 12

/-- The loop of `malloc_init`, with room for `room` more descriptors. -/
def descsFrom : ℕ → ℕ → List Desc
  | 0, _ => []
  | room + 1, blockSize =>
      if blockSize < pgSize / 2 then
        ⟨blockSize, (pgSize - arenaSize) / blockSize⟩ :: descsFrom room (2 * blockSize)
      else []

/-- `descs` after `malloc_init`; the array has ten elements. -/
def descs : List Desc := descsFrom 10 16

/-! ## State -/

/-- `struct arena`, without its magic number.  `desc` is the number of the descriptor, and
`none` for a big block. -/
structure Arena where
  desc : Option ℕ
  freeCnt : ℕ
deriving DecidableEq, Repr

/-- The heap. -/
structure Heap where
  pools : PoolName → Pool
  arenas : ℕ → Option Arena
  freeList : ℕ → List ℕ
  live : List (ℕ × ℕ)
  held : List ℕ
  taken : List ℕ
  up : Bool

/-- A failed `ASSERT`. -/
inductive Panic where
  | assertFailed
deriving DecidableEq, Repr

/-- Code of the heap. -/
abbrev HeapCode (α : Type) : Type := EStateM Panic Heap α

/-- `ASSERT`. -/
def assert (c : Bool) : HeapCode Unit := if c then pure () else stop .assertFailed

/-- `ASSERT` of something that has to be there. -/
def assertSome {α : Type} : Option α → HeapCode α
  | some a => pure a
  | none => stop .assertFailed

/-- `pg_round_down`. -/
def pgRoundDown (addr : ℕ) : ℕ := addr / pgSize * pgSize

/-- `pg_ofs`. -/
def pgOfs (addr : ℕ) : ℕ := addr % pgSize

/-- A header is written. -/
def setArena (a : ℕ) (header : Option Arena) : HeapCode Unit :=
  change fun h => { h with arenas := Function.update h.arenas a header }

/-- A free list is changed. -/
def setFreeList (d : ℕ) (l : List ℕ) : HeapCode Unit :=
  change fun h => { h with freeList := Function.update h.freeList d l }

/-! ## Blocks and arenas -/

/-- `block_to_arena`: the address of the arena and its header. -/
def blockToArena (b : ℕ) : HeapCode (ℕ × Arena) := do
  let a := pgRoundDown b
  assert (a ≠ 0)
  let header ← assertSome (← fetch fun h => h.arenas a)
  match header.desc with
  | some d => do
      let desc ← assertSome descs[d]?
      assert ((pgOfs b - arenaSize) % desc.blockSize = 0)
  | none => assert (pgOfs b = arenaSize)
  return (a, header)

/-- The address `arena_to_block` computes. -/
def blockAt (a : ℕ) (desc : Desc) (idx : ℕ) : ℕ := a + arenaSize + idx * desc.blockSize

/-- `arena_to_block`. -/
def arenaToBlock (a idx : ℕ) : HeapCode ℕ := do
  assert (a ≠ 0)
  let header ← assertSome (← fetch fun h => h.arenas a)
  let desc ← assertSome (header.desc.bind fun d => descs[d]?)
  assert (idx < desc.blocksPerArena)
  return blockAt a desc idx

/-! ## `malloc` -/

/-- `palloc_get_multiple (0, page_cnt)`. -/
def takePages (pageCnt : ℕ) : HeapCode (Option ℕ) := do
  match ← fetch fun h => pallocGetMultiple h.pools .kernel pageCnt with
  | none => pure none
  | some (page, pools) => do
      change fun h => { h with pools, held := h.held ++ pagesFrom page pageCnt }
      return some page

/-- `DIV_ROUND_UP (size + sizeof *a, PGSIZE)`, in 32 bits. -/
def bigPages (size : ℕ) : ℕ := ((size + arenaSize) % 2 ^ 32 + (pgSize - 1)) % 2 ^ 32 / pgSize

/-- The part of `malloc` for a block too big for any descriptor. -/
def mallocBig (size : ℕ) : HeapCode (Option ℕ) := do
  match ← takePages (bigPages size) with
  | none => pure none
  | some a => do
      setArena a (some ⟨none, bigPages size⟩)
      return some (a + arenaSize)

/-- One round of the loop that fills the free list. -/
def pushBlock (a d idx : ℕ) : HeapCode Unit := do
  let b ← arenaToBlock a idx
  setFreeList d ((← fetch fun h => h.freeList d) ++ [b])

/-- The part of `malloc` that makes a new arena if the free list is empty; `false` if
there is no page. -/
def refill (d : ℕ) (desc : Desc) : HeapCode Bool := do
  if (← fetch fun h => h.freeList d).isEmpty then do
    match ← takePages 1 with
    | none => pure false
    | some a => do
        setArena a (some ⟨some d, desc.blocksPerArena⟩)
        forEach (pushBlock a d) (List.range desc.blocksPerArena)
        return true
  else pure true

/-- The part of `malloc` that takes a block from the free list. -/
def popBlock (d : ℕ) : HeapCode ℕ := do
  match ← fetch fun h => h.freeList d with
  | [] => stop .assertFailed
  | b :: rest => do
      setFreeList d rest
      let (a, header) ← blockToArena b
      setArena a (some { header with freeCnt := header.freeCnt - 1 })
      return b

/-- `malloc`. -/
def malloc (size : ℕ) : HeapCode (Option ℕ) := do
  if size = 0 then pure none
  else match descs.findIdx? fun desc => size ≤ desc.blockSize with
    | none => mallocBig size
    | some d => do
        let desc ← assertSome descs[d]?
        if ← refill d desc then do
          let b ← popBlock d
          return some b
        else pure none

/-! ## `free` -/

/-- `palloc_free_multiple`, for pages of the heap; the pages are filled with `0xcc`, which
wipes out the header. -/
def givePages (a pageCnt : ℕ) : HeapCode Unit := do
  let pools ← assertSome (← fetch fun h => pallocFreeMultiple h.pools a pageCnt)
  change fun h => { h with pools, held := h.held.filter fun q => q ∉ pagesFrom a pageCnt }
  setArena a none

/-- One round of the loop that empties an arena; `list_remove` asserts that the block is on
a list. -/
def removeBlock (a d idx : ℕ) : HeapCode Unit := do
  let b ← arenaToBlock a idx
  let l ← fetch fun h => h.freeList d
  assert (b ∈ l)
  setFreeList d (l.erase b)

/-- The part of `free` for a block of a descriptor. -/
def freeSmall (b a d : ℕ) (header : Arena) : HeapCode Unit := do
  let desc ← assertSome descs[d]?
  setFreeList d (b :: (← fetch fun h => h.freeList d))
  setArena a (some { header with freeCnt := header.freeCnt + 1 })
  if desc.blocksPerArena ≤ header.freeCnt + 1 then do
    assert (header.freeCnt + 1 = desc.blocksPerArena)
    forEach (removeBlock a d) (List.range desc.blocksPerArena)
    givePages a 1
  else pure ()

/-- `free`. -/
def free (p : ℕ) : HeapCode Unit := do
  if p = 0 then pure ()
  else do
    let (a, header) ← blockToArena p
    match header.desc with
    | some d => freeSmall p a d header
    | none => givePages a header.freeCnt

/-! ## Runs -/

/-- A call, or what other code does to the page allocator. -/
inductive Op where
  | malloc (size : ℕ)
  | free (p : ℕ)
  | otherGet (n : PoolName) (pageCnt : ℕ)
  | otherFree (n : PoolName) (page pageCnt : ℕ)
deriving Repr

/-- A block is returned. -/
def Heap.addLive (h : Heap) (size : ℕ) : Option ℕ → Heap
  | none => h
  | some b => { h with live := (b, size) :: h.live }

/-- A block is freed. -/
def Heap.dropLive (h : Heap) (p : ℕ) : Heap :=
  { h with live := h.live.filter fun e => e.1 ≠ p }

/-- Other code has changed the pools; `taken` are then its pages, if it did so in the kernel pool. -/
def Heap.otherPages (h : Heap) (n : PoolName) (pools : PoolName → Pool) (taken : List ℕ) : Heap :=
  match n with
  | .kernel => { h with pools, taken }
  | .user => { h with pools }

/-- The heap after a step; a failed assertion is the end. -/
def after (h : Heap) : Op → Heap
  | .malloc size =>
      match malloc size h with
      | .ok r h' => h'.addLive size r
      | .error _ h' => { h' with up := false }
  | .free p =>
      match free p h with
      | .ok _ h' => h'.dropLive p
      | .error _ h' => { h' with up := false }
  | .otherGet n pageCnt =>
      match pallocGetMultiple h.pools n pageCnt with
      | some (page, pools) => h.otherPages n pools (h.taken ++ pagesFrom page pageCnt)
      | none => h
  | .otherFree n page pageCnt =>
      match pallocFreeMultiple h.pools page pageCnt with
      | some pools =>
          h.otherPages n pools (h.taken.filter fun q => q ∉ pagesFrom page pageCnt)
      | none => { h with up := false }

/-- Requests are small enough not to wrap around, only live blocks (or a null pointer) are
freed, and other code gives back pages of its own. -/
def Allowed (h : Heap) : Op → Prop
  | .malloc size => size + arenaSize + (pgSize - 1) < 2 ^ 32
  | .free p => p = 0 ∨ p ∈ h.live.map Prod.fst
  | .otherGet _ _ => True
  | .otherFree n page pageCnt =>
      0 < pageCnt ∧ ∀ q ∈ pagesFrom page pageCnt, Used (h.pools n) q ∧ q ∉ h.held

/-- The pages of a pool that are marked. -/
def usedPages (pool : Pool) : List ℕ :=
  ((List.range pool.usedMap.bitCnt).filter pool.usedMap.bits).map fun idx => pool.base + pgSize * idx

theorem mem_usedPages {pool : Pool} {q : ℕ} : q ∈ usedPages pool ↔ Used pool q := by
  simp only [usedPages, List.mem_map, List.mem_filter, List.mem_range, Used]
  constructor
  · rintro ⟨idx, ⟨hlt, hbit⟩, rfl⟩
    exact ⟨idx, hlt, hbit, rfl⟩
  · rintro ⟨idx, hlt, hbit, rfl⟩
    exact ⟨idx, ⟨hlt, hbit⟩, rfl⟩

/-- The heap after `malloc_init`. -/
def mallocInit (pools : PoolName → Pool) : Heap where
  pools := pools
  arenas _ := none
  freeList _ := []
  live := []
  held := []
  taken := usedPages (pools .kernel)
  up := true

end Pintos.Memory
