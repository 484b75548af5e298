import Pintos.Lib.Command
import Pintos.Lib.Runs
import Pintos.Vm.Pools

/-!
# Page directories

`userprog/pagedir.c` and `threads/pte.h`, the same in both kernels, over a memory of
32-bit words.  A page directory and a page table are pages of 1024 words; an entry holds
the number of a frame and, in its low twelve bits, flags.  Addresses are kernel virtual
addresses; `vtop` and `ptov` convert them to the physical addresses in the entries.

Besides the calls on the directory, other code takes pages from the page allocator and
gives them back, and it writes to pages that are not the directory's.  The translation
lookaside buffer is left out.

`freed` is not in the source: the pages passed to `palloc_free_page` by
`pagedir_destroy`, in order.
-/

namespace Pintos.Memory

open Lib Vm

/-! ## Addresses and entries -/

/-- `PTE_ADDR`. -/
def pteAddr : ℕ := 0xfffff000

/-- `PTE_P`. -/
def pteP : ℕ := 0x1

/-- `PTE_W`. -/
def pteW : ℕ := 0x2

/-- `PTE_U`. -/
def pteU : ℕ := 0x4

/-- `pt_no`. -/
def ptNo (va : ℕ) : ℕ := (va &&& 0x003ff000) >>> 12

/-- `pd_no`. -/
def pdNo (va : ℕ) : ℕ := va >>> 22

/-- The number of entries of a page directory or a page table. -/
def entryCnt : ℕ := 1024

/-- Memory, the page allocator and what `paging_init` has left behind. -/
structure Machine where
  word : ℕ → ℕ
  pools : PoolName → Pool
  initPageDir : ℕ
  initRamPages : ℕ
  freed : List ℕ

/-- A failed `ASSERT`. -/
inductive DirPanic where
  | assertFailed
deriving DecidableEq, Repr

/-- Code that works on page directories. -/
abbrev DirCode (α : Type) : Type := EStateM DirPanic Machine α

/-- `ASSERT`. -/
def dirAssert (c : Bool) : DirCode Unit := if c then pure () else stop .assertFailed

/-- `vtop`. -/
def vtop (vaddr : ℕ) : DirCode ℕ := do
  dirAssert (physBase ≤ vaddr)
  return vaddr - physBase

/-- `ptov`. -/
def ptov (paddr : ℕ) : DirCode ℕ := do
  dirAssert (paddr < physBase)
  return paddr + physBase

/-- `pde_create`. -/
def pdeCreate (pt : ℕ) : DirCode ℕ := do
  dirAssert (pt % pgSize = 0)
  let paddr ← vtop pt
  return paddr ||| pteU ||| pteP ||| pteW

/-- `pde_get_pt`. -/
def pdeGetPt (pde : ℕ) : DirCode ℕ := do
  dirAssert (pde &&& pteP ≠ 0)
  ptov (pde &&& pteAddr)

/-- `pte_create_kernel`. -/
def pteCreateKernel (page : ℕ) (writable : Bool) : DirCode ℕ := do
  dirAssert (page % pgSize = 0)
  let paddr ← vtop page
  return paddr ||| pteP ||| (if writable then pteW else 0)

/-- `pte_create_user`. -/
def pteCreateUser (page : ℕ) (writable : Bool) : DirCode ℕ := do
  let pte ← pteCreateKernel page writable
  return pte ||| pteU

/-- `pte_get_page`. -/
def pteGetPage (pte : ℕ) : DirCode ℕ := ptov (pte &&& pteAddr)

/-! ## Memory and pages -/

/-- The address `a` lies in the page `page`. -/
def inPage (page a : ℕ) : Prop := page ≤ a ∧ a < page + pgSize

instance (page a : ℕ) : Decidable (inPage page a) := inferInstanceAs (Decidable (_ ∧ _))

/-- A word is stored. -/
def store (addr value : ℕ) : DirCode Unit :=
  change fun m => { m with word := Function.update m.word addr value }

/-- Every word of a page is set. -/
def fill (page value : ℕ) : DirCode Unit :=
  change fun m => { m with word := fun a => if inPage page a then value else m.word a }

/-- `palloc_get_page`. -/
def pallocGetPage (flags : PallocFlags) : DirCode (Option ℕ) := do
  match ← fetch fun m => pallocGetMultiple m.pools flags.pool 1 with
  | none => do
      dirAssert (!flags.assert)
      return none
  | some (page, pools) => do
      change fun m => { m with pools }
      if flags.zero then fill page 0 else pure ()
      return some page

/-- `palloc_free_page`. -/
def pallocFreePage (page : ℕ) : DirCode Unit := do
  match ← fetch fun m => pallocFreeMultiple m.pools page 1 with
  | none => stop .assertFailed
  | some pools => do
      change fun m => { m with pools, freed := m.freed ++ [page] }
      fill page 0xcccccccc

/-! ## The functions of `pagedir.c` -/

/-- `pagedir_create`. -/
def pagedirCreate : DirCode (Option ℕ) := do
  match ← pallocGetPage {} with
  | none => pure none
  | some pd => do
      change fun m => { m with
        word := fun a => if inPage pd a then m.word (m.initPageDir + (a - pd)) else m.word a }
      return some pd

/-- `lookup_page`: the address of the entry. -/
def lookupPage (pd vaddr : ℕ) (create : Bool) : DirCode (Option ℕ) := do
  dirAssert (pd ≠ 0)
  dirAssert (!create || vaddr < physBase)
  let pde := pd + 4 * pdNo vaddr
  if (← fetch fun m => m.word pde) = 0 then
    if create then do
      match ← pallocGetPage { zero := true } with
      | none => pure none
      | some pt => do
          store pde (← pdeCreate pt)
          let pt ← pdeGetPt (← fetch fun m => m.word pde)
          return some (pt + 4 * ptNo vaddr)
    else pure none
  else do
    let pt ← pdeGetPt (← fetch fun m => m.word pde)
    return some (pt + 4 * ptNo vaddr)

/-- The end of `pagedir_set_page`, with the answer of `lookup_page`. -/
def setFound (kpage : ℕ) (writable : Bool) : Option ℕ → DirCode Bool
  | none => pure false
  | some pte => do
      let w ← fetch fun m => m.word pte
      dirAssert (w &&& pteP = 0)
      store pte (← pteCreateUser kpage writable)
      return true

/-- `pagedir_set_page`. -/
def pagedirSetPage (pd upage kpage : ℕ) (writable : Bool) : DirCode Bool := do
  dirAssert (upage % pgSize = 0)
  dirAssert (kpage % pgSize = 0)
  dirAssert (upage < physBase)
  let paddr ← vtop kpage
  let ram ← fetch Machine.initRamPages
  dirAssert (paddr >>> 12 < ram)
  let init ← fetch Machine.initPageDir
  dirAssert (pd ≠ init)
  setFound kpage writable (← lookupPage pd upage true)

/-- `pagedir_get_page`. -/
def pagedirGetPage (pd uaddr : ℕ) : DirCode (Option ℕ) := do
  dirAssert (uaddr < physBase)
  match ← lookupPage pd uaddr false with
  | none => pure none
  | some pte => do
      let w ← fetch fun m => m.word pte
      if w &&& pteP ≠ 0 then do
        let page ← pteGetPage w
        return some (page + uaddr % pgSize)
      else pure none

/-- `pagedir_clear_page`. -/
def pagedirClearPage (pd upage : ℕ) : DirCode Unit := do
  dirAssert (upage % pgSize = 0)
  dirAssert (upage < physBase)
  match ← lookupPage pd upage false with
  | none => pure ()
  | some pte => do
      let w ← fetch fun m => m.word pte
      if w &&& pteP ≠ 0 then store pte (w &&& 0xfffffffe) else pure ()

/-- One round of the inner loop of `pagedir_destroy`. -/
def destroyEntry (pt j : ℕ) : DirCode Unit := do
  let pte ← fetch fun m => m.word (pt + 4 * j)
  if pte &&& pteP ≠ 0 then do
    pallocFreePage (← pteGetPage pte)
  else pure ()

/-- One round of the outer loop of `pagedir_destroy`. -/
def destroyTable (pd i : ℕ) : DirCode Unit := do
  let pde ← fetch fun m => m.word (pd + 4 * i)
  if pde &&& pteP ≠ 0 then do
    let pt ← pdeGetPt pde
    forEach (destroyEntry pt) (List.range entryCnt)
    pallocFreePage pt
  else pure ()

/-- `pagedir_destroy`. -/
def pagedirDestroy (pd : ℕ) : DirCode Unit := do
  if pd = 0 then pure ()
  else do
    let init ← fetch Machine.initPageDir
    dirAssert (pd ≠ init)
    forEach (destroyTable pd) (List.range (pdNo physBase))
    pallocFreePage pd

end Pintos.Memory
