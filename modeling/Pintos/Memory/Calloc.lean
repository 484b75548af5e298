import Pintos.Memory.MallocSafety
import Pintos.Memory.Palloc

/-!
# Blocks as large as asked for

`malloc` and `calloc` of `threads/malloc.c` compute with sizes of 32 bits, and two of the results
may wrap around: `size + sizeof *a` in `malloc`, and the product of the arguments in `calloc`,
which compares the wrapped product with each of the two.

A run is any sequence of calls of `malloc`, with any size, of `free` and of the page allocator.
After it the heap is in order, also after requests that did wrap around, so what the next block
is like depends on the size only.

* **`grants_of_run`** — a block is as large as asked for, and the one of `calloc` is zero,
  exactly when the size in bytes and the header of an arena fit into 32 bits.
-/

namespace Pintos.Memory

open Lib Vm

variable {ram : ℕ} {h : Heap} {a b size : ℕ}

/-! ## `calloc` -/

/-- The heap, and the bytes in memory. -/
structure Store where
  heap : Heap
  mem : ℕ → UInt8

/-- Code that calls the heap and writes to memory. -/
abbrev StoreCode (α : Type) : Type := EStateM Panic Store α

/-- A function of the heap, called from there. -/
def onHeap {α : Type} (m : HeapCode α) : StoreCode α := fun s =>
  match m s.heap with
  | .ok r h => .ok r { s with heap := h }
  | .error e h => .error e { s with heap := h }

/-- `calloc`; `size = a * b` is computed in 32 bits. -/
def calloc (a b : ℕ) : StoreCode (Option ℕ) := do
  let size := a * b % 2 ^ 32
  if size < a ∨ size < b then pure none
  else do
    let p ← onHeap (malloc size)
    match p with
    | some p => change fun s => { s with mem := memset s.mem p 0 size }
    | none => pure ()
    return p

/-! ## Runs -/

/-- The heap after a step, with what a block surely has room for in place of the size asked for. -/
def afterAny (h : Heap) : Op → Heap
  | .malloc size =>
      match malloc size h with
      | .ok r h' => h'.addLive (granted size) r
      | .error _ h' => { h' with up := false }
  | op => after h op

/-- Any size may be asked for; the other steps are as before. -/
def Possible (h : Heap) : Op → Prop
  | .malloc _ => True
  | op => Allowed h op

/-- **Every step keeps the heap in order**, whatever its size. -/
theorem HeapInv.stepAny (hi : HeapInv ram none h) (op : Op) (possible : Possible h op) :
    HeapInv ram none (afterAny h op) := by
  cases op with
  | malloc size =>
      have hok : Ends (malloc size h) _ fun _ _ => False := malloc_grants hi
      rw [afterAny]
      cases e : malloc size h with
      | ok r h' =>
          rw [e] at hok
          exact hok.1
      | error x h' =>
          rw [e] at hok
          exact hok.elim
  | free p => exact hi.step (.free p) possible
  | otherGet n pageCnt => exact hi.step (.otherGet n pageCnt) trivial
  | otherFree n page pageCnt => exact hi.step (.otherFree n page pageCnt) possible

/-! ## What a block has room for -/

/-- `n` bytes from `b` on are memory of the heap, allocated for the block. -/
def Heap.Allocated (h : Heap) (b n : ℕ) : Prop :=
  n ≤ h.blockSize b ∧ ∃ a A, h.arenas a = some A ∧ a + arenaSize ≤ b ∧
    b + h.blockSize b ≤ a + pgSize * A.pages ∧ ∀ q ∈ pagesFrom a A.pages, Used (h.pools .kernel) q

/-- Blocks have the size asked for exactly when the size, and the header, fit into 32 bits. -/
structure Grants (h : Heap) : Prop where
  malloc : ∀ size < 2 ^ 32, ∀ b h', malloc size h = .ok (some b) h' →
    (h'.Allocated b size ↔ size + arenaSize < 2 ^ 32)
  calloc : ∀ a < 2 ^ 32, ∀ b < 2 ^ 32, ∀ mem p s', calloc a b ⟨h, mem⟩ = .ok (some p) s' →
    ((s'.heap.Allocated p (a * b) ∧ ∀ i < a * b, s'.mem (p + i) = 0) ↔
      a * b + arenaSize < 2 ^ 32)

theorem HeapInv.allocated_iff (hi : HeapInv ram none (h.addLive size (some b))) {n : ℕ} :
    h.Allocated b n ↔ n ≤ h.blockSize b := by
  refine ⟨And.left, fun hn => ⟨hn, ?_⟩⟩
  have hlive : (b, size) ∈ (h.addLive size (some b)).live := List.mem_cons_self
  obtain ⟨a, A, hA, hfit⟩ := hi.live hlive
  obtain ⟨-, h1, h2⟩ := hi.blockSize_of_fits hA hfit
  exact ⟨a, A, hA, h1, h2, fun q hq => hi.marked ((hi.held q).mpr ⟨a, A, hA, hq⟩)⟩

/-- A block that `malloc` returned. -/
theorem malloc_some (hi : HeapInv ram none h) {h' : Heap} (hrun : malloc size h = .ok (some b) h') :
    (∀ n, h'.Allocated b n ↔ n ≤ h'.blockSize b) ∧ GrantedSize size (h'.blockSize b) := by
  have hok : Ends (malloc size h) _ fun _ _ => False := malloc_grants hi
  rw [hrun] at hok
  exact ⟨fun n => HeapInv.allocated_iff hok.1, hok.2 b rfl⟩

/-- `calloc` returned a block: it is one of `malloc`, for the product as far as 32 bits hold it. -/
theorem calloc_some {c p : ℕ} {mem : ℕ → UInt8} {s' : Store}
    (hrun : calloc a c ⟨h, mem⟩ = .ok (some p) s') :
    a ≤ a * c % 2 ^ 32 ∧ c ≤ a * c % 2 ^ 32 ∧
      malloc (a * c % 2 ^ 32) h = .ok (some p) s'.heap ∧
      s'.mem = memset mem p 0 (a * c % 2 ^ 32) := by
  unfold calloc at hrun
  generalize a * c % 2 ^ 32 = size at hrun ⊢
  by_cases hwrap : size < a ∨ size < c
  · rw [if_pos hwrap] at hrun
    cases hrun
  · rw [if_neg hwrap] at hrun
    refine ⟨by omega, by omega, ?_⟩
    cases e : malloc size h with
    | error x h' =>
        have : onHeap (malloc size) ⟨h, mem⟩ = .error x ⟨h', mem⟩ := by simp [onHeap, e]
        rw [bind_of_error this] at hrun
        cases hrun
    | ok r h' =>
        have : onHeap (malloc size) ⟨h, mem⟩ = .ok r ⟨h', mem⟩ := by simp [onHeap, e]
        rw [bind_of_ok this] at hrun
        cases r with
        | none => cases hrun
        | some q =>
            cases hrun
            exact ⟨rfl, rfl⟩

/-- What the heap in order grants. -/
theorem HeapInv.grants (hi : HeapInv ram none h) : Grants h where
  malloc size hsize b h' hrun := by
    obtain ⟨halloc, hgrant⟩ := malloc_some hi hrun
    rw [halloc, hgrant.le_iff hsize]
  calloc a ha c hc mem p s' hrun := by
    obtain ⟨-, -, hmalloc, hmem⟩ := calloc_some hrun
    obtain ⟨halloc, hgrant⟩ := malloc_some hi hmalloc
    rw [halloc]
    by_cases hfit : a * c < 2 ^ 32
    · rw [Nat.mod_eq_of_lt hfit] at hgrant hmem
      rw [hgrant.le_iff hfit, and_iff_left_iff_imp]
      intro _ i hi
      rw [hmem]
      exact if_pos ⟨by omega, by omega⟩
    · -- the product has wrapped around, and no block is as large as it was meant to be
      have := hgrant.lt
      constructor
      · rintro ⟨hle, -⟩
        omega
      · omega

/-- **Blocks are as large as asked for exactly when nothing wraps around**, after every run. -/
theorem grants_of_run {pools : PoolName → Pool} (hlaid : Laid ram pools) (ops : List Op)
    (possible : Along afterAny Possible (mallocInit pools) ops) :
    Always afterAny Grants (mallocInit pools) ops := by
  have hinv : Always afterAny (HeapInv ram none) (mallocInit pools) ops :=
    Always.of_along (fun h op hi hop => hi.stepAny op hop) ops _ (HeapInv.init hlaid) possible
  exact Always.mono (fun h hi => hi.grants) ops _ hinv

theorem laid_smallPools : Laid 1024 smallPools :=
  laid_pallocInit _ (by decide) (by unfold initPoolFits; decide) (by unfold initPoolFits; decide)

theorem grants_of_small_run :
    Along afterAny Possible (mallocInit smallPools) [.malloc 20, .malloc (2 ^ 32 - 1)] ∧
      Always afterAny Grants (mallocInit smallPools) [.malloc 20, .malloc (2 ^ 32 - 1)] :=
  ⟨⟨trivial, trivial, trivial⟩, grants_of_run laid_smallPools _ ⟨trivial, trivial, trivial⟩⟩

/-- `calloc (65537, 65537)`: the product is 131073 in 32 bits, larger than both factors. -/
theorem calloc_too_small : ∃ p s', calloc 65537 65537 ⟨mallocInit smallPools, fun _ => 1⟩ = .ok (some p) s' ∧
    ¬ (s'.heap.Allocated p (65537 * 65537) ∧ ∀ i < 65537 * 65537, s'.mem (p + i) = 0) := by
  have hrun : ∃ p s', calloc 65537 65537 ⟨mallocInit smallPools, fun _ => 1⟩ = .ok (some p) s' := by
    have hget : (pallocGetMultiple smallPools .kernel 33).isSome = true := by decide +kernel
    obtain ⟨⟨page, pools⟩, hget⟩ := Option.isSome_iff_exists.mp hget
    have hbig : (descs.findIdx? fun desc => 131073 ≤ desc.blockSize) = none := by decide
    have hpages : bigPages 131073 = 33 := by decide
    have hmalloc : malloc 131073 (mallocInit smallPools) = .ok (some (page + arenaSize))
        ((mallocInit smallPools).withArena pools page ⟨none, 33⟩ 33) := by
      rw [malloc, if_neg (by decide), hbig]
      simp only [mallocBig, takePages, hpages, bind_assoc, fetch_bind]
      rw [show (mallocInit smallPools).pools = smallPools from rfl, hget]
      rfl
    generalize (mallocInit smallPools).withArena pools page ⟨none, 33⟩ 33 = h' at hmalloc
    refine ⟨page + arenaSize, ⟨h', memset (fun _ => 1) (page + arenaSize) 0 131073⟩, ?_⟩
    have hon : onHeap (malloc 131073) ⟨mallocInit smallPools, fun _ => 1⟩ =
        .ok (some (page + arenaSize)) ⟨h', fun _ => 1⟩ := by
      rw [onHeap, hmalloc]
    rw [calloc, show 65537 * 65537 % 2 ^ 32 = 131073 from rfl, if_neg (by decide), bind_of_ok hon]
    rfl
  obtain ⟨p, s', hrun⟩ := hrun
  refine ⟨p, s', hrun, ?_⟩
  have := (HeapInv.init laid_smallPools).grants.calloc 65537 (by decide) 65537 (by decide) _ p s' hrun
  rw [this]
  decide

end Pintos.Memory
