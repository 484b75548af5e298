import Pintos.Lib.Runs
import Pintos.Vm.Pools

/-!
# The page allocator

`threads/palloc.c` over whole runs: the pools as `palloc_init` lays them out, and then any
sequence of `palloc_get_multiple` and of `palloc_free_multiple` for what was allocated.

The bitmap of a pool lies in the first pages of the memory the pool is made from, and the
pool begins after them.  The amount of memory is what `start.S` leaves in `init_ram_pages`:
the BIOS reports the kilobytes above the first megabyte, and the total is cut off at 64 MB.

The list of live allocations is not in the source; it is what the callers know.  The
invariant `PallocOk` ties it to the bitmaps: the marked pages are those of the live
allocations.

* **`palloc_of_run`** — in every state reached, the pools are apart from each other and from
  the bitmaps, and every call does what it should.
* **`null_for_no_pages`** — a request for no pages is answered with the null pointer, although
  there is room for it.
-/

namespace Pintos.Memory

open Lib Vm

/-! ## Layout -/

/-- `init_ram_pages`, for a machine that reports `ext` kB of extended memory. -/
def initRamPages (ext : ℕ) : ℕ := min (ext + 1024) 0x10000 / 4

/-- Where free memory begins. -/
def freeStart : ℕ := physBase + 1024 * 1024

/-- The pages `palloc_init` gives to a pool and its bitmap. -/
def poolPageCnt (ext userPageLimit : ℕ) : PoolName → ℕ
  | .kernel => initRamPages ext - 256 - min ((initRamPages ext - 256) / 2) userPageLimit
  | .user => min ((initRamPages ext - 256) / 2) userPageLimit

/-- The address `palloc_init` passes to `init_pool`. -/
def poolStart (ext userPageLimit : ℕ) : PoolName → ℕ
  | .kernel => freeStart
  | .user => freeStart + poolPageCnt ext userPageLimit .kernel * pgSize

/-- `bm_pages`. -/
def bmPages (pageCnt : ℕ) : ℕ := (8 + byteCnt pageCnt + (pgSize - 1)) / pgSize

/-- The pages of a bitmap. -/
def bitmapPages (ext userPageLimit : ℕ) (n : PoolName) : List ℕ :=
  pagesFrom (poolStart ext userPageLimit n) (bmPages (poolPageCnt ext userPageLimit n))

/-- The pages of a pool. -/
def poolPages (pool : Pool) : List ℕ := pagesFrom pool.base pool.usedMap.bitCnt

/-- `init_pool` neither panics nor fails the assertion of `bitmap_create_in_buf`. -/
def InitPoolOk (pageCnt : ℕ) : Prop :=
  bmPages pageCnt ≤ pageCnt ∧ 8 + byteCnt (pageCnt - bmPages pageCnt) ≤ bmPages pageCnt * pgSize

instance (pageCnt : ℕ) : Decidable (InitPoolOk pageCnt) :=
  inferInstanceAs (Decidable (_ ∧ _))

/-! ## Calls -/

/-- An allocation its caller has not freed. -/
structure Alloc where
  pool : PoolName
  page : ℕ
  cnt : ℕ
deriving DecidableEq, Repr

def Alloc.pages (a : Alloc) : List ℕ := pagesFrom a.page a.cnt

/-- The allocator, the memory, and the live allocations. -/
structure Palloc where
  pools : PoolName → Pool
  mem : ℕ → UInt8
  live : List Alloc

/-- `memset`. -/
def memset (mem : ℕ → UInt8) (start : ℕ) (value : UInt8) (size : ℕ) : ℕ → UInt8 :=
  fun a => if start ≤ a ∧ a < start + size then value else mem a

/-- `palloc_init`. -/
def Palloc.init (ext userPageLimit : ℕ) (mem : ℕ → UInt8) : Option Palloc :=
  if InitPoolOk (poolPageCnt ext userPageLimit .kernel) ∧
      InitPoolOk (poolPageCnt ext userPageLimit .user) then
    some ⟨pallocInit (initRamPages ext) userPageLimit fun _ _ => false, mem, []⟩
  else none

/-- `palloc_get_multiple`: the result and the allocator, or a panic. -/
def Palloc.get (s : Palloc) (flags : PallocFlags) (cnt : ℕ) : Except Unit (Option ℕ × Palloc) :=
  if cnt = 0 then .ok (none, s)
  else match pallocGetMultiple s.pools flags.pool cnt with
    | some (page, pools) => .ok (some page, { s with
        pools
        mem := if flags.zero then memset s.mem page 0 (pgSize * cnt) else s.mem
        live := ⟨flags.pool, page, cnt⟩ :: s.live })
    | none => if flags.assert then .error () else .ok (none, s)

/-- `palloc_free_multiple`, or a failed assertion. -/
def Palloc.free (s : Palloc) (page cnt : ℕ) : Except Unit Palloc :=
  match pallocFreeMultiple s.pools page cnt with
  | some pools => .ok { s with
      pools
      mem := if page = 0 ∨ cnt = 0 then s.mem else memset s.mem page 0xcc (pgSize * cnt)
      live := s.live.filter fun a => a.page ≠ page }
  | none => .error ()

/-- A call. -/
inductive PallocOp where
  | get (flags : PallocFlags) (cnt : ℕ)
  | free (page cnt : ℕ)

/-- The effect of a call. -/
def Palloc.exec (s : Palloc) : PallocOp → Except Unit Palloc
  | .get flags cnt => (s.get flags cnt).map Prod.snd
  | .free page cnt => s.free page cnt

/-- Only what is allocated is freed. -/
def Palloc.Allowed (s : Palloc) : PallocOp → Prop
  | .get _ _ => True
  | .free page cnt => ∃ a ∈ s.live, a.page = page ∧ a.cnt = cnt

/-! ## What the calls should do -/

/-- **Where the pools are**: in free memory, apart from each other and from both bitmaps. -/
structure LaidOut (ext userPageLimit : ℕ) (s : Palloc) : Prop where
  inside : ∀ n, ∀ q ∈ poolPages (s.pools n),
    freeStart ≤ q ∧ q + pgSize ≤ physBase + initRamPages ext * pgSize
  apart : ∀ q ∈ poolPages (s.pools .kernel), q ∉ poolPages (s.pools .user)
  bitmaps : ∀ n m, ∀ q ∈ poolPages (s.pools n), q ∉ bitmapPages ext userPageLimit m

/-- The page is one of the pool, and it is not marked. -/
def FreePage (pool : Pool) (q : ℕ) : Prop := q ∈ poolPages pool ∧ ¬ Used pool q

/-- No run of `cnt` pages of the pool is free. -/
def NoRun (pool : Pool) (cnt : ℕ) : Prop :=
  ∀ q, ¬ ∀ p ∈ pagesFrom q cnt, FreePage pool p

/-- **The pages are given out**: they are pages of the pool, they were free, no live allocation
has any of them, and afterwards they and no others are marked in addition. -/
structure GivenOut (s s' : Palloc) (n : PoolName) (page cnt : ℕ) : Prop where
  inPool : ∀ q ∈ pagesFrom page cnt, FreePage (s.pools n) q
  disjoint : ∀ a ∈ s.live, ∀ q ∈ pagesFrom page cnt, q ∉ a.pages
  marks : ∀ u q, Used (s'.pools u) q ↔ Used (s.pools u) q ∨ u = n ∧ q ∈ pagesFrom page cnt
  mem : ∀ b, b / pgSize * pgSize ∉ pagesFrom page cnt → s'.mem b = s.mem b
  live : s'.live = ⟨n, page, cnt⟩ :: s.live

/-- **The pages are given back**: they and no others become free, in the pool they are from. -/
structure GivenBack (s s' : Palloc) (a : Alloc) : Prop where
  marks : ∀ u q, Used (s'.pools u) q ↔ Used (s.pools u) q ∧ ¬ (u = a.pool ∧ q ∈ a.pages)
  mem : ∀ b, b / pgSize * pgSize ∉ a.pages → s'.mem b = s.mem b
  live : ∀ c, c ∈ s'.live ↔ c ∈ s.live ∧ c ≠ a

/-- What a call should do; `null` is what the null pointer should mean. -/
def CallOk (null : Pool → ℕ → Prop) (s : Palloc) : PallocOp → Prop
  | .get flags cnt =>
      (∀ page s', s.get flags cnt = .ok (some page, s') → GivenOut s s' flags.pool page cnt) ∧
      (∀ s', s.get flags cnt = .ok (none, s') → s' = s ∧ null (s.pools flags.pool) cnt) ∧
      (s.get flags cnt = .error () → flags.assert = true ∧ NoRun (s.pools flags.pool) cnt)
  | .free page cnt =>
      ∃ s', s.free page cnt = .ok s' ∧
        ∀ a ∈ s.live, a.page = page → a.cnt = cnt → GivenBack s s' a

/-- **The live allocations**: disjoint, and the marked pages are theirs. -/
structure LiveOk (s : Palloc) : Prop where
  disjoint : ∀ a ∈ s.live, ∀ b ∈ s.live, a ≠ b → ∀ q ∈ a.pages, q ∉ b.pages
  marks : ∀ n q, Used (s.pools n) q ↔ ∃ a ∈ s.live, a.pool = n ∧ q ∈ a.pages

/-- The invariant. -/
structure PallocOk (ext userPageLimit : ℕ) (s : Palloc) : Prop extends LiveOk s where
  laid : Laid (initRamPages ext) s.pools
  laidOut : LaidOut ext userPageLimit s
  nonempty : ∀ a ∈ s.live, 0 < a.cnt

/-! ## The pages of a pool -/

section Pages

variable {pools pools' : PoolName → Pool} {n u : PoolName} {pool : Pool} {page cnt q : ℕ}
  {ram ext userPageLimit : ℕ}

theorem mem_poolPages_of_used (h : Used pool q) : q ∈ poolPages pool := by
  obtain ⟨i, hi, -, rfl⟩ := h
  exact mem_pagesFrom.mpr ⟨i, hi, rfl⟩

theorem poolPages_setUsedMap (map : Bitmap) (hcnt : map.bitCnt = (pools n).usedMap.bitCnt)
    (u : PoolName) : poolPages (setUsedMap pools n map u) = poolPages (pools u) := by
  rcases eq_or_ne u n with rfl | hu
  · simp [poolPages, setUsedMap, hcnt]
  · simp [poolPages, setUsedMap, hu]

theorem poolPages_get (e : pallocGetMultiple pools n cnt = some (page, pools')) (u : PoolName) :
    poolPages (pools' u) = poolPages (pools u) := by
  unfold pallocGetMultiple at e
  split at e
  · cases e
  · unfold bitmapScanAndFlip at e
    cases hscan : bitmapScan (pools n).usedMap 0 cnt false with
    | none => simp [hscan] at e
    | some idx =>
        simp only [hscan, Option.some.injEq, Prod.mk.injEq] at e
        obtain ⟨-, rfl⟩ := e
        exact poolPages_setUsedMap ((pools n).usedMap.setRange idx cnt true) rfl u

theorem poolPages_freeRun (e : freeRun pools n page cnt = some pools') (u : PoolName) :
    poolPages (pools' u) = poolPages (pools u) := by
  simp only [freeRun, bitmapSetMultiple] at e
  split at e
  · next map _ hset =>
      split at hset
      · cases hset
        cases e
        exact poolPages_setUsedMap ((pools n).usedMap.setRange _ cnt false) rfl u
      · cases hset
  · cases e

theorem poolPages_free (e : pallocFreeMultiple pools page cnt = some pools') (u : PoolName) :
    poolPages (pools' u) = poolPages (pools u) := by
  unfold pallocFreeMultiple at e
  split at e
  · cases e
  split at e
  · cases e
    rfl
  split at e
  · exact poolPages_freeRun e u
  split at e
  · exact poolPages_freeRun e u
  · cases e

/-- Pages that are free and next to each other are a run of clear bits. -/
theorem freeRun_of_pages (hcnt : 0 < cnt) (h : ∀ p ∈ pagesFrom q cnt, FreePage pool p) :
    ∃ idx, pool.usedMap.FreeRun idx cnt := by
  have hmem : ∀ k < cnt, q + pgSize * k ∈ pagesFrom q cnt := fun k hk => mem_pagesFrom.mpr ⟨k, hk, rfl⟩
  obtain ⟨idx, -, hq⟩ := mem_pagesFrom.mp (h _ (hmem 0 hcnt)).1
  have hbit : ∀ k < cnt, idx + k < pool.usedMap.bitCnt ∧ pool.usedMap.bits (idx + k) = false := by
    intro k hk
    obtain ⟨hin, hfree⟩ := h _ (hmem k hk)
    obtain ⟨i, hi, e⟩ := mem_pagesFrom.mp hin
    have hik : i = idx + k := by
      simp only [pgSize] at hq e
      omega
    subst hik
    refine ⟨hi, ?_⟩
    by_contra hset
    exact hfree ⟨idx + k, hi, by simpa using hset, e⟩
  refine ⟨idx, ?_, fun i hlo hhi => ?_⟩
  · have := (hbit (cnt - 1) (by omega)).1
    omega
  · have := (hbit (i - idx) (by omega)).2
    rwa [Nat.add_sub_cancel' hlo] at this

/-- `memset` stays in its pages. -/
theorem memset_of_not_mem {mem : ℕ → UInt8} {value : UInt8} {b : ℕ} (ha : page % pgSize = 0)
    (hb : b / pgSize * pgSize ∉ pagesFrom page cnt) : memset mem page value (pgSize * cnt) b = mem b := by
  refine if_neg fun hin => hb (mem_pagesFrom.mpr ⟨b / pgSize - page / pgSize, ?_, ?_⟩)
  · simp only [pgSize] at *
    omega
  · simp only [pgSize] at *
    omega

/-- The pages of a pool after `palloc_init`: those after the bitmap. -/
theorem mem_poolPages_init (ext userPageLimit : ℕ) (n : PoolName) : q ∈ poolPages
      (pallocInit (initRamPages ext) userPageLimit (fun _ _ => false) n) ↔
    ∃ k, bmPages (poolPageCnt ext userPageLimit n) ≤ k ∧ k < poolPageCnt ext userPageLimit n ∧
      q = poolStart ext userPageLimit n + pgSize * k := by
  have hpool : poolPages (pallocInit (initRamPages ext) userPageLimit (fun _ _ => false) n) =
      pagesFrom (poolStart ext userPageLimit n +
        bmPages (poolPageCnt ext userPageLimit n) * pgSize)
        (poolPageCnt ext userPageLimit n - bmPages (poolPageCnt ext userPageLimit n)) := by
    cases n <;> rfl
  rw [hpool, mem_pagesFrom]
  constructor
  · rintro ⟨k, hk, rfl⟩
    refine ⟨bmPages (poolPageCnt ext userPageLimit n) + k, by omega, by omega, ?_⟩
    rw [Nat.mul_add, Nat.mul_comm _ pgSize, Nat.add_assoc]
  · rintro ⟨k, hlo, hhi, rfl⟩
    refine ⟨k - bmPages (poolPageCnt ext userPageLimit n), by omega, ?_⟩
    rw [Nat.add_assoc, Nat.mul_comm _ pgSize, ← Nat.mul_add, Nat.add_sub_cancel' hlo]

theorem mem_bitmapPages {n : PoolName} : q ∈ bitmapPages ext userPageLimit n ↔
    ∃ k < bmPages (poolPageCnt ext userPageLimit n), q = poolStart ext userPageLimit n + pgSize * k :=
  mem_pagesFrom

/-- The `k`th page of the memory of a pool, counted from the start of free memory. -/
def pageNo (ext userPageLimit : ℕ) : PoolName → ℕ → ℕ
  | .kernel, k => k
  | .user, k => poolPageCnt ext userPageLimit .kernel + k

theorem poolStart_add (n : PoolName) (k : ℕ) : poolStart ext userPageLimit n + pgSize * k =
    freeStart + pgSize * pageNo ext userPageLimit n k := by
  cases n with
  | kernel => rfl
  | user => rw [poolStart, pageNo, Nat.add_assoc, Nat.mul_comm _ pgSize, Nat.mul_add]

theorem freeStart_eq : freeStart = physBase + 256 * pgSize := by decide

theorem page_inj {i j : ℕ} (e : freeStart + pgSize * i = freeStart + pgSize * j) : i = j := by
  have hpos : 0 < pgSize := by decide
  exact Nat.eq_of_mul_eq_mul_left hpos (Nat.add_left_cancel e)

theorem laidOut_init (ext userPageLimit : ℕ) (mem : ℕ → UInt8) (live : List Alloc)
    (hk : bmPages (poolPageCnt ext userPageLimit .kernel) ≤ poolPageCnt ext userPageLimit .kernel)
    (hu : bmPages (poolPageCnt ext userPageLimit .user) ≤ poolPageCnt ext userPageLimit .user) :
    LaidOut ext userPageLimit
      ⟨pallocInit (initRamPages ext) userPageLimit fun _ _ => false, mem, live⟩ := by
  have hsum : 256 + poolPageCnt ext userPageLimit .kernel + poolPageCnt ext userPageLimit .user =
      initRamPages ext := by
    simp only [poolPageCnt, initRamPages]
    omega
  constructor
  case inside =>
    intro n q hq
    obtain ⟨k, -, hlt, e⟩ := (mem_poolPages_init ext userPageLimit n).mp hq
    have hno : pageNo ext userPageLimit n k + 1 + 256 ≤ initRamPages ext := by
      cases n <;> simp only [pageNo] <;> omega
    rw [e, poolStart_add]
    refine ⟨Nat.le_add_right freeStart _, ?_⟩
    calc freeStart + pgSize * pageNo ext userPageLimit n k + pgSize
        = physBase + (pageNo ext userPageLimit n k + 1 + 256) * pgSize := by
          rw [freeStart_eq]
          ring
      _ ≤ physBase + initRamPages ext * pgSize :=
          Nat.add_le_add_left (Nat.mul_le_mul_right _ hno) _
  case apart =>
    intro q hq hq'
    obtain ⟨i, -, hi, e⟩ := (mem_poolPages_init ext userPageLimit .kernel).mp hq
    obtain ⟨j, -, -, e'⟩ := (mem_poolPages_init ext userPageLimit .user).mp hq'
    rw [e, poolStart_add, poolStart_add] at e'
    have := page_inj e'
    simp only [pageNo] at this
    omega
  case bitmaps =>
    intro n m q hq hq'
    obtain ⟨i, hlo, hi, e⟩ := (mem_poolPages_init ext userPageLimit n).mp hq
    obtain ⟨j, hj, e'⟩ := mem_bitmapPages.mp hq'
    rw [e, poolStart_add, poolStart_add] at e'
    have := page_inj e'
    cases n <;> cases m <;> simp only [pageNo] at this <;> omega

end Pages

/-! ## Runs -/

section Runs

variable {ext userPageLimit : ℕ} {s s' : Palloc} {n : PoolName} {page cnt : ℕ}

/-- What `palloc_get_multiple` does. -/
theorem get_cases (s : Palloc) (flags : PallocFlags) (cnt : ℕ) :
    (∃ page pools mem, pallocGetMultiple s.pools flags.pool cnt = some (page, pools) ∧
      (mem = s.mem ∨ mem = memset s.mem page 0 (pgSize * cnt)) ∧
      s.get flags cnt = .ok (some page, ⟨pools, mem, ⟨flags.pool, page, cnt⟩ :: s.live⟩)) ∨
    (s.get flags cnt = .ok (none, s) ∧ (cnt = 0 ∨ NoRun (s.pools flags.pool) cnt)) ∨
    (s.get flags cnt = .error () ∧ flags.assert = true ∧ NoRun (s.pools flags.pool) cnt) := by
  unfold Palloc.get
  by_cases hcnt : cnt = 0
  · rw [if_pos hcnt]
    exact .inr (.inl ⟨rfl, .inl hcnt⟩)
  rw [if_neg hcnt]
  cases e : pallocGetMultiple s.pools flags.pool cnt with
  | some r =>
      obtain ⟨page, pools⟩ := r
      refine .inl ⟨page, pools, _, rfl, ?_, rfl⟩
      cases flags.zero with
      | true => exact .inr rfl
      | false => exact .inl rfl
  | none =>
      have hno : NoRun (s.pools flags.pool) cnt := by
        intro q hq
        obtain ⟨idx, hrun⟩ := freeRun_of_pages (Nat.pos_of_ne_zero hcnt) hq
        exact (pallocGetMultiple_none (Nat.pos_of_ne_zero hcnt)).mp e idx hrun
      cases ha : flags.assert with
      | true => exact .inr (.inr ⟨by simp, rfl, hno⟩)
      | false => exact .inr (.inl ⟨by simp, .inr hno⟩)

/-- The pages `palloc_get_multiple` finds are given out. -/
theorem givenOut_of_get (h : PallocOk ext userPageLimit s) {pools : PoolName → Pool} {mem : ℕ → UInt8}
    (e : pallocGetMultiple s.pools n cnt = some (page, pools))
    (hmem : mem = s.mem ∨ mem = memset s.mem page 0 (pgSize * cnt)) :
    GivenOut s ⟨pools, mem, ⟨n, page, cnt⟩ :: s.live⟩ n page cnt := by
  obtain ⟨hcnt, hlaid, hfree, hmarks⟩ := pallocGetMultiple_some h.laid e
  have hnew : ∀ q ∈ pagesFrom page cnt, Used (pools n) q := fun q hq => (hmarks n q).mpr (.inr ⟨rfl, hq⟩)
  refine ⟨fun q hq => ⟨?_, hfree q hq n⟩, fun a ha q hq hqa => ?_, hmarks, fun b hb => ?_, rfl⟩
  · rw [← poolPages_get e n]
    exact mem_poolPages_of_used (hnew q hq)
  · exact hfree q hq a.pool ((h.marks _ _).mpr ⟨a, ha, rfl, hqa⟩)
  · have haligned : page % pgSize = 0 := by
      have hfirst : page ∈ pagesFrom page cnt := mem_pagesFrom.mpr ⟨0, hcnt, by simp⟩
      exact hlaid.page_aligned (hnew page hfirst)
    rcases hmem with rfl | rfl
    · rfl
    · exact memset_of_not_mem haligned hb

/-- The pages of a live allocation are given back. -/
theorem givenBack_of_free (h : PallocOk ext userPageLimit s) {a : Alloc} (ha : a ∈ s.live) :
    ∃ s', s.free a.page a.cnt = .ok s' ∧ GivenBack s s' a ∧ Laid (initRamPages ext) s'.pools ∧
      ∀ u, poolPages (s'.pools u) = poolPages (s.pools u) := by
  have hcnt := h.nonempty a ha
  have hused : ∀ q ∈ a.pages, Used (s.pools a.pool) q := fun q hq => (h.marks _ _).mpr ⟨a, ha, rfl, hq⟩
  obtain ⟨pools, e, hlaid, hmarks⟩ := pallocFreeMultiple_used h.laid hcnt hused
  have hfirst : a.page ∈ a.pages := mem_pagesFrom.mpr ⟨0, hcnt, by simp⟩
  have haligned := h.laid.page_aligned (hused _ hfirst)
  have hpos := h.laid.page_pos (hused _ hfirst)
  refine ⟨_, by rw [Palloc.free, e], ⟨hmarks, fun b hb => ?_, fun c => ?_⟩, hlaid, poolPages_free e⟩
  · show (if a.page = 0 ∨ a.cnt = 0 then s.mem else memset s.mem a.page 0xcc (pgSize * a.cnt)) b = _
    rw [if_neg (by omega)]
    exact memset_of_not_mem haligned hb
  · rw [List.mem_filter, decide_eq_true_eq]
    refine and_congr_right fun hc => ⟨fun hne e => hne (e ▸ rfl), fun hne hpage => ?_⟩
    -- two live allocations do not begin at the same page
    have hin : a.page ∈ c.pages := mem_pagesFrom.mpr ⟨0, h.nonempty c hc, by simpa using hpage.symm⟩
    exact h.disjoint c hc a ha hne _ hin hfirst

theorem PallocOk.get (h : PallocOk ext userPageLimit s) {pools : PoolName → Pool} {mem : ℕ → UInt8}
    (e : pallocGetMultiple s.pools n cnt = some (page, pools))
    (hmem : mem = s.mem ∨ mem = memset s.mem page 0 (pgSize * cnt)) :
    PallocOk ext userPageLimit ⟨pools, mem, ⟨n, page, cnt⟩ :: s.live⟩ := by
  obtain ⟨hcnt, hlaid, -, -⟩ := pallocGetMultiple_some h.laid e
  have hg := givenOut_of_get h e hmem
  have hpages := poolPages_get e
  refine ⟨⟨fun a ha b hb hne q hqa hqb => ?_, fun u q => ?_⟩, hlaid, ⟨fun u => ?_, ?_, fun u => ?_⟩,
    fun a ha => ?_⟩
  · rcases List.mem_cons.mp ha with rfl | ha <;> rcases List.mem_cons.mp hb with rfl | hb
    · exact hne rfl
    · exact hg.disjoint b hb q hqa hqb
    · exact hg.disjoint a ha q hqb hqa
    · exact h.disjoint a ha b hb hne q hqa hqb
  · rw [hg.marks, h.marks]
    constructor
    · rintro (⟨a, ha, hu, hq⟩ | ⟨rfl, hq⟩)
      · exact ⟨a, List.mem_cons_of_mem _ ha, hu, hq⟩
      · exact ⟨_, List.mem_cons_self, rfl, hq⟩
    · rintro ⟨a, ha, hu, hq⟩
      rcases List.mem_cons.mp ha with rfl | ha
      · exact .inr ⟨hu.symm, hq⟩
      · exact .inl ⟨a, ha, hu, hq⟩
  · rw [hpages]
    exact h.laidOut.inside u
  · rw [hpages, hpages]
    exact h.laidOut.apart
  · rw [hpages]
    exact h.laidOut.bitmaps u
  · rcases List.mem_cons.mp ha with rfl | ha
    · exact hcnt
    · exact h.nonempty a ha

theorem PallocOk.free (h : PallocOk ext userPageLimit s) {a : Alloc} (ha : a ∈ s.live)
    (hf : GivenBack s s' a) (hlaid : Laid (initRamPages ext) s'.pools)
    (hpages : ∀ u, poolPages (s'.pools u) = poolPages (s.pools u)) :
    PallocOk ext userPageLimit s' := by
  refine ⟨⟨fun b hb c hc => ?_, fun u q => ?_⟩, hlaid, ⟨fun u => ?_, ?_, fun u => ?_⟩, fun b hb => ?_⟩
  · exact h.disjoint b ((hf.live b).mp hb).1 c ((hf.live c).mp hc).1
  · rw [hf.marks, h.marks]
    constructor
    · rintro ⟨⟨b, hb, hu, hq⟩, hnot⟩
      refine ⟨b, (hf.live b).mpr ⟨hb, ?_⟩, hu, hq⟩
      rintro rfl
      exact hnot ⟨hu.symm, hq⟩
    · rintro ⟨b, hb, hu, hq⟩
      obtain ⟨hb, hne⟩ := (hf.live b).mp hb
      exact ⟨⟨b, hb, hu, hq⟩, fun hqa => h.disjoint b hb a ha hne q hq hqa.2⟩
  · rw [hpages]
    exact h.laidOut.inside u
  · rw [hpages, hpages]
    exact h.laidOut.apart
  · rw [hpages]
    exact h.laidOut.bitmaps u
  · exact h.nonempty b ((hf.live b).mp hb).1

/-- **Every call does what it should.** -/
theorem PallocOk.callOk (h : PallocOk ext userPageLimit s) (op : PallocOp) (hop : s.Allowed op) :
    CallOk (fun pool cnt => cnt = 0 ∨ NoRun pool cnt) s op := by
  cases op with
  | get flags cnt =>
      rcases get_cases s flags cnt with ⟨page, pools, mem, e, hmem, hget⟩ | ⟨hget, hno⟩ | ⟨hget, ha, hno⟩
      · refine ⟨fun page' s' he => ?_, fun s' he => ?_, fun he => ?_⟩
        · rw [hget] at he
          cases he
          exact givenOut_of_get h e hmem
        · rw [hget] at he
          cases he
        · rw [hget] at he
          cases he
      · refine ⟨fun page' s' he => ?_, fun s' he => ?_, fun he => ?_⟩
        · rw [hget] at he
          cases he
        · rw [hget] at he
          cases he
          exact ⟨rfl, hno⟩
        · rw [hget] at he
          cases he
      · refine ⟨fun page' s' he => ?_, fun s' he => ?_, fun _ => ⟨ha, hno⟩⟩
        · rw [hget] at he
          cases he
        · rw [hget] at he
          cases he
  | free page cnt =>
      obtain ⟨a, ha, rfl, rfl⟩ := hop
      obtain ⟨s', e, hf, -, -⟩ := givenBack_of_free h ha
      refine ⟨s', e, fun b hb hpage hcnt => ?_⟩
      have hba : b = a := by
        by_contra hne
        have hb0 : b.page ∈ b.pages := mem_pagesFrom.mpr ⟨0, h.nonempty b hb, by simp⟩
        have ha0 : b.page ∈ a.pages := mem_pagesFrom.mpr ⟨0, h.nonempty a ha, by simpa using hpage⟩
        exact h.disjoint b hb a ha hne _ hb0 ha0
      exact hba ▸ hf

/-- A call keeps the invariant. -/
theorem PallocOk.step (h : PallocOk ext userPageLimit s)
    (hstep : OpStep Palloc.exec Palloc.Allowed s s') : PallocOk ext userPageLimit s' := by
  obtain ⟨op, hop, e⟩ := hstep
  cases op with
  | get flags cnt =>
      rw [Palloc.exec] at e
      rcases get_cases s flags cnt with ⟨page, pools, mem, e', hmem, hget⟩ | ⟨hget, -⟩ | ⟨hget, -, -⟩
      · rw [hget] at e
        cases e
        exact h.get e' hmem
      · rw [hget] at e
        cases e
        exact h
      · rw [hget] at e
        cases e
  | free page cnt =>
      obtain ⟨a, ha, rfl, rfl⟩ := hop
      obtain ⟨t, e', hf, hlaid, hpages⟩ := givenBack_of_free h ha
      rw [Palloc.exec, e'] at e
      cases e
      exact h.free ha hf hlaid hpages

theorem pallocOk_init {mem : ℕ → UInt8} (e : Palloc.init ext userPageLimit mem = some s) :
    PallocOk ext userPageLimit s := by
  unfold Palloc.init at e
  split at e
  · next hfit =>
      cases e
      have hram : 256 ≤ initRamPages ext := by
        simp only [initRamPages]
        omega
      refine ⟨⟨fun a ha => absurd ha List.not_mem_nil, fun u q => ?_⟩,
        laid_pallocInit (fun _ _ => false) hram hfit.1.1 hfit.2.1, laidOut_init _ _ _ _ hfit.1.1 hfit.2.1,
        fun a ha => absurd ha List.not_mem_nil⟩
      constructor
      · rintro ⟨i, -, hbit, -⟩
        cases u <;> cases hbit
      · rintro ⟨a, ha, -⟩
        cases ha
  · cases e

end Runs

/-- **The page allocator keeps its pages apart**, in every state reached from `palloc_init` by
calls that free what was allocated. -/
theorem palloc_of_run (ext userPageLimit : ℕ) (mem : ℕ → UInt8) (s0 s : Palloc)
    (init : Palloc.init ext userPageLimit mem = some s0)
    (run : Reaches (OpStep Palloc.exec Palloc.Allowed) s0 s) :
    LaidOut ext userPageLimit s ∧ LiveOk s ∧ ∀ op, s.Allowed op →
      CallOk (fun pool cnt => cnt = 0 ∨ NoRun pool cnt) s op := by
  have h := run.induct (fun _ _ hst hs => hs.step hst) (pallocOk_init init)
  exact ⟨h.laidOut, h.toLiveOk, h.callOk⟩

/-- A machine with 4 MB. -/
def fourMegabytes : Palloc :=
  ⟨pallocInit (initRamPages 3072) 1000 fun _ _ => false, fun _ => 0, []⟩

theorem fourMegabytes_init : Palloc.init 3072 1000 (fun _ => 0) = some fourMegabytes :=
  if_pos (by decide)

/-- Two pages of the kernel pool, three zeroed pages of the user pool, and the first two freed. -/
theorem palloc_of_small_run :
    ∃ s, Reaches (OpStep Palloc.exec Palloc.Allowed) fourMegabytes s ∧
      s.live = [⟨.user, 3223851008, 3⟩] ∧ LaidOut 3072 1000 s ∧ LiveOk s := by
  have e : ∃ s₁ s₂ s₃, fourMegabytes.exec (.get {} 2) = .ok s₁ ∧
      s₁.exec (.get { user := true, zero := true } 3) = .ok s₂ ∧
      s₂.exec (.free 3222278144 2) = .ok s₃ ∧
      s₂.live = [⟨.user, 3223851008, 3⟩, ⟨.kernel, 3222278144, 2⟩] ∧
      s₃.live = [⟨.user, 3223851008, 3⟩] := ⟨_, _, _, rfl, rfl, rfl, rfl, rfl⟩
  obtain ⟨s₁, s₂, s₃, e₁, e₂, e₃, hlive₂, hlive₃⟩ := e
  have allowed : s₂.Allowed (.free 3222278144 2) :=
    ⟨_, hlive₂ ▸ List.mem_cons_of_mem _ List.mem_cons_self, rfl, rfl⟩
  have run : Reaches (OpStep Palloc.exec Palloc.Allowed) fourMegabytes s₃ :=
    ((Relation.ReflTransGen.single ⟨.get {} 2, trivial, e₁⟩).tail
      ⟨.get { user := true, zero := true } 3, trivial, e₂⟩).tail
      ⟨.free 3222278144 2, allowed, e₃⟩
  obtain ⟨hlaid, hok, -⟩ := palloc_of_run 3072 1000 _ fourMegabytes s₃ fourMegabytes_init run
  exact ⟨s₃, run, hlive₃, hlaid, hok⟩

/-- **The null pointer is also the answer to a request for no pages.** -/
theorem null_for_no_pages : ¬ ∀ (ext userPageLimit : ℕ) (mem : ℕ → UInt8) (s0 s : Palloc),
    Palloc.init ext userPageLimit mem = some s0 →
    Reaches (OpStep Palloc.exec Palloc.Allowed) s0 s →
      LaidOut ext userPageLimit s ∧ LiveOk s ∧ ∀ op, s.Allowed op → CallOk NoRun s op := by
  intro claim
  obtain ⟨-, -, hcalls⟩ := claim 3072 1000 _ fourMegabytes fourMegabytes fourMegabytes_init .refl
  obtain ⟨-, hnull, -⟩ := hcalls (.get {} 0) trivial
  obtain ⟨-, hno⟩ := hnull fourMegabytes rfl
  exact hno 0 fun p hp => absurd hp List.not_mem_nil

end Pintos.Memory
