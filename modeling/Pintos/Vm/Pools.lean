import Pintos.FileSys.Bitmap

/-!
# The two pools of pages

`threads/palloc.c`, which is the same file in `fs_PintOS` and `vm_PintOS`: the layout of
the pools and the tests on their bitmaps.  A page is named by its kernel virtual address.
-/

namespace Pintos.Vm

/-! ## Layout -/

/-- `PGSIZE`. -/
def pgSize : ℕ := 4096

/-- `PHYS_BASE`, where kernel virtual addresses begin. -/
def physBase : ℕ := 0xC0000000

/-- `kernel_pool` and `user_pool`. -/
inductive PoolName where
  | kernel
  | user
deriving DecidableEq, Repr

/-- `struct pool`. -/
structure Pool where
  base : ℕ
  usedMap : Bitmap

/-- `enum palloc_flags`. -/
structure PallocFlags where
  assert : Bool := false
  zero : Bool := false
  user : Bool := false

/-- The pool the flags ask for. -/
def PallocFlags.pool (flags : PallocFlags) : PoolName := if flags.user then .user else .kernel

/-- `page_from_pool`. -/
def pageFromPool (pool : Pool) (page : ℕ) : Bool :=
  pool.base / pgSize ≤ page / pgSize && page / pgSize < pool.base / pgSize + pool.usedMap.bitCnt

/-- `init_pool`: the bitmap lies in the first pages of the pool. -/
def initPool (base pageCnt : ℕ) (used : ℕ → Bool) : Pool :=
  let bmPages := (8 + byteCnt pageCnt + (pgSize - 1)) / pgSize
  ⟨base + bmPages * pgSize, pageCnt - bmPages, used⟩

/-- `palloc_init`; `used` are the pages taken before the first process. -/
def pallocInit (initRamPages userPageLimit : ℕ) (used : PoolName → ℕ → Bool) : PoolName → Pool :=
  let freeStart := physBase + 1024 * 1024
  let freePages := initRamPages - 256
  let userPages := min (freePages / 2) userPageLimit
  fun
  | .kernel => initPool freeStart (freePages - userPages) (used .kernel)
  | .user => initPool (freeStart + (freePages - userPages) * pgSize) userPages (used .user)

/-- The pools with the bitmap of one of them replaced. -/
def setUsedMap (pools : PoolName → Pool) (n : PoolName) (usedMap : Bitmap) : PoolName → Pool :=
  Function.update pools n { pools n with usedMap }

/-- `palloc_get_multiple`, from the pool `n`: the first page, and the pools afterwards. -/
def pallocGetMultiple (pools : PoolName → Pool) (n : PoolName) (pageCnt : ℕ) :
    Option (ℕ × (PoolName → Pool)) :=
  if pageCnt = 0 then none
  else match bitmapScanAndFlip (pools n).usedMap 0 pageCnt false with
    | (some idx, usedMap) => some ((pools n).base + pgSize * idx, setUsedMap pools n usedMap)
    | (none, _) => none

/-- The end of `palloc_free_multiple`, once the pool is known; `none` is a failed
assertion. -/
def freeRun (pools : PoolName → Pool) (n : PoolName) (page pageCnt : ℕ) :
    Option (PoolName → Pool) :=
  let idx := page / pgSize - (pools n).base / pgSize
  match bitmapAll (pools n).usedMap idx pageCnt,
      bitmapSetMultiple (pools n).usedMap idx pageCnt false with
  | .ok true, .ok usedMap => some (setUsedMap pools n usedMap)
  | _, _ => none

/-- `palloc_free_multiple`; `none` is a failed assertion. -/
def pallocFreeMultiple (pools : PoolName → Pool) (page pageCnt : ℕ) : Option (PoolName → Pool) :=
  if page % pgSize ≠ 0 then none
  else if page = 0 ∨ pageCnt = 0 then some pools
  else if pageFromPool (pools .kernel) page then freeRun pools .kernel page pageCnt
  else if pageFromPool (pools .user) page then freeRun pools .user page pageCnt
  else none

/-- The `cnt` pages from `page` on. -/
def pagesFrom (page cnt : ℕ) : List ℕ := (List.range cnt).map fun k => page + pgSize * k

/-! ## Marked pages -/

/-- The page is one of the pool, and it is marked. -/
def Used (pool : Pool) (page : ℕ) : Prop :=
  ∃ idx, idx < pool.usedMap.bitCnt ∧ pool.usedMap.bits idx = true ∧ page = pool.base + pgSize * idx

/-- The two pools have no page in common, and none at address 0. -/
structure Apart (pools : PoolName → Pool) : Prop where
  aligned : ∀ n, (pools n).base % pgSize = 0
  positive : ∀ n, 0 < (pools n).base
  disjoint : ∀ i < (pools .kernel).usedMap.bitCnt, ∀ j,
    (pools .kernel).base + pgSize * i ≠ (pools .user).base + pgSize * j

section Pools

variable {pools : PoolName → Pool} {u v : PoolName} {p : ℕ}

/-- A marked page belongs to one pool. -/
theorem Apart.pool_eq (h : Apart pools) (hu : Used (pools u) p) (hv : Used (pools v) p) : u = v := by
  obtain ⟨i, hi, -, rfl⟩ := hu
  obtain ⟨j, hj, -, e⟩ := hv
  cases u <;> cases v
  · rfl
  · exact absurd e (h.disjoint i hi j)
  · exact absurd e.symm (h.disjoint j hj i)
  · rfl

theorem Apart.page_pos (h : Apart pools) (hu : Used (pools u) p) : 0 < p := by
  obtain ⟨i, -, -, rfl⟩ := hu
  exact Nat.add_pos_left (h.positive u) _

theorem Apart.page_aligned (h : Apart pools) (hu : Used (pools u) p) : p % pgSize = 0 := by
  obtain ⟨i, -, -, rfl⟩ := hu
  rw [Nat.add_mul_mod_self_left]
  exact h.aligned u

/-- The number `page_from_pool` and `palloc_free_page` compute for a page of a pool. -/
theorem page_div (pool : Pool) (i : ℕ) :
    (pool.base + pgSize * i) / pgSize = pool.base / pgSize + i :=
  Nat.add_mul_div_left _ _ (by decide)

/-- A scan for one page marks the page it finds. -/
theorem scanAndFlip_some {map map' : Bitmap} {idx : ℕ}
    (h : bitmapScanAndFlip map 0 1 false = (some idx, map')) :
    idx < map.bitCnt ∧ map.bits idx = false ∧ map' = map.setRange idx 1 true := by
  unfold bitmapScanAndFlip at h
  cases hscan : bitmapScan map 0 1 false with
  | none => simp [hscan] at h
  | some i =>
      simp only [hscan, Prod.mk.injEq, Option.some.injEq, Bool.not_false] at h
      obtain ⟨rfl, rfl⟩ := h
      obtain ⟨hlt, hfree⟩ := bitmapScan_some hscan
      exact ⟨by omega, by simpa using hfree i le_rfl (by omega), rfl⟩

/-- The pool `palloc_free_page` finds for a page is the one the page is from. -/
theorem pageFromPool_iff (h : Apart pools) (hu : Used (pools u) p) (n : PoolName) :
    pageFromPool (pools n) p = true ↔ n = u := by
  obtain ⟨i, hi, -, rfl⟩ := id hu
  simp only [pageFromPool, Bool.and_eq_true, decide_eq_true_eq, page_div]
  constructor
  · rintro ⟨h1, h2⟩
    -- the page as a page of pool `n`
    have e : (pools u).base + pgSize * i = (pools n).base +
        pgSize * ((pools u).base / pgSize + i - (pools n).base / pgSize) := by
      have hn := h.aligned n
      have hu := h.aligned u
      simp only [pgSize] at *
      omega
    cases n <;> cases u
    · rfl
    · exact absurd e.symm (h.disjoint _ (by omega) _)
    · exact absurd e (h.disjoint _ hi _)
    · rfl
  · rintro rfl
    exact ⟨Nat.le_add_right _ _, by omega⟩

end Pools

/-- The pools `palloc_init` lays out do not overlap. -/
theorem apart_pallocInit (ram limit : ℕ) (used : PoolName → ℕ → Bool) :
    Apart (pallocInit ram limit used) := by
  refine ⟨fun n => ?_, fun n => ?_, fun i hi j => ?_⟩
  · cases n <;> simp only [pallocInit, initPool, physBase, pgSize] <;> omega
  · cases n <;> simp only [pallocInit, initPool, physBase, pgSize] <;> omega
  · simp only [pallocInit, initPool, physBase, pgSize] at hi ⊢
    omega

/-! ## Taking and giving back -/

/-- Where the pools lie: apart from each other, and inside the memory the kernel maps. -/
structure Laid (ram : ℕ) (pools : PoolName → Pool) : Prop extends Apart pools where
  lower : ∀ n, physBase ≤ (pools n).base
  upper : ∀ n, (pools n).base + pgSize * (pools n).usedMap.bitCnt ≤ physBase + pgSize * ram

/-- `init_pool` does not panic. -/
def initPoolFits (pageCnt : ℕ) : Prop := (8 + byteCnt pageCnt + (pgSize - 1)) / pgSize ≤ pageCnt

theorem laid_pallocInit {ram limit : ℕ} (used : PoolName → ℕ → Bool) (hram : 256 ≤ ram)
    (hkernel : initPoolFits (ram - 256 - min ((ram - 256) / 2) limit))
    (huser : initPoolFits (min ((ram - 256) / 2) limit)) :
    Laid ram (pallocInit ram limit used) := by
  refine ⟨apart_pallocInit ram limit used, fun n => ?_, fun n => ?_⟩
  · cases n <;> simp only [pallocInit, initPool, physBase, pgSize] <;> omega
  · simp only [initPoolFits] at hkernel huser
    cases n <;> simp only [pallocInit, initPool, physBase, pgSize] at * <;> omega

section Runs

variable {ram : ℕ} {pools pools' : PoolName → Pool} {n u : PoolName} {page cnt q : ℕ}

theorem mem_pagesFrom : q ∈ pagesFrom page cnt ↔ ∃ k < cnt, q = page + pgSize * k := by
  simp [pagesFrom, eq_comm]

@[simp] theorem pagesFrom_one : pagesFrom page 1 = [page] := by
  simp [pagesFrom]

/-- Only the bitmaps change. -/
theorem Laid.setUsedMap (h : Laid ram pools) {map : Bitmap}
    (hcnt : map.bitCnt = (pools n).usedMap.bitCnt) : Laid ram (setUsedMap pools n map) := by
  have hbase : ∀ v, (Vm.setUsedMap pools n map v).base = (pools v).base := by
    intro v
    rcases eq_or_ne v n with rfl | hv
    · simp [Vm.setUsedMap]
    · simp [Vm.setUsedMap, hv]
  have hbits : ∀ v, (Vm.setUsedMap pools n map v).usedMap.bitCnt = (pools v).usedMap.bitCnt := by
    intro v
    rcases eq_or_ne v n with rfl | hv
    · simpa [Vm.setUsedMap] using hcnt
    · simp [Vm.setUsedMap, hv]
  refine ⟨⟨fun v => ?_, fun v => ?_, fun i hi j => ?_⟩, fun v => ?_, fun v => ?_⟩
  · rw [hbase]
    exact h.aligned v
  · rw [hbase]
    exact h.positive v
  · rw [hbits] at hi
    rw [hbase, hbase]
    exact h.disjoint i hi j
  · rw [hbase]
    exact h.lower v
  · rw [hbase, hbits]
    exact h.upper v

/-- The pages that are marked after a run of bits is set. -/
theorem used_setRange {idx : ℕ} (value : Bool) (hfit : idx + cnt ≤ (pools n).usedMap.bitCnt) :
    Used (setUsedMap pools n ((pools n).usedMap.setRange idx cnt value) u) q ↔
      if u = n ∧ q ∈ pagesFrom ((pools n).base + pgSize * idx) cnt then value = true
      else Used (pools u) q := by
  rcases eq_or_ne u n with rfl | hu
  · simp only [true_and, mem_pagesFrom]
    split
    · next hq =>
        obtain ⟨k, hk, rfl⟩ := hq
        constructor
        · rintro ⟨i, hi, hbit, e⟩
          have hik : i = idx + k := by
            simp only [setUsedMap, Function.update_self, pgSize] at e
            omega
          simpa [setUsedMap, Bitmap.setRange_bits, hik, hk] using hbit
        · intro hv
          refine ⟨idx + k, by simp [setUsedMap]; omega, ?_, ?_⟩
          · simp [setUsedMap, Bitmap.setRange_bits, hk, hv]
          · simp [setUsedMap, pgSize]
            omega
    · next hq =>
        have hsame : ∀ i, q = (pools u).base + pgSize * i →
            ((pools u).usedMap.setRange idx cnt value).bits i = (pools u).usedMap.bits i := by
          intro i e
          refine if_neg fun hi => hq ⟨i - idx, by omega, ?_⟩
          rw [e]
          simp only [pgSize]
          omega
        constructor
        · rintro ⟨i, hi, hbit, e⟩
          simp only [setUsedMap, Function.update_self] at hi hbit e
          exact ⟨i, hi, hsame i e ▸ hbit, e⟩
        · rintro ⟨i, hi, hbit, e⟩
          refine ⟨i, by simpa [setUsedMap] using hi, ?_, by simpa [setUsedMap] using e⟩
          simpa [setUsedMap, hsame i e] using hbit
  · simp [hu, setUsedMap]

/-- **`palloc_get_multiple` returns pages that were free, and marks them.** -/
theorem pallocGetMultiple_some (h : Laid ram pools)
    (e : pallocGetMultiple pools n cnt = some (page, pools')) :
    0 < cnt ∧ Laid ram pools' ∧ (∀ q ∈ pagesFrom page cnt, ∀ u, ¬ Used (pools u) q) ∧
      ∀ u q, Used (pools' u) q ↔ Used (pools u) q ∨ u = n ∧ q ∈ pagesFrom page cnt := by
  unfold pallocGetMultiple at e
  split at e
  · cases e
  · next hcnt =>
      unfold bitmapScanAndFlip at e
      cases hscan : bitmapScan (pools n).usedMap 0 cnt false with
      | none => simp [hscan] at e
      | some idx =>
          simp only [hscan, Bool.not_false, Option.some.injEq, Prod.mk.injEq] at e
          obtain ⟨rfl, rfl⟩ := e
          obtain ⟨hfit, hfree⟩ := bitmapScan_some hscan
          have hmark := fun u q => used_setRange (u := u) (q := q) true hfit
          refine ⟨Nat.pos_of_ne_zero hcnt, h.setUsedMap rfl, fun q hq u hused => ?_, fun u q => ?_⟩
          · obtain ⟨k, hk, rfl⟩ := mem_pagesFrom.mp hq
            obtain ⟨i, hi, hbit, e⟩ := hused
            have hun : u = n := by
              cases u <;> cases n
              · rfl
              · refine absurd e.symm ?_
                rw [Nat.add_assoc, ← Nat.mul_add]
                exact h.disjoint i hi _
              · refine absurd e ?_
                rw [Nat.add_assoc, ← Nat.mul_add]
                exact h.disjoint _ (by omega) _
              · rfl
            subst hun
            have hik : i = idx + k := by
              simp only [pgSize] at e
              omega
            rw [hik, hfree (idx + k) (by omega) (by omega)] at hbit
            cases hbit
          · rw [hmark]
            split
            · next hq => simp [hq]
            · next hq => simp [hq]

/-- It fails only if no run of free pages is long enough. -/
theorem pallocGetMultiple_none (hcnt : 0 < cnt) :
    pallocGetMultiple pools n cnt = none ↔ ∀ idx, ¬ (pools n).usedMap.FreeRun idx cnt := by
  unfold pallocGetMultiple
  rw [if_neg hcnt.ne', bitmapScanAndFlip]
  cases hscan : bitmapScan (pools n).usedMap 0 cnt false with
  | none =>
      simp only [true_iff]
      intro idx hrun
      obtain ⟨t, ht, -⟩ := bitmapScan_free hrun
      rw [hscan] at ht
      cases ht
  | some idx =>
      simp only [reduceCtorEq, false_iff, not_forall, not_not]
      exact ⟨idx, bitmapScan_some hscan⟩

/-- **`palloc_free_multiple` clears the marks of allocated pages.** -/
theorem pallocFreeMultiple_used (h : Laid ram pools) (hcnt : 0 < cnt)
    (hused : ∀ q ∈ pagesFrom page cnt, Used (pools n) q) :
    ∃ pools', pallocFreeMultiple pools page cnt = some pools' ∧ Laid ram pools' ∧
      ∀ u q, Used (pools' u) q ↔ Used (pools u) q ∧ ¬ (u = n ∧ q ∈ pagesFrom page cnt) := by
  have hmem : ∀ k < cnt, page + pgSize * k ∈ pagesFrom page cnt := fun k hk =>
    mem_pagesFrom.mpr ⟨k, hk, rfl⟩
  have hfirst : Used (pools n) page := by
    simpa using hused _ (hmem 0 hcnt)
  obtain ⟨idx, hidx, -, hpage⟩ := id hfirst
  have hno : page / pgSize - (pools n).base / pgSize = idx := by
    rw [hpage, page_div]
    omega
  have hbit : ∀ k < cnt, idx + k < (pools n).usedMap.bitCnt ∧
      (pools n).usedMap.bits (idx + k) = true := by
    intro k hk
    obtain ⟨i, hi, hb, e⟩ := hused _ (hmem k hk)
    have hik : i = idx + k := by
      rw [hpage] at e
      simp only [pgSize] at e
      omega
    exact hik ▸ ⟨hi, hb⟩
  have hfit : idx + cnt ≤ (pools n).usedMap.bitCnt := by
    have := (hbit (cnt - 1) (by omega)).1
    omega
  have hall : bitmapAll (pools n).usedMap idx cnt = .ok true := by
    have hrun : (pools n).usedMap.runHas idx false cnt = false :=
      runHas_eq_false.mpr fun k hk hlt => by
        have := (hbit (k - idx) (by omega)).2
        rw [Nat.add_sub_cancel' hk] at this
        simp [this]
    simp [bitmapAll, bitmapContains, hfit, hrun]
  have hfree : freeRun pools n page cnt =
      some (setUsedMap pools n ((pools n).usedMap.setRange idx cnt false)) := by
    simp only [freeRun, hno, hall, bitmapSetMultiple, if_pos hfit]
  have hpool := pageFromPool_iff h.toApart hfirst
  refine ⟨setUsedMap pools n ((pools n).usedMap.setRange idx cnt false), ?_, h.setUsedMap rfl,
    fun u q => ?_⟩
  · unfold pallocFreeMultiple
    have haligned := h.page_aligned hfirst
    have hpos := h.page_pos hfirst
    rw [if_neg (by simpa using haligned), if_neg (by omega)]
    cases n with
    | kernel => rw [if_pos ((hpool .kernel).mpr rfl), hfree]
    | user =>
        rw [if_neg (fun hk => by cases (hpool .kernel).mp hk), if_pos ((hpool .user).mpr rfl), hfree]
  · rw [used_setRange false hfit, ← hpage]
    split
    · next hq => simp [hq]
    · next hq => simp [hq]

end Runs

end Pintos.Vm
