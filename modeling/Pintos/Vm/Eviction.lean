import Pintos.Vm.Processes
import Pintos.Vm.SwapSlots

/-!
# Eviction, locking aside

What `get_frame` does when the pool has no free page, in a kernel whose three locks do
nothing (`locking = false`; with them the second `lock_acquire` in `store_swap` always
stops the kernel, see `Pintos.Vm.Frames`).

The victim is the first frame of `fifo_list`.  `store_swap` writes it to a free slot and
records the slot **in the table of the running thread**, and the entry is looked up under
the victim's address, although only `load_segment` makes entries.

* **`evictionOk_iff`** — exactly when a page is returned and the victim is recorded for
  the thread that owns it.
* **`eviction_without_entry`** — the page that `process_execute` forgets has no entry.
-/

namespace Pintos.Vm

open Lib

variable {s s' : Kernel} {page : ℕ}

theorem lockAcquire_off (l : Lock) (hl : s.locking = false) : lockAcquire l s = .ok () s := by
  simp [lockAcquire, hl]

theorem lockRelease_off (l : Lock) (hl : s.locking = false) : lockRelease l s = .ok () s := by
  simp [lockRelease, hl]

/-! ## Exact specifications of the common steps -/

theorem assert_exact (c : Bool) (s : Kernel) :
    Exactly (assert c s) (c = true) fun _ s' => s' = s := by
  cases c with
  | false => exact Bool.false_ne_true
  | true => exact ⟨rfl, rfl⟩

/-- Code without a value to return does not return. -/
theorem stops_of_empty (m : Code Empty) (s : Kernel) : ∃ e s', m s = .error e s' := by
  cases h : m s with
  | ok a s' => exact a.elim
  | error e s' => exact ⟨e, s', rfl⟩

theorem malloc_run (s : Kernel) :
    malloc s = .ok (s.heap s.mallocs) { s with mallocs := s.mallocs + 1 } := rfl

theorem orStop_exact {α : Type} (r : Except Fault α) (s : Kernel) :
    Exactly (orStop r s) (∃ a, r = .ok a) fun a s' => r = .ok a ∧ s' = s := by
  cases r with
  | ok a => exact ⟨⟨a, rfl⟩, rfl, rfl⟩
  | error e =>
      rintro ⟨a, h⟩
      cases h

theorem threadCurrent_exact (s : Kernel) :
    Exactly (threadCurrent s) (∃ th, s.threads s.current = some th)
      fun th s' => s.threads s.current = some th ∧ s' = s := by
  unfold threadCurrent
  simp only [fetch_bind]
  cases h : s.threads s.current with
  | none =>
      rintro ⟨th, e⟩
      cases e
  | some th => exact ⟨⟨th, rfl⟩, rfl, rfl⟩

/-! ## Slots -/

/-- The bitmap `store_swap` scans, which it makes first if need be. -/
def Kernel.slotMap (s : Kernel) : Bitmap :=
  if s.swap.isInitialized then s.swap.swapBitmap
  else bitmapCreate ((s.swap.role.map (·.size)).getD 0 / numSectorsPerPage) s.junk

/-- The slot `store_swap` takes. -/
def Kernel.freeSlot (s : Kernel) : Option ℕ := bitmapScan s.slotMap 0 1 false

/-- The kernel once `swap_init` has been called. -/
def Kernel.withSwap (s : Kernel) : Kernel :=
  if s.swap.isInitialized then s
  else { s with
    mallocs := s.mallocs + 1
    swap := { s.swap with isInitialized := true, swapBitmap := s.slotMap }
    holder := Function.update s.holder .swap none }

/-- `swap_init` needs a swap device and memory for the bitmap. -/
def Kernel.SwapReady (s : Kernel) : Prop :=
  s.swap.isInitialized = true ∨ s.swap.role.isSome = true ∧ s.heap s.mallocs = true

theorem ensureInit_run (hi : s.swap.isInitialized = false) {dev : Device}
    (hr : s.swap.role = some dev) : ensureInit s.junk s.swap =
      .ok { s.swap with isInitialized := true, swapBitmap := s.slotMap } := by
  simp [ensureInit, swapInit, Kernel.slotMap, hi, hr]

theorem ensureSwap_exact (s : Kernel) :
    Exactly (ensureSwap s) s.SwapReady fun _ s' => s' = s.withSwap := by
  unfold ensureSwap Kernel.SwapReady Kernel.withSwap
  simp only [fetch_bind]
  cases hi : s.swap.isInitialized with
  | true => exact ⟨.inl rfl, rfl⟩
  | false =>
      rw [if_neg Bool.false_ne_true, if_neg Bool.false_ne_true]
      simp only [fetch_bind]
      refine Exactly.mono (C := s.swap.role.isSome = true ∧ s.heap s.mallocs = true ∧ True)
        ((assert_exact _ s).bind fun _ s1 hrole e1 => ?_) (by simp) fun _ _ _ h => h
      subst e1
      rw [bind_of_ok (malloc_run s1)]
      refine (assert_exact (s1.heap s1.mallocs) _).bind fun _ s2 _ e2 => ?_
      subst e2
      obtain ⟨dev, hdev⟩ := Option.isSome_iff_exists.mp hrole
      simp only [fetch_bind, id]
      rw [ensureInit_run hi hdev]
      exact ⟨trivial, rfl⟩

/-- A slot that reaches past the end of the device. -/
theorem writeSlot_fails (mem : Memory) (uaddr base : ℕ) : ∀ (n i : ℕ) (dev dev' : Device), 0 < n →
    dev.size < base + i + n → base + i + n ≤ 2 ^ 32 →
      writeSlot mem uaddr base n i dev ≠ .ok dev' := by
  intro n
  induction n with
  | zero => exact fun i dev dev' h => absurd h (lt_irrefl 0)
  | succ n ih =>
      intro i dev dev' _ hlt hle
      rw [writeSlot, Nat.mod_eq_of_lt (by omega)]
      by_cases hi : base + i < dev.size
      · rw [blockWrite_ok _ hi, ok_bind]
        refine ih (i + 1) _ dev' (by omega) ?_ (by omega)
        rw [Device.put_size]
        omega
      · rw [blockWrite, if_neg hi]
        exact fun h => by cases h

/-- The slot's eight sectors lie on the swap device. -/
def SlotFits (swap : Swap) (i : ℕ) : Prop :=
  ∃ dev, swap.role = some dev ∧ 8 * i % 2 ^ 32 + 8 ≤ dev.size

/-- What `store_swap` needs past `swap_init`: a free slot on the device, and an entry. -/
structure Storable (w : SwapState) (page i : ℕ) : Prop where
  free : bitmapScan w.swap.swapBitmap 0 1 false = some i
  fits : SlotFits w.swap i
  entry : ∃ e, entryOf w.table page = some e

theorem ofInt32_slot (i : ℕ) : ofInt32 ((i : ℤ) * numSectorsPerPage) = 8 * i % 2 ^ 32 := by
  unfold ofInt32 numSectorsPerPage
  omega

/-- No slot: the sectors are the last eight there are numbers for, and no device has them. -/
theorem ofInt32_noSlot : ofInt32 ((-1 : ℤ) * numSectorsPerPage) = 2 ^ 32 - 8 := by decide

theorem storeSlot_ok {w : SwapState} {i : ℕ} (h : Storable w page i) :
    ∃ dev table, storeSlot w page = .ok ((i : ℤ),
        ⟨{ w.swap with role := some dev, swapBitmap := w.swap.swapBitmap.setRange i 1 true }, w.mem,
          table⟩) ∧
      ∃ e, entryOf table page = some e ∧ e.pageLocation = .inSwap ∧ e.swapIndex = i := by
  obtain ⟨dev, hdev, hsize⟩ := h.fits
  obtain ⟨e, he⟩ := h.entry
  have hflip : bitmapScanAndFlip w.swap.swapBitmap 0 1 false =
      (some i, w.swap.swapBitmap.setRange i 1 true) := by
    rw [bitmapScanAndFlip, h.free]
    rfl
  obtain ⟨dev', hwrite, -, -⟩ := writeSlot_spec w.mem page (8 * i % 2 ^ 32) 8 0 dev (by omega)
  obtain ⟨table, htable, hfind⟩ := changePageLocation_spec .inSwap (i : ℤ) he
  refine ⟨dev', table, ?_, _, (hfind page).trans (if_pos rfl), rfl, rfl⟩
  unfold storeSlot
  rw [hflip, Swap.device, hdev]
  simp only [ok_bind, ofInt32_slot]
  rw [show numSectorsPerPage = 8 from rfl, hwrite, ok_bind, htable]
  rfl

/-- `change_page_location` finds an entry or leaves the table. -/
theorem entry_of_changed {addr : ℕ} {t : Location} {idx : ℤ} : ∀ {table table' : List SupPage},
    changePageLocation addr t idx table = .ok table' → ∃ e, entryOf table addr = some e := by
  intro table
  induction table with
  | nil =>
      intro table' h
      cases h
  | cons p rest ih =>
      intro table' h
      by_cases hp : p.vAddr = addr
      · exact ⟨p, by simp [entryOf, hp]⟩
      · rw [changePageLocation, if_neg hp] at h
        cases hrest : changePageLocation addr t idx rest with
        | error e => simp [hrest] at h
        | ok rest' =>
            obtain ⟨e, he⟩ := ih hrest
            exact ⟨e, by simpa [entryOf, hp] using he⟩

/-- What `store_swap` does with the slot it found. -/
def storeAt (w : SwapState) (page : ℕ) (swapIndex : ℤ) (map : Bitmap) : Except Fault (ℤ × SwapState) := do
  let dev ← w.swap.device
  let dev ← writeSlot w.mem page (ofInt32 (swapIndex * numSectorsPerPage)) numSectorsPerPage 0 dev
  let table ← changePageLocation page .inSwap swapIndex w.table
  return (swapIndex, ⟨{ w.swap with role := some dev, swapBitmap := map }, w.mem, table⟩)

theorem storeAt_ok {w : SwapState} {swapIndex : ℤ} {map : Bitmap} {r : ℤ × SwapState}
    (h : storeAt w page swapIndex map = .ok r) :
    (∃ dev, w.swap.role = some dev ∧ ofInt32 (swapIndex * numSectorsPerPage) + 8 ≤ dev.size) ∧
      ∃ e, entryOf w.table page = some e := by
  unfold storeAt at h
  cases hrole : w.swap.role with
  | none => simp [Swap.device, hrole] at h
  | some dev =>
      rw [Swap.device, hrole, ok_bind] at h
      cases hwrite : writeSlot w.mem page (ofInt32 (swapIndex * numSectorsPerPage))
          numSectorsPerPage 0 dev with
      | error e => simp [hwrite] at h
      | ok dev' =>
          rw [hwrite, ok_bind] at h
          cases htable : changePageLocation page .inSwap swapIndex w.table with
          | error e => simp [htable] at h
          | ok table =>
              refine ⟨⟨dev, rfl, ?_⟩, entry_of_changed htable⟩
              by_contra hlt
              have hbase : ofInt32 (swapIndex * numSectorsPerPage) + 8 ≤ 2 ^ 32 := by
                unfold ofInt32 numSectorsPerPage
                omega
              exact writeSlot_fails w.mem page _ 8 0 dev dev' (by omega) (by omega) (by omega) hwrite

theorem storable_of_ok {w : SwapState} {r : ℤ × SwapState} (h : storeSlot w page = .ok r) :
    ∃ i, Storable w page i := by
  cases hscan : bitmapScan w.swap.swapBitmap 0 1 false with
  | none =>
      have hflip : bitmapScanAndFlip w.swap.swapBitmap 0 1 false = (none, w.swap.swapBitmap) := by
        rw [bitmapScanAndFlip, hscan]
      rw [storeSlot, hflip] at h
      obtain ⟨⟨dev, -, hsize⟩, -⟩ := storeAt_ok h
      rw [ofInt32_noSlot] at hsize
      have := dev.size_lt
      omega
  | some i =>
      have hflip : bitmapScanAndFlip w.swap.swapBitmap 0 1 false =
          (some i, w.swap.swapBitmap.setRange i 1 true) := by
        rw [bitmapScanAndFlip, hscan]
        rfl
      rw [storeSlot, hflip] at h
      obtain ⟨⟨dev, hdev, hsize⟩, hentry⟩ := storeAt_ok h
      rw [ofInt32_slot] at hsize
      exact ⟨i, hscan, ⟨dev, hdev, hsize⟩, hentry⟩

/-! ## `store_swap` -/

/-- The table of thread `t` says that the page is in slot `i`. -/
def SaysInSwap (s : Kernel) (t page i : ℕ) : Prop :=
  ∃ th e, s.threads t = some th ∧ entryOf th.supPageTable page = some e ∧
    e.pageLocation = .inSwap ∧ e.swapIndex = i

/-- What `store_swap` needs. -/
structure CanStore (s : Kernel) (page i : ℕ) : Prop where
  ready : s.SwapReady
  slot : s.freeSlot = some i
  fits : SlotFits s.swap i
  entry : ∃ th e, s.threads s.current = some th ∧ entryOf th.supPageTable page = some e

/-- What `store_swap` leaves. -/
structure Stored (s : Kernel) (page i : ℕ) (s' : Kernel) : Prop where
  pools : s'.pools = s.pools
  fifoList : s'.fifoList = s.fifoList
  locking : s'.locking = s.locking
  heap : s'.heap = s.heap
  mallocs : s'.mallocs = s.withSwap.mallocs
  current : s'.current = s.current
  recorded : SaysInSwap s' s.current page i
  others : ∀ t, t ≠ s.current → s'.threads t = s.threads t

theorem withSwap_swap (s : Kernel) :
    s.withSwap.swap.swapBitmap = s.slotMap ∧ s.withSwap.swap.role = s.swap.role := by
  unfold Kernel.withSwap Kernel.slotMap
  split
  · exact ⟨rfl, rfl⟩
  · exact ⟨rfl, rfl⟩

/-- Outside of the swap globals nothing has changed. -/
theorem withSwap_rest (s : Kernel) : s.withSwap.pools = s.pools ∧ s.withSwap.fifoList = s.fifoList ∧
    s.withSwap.locking = s.locking ∧ s.withSwap.heap = s.heap ∧ s.withSwap.current = s.current ∧
    s.withSwap.threads = s.threads := by
  unfold Kernel.withSwap
  split
  · exact ⟨rfl, rfl, rfl, rfl, rfl, rfl⟩
  · exact ⟨rfl, rfl, rfl, rfl, rfl, rfl⟩

theorem storable_iff {th : Thread} {i : ℕ} : Storable (s.withSwap.swapState th) page i ↔
    s.freeSlot = some i ∧ SlotFits s.swap i ∧ ∃ e, entryOf th.supPageTable page = some e := by
  have hmap := (withSwap_swap s).1
  have hrole := (withSwap_swap s).2
  constructor
  · intro h
    refine ⟨?_, ?_, h.entry⟩
    · rw [Kernel.freeSlot, ← hmap]
      exact h.free
    · rw [SlotFits, ← hrole]
      exact h.fits
  · rintro ⟨hfree, hfits, hentry⟩
    refine ⟨?_, ?_, hentry⟩
    · show bitmapScan s.withSwap.swap.swapBitmap 0 1 false = some i
      rw [hmap]
      exact hfree
    · show SlotFits s.withSwap.swap i
      rw [SlotFits, hrole]
      exact hfits

/-- The kernel after the work of `store_swap`. -/
theorem stored_of_run {th : Thread} {i : ℕ} {dev : Device} {map : Bitmap} {table : List SupPage}
    {e : SupPage} (hth : s.threads s.current = some th) (he : entryOf table page = some e)
    (hloc : e.pageLocation = .inSwap) (hidx : e.swapIndex = i) :
    Stored s page i (s.withSwap.setSwapState
      ⟨{ s.withSwap.swap with role := some dev, swapBitmap := map }, s.withSwap.mem, table⟩) := by
  obtain ⟨hpools, hfifo, hlock, hheap, hcur, hthreads⟩ := withSwap_rest s
  refine ⟨hpools, hfifo, hlock, hheap, rfl, hcur, ?_, fun t ht => ?_⟩
  · refine ⟨{ th with supPageTable := table }, e, ?_, he, hloc, hidx⟩
    simp [Kernel.setSwapState, Kernel.updateCurrent, hcur, hthreads, hth]
  · simp [Kernel.setSwapState, Kernel.updateCurrent, hcur, hthreads, Function.update_of_ne ht]

/-- **`store_swap` without its lock.** -/
theorem storeSwap_exact (hl : s.locking = false) (page : ℕ) :
    Exactly (storeSwap page s) (∃ i, CanStore s page i) fun _ s' => ∃ i, CanStore s page i ∧
      Stored s page i s' := by
  obtain ⟨-, -, hlock, -, hcur, hthreads⟩ := withSwap_rest s
  have hoff : s.withSwap.locking = false := hlock.trans hl
  unfold storeSwap
  refine Exactly.mono (C := s.SwapReady ∧ (∃ th, s.withSwap.threads s.withSwap.current = some th) ∧
      ∃ i th, s.threads s.current = some th ∧ Storable (s.withSwap.swapState th) page i)
    ((ensureSwap_exact s).bind fun _ s1 hready e1 => ?_) ?_ fun _ _ _ h => h
  · subst e1
    rw [bind_of_ok (lockAcquire_off .swap hoff)]
    refine (threadCurrent_exact _).bind fun th s2 _ h2 => ?_
    obtain ⟨hth, rfl⟩ := h2
    rw [hthreads, hcur] at hth
    simp only [fetch_bind, id]
    refine Exactly.mono (C := (∃ r, storeSlot (s.withSwap.swapState th) page = .ok r) ∧ True)
      ((orStop_exact _ _).bind fun r s3 _ h3 => ?_) ?_ fun _ _ _ h => h
    · obtain ⟨hrun, rfl⟩ := h3
      obtain ⟨i, hi⟩ := storable_of_ok hrun
      obtain ⟨dev, table, hrun', e, he, hloc, hidx⟩ := storeSlot_ok hi
      rw [hrun] at hrun'
      cases hrun'
      obtain ⟨hfree, hfits, hentry⟩ := storable_iff.mp hi
      obtain ⟨e', he'⟩ := hentry
      simp only [change_bind]
      rw [bind_of_ok (lockAcquire_off (s := s.withSwap.setSwapState _) .swap hoff)]
      exact ⟨trivial, i, ⟨hready, hfree, hfits, th, e', hth, he'⟩, stored_of_run hth he hloc hidx⟩
    · constructor
      · rintro ⟨⟨r, hrun⟩, -⟩
        obtain ⟨i, hi⟩ := storable_of_ok hrun
        exact ⟨i, th, hth, hi⟩
      · rintro ⟨i, th', hth', hi⟩
        rw [hth] at hth'
        cases hth'
        obtain ⟨dev, table, hrun, -⟩ := storeSlot_ok hi
        exact ⟨⟨_, hrun⟩, trivial⟩
  · constructor
    · rintro ⟨hready, -, i, th, hth, hi⟩
      obtain ⟨hfree, hfits, e, he⟩ := storable_iff.mp hi
      exact ⟨i, hready, hfree, hfits, th, e, hth, he⟩
    · rintro ⟨i, hready, hfree, hfits, th, e, hth, he⟩
      exact ⟨hready, ⟨th, by rw [hthreads, hcur]; exact hth⟩, i, th, hth,
        storable_iff.mpr ⟨hfree, hfits, e, he⟩⟩

/-! ## `palloc` -/

/-- The pool `palloc_free_page` frees a page in. -/
def Kernel.poolOf (s : Kernel) (page : ℕ) : Option PoolName :=
  if pageFromPool (s.pools .kernel) page then some .kernel
  else if pageFromPool (s.pools .user) page then some .user
  else none

/-- The number of the page in its pool. -/
def Kernel.pageIdx (s : Kernel) (n : PoolName) (page : ℕ) : ℕ :=
  page / pgSize - (s.pools n).base / pgSize

/-- What `palloc_free_page` needs of a page other than null. -/
def CanFree (s : Kernel) (page : ℕ) : Prop :=
  ∃ n, s.poolOf page = some n ∧ (s.pools n).usedMap.bits (s.pageIdx n page) = true

theorem poolOf_lt {n : PoolName} (h : s.poolOf page = some n) :
    s.pageIdx n page < (s.pools n).usedMap.bitCnt := by
  have hpool : pageFromPool (s.pools n) page = true := by
    unfold Kernel.poolOf at h
    split at h
    · next hk =>
        cases h
        exact hk
    · split at h
      · next hu =>
          cases h
          exact hu
      · cases h
  simp only [pageFromPool, Bool.and_eq_true, decide_eq_true_eq] at hpool
  unfold Kernel.pageIdx
  omega

/-- The kernel with a page given back. -/
def Kernel.freed (s : Kernel) (n : PoolName) (page : ℕ) : Kernel :=
  { { s with mem := fillPage s.mem page 0xcc }.setUsed n
      ((s.pools n).usedMap.setRange (s.pageIdx n page) 1 false) with
    handed := s.handed.erase page }

theorem freeInPool_exact {n : PoolName} (h : s.poolOf page = some n) :
    Exactly (freeInPool n page s) ((s.pools n).usedMap.bits (s.pageIdx n page) = true)
      fun _ s' => s' = s.freed n page := by
  have hlt := poolOf_lt h
  unfold freeInPool
  simp only [fetch_bind, change_bind]
  have hall : bitmapAll (s.pools n).usedMap (s.pageIdx n page) 1 =
      .ok ((s.pools n).usedMap.bits (s.pageIdx n page)) := by
    rw [bitmapAll, bitmapContains, if_pos (by omega)]
    cases hb : (s.pools n).usedMap.bits (s.pageIdx n page) <;> simp [Bitmap.runHas, hb]
  have hset : bitmapSetMultiple (s.pools n).usedMap (s.pageIdx n page) 1 false =
      .ok ((s.pools n).usedMap.setRange (s.pageIdx n page) 1 false) := if_pos (by omega)
  show Exactly ((orStop (bitmapAll (s.pools n).usedMap (s.pageIdx n page) 1) >>= _) _) _ _
  rw [hall]
  cases (s.pools n).usedMap.bits (s.pageIdx n page) with
  | false => exact Bool.false_ne_true
  | true =>
      show Exactly ((orStop (bitmapSetMultiple (s.pools n).usedMap (s.pageIdx n page) 1 false) >>= _) _) _ _
      rw [hset]
      exact ⟨rfl, rfl⟩

/-- **`palloc_free_page`.** -/
theorem pallocFreePage_exact (s : Kernel) (page : ℕ) :
    Exactly (pallocFreePage page s) (page % pgSize = 0 ∧ (page = 0 ∨ CanFree s page))
      fun _ s' => page = 0 ∧ s' = s ∨ page ≠ 0 ∧ ∃ n, s.poolOf page = some n ∧ s' = s.freed n page := by
  unfold pallocFreePage
  refine Exactly.mono (C := decide (page % pgSize = 0) = true ∧ (page = 0 ∨ CanFree s page))
    ((assert_exact _ s).bind fun _ s1 _ e1 => ?_) (by rw [decide_eq_true_eq]) fun _ _ _ h => h
  subst e1
  by_cases h0 : page = 0
  · rw [if_pos h0]
    exact ⟨.inl h0, .inl ⟨h0, rfl⟩⟩
  rw [if_neg h0]
  simp only [fetch_bind]
  have hpool : ∀ n, s1.poolOf page = some n → Exactly (freeInPool n page s1)
      (page = 0 ∨ CanFree s1 page) fun _ s' => page = 0 ∧ s' = s1 ∨ page ≠ 0 ∧
        ∃ n, s1.poolOf page = some n ∧ s' = s1.freed n page := by
    intro n hn
    refine (freeInPool_exact hn).mono ?_ fun _ s' _ e => .inr ⟨h0, n, hn, e⟩
    constructor
    · exact fun hb => .inr ⟨n, hn, hb⟩
    · rintro (h | ⟨m, hm, hb⟩)
      · exact absurd h h0
      · rw [hn] at hm
        cases hm
        exact hb
  by_cases hk : pageFromPool (s1.pools .kernel) page = true
  · rw [if_pos hk]
    exact hpool .kernel (by rw [Kernel.poolOf, if_pos hk])
  rw [if_neg hk]
  by_cases hu : pageFromPool (s1.pools .user) page = true
  · rw [if_pos hu]
    exact hpool .user (by rw [Kernel.poolOf, if_neg hk, if_pos hu])
  rw [if_neg hu]
  rintro (h | ⟨m, hm, -⟩)
  · exact h0 h
  · rw [Kernel.poolOf, if_neg hk, if_neg hu] at hm
    cases hm

/-- The pool has no free page. -/
def Kernel.Full (s : Kernel) (n : PoolName) : Prop := bitmapScan (s.pools n).usedMap 0 1 false = none

theorem pallocGetPage_full {flags : PallocFlags} (h : s.Full flags.pool) :
    Exactly (pallocGetPage flags s) (flags.assert = false) fun r s' => r = none ∧ s' = s := by
  have hflip : bitmapScanAndFlip (s.pools flags.pool).usedMap 0 1 false =
      (none, (s.pools flags.pool).usedMap) := by
    rw [bitmapScanAndFlip, h]
  unfold pallocGetPage
  simp only [fetch_bind]
  rw [hflip]
  refine Exactly.mono (C := (!flags.assert) = true ∧ True)
    ((assert_exact _ s).bind fun _ s1 _ e1 => ⟨trivial, rfl, e1⟩) (by simp) fun _ _ _ h => h

/-- A free page is found. -/
theorem pallocGetPage_free {flags : PallocFlags} {idx : ℕ}
    (h : bitmapScan (s.pools flags.pool).usedMap 0 1 false = some idx) :
    ∃ page s', pallocGetPage flags s = .ok (some page) s' ∧ s'.threads = s.threads ∧
      s'.locking = s.locking ∧ s'.heap = s.heap ∧ s'.mallocs = s.mallocs ∧
      s'.current = s.current := by
  have hflip : bitmapScanAndFlip (s.pools flags.pool).usedMap 0 1 false =
      (some idx, (s.pools flags.pool).usedMap.setRange idx 1 true) := by
    rw [bitmapScanAndFlip, h]
    rfl
  unfold pallocGetPage
  simp only [fetch_bind]
  rw [hflip]
  exact ⟨_, _, rfl, rfl, rfl, rfl, rfl, rfl⟩

/-! ## `evict_frame` and `get_frame` -/

variable {f : Frame} {rest : List Frame} {flags : PallocFlags} {fuel i : ℕ}

theorem canStore_popped : CanStore { s with fifoList := rest } page i ↔ CanStore s page i :=
  ⟨fun h => ⟨h.ready, h.slot, h.fits, h.entry⟩, fun h => ⟨h.ready, h.slot, h.fits, h.entry⟩⟩

/-- `evict_frame` takes the first frame, stores it and gives its page back. -/
theorem evictFrame_exact (hl : s.locking = false) (hf : s.fifoList = f :: rest) :
    Exactly (evictFrame s) ((∃ i, CanStore s f.page i) ∧ f.page % pgSize = 0 ∧
        (f.page = 0 ∨ CanFree s f.page))
      fun _ s' => ∃ i s1, CanStore s f.page i ∧ Stored { s with fifoList := rest } f.page i s1 ∧
        (f.page = 0 ∧ s' = s1 ∨
          f.page ≠ 0 ∧ ∃ n, s1.poolOf f.page = some n ∧ s' = s1.freed n f.page) := by
  unfold evictFrame
  simp only [fetch_bind, hf, change_bind]
  have hstore : Exactly (storeSwap f.page { s with fifoList := rest }) (∃ i, CanStore s f.page i)
      fun _ s1 => ∃ i, CanStore s f.page i ∧ Stored { s with fifoList := rest } f.page i s1 :=
    (storeSwap_exact (s := { s with fifoList := rest }) hl f.page).mono
      (exists_congr fun _ => canStore_popped) fun _ _ _ h => by
        obtain ⟨i, hi, hst⟩ := h
        exact ⟨i, canStore_popped.mp hi, hst⟩
  refine hstore.bind fun _ s1 _ h1 => ?_
  obtain ⟨i, hi, hst⟩ := h1
  have hcan : CanFree s1 f.page ↔ CanFree s f.page := by
    unfold CanFree Kernel.poolOf Kernel.pageIdx
    rw [hst.pools]
  refine (pallocFreePage_exact s1 f.page).mono (by rw [hcan]) fun _ s2 _ h2 => ?_
  exact ⟨i, s1, hi, hst, h2⟩

/-- The part of `get_frame` after the eviction. -/
def afterEviction (fuel : ℕ) (flags : PallocFlags) : Code (Option ℕ) := do
  let addr ← pallocGetPage flags
  recordFrame fuel addr
  lockRelease .frame
  return addr

/-- `get_frame` when there is no page. -/
theorem getFrame_full (hl : s.locking = false) (hfull : s.Full flags.pool)
    (ha : flags.assert = false) :
    getFrame fuel flags s = (evictFrame >>= fun _ => afterEviction fuel flags) s := by
  obtain ⟨r, s1, hrun, rfl, rfl⟩ := (pallocGetPage_full hfull).returns ha
  have hfind : findPage flags s1 = (evictFrame >>= fun _ => pallocGetPage flags) s1 := by
    rw [findPage, bind_of_ok hrun]
  rw [getFrame, bind_of_ok (lockAcquire_off .frame hl)]
  cases hevict : evictFrame s1 with
  | error e s2 =>
      rw [bind_of_error hevict] at hfind
      rw [bind_of_error hfind, bind_of_error hevict]
  | ok u s2 =>
      rw [bind_of_ok hevict] at hfind
      rw [bind_of_ok hevict, afterEviction]
      cases hpage : pallocGetPage flags s2 with
      | error e s3 =>
          rw [hpage] at hfind
          rw [bind_of_error hfind, bind_of_error hpage]
      | ok addr s3 =>
          rw [hpage] at hfind
          rw [bind_of_ok hfind, bind_of_ok hpage]

/-- The frame is recorded if there is memory for it; otherwise the thread dies. -/
theorem afterEviction_free (hl : s.locking = false) {idx : ℕ}
    (h : bitmapScan (s.pools flags.pool).usedMap 0 1 false = some idx) :
    Exactly (afterEviction fuel flags s) (s.heap s.mallocs = true)
      fun r s' => r.isSome = true ∧ s'.threads = s.threads := by
  obtain ⟨page, s1, hrun, hthreads, hlock, hheap, hmallocs, -⟩ := pallocGetPage_free h
  rw [afterEviction, bind_of_ok hrun]
  rw [← hheap, ← hmallocs]
  cases hm : s1.heap s1.mallocs with
  | true =>
      have hrec : recordFrame fuel (some page) s1 = .ok () { s1 with
          mallocs := s1.mallocs + 1
          fifoList := s1.fifoList ++ [⟨page, s1.current⟩]
          handed := s1.handed ++ [page] } := by
        rw [recordFrame, bind_of_ok (malloc_run s1), hm]
        rfl
      have hrel := lockRelease_off (s := { s1 with
          mallocs := s1.mallocs + 1
          fifoList := s1.fifoList ++ [⟨page, s1.current⟩]
          handed := s1.handed ++ [page] }) .frame (hlock.trans hl)
      rw [bind_of_ok hrec, bind_of_ok hrel]
      exact ⟨rfl, rfl, hthreads⟩
  | false =>
      obtain ⟨e, s2, he⟩ := stops_of_empty (nullWrite fuel) { s1 with mallocs := s1.mallocs + 1 }
      have hrec : recordFrame fuel (some page) s1 = .error e s2 := by
        rw [recordFrame, bind_of_ok (malloc_run s1), hm, if_neg Bool.false_ne_true]
        exact bind_of_error he
      rw [bind_of_error hrec]
      exact Bool.false_ne_true

/-- Nothing to record. -/
theorem afterEviction_full (hl : s.locking = false) (h : s.Full flags.pool)
    (ha : flags.assert = false) : afterEviction fuel flags s = .ok none s := by
  obtain ⟨r, s1, hrun, rfl, rfl⟩ := (pallocGetPage_full h).returns ha
  rw [afterEviction, bind_of_ok hrun]
  show (lockRelease .frame >>= fun _ => pure none) s1 = _
  rw [bind_of_ok (lockRelease_off .frame hl)]
  rfl

/-- Nothing was given up. -/
structure Untouched (s s' : Kernel) : Prop where
  fifoList : s'.fifoList = s.fifoList
  swapBitmap : s'.swap.swapBitmap = s.swap.swapBitmap
  device : s'.swap.role = s.swap.role
  tables : ∀ t, (s'.threads t).map (·.supPageTable) = (s.threads t).map (·.supPageTable)

/-- **Eviction completes**: the victim is recorded in the table of its owner and a page is
returned, or there is no slot and nothing happens. -/
structure EvictionOk (fuel : ℕ) (flags : PallocFlags) (s : Kernel) (f : Frame) : Prop where
  evicted : ∀ i, s.freeSlot = some i → ∃ page s', getFrame fuel flags s = .ok (some page) s' ∧
    SaysInSwap s' f.thread f.page i
  refused : s.freeSlot = none → ∃ s', getFrame fuel flags s = .ok none s' ∧ Untouched s s'

/-- What it takes. -/
structure Evictable (flags : PallocFlags) (s : Kernel) (f : Frame) (i : ℕ) : Prop where
  /-- There is a slot, and the running thread has an entry for the victim. -/
  store : CanStore s f.page i
  /-- The victim is an allocated page of the pool that is asked for a page. -/
  aligned : f.page % pgSize = 0
  nonnull : f.page ≠ 0
  pool : s.poolOf f.page = some flags.pool
  marked : (s.pools flags.pool).usedMap.bits (s.pageIdx flags.pool f.page) = true
  /-- A first failure of `palloc_get_page` is not the end. -/
  noAssert : flags.assert = false
  /-- There is memory for the new `struct frame`. -/
  record : s.heap s.withSwap.mallocs = true
  /-- The owner is the running thread, or its entry says already what it should. -/
  owner : f.thread = s.current ∨ SaysInSwap s f.thread f.page i

/-- The page that was given back is free. -/
theorem scan_freed {s1 : Kernel} {n : PoolName} (h : s1.poolOf page = some n) :
    ∃ idx, bitmapScan ((s1.freed n page).pools n).usedMap 0 1 false = some idx := by
  have hlt := poolOf_lt h
  have hfree : ((s1.freed n page).pools n).usedMap.FreeRun (s1.pageIdx n page) 1 := by
    simp only [Kernel.freed, Kernel.setUsed, Function.update_self]
    refine ⟨by simpa using hlt, fun k hk hlt => ?_⟩
    rw [Bitmap.setRange_bits, if_pos ⟨hk, hlt⟩]
  obtain ⟨idx, hscan, -⟩ := bitmapScan_free hfree
  exact ⟨idx, hscan⟩

/-- A page of the other pool does not help. -/
theorem full_freed {s1 : Kernel} {n : PoolName} (hn : n ≠ flags.pool) (h : s1.Full flags.pool) :
    (s1.freed n page).Full flags.pool := by
  unfold Kernel.Full at *
  simpa [Kernel.freed, Kernel.setUsed, Function.update_of_ne hn.symm] using h

theorem saysInSwap_owner {s1 s2 : Kernel} (hst : Stored { s with fifoList := rest } f.page i s1)
    (hthreads : s2.threads = s1.threads) :
    SaysInSwap s2 f.thread f.page i ↔ f.thread = s.current ∨ SaysInSwap s f.thread f.page i := by
  unfold SaysInSwap
  rw [hthreads]
  constructor
  · intro h
    by_cases ht : f.thread = s.current
    · exact .inl ht
    · rw [hst.others f.thread ht] at h
      exact .inr h
  · intro h
    by_cases ht : f.thread = s.current
    · rw [ht]
      exact hst.recorded
    · rw [hst.others f.thread ht]
      exact h.resolve_left ht

/-- `get_frame` returns null although there was a slot. -/
theorem not_evictionOk_of_none (hi : s.freeSlot = some i) {s2 : Kernel}
    (hrun : getFrame fuel flags s = .ok none s2) : ¬ EvictionOk fuel flags s f := by
  intro hok
  obtain ⟨page, s', hrun', -⟩ := hok.evicted i hi
  rw [hrun] at hrun'
  cases hrun'

/-- **Once the victim is stored and freed.** -/
theorem evictionOk_of_evicted {s1 s2 : Kernel} (hl : s.locking = false) (hfull : s.Full flags.pool)
    (ha : flags.assert = false) (hi : CanStore s f.page i)
    (hst : Stored { s with fifoList := rest } f.page i s1)
    (hcase : f.page = 0 ∧ s2 = s1 ∨
      f.page ≠ 0 ∧ ∃ n, s1.poolOf f.page = some n ∧ s2 = s1.freed n f.page)
    (hpage : f.page % pgSize = 0 ∧ (f.page = 0 ∨ CanFree s f.page))
    (hrun : getFrame fuel flags s = afterEviction fuel flags s2) :
    EvictionOk fuel flags s f ↔ ∃ i, Evictable flags s f i := by
  have hl1 : s1.locking = false := hst.locking.trans hl
  have hfull1 : s1.Full flags.pool := by
    rw [Kernel.Full, hst.pools]
    exact hfull
  have hpool : s1.poolOf f.page = s.poolOf f.page := by
    rw [Kernel.poolOf, hst.pools]
    rfl
  rcases hcase with ⟨h0, rfl⟩ | ⟨h0, n, hn, rfl⟩
  · -- a null page is not freed
    rw [afterEviction_full hl1 hfull1 ha] at hrun
    exact iff_of_false (not_evictionOk_of_none hi.slot hrun) fun ⟨_, h⟩ => h.nonnull h0
  by_cases hne : n = flags.pool
  · subst hne
    obtain ⟨idx, hscan⟩ := scan_freed hn
    have hexact : Exactly (afterEviction fuel flags (s1.freed flags.pool f.page)) _ _ :=
      afterEviction_free hl1 hscan
    have hheap : (s1.freed flags.pool f.page).heap (s1.freed flags.pool f.page).mallocs =
        s.heap s.withSwap.mallocs := by
      show s1.heap s1.mallocs = _
      rw [hst.heap, hst.mallocs]
      unfold Kernel.withSwap
      split <;> rfl
    rw [hheap, ← hrun] at hexact
    constructor
    · intro hok
      obtain ⟨page, s', hrun', hsays⟩ := hok.evicted i hi.slot
      have hrecord : s.heap s.withSwap.mallocs = true := by
        by_contra hno
        obtain ⟨e, s'', herr⟩ := hexact.stops hno
        rw [hrun'] at herr
        cases herr
      obtain ⟨r, s'', hr, -, hthreads⟩ := hexact.returns hrecord
      rw [hrun'] at hr
      cases hr
      obtain ⟨m, hm, hmarked⟩ := hpage.2.resolve_left h0
      rw [hpool] at hn
      rw [hn] at hm
      cases hm
      exact ⟨i, hi, hpage.1, h0, hn, hmarked, ha, hrecord, (saysInSwap_owner hst hthreads).mp hsays⟩
    · rintro ⟨j, h⟩
      have hj : j = i := Option.some.inj (h.store.slot.symm.trans hi.slot)
      subst hj
      obtain ⟨r, s'', hr, hsome, hthreads⟩ := hexact.returns h.record
      obtain ⟨page, rfl⟩ := Option.isSome_iff_exists.mp hsome
      refine ⟨fun k hk => ⟨page, s'', hr, ?_⟩, fun hnone => ?_⟩
      · have hk : k = j := Option.some.inj (hk.symm.trans hi.slot)
        rw [hk]
        exact (saysInSwap_owner hst hthreads).mpr h.owner
      · rw [hi.slot] at hnone
        cases hnone
  · rw [afterEviction_full (s := s1.freed n f.page) hl1 (full_freed hne hfull1) ha] at hrun
    refine iff_of_false (not_evictionOk_of_none hi.slot hrun) fun ⟨_, h⟩ => hne ?_
    rw [hpool, h.pool] at hn
    exact (Option.some.inj hn).symm

/-- **When eviction completes.** -/
theorem evictionOk_iff (fuel : ℕ) (hl : s.locking = false) (hfull : s.Full flags.pool)
    (hf : s.fifoList = f :: rest) : EvictionOk fuel flags s f ↔ ∃ i, Evictable flags s f i := by
  -- a kernel that stops does not complete the eviction, whether there is a slot or not
  have hstop : (∃ e s', getFrame fuel flags s = .error e s') → ¬ EvictionOk fuel flags s f := by
    rintro ⟨e, s', herr⟩ hok
    cases hslot : s.freeSlot with
    | none =>
        obtain ⟨s'', hrun, -⟩ := hok.refused hslot
        rw [herr] at hrun
        cases hrun
    | some i =>
        obtain ⟨page, s'', hrun, -⟩ := hok.evicted i hslot
        rw [herr] at hrun
        cases hrun
  cases ha : flags.assert with
  | true =>
      refine iff_of_false (hstop ?_) ?_
      · obtain ⟨e, s1, herr⟩ := (pallocGetPage_full hfull).stops (by simp [ha])
        refine ⟨e, s1, ?_⟩
        rw [getFrame, bind_of_ok (lockAcquire_off .frame hl)]
        exact bind_of_error (by rw [findPage, bind_of_error herr])
      · rintro ⟨i, h⟩
        rw [h.noAssert] at ha
        cases ha
  | false =>
      have hrun : getFrame fuel flags s = _ := getFrame_full hl hfull ha
      have hexact := evictFrame_exact hl hf
      by_cases hC : (∃ i, CanStore s f.page i) ∧ f.page % pgSize = 0 ∧ (f.page = 0 ∨ CanFree s f.page)
      · obtain ⟨_, s2, hevict, i, s1, hi, hst, hcase⟩ := hexact.returns hC
        rw [bind_of_ok hevict] at hrun
        exact evictionOk_of_evicted hl hfull ha hi hst hcase hC.2 hrun
      · refine iff_of_false (hstop ?_) ?_
        · obtain ⟨e, s1, herr⟩ := hexact.stops hC
          rw [bind_of_error herr] at hrun
          exact ⟨e, s1, hrun⟩
        · rintro ⟨i, h⟩
          exact hC ⟨⟨i, h.store⟩, h.aligned, .inr ⟨flags.pool, h.pool, h.marked⟩⟩

/-- A swap device of one slot. -/
def swapDevice : Device := ⟨8, by decide, fun _ => Block.zeros⟩

/-- A kernel whose one user page is a frame of thread 1, with an entry for it. -/
def fullKernel : Kernel :=
  { smallKernel with
    pools := pallocInit 288 2 fun n _ => decide (n = .user)
    swap := ⟨some swapDevice, false, ⟨0, fun _ => false⟩⟩
    fifoList := [⟨physBase + 0x11f000, 1⟩]
    threads := fun t => if t = 1 then some ⟨none, none, [newSupPage 0 0 (physBase + 0x11f000) 4096 0 true],
      fun _ => none, none, none, .running⟩ else none
    locking := false }

/-- The page is stored and returned. -/
theorem evictionOk_fullKernel :
    (fullKernel.locking = false ∧ fullKernel.Full .user ∧
      fullKernel.fifoList = [⟨physBase + 0x11f000, 1⟩]) ∧
      EvictionOk 3 { user := true } fullKernel ⟨physBase + 0x11f000, 1⟩ := by
  have hfull : fullKernel.Full .user := by
    unfold Kernel.Full
    decide +kernel
  refine ⟨⟨rfl, hfull, rfl⟩, (evictionOk_iff 3 rfl hfull rfl).mpr ⟨0, ?_⟩⟩
  refine ⟨⟨.inr ⟨rfl, rfl⟩, by decide +kernel, ⟨swapDevice, rfl, by decide⟩, ?_⟩, by decide +kernel,
    by decide +kernel, by decide +kernel, by decide +kernel, rfl, rfl, .inl rfl⟩
  exact ⟨_, _, rfl, rfl⟩

/-- A machine with two free kernel pages, a swap device and the program `a`. -/
def crowdedKernel : Kernel :=
  { smallKernel with
    pools := pallocInit 288 1000 fun n idx => decide (n = .kernel ∧ idx < 13)
    swap := ⟨some swapDevice, false, ⟨0, fun _ => false⟩⟩ }

/-- `a` cannot be started, and a page of its command line is left in the frame table; the
heap takes the last page. -/
def crowded : Kernel := step 3 1 .heapPage (step 3 1 (.execute [0x61]) crowdedKernel)

theorem reach_crowded : Reach crowded := by
  have hboot : Kernel.Booted crowdedKernel :=
    ⟨⟨1000, fun n idx => decide (n = .kernel ∧ idx < 13), rfl⟩, rfl, rfl, rfl, rfl, fun _ => rfl, rfl,
      rfl, rfl, rfl⟩
  have h1 : Reach (step 3 1 (.execute [0x61]) crowdedKernel) :=
    .step (.boot hboot) rfl (((allowed_of_life rfl).2.2 rfl).2 _)
  refine .step h1 (by decide +kernel) ?_
  have hlife : ((step 3 1 (.execute [0x61]) crowdedKernel).threads 1).map (·.life) =
      some Life.running := by
    decide +kernel
  obtain ⟨th, hth, hrun⟩ := Option.map_eq_some_iff.mp hlife
  exact ⟨th, hth, hrun⟩

/-- **The victim has no entry**: `process_execute` gets pages with `get_frame` and makes no
supplemental entry for them. -/
theorem eviction_without_entry : ¬ ∀ s, Reach s → ∀ fuel flags f rest, s.Full flags.pool →
    s.fifoList = f :: rest → EvictionOk fuel flags { s with locking := false } f := by
  intro claim
  have hreach := reach_crowded
  have hfull : crowded.Full ({} : PallocFlags).pool := by
    unfold Kernel.Full
    decide +kernel
  have hfifo : crowded.fifoList = [⟨physBase + 0x10f000, 1⟩] := by decide +kernel
  have hslot : crowded.freeSlot = some 0 := by decide +kernel
  have htable : (crowded.threads crowded.current).map (fun th => th.supPageTable.length) = some 0 := by
    decide +kernel
  generalize crowded = s at hreach hfull hfifo hslot htable
  generalize physBase + 0x10f000 = page at hfifo
  obtain ⟨page', s', hrun, -⟩ := (claim s hreach 3 {} _ _ hfull hfifo).evicted 0 hslot
  obtain ⟨e, s'', herr⟩ := (evictFrame_exact (s := { s with locking := false }) rfl hfifo).stops (by
    rintro ⟨⟨i, hi⟩, -⟩
    obtain ⟨th, entry, hth, hentry⟩ := hi.entry
    have hth : s.threads s.current = some th := hth
    rw [hth] at htable
    rw [List.length_eq_zero_iff.mp (Option.some.inj htable)] at hentry
    cases hentry)
  rw [getFrame_full (s := { s with locking := false }) rfl hfull rfl, bind_of_error herr] at hrun
  cases hrun

end Pintos.Vm
