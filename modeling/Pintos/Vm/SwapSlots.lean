import Mathlib
import Pintos.Lib.Runs
import Pintos.Vm.Swap

/-!
# What the swap slots hold

The history of swapping is kept beside the code's state (`SwapRun`): which page, with
which bytes, each slot was filled with and not yet emptied of (`held`), and where each
page was put last (`place`).  Over every run the bitmap, the device and the
supplemental entries agree with that history (`SwapOk`), a store goes to a slot that
holds nothing, and a load gives back what its store saved (`swapSlots_of_run`).
-/

namespace Pintos.Vm

open Lib Lib.Block

/-! ## One slot -/

/-- The sectors written are those of the slot, in order. -/
theorem writeSlot_spec (mem : Memory) (uaddr base : ℕ) :
    ∀ (n i : ℕ) (dev : Device), base + i + n ≤ dev.size →
      ∃ dev', writeSlot mem uaddr base n i dev = .ok dev' ∧ dev'.size = dev.size ∧
        ∀ t, dev'.disk t = if base + i ≤ t ∧ t < base + i + n then
          sectorAt mem (uaddr + 512 * (t - base)) else dev.disk t := by
  intro n
  induction n with
  | zero =>
      intro i dev _
      refine ⟨dev, rfl, rfl, fun t => ?_⟩
      rw [if_neg (by omega)]
  | succ n ih =>
      intro i dev hle
      have hlt := dev.size_lt
      obtain ⟨dev', hrun, hsize, hdisk⟩ := ih (i + 1)
        (dev.put (base + i) (sectorAt mem (uaddr + 512 * i))) (by simp only [Device.put_size]; omega)
      refine ⟨dev', ?_, hsize, fun t => ?_⟩
      · rw [writeSlot, Nat.mod_eq_of_lt (by omega), blockWrite_ok _ (by omega), ok_bind, hrun]
      · rw [hdisk t]
        by_cases e : t = base + i
        · subst e
          rw [if_neg (by omega), if_pos (by omega), Device.put_disk, Function.update_self]
          congr 3
          omega
        · rw [Device.put_disk, Function.update_of_ne e]
          congr 1
          simp only [eq_iff_iff]
          omega

theorem offset_in_sector {a uaddr i : ℕ} (h1 : uaddr + 512 * i ≤ a)
    (h2 : a < uaddr + 512 * i + 512) :
    (a - uaddr) / 512 = i ∧ (a - uaddr) % 512 = a - (uaddr + 512 * i) := by
  omega

/-- An address of the sectors from `i` on is in a later one, in sector `i`, or outside. -/
theorem sector_cases (uaddr a i n : ℕ) :
    ((uaddr + 512 * (i + 1) ≤ a ∧ a < uaddr + 512 * (i + 1 + n)) ∧
      uaddr + 512 * i ≤ a ∧ a < uaddr + 512 * (i + (n + 1))) ∨
    (¬ (uaddr + 512 * (i + 1) ≤ a ∧ a < uaddr + 512 * (i + 1 + n)) ∧
      (uaddr + 512 * i ≤ a ∧ a < uaddr + 512 * i + 512) ∧
      uaddr + 512 * i ≤ a ∧ a < uaddr + 512 * (i + (n + 1))) ∨
    (¬ (uaddr + 512 * (i + 1) ≤ a ∧ a < uaddr + 512 * (i + 1 + n)) ∧
      ¬ (uaddr + 512 * i ≤ a ∧ a < uaddr + 512 * i + 512) ∧
      ¬ (uaddr + 512 * i ≤ a ∧ a < uaddr + 512 * (i + (n + 1)))) := by
  rcases lt_or_ge a (uaddr + 512 * i) with h1 | h1
  · exact .inr (.inr ⟨by omega, by omega, by omega⟩)
  rcases lt_or_ge a (uaddr + 512 * i + 512) with h2 | h2
  · exact .inr (.inl ⟨by omega, by omega, by omega⟩)
  rcases lt_or_ge a (uaddr + 512 * (i + 1 + n)) with h3 | h3
  · exact .inl ⟨by omega, by omega⟩
  · exact .inr (.inr ⟨by omega, by omega, by omega⟩)

/-- The bytes read are those of the slot's sectors, in order. -/
theorem readSlot_spec (dev : Device) (uaddr base : ℕ) :
    ∀ (n i : ℕ) (mem : Memory), base + i + n ≤ dev.size →
      ∃ mem', readSlot dev uaddr base n i mem = .ok mem' ∧
        ∀ a, mem' a = if uaddr + 512 * i ≤ a ∧ a < uaddr + 512 * (i + n) then
          byteAt (dev.disk (base + (a - uaddr) / 512)) ((a - uaddr) % 512) else mem a := by
  intro n
  induction n with
  | zero =>
      intro i mem _
      refine ⟨mem, rfl, fun a => ?_⟩
      rw [if_neg (by omega)]
  | succ n ih =>
      intro i mem hle
      have hlt := dev.size_lt
      obtain ⟨mem', hrun, hmem⟩ := ih (i + 1)
        (copySector mem (uaddr + 512 * i) (dev.disk (base + i))) (by omega)
      refine ⟨mem', ?_, fun a => ?_⟩
      · rw [readSlot, Nat.mod_eq_of_lt (by omega), blockRead_ok (by omega), ok_bind, hrun]
      · rw [hmem a]
        rcases sector_cases uaddr a i n with ⟨h1, h3⟩ | ⟨h1, h2, h3⟩ | ⟨h1, h2, h3⟩
        · rw [if_pos h1, if_pos h3]
        · obtain ⟨e1, e2⟩ := offset_in_sector h2.1 h2.2
          rw [if_neg h1, copySector, if_pos h2, if_pos h3, e1, e2]
        · rw [if_neg h1, copySector, if_neg h2, if_neg h3]

/-- The entry `get_sup_page` finds. -/
def entryOf (table : List SupPage) (addr : ℕ) : Option SupPage := table.find? (·.vAddr = addr)

/-- `change_page_location` changes the entry that `get_sup_page` finds, and no other. -/
theorem changePageLocation_spec {addr : ℕ} (t : Location) (idx : ℤ) :
    ∀ {table : List SupPage} {e : SupPage}, entryOf table addr = some e →
      ∃ table', changePageLocation addr t idx table = .ok table' ∧
        ∀ a, entryOf table' a =
          if a = addr then some { e with pageLocation := t, swapIndex := idx }
          else entryOf table a := by
  intro table
  induction table with
  | nil =>
      intro e h
      simp [entryOf] at h
  | cons page rest ih =>
      intro e h
      by_cases hp : page.vAddr = addr
      · have he : page = e := by simpa [entryOf, hp] using h
        subst he
        refine ⟨_, by rw [changePageLocation, if_pos hp], fun a => ?_⟩
        by_cases ha : a = addr
        · simp [entryOf, hp, ha]
        · have : page.vAddr ≠ a := fun h => ha (h.symm.trans hp)
          simp [entryOf, ha, this]
      · obtain ⟨table', hrun, hfind⟩ := @ih e (by simpa [entryOf, hp] using h)
        refine ⟨page :: table', by rw [changePageLocation, if_neg hp, hrun]; rfl, fun a => ?_⟩
        by_cases ha : page.vAddr = a
        · have : a ≠ addr := fun h => hp (ha.trans h)
          simp [entryOf, ha, this]
        · simpa [entryOf, ha] using hfind a

/-! ## The history -/

/-- A page as it was saved: its address and its `PGSIZE` bytes. -/
structure Saved where
  page : ℕ
  bytes : ℕ → UInt8

/-- Where a page is. -/
inductive Place where
  | memory
  | slot (i : ℕ)

/-- The code's state with the history of swapping. -/
structure SwapRun where
  code : SwapState
  /-- What each slot was filled with and not yet emptied of. -/
  held : ℕ → Option Saved
  /-- Where each page was put last. -/
  place : ℕ → Place

/-- The page at `page` as memory has it. -/
def saved (mem : Memory) (page : ℕ) : Saved := ⟨page, fun k => mem (page + k)⟩

/-- The number of slots of the swap device. -/
def SwapState.slots (s : SwapState) : ℕ :=
  match s.swap.role with
  | some dev => dev.size / numSectorsPerPage
  | none => 0

/-- Slot `i` is marked in `swap_bitmap`.  Before the first store there is no bitmap. -/
def SwapState.marked (s : SwapState) (i : ℕ) : Bool :=
  s.swap.isInitialized && s.swap.swapBitmap.bits i

/-- The swapping of the running thread; in between, memory changes as it likes. -/
inductive SwapStep (junk : ℕ → Bool) : SwapRun → SwapRun → Prop where
  | store {r : SwapRun} {page i : ℕ} {code : SwapState}
      (entry : (entryOf r.code.table page).isSome)
      (free : ∃ i < r.code.slots, r.code.marked i = false)
      (run : storeSwapUnlocked junk r.code page = .ok ((i : ℤ), code)) :
      SwapStep junk r ⟨code, Function.update r.held i (some (saved r.code.mem page)),
        Function.update r.place page (.slot i)⟩
  | load {r : SwapRun} {page i : ℕ} {code : SwapState} (recorded : r.place page = .slot i)
      (run : loadSlot r.code page i = .ok code) :
      SwapStep junk r ⟨code, Function.update r.held i none,
        Function.update r.place page .memory⟩
  | write {r : SwapRun} (mem : Memory) :
      SwapStep junk r { r with code := { r.code with mem } }

/-- Before the first store: a swap device, and a table made by `create_sup_page`. -/
structure Booted (s : SwapState) : Prop where
  present : s.swap.role ≠ none
  untouched : s.swap.isInitialized = false
  created : ∀ page ∈ s.table, page.pageLocation = .inMemory ∧ page.swapIndex = -1

/-- The run that has not started. -/
def SwapRun.start (s : SwapState) : SwapRun := ⟨s, fun _ => none, fun _ => .memory⟩

/-- The sectors of slot `i`. -/
def slotSectors (i : ℕ) : Set ℕ := {t | 8 * i ≤ t ∧ t < 8 * i + 8}

/-- What the entry of a page says. -/
def EntrySays (held : ℕ → Option Saved) (page : ℕ) (e : SupPage) : Place → Prop
  | .memory => e.pageLocation = .inMemory ∧ e.swapIndex = -1
  | .slot i => e.pageLocation = .inSwap ∧ e.swapIndex = i ∧ ∃ s, held i = some s ∧ s.page = page

theorem EntrySays.held_of_some {held held' : ℕ → Option Saved} {page : ℕ} {e : SupPage} :
    ∀ {place : Place}, EntrySays held page e place →
      (∀ i s, held i = some s → held' i = some s) → EntrySays held' page e place
  | .memory, h, _ => h
  | .slot i, ⟨h1, h2, s, hs, hp⟩, keep => ⟨h1, h2, s, keep i s hs, hp⟩

/-- **The swap slots agree with the history.** -/
structure SwapOk (code : SwapState) (held : ℕ → Option Saved) (place : ℕ → Place) : Prop where
  present : code.swap.role ≠ none
  size : code.swap.isInitialized = true → code.swap.swapBitmap.bitCnt = code.slots
  bits : ∀ i < code.slots, code.marked i = true ↔ (held i).isSome
  inside : ∀ i, (held i).isSome → i < code.slots
  apart : ∀ i j, (held i).isSome → (held j).isSome → i ≠ j →
    Disjoint (slotSectors i) (slotSectors j)
  data : ∀ i s, held i = some s → ∀ dev ∈ code.swap.role, ∀ k < 4096,
    byteAt (dev.disk (8 * i + k / 512)) (k % 512) = s.bytes k
  placed : ∀ page i, place page = .slot i →
    (entryOf code.table page).isSome ∧ ∃ s, held i = some s ∧ s.page = page
  entries : ∀ page e, entryOf code.table page = some e → EntrySays held page e (place page)

/-- Two pages in swap are in two slots. -/
theorem SwapOk.unshared {code : SwapState} {held : ℕ → Option Saved} {place : ℕ → Place}
    (h : SwapOk code held place) {p q i : ℕ} (hp : place p = .slot i)
    (hq : place q = .slot i) : p = q := by
  obtain ⟨-, s, hs, rfl⟩ := h.placed p i hp
  obtain ⟨-, t, ht, rfl⟩ := h.placed q i hq
  rw [hs, Option.some.injEq] at ht
  rw [ht]

theorem slotSectors_disjoint {i j : ℕ} (h : i ≠ j) : Disjoint (slotSectors i) (slotSectors j) := by
  rw [Set.disjoint_left]
  rintro t ⟨h1, h2⟩ ⟨h3, h4⟩
  omega

/-! ## The start -/

theorem SwapOk.start {s : SwapState} (h : Booted s) :
    SwapOk s (fun _ => none) (fun _ => .memory) where
  present := h.present
  size hinit := by simp [h.untouched] at hinit
  bits i _ := by simp [SwapState.marked, h.untouched]
  inside i hi := by simp at hi
  apart i j hi := by simp at hi
  data i s hi := by simp at hi
  placed page i hi := by simp at hi
  entries page e he := h.created e (List.mem_of_find?_eq_some he)

/-! ## Storing -/

section

variable {junk : ℕ → Bool} {code : SwapState} {held : ℕ → Option Saved} {place : ℕ → Place}
  {page i : ℕ}

/-- `swap_init` changes nothing that the history knows of. -/
theorem SwapOk.ensureInit (h : SwapOk code held place) (junk : ℕ → Bool) :
    ∃ swap, ensureInit junk code.swap = .ok swap ∧ swap.isInitialized = true ∧
      swap.role = code.swap.role ∧ swap.swapBitmap.bitCnt = code.slots ∧
      ∀ i < code.slots, swap.swapBitmap.bits i = code.marked i := by
  cases hinit : code.swap.isInitialized with
  | true =>
      refine ⟨code.swap, by rw [Vm.ensureInit, if_pos hinit], hinit, rfl, h.size hinit,
        fun i _ => ?_⟩
      rw [SwapState.marked, hinit, Bool.true_and]
  | false =>
      obtain ⟨dev, hdev⟩ := Option.ne_none_iff_exists'.mp h.present
      refine ⟨⟨code.swap.role, true, bitmapCreate (dev.size / numSectorsPerPage) junk⟩, ?_, rfl,
        rfl, ?_, fun i hi => ?_⟩
      · rw [Vm.ensureInit, if_neg (by simp [hinit]), swapInit, hdev]
        rfl
      · simp [SwapState.slots, hdev, bitmapCreate]
      · simp only [SwapState.slots, hdev] at hi
        simp [SwapState.marked, hinit, bitmapCreate, hi]

/-- Invariant step: the page is saved in slot `i`, which held nothing. -/
theorem SwapOk.filled (h : SwapOk code held place) (hnone : held i = none) {swap : Swap}
    (hdone : swap.isInitialized = true) (hcnt : swap.swapBitmap.bitCnt = code.slots)
    (hbits : ∀ k < code.slots, swap.swapBitmap.bits k = code.marked k) (hi : i < code.slots)
    {dev dev' : Device} (hdev : code.swap.role = some dev) (hsize : dev'.size = dev.size)
    (hdisk : ∀ t, dev'.disk t = if 8 * i ≤ t ∧ t < 8 * i + 8 then
      sectorAt code.mem (page + 512 * (t - 8 * i)) else dev.disk t)
    {e : SupPage} {table' : List SupPage} (hfind : ∀ a, entryOf table' a = if a = page then
      some { e with pageLocation := .inSwap, swapIndex := i } else entryOf code.table a) :
    SwapOk ⟨{ swap with role := some dev', swapBitmap := swap.swapBitmap.setRange i 1 true }, code.mem,
        table'⟩ (Function.update held i (some (saved code.mem page)))
      (Function.update place page (.slot i)) := by
  refine ⟨by simp, fun _ => ?_, fun k hk => ?_, fun k hk => ?_, fun _ _ _ _ => slotSectors_disjoint,
    fun k s hk d hd b hb => ?_, fun p k hk => ?_, fun p e' he' => ?_⟩
  · simp [SwapState.slots, hsize, hcnt, hdev]
  · have hk' : k < code.slots := by simpa [SwapState.slots, hsize, hdev] using hk
    by_cases e : k = i
    · simp [SwapState.marked, hdone, e, Bitmap.setRange_bits]
    · have hsame : (swap.isInitialized && (swap.swapBitmap.setRange i 1 true).bits k) =
          code.marked k := by
        rw [hdone, Bool.true_and, Bitmap.setRange_bits, if_neg (by omega), hbits k hk']
      rw [Function.update_of_ne e, ← h.bits k hk', ← hsame]
      rfl
  · have : (SwapState.mk ⟨some dev', swap.isInitialized, swap.swapBitmap.setRange i 1 true⟩
        code.mem table').slots = code.slots := by simp [SwapState.slots, hsize, hdev]
    rw [this]
    by_cases e : k = i
    · rwa [e]
    · rw [Function.update_of_ne e] at hk
      exact h.inside k hk
  · simp only [Option.mem_some_iff] at hd
    subst hd
    rw [hdisk]
    by_cases e : k = i
    · subst e
      rw [Function.update_self, Option.some.injEq] at hk
      rw [if_pos (by omega), sectorAt, byteAt_ofFn _ (by omega), ← hk]
      show code.mem _ = code.mem _
      congr 1
      omega
    · rw [Function.update_of_ne e] at hk
      rw [if_neg (by omega)]
      exact h.data k s hk dev hdev b hb
  · rw [hfind]
    by_cases e : p = page
    · subst e
      rw [Function.update_self, Place.slot.injEq] at hk
      subst hk
      exact ⟨by simp, _, Function.update_self .., rfl⟩
    · rw [Function.update_of_ne e] at hk
      obtain ⟨h1, s, hs, hp⟩ := h.placed p k hk
      have hki : k ≠ i := fun e => by simp [e, hnone] at hs
      exact ⟨by rwa [if_neg e], s, (Function.update_of_ne hki _ _).trans hs, hp⟩
  · rw [hfind] at he'
    by_cases e : p = page
    · subst e
      rw [if_pos rfl, Option.some.injEq] at he'
      rw [Function.update_self, ← he']
      exact ⟨rfl, rfl, _, Function.update_self .., rfl⟩
    · rw [if_neg e] at he'
      rw [Function.update_of_ne e]
      exact (h.entries p e' he').held_of_some fun k s hs =>
        (Function.update_of_ne (fun e => by simp [e, hnone] at hs) _ _).trans hs

/-- **`store_swap`** goes to a slot that holds nothing, and saves the page there. -/
theorem SwapOk.store (h : SwapOk code held place) (entry : (entryOf code.table page).isSome)
    (free : ∃ i < code.slots, code.marked i = false) :
    ∃ (i : ℕ) (code' : SwapState), storeSwapUnlocked junk code page = .ok ((i : ℤ), code') ∧
      held i = none ∧ i < code.slots ∧ code'.mem = code.mem ∧ code'.slots = code.slots ∧
      (∀ p, (entryOf code.table p).isSome → (entryOf code'.table p).isSome) ∧
      SwapOk code' (Function.update held i (some (saved code.mem page)))
        (Function.update place page (.slot i)) := by
  obtain ⟨swap, hinit, hdone, hrole, hcnt, hbits⟩ := h.ensureInit junk
  obtain ⟨dev, hdev⟩ := Option.ne_none_iff_exists'.mp h.present
  obtain ⟨e, he⟩ := Option.isSome_iff_exists.mp entry
  have hslots : code.slots = dev.size / 8 := by simp [SwapState.slots, hdev, numSectorsPerPage]
  have hlt := dev.size_lt
  -- the scan finds a free slot
  obtain ⟨j, hj, hjfree⟩ := free
  have run : swap.swapBitmap.FreeRun j 1 := by
    refine ⟨by omega, fun k h1 h2 => ?_⟩
    have : k = j := by omega
    rw [this, hbits j hj, hjfree]
  obtain ⟨i, hscan, hrun⟩ := bitmapScan_free run
  have hi : i < code.slots := by
    have := hrun.1
    omega
  have hfree : code.marked i = false := by
    rw [← hbits i hi]
    exact hrun.2 i le_rfl (by omega)
  have hnone : held i = none := by
    have := (h.bits i hi).not
    rw [hfree] at this
    simpa using this
  have hbase : ofInt32 ((i : ℤ) * (8 : ℕ)) = 8 * i := by
    unfold ofInt32
    omega
  obtain ⟨dev', hwrite, hsize, hdisk⟩ := writeSlot_spec code.mem page (8 * i) 8 0 dev
    (by omega)
  obtain ⟨table', hchange, hfind⟩ := changePageLocation_spec .inSwap (i : ℤ) he
  refine ⟨i, ⟨{ swap with role := some dev', swapBitmap := swap.swapBitmap.setRange i 1 true },
    code.mem, table'⟩, ?_, hnone, hi, rfl, ?_, fun p hp => ?_, ?_⟩
  · simp only [storeSwapUnlocked, hinit, ok_bind, storeSlot, bitmapScanAndFlip, hscan, hbase,
      Swap.device, hrole, hdev, numSectorsPerPage, hwrite, hchange, Bool.not_false]
    rfl
  · simp [SwapState.slots, hsize, hdev]
  · rw [hfind]
    split
    · exact Option.isSome_some
    · exact hp
  · exact h.filled hnone hdone hcnt hbits hi hdev hsize (by simpa only [Nat.add_zero] using hdisk) hfind

/-! ## Loading -/

/-- Invariant step: slot `i` is emptied, and the entry of its page says so. -/
theorem SwapOk.emptied (h : SwapOk code held place) (recorded : place page = .slot i)
    (hdone : code.swap.isInitialized = true) (hcnt : code.swap.swapBitmap.bitCnt = code.slots)
    (mem' : Memory) {e : SupPage} {table' : List SupPage}
    (hfind : ∀ a, entryOf table' a = if a = page then
      some { e with pageLocation := .inMemory, swapIndex := -1 } else entryOf code.table a) :
    SwapOk ⟨{ code.swap with swapBitmap := code.swap.swapBitmap.setRange i 1 false }, mem', table'⟩
      (Function.update held i none) (Function.update place page .memory) := by
  -- no other page is in the slot that is emptied
  have same : ∀ p ≠ page, ∀ k, place p = .slot k → k ≠ i := fun p hp k hk e =>
    hp (h.unshared (e ▸ hk) recorded)
  refine ⟨h.present, fun _ => hcnt, fun k hk => ?_, fun k hk => ?_,
    fun _ _ _ _ => slotSectors_disjoint, fun k s' hk d hd b hb => ?_, fun p k hk => ?_,
    fun p e' he' => ?_⟩
  · by_cases e : k = i
    · simp [SwapState.marked, hdone, e, Bitmap.setRange_bits]
    · have hsame : (code.swap.isInitialized && (code.swap.swapBitmap.setRange i 1 false).bits k) =
          code.marked k := by
        rw [Bitmap.setRange_bits, if_neg (by omega), SwapState.marked]
      rw [Function.update_of_ne e, ← h.bits k hk, ← hsame]
      rfl
  · by_cases e : k = i
    · simp [e] at hk
    · rw [Function.update_of_ne e] at hk
      exact h.inside k hk
  · by_cases e : k = i
    · simp [e] at hk
    · rw [Function.update_of_ne e] at hk
      exact h.data k s' hk d hd b hb
  · by_cases e : p = page
    · simp [e] at hk
    · rw [Function.update_of_ne e] at hk
      obtain ⟨h1, s', hs', hp⟩ := h.placed p k hk
      rw [hfind, if_neg e]
      exact ⟨h1, s', (Function.update_of_ne (same p e k hk) _ _).trans hs', hp⟩
  · rw [hfind] at he'
    by_cases e : p = page
    · subst e
      rw [if_pos rfl, Option.some.injEq] at he'
      rw [Function.update_self, ← he']
      exact ⟨rfl, rfl⟩
    · rw [if_neg e] at he'
      rw [Function.update_of_ne e]
      have hsays := h.entries p e' he'
      cases hplace : place p with
      | memory => rwa [hplace] at hsays
      | slot k =>
          rw [hplace] at hsays
          obtain ⟨h1, h2, s', hs', hp⟩ := hsays
          exact ⟨h1, h2, s', (Function.update_of_ne (same p e k hplace) _ _).trans hs', hp⟩

/-- **`load_swap`** with the slot that is recorded gives back what was saved there. -/
theorem SwapOk.load (h : SwapOk code held place) (recorded : place page = .slot i) :
    ∃ s code', held i = some s ∧ s.page = page ∧ loadSlot code page i = .ok code' ∧
      (∀ k < 4096, code'.mem (page + k) = s.bytes k) ∧
      (∀ a, a < page ∨ page + 4096 ≤ a → code'.mem a = code.mem a) ∧
      code'.slots = code.slots ∧
      (∀ p, (entryOf code.table p).isSome → (entryOf code'.table p).isSome) ∧
      SwapOk code' (Function.update held i none) (Function.update place page .memory) := by
  obtain ⟨entry, s, hs, hpage⟩ := h.placed page i recorded
  obtain ⟨e, he⟩ := Option.isSome_iff_exists.mp entry
  obtain ⟨dev, hdev⟩ := Option.ne_none_iff_exists'.mp h.present
  have hslots : code.slots = dev.size / 8 := by simp [SwapState.slots, hdev, numSectorsPerPage]
  have hlt := dev.size_lt
  have hi : i < code.slots := h.inside i (by simp [hs])
  have hmark : code.marked i = true := (h.bits i hi).mpr (by simp [hs])
  obtain ⟨hdone, hbit⟩ := Bool.and_eq_true_iff.mp hmark
  have hcnt := h.size hdone
  have hidx : ofInt32 (i : ℤ) = i := by
    unfold ofInt32
    omega
  have hbase : ofInt32 ((i : ℤ) * (8 : ℕ)) = 8 * i := by
    unfold ofInt32
    omega
  obtain ⟨mem', hread, hmem⟩ := readSlot_spec dev page (8 * i) 8 0 code.mem (by omega)
  obtain ⟨table', hchange, hfind⟩ := changePageLocation_spec .inMemory (-1) he
  refine ⟨s, ⟨{ code.swap with swapBitmap := code.swap.swapBitmap.setRange i 1 false }, mem',
    table'⟩, hs, hpage, ?_, fun k hk => ?_, fun a ha => ?_, rfl, fun p hp => ?_, ?_⟩
  · have htest : bitmapTest code.swap.swapBitmap i = .ok true := by
      rw [bitmapTest, if_pos (by omega), hbit]
    have hset : bitmapSetMultiple code.swap.swapBitmap i 1 false =
        .ok (code.swap.swapBitmap.setRange i 1 false) := by
      rw [bitmapSetMultiple, if_pos (by omega)]
    simp only [loadSlot, hidx, htest, ok_bind, Bool.not_true, Bool.false_eq_true, if_false,
      Swap.device, hdev, numSectorsPerPage, hbase, hread, hset, hchange]
    rfl
  · refine (hmem _).trans ?_
    rw [if_pos (by omega), Nat.add_sub_cancel_left]
    exact h.data i s hs dev hdev k hk
  · refine (hmem a).trans ?_
    rw [if_neg (by omega)]
  · rw [hfind]
    split
    · exact Option.isSome_some
    · exact hp
  · exact h.emptied recorded hdone hcnt mem' hfind

/-- A slot that holds nothing is free. -/
theorem SwapOk.free (h : SwapOk code held place) (inside : i < code.slots)
    (empty : held i = none) : ∃ i < code.slots, code.marked i = false := by
  have := (h.bits i inside).not
  simp only [empty, Option.isSome_none, Bool.false_eq_true, not_false_eq_true, iff_true,
    Bool.not_eq_true] at this
  exact ⟨i, inside, this⟩

/-! ## Runs -/

theorem SwapOk.step {r r' : SwapRun} (h : SwapOk r.code r.held r.place)
    (hstep : SwapStep junk r r') : SwapOk r'.code r'.held r'.place := by
  cases hstep with
  | store entry free run =>
      obtain ⟨i, code, hrun, -, -, -, -, -, h'⟩ := h.store entry free
      rw [run, Except.ok.injEq, Prod.mk.injEq, Nat.cast_inj] at hrun
      obtain ⟨rfl, rfl⟩ := hrun
      exact h'
  | load recorded run =>
      obtain ⟨s, code, -, -, hrun, -, -, -, -, h'⟩ := h.load recorded
      rw [run, Except.ok.injEq] at hrun
      subst hrun
      exact h'
  | write mem =>
      exact ⟨h.present, h.size, h.bits, h.inside, h.apart, h.data, h.placed, h.entries⟩

/-- While a slot holds nothing, a page with an entry can be stored. -/
theorem SwapOk.exists_store {r : SwapRun} (h : SwapOk r.code r.held r.place) (page : ℕ)
    (entry : (entryOf r.code.table page).isSome) {k : ℕ} (inside : k < r.code.slots)
    (empty : r.held k = none) :
    ∃ (i : ℕ) (r' : SwapRun), SwapStep junk r r' ∧ r.held i = none ∧ i < r.code.slots ∧
      r'.held = Function.update r.held i (some (saved r.code.mem page)) ∧
      r'.place = Function.update r.place page (.slot i) ∧ r'.code.mem = r.code.mem ∧
      r'.code.slots = r.code.slots ∧
      ∀ p, (entryOf r.code.table p).isSome → (entryOf r'.code.table p).isSome := by
  have free := h.free inside empty
  obtain ⟨i, code, run, hnone, hi, hmem, hslots, hentries, -⟩ := h.store entry free
  exact ⟨i, _, .store entry free run, hnone, hi, rfl, rfl, hmem, hslots, hentries⟩

/-- A page that is in a slot can be loaded. -/
theorem SwapOk.exists_load {r : SwapRun} (h : SwapOk r.code r.held r.place) {page i : ℕ}
    (recorded : r.place page = .slot i) :
    ∃ r' : SwapRun, SwapStep junk r r' ∧ r'.held = Function.update r.held i none ∧
      r'.place = Function.update r.place page .memory ∧ r'.code.slots = r.code.slots ∧
      ∀ p, (entryOf r.code.table p).isSome → (entryOf r'.code.table p).isSome := by
  obtain ⟨s, code, -, -, run, -, -, hslots, hentries, -⟩ := h.load recorded
  exact ⟨_, .load recorded run, rfl, rfl, hslots, hentries⟩

end

/-- **The swap slots over every run.**  After any stores and loads the slots agree with
the history and no two pages share a slot; a store of a page with an entry, while a slot is
free, goes to a slot that holds nothing; a load with the recorded slot returns the bytes that were saved. -/
theorem swapSlots_of_run {junk : ℕ → Bool} {s : SwapState} (booted : Booted s) {r : SwapRun}
    (run : Reaches (SwapStep junk) (SwapRun.start s) r) :
    SwapOk r.code r.held r.place ∧
    (∀ p q i, r.place p = .slot i → r.place q = .slot i → p = q) ∧
    (∀ page, (entryOf r.code.table page).isSome → (∃ i < r.code.slots, r.code.marked i = false) →
      ∃ (i : ℕ) (code : SwapState), storeSwapUnlocked junk r.code page = .ok ((i : ℤ), code) ∧
        r.held i = none ∧ i < r.code.slots) ∧
    ∀ page i, r.place page = .slot i → ∃ s code, r.held i = some s ∧ s.page = page ∧
      loadSlot r.code page i = .ok code ∧ (∀ k < 4096, code.mem (page + k) = s.bytes k) ∧
      ∀ a, a < page ∨ page + 4096 ≤ a → code.mem a = r.code.mem a := by
  have preserved : ∀ r r', SwapStep junk r r' → SwapOk r.code r.held r.place →
      SwapOk r'.code r'.held r'.place := fun _ _ hstep h => h.step hstep
  have h : SwapOk r.code r.held r.place := Reaches.induct preserved run (.start booted)
  refine ⟨h, fun p q i => h.unshared, fun page entry free => ?_, fun page i recorded => ?_⟩
  · obtain ⟨i, code, hrun, hnone, hi, -⟩ := h.store entry free
    exact ⟨i, code, hrun, hnone, hi⟩
  · obtain ⟨s, code, hs, hpage, hrun, hmem, hrest, -⟩ := h.load recorded
    exact ⟨s, code, hs, hpage, hrun, hmem, hrest⟩

/-- A swap device of two slots, and two pages with entries, at addresses 4096 and 8192. -/
def twoSlots : SwapState :=
  ⟨⟨some ⟨16, by norm_num, fun _ => zeros⟩, false, ⟨0, fun _ => false⟩⟩, fun _ => 7,
    [newSupPage 0 0 4096 0 4096 true, newSupPage 1 0 8192 0 4096 true]⟩

/-- Two pages are stored, in two slots.  The first is loaded back, changed and stored again, in
the slot it had left, and memory is overwritten: each load returns what its page held. -/
theorem swapSlots_of_small_run : ∃ (i j : ℕ) (r₁ r : SwapRun), Booted twoSlots ∧ i ≠ j ∧
    Reaches (SwapStep fun _ => false) (SwapRun.start twoSlots) r₁ ∧
    r₁.place 4096 = .slot i ∧ r₁.place 8192 = .slot j ∧
    Reaches (SwapStep fun _ => false) r₁ r ∧ r.place 4096 = .slot i ∧ r.place 8192 = .slot j ∧
    (∃ code, loadSlot r.code 4096 i = .ok code ∧ ∀ k < 4096, code.mem (4096 + k) = 9) ∧
    ∃ code, loadSlot r.code 8192 j = .ok code ∧ ∀ k < 4096, code.mem (8192 + k) = 7 := by
  have booted : Booted twoSlots := ⟨by simp [twoSlots], rfl, by simp [twoSlots, newSupPage]⟩
  have entryA : (entryOf twoSlots.table 4096).isSome := by simp [twoSlots, entryOf, newSupPage]
  have entryB : (entryOf twoSlots.table 8192).isSome := by simp [twoSlots, entryOf, newSupPage]
  have two : (SwapRun.start twoSlots).code.slots = 2 := by decide
  -- both pages are stored
  have h0 := SwapOk.start booted
  obtain ⟨i, r0, step0, -, hi, held0, place0, mem0, slots0, entries0⟩ :=
    @SwapOk.exists_store (fun _ => false) (SwapRun.start twoSlots) h0 4096 entryA 0 (by decide) rfl
  have h1 := SwapOk.step h0 step0
  obtain ⟨j, r1, step1, hj, hj2, held1, place1, -, slots1, entries1⟩ :=
    @SwapOk.exists_store (fun _ => false) r0 h1 8192 (entries0 8192 entryB) (1 - i) (by omega)
      (by rw [held0]; exact Function.update_of_ne (by omega) _ _)
  have h2 := h1.step step1
  have ne : i ≠ j := by
    rintro rfl
    simp [held0] at hj
  have placeA : r1.place 4096 = .slot i := by simp [place1, place0]
  have placeB : r1.place 8192 = .slot j := by simp [place1]
  -- the first is loaded, changed, and stored in the slot it left
  obtain ⟨r2, step2, held2, place2, slots2, entries2⟩ :=
    @SwapOk.exists_load (fun _ => false) r1 h2 4096 i placeA
  obtain ⟨r3, step3, held3, place3, mem3, slots3, table3⟩ : ∃ r3 : SwapRun,
      SwapStep (fun _ => false) r2 r3 ∧ r3.held = r2.held ∧ r3.place = r2.place ∧
      r3.code.mem = (fun _ => 9) ∧ r3.code.slots = r2.code.slots ∧ r3.code.table = r2.code.table :=
    ⟨_, .write fun _ => 9, rfl, rfl, rfl, rfl, rfl⟩
  obtain ⟨k, r4, step4, hk, hk2, held4, place4, -⟩ :=
    @SwapOk.exists_store (fun _ => false) r3 ((h2.step step2).step step3) 4096
      (table3 ▸ entries2 4096 (entries1 4096 (entries0 4096 entryA))) i (by omega)
      (by simp [held3, held2])
  have same : k = i := by
    have : k ≠ j := by
      rintro rfl
      simp [held3, held2, held1, ne.symm] at hk
    omega
  subst same
  have steps1 := (Relation.ReflTransGen.single step0).tail step1
  have steps2 := (((Relation.ReflTransGen.single step2).tail step3).tail step4).tail
    (.write fun _ => 0)
  -- the run has both pages in swap
  obtain ⟨-, -, -, load⟩ := swapSlots_of_run booted (steps1.trans steps2)
  obtain ⟨sA, cA, hsA, -, loadA, memA, -⟩ := load 4096 k (by simp [place4])
  obtain ⟨sB, cB, hsB, -, loadB, memB, -⟩ := load 8192 j (by simp [place4, place3, place2, placeB])
  refine ⟨k, j, r1, _, booted, ne, steps1, placeA, placeB, steps2, by simp [place4],
    by simp [place4, place3, place2, placeB], ⟨cA, loadA, fun b hb => ?_⟩, cB, loadB, fun b hb => ?_⟩
  · simp only [held4, Function.update_self, Option.some.injEq] at hsA
    rw [memA b hb, ← hsA, saved, mem3]
  · rw [memB b hb]
    simp only [held4, held3, held2, held1, Function.update_of_ne ne.symm, Function.update_self,
      Option.some.injEq] at hsB
    rw [← hsB, saved, mem0]
    rfl

end Pintos.Vm
