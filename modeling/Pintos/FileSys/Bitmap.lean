import Pintos.FileSys.Device

/-!
# Bitmaps

`lib/kernel/bitmap.c`.  From the outside a bitmap is an array of `bit_cnt` bits;
from the inside it is an array of 32-bit elements, so the last element may have
bits past `bit_cnt`.  Those extra bits are part of the model: `bitmap_create`
leaves them as `malloc` returned them, `bitmap_write` writes them out and
`bitmap_read` masks them off.
-/

namespace Pintos

open Lib

/-- A bitmap of `bitCnt` bits.  `bits k` for `k ≥ bitCnt` is a bit of the last
element that no bitmap operation looks at. -/
structure Bitmap where
  bitCnt : ℕ
  bits : ℕ → Bool

/-- `elem_cnt`: the number of 32-bit elements for `bitCnt` bits. -/
def elemCnt (bitCnt : ℕ) : ℕ := (bitCnt + 31) / 32

/-- `byte_cnt`: the number of bytes for `bitCnt` bits. -/
def byteCnt (bitCnt : ℕ) : ℕ := 4 * elemCnt bitCnt

/-- The bitmap with bits `start`, …, `start + cnt - 1` set to `value`. -/
def Bitmap.setRange (b : Bitmap) (start cnt : ℕ) (value : Bool) : Bitmap :=
  { b with bits := fun k => if start ≤ k ∧ k < start + cnt then value else b.bits k }

@[simp] theorem Bitmap.setRange_bitCnt (b : Bitmap) (start cnt : ℕ) (value : Bool) :
    (b.setRange start cnt value).bitCnt = b.bitCnt := rfl

theorem Bitmap.setRange_bits (b : Bitmap) (start cnt : ℕ) (value : Bool) (k : ℕ) :
    (b.setRange start cnt value).bits k =
      if start ≤ k ∧ k < start + cnt then value else b.bits k := rfl

/-- `bitmap_create`: `junk` is what `malloc` left in the elements. -/
def bitmapCreate (bitCnt : ℕ) (junk : ℕ → Bool) : Bitmap :=
  { bitCnt, bits := fun k => if k < bitCnt then false else junk k }

/-- `bitmap_mark`. -/
def bitmapMark (b : Bitmap) (idx : ℕ) : Bitmap := b.setRange idx 1 true

/-- `bitmap_set_multiple`. -/
def bitmapSetMultiple (b : Bitmap) (start cnt : ℕ) (value : Bool) : Except Fault Bitmap :=
  if start + cnt ≤ b.bitCnt then .ok (b.setRange start cnt value)
  else .error (.assertFailed .bitmapSet)

/-- The loop of `bitmap_contains`: some bit of the run has the given value. -/
def Bitmap.runHas (b : Bitmap) (start : ℕ) (value : Bool) : ℕ → Bool
  | 0 => false
  | cnt + 1 => b.bits start == value || b.runHas (start + 1) value cnt

/-- `bitmap_contains`. -/
def bitmapContains (b : Bitmap) (start cnt : ℕ) (value : Bool) : Except Fault Bool :=
  if start + cnt ≤ b.bitCnt then .ok (b.runHas start value cnt)
  else .error (.assertFailed .bitmapContains)

/-- `bitmap_all`. -/
def bitmapAll (b : Bitmap) (start cnt : ℕ) : Except Fault Bool := do
  let found ← bitmapContains b start cnt false
  return !found

/-- The loop of `bitmap_scan`: try `tries` starting points from `i` on. -/
def Bitmap.scanFrom (b : Bitmap) (cnt : ℕ) (value : Bool) : ℕ → ℕ → Option ℕ
  | 0, _ => none
  | tries + 1, i =>
      if b.runHas i (!value) cnt then b.scanFrom cnt value tries (i + 1) else some i

/-- `bitmap_scan`; `none` is `BITMAP_ERROR`. -/
def bitmapScan (b : Bitmap) (start cnt : ℕ) (value : Bool) : Option ℕ :=
  if cnt ≤ b.bitCnt then b.scanFrom cnt value (b.bitCnt - cnt + 1 - start) start else none

/-- `bitmap_scan_and_flip`. -/
def bitmapScanAndFlip (b : Bitmap) (start cnt : ℕ) (value : Bool) : Option ℕ × Bitmap :=
  match bitmapScan b start cnt value with
  | some idx => (some idx, b.setRange idx cnt (!value))
  | none => (none, b)

/-- Byte `j` of the elements, as `bitmap_write` stores them. -/
def bitmapByte (b : Bitmap) (j : ℕ) : UInt8 :=
  UInt8.ofNat (Nat.ofBits fun t : Fin 8 => b.bits (8 * j + t))

/-- The bitmap `bitmap_read` makes of the bytes `file 0, file 1, …`: the bits past
`bit_cnt` are masked off by `last_mask`. -/
def bitmapOfBytes (bitCnt : ℕ) (file : ℕ → UInt8) : Bitmap :=
  { bitCnt, bits := fun k => decide (k < bitCnt) && (file (k / 8)).toNat.testBit (k % 8) }

/-! ## Scanning -/

theorem runHas_eq_false {b : Bitmap} {value : Bool} :
    ∀ {cnt start : ℕ}, b.runHas start value cnt = false ↔
      ∀ k, start ≤ k → k < start + cnt → b.bits k ≠ value := by
  intro cnt
  induction cnt with
  | zero => intro start; simp [Bitmap.runHas]; omega
  | succ cnt ih =>
      intro start
      simp only [Bitmap.runHas, Bool.or_eq_false_iff, ih, beq_eq_false_iff_ne]
      constructor
      · rintro ⟨h0, h⟩ k hk hlt
        by_cases e : k = start
        · exact e ▸ h0
        · exact h k (by omega) (by omega)
      · intro h
        exact ⟨h start le_rfl (by omega), fun k hk hlt => h k (by omega) (by omega)⟩

/-- The scan finds the first starting point whose run has only `value`. -/
theorem scanFrom_eq_some {b : Bitmap} {cnt : ℕ} {value : Bool} :
    ∀ {tries i r : ℕ}, b.scanFrom cnt value tries i = some r ↔
      i ≤ r ∧ r < i + tries ∧ b.runHas r (!value) cnt = false ∧
        ∀ k, i ≤ k → k < r → b.runHas k (!value) cnt = true := by
  intro tries
  induction tries with
  | zero => intro i r; simp [Bitmap.scanFrom]; omega
  | succ tries ih =>
      intro i r
      rw [Bitmap.scanFrom]
      cases h : b.runHas i (!value) cnt with
      | false =>
          simp only [Bool.false_eq_true, if_false, Option.some.injEq]
          constructor
          · rintro rfl
            exact ⟨le_rfl, by omega, h, fun k hk hlt => by omega⟩
          · rintro ⟨hle, -, -, hall⟩
            by_contra hne
            have := hall i le_rfl (by omega)
            simp [h] at this
      | true =>
          simp only [if_true, ih]
          constructor
          · rintro ⟨hle, hlt, hr, hall⟩
            refine ⟨by omega, by omega, hr, fun k hk hkr => ?_⟩
            by_cases e : k = i
            · exact e ▸ h
            · exact hall k (by omega) hkr
          · rintro ⟨hle, hlt, hr, hall⟩
            have hne : r ≠ i := fun e => by simp [e, h] at hr
            exact ⟨by omega, by omega, hr, fun k hk hkr => hall k (by omega) hkr⟩

theorem scanFrom_eq_none {b : Bitmap} {cnt : ℕ} {value : Bool} :
    ∀ {tries i : ℕ}, b.scanFrom cnt value tries i = none ↔
      ∀ k, i ≤ k → k < i + tries → b.runHas k (!value) cnt = true := by
  intro tries
  induction tries with
  | zero => intro i; simp [Bitmap.scanFrom]; omega
  | succ tries ih =>
      intro i
      rw [Bitmap.scanFrom]
      cases h : b.runHas i (!value) cnt with
      | false =>
          simp only [Bool.false_eq_true, if_false, reduceCtorEq, false_iff]
          intro hall
          have := hall i le_rfl (by omega)
          simp [h] at this
      | true =>
          simp only [if_true, ih]
          constructor
          · intro hall k hk hlt
            by_cases e : k = i
            · exact e ▸ h
            · exact hall k (by omega) (by omega)
          · exact fun hall k hk hlt => hall k (by omega) (by omega)

/-- A run of `cnt` clear bits inside the bitmap. -/
def Bitmap.FreeRun (b : Bitmap) (start cnt : ℕ) : Prop :=
  start + cnt ≤ b.bitCnt ∧ ∀ k, start ≤ k → k < start + cnt → b.bits k = false

/-- **A scan for clear bits finds a free run whenever there is one.** -/
theorem bitmapScan_free {b : Bitmap} {cnt s : ℕ} (h : b.FreeRun s cnt) :
    ∃ t, bitmapScan b 0 cnt false = some t ∧ b.FreeRun t cnt := by
  have hcnt : cnt ≤ b.bitCnt := le_trans (by omega) h.1
  have clear : b.runHas s (!false) cnt = false :=
    runHas_eq_false.mpr fun k hk hlt => by simp [h.2 k hk hlt]
  cases e : bitmapScan b 0 cnt false with
  | none =>
      rw [bitmapScan, if_pos hcnt, scanFrom_eq_none] at e
      have found := e s (by omega) (by have := h.1; omega)
      rw [clear] at found
      cases found
  | some t =>
      refine ⟨t, rfl, ?_⟩
      rw [bitmapScan, if_pos hcnt, scanFrom_eq_some] at e
      obtain ⟨-, hlt, hr, -⟩ := e
      exact ⟨by omega, fun k hk hkt => by simpa using runHas_eq_false.mp hr k hk hkt⟩

theorem bitmapScan_some {b : Bitmap} {cnt t : ℕ} (h : bitmapScan b 0 cnt false = some t) :
    b.FreeRun t cnt := by
  unfold bitmapScan at h
  split at h
  · rw [scanFrom_eq_some] at h
    obtain ⟨-, hlt, hr, -⟩ := h
    exact ⟨by omega, fun k hk hkt => by simpa using runHas_eq_false.mp hr k hk hkt⟩
  · cases h

/-- The scan finds the first free run. -/
theorem bitmapScan_first {b : Bitmap} {cnt s t : ℕ} (h : bitmapScan b 0 cnt false = some t)
    (hs : b.FreeRun s cnt) : t ≤ s := by
  have hcnt : cnt ≤ b.bitCnt := le_trans (by omega) hs.1
  rw [bitmapScan, if_pos hcnt, scanFrom_eq_some] at h
  obtain ⟨-, -, -, hall⟩ := h
  have clear : b.runHas s (!false) cnt = false :=
    runHas_eq_false.mpr fun k hk hlt => by simp [hs.2 k hk hlt]
  by_contra hc
  have found := hall s (by omega) (by omega)
  rw [clear] at found
  cases found

/-! ## Bytes and bits -/

/-- Reading back what was written gives the same bits, with the tail of the last
element masked off. -/
theorem bitmapOfBytes_bitmapByte (b : Bitmap) (k : ℕ) (file : ℕ → UInt8)
    (h : ∀ j < byteCnt b.bitCnt, file j = bitmapByte b j) :
    (bitmapOfBytes b.bitCnt file).bits k = (decide (k < b.bitCnt) && b.bits k) := by
  by_cases hk : k < b.bitCnt
  · have hj : k / 8 < byteCnt b.bitCnt := by
      unfold byteCnt elemCnt
      omega
    have hbits : Nat.ofBits (fun t : Fin 8 => b.bits (8 * (k / 8) + t)) < 2 ^ 8 :=
      Nat.ofBits_lt_two_pow _
    simp only [bitmapOfBytes, hk, decide_true, Bool.true_and, h _ hj, bitmapByte,
      UInt8.toNat_ofNat', Nat.mod_eq_of_lt hbits]
    rw [Nat.testBit_ofBits_lt _ _ (by omega)]
    congr 1
    show 8 * (k / 8) + k % 8 = k
    omega
  · simp [bitmapOfBytes, hk]

end Pintos
