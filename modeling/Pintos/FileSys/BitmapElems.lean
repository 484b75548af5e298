import Pintos.FileSys.Bitmap

/-!
# Bitmaps as arrays of elements

The inside of `lib/kernel/bitmap.c`: a bitmap is an array of 32-bit elements, bit `k` is
bit `k % 32` of element `k / 32`, and single bits are set, cleared and tested through
masks.  **Every operation does to the elements what the operation on `Bitmap` does to the
bits** (`Elems.bitmap_setMultiple`, `Elems.bitmap_scanAndFlip`), the bytes that
`bitmap_write` stores are those of the elements (`Elems.byte_eq`), and `bitmap_read` with
its `last_mask` is `bitmapOfBytes` (`Elems.bitmap_read`).
-/

namespace Pintos

/-- `struct bitmap`. -/
structure Elems where
  bitCnt : ℕ
  elems : ℕ → BitVec 32

/-- `elem_idx`. -/
def elemIdx (bitIdx : ℕ) : ℕ := bitIdx / 32

/-- `bit_mask`. -/
def bitMask (bitIdx : ℕ) : BitVec 32 := 1#32 <<< (bitIdx % 32)

namespace Elems

/-- `last_mask`. -/
def lastMask (b : Elems) : BitVec 32 :=
  if b.bitCnt % 32 ≠ 0 then (1#32 <<< (b.bitCnt % 32)) - 1#32 else -1#32

/-- `bitmap_mark`. -/
def mark (b : Elems) (bitIdx : ℕ) : Elems :=
  { b with
    elems := Function.update b.elems (elemIdx bitIdx) (b.elems (elemIdx bitIdx) ||| bitMask bitIdx) }

/-- `bitmap_reset`. -/
def reset (b : Elems) (bitIdx : ℕ) : Elems :=
  { b with
    elems := Function.update b.elems (elemIdx bitIdx) (b.elems (elemIdx bitIdx) &&& ~~~ bitMask bitIdx) }

/-- `bitmap_set`. -/
def set (b : Elems) (idx : ℕ) (value : Bool) : Elems := if value then b.mark idx else b.reset idx

/-- `bitmap_test`. -/
def test (b : Elems) (idx : ℕ) : Bool := b.elems (elemIdx idx) &&& bitMask idx != 0#32

/-- The loop of `bitmap_set_multiple`. -/
def setMultiple (b : Elems) (start : ℕ) (value : Bool) : ℕ → Elems
  | 0 => b
  | cnt + 1 => (b.setMultiple start value cnt).set (start + cnt) value

/-- The loop of `bitmap_contains`. -/
def contains (b : Elems) (start : ℕ) (value : Bool) : ℕ → Bool
  | 0 => false
  | cnt + 1 => b.test start == value || b.contains (start + 1) value cnt

/-- The loop of `bitmap_scan`. -/
def scanFrom (b : Elems) (cnt : ℕ) (value : Bool) : ℕ → ℕ → Option ℕ
  | 0, _ => none
  | tries + 1, i =>
      if b.contains i (!value) cnt then b.scanFrom cnt value tries (i + 1) else some i

/-- `bitmap_scan`. -/
def scan (b : Elems) (start cnt : ℕ) (value : Bool) : Option ℕ :=
  if cnt ≤ b.bitCnt then b.scanFrom cnt value (b.bitCnt - cnt + 1 - start) start else none

/-- `bitmap_scan_and_flip`. -/
def scanAndFlip (b : Elems) (start cnt : ℕ) (value : Bool) : Option ℕ × Elems :=
  match b.scan start cnt value with
  | some idx => (some idx, b.setMultiple idx (!value) cnt)
  | none => (none, b)

/-- Byte `j` of the elements in memory, least significant byte first. -/
def byte (b : Elems) (j : ℕ) : UInt8 := ⟨(b.elems (j / 4) >>> (8 * (j % 4))).setWidth 8⟩

/-- The element whose bytes are the bytes `4 * e`, …, `4 * e + 3` of a file. -/
def elemOf (file : ℕ → UInt8) (e : ℕ) : BitVec 32 :=
  (file (4 * e + 3)).toBitVec ++ ((file (4 * e + 2)).toBitVec ++
    ((file (4 * e + 1)).toBitVec ++ (file (4 * e)).toBitVec))

/-- `bitmap_read` of a bitmap with at least one bit, from a file that is long enough. -/
def read (b : Elems) (file : ℕ → UInt8) : Elems :=
  { b with
    elems := Function.update (elemOf file) (elemCnt b.bitCnt - 1)
      (elemOf file (elemCnt b.bitCnt - 1) &&& b.lastMask) }

/-- The bits of the elements. -/
def bitmap (b : Elems) : Bitmap :=
  ⟨b.bitCnt, fun k => decide (k < 32 * elemCnt b.bitCnt) && (b.elems (k / 32)).getLsbD (k % 32)⟩

/-! ## Single bits -/

theorem getLsbD_bitMask (idx i : ℕ) :
    (bitMask idx).getLsbD i = decide (i = idx % 32) := by
  have hidx : idx % 32 < 32 := Nat.mod_lt _ (by decide)
  rw [bitMask, ← BitVec.twoPow_eq, BitVec.getLsbD_twoPow]
  simp [hidx, eq_comm]

/-- A bit inside the bitmap lies in one of its elements. -/
theorem inside_elems {b : Elems} {idx : ℕ} (h : idx < b.bitCnt) : idx < 32 * elemCnt b.bitCnt := by
  unfold elemCnt
  omega

theorem test_eq {b : Elems} {idx : ℕ} (h : idx < b.bitCnt) : b.test idx = b.bitmap.bits idx := by
  have hidx : idx % 32 < 32 := Nat.mod_lt _ (by decide)
  have hne : BitVec.twoPow 32 (idx % 32) ≠ 0#32 := by
    intro e
    have := congrArg (fun x => x.getLsbD (idx % 32)) e
    simp [hidx] at this
  simp only [test, bitMask, elemIdx, bitmap, inside_elems h, decide_true, Bool.true_and]
  rw [← BitVec.twoPow_eq, BitVec.and_twoPow]
  cases (b.elems (idx / 32)).getLsbD (idx % 32) with
  | true => simp [hne]
  | false => simp

/-- Changing one element through a mask changes one bit. -/
theorem bitmap_set {b : Elems} {idx : ℕ} (h : idx < b.bitCnt) (value : Bool) :
    (b.set idx value).bitmap = b.bitmap.setRange idx 1 value := by
  have hbits : ∀ k, (b.set idx value).bitmap.bits k = (b.bitmap.setRange idx 1 value).bits k := by
    intro k
    have hk : k % 32 < 32 := Nat.mod_lt _ (by decide)
    rw [Bitmap.setRange_bits]
    rcases eq_or_ne (k / 32) (idx / 32) with he | he
    · rcases eq_or_ne k idx with rfl | hne
      · rw [if_pos ⟨le_rfl, Nat.lt_succ_self _⟩]
        cases value with
        | true =>
            simp only [set, if_true, mark, bitmap, elemIdx, Function.update_self, BitVec.getLsbD_or,
              getLsbD_bitMask, decide_true, Bool.or_true, inside_elems h, Bool.and_true]
        | false =>
            simp only [set, Bool.false_eq_true, if_false, reset, bitmap, elemIdx,
              Function.update_self, BitVec.getLsbD_and, BitVec.getLsbD_not, getLsbD_bitMask,
              decide_true, Bool.not_true, Bool.and_false]
      · have hmod : k % 32 ≠ idx % 32 := by omega
        rw [if_neg (by omega)]
        cases value with
        | true =>
            simp only [set, if_true, mark, bitmap, elemIdx, he, Function.update_self,
              BitVec.getLsbD_or, getLsbD_bitMask, hmod, decide_false, Bool.or_false]
        | false =>
            simp only [set, Bool.false_eq_true, if_false, reset, bitmap, elemIdx, he,
              Function.update_self, BitVec.getLsbD_and, BitVec.getLsbD_not, getLsbD_bitMask, hmod,
              decide_false, Bool.not_false, hk, decide_true, Bool.and_true]
    · rw [if_neg (by omega)]
      cases value with
      | true => simp [set, mark, bitmap, elemIdx, Function.update_of_ne he]
      | false => simp [set, reset, bitmap, elemIdx, Function.update_of_ne he]
  have hcnt : (b.set idx value).bitmap.bitCnt = b.bitCnt := by
    cases value <;> rfl
  exact congrArg₂ Bitmap.mk hcnt (funext hbits)

/-! ## Runs of bits -/

@[simp] theorem setMultiple_bitCnt (b : Elems) (start : ℕ) (value : Bool) (cnt : ℕ) :
    (b.setMultiple start value cnt).bitCnt = b.bitCnt := by
  induction cnt with
  | zero => rfl
  | succ cnt ih =>
      rw [setMultiple, set]
      split
      · exact ih
      · exact ih

/-- **`bitmap_set_multiple` sets the bits of the run and no others.** -/
theorem bitmap_setMultiple {b : Elems} {start : ℕ} (value : Bool) :
    ∀ {cnt : ℕ}, start + cnt ≤ b.bitCnt →
      (b.setMultiple start value cnt).bitmap = b.bitmap.setRange start cnt value := by
  intro cnt
  induction cnt with
  | zero =>
      intro _
      refine congrArg₂ Bitmap.mk rfl (funext fun k => ?_)
      rw [if_neg (by omega)]
      rfl
  | succ cnt ih =>
      intro h
      rw [setMultiple, bitmap_set (by rw [setMultiple_bitCnt]; omega), ih (by omega)]
      refine congrArg₂ Bitmap.mk rfl (funext fun k => ?_)
      rcases eq_or_ne k (start + cnt) with rfl | hne
      · rw [if_pos ⟨le_rfl, Nat.lt_succ_self _⟩, if_pos (by omega)]
      · rw [if_neg (by omega), Bitmap.setRange_bits]
        exact if_congr (by omega) rfl rfl

/-- `bitmap_contains` looks at the bits of the run. -/
theorem contains_eq {b : Elems} (value : Bool) :
    ∀ {cnt start : ℕ}, start + cnt ≤ b.bitCnt →
      b.contains start value cnt = b.bitmap.runHas start value cnt := by
  intro cnt
  induction cnt with
  | zero => exact fun _ => rfl
  | succ cnt ih =>
      intro start h
      rw [contains, Bitmap.runHas, test_eq (by omega), ih (by omega)]

theorem scanFrom_eq {b : Elems} {cnt : ℕ} (value : Bool) :
    ∀ {tries i : ℕ}, i + tries ≤ b.bitCnt - cnt + 1 → cnt ≤ b.bitCnt →
      b.scanFrom cnt value tries i = b.bitmap.scanFrom cnt value tries i := by
  intro tries
  induction tries with
  | zero => exact fun _ _ => rfl
  | succ tries ih =>
      intro i h hcnt
      rw [scanFrom, Bitmap.scanFrom, contains_eq _ (by omega), ih (by omega) hcnt]

/-- **`bitmap_scan_and_flip` finds the same run and flips it.** -/
theorem bitmap_scanAndFlip (b : Elems) (cnt : ℕ) (value : Bool) :
    bitmapScanAndFlip b.bitmap 0 cnt value =
      ((b.scanAndFlip 0 cnt value).1, (b.scanAndFlip 0 cnt value).2.bitmap) := by
  have hscan : b.scan 0 cnt value = bitmapScan b.bitmap 0 cnt value := by
    unfold scan bitmapScan
    refine ite_congr rfl (fun hcnt => ?_) fun _ => rfl
    exact scanFrom_eq value (by omega) hcnt
  rw [bitmapScanAndFlip, scanAndFlip, hscan]
  cases hfound : bitmapScan b.bitmap 0 cnt value with
  | none => rfl
  | some idx =>
      have hfit : idx + cnt ≤ b.bitCnt := by
        unfold bitmapScan at hfound
        split at hfound
        · next hcnt =>
            have := (scanFrom_eq_some.mp hfound).2.1
            have hcnt : cnt ≤ b.bitCnt := hcnt
            have hlt : idx < 0 + (b.bitCnt - cnt + 1 - 0) := this
            omega
        · cases hfound
      simp only [bitmap_setMultiple (!value) hfit]

/-! ## Bytes -/

/-- **The bytes `bitmap_write` stores.** -/
theorem byte_eq {b : Elems} {j : ℕ} (hj : j < byteCnt b.bitCnt) :
    b.byte j = bitmapByte b.bitmap j := by
  have hbits : Nat.ofBits (fun t : Fin 8 => b.bitmap.bits (8 * j + t)) < 2 ^ 8 :=
    Nat.ofBits_lt_two_pow _
  apply UInt8.toBitVec_inj.mp
  apply BitVec.eq_of_getLsbD_eq
  intro t ht
  have hdiv : (8 * j + t) / 32 = j / 4 := by omega
  have hmod : (8 * j + t) % 32 = 8 * (j % 4) + t := by omega
  have hin : 8 * j + t < 32 * elemCnt b.bitCnt := by
    unfold byteCnt at hj
    omega
  have hright : (bitmapByte b.bitmap j).toBitVec.getLsbD t = b.bitmap.bits (8 * j + t) := by
    show (bitmapByte b.bitmap j).toNat.testBit t = _
    rw [bitmapByte, UInt8.toNat_ofNat', Nat.mod_eq_of_lt hbits, Nat.testBit_ofBits_lt _ _ ht]
  rw [hright]
  simp [byte, bitmap, ht, hdiv, hmod, hin]

/-- The bits of an element that is read. -/
theorem getLsbD_elemOf (file : ℕ → UInt8) (e i : ℕ) (hi : i < 32) :
    (elemOf file e).getLsbD i = (file (4 * e + i / 8)).toNat.testBit (i % 8) := by
  have hcases : i / 8 = 0 ∨ i / 8 = 1 ∨ i / 8 = 2 ∨ i / 8 = 3 := by omega
  unfold elemOf
  simp only [BitVec.getLsbD_append]
  rcases hcases with h | h | h | h
  · rw [if_pos (by omega), if_pos (by omega), if_pos (by omega), h, Nat.mod_eq_of_lt (by omega)]
    rfl
  · rw [if_pos (by omega), if_pos (by omega), if_neg (by omega), h,
      show i - 8 = i % 8 by omega]
    rfl
  · rw [if_pos (by omega), if_neg (by omega), h, show i - (8 + 8) = i % 8 by omega]
    rfl
  · rw [if_neg (by omega), h, show i - (8 + (8 + 8)) = i % 8 by omega]
    rfl

/-- `last_mask` keeps the bits below `bit_cnt`. -/
theorem getLsbD_lastMask {b : Elems} (hpos : 0 < b.bitCnt) (i : ℕ) (hi : i < 32) :
    b.lastMask.getLsbD i = decide (32 * (elemCnt b.bitCnt - 1) + i < b.bitCnt) := by
  unfold lastMask elemCnt
  split
  · next h =>
      have hlt : b.bitCnt % 32 < 32 := Nat.mod_lt _ (by decide)
      have hmask : (1#32 <<< (b.bitCnt % 32)) - 1#32 = BitVec.ofNat 32 (2 ^ (b.bitCnt % 32) - 1) := by
        apply BitVec.eq_of_toNat_eq
        have h1 : 0 < 2 ^ (b.bitCnt % 32) := Nat.two_pow_pos _
        have h2 : 2 ^ (b.bitCnt % 32) < 2 ^ 32 := Nat.pow_lt_pow_right (by decide) hlt
        rw [← BitVec.twoPow_eq, BitVec.toNat_sub, BitVec.toNat_twoPow, BitVec.toNat_ofNat,
          BitVec.toNat_ofNat, Nat.mod_eq_of_lt h2]
        generalize 2 ^ (b.bitCnt % 32) = n at h1 h2
        omega
      rw [hmask, BitVec.getLsbD_ofNat, Nat.testBit_two_pow_sub_one]
      simp only [hi, decide_true, Bool.true_and, decide_eq_decide]
      omega
  · next h =>
      rw [BitVec.neg_one_eq_allOnes, BitVec.getLsbD_allOnes]
      simp only [hi, decide_true, true_eq_decide_iff]
      omega

/-- **`bitmap_read`** takes the bits of the file and clears those past the last. -/
theorem bitmap_read {b : Elems} (hpos : 0 < b.bitCnt) (file : ℕ → UInt8) :
    (b.read file).bitmap = bitmapOfBytes b.bitCnt file := by
  refine congrArg₂ Bitmap.mk rfl (funext fun k => ?_)
  have hk : k % 32 < 32 := Nat.mod_lt _ (by decide)
  have hfile : (elemOf file (k / 32)).getLsbD (k % 32) =
      (file (k / 8)).toNat.testBit (k % 8) := by
    rw [getLsbD_elemOf _ _ _ hk, show 4 * (k / 32) + k % 32 / 8 = k / 8 by omega,
      show k % 32 % 8 = k % 8 by omega]
  show (decide (k < 32 * elemCnt b.bitCnt) && (Function.update (elemOf file)
    (elemCnt b.bitCnt - 1) (elemOf file (elemCnt b.bitCnt - 1) &&& b.lastMask) (k / 32)).getLsbD
      (k % 32)) = _
  rcases eq_or_ne (k / 32) (elemCnt b.bitCnt - 1) with he | he
  · have hin : k < 32 * elemCnt b.bitCnt := by
      unfold elemCnt at *
      omega
    rw [he, Function.update_self, BitVec.getLsbD_and, getLsbD_lastMask hpos _ hk, ← he, hfile,
      decide_eq_true hin, Bool.true_and, Bool.and_comm]
    congr 2
    rw [show 32 * (k / 32) + k % 32 = k by omega]
  · rw [Function.update_of_ne he, hfile]
    congr 1
    rw [decide_eq_decide]
    unfold elemCnt at *
    omega

end Elems

end Pintos
