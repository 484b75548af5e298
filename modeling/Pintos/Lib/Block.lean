import Mathlib.Tactic

/-!
# Fixed-size byte blocks

A block device moves whole blocks of `n` bytes, and the structures kept on it
are read out of a block as bytes or as little-endian 32-bit words.  This file is
the algebra of one such block: reading a byte or a word, overwriting a word or a
run of bytes, and how these commute.

Everything downstream reads a block through `byteAt` and `wordAt` only, so the
representation (`Fin n → UInt8`) never shows.

* `byteAt`, `ofFn` — bytes in and out of a block.
* `wordAt`, `setWord` — the `j`-th little-endian word.
* `patch` — overwrite `len` bytes from `off` on.
-/

namespace Lib

/-- A block of `n` bytes. -/
abbrev Block (n : ℕ) : Type := Fin n → UInt8

namespace Block

variable {n : ℕ}

/-- The byte at offset `i`; `0` outside the block. -/
def byteAt (b : Block n) (i : ℕ) : UInt8 :=
  if h : i < n then b ⟨i, h⟩ else 0

/-- The block whose byte at offset `i` is `f i`. -/
def ofFn (f : ℕ → UInt8) : Block n := fun i => f i

/-- The all-zero block. -/
def zeros : Block n := ofFn fun _ => 0

@[simp] theorem byteAt_ofFn (f : ℕ → UInt8) {i : ℕ} (h : i < n) :
    byteAt (ofFn f : Block n) i = f i := by
  simp [byteAt, ofFn, h]

@[simp] theorem byteAt_zeros (i : ℕ) : byteAt (zeros : Block n) i = 0 := by
  simp [byteAt, zeros, ofFn]

theorem byteAt_of_le (b : Block n) {i : ℕ} (h : n ≤ i) : byteAt b i = 0 := by
  simp [byteAt, Nat.not_lt.mpr h]

/-- Two blocks with the same bytes are equal. -/
theorem ext_byteAt {a b : Block n} (h : ∀ i < n, byteAt a i = byteAt b i) : a = b := by
  funext i
  simpa [byteAt] using h i i.isLt

/-! ## Words -/

/-- Byte `k` of the word `v`, in little-endian order. -/
def wordByte (v k : ℕ) : UInt8 := UInt8.ofNat (v / 256 ^ k)

/-- The `j`-th little-endian 32-bit word. -/
def wordAt (b : Block n) (j : ℕ) : ℕ :=
  (byteAt b (4 * j)).toNat + 256 * (byteAt b (4 * j + 1)).toNat
    + 65536 * (byteAt b (4 * j + 2)).toNat + 16777216 * (byteAt b (4 * j + 3)).toNat

/-- Overwrite the `j`-th word with `v`. -/
def setWord (b : Block n) (j v : ℕ) : Block n :=
  ofFn fun i => if i / 4 = j then wordByte v (i % 4) else byteAt b i

/-- The block made of the words `w 0, w 1, …`. -/
def ofWords (w : ℕ → ℕ) : Block n := ofFn fun i => wordByte (w (i / 4)) (i % 4)

/-- A 32-bit value is the sum of its little-endian bytes. -/
theorem wordByte_sum {v : ℕ} (h : v < 2 ^ 32) :
    (wordByte v 0).toNat + 256 * (wordByte v 1).toNat
      + 65536 * (wordByte v 2).toNat + 16777216 * (wordByte v 3).toNat = v := by
  simp only [wordByte, UInt8.toNat_ofNat']
  omega

/-- Only its four bytes matter to a word. -/
theorem wordAt_congr {a b : Block n} {j : ℕ}
    (h : ∀ k < 4, byteAt a (4 * j + k) = byteAt b (4 * j + k)) : wordAt a j = wordAt b j := by
  have h0 := h 0 (by omega)
  simp only [Nat.add_zero] at h0
  simp only [wordAt, h0, h 1 (by omega), h 2 (by omega), h 3 (by omega)]

@[simp] theorem wordAt_zeros (j : ℕ) : wordAt (zeros : Block n) j = 0 := by
  simp [wordAt]

theorem wordAt_ofWords (w : ℕ → ℕ) {j : ℕ} (hj : 4 * j + 3 < n) (hv : w j < 2 ^ 32) :
    wordAt (ofWords w : Block n) j = w j := by
  have key : ∀ k < 4, byteAt (ofWords w : Block n) (4 * j + k) = wordByte (w j) k := by
    intro k hk
    rw [ofWords, byteAt_ofFn _ (by omega)]
    congr 2 <;> omega
  have h0 := key 0 (by omega)
  simp only [Nat.add_zero] at h0
  rw [wordAt, h0, key 1 (by omega), key 2 (by omega), key 3 (by omega)]
  exact wordByte_sum hv

theorem byteAt_setWord (b : Block n) (j v : ℕ) {i : ℕ} (hi : i < n) :
    byteAt (setWord b j v) i = if i / 4 = j then wordByte v (i % 4) else byteAt b i := by
  rw [setWord, byteAt_ofFn _ hi]

theorem wordAt_setWord_self (b : Block n) {j v : ℕ} (hj : 4 * j + 3 < n) (hv : v < 2 ^ 32) :
    wordAt (setWord b j v) j = v := by
  have key : ∀ k < 4, byteAt (setWord b j v) (4 * j + k) = wordByte v k := by
    intro k hk
    rw [byteAt_setWord b j v (by omega), if_pos (by omega)]
    congr 1
    omega
  have h0 := key 0 (by omega)
  simp only [Nat.add_zero] at h0
  rw [wordAt, h0, key 1 (by omega), key 2 (by omega), key 3 (by omega)]
  exact wordByte_sum hv

theorem wordAt_setWord_ne (b : Block n) {j k : ℕ} (v : ℕ) (hne : k ≠ j) :
    wordAt (setWord b j v) k = wordAt b k := by
  refine wordAt_congr fun i hi => ?_
  by_cases hn : 4 * k + i < n
  · rw [byteAt_setWord b j v hn, if_neg (by omega)]
  · rw [byteAt_of_le _ (by omega), byteAt_of_le _ (by omega)]

/-! ## Runs of bytes -/

/-- Overwrite the `len` bytes from `off` on by `f 0, f 1, …`. -/
def patch (b : Block n) (off len : ℕ) (f : ℕ → UInt8) : Block n :=
  ofFn fun i => if off ≤ i ∧ i < off + len then f (i - off) else byteAt b i

theorem byteAt_patch (b : Block n) (off len : ℕ) (f : ℕ → UInt8) {i : ℕ} (hi : i < n) :
    byteAt (patch b off len f) i =
      if off ≤ i ∧ i < off + len then f (i - off) else byteAt b i := by
  rw [patch, byteAt_ofFn _ hi]

end Block

/-! ## A file seen through its blocks

A file occupies the blocks `slot 0, slot 1, …` of a store; its byte `i` is byte
`i % n` of block `slot (i / n)`. -/

section View

variable {n : ℕ}

/-- Byte `i` of the file whose `k`-th block is `slot k`. -/
def view (store : ℕ → Block n) (slot : ℕ → ℕ) (i : ℕ) : UInt8 :=
  Block.byteAt (store (slot (i / n))) (i % n)

/-- The view depends only on the block a byte lies in. -/
theorem view_congr {store store' : ℕ → Block n} {slot slot' : ℕ → ℕ} {i : ℕ}
    (hs : slot' (i / n) = slot (i / n))
    (h : store' (slot (i / n)) = store (slot (i / n))) :
    view store' slot' i = view store slot i := by
  unfold view
  rw [hs, h]

/-- Writing one block of a file whose blocks are distinct changes exactly the
bytes of that block. -/
theorem view_update {store : ℕ → Block n} {slot : ℕ → ℕ} {m k i : ℕ} (b : Block n)
    (inj : ∀ i < m, ∀ j < m, slot i = slot j → i = j) (hk : k < m) (hi : i / n < m) :
    view (Function.update store (slot k) b) slot i =
      if i / n = k then Block.byteAt b (i % n) else view store slot i := by
  unfold view
  by_cases h : i / n = k
  · rw [if_pos h, h, Function.update_self]
  · rw [if_neg h, Function.update_of_ne fun e => h (inj _ hi _ hk e)]

end View

/-! ## Two's complement -/

/-- The signed reading of a 32-bit word. -/
def toInt32 (w : ℕ) : ℤ := if w < 2 ^ 31 then w else (w : ℤ) - 2 ^ 32

/-- The 32-bit word of a signed value. -/
def ofInt32 (x : ℤ) : ℕ := (x % 2 ^ 32).toNat

/-- Reduction of an integer result to the 32-bit signed range. -/
def wrap32 (x : ℤ) : ℤ := toInt32 (ofInt32 x)

theorem ofInt32_lt (x : ℤ) : ofInt32 x < 2 ^ 32 := by
  unfold ofInt32
  omega

theorem wrap32_of_range {x : ℤ} (h0 : -2 ^ 31 ≤ x) (h1 : x < 2 ^ 31) : wrap32 x = x := by
  unfold wrap32 toInt32 ofInt32
  split <;> omega

theorem toInt32_ofInt32 {x : ℤ} (h0 : -2 ^ 31 ≤ x) (h1 : x < 2 ^ 31) :
    toInt32 (ofInt32 x) = x :=
  wrap32_of_range h0 h1

end Lib
