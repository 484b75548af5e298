import Mathlib.Data.Nat.Digits.Lemmas
import Pintos.FileSys.Directory

/-!
# ustar headers

`lib/ustar.c`: the header that stands before each file of a ustar archive, a sector of text
fields at fixed offsets.  `ustar_make_header` composes one and `ustar_parse_header` takes it
apart; neither knows of the other, and they agree on the checksum and on the octal numbers
only if the writer's text is what the reader accepts.

* **`parseHeader_makeHeader`** — a header that was made is accepted, and gives back the
  stripped name, the type and the size.
* **`ustar_round_trip`** — which headers are made, and what a stripped name never is.
-/

namespace Pintos

open Lib Lib.Block

/-! ## Names -/

/-- The name starts with `"/"`, `"./"` or `"../"`. -/
def Antisocial (fileName : CString) : Prop :=
  fileName.head? = some 0x2f ∨ fileName.take 2 = [0x2e, 0x2f] ∨
    fileName.take 3 = [0x2e, 0x2e, 0x2f]

instance (fileName : CString) : Decidable (Antisocial fileName) :=
  inferInstanceAs (Decidable (_ ∨ _))

/-- `strchr (file_name, '/') + 1`. -/
def afterSlash (fileName : CString) : CString := (fileName.dropWhile fun c => c ≠ 0x2f).drop 1

/-- The loop of `strip_antisocial_prefixes`; every iteration takes a character off. -/
def stripLoop : ℕ → CString → CString
  | 0, fileName => fileName
  | n + 1, fileName => if Antisocial fileName then stripLoop n (afterSlash fileName) else fileName

/-- `strip_antisocial_prefixes`. -/
def stripAntisocialPrefixes (fileName : CString) : CString :=
  let stripped := stripLoop fileName.length fileName
  if stripped = [] ∨ stripped = parentPath then selfPath else stripped

theorem length_afterSlash {s : CString} (h : s ≠ []) : (afterSlash s).length < s.length := by
  have hpos := List.length_pos_of_ne_nil h
  have hle := (List.dropWhile_sublist (l := s) fun c => c ≠ 0x2f).length_le
  rw [afterSlash, List.length_drop]
  omega

theorem Antisocial.ne_nil {s : CString} (h : Antisocial s) : s ≠ [] := by
  rintro rfl
  simp [Antisocial] at h

/-- What the loop leaves is not antisocial. -/
theorem not_antisocial_stripLoop : ∀ (n : ℕ) (s : CString), s.length ≤ n →
    ¬ Antisocial (stripLoop n s)
  | 0, s, h, bad => bad.ne_nil (List.eq_nil_of_length_eq_zero (Nat.le_zero.mp h))
  | n + 1, s, h, bad => by
      rw [stripLoop] at bad
      split at bad
      · next hs =>
          have := length_afterSlash hs.ne_nil
          exact not_antisocial_stripLoop n _ (by omega) bad
      · next hs => exact hs bad

theorem stripLoop_of_not {s : CString} (h : ¬ Antisocial s) (n : ℕ) : stripLoop n s = s := by
  cases n with
  | zero => rfl
  | succ n => rw [stripLoop, if_neg h]

/-- **Stripping twice is stripping once**: `extract` strips the name that `append` stripped. -/
theorem strip_strip (s : CString) :
    stripAntisocialPrefixes (stripAntisocialPrefixes s) = stripAntisocialPrefixes s := by
  have hdot : stripAntisocialPrefixes selfPath = selfPath := by decide
  have hnot := not_antisocial_stripLoop s.length s le_rfl
  by_cases hs : stripLoop s.length s = [] ∨ stripLoop s.length s = parentPath
  · have e : stripAntisocialPrefixes s = selfPath := if_pos hs
    rw [e, hdot]
  · have e : stripAntisocialPrefixes s = stripLoop s.length s := if_neg hs
    rw [e, stripAntisocialPrefixes, stripLoop_of_not hnot]
    exact if_neg hs

theorem mem_of_mem_stripLoop : ∀ (n : ℕ) (s : CString) (c : UInt8), c ∈ stripLoop n s → c ∈ s
  | 0, _, _, h => h
  | n + 1, s, c, h => by
      rw [stripLoop] at h
      split at h
      · exact List.dropWhile_sublist _ |>.subset
          (List.mem_of_mem_drop (mem_of_mem_stripLoop n _ c h))
      · exact h

theorem length_stripLoop : ∀ (n : ℕ) (s : CString), (stripLoop n s).length ≤ s.length
  | 0, _ => le_rfl
  | n + 1, s => by
      rw [stripLoop]
      split
      · next h => exact (length_stripLoop n _).trans (length_afterSlash h.ne_nil).le
      · exact le_rfl

/-- A stripped string is a string. -/
theorem strip_ne_zero {s : CString} (h : ∀ c ∈ s, c ≠ 0) : ∀ c ∈ stripAntisocialPrefixes s, c ≠ 0 := by
  intro c hc
  rw [stripAntisocialPrefixes] at hc
  split at hc
  · simp only [selfPath, List.mem_singleton] at hc
    rw [hc]
    decide
  · exact h c (mem_of_mem_stripLoop _ _ _ hc)

theorem strip_ne_nil (s : CString) : stripAntisocialPrefixes s ≠ [] := by
  rw [stripAntisocialPrefixes]
  split
  · simp [selfPath]
  · next h => exact fun e => h (.inl e)

theorem strip_ne_parent (s : CString) : stripAntisocialPrefixes s ≠ parentPath := by
  rw [stripAntisocialPrefixes]
  split
  · simp [selfPath, parentPath]
  · next h => exact fun e => h (.inr e)

/-- **What is stripped is not antisocial.** -/
theorem not_antisocial_strip (s : CString) : ¬ Antisocial (stripAntisocialPrefixes s) := by
  rw [stripAntisocialPrefixes]
  split
  · decide
  · exact not_antisocial_stripLoop _ _ le_rfl

/-! ## Fields -/

/-- `enum ustar_type`, the end of the archive apart. -/
inductive UstarType where
  | regular
  | directory
deriving DecidableEq, Repr

/-- The character of a type. -/
def UstarType.flag : UstarType → UInt8
  | .regular => 0x30
  | .directory => 0x35

/-- `strlcpy` of `text` into the field of `size` bytes at `offset`.  `snprintf` leaves the
same bytes. -/
def strlcpy (h : Sector) (offset size : ℕ) (text : List UInt8) : Sector :=
  let len := min text.length (size - 1)
  patch h offset (len + 1) fun k => if k < len then text.getD k 0 else 0

/-- What `"%0*o"` prints. -/
def octal (width value : ℕ) : List UInt8 :=
  let digits := Nat.digits 8 value
  (digits ++ List.replicate (width - digits.length) 0).reverse.map fun d => UInt8.ofNat (0x30 + d)

/-- `calculate_chksum`. -/
def calculateChksum (h : Sector) : ℕ :=
  ((List.range 512).map fun i => if 148 ≤ i ∧ i < 156 then 0x20 else (byteAt h i).toNat).sum

/-- `"ustar"`. -/
def ustarMagic : List UInt8 := [0x75, 0x73, 0x74, 0x61, 0x72]

/-- `"root"`. -/
def rootName : List UInt8 := [0x72, 0x6f, 0x6f, 0x74]

/-- The header except for the final checksum. -/
def headerFields (fileName : CString) (type : UstarType) (size : ℤ) : Sector :=
  let h : Sector := zeros
  let h := strlcpy h 0 100 fileName
  let h := strlcpy h 100 8 (octal 7 (if type = .regular then 0o644 else 0o755))
  let h := strlcpy h 108 8 (List.replicate 7 0x30)
  let h := strlcpy h 116 8 (List.replicate 7 0x30)
  let h := strlcpy h 124 12 (octal 11 (ofInt32 size))
  let h := strlcpy h 136 12 (octal 11 1136102400)
  let h := patch h 156 1 fun _ => type.flag
  let h := strlcpy h 257 6 ustarMagic
  let h := patch h 263 2 fun _ => 0x30
  let h := strlcpy h 297 32 rootName
  strlcpy h 265 32 rootName

/-- `ustar_make_header`: the header, or nothing if the name is too long. -/
def ustarMakeHeader (fileName : CString) (type : UstarType) (size : ℤ) : Option Sector :=
  let fileName := stripAntisocialPrefixes fileName
  if 99 < fileName.length then none
  else
    let h := headerFields fileName type size
    some (strlcpy h 148 8 (octal 7 (calculateChksum h)))

/-! ## Reading a header -/

/-- The loop of `parse_octal_field`; `ULONG_MAX` is `2 ^ 32 - 1`. -/
def parseOctalLoop (s : ℕ → UInt8) : ℕ → ℕ → ℕ → Option ℕ
  | 0, _, _ => none
  | n + 1, ofs, value =>
      if 0x30 ≤ s ofs ∧ s ofs ≤ 0x37 then
        if (2 ^ 32 - 1) / 8 < value then none
        else parseOctalLoop s n (ofs + 1) ((s ofs).toNat - 0x30 + value * 8)
      else if s ofs = 0x20 ∨ s ofs = 0 then
        if 0 < ofs then some value else none
      else none

/-- `parse_octal_field` on the field of `size` bytes at `offset`. -/
def parseOctalField (h : Sector) (offset size : ℕ) : Option ℕ :=
  parseOctalLoop (fun k => byteAt h (offset + k)) size 0 0

/-- `is_all_zeros`. -/
def isAllZeros (h : Sector) : Bool := (List.range 512).all fun i => byteAt h i = 0

/-- What `ustar_parse_header` complains of. -/
inductive UstarError where
  | notUstar
  | invalidVersion
  | corruptChksum
  | checksumMismatch
  | nameTooLong
  | unimplementedType
  | corruptSize
  | tooLarge
deriving DecidableEq, Repr

/-- The message of an error. -/
def UstarError.message : UstarError → String
  | .notUstar => "not a ustar archive"
  | .invalidVersion => "invalid ustar version"
  | .corruptChksum => "corrupt chksum field"
  | .checksumMismatch => "checksum mismatch"
  | .nameTooLong => "file name too long"
  | .unimplementedType => "unimplemented file type"
  | .corruptSize => "corrupt file size field"
  | .tooLarge => "file too large"

/-- What a header says: the end of the archive, or a name, a type and a size. -/
inductive UstarEntry where
  | eof
  | file (fileName : CString) (type : UstarType) (size : ℕ)
deriving DecidableEq, Repr

/-- The name in a header, stripped. -/
def headerName (h : Sector) : CString :=
  stripAntisocialPrefixes (((List.range 100).map (byteAt h)).takeWhile fun c => c ≠ 0)

/-- The size in the header of a regular file. -/
def headerSize (h : Sector) : Except UstarError ℕ :=
  match parseOctalField h 124 12 with
  | none => .error .corruptSize
  | some size => if 2 ^ 31 - 1 < size then .error .tooLarge else .ok size

/-- `ustar_parse_header`. -/
def ustarParseHeader (h : Sector) : Except UstarError UstarEntry :=
  -- offsets: 257 magic, 263 version, 148 checksum, 99 end of the name, 345 prefix, 156 type
  if isAllZeros h then .ok .eof
  else if ¬ ∀ k < 6, byteAt h (257 + k) = (ustarMagic ++ [0]).getD k 0 then .error .notUstar
  else if byteAt h 263 ≠ 0x30 ∨ byteAt h 264 ≠ 0x30 then .error .invalidVersion
  else match parseOctalField h 148 8 with
    | none => .error .corruptChksum
    | some chksum =>
        if chksum ≠ calculateChksum h then .error .checksumMismatch
        else if byteAt h 99 ≠ 0 ∨ byteAt h 345 ≠ 0 then .error .nameTooLong
        else if byteAt h 156 = UstarType.regular.flag then do
          let size ← headerSize h
          return .file (headerName h) .regular size
        else if byteAt h 156 = UstarType.directory.flag then
          .ok (.file (headerName h) .directory 0)
        else .error .unimplementedType

/-! ## The two agree -/

section

variable {h : Sector} {offset size : ℕ} {text : List UInt8} {i k : ℕ}

theorem byteAt_strlcpy (fits : text.length < size) (hi : i < 512) :
    byteAt (strlcpy h offset size text) i =
      if offset ≤ i ∧ i < offset + text.length + 1 then text.getD (i - offset) 0
      else byteAt h i := by
  have hmin : min text.length (size - 1) = text.length := by omega
  rw [strlcpy, byteAt_patch _ _ _ _ hi, hmin, Nat.add_assoc]
  by_cases hin : offset ≤ i ∧ i < offset + (text.length + 1)
  · rw [if_pos hin, if_pos hin]
    split
    · rfl
    · next hk => rw [List.getD_eq_default _ _ (by omega)]
  · rw [if_neg hin, if_neg hin]

theorem byteAt_strlcpy_in (fits : text.length < size) (hk : k ≤ text.length)
    (hi : offset + k < 512) : byteAt (strlcpy h offset size text) (offset + k) = text.getD k 0 := by
  rw [byteAt_strlcpy fits hi, if_pos (by omega), Nat.add_sub_cancel_left]

theorem byteAt_strlcpy_out (fits : text.length < size) (hi : i < 512)
    (out : i < offset ∨ offset + size ≤ i) : byteAt (strlcpy h offset size text) i = byteAt h i := by
  rw [byteAt_strlcpy fits hi, if_neg (by omega)]

theorem byteAt_patch_out {len : ℕ} {f : ℕ → UInt8} (hi : i < 512)
    (out : i < offset ∨ offset + len ≤ i) : byteAt (patch h offset len f) i = byteAt h i := by
  rw [byteAt_patch _ _ _ _ hi, if_neg (by omega)]

end

section

variable {width value : ℕ}

theorem length_digits (h : value < 8 ^ width) : (Nat.digits 8 value).length ≤ width :=
  (Nat.digits_length_le_iff (by omega) value).mpr h

theorem length_octal (h : value < 8 ^ width) : (octal width value).length = width := by
  have := length_digits h
  simp only [octal, List.length_map, List.length_reverse, List.length_append,
    List.length_replicate]
  omega

theorem getD_octal (h : value < 8 ^ width) {k : ℕ} (hk : k < width) :
    (octal width value).getD k 0 = UInt8.ofNat (0x30 + value / 8 ^ (width - 1 - k) % 8) := by
  have hlen := length_digits h
  have hk' : k < (octal width value).length := by rw [length_octal h]; exact hk
  rw [List.getD_eq_getElem _ _ hk', ← Nat.getD_digits value (width - 1 - k) (le_refl 2 |>.trans (by omega))]
  simp only [octal, List.getElem_map, List.getElem_reverse, List.length_append,
    List.length_replicate]
  congr 2
  have e : (Nat.digits 8 value).length + (width - (Nat.digits 8 value).length) - 1 - k =
      width - 1 - k := by omega
  by_cases hin : width - 1 - k < (Nat.digits 8 value).length
  · rw [List.getElem_append_left (by omega), List.getD_eq_getElem _ _ hin]
    congr 1
  · rw [List.getElem_append_right (by omega), List.getElem_replicate,
      List.getD_eq_default _ _ (by omega)]

/-- **Octal numbers are read back.**  Before digit `k` the loop has the digits above it. -/
theorem parseOctalLoop_octal {s : ℕ → UInt8} (h : value < 8 ^ width) (h32 : value < 2 ^ 32)
    (hw : 0 < width) (digits : ∀ k < width, s k = (octal width value).getD k 0)
    (stop : s width = 0) : ∀ n k m, k + n = width →
    parseOctalLoop s (n + (m + 1)) k (value / 8 ^ (width - k)) = some value := by
  intro n
  induction n with
  | zero =>
      intro k m hk
      have e : k = width := by omega
      subst e
      rw [Nat.zero_add, parseOctalLoop, stop, Nat.sub_self, pow_zero, Nat.div_one]
      rw [if_neg (by decide), if_pos (by decide), if_pos hw]
  | succ n ih =>
      intro k m hk
      have hdigit : s k = UInt8.ofNat (0x30 + value / 8 ^ (width - 1 - k) % 8) := by
        rw [digits k (by omega), getD_octal h (by omega)]
      set q := value / 8 ^ (width - 1 - k) with hq
      have hnat : (s k).toNat = 0x30 + q % 8 := by
        rw [hdigit, UInt8.toNat_ofNat']
        omega
      have hrange : 0x30 ≤ s k ∧ s k ≤ 0x37 := by
        rw [UInt8.le_iff_toNat_le, UInt8.le_iff_toNat_le, hnat]
        have h1 : (0x30 : UInt8).toNat = 48 := rfl
        have h2 : (0x37 : UInt8).toNat = 55 := rfl
        omega
      have hstep : value / 8 ^ (width - k) = q / 8 := by
        rw [hq, Nat.div_div_eq_div_mul, ← pow_succ, show width - 1 - k + 1 = width - k by omega]
      have hsmall : q ≤ value := Nat.div_le_self _ _
      have hnext : (s k).toNat - 0x30 + q / 8 * 8 = value / 8 ^ (width - (k + 1)) := by
        rw [hnat, show width - (k + 1) = width - 1 - k by omega, ← hq]
        omega
      rw [show n + 1 + (m + 1) = n + (m + 1) + 1 by omega, parseOctalLoop, if_pos hrange, hstep,
        if_neg (by omega), hnext]
      exact ih (k + 1) m (by omega)

theorem parseOctalField_octal {h : Sector} {offset size : ℕ} (hv : value < 8 ^ width)
    (h32 : value < 2 ^ 32) (hw : 0 < width) (hsize : width < size)
    (digits : ∀ k ≤ width, byteAt h (offset + k) = (octal width value).getD k 0) :
    parseOctalField h offset size = some value := by
  have hlen := length_octal hv
  have := parseOctalLoop_octal (s := fun k => byteAt h (offset + k)) hv h32 hw
    (fun k hk => digits k hk.le) (by
      show byteAt h (offset + width) = 0
      rw [digits width le_rfl, List.getD_eq_default _ _ (by omega)]) width 0 (size - width - 1)
    (by omega)
  rwa [Nat.sub_zero, Nat.div_eq_of_lt hv, show width + (size - width - 1 + 1) = size by omega] at this

end

theorem isAllZeros_iff {h : Sector} : isAllZeros h = true ↔ h = zeros := by
  rw [isAllZeros, List.all_eq_true]
  constructor
  · intro all
    refine ext_byteAt fun i hi => ?_
    rw [byteAt_zeros]
    exact of_decide_eq_true (all i (List.mem_range.mpr hi))
  · rintro rfl i -
    simp

/-- A sector of zeros ends an archive. -/
theorem parseHeader_zeros : ustarParseHeader zeros = .ok .eof := by
  rw [ustarParseHeader, if_pos (isAllZeros_iff.mpr rfl)]

/-- The checksum has at most seven octal digits. -/
theorem calculateChksum_lt (h : Sector) : calculateChksum h < 8 ^ 7 := by
  have hle := List.sum_le_card_nsmul ((List.range 512).map fun i =>
    if 148 ≤ i ∧ i < 156 then 0x20 else (byteAt h i).toNat) 255 (by
      intro x hx
      obtain ⟨i, -, rfl⟩ := List.mem_map.mp hx
      split
      · omega
      · have := (byteAt h i).toNat_lt
        omega)
  rw [List.length_map, List.length_range] at hle
  calc calculateChksum h ≤ 512 • 255 := hle
    _ < 8 ^ 7 := by norm_num

/-- The checksum does not depend on its own field. -/
theorem calculateChksum_congr {h h' : Sector}
    (same : ∀ i < 512, i < 148 ∨ 156 ≤ i → byteAt h i = byteAt h' i) :
    calculateChksum h = calculateChksum h' := by
  refine congrArg List.sum (List.map_congr_left fun i hi => ?_)
  split
  · rfl
  · next hout => rw [same i (List.mem_range.mp hi) (by omega)]

/-! ## A header that was made -/

section

variable {name : CString} {type : UstarType} {size : ℤ} {i : ℕ}

/-- The numbers of a header fit their fields. -/
theorem length_mode (type : UstarType) :
    (octal 7 (if type = .regular then 0o644 else 0o755)).length = 7 := by
  refine length_octal ?_
  split <;> norm_num

theorem length_size (size : ℤ) : (octal 11 (ofInt32 size)).length = 11 := by
  refine length_octal ?_
  have := ofInt32_lt size
  omega

theorem length_mtime : (octal 11 1136102400).length = 11 := length_octal (by norm_num)

theorem headerFields_name (h99 : name.length ≤ 99) (hi : i < 100) :
    byteAt (headerFields name type size) i = name.getD i 0 := by
  have h1 := length_mode type
  have h2 := length_size size
  have h3 := length_mtime
  simp only [headerFields]
  rw [byteAt_strlcpy_out (by simp [rootName]) (by omega) (by omega),
    byteAt_strlcpy_out (by simp [rootName]) (by omega) (by omega),
    byteAt_patch_out (by omega) (by omega),
    byteAt_strlcpy_out (by simp [ustarMagic]) (by omega) (by omega),
    byteAt_patch_out (by omega) (by omega),
    byteAt_strlcpy_out (by omega) (by omega) (by omega),
    byteAt_strlcpy_out (by omega) (by omega) (by omega),
    byteAt_strlcpy_out (by simp) (by omega) (by omega),
    byteAt_strlcpy_out (by simp) (by omega) (by omega),
    byteAt_strlcpy_out (by omega) (by omega) (by omega),
    byteAt_strlcpy (by omega) (by omega)]
  by_cases hin : i < 0 + name.length + 1
  · rw [if_pos ⟨by omega, hin⟩, Nat.sub_zero]
  · rw [if_neg (by omega), byteAt_zeros, List.getD_eq_default _ _ (by omega)]

theorem headerFields_size {k : ℕ} (hk : k ≤ 11) :
    byteAt (headerFields name type size) (124 + k) = (octal 11 (ofInt32 size)).getD k 0 := by
  have h1 := length_mode type
  have h2 := length_size size
  have h3 := length_mtime
  simp only [headerFields]
  rw [byteAt_strlcpy_out (by simp [rootName]) (by omega) (by omega),
    byteAt_strlcpy_out (by simp [rootName]) (by omega) (by omega),
    byteAt_patch_out (by omega) (by omega),
    byteAt_strlcpy_out (by simp [ustarMagic]) (by omega) (by omega),
    byteAt_patch_out (by omega) (by omega),
    byteAt_strlcpy_out (by omega) (by omega) (by omega),
    byteAt_strlcpy_in (by omega) (by omega) (by omega)]

theorem headerFields_flag : byteAt (headerFields name type size) 156 = type.flag := by
  simp only [headerFields]
  rw [byteAt_strlcpy_out (by simp [rootName]) (by omega) (by omega),
    byteAt_strlcpy_out (by simp [rootName]) (by omega) (by omega),
    byteAt_patch_out (by omega) (by omega),
    byteAt_strlcpy_out (by simp [ustarMagic]) (by omega) (by omega),
    byteAt_patch _ _ _ _ (by omega), if_pos (by omega)]

theorem headerFields_magic {k : ℕ} (hk : k < 6) :
    byteAt (headerFields name type size) (257 + k) = (ustarMagic ++ [0]).getD k 0 := by
  simp only [headerFields]
  rw [byteAt_strlcpy_out (by simp [rootName]) (by omega) (by omega),
    byteAt_strlcpy_out (by simp [rootName]) (by omega) (by omega),
    byteAt_patch_out (by omega) (by omega),
    byteAt_strlcpy_in (by simp [ustarMagic]) (by simp [ustarMagic]; omega) (by omega)]
  by_cases h5 : k < 5
  · rw [List.getD_append _ _ _ _ (by simpa [ustarMagic] using h5)]
  · have e : k = 5 := by omega
    subst e
    rfl

theorem headerFields_version {k : ℕ} (hk : k < 2) :
    byteAt (headerFields name type size) (263 + k) = 0x30 := by
  simp only [headerFields]
  rw [byteAt_strlcpy_out (by simp [rootName]) (by omega) (by omega),
    byteAt_strlcpy_out (by simp [rootName]) (by omega) (by omega),
    byteAt_patch _ _ _ _ (by omega), if_pos (by omega)]

theorem headerFields_rest (h99 : name.length ≤ 99) : byteAt (headerFields name type size) 345 = 0 := by
  have h1 := length_mode type
  have h2 := length_size size
  have h3 := length_mtime
  simp only [headerFields]
  rw [byteAt_strlcpy_out (by simp [rootName]) (by omega) (by omega),
    byteAt_strlcpy_out (by simp [rootName]) (by omega) (by omega),
    byteAt_patch_out (by omega) (by omega),
    byteAt_strlcpy_out (by simp [ustarMagic]) (by omega) (by omega),
    byteAt_patch_out (by omega) (by omega),
    byteAt_strlcpy_out (by omega) (by omega) (by omega),
    byteAt_strlcpy_out (by omega) (by omega) (by omega),
    byteAt_strlcpy_out (by simp) (by omega) (by omega),
    byteAt_strlcpy_out (by simp) (by omega) (by omega),
    byteAt_strlcpy_out (by omega) (by omega) (by omega),
    byteAt_strlcpy_out (by omega) (by omega) (by omega), byteAt_zeros]

/-- **What the writer makes the reader accepts**, with the stripped name, the type and the
size. -/
theorem parseHeader_makeHeader {h : Sector} (hz : ∀ c ∈ name, c ≠ 0) (h0 : 0 ≤ size)
    (h1 : size < 2 ^ 31) (made : ustarMakeHeader name type size = some h) :
    ustarParseHeader h = .ok (.file (stripAntisocialPrefixes name) type
      (if type = .regular then size.toNat else 0)) := by
  rw [ustarMakeHeader] at made
  split at made
  · cases made
  next h99 =>
  rw [Option.some.injEq] at made
  set stripped := stripAntisocialPrefixes name with hstripped
  have hlen : stripped.length ≤ 99 := not_lt.mp h99
  have hsum := calculateChksum_lt (headerFields stripped type size)
  have hoct := length_octal hsum
  have out : ∀ i < 512, i < 148 ∨ 156 ≤ i → byteAt h i = byteAt (headerFields stripped type size) i := by
    intro i hi hout
    rw [← made, byteAt_strlcpy_out (by omega) hi (by omega)]
  have hmagic : ∀ k < 6, byteAt h (257 + k) = (ustarMagic ++ [0]).getD k 0 := by
    intro k hk
    rw [out _ (by omega) (by omega), headerFields_magic hk]
  have hnonzero : isAllZeros h ≠ true := by
    rw [Ne, isAllZeros_iff]
    rintro rfl
    have := hmagic 0 (by omega)
    simp [ustarMagic] at this
  have hversion : ¬ (byteAt h 263 ≠ 0x30 ∨ byteAt h 264 ≠ 0x30) := by
    rw [out 263 (by omega) (by omega), out 264 (by omega) (by omega),
      headerFields_version (k := 0) (by omega), headerFields_version (k := 1) (by omega)]
    simp
  have hchksum : parseOctalField h 148 8 = some (calculateChksum h) := by
    rw [calculateChksum_congr out]
    refine parseOctalField_octal hsum (by omega) (by omega) (by omega) fun k hk => ?_
    rw [← made, byteAt_strlcpy_in (by omega) (by omega) (by omega)]
  have hname : ∀ i < 100, byteAt h i = stripped.getD i 0 := by
    intro i hi
    rw [out i (by omega) (by omega), headerFields_name hlen hi]
  have hplace : ¬ (byteAt h 99 ≠ 0 ∨ byteAt h 345 ≠ 0) := by
    rw [hname 99 (by omega), out 345 (by omega) (by omega), headerFields_rest hlen,
      List.getD_eq_default _ _ hlen]
    simp
  have hread : headerName h = stripped := by
    have hbytes : (List.range 100).map (byteAt h) = stripped ++ List.replicate (100 - stripped.length) 0 := by
      refine List.ext_getElem (by simp; omega) fun i hi _ => ?_
      have hi' : i < 100 := by simpa using hi
      rw [List.getElem_map, List.getElem_range, hname i hi', List.getElem_append]
      split
      · next hlt => rw [List.getD_eq_getElem _ _ hlt]
      · next hge => rw [List.getElem_replicate, List.getD_eq_default _ _ (by omega)]
    have hkeep : (stripped ++ List.replicate (100 - stripped.length) 0).takeWhile (fun c => c ≠ 0) =
        stripped := by
      rw [List.takeWhile_append_of_pos fun c hc => by simpa using strip_ne_zero hz c hc,
        show 100 - stripped.length = (99 - stripped.length) + 1 by omega, List.replicate_succ,
        List.takeWhile_cons_of_neg (by simp), List.append_nil]
    rw [headerName, hbytes, hkeep, hstripped, strip_strip]
  have hsize : parseOctalField h 124 12 = some size.toNat := by
    have hof : ofInt32 size = size.toNat := by
      unfold ofInt32
      omega
    have hfit : size.toNat < 8 ^ 11 := by omega
    refine parseOctalField_octal hfit (by omega) (by omega) (by omega) fun k hk => ?_
    rw [out _ (by omega) (by omega), headerFields_size hk, hof]
  have hflag : byteAt h 156 = type.flag := by
    rw [out 156 (by omega) (by omega), headerFields_flag]
  rw [ustarParseHeader, if_neg hnonzero, if_neg (not_not.mpr hmagic), if_neg hversion]
  simp only [hchksum, ne_eq, not_true, if_false]
  rw [if_neg hplace, hflag, hread]
  cases type with
  | regular =>
      have hle : ¬ 2 ^ 31 - 1 < size.toNat := by omega
      simp only [headerSize, hsize, if_neg hle, if_true, ok_bind]
      rfl
  | directory =>
      rw [if_neg (by decide), if_pos rfl, if_neg (by decide)]

/-- The only complaint of the writer is a long name. -/
theorem makeHeader_eq_none_iff :
    ustarMakeHeader name type size = none ↔ 99 < (stripAntisocialPrefixes name).length := by
  rw [ustarMakeHeader]
  split
  · next h => simp [h]
  · next h => simp [h]

/-- **A header is made unless the stripped name is too long, and says what it was made of**; a
stripped name is neither empty nor antisocial, and stripped for good. -/
theorem ustar_round_trip (hz : ∀ c ∈ name, c ≠ 0) (h0 : 0 ≤ size) (h1 : size < 2 ^ 31) :
    (ustarMakeHeader name type size = none ↔ 99 < (stripAntisocialPrefixes name).length) ∧
    (∀ h, ustarMakeHeader name type size = some h → ustarParseHeader h =
      .ok (.file (stripAntisocialPrefixes name) type (if type = .regular then size.toNat else 0))) ∧
    stripAntisocialPrefixes (stripAntisocialPrefixes name) = stripAntisocialPrefixes name ∧
    stripAntisocialPrefixes name ≠ [] ∧ stripAntisocialPrefixes name ≠ parentPath ∧
    ¬ Antisocial (stripAntisocialPrefixes name) :=
  ⟨makeHeader_eq_none_iff, fun _ made => parseHeader_makeHeader hz h0 h1 made, strip_strip name,
    strip_ne_nil name, strip_ne_parent name, not_antisocial_strip name⟩

/-- The header of `"/a"`, with the name `"a"`. -/
theorem ustar_round_trip_slash : ∃ h, ustarMakeHeader [0x2f, 0x61] .regular 5 = some h ∧
    ustarParseHeader h = .ok (.file [0x61] .regular 5) := by
  have hz : ∀ c ∈ ([0x2f, 0x61] : CString), c ≠ 0 := by decide +kernel
  have trip := @ustar_round_trip [0x2f, 0x61] .regular 5 hz (by decide) (by decide)
  have hstrip : stripAntisocialPrefixes [0x2f, 0x61] = [0x61] := by decide
  rw [hstrip] at trip
  cases made : ustarMakeHeader [0x2f, 0x61] .regular 5 with
  | none => exact absurd (trip.1.mp made) (by decide)
  | some h => exact ⟨h, rfl, trip.2.1 h made⟩

end

end Pintos
