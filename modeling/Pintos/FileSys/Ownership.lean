import Pintos.FileSys.Inode

/-!
# What each sector is used for

The invariant of the file system is stated over a ghost assignment
`use : ℕ → Option Use`, which gives a sector at most one purpose: an inode, the
`i`-th data sector of an inode, or one of its index blocks.  That the sectors of
two inodes are disjoint, and that no data sector is also an index block, is then
not a clause of the invariant but the fact that `use` is a function.

* `slotOf`, `Present` — the pointer walk of `byte_to_sector`.
* `PtrOk` — every non-null pointer of an inode has the purpose its place implies.
* `TreeOk` — in addition, every sector below the length is present.
* `Core` — the invariant of the state: the purposes are backed by the free map,
  the live inodes have their trees, the open inodes mirror them.

Only non-null pointers are constrained.  A null pointer is how `inode_create` and
`extend_file` leave a slot they did not fill, and sector 0 holds the free map's
inode.
-/

namespace Pintos

open Lib Lib.Block

/-- The purpose of a used sector. -/
inductive Use where
  | inode
  | data (owner index : ℕ)
  | indirect (owner : ℕ)
  | doubly (owner : ℕ)
  | second (owner index : ℕ)
deriving DecidableEq, Repr

/-- The inode a data sector or an index block belongs to. -/
def Use.owner : Use → Option ℕ
  | .inode => none
  | .data o _ => some o
  | .indirect o => some o
  | .doubly o => some o
  | .second o _ => some o

/-! ## The pointer walk -/

/-- The sector `byte_to_sector` finds for the `i`-th sector of a file, whatever
its length. -/
def slotOf (disk : ℕ → Sector) (d : Sector) (i : ℕ) : ℕ :=
  if i < 122 then directPtr d i
  else if i < 250 then wordAt (disk (indirectPtr d)) (i - 122)
  else wordAt (disk (wordAt (disk (doublyPtr d)) ((i - 250) / 128))) ((i - 250) % 128)

/-- No pointer on the walk to the `i`-th sector is null. -/
def Present (disk : ℕ → Sector) (d : Sector) (i : ℕ) : Prop :=
  slotOf disk d i ≠ 0 ∧ (122 ≤ i → i < 250 → indirectPtr d ≠ 0) ∧
    (250 ≤ i → i < 16634 ∧ doublyPtr d ≠ 0 ∧
      wordAt (disk (doublyPtr d)) ((i - 250) / 128) ≠ 0)

instance (disk : ℕ → Sector) (d : Sector) (i : ℕ) : Decidable (Present disk d i) :=
  inferInstanceAs (Decidable (_ ∧ _))

/-- Two disks with the same index blocks for `d`. -/
structure IndexAgree (disk disk' : ℕ → Sector) (d : Sector) : Prop where
  indirect : indirectPtr d ≠ 0 → disk' (indirectPtr d) = disk (indirectPtr d)
  doubly : doublyPtr d ≠ 0 → disk' (doublyPtr d) = disk (doublyPtr d)
  second : doublyPtr d ≠ 0 → ∀ j < 128, wordAt (disk (doublyPtr d)) j ≠ 0 →
    disk' (wordAt (disk (doublyPtr d)) j) = disk (wordAt (disk (doublyPtr d)) j)

namespace IndexAgree

variable {disk disk' : ℕ → Sector} {d : Sector}

theorem slot_eq (h : IndexAgree disk disk' d) {i : ℕ}
    (h1 : 122 ≤ i → i < 250 → indirectPtr d ≠ 0)
    (h2 : 250 ≤ i → i < 16634 ∧ doublyPtr d ≠ 0 ∧
      wordAt (disk (doublyPtr d)) ((i - 250) / 128) ≠ 0) :
    slotOf disk' d i = slotOf disk d i := by
  unfold slotOf
  split
  · rfl
  split
  · rw [h.indirect (h1 (by omega) (by omega))]
  · obtain ⟨hlt, hd, hs⟩ := h2 (by omega)
    rw [h.doubly hd, h.second hd _ (by omega) hs]

theorem present_iff (h : IndexAgree disk disk' d) (i : ℕ) :
    Present disk' d i ↔ Present disk d i := by
  have guard : (250 ≤ i → i < 16634 ∧ doublyPtr d ≠ 0 ∧
        wordAt (disk' (doublyPtr d)) ((i - 250) / 128) ≠ 0) ↔
      (250 ≤ i → i < 16634 ∧ doublyPtr d ≠ 0 ∧
        wordAt (disk (doublyPtr d)) ((i - 250) / 128) ≠ 0) := by
    refine imp_congr_right fun _ => and_congr_right fun _ => and_congr_right fun hd => ?_
    rw [h.doubly hd]
  unfold Present
  rw [guard]
  constructor
  · rintro ⟨hs, h1, h2⟩
    exact ⟨by rwa [← h.slot_eq h1 h2], h1, h2⟩
  · rintro ⟨hs, h1, h2⟩
    exact ⟨by rwa [h.slot_eq h1 h2], h1, h2⟩

theorem slot_eq_of_present (h : IndexAgree disk disk' d) {i : ℕ} (hp : Present disk d i) :
    slotOf disk' d i = slotOf disk d i :=
  h.slot_eq hp.2.1 hp.2.2

end IndexAgree

/-- Byte `i` of the file with inode data `d`. -/
def fileByte (disk : ℕ → Sector) (d : Sector) (i : ℕ) : UInt8 := view disk (slotOf disk d) i

/-! ## The tree of one inode -/

/-- Every non-null pointer of the inode at sector `s` has the purpose its place
implies. -/
structure PtrOk (use : ℕ → Option Use) (disk : ℕ → Sector) (s : ℕ) (d : Sector) : Prop where
  data : ∀ i, Present disk d i → use (slotOf disk d i) = some (.data s i)
  indirect : indirectPtr d ≠ 0 → use (indirectPtr d) = some (.indirect s)
  doubly : doublyPtr d ≠ 0 → use (doublyPtr d) = some (.doubly s)
  second : doublyPtr d ≠ 0 → ∀ j < 128, wordAt (disk (doublyPtr d)) j ≠ 0 →
    use (wordAt (disk (doublyPtr d)) j) = some (.second s j)

/-- The bytes from `len` on of every present sector are zero. -/
def ZeroFrom (disk : ℕ → Sector) (d : Sector) (len : ℤ) : Prop :=
  ∀ i : ℕ, len ≤ i → Present disk d (i / 512) → fileByte disk d i = 0

/-- The tree of the inode at sector `s`: its length is in range, every sector
below the length is present, at most one sector past it is (`extend_file` may
allocate one too many), and the bytes past the length are zero. -/
structure TreeOk (use : ℕ → Option Use) (disk : ℕ → Sector) (s : ℕ) (d : Sector) : Prop where
  ptrs : PtrOk use disk s d
  len_nonneg : 0 ≤ inodeLength d
  len_le : inodeLength d ≤ 8516608
  present : ∀ i : ℕ, 512 * (i : ℤ) < inodeLength d → Present disk d i
  bound : ∀ i : ℕ, Present disk d i → 0 < inodeLength d ∧ 512 * (i : ℤ) < inodeLength d + 512
  zero : ZeroFrom disk d (inodeLength d)

/-- A disk that keeps the sectors owned by `s`. -/
def KeepsOwned (use : ℕ → Option Use) (s : ℕ) (disk disk' : ℕ → Sector) : Prop :=
  ∀ t u, use t = some u → u.owner = some s → disk' t = disk t

/-- A disk that keeps the index blocks of `s`. -/
def KeepsIndex (use : ℕ → Option Use) (s : ℕ) (disk disk' : ℕ → Sector) : Prop :=
  ∀ t u, use t = some u → u.owner = some s → (∀ i, u ≠ .data s i) → disk' t = disk t

theorem KeepsOwned.index {use : ℕ → Option Use} {s : ℕ} {disk disk' : ℕ → Sector}
    (h : KeepsOwned use s disk disk') : KeepsIndex use s disk disk' :=
  fun t u hu ho _ => h t u hu ho

/-- A use assignment that keeps the purposes owned by `s`. -/
def KeepsUse (use use' : ℕ → Option Use) (s : ℕ) : Prop :=
  ∀ t u, use t = some u → u.owner = some s → use' t = some u

theorem KeepsUse.refl (use : ℕ → Option Use) (s : ℕ) : KeepsUse use use s := fun _ _ h _ => h

theorem KeepsUse.trans {use use' use'' : ℕ → Option Use} {s : ℕ} (h : KeepsUse use use' s)
    (h' : KeepsUse use' use'' s) : KeepsUse use use'' s :=
  fun t u hu ho => h' t u (h t u hu ho) ho

namespace PtrOk

variable {use use' : ℕ → Option Use} {disk disk' : ℕ → Sector} {s : ℕ} {d : Sector}

theorem indexAgree (h : PtrOk use disk s d) (keep : KeepsIndex use s disk disk') :
    IndexAgree disk disk' d where
  indirect hi := keep _ _ (h.indirect hi) rfl fun i => by simp
  doubly hd := keep _ _ (h.doubly hd) rfl fun i => by simp
  second hd j hj hw := keep _ _ (h.second hd j hj hw) rfl fun i => by simp

theorem congr (h : PtrOk use disk s d) (keep : KeepsIndex use s disk disk')
    (huse : KeepsUse use use' s) : PtrOk use' disk' s d := by
  have agree := h.indexAgree keep
  refine ⟨fun i hi => ?_, fun hi => ?_, fun hd => ?_, fun hd j hj hw => ?_⟩
  · have hp := (agree.present_iff i).mp hi
    rw [agree.slot_eq_of_present hp]
    exact huse _ _ (h.data i hp) rfl
  · exact huse _ _ (h.indirect hi) rfl
  · exact huse _ _ (h.doubly hd) rfl
  · rw [agree.doubly hd] at hw ⊢
    exact huse _ _ (h.second hd j hj hw) rfl

end PtrOk

namespace TreeOk

variable {use use' : ℕ → Option Use} {disk disk' : ℕ → Sector} {s : ℕ} {d : Sector}

/-- Bytes of present sectors survive a change that keeps the owned sectors. -/
theorem fileByte_congr (h : PtrOk use disk s d) (keep : KeepsOwned use s disk disk') {i : ℕ}
    (hp : Present disk d (i / 512)) : fileByte disk' d i = fileByte disk d i := by
  have agree := h.indexAgree keep.index
  exact view_congr (agree.slot_eq_of_present hp) (keep _ _ (h.data _ hp) rfl)

/-- **The tree depends only on the sectors it owns.** -/
theorem congr (h : TreeOk use disk s d) (keep : KeepsOwned use s disk disk')
    (huse : KeepsUse use use' s) : TreeOk use' disk' s d := by
  have agree := h.ptrs.indexAgree keep.index
  refine ⟨h.ptrs.congr keep.index huse, h.len_nonneg, h.len_le, fun i hi => ?_, fun i hi => ?_,
    fun i hi hp => ?_⟩
  · exact (agree.present_iff i).mpr (h.present i hi)
  · exact h.bound i ((agree.present_iff i).mp hi)
  · have hp' := (agree.present_iff _).mp hp
    rw [fileByte_congr h.ptrs keep hp']
    exact h.zero i hi hp'

/-- The number of sectors below the length. -/
def count (d : Sector) : ℕ := ((inodeLength d + 511) / 512).toNat

theorem lt_count (h : TreeOk use disk s d) {i : ℕ} :
    i < count d ↔ 512 * (i : ℤ) < inodeLength d := by
  have := h.len_nonneg
  unfold count
  omega

theorem div_lt_count (h : TreeOk use disk s d) {i : ℕ} (hi : (i : ℤ) < inodeLength d) :
    i / 512 < count d := by
  rw [h.lt_count]
  omega

/-- Distinct sectors of a file are distinct sectors of the device. -/
theorem slot_inj (h : TreeOk use disk s d) :
    ∀ i < count d, ∀ j < count d, slotOf disk d i = slotOf disk d j → i = j := by
  intro i hi j hj e
  have h1 := h.ptrs.data i (h.present i (h.lt_count.mp hi))
  have h2 := h.ptrs.data j (h.present j (h.lt_count.mp hj))
  rw [e, h2] at h1
  simpa using h1.symm

end TreeOk

/-- **`byte_to_sector` on a sound tree.**  An offset below the length whose sector
is present resolves, without a fault, to that sector. -/
theorem byteToSector_ok {use : ℕ → Option Use} {dev : Device} {s : ℕ} {d : Sector}
    (h : PtrOk use dev.disk s d) (inside : ∀ t u, use t = some u → t < dev.size) {pos : ℕ}
    (hp : Present dev.disk d (pos / 512)) (hpos : (pos : ℤ) < inodeLength d) :
    byteToSector dev d pos = .ok (slotOf dev.disk d (pos / 512)) := by
  unfold byteToSector slotOf
  simp only [hpos, if_true]
  split
  · rfl
  split
  · have hI := hp.2.1 (by omega) (by omega)
    rw [blockRead_ok (inside _ _ (h.indirect hI))]
    rfl
  · obtain ⟨hlt, hD, hS⟩ := hp.2.2 (by omega)
    have hj : (pos / 512 - 250) / 128 < 128 := by omega
    have e : pos / 512 - 122 - 128 = pos / 512 - 250 := by omega
    rw [if_pos (by omega), e, blockRead_ok (inside _ _ (h.doubly hD)), ok_bind,
      if_neg (by omega), blockRead_ok (inside _ _ (h.second hD _ hj hS))]
    rfl

theorem byteToSector_past {dev : Device} {d : Sector} {pos : ℕ} (h : inodeLength d ≤ pos) :
    byteToSector dev d pos = .ok errValue := by
  simp only [byteToSector, not_lt.mpr h, if_false]

end Pintos
