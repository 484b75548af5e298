import Pintos.FileSys.Create

/-!
# Growing a file

`extend_file` allocates the sectors after the last one of the old length, one an
iteration, choosing the level by the running length and the slot by
`next_index`.  While it runs the tree is not complete; `GrowInv` is what it keeps
about the tree, `Grow` what it keeps about everything else.

* `extendBlock_direct`, `extendBlock_indirect`, `extendBlock_none` — one iteration.
* `LevelsOk` — the running length names the level of the slot in every iteration.
* `extendLoop_spec` — the loop, when `LevelsOk` holds.
-/

namespace Pintos

open Lib Lib.Block

/-! ## Slots -/

/-- The index blocks and the inode changed so that slot `idx` now is `t`. -/
structure SlotSet (disk : ℕ → Sector) (d : Sector) (disk' : ℕ → Sector) (d' : Sector)
    (idx t : ℕ) : Prop where
  present : ∀ i, Present disk' d' i ↔ i = idx ∨ Present disk d i
  slot_new : slotOf disk' d' idx = t
  slot_old : ∀ i, i ≠ idx → Present disk d i → slotOf disk' d' i = slotOf disk d i

/-- The length is no pointer. -/
theorem slotOf_setLength (disk : ℕ → Sector) (d : Sector) (len : ℤ) (i : ℕ) :
    slotOf disk (setLength d len) i = slotOf disk d i := by
  have h4 : ∀ j, 1 ≤ j → wordAt (setLength d len) j = wordAt d j :=
    fun j hj => wordAt_setWord_ne _ _ (by omega)
  unfold slotOf directPtr indirectPtr doublyPtr
  rw [h4 _ (by omega), h4 126 (by omega), h4 127 (by omega)]

theorem indirectPtr_setLength (d : Sector) (len : ℤ) :
    indirectPtr (setLength d len) = indirectPtr d :=
  wordAt_setWord_ne _ _ (by omega)

theorem doublyPtr_setLength (d : Sector) (len : ℤ) :
    doublyPtr (setLength d len) = doublyPtr d :=
  wordAt_setWord_ne _ _ (by omega)

theorem inodeLength_setLength (d : Sector) {len : ℤ} (h0 : -2 ^ 31 ≤ len) (h1 : len < 2 ^ 31) :
    inodeLength (setLength d len) = len := by
  rw [inodeLength, setLength, wordAt_setWord_self _ (by norm_num) (ofInt32_lt len),
    toInt32_ofInt32 h0 h1]

theorem present_setLength (disk : ℕ → Sector) (d : Sector) (len : ℤ) (i : ℕ) :
    Present disk (setLength d len) i ↔ Present disk d i := by
  unfold Present
  rw [slotOf_setLength, indirectPtr_setLength, doublyPtr_setLength]

theorem PtrOk.setLength {use : ℕ → Option Use} {disk : ℕ → Sector} {s : ℕ} {d : Sector}
    (h : PtrOk use disk s d) (len : ℤ) : PtrOk use disk s (setLength d len) where
  data i hi := by
    rw [slotOf_setLength]
    exact h.data i ((present_setLength ..).mp hi)
  indirect := by
    rw [indirectPtr_setLength]
    exact h.indirect
  doubly := by
    rw [doublyPtr_setLength]
    exact h.doubly
  second := by
    rw [doublyPtr_setLength]
    exact h.second

/-- A direct pointer is stored. -/
theorem SlotSet.direct (disk : ℕ → Sector) (d : Sector) {idx t : ℕ} (hidx : idx < 122)
    (ht : t < 2 ^ 32) (ht0 : t ≠ 0) : SlotSet disk d disk (setWord d (4 + idx) t) idx t := by
  have hI : indirectPtr (setWord d (4 + idx) t) = indirectPtr d :=
    wordAt_setWord_ne _ _ (by omega)
  have hD : doublyPtr (setWord d (4 + idx) t) = doublyPtr d := wordAt_setWord_ne _ _ (by omega)
  have hslot : slotOf disk (setWord d (4 + idx) t) idx = t := by
    simp only [slotOf, hidx, if_true, directPtr]
    exact wordAt_setWord_self _ (by omega) ht
  have hother : ∀ i, i ≠ idx → slotOf disk (setWord d (4 + idx) t) i = slotOf disk d i := by
    intro i hi
    unfold slotOf directPtr
    rw [hI, hD, wordAt_setWord_ne _ _ (by omega)]
  refine ⟨fun i => ?_, hslot, fun i hi _ => hother i hi⟩
  by_cases e : i = idx
  · subst e
    simp only [Present, hslot, true_or, iff_true]
    exact ⟨ht0, by omega, by omega⟩
  · unfold Present
    rw [hother i e, hI, hD]
    simp only [e, false_or]

section

variable {use : ℕ → Option Use} {disk : ℕ → Sector} {s : ℕ} {d : Sector}

/-- A pointer is stored in the indirect block. -/
theorem SlotSet.indirect (h : PtrOk use disk s d) (hP : indirectPtr d ≠ 0) {idx t : ℕ}
    (h1 : 122 ≤ idx) (h2 : idx < 250) (ht : t < 2 ^ 32) (ht0 : t ≠ 0) :
    SlotSet disk d (Function.update disk (indirectPtr d)
      (setWord (disk (indirectPtr d)) (idx - 122) t)) d idx t := by
  have huse := h.indirect hP
  have hslot : slotOf (Function.update disk (indirectPtr d)
      (setWord (disk (indirectPtr d)) (idx - 122) t)) d idx = t := by
    simp only [slotOf, show ¬ idx < 122 by omega, h2, if_true, if_false, Function.update_self]
    exact wordAt_setWord_self _ (by omega) ht
  have hdoubly : doublyPtr d ≠ 0 → Function.update disk (indirectPtr d)
      (setWord (disk (indirectPtr d)) (idx - 122) t) (doublyPtr d) = disk (doublyPtr d) := by
    intro hD
    refine Function.update_of_ne (fun e => ?_) _ _
    have := h.doubly hD
    rw [e, huse] at this
    simp at this
  have hsecond : doublyPtr d ≠ 0 → ∀ j < 128, wordAt (disk (doublyPtr d)) j ≠ 0 →
      Function.update disk (indirectPtr d) (setWord (disk (indirectPtr d)) (idx - 122) t)
        (wordAt (disk (doublyPtr d)) j) = disk (wordAt (disk (doublyPtr d)) j) := by
    intro hD j hj hw
    refine Function.update_of_ne (fun e => ?_) _ _
    have := h.second hD j hj hw
    rw [e, huse] at this
    simp at this
  -- slots outside the indirect level are reached through unchanged blocks
  have hother : ∀ i, i ≠ idx → (250 ≤ i → i < 16634 ∧ doublyPtr d ≠ 0 ∧
      wordAt (disk (doublyPtr d)) ((i - 250) / 128) ≠ 0) →
      slotOf (Function.update disk (indirectPtr d)
        (setWord (disk (indirectPtr d)) (idx - 122) t)) d i = slotOf disk d i := by
    intro i hi hguard
    unfold slotOf
    split
    · rfl
    split
    · rw [Function.update_self, wordAt_setWord_ne _ _ (by omega)]
    · obtain ⟨hlt, hD, hw⟩ := hguard (by omega)
      rw [hdoubly hD, hsecond hD _ (by omega) hw]
  refine ⟨fun i => ?_, hslot, fun i hi hp => hother i hi hp.2.2⟩
  by_cases e : i = idx
  · subst e
    simp only [Present, hslot, true_or, iff_true]
    exact ⟨ht0, fun _ _ => hP, by omega⟩
  · have guard : (250 ≤ i → i < 16634 ∧ doublyPtr d ≠ 0 ∧
          wordAt (Function.update disk (indirectPtr d)
            (setWord (disk (indirectPtr d)) (idx - 122) t) (doublyPtr d)) ((i - 250) / 128) ≠ 0) ↔
        (250 ≤ i → i < 16634 ∧ doublyPtr d ≠ 0 ∧
          wordAt (disk (doublyPtr d)) ((i - 250) / 128) ≠ 0) := by
      refine imp_congr_right fun _ => and_congr_right fun _ => and_congr_right fun hD => ?_
      rw [hdoubly hD]
    simp only [e, false_or]
    unfold Present
    rw [guard]
    constructor
    · rintro ⟨hs, h1, h2⟩
      exact ⟨by rwa [← hother i e h2], h1, h2⟩
    · rintro ⟨hs, h1, h2⟩
      exact ⟨by rwa [hother i e h2], h1, h2⟩

theorem PtrOk.setDirect (h : PtrOk use disk s d) {idx t : ℕ} (hidx : idx < 122)
    (ht : t < 2 ^ 32) (ht0 : t ≠ 0) (hu : use t = some (.data s idx)) :
    PtrOk use disk s (setWord d (4 + idx) t) := by
  have set := SlotSet.direct disk d hidx ht ht0
  have hI : indirectPtr (setWord d (4 + idx) t) = indirectPtr d :=
    wordAt_setWord_ne _ _ (by omega)
  have hD : doublyPtr (setWord d (4 + idx) t) = doublyPtr d := wordAt_setWord_ne _ _ (by omega)
  refine ⟨fun i hi => ?_, by rw [hI]; exact h.indirect, by rw [hD]; exact h.doubly,
    by rw [hD]; exact h.second⟩
  by_cases e : i = idx
  · rw [e, set.slot_new, hu]
  · have hp := ((set.present i).mp hi).resolve_left e
    rw [set.slot_old i e hp, h.data i hp]

theorem PtrOk.setIndirect (h : PtrOk use disk s d) (hP : indirectPtr d ≠ 0) {idx t : ℕ}
    (h1 : 122 ≤ idx) (h2 : idx < 250) (ht : t < 2 ^ 32) (ht0 : t ≠ 0)
    (hu : use t = some (.data s idx)) :
    PtrOk use (Function.update disk (indirectPtr d)
      (setWord (disk (indirectPtr d)) (idx - 122) t)) s d := by
  have set := SlotSet.indirect h hP h1 h2 ht ht0
  refine ⟨fun i hi => ?_, h.indirect, h.doubly, fun hD j hj hw => ?_⟩
  · by_cases e : i = idx
    · rw [e, set.slot_new, hu]
    · have hp := ((set.present i).mp hi).resolve_left e
      rw [set.slot_old i e hp, h.data i hp]
  · have hne : doublyPtr d ≠ indirectPtr d := fun e => by
      have := h.doubly hD
      rw [e, h.indirect hP] at this
      simp at this
    rw [Function.update_of_ne hne] at hw ⊢
    exact h.second hD j hj hw

/-- A zeroed indirect block adds no slots. -/
theorem present_newIndirect (hP : indirectPtr d = 0) {P : ℕ} (hlt : P < 2 ^ 32)
    (hz : disk P = zeros) (i : ℕ) :
    (Present disk (setWord d 126 P) i ↔ Present disk d i) ∧
      (Present disk d i → slotOf disk (setWord d 126 P) i = slotOf disk d i) := by
  have hI : indirectPtr (setWord d 126 P) = P := wordAt_setWord_self _ (by norm_num) hlt
  have hD : doublyPtr (setWord d 126 P) = doublyPtr d := wordAt_setWord_ne _ _ (by omega)
  by_cases hi : 122 ≤ i ∧ i < 250
  · have h1 : ¬ Present disk d i := fun hp => hp.2.1 hi.1 hi.2 hP
    have h2 : ¬ Present disk (setWord d 126 P) i := by
      intro hp
      refine hp.1 ?_
      simp only [slotOf, show ¬ i < 122 by omega, hi.2, if_true, if_false, hI, hz, wordAt_zeros]
    exact ⟨iff_of_false h2 h1, fun hp => absurd hp h1⟩
  · have hslot : slotOf disk (setWord d 126 P) i = slotOf disk d i := by
      unfold slotOf directPtr
      rw [hD]
      split
      · rw [wordAt_setWord_ne _ _ (by omega)]
      · rw [if_neg (by omega), if_neg (by omega)]
    refine ⟨?_, fun _ => hslot⟩
    unfold Present
    rw [hslot, hD]
    have : ∀ X Y : Prop, (122 ≤ i → i < 250 → X) ↔ (122 ≤ i → i < 250 → Y) :=
      fun X Y => ⟨fun _ h1 h2 => absurd ⟨h1, h2⟩ hi, fun _ h1 h2 => absurd ⟨h1, h2⟩ hi⟩
    rw [this]

end

/-! ## What the loop keeps about the tree -/

/-- The tree of an inode that grows from `len` bytes `orig`: the first `cnt` slots
are present, past them at most the one a complete tree may have, the bytes below
`len` are the old ones and all others zero. -/
structure GrowInv (use : ℕ → Option Use) (disk : ℕ → Sector) (s : ℕ) (d : Sector) (len : ℤ)
    (orig : ℕ → UInt8) (cnt : ℕ) : Prop where
  ptrs : PtrOk use disk s d
  present : ∀ i < cnt, Present disk d i
  bound : ∀ i, Present disk d i → i < cnt ∨ 512 * (i : ℤ) < len + 512
  zero : ZeroFrom disk d len
  bytes : ∀ i : ℕ, (i : ℤ) < len → fileByte disk d i = orig i
  len_le : len ≤ 512 * cnt

namespace GrowInv

variable {use use' : ℕ → Option Use} {disk disk' : ℕ → Sector} {s : ℕ} {d d' : Sector}
  {len : ℤ} {orig : ℕ → UInt8} {cnt : ℕ}

/-- A complete tree, before it grows. -/
theorem ofTree (h : TreeOk use disk s d) (cnt : ℕ) (hcnt : inodeLength d ≤ 512 * cnt)
    (hp : ∀ i < cnt, Present disk d i) :
    GrowInv use disk s d (inodeLength d) (fileByte disk d) cnt :=
  ⟨h.ptrs, hp, fun i hi => .inr (h.bound i hi).2, h.zero, fun _ _ => rfl, hcnt⟩

/-- The tree depends only on the sectors it owns. -/
theorem congr (h : GrowInv use disk s d len orig cnt) (keep : KeepsOwned use s disk disk')
    (huse : KeepsUse use use' s) : GrowInv use' disk' s d len orig cnt := by
  have agree := h.ptrs.indexAgree keep.index
  have hlen := h.len_le
  refine ⟨h.ptrs.congr keep.index huse, fun i hi => (agree.present_iff i).mpr (h.present i hi),
    fun i hi => h.bound i ((agree.present_iff i).mp hi), fun i hi hp => ?_, fun i hi => ?_, hlen⟩
  · have hp' := (agree.present_iff _).mp hp
    rw [TreeOk.fileByte_congr h.ptrs keep hp']
    exact h.zero i hi hp'
  · rw [TreeOk.fileByte_congr h.ptrs keep (h.present _ (by omega))]
    exact h.bytes i hi

/-- Pointers that resolve as before keep the tree. -/
theorem samePtrs (h : GrowInv use disk s d len orig cnt) (ptrs : PtrOk use disk s d')
    (same : ∀ i, (Present disk d' i ↔ Present disk d i) ∧
      (Present disk d i → slotOf disk d' i = slotOf disk d i)) :
    GrowInv use disk s d' len orig cnt := by
  have hlen := h.len_le
  have byte : ∀ i : ℕ, Present disk d (i / 512) → fileByte disk d' i = fileByte disk d i :=
    fun i hp => view_congr ((same _).2 hp) rfl
  refine ⟨ptrs, fun i hi => (same i).1.mpr (h.present i hi), fun i hi => h.bound i ((same i).1.mp hi),
    fun i hi hp => ?_, fun i hi => ?_, hlen⟩
  · have hp' := (same _).1.mp hp
    rw [byte i hp', h.zero i hi hp']
  · rw [byte i (h.present _ (by omega)), h.bytes i hi]

/-- **A zeroed sector in slot `cnt`** makes one more slot present. -/
theorem add (h : GrowInv use disk s d len orig cnt) {t : ℕ}
    (set : SlotSet disk d disk' d' cnt t) (ptrs : PtrOk use disk' s d') (hz : disk' t = zeros)
    (keep : ∀ i, i ≠ cnt → Present disk d i → disk' (slotOf disk d i) = disk (slotOf disk d i)) :
    GrowInv use disk' s d' len orig (cnt + 1) := by
  have hlen := h.len_le
  have byte : ∀ i : ℕ, i / 512 ≠ cnt → Present disk d (i / 512) →
      fileByte disk' d' i = fileByte disk d i :=
    fun i hi hp => view_congr (set.slot_old _ hi hp) (keep _ hi hp)
  refine ⟨ptrs, fun i hi => ?_, fun i hi => ?_, fun i hi hp => ?_, fun i hi => ?_, by omega⟩
  · rw [set.present]
    by_cases e : i = cnt
    · exact .inl e
    · exact .inr (h.present i (by omega))
  · rcases (set.present i).mp hi with e | hp
    · exact .inl (by omega)
    · exact (h.bound i hp).imp_left (by omega)
  · by_cases e : i / 512 = cnt
    · rw [fileByte, view, e, set.slot_new, hz, byteAt_zeros]
    · have hp' := ((set.present _).mp hp).resolve_left e
      rw [byte i e hp', h.zero i hi hp']
  · have hne : i / 512 ≠ cnt := by omega
    rw [byte i hne (h.present _ (by omega)), h.bytes i hi]

theorem setLength (h : GrowInv use disk s d len orig cnt) (len' : ℤ) :
    GrowInv use disk s (setLength d len') len orig cnt :=
  h.samePtrs (h.ptrs.setLength len') fun _ =>
    ⟨present_setLength .., fun _ => slotOf_setLength ..⟩

/-- **The finished tree**, once the length is set to `len'`. -/
theorem treeOk (h : GrowInv use disk s d len orig cnt) (hlen : len ≤ inodeLength d)
    (hpos : 0 < inodeLength d) (hmax : inodeLength d ≤ 8516608)
    (hcnt : inodeLength d ≤ 512 * cnt) (hbound : 512 * (cnt : ℤ) < inodeLength d + 1024) :
    TreeOk use disk s d := by
  refine ⟨h.ptrs, hpos.le, hmax, fun i hi => h.present i (by omega), fun i hi => ⟨hpos, ?_⟩,
    fun i hi hp => h.zero i (by omega) hp⟩
  rcases h.bound i hi with h1 | h1 <;> omega

/-- The bytes between the old and the new length are zero. -/
theorem gap (h : GrowInv use disk s d len orig cnt) {i : ℕ} (h1 : len ≤ i) (h2 : i < 512 * cnt) :
    fileByte disk d i = 0 :=
  h.zero i h1 (h.present _ (by omega))

end GrowInv

/-! ## What the loop keeps about everything else -/

/-- The inode at sector `s` is open, at `p` and nowhere else. -/
structure OpenAt (s p : ℕ) (fs : FsState) : Prop where
  listed : p ∈ fs.openInodes
  isOpen : ∃ ino, fs.inodes p = some ino ∧ ino.sector = s
  alone : ∀ q ∈ fs.openInodes, ∀ ino, fs.inodes q = some ino → ino.sector = s → q = p

/-- A stretch of code that grows the inode at sector `s`, open at `p`: of the heap
only its contents change, and of the sectors in use only those it owns. -/
structure Grow (use use' : ℕ → Option Use) (live : ℕ → Prop) (node node' : ℕ → Sector) (s p : ℕ)
    (fs fs' : FsState) : Prop where
  rest : ∃ ino, fs.inodes p = some ino ∧
    fs' = ((fs.setInode p { ino with data := node' s }).setMap fs'.freeMap).setDev fs'.dev
  nodes : ∀ x, x ≠ s → node' x = node x
  size : fs'.dev.size = fs.dev.size
  core : Core use' live node' fs'
  ready : MapReady live node' fs'
  mono : ∀ t u, use t = some u → use' t = some u
  keep : ∀ t u, use t = some u → t ≠ s → u.owner ≠ some s →
    (fs.freeMapFile = none ∨ ∀ i, u ≠ .data freeMapSector i) → fs'.dev.disk t = fs.dev.disk t
  bits : ∀ k, fs.freeMap.bits k = true → fs'.freeMap.bits k = true

section

variable {use use' use'' : ℕ → Option Use} {live : ℕ → Prop} {node node' node'' : ℕ → Sector}
  {fs fs' fs'' : FsState} {s p : ℕ}

theorem OpenAt.data (h : OpenAt s p fs) (core : Core use live node fs) :
    ∃ ino, fs.inodes p = some ino ∧ ino.sector = s ∧ ino.data = node s := by
  obtain ⟨ino, hp, hsec⟩ := h.isOpen
  exact ⟨ino, hp, hsec, hsec ▸ (core.opens p h.listed ino hp).2⟩

namespace Grow

theorem freeMapFile (h : Grow use use' live node node' s p fs fs') :
    fs'.freeMapFile = fs.freeMapFile := by
  obtain ⟨ino, -, e⟩ := h.rest
  rw [e]
  rfl

theorem inode (h : Grow use use' live node node' s p fs fs') {ino : Inode}
    (hp : fs.inodes p = some ino) : fs'.inodes p = some { ino with data := node' s } := by
  obtain ⟨ino', hp', e⟩ := h.rest
  rw [hp, Option.some.injEq] at hp'
  subst hp'
  rw [e]
  simp

theorem openAt (h : Grow use use' live node node' s p fs fs') (o : OpenAt s p fs) :
    OpenAt s p fs' := by
  obtain ⟨ino, hp, hsec⟩ := o.isOpen
  obtain ⟨ino', hp', e⟩ := h.rest
  have hlist : fs'.openInodes = fs.openInodes := by
    rw [e]
    rfl
  refine ⟨hlist ▸ o.listed, ⟨_, h.inode hp, hsec⟩, fun q hq inoq hino hs => ?_⟩
  by_contra hne
  refine hne (o.alone q (hlist ▸ hq) inoq ?_ hs)
  rw [e] at hino
  simpa [Function.update_of_ne hne] using hino

theorem ofAlloc (h : Alloc use use' live node fs fs') (core : Core use live node fs)
    (o : OpenAt s p fs) : Grow use use' live node node s p fs fs' := by
  obtain ⟨ino, hp, -, hdata⟩ := o.data core
  refine ⟨⟨ino, hp, ?_⟩, fun _ _ => rfl, h.size, h.core, h.ready, h.mono,
    fun t u hu _ _ hk => h.keep t u hu hk, h.bits⟩
  have same : fs.setInode p { ino with data := node s } = fs := by
    rw [← hdata, FsState.setInode, show { ino with data := ino.data } = ino from rfl, ← hp,
      Function.update_eq_self]
  rw [same]
  exact h.rest

theorem refl (core : Core use live node fs) (ready : MapReady live node fs)
    (o : OpenAt s p fs) : Grow use use live node node s p fs fs :=
  ofAlloc (.refl core ready) core o

theorem trans (h : Grow use use' live node node' s p fs fs')
    (h' : Grow use' use'' live node' node'' s p fs' fs'') :
    Grow use use'' live node node'' s p fs fs'' := by
  refine ⟨?_, fun x hx => (h'.nodes x hx).trans (h.nodes x hx), h'.size.trans h.size, h'.core,
    h'.ready, fun t u hu => h'.mono t u (h.mono t u hu), fun t u hu ht ho hk => ?_,
    fun k hk => h'.bits k (h.bits k hk)⟩
  · obtain ⟨ino, hp, e⟩ := h.rest
    obtain ⟨ino', hp', e'⟩ := h'.rest
    rw [h.inode hp, Option.some.injEq] at hp'
    refine ⟨ino, hp, e'.trans ?_⟩
    rw [← hp', e]
    simp [FsState.setInode, FsState.setMap, FsState.setDev]
  · rw [h'.keep t u (h.mono t u hu) ht ho (by rwa [h.freeMapFile]), h.keep t u hu ht ho hk]

/-- The contents of the inode change in memory. -/
theorem setData (core : Core use live node fs) (ready : MapReady live node fs) (hs : ¬ live s)
    (o : OpenAt s p fs) {ino : Inode} (hp : fs.inodes p = some ino) (d : Sector) :
    Grow use use live node (Function.update node s d) s p fs
      (fs.setInode p { ino with data := d }) := by
  have hsec : ino.sector = s := by
    obtain ⟨ino', hp', h⟩ := o.isOpen
    rw [hp, Option.some.injEq] at hp'
    exact hp' ▸ h
  have other : ∀ x, x ≠ s → Function.update node s d x = node x :=
    fun x hx => Function.update_of_ne hx _ _
  refine ⟨⟨ino, hp, ?_⟩, other, rfl, ⟨core.mapSize, core.zeroUsed, core.used, fun x hx => ?_,
    fun q hq inoq hino => ?_⟩, ?_, fun _ _ hu => hu, fun _ _ _ _ _ _ => rfl, fun _ h => h⟩
  · rw [Function.update_self]
    rfl
  · rw [other x (fun e => hs (e ▸ hx))]
    exact core.tree x hx
  · by_cases e : q = p
    · subst e
      simp only [FsState.setInode_inodes, Function.update_self, Option.some.injEq] at hino
      subst hino
      exact ⟨(core.opens q hq ino hp).1, by simp [hsec]⟩
    · simp only [FsState.setInode_inodes, Function.update_of_ne e] at hino
      obtain ⟨h1, h2⟩ := core.opens q hq inoq hino
      refine ⟨h1, h2.trans (other _ fun hs' => e (o.alone q hq inoq hino hs')).symm⟩
  · rcases ready with h | ⟨f, q, hf, map, synced⟩
    · exact .inl h
    · have hne : freeMapSector ≠ s := fun e => hs (e ▸ map.isLive)
      obtain ⟨inoq, hq, hqs, hdeny⟩ := map.inode
      have hqp : q ≠ p := by
        rintro rfl
        rw [hp, Option.some.injEq] at hq
        exact hne (hqs ▸ hq ▸ hsec)
      refine .inr ⟨f, q, hf, ⟨map.file, map.listed, ⟨inoq, ?_, hqs, hdeny⟩, map.isLive, ?_,
        map.nonempty⟩, synced.congr rfl rfl fun j _ => ?_⟩
      · simpa [Function.update_of_ne hqp] using hq
      · rw [other _ hne]
        exact map.length
      · rw [other _ hne]
        rfl

/-- A sector of the growing tree is filled. -/
theorem put (h : Grow use use' live node node' s p fs fs') {t : ℕ} {u : Use}
    (hu : use' t = some u) (ho : u.owner = some s) (hs : ¬ live s) (b : Sector) :
    fs'.write t b = .ok (fs'.setDev (fs'.dev.put t b)) ∧
      Grow use use' live node node' s p fs (fs'.setDev (fs'.dev.put t b)) := by
  refine ⟨by rw [FsState.write, blockWrite_ok b (h.core.inside t u hu)]; rfl, ?_⟩
  obtain ⟨ino, hp, e⟩ := h.rest
  refine ⟨⟨ino, hp, ?_⟩, h.nodes, h.size, h.core.put hu ho hs b, h.ready.put h.core hu ho hs b,
    h.mono, fun x v hx ht hv hk => ?_, h.bits⟩
  · rw [e]
    rfl
  · refine (Function.update_of_ne (fun e => hv ?_) _ _).trans (h.keep x v hx ht hv hk)
    have := h.mono x v hx
    rw [e, hu, Option.some.injEq] at this
    exact this ▸ ho

end Grow

end

end Pintos
