import Pintos.FileSys.Directory
import Pintos.FileSys.Release

/-!
# A directory as a list of entries

In a sound state a directory of `20 * cnt` bytes is a list of `cnt` entries
(`DirAt`), and the functions of `directory.c` work on that list: `lookup` finds the
first entry in use of a name, `dir_add` fills the first free entry or appends one,
`dir_remove` clears an entry.
-/

namespace Pintos

open Lib Lib.Block

/-- Entry `j` of a directory with the given bytes. -/
def entryOf (bytes : ℕ → UInt8) (j : ℕ) : DirEntry := ofFn fun k => bytes (20 * j + k)

/-- The inode with data `d` is a directory with the entries `ent 0`, …,
`ent (cnt - 1)`. -/
structure DirAt (ent : ℕ → DirEntry) (cnt : ℕ) (disk : ℕ → Sector) (d : Sector) : Prop where
  length : inodeLength d = 20 * cnt
  entries : ∀ j < cnt, entryOf (fileByte disk d) j = ent j

/-- Entry `j` is in use under `name`. -/
def Matches (ent : ℕ → DirEntry) (name : CString) (j : ℕ) : Prop :=
  (ent j).inUse = true ∧ (ent j).name = name

theorem byteAt_entryOf {bytes : ℕ → UInt8} {j k : ℕ} (h : k < 20) :
    byteAt (entryOf bytes j) k = bytes (20 * j + k) :=
  byteAt_ofFn _ h

section

variable {use : ℕ → Option Use} {live : ℕ → Prop} {node : ℕ → Sector} {fs : FsState} {s p : ℕ}
  {ent : ℕ → DirEntry} {cnt : ℕ}

/-- Reading an entry. -/
theorem readEntry_spec (core : Core use live node fs) (hs : live s) (o : OpenAt s p fs)
    (dir : DirAt ent cnt fs.dev.disk (node s)) (e : DirEntry) {j : ℕ} (hj : j < cnt) :
    readEntry fs p e (20 * j) = .ok (20, ent j) := by
  have hmoved : transferred (inodeLength (node s)) (20 : ℤ).toNat (20 * j) = 20 := by
    unfold transferred
    rw [dir.length]
    omega
  simp only [readEntry, inodeReadAt_spec core hs o, ok_bind, hmoved, List.length_map,
    List.length_range]
  refine congrArg Except.ok (Prod.ext rfl ?_)
  rw [← dir.entries j hj]
  refine ext_byteAt fun k hk => ?_
  rw [byteAt_ofFn _ hk, byteAt_entryOf hk, List.getD_eq_getElem _ _ (by simpa using hk)]
  simp

/-- The read at the end of the directory is short. -/
theorem readEntry_end (core : Core use live node fs) (hs : live s) (o : OpenAt s p fs)
    (dir : DirAt ent cnt fs.dev.disk (node s)) (e : DirEntry) :
    ∃ e', readEntry fs p e (20 * cnt) = .ok (0, e') := by
  have hmoved : transferred (inodeLength (node s)) (20 : ℤ).toNat (20 * cnt) = 0 := by
    unfold transferred
    rw [dir.length]
    omega
  simp only [readEntry, inodeReadAt_spec core hs o, ok_bind, hmoved]
  exact ⟨_, rfl⟩

theorem entryBound_spec (core : Core use live node fs) (o : OpenAt s p fs)
    (dir : DirAt ent cnt fs.dev.disk (node s)) : entryBound fs p = cnt + 1 := by
  obtain ⟨ino, hino, -, hdata⟩ := o.data core
  simp only [entryBound, hino, hdata, dir.length]
  omega

/-- The loop of `lookup`, from entry `j` on. -/
theorem lookupLoop_spec (core : Core use live node fs) (hs : live s) (o : OpenAt s p fs)
    (dir : DirAt ent cnt fs.dev.disk (node s)) (name : CString) :
    ∀ (fuel j : ℕ) (e : DirEntry), fuel = cnt - j + 1 → j ≤ cnt →
      (∃ i < cnt, Matches ent name i ∧ (∀ k, j ≤ k → k < i → ¬ Matches ent name k) ∧
        lookupLoop fs p name fuel (20 * j) e = .ok (some (ent i, 20 * i))) ∨
      ((∀ i < cnt, j ≤ i → ¬ Matches ent name i) ∧
        lookupLoop fs p name fuel (20 * j) e = .ok none) := by
  intro fuel
  induction fuel with
  | zero => exact fun j e h _ => by omega
  | succ fuel ih =>
      intro j e hfuel hj
      by_cases hlt : j < cnt
      · by_cases hm : Matches ent name j
        · refine .inl ⟨j, hlt, hm, fun k h1 h2 => by omega, ?_⟩
          rw [lookupLoop, readEntry_spec core hs o dir e hlt]
          simp only [ok_bind, if_true, hm.1, hm.2, true_and]
          rfl
        · have step : lookupLoop fs p name (fuel + 1) (20 * j) e =
              lookupLoop fs p name fuel (20 * (j + 1)) (ent j) := by
            rw [lookupLoop, readEntry_spec core hs o dir e hlt]
            have hm' : ¬ ((ent j).inUse = true ∧ (ent j).name = name) := hm
            simp only [ok_bind, if_true]
            rw [if_neg hm', Nat.mul_add, Nat.mul_one]
          rw [step]
          rcases ih (j + 1) (ent j) (by omega) hlt with ⟨i, hi, hmi, hfirst, hrun⟩ | ⟨h1, h2⟩
          · refine .inl ⟨i, hi, hmi, fun k hjk hki => ?_, hrun⟩
            by_cases e : k = j
            · exact e ▸ hm
            · exact hfirst k (by omega) hki
          · refine .inr ⟨fun i hi hji => ?_, h2⟩
            by_cases e : i = j
            · exact e ▸ hm
            · exact h1 i hi (by omega)
      · have e1 : j = cnt := by omega
        subst e1
        obtain ⟨e', he⟩ := readEntry_end core hs o dir e
        refine .inr ⟨fun i hi hji => by omega, ?_⟩
        rw [lookupLoop, he]
        rfl

/-- **`lookup`** finds the first entry of the name, if there is one. -/
theorem lookup_spec (core : Core use live node fs) (hs : live s) (o : OpenAt s p fs)
    (dir : DirAt ent cnt fs.dev.disk (node s)) (name : CString) :
    (∃ i < cnt, Matches ent name i ∧ (∀ k < i, ¬ Matches ent name k) ∧
      lookup fs p name = .ok (some (ent i, 20 * i))) ∨
      ((∀ i < cnt, ¬ Matches ent name i) ∧ lookup fs p name = .ok none) := by
  unfold lookup
  rw [entryBound_spec core o dir]
  rcases lookupLoop_spec core hs o dir name (cnt + 1) 0 zeros (by omega) (by omega) with
    ⟨i, hi, hm, hfirst, hrun⟩ | ⟨h1, h2⟩
  · exact .inl ⟨i, hi, hm, fun k hk => hfirst k (by omega) hk, hrun⟩
  · exact .inr ⟨fun i hi => h1 i hi (by omega), h2⟩

/-- The loop of `dir_add`, from entry `j` on. -/
theorem freeSlotLoop_spec (core : Core use live node fs) (hs : live s) (o : OpenAt s p fs)
    (dir : DirAt ent cnt fs.dev.disk (node s)) :
    ∀ (fuel j : ℕ) (e : DirEntry), fuel = cnt - j + 1 → j ≤ cnt →
      (∀ i < j, (ent i).inUse = true) →
      ∃ i e', freeSlotLoop fs p fuel (20 * j) e = .ok (20 * i, e') ∧ i ≤ cnt ∧
        (∀ k < i, (ent k).inUse = true) ∧ (i < cnt → (ent i).inUse = false) := by
  intro fuel
  induction fuel with
  | zero => exact fun j e h _ _ => by omega
  | succ fuel ih =>
      intro j e hfuel hj hused
      by_cases hlt : j < cnt
      · by_cases hu : (ent j).inUse = true
        · obtain ⟨i, e', hrun, rest⟩ := ih (j + 1) (ent j) (by omega) hlt fun i hi => by
            by_cases e : i = j
            · exact e ▸ hu
            · exact hused i (by omega)
          refine ⟨i, e', ?_, rest⟩
          rw [freeSlotLoop, readEntry_spec core hs o dir e hlt]
          simp only [ok_bind, if_true, hu]
          rwa [Nat.mul_add, Nat.mul_one] at hrun
        · refine ⟨j, ent j, ?_, hj, hused, fun _ => by simpa using hu⟩
          rw [freeSlotLoop, readEntry_spec core hs o dir e hlt]
          simp only [ok_bind, if_true, hu]
          rfl
      · have e1 : j = cnt := by omega
        subst e1
        obtain ⟨e', he⟩ := readEntry_end core hs o dir e
        refine ⟨j, e', ?_, le_rfl, hused, by omega⟩
        rw [freeSlotLoop, he]
        rfl

end

/-- The directory after entry `j` was written. -/
theorem DirAt.set {ent : ℕ → DirEntry} {cnt j : ℕ} {disk disk' : ℕ → Sector} {d d' : Sector}
    (dir : DirAt ent cnt disk d) (hj : j ≤ cnt) (e : DirEntry)
    (hlen : inodeLength d' = max (inodeLength d) (20 * j + 20 : ℕ))
    (hbytes : ∀ i : ℕ, (i : ℤ) < inodeLength d' → fileByte disk' d' i =
      if 20 * j ≤ i ∧ i < 20 * j + 20 then byteAt e (i - 20 * j)
      else if (i : ℤ) < inodeLength d then fileByte disk d i else 0) :
    DirAt (Function.update ent j e) (max cnt (j + 1)) disk' d' := by
  have hold := dir.length
  refine ⟨by rw [hlen, hold]; push_cast; omega, fun i hi => ext_byteAt fun k hk => ?_⟩
  rw [byteAt_entryOf hk, hbytes _ (by rw [hlen, hold]; push_cast; omega)]
  by_cases hij : i = j
  · subst hij
    rw [if_pos (by omega), Function.update_self, Nat.add_sub_cancel_left]
  · rw [if_neg (by omega), if_pos (by rw [hold]; push_cast; omega), Function.update_of_ne hij,
      ← dir.entries i (by omega), byteAt_entryOf hk]

/-- The directory with data `d` has room for one more entry: a free entry, or a
growth by one entry that meets `GrowthOk` and finds its sectors among `free`. -/
def DirRoom (disk : ℕ → Sector) (d : Sector) (free : ℕ) : Prop :=
  (∃ j : ℕ, 20 * ((j : ℤ) + 1) ≤ inodeLength d ∧ (entryOf (fileByte disk d) j).inUse = false) ∨
    (GrowthOk disk d 20 (inodeLength d).toNat ∧
      growthDemand d 20 (inodeLength d).toNat ≤ free)

instance (disk : ℕ → Sector) (d : Sector) (free : ℕ) : Decidable (DirRoom disk d free) :=
  decidable_of_iff ((∃ j < (inodeLength d).toNat, 20 * ((j : ℤ) + 1) ≤ inodeLength d ∧
      (entryOf (fileByte disk d) j).inUse = false) ∨
      (GrowthOk disk d 20 (inodeLength d).toNat ∧
        growthDemand d 20 (inodeLength d).toNat ≤ free))
    (or_congr_left ⟨fun ⟨j, _, h⟩ => ⟨j, h⟩, fun ⟨j, h⟩ => ⟨j, by omega, h⟩⟩)

instance (ent : ℕ → DirEntry) (name : CString) (j : ℕ) : Decidable (Matches ent name j) :=
  inferInstanceAs (Decidable (_ ∧ _))

/-- `GrowthOk` depends on the disk through the slots only. -/
theorem GrowthOk.congr {disk disk' : ℕ → Sector} {d : Sector} {size : ℤ} {offset : ℕ}
    (h : GrowthOk disk d size offset) (same : ∀ i, Present disk' d i ↔ Present disk d i) :
    GrowthOk disk' d size offset := by
  unfold GrowthOk at h ⊢
  rwa [same]

section

variable {use : ℕ → Option Use} {live : ℕ → Prop} {node : ℕ → Sector} {fs : FsState} {s p : ℕ}
  {ent : ℕ → DirEntry} {cnt : ℕ} {held : List ℕ}

/-- What a call that wrote entry `j` of the directory at `s` leaves. -/
structure EntryWritten (use use' : ℕ → Option Use) (live : ℕ → Prop) (node node' : ℕ → Sector)
    (held : List ℕ) (s p : ℕ) (ent : ℕ → DirEntry) (cnt j : ℕ) (e : DirEntry)
    (fs fs' : FsState) : Prop where
  sound : Sound use' live node' held fs'
  grow : Grow use use' live node node' s p fs fs'
  dir : DirAt (Function.update ent j e) (max cnt (j + 1)) fs'.dev.disk (node' s)

/-- Writing entry `j`. -/
theorem writeEntry_spec (sound : Sound use live node held fs) (hs : live s)
    (hne : s ≠ freeMapSector) (o : OpenAt s p fs)
    (deny : ∀ ino, fs.inodes p = some ino → ino.denyWriteCnt = 0)
    (dir : DirAt ent cnt fs.dev.disk (node s)) {j : ℕ} (hj : j ≤ cnt)
    (room : j = cnt → GrowthOk fs.dev.disk (node s) 20 (20 * cnt) ∧
      growthDemand (node s) 20 (20 * cnt) ≤ freeSectors fs.freeMap) (e : DirEntry) :
    ∃ use' node' fs', inodeWriteAt fs p (byteAt e) 20 (20 * j) = .ok (20, fs') ∧
      EntryWritten use use' live node node' held s p ent cnt j e fs fs' := by
  obtain ⟨-, tree⟩ := sound.core.tree s hs
  have h0 := tree.len_nonneg
  have h1 := tree.len_le
  have hlen := dir.length
  have ok : GrowthOk fs.dev.disk (node s) 20 (20 * j) ∧
      growthDemand (node s) 20 (20 * j) ≤ freeSectors fs.freeMap := by
    by_cases hlt : j < cnt
    · have hin : ((20 * j : ℕ) : ℤ) + (20 : ℕ) ≤ inodeLength (node s) := by
        push_cast
        omega
      obtain ⟨h2, h3⟩ := growthOk_inRange fs.dev.disk h0 h1 hin
      push_cast at h2 h3
      exact ⟨h2, by omega⟩
    · rw [show j = cnt by omega]
      exact room (by omega)
  obtain ⟨use', node', fs', moved, hmoved, hrun, g, hlen', hsync, hbytes⟩ :=
    inodeWriteAt_spec sound.core sound.ready hs hne o deny (byteAt e) ok.1 ok.2
  have hgrown : grownLength (inodeLength (node s)) 20 (20 * j) =
      max (inodeLength (node s)) (20 * j + 20 : ℕ) := by
    rw [grownLength, wrap32_of_range (by push_cast; omega) (by push_cast; omega)]
    push_cast
    rfl
  have hall : moved = 20 := by
    rw [hmoved, hgrown, transferred]
    push_cast
    omega
  subst hall
  rw [hgrown] at hlen'
  exact ⟨use', node', fs', hrun, sound.grow o g hsync, g, dir.set hj e hlen' hbytes⟩

/-- **`dir_add`**: it fails without a change when the name is invalid or taken, and
else fills the first free entry, or a new one. -/
theorem dirAdd_spec (sound : Sound use live node held fs) (hs : live s)
    (hne : s ≠ freeMapSector) (o : OpenAt s p fs)
    (deny : ∀ ino, fs.inodes p = some ino → ino.denyWriteCnt = 0)
    (dir : DirAt ent cnt fs.dev.disk (node s)) {name : CString} (hz : ∀ c ∈ name, c ≠ 0)
    {sector : ℕ} (hsec : sector < 2 ^ 32)
    (room : DirRoom fs.dev.disk (node s) (freeSectors fs.freeMap)) :
    ((name = [] ∨ nameMax < name.length ∨ ∃ i < cnt, Matches ent name i) ∧
      dirAdd fs p name sector = .ok (false, fs)) ∨
    ((name ≠ [] ∧ name.length ≤ nameMax ∧ ∀ i < cnt, ¬ Matches ent name i) ∧
      ∃ use' node' fs' j e, dirAdd fs p name sector = .ok (true, fs') ∧ j ≤ cnt ∧
        (j < cnt → (ent j).inUse = false) ∧ (∀ k < j, (ent k).inUse = true) ∧
        Matches (fun _ => e) name 0 ∧ e.sector = sector ∧
        inodeWriteAt fs p (byteAt e) 20 (20 * j) = .ok (20, fs') ∧
        EntryWritten use use' live node node' held s p ent cnt j e fs fs') := by
  by_cases hname : name = [] ∨ nameMax < name.length
  · exact .inl ⟨by tauto, by rw [dirAdd, if_pos hname]⟩
  rcases lookup_spec sound.core hs o dir name with ⟨i, hi, hm, -, hrun⟩ | ⟨hnone, hrun⟩
  · refine .inl ⟨.inr (.inr ⟨i, hi, hm⟩), ?_⟩
    rw [dirAdd, if_neg hname, hrun]
    rfl
  have hlen := dir.length
  have hok : name.length ≤ nameMax := by
    by_contra hc
    exact hname (.inr (by omega))
  have hslot := freeSlotLoop_spec sound.core hs o dir (cnt + 1) 0 zeros (by omega) (by omega)
    (by omega)
  obtain ⟨j, e, hfree, hj, hused, hclear⟩ := hslot
  have room' : j = cnt → GrowthOk fs.dev.disk (node s) 20 (20 * cnt) ∧
      growthDemand (node s) 20 (20 * cnt) ≤ freeSectors fs.freeMap := by
    intro hjc
    rcases room with ⟨i, hi, hi'⟩ | h
    · have hic : i < cnt := by omega
      rw [dir.entries i hic, hused i (by omega)] at hi'
      simp at hi'
    · rwa [hlen, show (20 * (cnt : ℤ)).toNat = 20 * cnt by omega] at h
  obtain ⟨use', node', fs', hwrite, written⟩ :=
    writeEntry_spec sound hs hne o deny dir hj room' (e.fill name sector)
  refine .inr ⟨⟨fun h => hname (.inl h), hok, hnone⟩, use', node', fs', j, e.fill name sector, ?_,
    hj, hclear, hused, ⟨e.inUse_fill hok, e.name_fill hok hz⟩, e.sector_fill hsec, hwrite, written⟩
  rw [dirAdd, if_neg hname, hrun]
  simp only [ok_bind, addEntry, entryBound_spec sound.core o dir]
  rw [Nat.mul_zero] at hfree
  rw [hfree]
  simp only [ok_bind, hwrite]
  rfl

end

end Pintos
