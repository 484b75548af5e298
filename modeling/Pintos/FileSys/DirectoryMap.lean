import Pintos.FileSys.DirectoryView
import Pintos.Lib.GrowArray
import Pintos.Lib.Runs

/-!
# Directories as finite maps

`filesys/directory.c` over any inode layer: the functions use nothing of an inode but
`inode_read_at`, `inode_write_at` and its length, which are the fields of `Layer`.  If the
layer behaves as a growable byte array (`Layer.Grows`), a directory is a finite map from
names to sectors.

* `Layer.dirAdd_spec`, `Layer.dirRemove_spec`, `Layer.dirLookup_spec` — the calls are the
  operations on the map.
* `Layer.readdirs_spec` — reading from position 0 on yields every name once.
* **`directory_of_run`** — all of it, through every sequence of calls.

Opening the inode found is left to the caller: `dir_lookup` returns the sector it opens,
and `dir_remove` the sector of the inode it marks as removed.
-/

namespace Pintos

open Lib Lib.Block

/-- The inode layer as a directory sees it. -/
structure Layer (σ : Type) where
  /-- `inode_read_at`, with a size and an offset. -/
  readAt : σ → ℕ → ℕ → List UInt8
  /-- `inode_write_at`: the number of bytes written, and the state afterwards. -/
  writeAt : σ → List UInt8 → ℕ → ℕ × σ
  /-- `inode_length`. -/
  length : σ → ℕ

variable {σ : Type}

/-- The layer behaves as a growable byte array. -/
structure Layer.Grows (L : Layer σ) (content : σ → List UInt8) : Prop where
  read : ∀ s size offset, L.readAt s size offset = GrowArray.read (content s) size offset
  count : ∀ s data offset, (L.writeAt s data offset).1 = data.length
  write : ∀ s data offset,
    content (L.writeAt s data offset).2 = GrowArray.write 0 (content s) data offset
  length : ∀ s, L.length s = (content s).length

/-- The bytes of an entry. -/
def DirEntry.bytes (e : DirEntry) : List UInt8 := GrowArray.tabulate 20 (byteAt e)

namespace Layer

variable (L : Layer σ)

/-- `inode_read_at (dir->inode, &e, sizeof e, ofs)`. -/
def readEntry (s : σ) (e : DirEntry) (ofs : ℕ) : ℕ × DirEntry :=
  ((L.readAt s 20 ofs).length, ofFn fun k => (L.readAt s 20 ofs).getD k (byteAt e k))

/-- The loop of `lookup`. -/
def lookupLoop (s : σ) (name : CString) : ℕ → ℕ → DirEntry → Option (DirEntry × ℕ)
  | 0, _, _ => none
  | fuel + 1, ofs, e =>
      let (n, e) := L.readEntry s e ofs
      if n = 20 then
        if e.inUse ∧ e.name = name then some (e, ofs) else lookupLoop s name fuel (ofs + 20) e
      else none

/-- `lookup`. -/
def lookup (s : σ) (name : CString) : Option (DirEntry × ℕ) :=
  L.lookupLoop s name (L.length s / 20 + 1) 0 zeros

/-- The loop of `dir_add` for a free slot. -/
def freeSlotLoop (s : σ) : ℕ → ℕ → DirEntry → ℕ × DirEntry
  | 0, ofs, e => (ofs, e)
  | fuel + 1, ofs, e =>
      let (n, e) := L.readEntry s e ofs
      if n = 20 then
        if e.inUse then freeSlotLoop s fuel (ofs + 20) e else (ofs, e)
      else (ofs, e)

/-- `dir_add`. -/
def dirAdd (s : σ) (name : CString) (sector : ℕ) : Bool × σ :=
  if name = [] ∨ nameMax < name.length then (false, s)
  else match L.lookup s name with
    | some _ => (false, s)
    | none =>
        let (ofs, e) := L.freeSlotLoop s (L.length s / 20 + 1) 0 zeros
        let (n, s) := L.writeAt s (e.fill name sector).bytes ofs
        (decide (n = 20), s)

/-- `dir_lookup`: the sector whose inode is opened. -/
def dirLookup (s : σ) (name : CString) : Option ℕ := (L.lookup s name).map fun r => r.1.sector

/-- `dir_remove`: the sector whose inode is removed. -/
def dirRemove (s : σ) (name : CString) : Option ℕ × σ :=
  match L.lookup s name with
  | none => (none, s)
  | some (e, ofs) =>
      let (n, s) := L.writeAt s e.clear.bytes ofs
      if n ≠ 20 then (none, s) else (some e.sector, s)

/-- The loop of `dir_readdir`: the name, and `dir->pos` afterwards. -/
def readdirLoop (s : σ) : ℕ → ℕ → DirEntry → Option CString × ℕ
  | 0, pos, _ => (none, pos)
  | fuel + 1, pos, e =>
      let (n, e) := L.readEntry s e pos
      if n = 20 then
        if e.inUse then (some (e.name.take nameMax), pos + 20)
        else readdirLoop s fuel (pos + 20) e
      else (none, pos)

/-- `dir_readdir`. -/
def dirReaddir (s : σ) (pos : ℕ) : Option CString × ℕ :=
  L.readdirLoop s (L.length s / 20 + 1) pos zeros

/-- The answers of `k` calls of `dir_readdir`, one after the other. -/
def readdirs (s : σ) : ℕ → ℕ → List (Option CString)
  | 0, _ => []
  | k + 1, pos => (L.dirReaddir s pos).1 :: readdirs s k (L.dirReaddir s pos).2

end Layer

/-! ## The table -/

/-- Entry `j` of the bytes of a directory. -/
def entryAt (c : List UInt8) (j : ℕ) : DirEntry := entryOf (fun i => c.getD i 0) j

/-- The number of entries. -/
def entries (c : List UInt8) : ℕ := c.length / 20

/-- A finite map from names to sectors. -/
abbrev NameMap : Type := CString → Option ℕ

/-- **The bytes are a directory that stands for the map `M`**: entries in use have proper
names, all different. -/
structure Holds (c : List UInt8) (M : NameMap) : Prop where
  whole : c.length = 20 * entries c
  proper : ∀ j < entries c, (entryAt c j).inUse = true →
    (entryAt c j).name ≠ [] ∧ (entryAt c j).name.length ≤ nameMax
  unique : ∀ i < entries c, ∀ j < entries c, (entryAt c i).inUse = true →
    (entryAt c j).inUse = true → (entryAt c i).name = (entryAt c j).name → i = j
  maps : ∀ name s, M name = some s ↔
    ∃ j < entries c, Matches (entryAt c) name j ∧ (entryAt c j).sector = s

namespace Holds

variable {c : List UInt8} {M : NameMap} {name : CString}

/-- A name that is absent has no entry. -/
theorem none_iff (h : Holds c M) : M name = none ↔ ∀ j < entries c, ¬ Matches (entryAt c) name j := by
  constructor
  · intro hn j hj hm
    have := (h.maps name _).mpr ⟨j, hj, hm, rfl⟩
    rw [hn] at this
    cases this
  · intro hnone
    cases hM : M name with
    | none => rfl
    | some s =>
        obtain ⟨j, hj, hm, -⟩ := (h.maps name s).mp hM
        exact absurd hm (hnone j hj)

/-- A name that is present has one entry. -/
theorem of_matches (h : Holds c M) {j : ℕ} (hj : j < entries c) (hm : Matches (entryAt c) name j) :
    M name = some (entryAt c j).sector :=
  (h.maps name _).mpr ⟨j, hj, hm, rfl⟩

end Holds

/-- A directory that `inode_create` has filled with zeros is empty. -/
theorem holds_zeros (cnt : ℕ) : Holds (List.replicate (20 * cnt) 0) fun _ => none := by
  have hfree : ∀ j, (entryAt (List.replicate (20 * cnt) 0) j).inUse = false := by
    intro j
    rw [DirEntry.inUse, entryAt, byteAt_entryOf (by decide)]
    simp
  have hcnt : entries (List.replicate (20 * cnt) 0) = cnt := by
    rw [entries, List.length_replicate, Nat.mul_div_cancel_left _ (by decide)]
  refine ⟨by rw [hcnt, List.length_replicate], fun j _ hu => ?_, fun i _ j _ hu => ?_,
    fun name s => ⟨fun e => absurd e (by simp), ?_⟩⟩
  · rw [hfree] at hu
    cases hu
  · rw [hfree] at hu
    cases hu
  · rintro ⟨j, -, ⟨hu, -⟩, -⟩
    rw [hfree] at hu
    cases hu

section Write

variable {c : List UInt8} {i : ℕ} (e : DirEntry)

/-- The bytes after entry `i` is written. -/
def withEntry (c : List UInt8) (i : ℕ) (e : DirEntry) : List UInt8 :=
  GrowArray.write 0 c e.bytes (20 * i)

theorem length_withEntry : (withEntry c i e).length = max c.length (20 * i + 20) := by
  simp [withEntry, GrowArray.write, DirEntry.bytes]

variable (hc : c.length = 20 * entries c)

include hc

theorem entries_withEntry : entries (withEntry c i e) = max (entries c) (i + 1) := by
  rw [entries, length_withEntry, hc]
  omega

/-- Only entry `i` changes. -/
theorem entryAt_withEntry {j : ℕ} (hj : j < max (entries c) (i + 1)) :
    entryAt (withEntry c i e) j = if j = i then e else entryAt c j := by
  refine ext_byteAt fun k hk => ?_
  have hin : 20 * j + k < max c.length (20 * i + e.bytes.length) := by
    rw [hc, DirEntry.bytes, GrowArray.length_tabulate]
    omega
  have hbyte : byteAt (entryAt (withEntry c i e) j) k =
      if 20 * i ≤ 20 * j + k ∧ 20 * j + k < 20 * i + 20 then
        e.bytes.getD (20 * j + k - 20 * i) 0 else c.getD (20 * j + k) 0 := by
    rw [entryAt, byteAt_entryOf hk, withEntry, GrowArray.write,
      List.getD_eq_getElem _ _ (by simpa using hin)]
    simp [DirEntry.bytes]
  rw [hbyte]
  rcases eq_or_ne j i with rfl | hne
  · rw [if_pos (by omega), if_pos rfl, Nat.add_sub_cancel_left, DirEntry.bytes,
      GrowArray.getD_tabulate _ _ hk]
  · rw [if_neg (by omega), if_neg hne, entryAt, byteAt_entryOf hk]

end Write

/-! ## The loops -/

namespace Layer

section Loops

variable {L : Layer σ} {content : σ → List UInt8} (hL : L.Grows content) {s : σ}
  (hs : (content s).length = 20 * entries (content s))

include hL hs

theorem readEntry_lt (e : DirEntry) {j : ℕ} (hj : j < entries (content s)) :
    L.readEntry s e (20 * j) = (20, entryAt (content s) j) := by
  have hread : L.readAt s 20 (20 * j) = ((content s).drop (20 * j)).take 20 := hL.read s 20 (20 * j)
  have hlen : (((content s).drop (20 * j)).take 20).length = 20 := by
    rw [List.length_take, List.length_drop, hs]
    omega
  rw [readEntry, hread, hlen]
  refine Prod.ext rfl (ext_byteAt fun k hk => ?_)
  rw [byteAt_ofFn _ hk, entryAt, byteAt_entryOf hk, List.getD_eq_getElem _ _ (by omega),
    List.getD_eq_getElem _ _ (by omega)]
  simp

/-- The read at the end of the directory is short. -/
theorem readEntry_end (e : DirEntry) :
    L.readEntry s e (20 * entries (content s)) = (0, e) := by
  have hread : L.readAt s 20 (20 * entries (content s)) = [] := by
    rw [hL.read, GrowArray.read, ← hs, List.drop_length, List.take_nil]
  rw [readEntry, hread]
  refine Prod.ext rfl (ext_byteAt fun k hk => ?_)
  rw [byteAt_ofFn _ hk]
  rfl

omit hs in
theorem fuel_eq : L.length s / 20 + 1 = entries (content s) - 0 + 1 := by
  rw [hL.length]
  rfl

/-- The loop of `lookup`, from entry `j` on. -/
theorem lookupLoop_spec (name : CString) : ∀ (fuel j : ℕ) (e : DirEntry),
    fuel = entries (content s) - j + 1 → j ≤ entries (content s) →
      (∃ i < entries (content s), Matches (entryAt (content s)) name i ∧
        L.lookupLoop s name fuel (20 * j) e = some (entryAt (content s) i, 20 * i)) ∨
      ((∀ i < entries (content s), j ≤ i → ¬ Matches (entryAt (content s)) name i) ∧
        L.lookupLoop s name fuel (20 * j) e = none) := by
  intro fuel
  induction fuel with
  | zero => exact fun j e h _ => by omega
  | succ fuel ih =>
      intro j e hfuel hj
      rcases hj.lt_or_eq with hlt | rfl
      · rw [lookupLoop, readEntry_lt hL hs e hlt]
        simp only [if_true]
        split
        · next hm => exact .inl ⟨j, hlt, hm, rfl⟩
        · next hm =>
            rcases ih (j + 1) (entryAt (content s) j) (by omega) hlt with ⟨i, hi, hmi, hrun⟩ | ⟨h1, h2⟩
            · exact .inl ⟨i, hi, hmi, hrun⟩
            · refine .inr ⟨fun i hi hji => ?_, h2⟩
              rcases hji.lt_or_eq with hlt' | rfl
              · exact h1 i hi hlt'
              · exact hm
      · refine .inr ⟨fun i hi hji => by omega, ?_⟩
        rw [lookupLoop, readEntry_end hL hs e]
        rfl

/-- **`lookup`** finds an entry of the name, if there is one. -/
theorem lookup_spec (name : CString) :
    (∃ i < entries (content s), Matches (entryAt (content s)) name i ∧
      L.lookup s name = some (entryAt (content s) i, 20 * i)) ∨
    ((∀ i < entries (content s), ¬ Matches (entryAt (content s)) name i) ∧
      L.lookup s name = none) := by
  rcases lookupLoop_spec hL hs name _ 0 zeros (fuel_eq hL) (Nat.zero_le _) with h | ⟨h1, h2⟩
  · exact .inl h
  · exact .inr ⟨fun i hi => h1 i hi (Nat.zero_le i), h2⟩

/-- The loop of `dir_add` ends at an entry that is free or past the last. -/
theorem freeSlotLoop_spec : ∀ (fuel j : ℕ) (e : DirEntry),
    fuel = entries (content s) - j + 1 → j ≤ entries (content s) →
      ∃ i e', L.freeSlotLoop s fuel (20 * j) e = (20 * i, e') ∧ i ≤ entries (content s) ∧
        (i < entries (content s) → (entryAt (content s) i).inUse = false) := by
  intro fuel
  induction fuel with
  | zero => exact fun j e h _ => by omega
  | succ fuel ih =>
      intro j e hfuel hj
      rcases hj.lt_or_eq with hlt | rfl
      · rw [freeSlotLoop, readEntry_lt hL hs e hlt]
        simp only [if_true]
        split
        · exact ih (j + 1) (entryAt (content s) j) (by omega) hlt
        · next hfree => exact ⟨j, _, rfl, hj, fun _ => by simpa using hfree⟩
      · rw [freeSlotLoop, readEntry_end hL hs e]
        exact ⟨_, e, rfl, le_rfl, fun h => absurd h (lt_irrefl _)⟩

/-- The next entry in use. -/
theorem readdirLoop_spec : ∀ (fuel j : ℕ) (e : DirEntry),
    entries (content s) - j + 1 ≤ fuel → j ≤ entries (content s) →
      (∃ i, j ≤ i ∧ i < entries (content s) ∧ (entryAt (content s) i).inUse = true ∧
        (∀ k, j ≤ k → k < i → (entryAt (content s) k).inUse = false) ∧
        L.readdirLoop s fuel (20 * j) e =
          (some ((entryAt (content s) i).name.take nameMax), 20 * (i + 1))) ∨
      ((∀ i < entries (content s), j ≤ i → (entryAt (content s) i).inUse = false) ∧
        L.readdirLoop s fuel (20 * j) e = (none, 20 * entries (content s))) := by
  intro fuel
  induction fuel with
  | zero => exact fun j e h _ => by omega
  | succ fuel ih =>
      intro j e hfuel hj
      rcases hj.lt_or_eq with hlt | rfl
      · rw [readdirLoop, readEntry_lt hL hs e hlt]
        simp only [if_true]
        split
        · next hused =>
            exact .inl ⟨j, le_rfl, hlt, hused, fun k h1 h2 => absurd h2 (not_lt.mpr h1), rfl⟩
        · next hfree =>
            have hfree : (entryAt (content s) j).inUse = false := by simpa using hfree
            have hskip : ∀ k, j ≤ k → (j + 1 ≤ k → (entryAt (content s) k).inUse = false) →
                (entryAt (content s) k).inUse = false := by
              intro k hk hrest
              rcases hk.lt_or_eq with hlt' | rfl
              · exact hrest hlt'
              · exact hfree
            rcases ih (j + 1) (entryAt (content s) j) (by omega) hlt with
              ⟨i, hji, hi, hu, hfirst, hrun⟩ | ⟨h1, h2⟩
            · exact .inl ⟨i, by omega, hi, hu,
                fun k hk hki => hskip k hk fun hk' => hfirst k hk' hki, hrun⟩
            · exact .inr ⟨fun i hi hji => hskip i hji fun hji' => h1 i hi hji', h2⟩
      · refine .inr ⟨fun i hi hji => by omega, ?_⟩
        rw [readdirLoop, readEntry_end hL hs e]
        rfl

end Loops

end Layer

/-! ## The map -/

namespace Holds

variable {c : List UInt8} {M : NameMap} {name : CString} {i : ℕ} {e : DirEntry}

/-- **A free slot is filled.** -/
theorem fill (h : Holds c M) (hi : i ≤ entries c)
    (hfree : i < entries c → (entryAt c i).inUse = false) (hused : e.inUse = true)
    (hname : e.name ≠ [] ∧ e.name.length ≤ nameMax) (hnew : M e.name = none) :
    Holds (withEntry c i e) (Function.update M e.name (some e.sector)) := by
  have hcnt : entries (withEntry c i e) = max (entries c) (i + 1) := entries_withEntry e h.whole
  have hent : ∀ {j}, j < entries (withEntry c i e) →
      entryAt (withEntry c i e) j = if j = i then e else entryAt c j := by
    intro j hj
    exact entryAt_withEntry e h.whole (hcnt ▸ hj)
  have hold : ∀ {j}, j < entries (withEntry c i e) → j ≠ i → j < entries c := by
    intro j hj hne
    rw [hcnt] at hj
    omega
  have hnone := h.none_iff.mp hnew
  refine ⟨?_, fun j hj hu => ?_, fun j hj k hk hu hu' hn => ?_, fun name s => ?_⟩
  · rw [length_withEntry, hcnt, h.whole]
    omega
  · rw [hent hj] at hu ⊢
    split
    · exact hname
    · next hne =>
        rw [if_neg hne] at hu
        exact h.proper j (hold hj hne) hu
  · rw [hent hj] at hu hn
    rw [hent hk] at hu' hn
    rcases eq_or_ne j i with hji | hji <;> rcases eq_or_ne k i with hki | hki
    · exact hji.trans hki.symm
    · rw [if_neg hki] at hu' hn
      rw [if_pos hji] at hn
      exact absurd ⟨hu', hn.symm⟩ (hnone k (hold hk hki))
    · rw [if_neg hji] at hu hn
      rw [if_pos hki] at hn
      exact absurd ⟨hu, hn⟩ (hnone j (hold hj hji))
    · rw [if_neg hji] at hu hn
      rw [if_neg hki] at hu' hn
      exact h.unique j (hold hj hji) k (hold hk hki) hu hu' hn
  · have hiLt : i < entries (withEntry c i e) := by
      rw [hcnt]
      omega
    rcases eq_or_ne name e.name with rfl | hne
    · rw [Function.update_self, Option.some.injEq]
      constructor
      · rintro rfl
        refine ⟨i, hiLt, ⟨?_, ?_⟩, ?_⟩ <;> rw [hent hiLt, if_pos rfl]
        exact hused
      · rintro ⟨j, hj, ⟨hu, hn⟩, hs⟩
        rw [hent hj] at hu hn hs
        split at hs
        · exact hs
        · next hji =>
            rw [if_neg hji] at hu hn
            exact absurd ⟨hu, hn⟩ (hnone j (hold hj hji))
    · rw [Function.update_of_ne hne, h.maps]
      constructor
      · rintro ⟨j, hj, ⟨hu, hn⟩, hs⟩
        have hji : j ≠ i := by
          rintro rfl
          rw [hfree hj] at hu
          cases hu
        have hj' : j < entries (withEntry c i e) := hcnt ▸ lt_max_of_lt_left hj
        refine ⟨j, hj', ⟨?_, ?_⟩, ?_⟩ <;> rw [hent hj', if_neg hji]
        · exact hu
        · exact hn
        · exact hs
      · rintro ⟨j, hj, ⟨hu, hn⟩, hs⟩
        rw [hent hj] at hu hn hs
        split at hs
        · next hji =>
            rw [if_pos hji] at hn
            exact absurd hn.symm hne
        · next hji =>
            rw [if_neg hji] at hu hn
            exact ⟨j, hold hj hji, ⟨hu, hn⟩, hs⟩

/-- **An entry is cleared.** -/
theorem clear (h : Holds c M) (hi : i < entries c) (hm : Matches (entryAt c) name i) :
    Holds (withEntry c i (entryAt c i).clear) (Function.update M name none) := by
  have hcnt : entries (withEntry c i (entryAt c i).clear) = entries c := by
    rw [entries_withEntry _ h.whole]
    omega
  have hent : ∀ {j}, j < entries c → entryAt (withEntry c i (entryAt c i).clear) j =
      if j = i then (entryAt c i).clear else entryAt c j := by
    intro j hj
    exact entryAt_withEntry _ h.whole (lt_max_of_lt_left hj)
  -- an entry in use is an old one, and not the cleared one
  have hused : ∀ {j}, j < entries c →
      (entryAt (withEntry c i (entryAt c i).clear) j).inUse = true →
      j ≠ i ∧ entryAt (withEntry c i (entryAt c i).clear) j = entryAt c j := by
    intro j hj hu
    rw [hent hj] at hu ⊢
    split
    · next hji =>
        rw [if_pos hji, DirEntry.inUse_clear] at hu
        cases hu
    · next hji => exact ⟨hji, rfl⟩
  refine ⟨?_, fun j hj hu => ?_, fun j hj k hk hu hu' hn => ?_, fun n s => ?_⟩
  · rw [length_withEntry, hcnt, h.whole]
    omega
  · rw [hcnt] at hj
    have e := (hused hj hu).2
    rw [e] at hu ⊢
    exact h.proper j hj hu
  · rw [hcnt] at hj hk
    have ej := (hused hj hu).2
    have ek := (hused hk hu').2
    rw [ej] at hu hn
    rw [ek] at hu' hn
    exact h.unique j hj k hk hu hu' hn
  · rw [hcnt]
    rcases eq_or_ne n name with rfl | hne
    · rw [Function.update_self]
      refine ⟨fun e => absurd e (by simp), ?_⟩
      rintro ⟨j, hj, ⟨hu, hn⟩, -⟩
      obtain ⟨hji, e⟩ := hused hj hu
      rw [e] at hu hn
      exact absurd (h.unique j hj i hi hu hm.1 (hn.trans hm.2.symm)) hji
    · rw [Function.update_of_ne hne, h.maps]
      constructor
      · rintro ⟨j, hj, ⟨hu, hn⟩, hs⟩
        have hji : j ≠ i := by
          rintro rfl
          exact hne (hn.symm.trans hm.2)
        refine ⟨j, hj, ⟨?_, ?_⟩, ?_⟩ <;> rw [hent hj, if_neg hji]
        · exact hu
        · exact hn
        · exact hs
      · rintro ⟨j, hj, ⟨hu, hn⟩, hs⟩
        have e := (hused hj hu).2
        rw [e] at hu hn hs
        exact ⟨j, hj, ⟨hu, hn⟩, hs⟩

end Holds

/-! ## The names in the order of the table -/

/-- The names in use among `n` entries from `j` on. -/
def namesFrom (c : List UInt8) : ℕ → ℕ → List CString
  | _, 0 => []
  | j, n + 1 =>
      if (entryAt c j).inUse then (entryAt c j).name :: namesFrom c (j + 1) n
      else namesFrom c (j + 1) n

section Names

variable {c : List UInt8} {M : NameMap}

theorem mem_namesFrom {name : CString} : ∀ {n j : ℕ}, name ∈ namesFrom c j n ↔
    ∃ k, j ≤ k ∧ k < j + n ∧ Matches (entryAt c) name k := by
  intro n
  induction n with
  | zero =>
      intro j
      simp only [namesFrom, List.not_mem_nil, false_iff]
      rintro ⟨k, h1, h2, -⟩
      omega
  | succ n ih =>
      intro j
      have hsplit : (∃ k, j ≤ k ∧ k < j + (n + 1) ∧ Matches (entryAt c) name k) ↔
          Matches (entryAt c) name j ∨
            ∃ k, j + 1 ≤ k ∧ k < j + 1 + n ∧ Matches (entryAt c) name k := by
        constructor
        · rintro ⟨k, h1, h2, hm⟩
          rcases h1.lt_or_eq with hlt | rfl
          · exact .inr ⟨k, hlt, by omega, hm⟩
          · exact .inl hm
        · rintro (hm | ⟨k, h1, h2, hm⟩)
          · exact ⟨j, le_rfl, by omega, hm⟩
          · exact ⟨k, by omega, by omega, hm⟩
      rw [hsplit, ← ih, namesFrom]
      split
      · next hu => simp [Matches, hu, eq_comm]
      · next hu => simp [Matches, hu]

/-- No name is listed twice. -/
theorem Holds.nodup_namesFrom (h : Holds c M) : ∀ {n j : ℕ}, j + n ≤ entries c →
    (namesFrom c j n).Nodup := by
  intro n
  induction n with
  | zero => exact fun _ => List.nodup_nil
  | succ n ih =>
      intro j hle
      rw [namesFrom]
      split
      · next hu =>
          refine List.nodup_cons.mpr ⟨fun hmem => ?_, ih (by omega)⟩
          obtain ⟨k, h1, h2, hu', hn⟩ := mem_namesFrom.mp hmem
          have := h.unique j (by omega) k (by omega) hu hu' hn.symm
          omega
      · exact ih (by omega)

/-- Entries that are not in use may be skipped. -/
theorem namesFrom_skip : ∀ (d : ℕ) {j n : ℕ},
    (∀ k, j ≤ k → k < j + d → (entryAt c k).inUse = false) →
      namesFrom c j (d + n) = namesFrom c (j + d) n := by
  intro d
  induction d with
  | zero =>
      intro j n _
      rw [Nat.zero_add, Nat.add_zero]
  | succ d ih =>
      intro j n hfree
      have hj := hfree j le_rfl (by omega)
      rw [Nat.add_right_comm, namesFrom, hj, if_neg Bool.false_ne_true,
        ih fun k h1 h2 => hfree k (by omega) (by omega), Nat.add_assoc, Nat.add_comm 1 d]

end Names

/-! ## The calls -/

namespace Layer

variable {L : Layer σ} {content : σ → List UInt8} {s : σ} {M : NameMap}

/-- A name that `dir_add` accepts. -/
def Proper (name : CString) : Prop := name ≠ [] ∧ name.length ≤ nameMax

instance (name : CString) : Decidable (Proper name) := inferInstanceAs (Decidable (_ ∧ _))

/-- **`dir_lookup`** looks the name up in the map. -/
theorem dirLookup_spec (hL : L.Grows content) (h : Holds (content s) M) (name : CString) :
    L.dirLookup s name = M name := by
  rcases lookup_spec hL h.whole name with ⟨i, hi, hm, e⟩ | ⟨hnone, e⟩
  · rw [dirLookup, e, h.of_matches hi hm]
    rfl
  · rw [dirLookup, e, h.none_iff.mpr hnone]
    rfl

/-- **`dir_add`** of a proper name that is absent adds it. -/
theorem dirAdd_spec (hL : L.Grows content) (h : Holds (content s) M) {name : CString} {sector : ℕ}
    (hz : ∀ c ∈ name, c ≠ 0) (hsector : sector < 2 ^ 32) (hname : Proper name)
    (hnew : M name = none) :
    ∃ s', L.dirAdd s name sector = (true, s') ∧
      Holds (content s') (Function.update M name (some sector)) := by
  obtain ⟨hne, hlen⟩ := hname
  have hlookup : L.lookup s name = none := by
    rcases lookup_spec hL h.whole name with ⟨i, hi, hm, -⟩ | ⟨-, e⟩
    · exact absurd hm (h.none_iff.mp hnew i hi)
    · exact e
  obtain ⟨i, e, hslot, hi, hfree⟩ := freeSlotLoop_spec hL h.whole _ 0 zeros
    (fuel_eq hL) (Nat.zero_le _)
  rw [Nat.mul_zero] at hslot
  have hcount : (L.writeAt s (e.fill name sector).bytes (20 * i)).1 = 20 := by
    rw [hL.count, DirEntry.bytes, GrowArray.length_tabulate]
  refine ⟨(L.writeAt s (e.fill name sector).bytes (20 * i)).2, ?_, ?_⟩
  · rw [dirAdd, if_neg (by simpa [hne] using hlen), hlookup]
    simp only [hslot, hcount, decide_true]
  · have hfill : (e.fill name sector).name = name := DirEntry.name_fill e hlen hz
    have hput := h.fill (e := e.fill name sector) hi hfree (DirEntry.inUse_fill e hlen)
      (by rw [hfill]; exact ⟨hne, hlen⟩) (by rw [hfill]; exact hnew)
    rw [hfill, DirEntry.sector_fill e hsector] at hput
    rw [hL.write]
    exact hput

/-- Otherwise it fails and changes nothing. -/
theorem dirAdd_fails (hL : L.Grows content) (h : Holds (content s) M) {name : CString} {sector : ℕ}
    (hname : ¬ (Proper name ∧ M name = none)) : L.dirAdd s name sector = (false, s) := by
  rw [dirAdd]
  split
  · rfl
  · next hproper =>
      have hproper : Proper name := by
        rw [not_or, not_lt] at hproper
        exact hproper
      rcases lookup_spec hL h.whole name with ⟨i, hi, hm, e⟩ | ⟨hnone, -⟩
      · rw [e]
      · exact absurd ⟨hproper, h.none_iff.mpr hnone⟩ hname

/-- **`dir_remove`** removes a name that is present, and fails otherwise. -/
theorem dirRemove_spec (hL : L.Grows content) (h : Holds (content s) M) (name : CString) :
    (L.dirRemove s name).1 = M name ∧
      Holds (content (L.dirRemove s name).2) (Function.update M name none) ∧
      (M name = none → (L.dirRemove s name).2 = s) := by
  rcases lookup_spec hL h.whole name with ⟨i, hi, hm, e⟩ | ⟨hnone, e⟩
  · have hcount : (L.writeAt s (entryAt (content s) i).clear.bytes (20 * i)).1 = 20 := by
      rw [hL.count, DirEntry.bytes, GrowArray.length_tabulate]
    have hrun : L.dirRemove s name = (some (entryAt (content s) i).sector,
        (L.writeAt s (entryAt (content s) i).clear.bytes (20 * i)).2) := by
      rw [dirRemove, e]
      simp only [hcount, ne_eq, not_true, if_false]
    have hM := h.of_matches hi hm
    rw [hrun]
    refine ⟨hM.symm, ?_, fun hn => ?_⟩
    · rw [hL.write]
      exact h.clear hi hm
    · rw [hM] at hn
      cases hn
  · have hM := h.none_iff.mpr hnone
    have hrun : L.dirRemove s name = (none, s) := by
      rw [dirRemove, e]
    rw [hrun, ← hM, Function.update_eq_self]
    exact ⟨rfl, h, fun _ => rfl⟩

/-- **`dir_readdir`**, again and again: the names in order, and then nothing. -/
theorem readdirs_spec (hL : L.Grows content) (h : Holds (content s) M) :
    ∀ (k j : ℕ), j ≤ entries (content s) → L.readdirs s k (20 * j) =
      ((namesFrom (content s) j (entries (content s) - j)).map some ++
        List.replicate k none).take k := by
  intro k
  induction k with
  | zero =>
      intro j _
      rw [readdirs, List.take_zero]
  | succ k ih =>
      intro j hj
      have hfuel : entries (content s) - j + 1 ≤ L.length s / 20 + 1 := by
        rw [fuel_eq hL]
        omega
      rcases readdirLoop_spec hL h.whole _ j zeros hfuel hj with
        ⟨i, hji, hi, hu, hfree, e⟩ | ⟨hfree, e⟩
      · have hnames : namesFrom (content s) j (entries (content s) - j) =
            (entryAt (content s) i).name ::
              namesFrom (content s) (i + 1) (entries (content s) - (i + 1)) := by
          have hsplit : entries (content s) - j =
              (i - j) + (entries (content s) - (i + 1) + 1) := by omega
          rw [hsplit, namesFrom_skip (i - j) fun k h1 h2 => hfree k h1 (by omega),
            Nat.add_sub_cancel' hji, namesFrom, if_pos hu]
        have htake : (entryAt (content s) i).name.take nameMax = (entryAt (content s) i).name :=
          List.take_of_length_le (h.proper i hi hu).2
        have hcall : L.dirReaddir s (20 * j) =
            (some (entryAt (content s) i).name, 20 * (i + 1)) := by
          rw [dirReaddir, e, htake]
        rw [readdirs, hcall, hnames, ih (i + 1) hi, List.map_cons, List.cons_append,
          List.take_succ_cons]
        congr 1
        rw [List.replicate_succ', ← List.append_assoc]
        refine (List.take_append_of_le_length ?_).symm
        simp
      · have hnames : namesFrom (content s) j (entries (content s) - j) = [] := by
          refine namesFrom_skip (entries (content s) - j) (n := 0) fun k h1 h2 => ?_
          exact hfree k (by omega) h1
        have hcall : L.dirReaddir s (20 * j) = (none, 20 * entries (content s)) := by
          rw [dirReaddir, e]
        rw [readdirs, hcall, hnames, ih _ le_rfl, Nat.sub_self, namesFrom]
        simp [List.replicate_succ]

end Layer

/-! ## Runs -/

/-- A call on a directory. -/
inductive DirCall where
  | add (name : CString) (sector : ℕ)
  | remove (name : CString)
  | lookup (name : CString)

/-- A directory, and the map it is to stand for. -/
structure DirUser (σ : Type) where
  file : σ
  map : NameMap

namespace DirUser

variable (L : Layer σ) (content : σ → List UInt8)

/-- The state after a call: what the code does to the file, and what a finite map does. -/
def after (t : DirUser σ) : DirCall → DirUser σ
  | .add name sector =>
      ⟨(L.dirAdd t.file name sector).2,
        if Layer.Proper name ∧ t.map name = none then
          Function.update t.map name (some sector) else t.map⟩
  | .remove name => ⟨(L.dirRemove t.file name).2, Function.update t.map name none⟩
  | .lookup _ => t

/-- A name is a C string, a sector has 32 bits. -/
def Allowed (_ : DirUser σ) : DirCall → Prop
  | .add name sector => (∀ c ∈ name, c ≠ 0) ∧ sector < 2 ^ 32
  | .remove name => ∀ c ∈ name, c ≠ 0
  | .lookup name => ∀ c ∈ name, c ≠ 0

/-- The answers are those of the map, and a call that fails changes nothing. -/
def Answers (t : DirUser σ) : DirCall → Prop
  | .add name sector =>
      ((L.dirAdd t.file name sector).1 = true ↔ Layer.Proper name ∧ t.map name = none) ∧
      ((L.dirAdd t.file name sector).1 = false → (L.dirAdd t.file name sector).2 = t.file)
  | .remove name => (L.dirRemove t.file name).1 = t.map name ∧
      ((L.dirRemove t.file name).1 = none → (L.dirRemove t.file name).2 = t.file)
  | .lookup name => L.dirLookup t.file name = t.map name

/-- The directory stands for the map, and reading it yields every name once. -/
def Sound (t : DirUser σ) : Prop :=
  Holds (content t.file) t.map ∧ ∃ names : List CString, names.Nodup ∧
    (∀ name, name ∈ names ↔ t.map name ≠ none) ∧
    ∀ k, L.readdirs t.file k 0 = (names.map some ++ List.replicate k none).take k

end DirUser

section Runs

variable {L : Layer σ} {content : σ → List UInt8}

theorem DirUser.sound_of_holds (hL : L.Grows content) {t : DirUser σ}
    (h : Holds (content t.file) t.map) : t.Sound L content := by
  refine ⟨h, namesFrom (content t.file) 0 (entries (content t.file)),
    h.nodup_namesFrom (by rw [Nat.zero_add]), fun name => ?_,
    fun k => Layer.readdirs_spec hL h k 0 (Nat.zero_le _)⟩
  rw [mem_namesFrom, ne_eq, h.none_iff, not_forall]
  refine exists_congr fun j => ?_
  rw [Classical.not_imp, not_not, Nat.zero_add]
  exact ⟨fun h => h.2, fun h => ⟨Nat.zero_le j, h⟩⟩

/-- **A call does to the directory what it does to the map.** -/
theorem DirUser.step (hL : L.Grows content) {t : DirUser σ} (h : Holds (content t.file) t.map)
    (op : DirCall) (hop : t.Allowed op) :
    t.Answers L op ∧ Holds (content (t.after L op).file) (t.after L op).map := by
  cases op with
  | add name sector =>
      by_cases hname : Layer.Proper name ∧ t.map name = none
      · obtain ⟨s', e, h'⟩ := Layer.dirAdd_spec hL h hop.1 hop.2 hname.1 hname.2
        refine ⟨⟨by simp [e, hname], fun hf => ?_⟩, ?_⟩
        · rw [e] at hf
          cases hf
        · simp only [after, e, if_pos hname]
          exact h'
      · have e : L.dirAdd t.file name sector = (false, t.file) := Layer.dirAdd_fails hL h hname
        refine ⟨⟨by simp [e, hname], fun _ => by rw [e]⟩, ?_⟩
        simp only [after, e, if_neg hname]
        exact h
  | remove name =>
      obtain ⟨h1, h2, h3⟩ := Layer.dirRemove_spec hL h name
      exact ⟨⟨h1, fun hn => h3 (h1 ▸ hn)⟩, h2⟩
  | lookup name => exact ⟨Layer.dirLookup_spec hL h name, h⟩

/-- **A directory is a finite map**, through every sequence of calls. -/
theorem directory_of_run (hL : L.Grows content) {s : σ} {cnt : ℕ}
    (hs : content s = List.replicate (20 * cnt) 0) (ops : List DirCall)
    (allowed : Along (DirUser.after L) DirUser.Allowed ⟨s, fun _ => none⟩ ops) :
    Always (DirUser.after L) (DirUser.Sound L content) ⟨s, fun _ => none⟩ ops ∧
      Along (DirUser.after L) (DirUser.Answers L) ⟨s, fun _ => none⟩ ops := by
  have hstart : Holds (content s) fun _ => none := by
    rw [hs]
    exact holds_zeros cnt
  have hinv : Always (DirUser.after L) (fun t => Holds (content t.file) t.map)
      ⟨s, fun _ => none⟩ ops :=
    Always.of_along (fun t op h hop => (DirUser.step hL h op hop).2) ops _ hstart allowed
  exact ⟨Always.mono (fun t h => DirUser.sound_of_holds hL h) ops _ hinv,
    Along.of_always_before (fun t op h hop => (DirUser.step hL h op hop).1) ops _ hinv allowed⟩

/-- The layer that is a growable byte array. -/
def arrayLayer : Layer (List UInt8) where
  readAt := GrowArray.read
  writeAt := fun c data offset => (data.length, GrowArray.write 0 c data offset)
  length := List.length

theorem arrayLayer_grows : arrayLayer.Grows id :=
  ⟨fun _ _ _ => rfl, fun _ _ _ => rfl, fun _ _ _ => rfl, fun _ => rfl⟩

theorem directory_of_small_run :
    Always (DirUser.after arrayLayer) (DirUser.Sound arrayLayer id)
        ⟨List.replicate (20 * 1) 0, fun _ => none⟩
        [.add [0x61] 7, .add [0x62] 8, .remove [0x61], .lookup [0x62]] ∧
      Along (DirUser.after arrayLayer) (DirUser.Answers arrayLayer)
        ⟨List.replicate (20 * 1) 0, fun _ => none⟩
        [.add [0x61] 7, .add [0x62] 8, .remove [0x61], .lookup [0x62]] := by
  have letter : ∀ c ∈ [0x61], c ≠ (0 : UInt8) := by simp
  have letter' : ∀ c ∈ [0x62], c ≠ (0 : UInt8) := by simp
  exact directory_of_run arrayLayer_grows rfl _
    ⟨⟨letter, by norm_num⟩, ⟨letter', by norm_num⟩, letter, letter', trivial⟩

end Runs

end Pintos
