import Pintos.FileSys.FreeMap

/-!
# Building the tree of an inode

`inode_create` and `extend_file` allocate sectors one at a time, give each a
purpose in the tree of an inode that is not live yet, and fill it.  `Alloc` is
what such a stretch of code preserves; it is transitive, so a loop is followed by
induction with one `Alloc` per iteration.
-/

namespace Pintos

open Lib Lib.Block

/-- A stretch of allocations from `fs` to `fs'`: purposes are only added, sectors
that had a purpose keep their contents (the free map's own file apart), and
outside the free map and the device nothing changes. -/
structure Alloc (use use' : ℕ → Option Use) (live : ℕ → Prop) (node : ℕ → Sector)
    (fs fs' : FsState) : Prop where
  rest : fs' = (fs.setMap fs'.freeMap).setDev fs'.dev
  size : fs'.dev.size = fs.dev.size
  core : Core use' live node fs'
  ready : MapReady live node fs'
  mono : ∀ t u, use t = some u → use' t = some u
  keep : ∀ t u, use t = some u → (fs.freeMapFile = none ∨ ∀ i, u ≠ .data freeMapSector i) →
    fs'.dev.disk t = fs.dev.disk t
  bits : ∀ k, fs.freeMap.bits k = true → fs'.freeMap.bits k = true

section

variable {use use' use'' : ℕ → Option Use} {live : ℕ → Prop} {node : ℕ → Sector}
  {fs fs' fs'' : FsState} {s : ℕ}

namespace Alloc

theorem refl (core : Core use live node fs) (ready : MapReady live node fs) :
    Alloc use use live node fs fs where
  rest := rfl
  size := rfl
  core := core
  ready := ready
  mono _ _ hu := hu
  keep _ _ _ _ := rfl
  bits _ h := h

theorem freeMapFile (h : Alloc use use' live node fs fs') : fs'.freeMapFile = fs.freeMapFile := by
  rw [h.rest]
  rfl

theorem inodes (h : Alloc use use' live node fs fs') : fs'.inodes = fs.inodes := by
  rw [h.rest]
  rfl

theorem trans (h : Alloc use use' live node fs fs') (h' : Alloc use' use'' live node fs' fs'') :
    Alloc use use'' live node fs fs'' where
  rest := by
    rw [h'.rest, h.rest]
    rfl
  size := h'.size.trans h.size
  core := h'.core
  ready := h'.ready
  mono t u hu := h'.mono t u (h.mono t u hu)
  keep t u hu hk := by
    rw [h'.keep t u (h.mono t u hu) (by rwa [h.freeMapFile]), h.keep t u hu hk]
  bits k hk := h'.bits k (h.bits k hk)

end Alloc

/-- An inode whose tree is incomplete is not the free map's, once that is open. -/
theorem MapReady.ne_freeMapSector (ready : MapReady live node fs) (hs : ¬ live s) :
    fs.freeMapFile = none ∨ s ≠ freeMapSector := by
  rcases ready with h | ⟨f, q, -, map, -⟩
  · exact .inl h
  · exact .inr fun e => hs (e ▸ map.isLive)

/-- A purpose for a sector that has none. -/
theorem Core.addUse (core : Core use live node fs) {t : ℕ} {u : Use} (hnone : use t = none)
    (hin : t < fs.dev.size) (hbit : fs.freeMap.bits t = true) :
    Core (Function.update use t (some u)) live node fs := by
  have keepUse : ∀ x v, use x = some v → Function.update use t (some u) x = some v := by
    intro x v hx
    rw [Function.update_of_ne (fun e => by simp [e, hnone] at hx), hx]
  refine ⟨core.mapSize, core.zeroUsed, fun x v hx => ?_, fun s' hs' => ?_, fun p hl ino hp => ?_⟩
  · by_cases e : x = t
    · exact e ▸ ⟨hin, hbit⟩
    · rw [Function.update_of_ne e] at hx
      exact core.used x v hx
  · obtain ⟨h1, h2⟩ := core.tree s' hs'
    exact ⟨keepUse _ _ h1, h2.congr (fun _ _ _ _ => rfl) fun x v hx _ => keepUse x v hx⟩
  · obtain ⟨h1, h2⟩ := core.opens p hl ino hp
    exact ⟨keepUse _ _ h1, h2⟩

/-- Writing a sector of an incomplete tree keeps the invariant. -/
theorem Core.put (core : Core use live node fs) {t : ℕ} {u : Use} (hu : use t = some u)
    (ho : u.owner = some s) (hs : ¬ live s) (b : Sector) :
    Core use live node (fs.setDev (fs.dev.put t b)) where
  mapSize := core.mapSize
  zeroUsed := core.zeroUsed
  used := core.used
  tree s' hs' := by
    obtain ⟨h1, h2⟩ := core.tree s' hs'
    refine ⟨h1, h2.congr (fun x v hx hv => ?_) fun _ _ hx _ => hx⟩
    refine Function.update_of_ne (fun e => hs ?_) _ _
    rw [e, hu, Option.some.injEq] at hx
    rw [← hx, ho, Option.some.injEq] at hv
    exact hv ▸ hs'
  opens := core.opens

theorem MapReady.put (core : Core use live node fs) (ready : MapReady live node fs) {t : ℕ}
    {u : Use} (hu : use t = some u) (ho : u.owner = some s) (hs : ¬ live s) (b : Sector) :
    MapReady live node (fs.setDev (fs.dev.put t b)) := by
  rcases ready with h | ⟨f, q, hf, map, synced⟩
  · exact .inl h
  · refine .inr ⟨f, q, hf, ⟨map.file, map.listed, map.inode, map.isLive, map.length, map.nonempty⟩,
      synced.congr rfl rfl fun j hj => ?_⟩
    obtain ⟨-, tree⟩ := core.tree _ map.isLive
    have hlen := map.length
    have hj' : (j : ℤ) < inodeLength (node freeMapSector) := by
      rw [hlen]
      exact_mod_cast hj
    refine TreeOk.fileByte_congr tree.ptrs (fun x v hx hv => ?_) (tree.present _ (by omega))
    refine Function.update_of_ne (fun e => hs ?_) _ _
    rw [e, hu, Option.some.injEq] at hx
    rw [← hx, ho, Option.some.injEq] at hv
    exact hv ▸ map.isLive

/-- The sector of an inode belongs to no tree. -/
theorem KeepsOwned.putInode (hu : use s = some .inode) (disk : ℕ → Sector) (b : Sector) (s' : ℕ) :
    KeepsOwned use s' disk (Function.update disk s b) := by
  intro x v hx hv
  refine Function.update_of_ne (fun e => ?_) _ _
  rw [e, hu, Option.some.injEq] at hx
  simp [← hx, Use.owner] at hv

/-- Writing an inode's sector and making the inode live, with a complete tree. -/
theorem Core.putInode (core : Core use live node fs) (hu : use s = some .inode)
    {d : Sector} (tree : TreeOk use fs.dev.disk s d)
    (closed : ∀ p ∈ fs.openInodes, ∀ ino, fs.inodes p = some ino → ino.sector = s →
      ino.data = d) :
    Core use (fun x => live x ∨ x = s) (Function.update node s d)
      (fs.setDev (fs.dev.put s d)) where
  mapSize := core.mapSize
  zeroUsed := core.zeroUsed
  used := core.used
  tree s' hs' := by
    by_cases e : s' = s
    · subst e
      rw [Function.update_self]
      exact ⟨hu, tree.congr (KeepsOwned.putInode hu _ d _) fun _ _ hx _ => hx⟩
    · obtain ⟨h1, h2⟩ := core.tree s' (hs'.resolve_right e)
      rw [Function.update_of_ne e]
      exact ⟨h1, h2.congr (KeepsOwned.putInode hu _ d _) fun _ _ hx _ => hx⟩
  opens p hp ino hino := by
    obtain ⟨h1, h2⟩ := core.opens p hp ino hino
    refine ⟨h1, ?_⟩
    by_cases e : ino.sector = s
    · rw [e, Function.update_self]
      exact closed p hp ino hino e
    · rw [Function.update_of_ne e, h2]

theorem MapReady.putInode (core : Core use live node fs) (ready : MapReady live node fs)
    (hu : use s = some .inode) (hs : ¬ live s) (d : Sector) :
    MapReady (fun x => live x ∨ x = s) (Function.update node s d)
      (fs.setDev (fs.dev.put s d)) := by
  rcases ready with h | ⟨f, q, hf, map, synced⟩
  · exact .inl h
  · obtain ⟨-, tree⟩ := core.tree _ map.isLive
    have hne : freeMapSector ≠ s := fun e => hs (e ▸ map.isLive)
    have hnode : Function.update node s d freeMapSector = node freeMapSector :=
      Function.update_of_ne hne _ _
    refine .inr ⟨f, q, hf, ⟨map.file, map.listed, map.inode, .inl map.isLive, ?_, map.nonempty⟩,
      synced.congr rfl rfl fun j hj => ?_⟩
    · rw [hnode]
      exact map.length
    · have hlen := map.length
      have hj' : (j : ℤ) < inodeLength (node freeMapSector) := by
        rw [hlen]
        exact_mod_cast hj
      rw [hnode]
      exact TreeOk.fileByte_congr tree.ptrs (KeepsOwned.putInode hu _ d _)
        (tree.present _ (by omega))

/-- Filling a sector that was allocated on the way. -/
theorem Alloc.put (h : Alloc use use' live node fs fs') {t : ℕ} {u : Use} (hnone : use t = none)
    (hu : use' t = some u) (ho : u.owner = some s) (hs : ¬ live s) (b : Sector) :
    fs'.write t b = .ok (fs'.setDev (fs'.dev.put t b)) ∧
      Alloc use use' live node fs (fs'.setDev (fs'.dev.put t b)) := by
  have hin := h.core.inside t u hu
  refine ⟨by rw [FsState.write, blockWrite_ok b hin]; rfl, ?_⟩
  refine ⟨?_, h.size, h.core.put hu ho hs b, h.ready.put h.core hu ho hs b, h.mono,
    fun x v hx hk => ?_, h.bits⟩
  · rw [h.rest]
    rfl
  · have hne : x ≠ t := fun e => by simp [e, hnone] at hx
    exact (Function.update_of_ne hne _ _).trans (h.keep x v hx hk)

/-- **One `free_map_allocate (1, …)` into a word of a block in memory**, for the
purpose `u`. -/
theorem allocateInto_spec (core : Core use live node fs) (ready : MapReady live node fs)
    (free : 0 < freeSectors fs.freeMap) (block : Sector) (j : ℕ) (u : Use) :
    ∃ t fs', allocateInto fs block j = .ok (setWord block j t, fs') ∧
      Alloc use (Function.update use t (some u)) live node fs fs' ∧
      t < fs.dev.size ∧ t ≠ 0 ∧ use t = none ∧
      freeSectors fs'.freeMap + 1 = freeSectors fs.freeMap := by
  obtain ⟨t, fs', hrun, step, core', ready', hin, hzero, hnone, hbit, hmono, hfree⟩ :=
    freeMapAllocate_spec core ready free
  refine ⟨t, fs', ?_, ⟨step.rest, step.size, core'.addUse hnone (step.size ▸ hin) hbit,
    ready', fun x v hx => ?_, fun x v hx hk => ?_, hmono⟩, hin, hzero, hnone, hfree⟩
  · simp only [allocateInto, hrun, ok_bind]
    rfl
  · rw [Function.update_of_ne (fun e => by simp [e, hnone] at hx), hx]
  · rcases hk with hk | hk
    · rw [step.formatting hk]
    · refine step.disk x fun i hi => hk i ?_
      rw [hx, Option.some.injEq] at hi
      exact hi

/-- Allocate a sector into a word and fill it with `b`. -/
theorem allocateFill_spec (core : Core use live node fs) (ready : MapReady live node fs)
    (free : 0 < freeSectors fs.freeMap) (block : Sector) {j : ℕ} (hj : j < 128) {u : Use}
    (ho : u.owner = some s) (hs : ¬ live s) (b : Sector) :
    ∃ t fs1 fs', allocateInto fs block j = .ok (setWord block j t, fs1) ∧
      wordAt (setWord block j t) j = t ∧ fs1.write t b = .ok fs' ∧
      fs' = fs1.setDev (fs1.dev.put t b) ∧
      Alloc use (Function.update use t (some u)) live node fs fs' ∧
      t ≠ 0 ∧ use t = none ∧ fs'.dev.disk t = b ∧
      freeSectors fs'.freeMap + 1 = freeSectors fs.freeMap := by
  obtain ⟨t, fs1, hrun, alloc, hin, hzero, hnone, hfree⟩ :=
    allocateInto_spec core ready free block j u
  obtain ⟨hwrite, alloc'⟩ := alloc.put hnone (Function.update_self ..) ho hs b
  have ht : t < 2 ^ 32 := hin.trans fs.dev.size_lt
  exact ⟨t, fs1, _, hrun, wordAt_setWord_self block (by omega) ht, hwrite, rfl, alloc', hzero,
    hnone, by simp, hfree⟩

end

end Pintos
