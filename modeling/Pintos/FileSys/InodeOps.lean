import Pintos.FileSys.Heap

/-!
# Operations in a sound state

`free_map_allocate` for an inode sector followed by `inode_create`, and the
release of a removed inode, in terms of `Sound`.
-/

namespace Pintos

open Lib Lib.Block

/-- What had a purpose keeps its contents, the free map's own file apart. -/
def KeepsUsed (use : ℕ → Option Use) (fs fs' : FsState) : Prop :=
  ∀ t u, use t = some u → (fs.freeMapFile = none ∨ ∀ i, u ≠ .data freeMapSector i) →
    fs'.dev.disk t = fs.dev.disk t

section

variable {use : ℕ → Option Use} {live : ℕ → Prop} {node : ℕ → Sector} {fs : FsState} {s : ℕ}
  {held : List ℕ}

/-- `free_map_allocate (1, …)` for a new inode. -/
theorem Sound.allocate (sound : Sound use live node held fs) (free : 0 < freeSectors fs.freeMap) :
    ∃ t fs', freeMapAllocate fs 1 = .ok (some t, fs') ∧
      Sound (Function.update use t (some .inode)) live node held fs' ∧
      t ≠ 0 ∧ use t = none ∧ fs' = (fs.setMap fs'.freeMap).setDev fs'.dev ∧
      fs'.dev.size = fs.dev.size ∧ KeepsUsed use fs fs' ∧
      freeSectors fs'.freeMap + 1 = freeSectors fs.freeMap := by
  obtain ⟨t, fs', hrun, step, core', ready', hin, hzero, hnone, hbit, hmono, hfree⟩ :=
    freeMapAllocate_spec sound.core sound.ready free
  have keep : KeepsUsed use fs fs' := by
    intro x u hx hk
    rcases hk with hk | hk
    · rw [step.formatting hk]
    · refine step.disk x fun i e => hk i ?_
      rw [hx, Option.some.injEq] at e
      exact e
  have same : SameHeap fs fs' := by
    rw [step.rest]
    exact ⟨rfl, rfl, rfl, rfl⟩
  refine ⟨t, fs', hrun, ⟨core'.addUse hnone (step.size ▸ hin) hbit, ready',
    sound.heap.sameHeap same fun _ h => h, fun x hx => ?_⟩, hzero, hnone, step.rest, step.size,
    keep, hfree⟩
  rw [keep x _ (sound.core.tree x hx).1 (.inr fun _ => by simp)]
  exact sound.synced x hx

/-- A sector without a purpose is neither live nor open. -/
theorem Sound.fresh (sound : Sound use live node held fs) {t : ℕ} (hnone : use t = none) :
    ¬ live t ∧ ∀ p ∈ fs.openInodes, ∀ ino, fs.inodes p = some ino → ino.sector ≠ t := by
  refine ⟨fun h => ?_, fun p hp ino hino e => ?_⟩
  · have := (sound.core.tree t h).1
    rw [hnone] at this
    simp at this
  · have := (sound.core.opens p hp ino hino).1
    rw [e, hnone] at this
    simp at this

/-- `inode_create` of an inode whose sector is allocated. -/
theorem Sound.create (sound : Sound use live node held fs) (hs : ¬ live s)
    (huse : use s = some .inode)
    (closed : ∀ p ∈ fs.openInodes, ∀ ino, fs.inodes p = some ino → ino.sector ≠ s)
    {len : ℤ} (h0 : 0 ≤ len) (h1 : len ≤ 8516608)
    (free : demand (bytesToSectors len) ≤ freeSectors fs.freeMap) (isDir : Bool) :
    ∃ use' d fs', inodeCreate fs s len isDir = .ok (true, fs') ∧
      Sound use' (fun x => live x ∨ x = s) (Function.update node s d) held fs' ∧
      Created use use' live node s d fs fs' ∧ inodeLength d = len ∧
      (∀ i : ℕ, (i : ℤ) < len → fileByte fs'.dev.disk d i = 0) ∧
      freeSectors fs'.freeMap + demand (bytesToSectors len) = freeSectors fs.freeMap := by
  obtain ⟨use', d, fs', hrun, created, hlen, hzero, hfree⟩ :=
    inodeCreate_spec sound.core sound.ready hs huse closed h0 h1 free isDir
  refine ⟨use', d, fs', hrun, ⟨created.core, created.ready,
    sound.heap.sameHeap created.sameHeap fun _ h => .inl h, fun x hx => ?_⟩, created, hlen, hzero,
    hfree⟩
  by_cases e : x = s
  · subst e
    rw [created.written, Function.update_self]
  · have hx' := hx.resolve_right e
    rw [created.keep x _ (sound.core.tree x hx').1 e (.inr fun _ => by simp),
      Function.update_of_ne e]
    exact sound.synced x hx'

/-- **A new inode**: allocate its sector, create it, open it. -/
theorem Sound.newInode (sound : Sound use live node held fs) {len : ℤ} (h0 : 0 ≤ len)
    (h1 : len ≤ 8516608) (free : 1 + demand (bytesToSectors len) ≤ freeSectors fs.freeMap)
    (isDir : Bool) :
    ∃ t fs1 fs2 p fs3 use' live' d node', freeMapAllocate fs 1 = .ok (some t, fs1) ∧
      inodeCreate fs1 t len isDir = .ok (true, fs2) ∧ inodeOpen fs2 t = .ok (p, fs3) ∧
      Sound use' live' node' (p :: held) fs3 ∧ live' t ∧ t ≠ freeMapSector ∧ OpenAt t p fs3 ∧
      fs3.inodes p = some ⟨t, 1, false, 0, d⟩ ∧ node' t = d ∧ inodeLength d = len ∧
      ∀ i : ℕ, (i : ℤ) < len → fileByte fs3.dev.disk d i = 0 := by
  obtain ⟨t, fs1, hrun1, sound1, ht0, hnone, hrest, -, -, hfree1⟩ := sound.allocate (by omega)
  obtain ⟨hlive, hclosed⟩ := sound.fresh hnone
  have closed1 : ∀ p ∈ fs1.openInodes, ∀ ino, fs1.inodes p = some ino → ino.sector ≠ t := by
    rw [hrest]
    exact hclosed
  obtain ⟨use', d, fs2, hrun2, sound2, created, hlen, hzero, -⟩ :=
    sound1.create hlive (Function.update_self ..) closed1 h0 h1 (by omega) isDir
  obtain ⟨p, fs3, hrun3, sound3, o, same, hfresh⟩ := inodeOpen_spec sound2 (s := t) (.inr rfl)
  have hclosed2 : ∀ p ∈ fs2.openInodes, ∀ ino, fs2.inodes p = some ino → ino.sector ≠ t := by
    rw [created.rest]
    exact closed1
  refine ⟨t, fs1, fs2, p, fs3, use', _, d, _, hrun1, hrun2, hrun3, sound3, .inr rfl, ht0, o, ?_,
    Function.update_self .., hlen, ?_⟩
  · have := hfresh hclosed2
    rwa [Function.update_self] at this
  · rw [same.dev]
    exact hzero

end

end Pintos
