import Mathlib
import Pintos.FileSys.Calls
import Pintos.FileSys.FileArray

/-!
# Who owns a sector

`ownedSectors` are the sectors of an inode as `byte_to_sector` finds them: its own
sector, and for every offset below its length the data sector and the index blocks
on the way.  In a healthy file system the sets of distinct live inodes are disjoint
and marked used, and only the free map and the root directory own theirs
(`SectorsOk`).
-/

namespace Pintos

open Lib Lib.Block

/-- The contents of the inode at sector `s`: in memory if it is open, else on disk. -/
def currentData (fs : FsState) (s : ℕ) : Sector :=
  match findOpen fs s with
  | some p => inodeData fs p
  | none => fs.dev.disk s

/-- The sectors `byte_to_sector` goes through for the offset `pos`. -/
def sectorPath (disk : ℕ → Sector) (d : Sector) (pos : ℕ) : List ℕ :=
  if pos / 512 < 122 then [slotOf disk d (pos / 512)]
  else if pos / 512 < 250 then [indirectPtr d, slotOf disk d (pos / 512)]
  else [doublyPtr d, wordAt (disk (doublyPtr d)) ((pos / 512 - 250) / 128),
    slotOf disk d (pos / 512)]

/-- The sectors owned by the inode at sector `s`. -/
def ownedSectors (fs : FsState) (s : ℕ) : Set ℕ :=
  {t | t = s ∨ ∃ pos : ℕ, (pos : ℤ) < inodeLength (currentData fs s) ∧
    t ∈ sectorPath fs.dev.disk (currentData fs s) pos}

/-- The live inodes: the free map, the root directory, what is open and what has an
entry. -/
def LiveInode (fs : FsState) (s : ℕ) : Prop :=
  s = freeMapSector ∨ s = rootDirSector ∨
    (∃ p ∈ fs.openInodes, ∃ ino, fs.inodes p = some ino ∧ ino.sector = s) ∨
    ∃ j < rootCount fs, (rootEntry fs j).inUse = true ∧ (rootEntry fs j).sector = s

/-- **Sector ownership.** -/
structure SectorsOk (fs : FsState) : Prop where
  disjoint : ∀ s t, LiveInode fs s → LiveInode fs t → s ≠ t →
    Disjoint (ownedSectors fs s) (ownedSectors fs t)
  used : ∀ s, LiveInode fs s → ∀ t ∈ ownedSectors fs s, fs.freeMap.bits t = true
  reserved : ∀ s, LiveInode fs s → s ≠ freeMapSector → s ≠ rootDirSector →
    freeMapSector ∉ ownedSectors fs s ∧ rootDirSector ∉ ownedSectors fs s

section

variable {use : ℕ → Option Use} {live : ℕ → Prop} {node : ℕ → Sector} {held : List ℕ}
  {ent : ℕ → DirEntry} {cnt : ℕ} {fs : FsState} {s t : ℕ}

/-- Every sector on the way to a present one has a purpose in the tree. -/
theorem PtrOk.path {disk : ℕ → Sector} {d : Sector} (h : PtrOk use disk s d) {pos : ℕ}
    (hp : Present disk d (pos / 512)) (ht : t ∈ sectorPath disk d pos) :
    ∃ u, use t = some u ∧ u.owner = some s := by
  unfold sectorPath at ht
  have hslot := h.data _ hp
  split at ht
  · rw [List.mem_singleton] at ht
    exact ⟨_, ht ▸ hslot, rfl⟩
  split at ht
  · rcases List.mem_cons.mp ht with rfl | ht
    · exact ⟨_, h.indirect (hp.2.1 (by omega) (by omega)), rfl⟩
    · rw [List.mem_singleton] at ht
      exact ⟨_, ht ▸ hslot, rfl⟩
  · obtain ⟨hlt, hD, hS⟩ := hp.2.2 (by omega)
    rcases List.mem_cons.mp ht with rfl | ht
    · exact ⟨_, h.doubly hD, rfl⟩
    rcases List.mem_cons.mp ht with rfl | ht
    · exact ⟨_, h.second hD _ (by omega) hS, rfl⟩
    · rw [List.mem_singleton] at ht
      exact ⟨_, ht ▸ hslot, rfl⟩

namespace FsOk

theorem liveInode (h : FsOk use live node held ent cnt fs) (hs : LiveInode fs s) : live s := by
  rcases hs with rfl | rfl | ⟨p, hp, ino, hino, rfl⟩ | ⟨j, hj, hu, rfl⟩
  · obtain ⟨fm, q, -, map, -⟩ := h.mapFile
    exact map.isLive
  · exact h.rootLive
  · obtain ⟨a, ha, hlive⟩ := h.sound.heap.listed p hp
    rw [hino, Option.some.injEq] at ha
    exact ha ▸ hlive
  · rw [h.rootCount_eq] at hj
    rw [h.rootEntry_eq hj] at hu ⊢
    exact (h.root.entries j hj hu).1

theorem currentData_eq (h : FsOk use live node held ent cnt fs) (hs : live s) :
    currentData fs s = node s := by
  unfold currentData
  cases hf : findOpen fs s with
  | none => exact h.sound.synced s hs
  | some p =>
      obtain ⟨hp, ino, hino, rfl⟩ := findOpen_some hf
      simp only [inodeData, hino]
      exact (h.sound.core.opens p hp ino hino).2

/-- A sector owned by `s` is its own or has a purpose in its tree. -/
theorem owned_use (h : FsOk use live node held ent cnt fs) (hs : live s)
    (ht : t ∈ ownedSectors fs s) :
    (t = s ∧ use t = some .inode) ∨ ∃ u, use t = some u ∧ u.owner = some s := by
  obtain ⟨huse, tree⟩ := h.sound.core.tree s hs
  rcases ht with rfl | ⟨pos, hpos, ht⟩
  · exact .inl ⟨rfl, huse⟩
  · rw [h.currentData_eq hs] at hpos ht
    exact .inr (tree.ptrs.path (tree.present _ (by omega)) ht)

/-- No sector is owned twice. -/
theorem owned_unique (h : FsOk use live node held ent cnt fs) {s' : ℕ} (hs : live s)
    (hs' : live s') (ht : t ∈ ownedSectors fs s) (ht' : t ∈ ownedSectors fs s') : s = s' := by
  rcases h.owned_use hs ht with ⟨rfl, h1⟩ | ⟨u, h1, h2⟩ <;>
    rcases h.owned_use hs' ht' with ⟨rfl, h3⟩ | ⟨v, h3, h4⟩
  · rfl
  · rw [h1, Option.some.injEq] at h3
    simp [← h3, Use.owner] at h4
  · rw [h1, Option.some.injEq] at h3
    simp [h3, Use.owner] at h2
  · rw [h1, Option.some.injEq] at h3
    rw [h3, h4, Option.some.injEq] at h2
    exact h2.symm

theorem sectorsOk (h : FsOk use live node held ent cnt fs) : SectorsOk fs where
  disjoint s t hs ht hne := Set.disjoint_left.mpr fun _ h1 h2 =>
    hne (h.owned_unique (h.liveInode hs) (h.liveInode ht) h1 h2)
  used s hs t ht := by
    rcases h.owned_use (h.liveInode hs) ht with ⟨-, h1⟩ | ⟨u, h1, -⟩ <;>
      exact (h.sound.core.used t _ h1).2
  reserved s hs h0 h1 := by
    have hlive := h.liveInode hs
    exact ⟨fun ht => h0 (h.owned_unique hlive (h.liveInode (.inl rfl)) ht (.inl rfl)),
      fun ht => h1 (h.owned_unique hlive (h.liveInode (.inr (.inl rfl))) ht (.inl rfl))⟩

end FsOk

end

/-- **Sector ownership holds in every state reached under `StepOk`** from a formatted
device. -/
theorem sectorsOk_of_run {dev : Device} (format : FormatOk dev) {junk : ℕ → Bool}
    {fs0 fs : FsState} (hinit : filesysInit dev junk true = .ok fs0) (run : FsStepsOk fs0 fs) :
    SectorsOk fs := by
  obtain ⟨use, live, node, ent, cnt, h⟩ := healthy_of_run format hinit run
  exact h.sectorsOk

/-- A run that creates, opens, writes, removes and closes a file keeps the sectors
apart. -/
theorem sectorsOk_of_small_run : ∃ fs0 fs, filesysInit smallDevice (fun _ => false) true = .ok fs0 ∧
    FsStepsOk fs0 fs ∧ SectorsOk fs := by
  have hrun : okWith (filesysInit smallDevice (fun _ => false) true) (fun fs =>
      (replay fsStep (fun fs o => FsCall fs o ∧ StepOk fs o) fs
        [.create [0x61] 600 false, .open [0x61], .write 9 (fun _ => 7) 30, .remove [0x61],
          .close 9]).isSome) = true := by
    decide +kernel
  obtain ⟨fs0, hinit, hrun⟩ := okWith_iff.mp hrun
  obtain ⟨fs, hreplay⟩ := Option.isSome_iff_exists.mp hrun
  have run : FsStepsOk fs0 fs := replay_reaches _ hreplay
  exact ⟨fs0, fs, hinit, run, sectorsOk_of_run (by decide) hinit run⟩

/-- Without the condition on writes the ownership fails: `extend_file` does not fill
the first slot of an empty file, so its first byte is found in sector 0. -/
theorem sectors_shared_after_growth : ¬ ∀ (dev : Device) (junk : ℕ → Bool) (fs0 fs : FsState),
    FormatOk dev → filesysInit dev junk true = .ok fs0 → FsSteps fs0 fs → SectorsOk fs := by
  intro claim
  have hrun : okWith (filesysInit smallDevice (fun _ => false) true) (fun fs =>
      (replay fsStep FsCall fs
        [.create [0x61] 0 false, .open [0x61], .write 9 (fun _ => 7) 1]).any fun fs =>
          (findOpen fs 4).isSome && decide (0 < inodeLength (currentData fs 4)) &&
            decide (directPtr (currentData fs 4) 0 = 0)) = true := by
    decide +kernel
  obtain ⟨fs0, hinit, hrun⟩ := okWith_iff.mp hrun
  obtain ⟨fs, hreplay, htest⟩ := (Option.any_eq_true _ _).mp hrun
  simp only [Bool.and_eq_true, decide_eq_true_eq] at htest
  obtain ⟨⟨hopen, hlen⟩, hptr⟩ := htest
  obtain ⟨p, hfind⟩ := Option.isSome_iff_exists.mp hopen
  obtain ⟨hp, hino⟩ := findOpen_some hfind
  have ok := claim smallDevice _ fs0 fs (by decide) hinit (replay_reaches _ hreplay)
  have hlive : LiveInode fs 4 := .inr (.inr (.inl ⟨p, hp, hino⟩))
  refine (ok.reserved 4 hlive (by decide) (by decide)).1 (.inr ⟨0, by exact_mod_cast hlen, ?_⟩)
  simp [sectorPath, slotOf, hptr, freeMapSector]

end Pintos
