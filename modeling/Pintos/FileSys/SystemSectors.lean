import Pintos.FileSys.Sectors

/-!
# The system sectors

The inodes of the free map and of the root directory sit in sectors 0 and 1.  A name
given to `remove` can lead to the second: the root directory's entries `"."` and
`".."` name the root itself.  Under `StepOk`, which keeps these two names out, both
sectors stay marked used, neither inode is ever marked removed, and no sector that
the root directory once had is released.
-/

namespace Pintos

open Lib Lib.Block

/-- The inode at sector `s` is open and marked removed. -/
def MarkedRemoved (fs : FsState) (s : ℕ) : Prop :=
  ∃ p ∈ fs.openInodes, ∃ ino, fs.inodes p = some ino ∧ ino.sector = s ∧ ino.removed = true

/-- **The system sectors are safe.** -/
structure SystemOk (fs : FsState) : Prop where
  freeMapUsed : fs.freeMap.bits freeMapSector = true
  rootUsed : fs.freeMap.bits rootDirSector = true
  freeMapKept : ¬ MarkedRemoved fs freeMapSector
  rootKept : ¬ MarkedRemoved fs rootDirSector
  rootData : ∀ t ∈ ownedSectors fs rootDirSector, fs.freeMap.bits t = true

section

variable {use use' : ℕ → Option Use} {live : ℕ → Prop} {node : ℕ → Sector} {held : List ℕ}
  {ent : ℕ → DirEntry} {cnt : ℕ} {fs : FsState} {t : ℕ}

namespace FsOk

theorem systemOk (h : FsOk use live node held ent cnt fs) : SystemOk fs where
  freeMapUsed := h.sectorsOk.used _ (.inl rfl) _ (.inl rfl)
  rootUsed := h.sectorsOk.used _ (.inr (.inl rfl)) _ (.inl rfl)
  freeMapKept := fun ⟨p, hp, ino, hino, hsec, hrem⟩ => (h.root.removed p hp ino hino hrem).1 hsec
  rootKept := fun ⟨p, hp, ino, hino, hsec, hrem⟩ => (h.root.removed p hp ino hino hrem).2.1 hsec
  rootData := h.sectorsOk.used _ (.inr (.inl rfl))

/-- A sector whose purpose is kept for the root directory is not released. -/
theorem rootData_of_keeps {use : ℕ → Option Use} {live' : ℕ → Prop} {node' : ℕ → Sector}
    {held' : List ℕ} {ent' : ℕ → DirEntry} {cnt' : ℕ} {fs' : FsState}
    (h : FsOk use live node held ent cnt fs) (h' : FsOk use' live' node' held' ent' cnt' fs')
    (owned : KeepsUse use use' rootDirSector) (ht : t ∈ ownedSectors fs rootDirSector) :
    fs'.freeMap.bits t = true := by
  rcases h.owned_use h.rootLive ht with ⟨rfl, -⟩ | ⟨u, hu, ho⟩
  · exact h'.systemOk.rootUsed
  · exact (h'.sound.core.used t u (owned t u hu ho)).2

end FsOk

end

/-- **The system sectors survive** every run of callers under `StepOk`, and what the root
directory has in one state is still marked used in every later one. -/
theorem systemOk_of_run {dev : Device} (format : FormatOk dev) {junk : ℕ → Bool}
    {fs0 fs fs' : FsState} (hinit : filesysInit dev junk true = .ok fs0) (run : FsStepsOk fs0 fs)
    (later : FsStepsOk fs fs') :
    SystemOk fs' ∧ ∀ t ∈ ownedSectors fs rootDirSector, fs'.freeMap.bits t = true := by
  obtain ⟨use, live, node, ent, cnt, h⟩ := healthy_of_run format hinit run
  obtain ⟨use', live', node', ent', cnt', h', owned⟩ := h.steps later
  exact ⟨h'.systemOk, fun t ht => h.rootData_of_keeps h' owned ht⟩

/-- A run that makes, opens, removes and closes a directory. -/
theorem systemOk_of_small_run : ∃ fs0 fs,
    filesysInit smallDevice (fun _ => false) true = .ok fs0 ∧ FsStepsOk fs0 fs ∧
      SystemOk fs ∧ ∀ t ∈ ownedSectors fs0 rootDirSector, fs.freeMap.bits t = true := by
  have hrun : okWith (filesysInit smallDevice (fun _ => false) true) (fun fs =>
      (replay fsStep (fun fs o => FsCall fs o ∧ StepOk fs o) fs
        [.mkdir [0x64], .open [0x64], .remove [0x64], .close 9]).isSome) = true := by
    decide +kernel
  obtain ⟨fs0, hinit, hrun⟩ := okWith_iff.mp hrun
  obtain ⟨fs, hreplay⟩ := Option.isSome_iff_exists.mp hrun
  have run : FsStepsOk fs0 fs := replay_reaches _ hreplay
  exact ⟨fs0, fs, hinit, run, systemOk_of_run (by decide) hinit .refl run⟩

/-- Without the condition on names the root directory is lost to its own entry: after
`remove (".")` its inode's sector is free. -/
theorem root_released_by_dot : ¬ ∀ (dev : Device) (junk : ℕ → Bool) (fs0 fs : FsState),
    FormatOk dev → filesysInit dev junk true = .ok fs0 → FsSteps fs0 fs → SystemOk fs := by
  intro claim
  have hrun : okWith (filesysInit smallDevice (fun _ => false) true) (fun fs =>
      (replay fsStep FsCall fs [.remove selfPath]).any fun fs =>
        !fs.freeMap.bits rootDirSector) = true := by
    decide +kernel
  obtain ⟨fs0, hinit, hrun⟩ := okWith_iff.mp hrun
  obtain ⟨fs, hreplay, htest⟩ := (Option.any_eq_true _ _).mp hrun
  have ok := claim smallDevice _ fs0 fs (by decide) hinit (replay_reaches _ hreplay)
  rw [ok.rootUsed] at htest
  cases htest

end Pintos
