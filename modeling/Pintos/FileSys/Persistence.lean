import Pintos.FileSys.Calls

/-!
# What survives a restart

`observe` is what a caller can learn of a name: whether it resolves, and the length
and the bytes of its file.  A healthy file system that is shut down and mounted
again answers every observation as before, and has the same free map
(`restart_of_run`).
-/

namespace Pintos

open Lib Lib.Block

/-- Open a name, and read its length and all of its bytes. -/
def observe (fs : FsState) (name : CString) : Except Fault (Option (ℤ × List UInt8)) := do
  let (r, fs) ← filesysOpen fs name
  match r with
  | none => return none
  | some f => do
      let len ← fileLength fs f
      let (bytes, _) ← fileRead fs f len
      return some (len, bytes)

/-- No caller has a file open. -/
def AllClosed (fs : FsState) : Prop :=
  ∀ f < fs.nextAddr, fs.freeMapFile ≠ some f → fs.files f = none

instance (fs : FsState) : Decidable (AllClosed fs) :=
  inferInstanceAs (Decidable (∀ f < fs.nextAddr, _))

/-- The state `fs'` after a restart shows what `fs` showed. -/
structure SameView (fs fs' : FsState) : Prop where
  names : ∀ name, observe fs' name = observe fs name
  bitCnt : fs'.freeMap.bitCnt = fs.freeMap.bitCnt
  bits : ∀ k < fs.freeMap.bitCnt, fs'.freeMap.bits k = fs.freeMap.bits k

section

variable {use : ℕ → Option Use} {live : ℕ → Prop} {node : ℕ → Sector} {ent : ℕ → DirEntry}
  {cnt : ℕ} {fs fs' : FsState}

/-- What is observed is what the entries and the inodes say. -/
theorem FsOk.observe (h : FsOk use live node [] ent cnt fs) (name : CString) :
    (∃ i < cnt, Matches ent name i ∧ (∀ k < i, ¬ Matches ent name k) ∧
      observe fs name = .ok (some (inodeLength (node (ent i).sector),
        (List.range (inodeLength (node (ent i).sector)).toNat).map
          fun k => fileByte fs.dev.disk (node (ent i).sector) k))) ∨
    ((∀ i < cnt, ¬ Matches ent name i) ∧ observe fs name = .ok none) := by
  rcases h.filesysOpen name with
    ⟨i, hi, hm, hfirst, f, q, fs1, hrun, h1, -, -, -, hf, o, hdev, -⟩ | ⟨hnone, fs1, hrun, -⟩
  · refine .inl ⟨i, hi, hm, hfirst, ?_⟩
    have hlive := (h1.root.entries i hi hm.1).1
    have hread := h1.fileRead hf hlive o (inodeLength (node (ent i).sector))
    have h0 := (h1.sound.core.tree _ hlive).2.len_nonneg
    have hall : transferred (inodeLength (node (ent i).sector))
        (inodeLength (node (ent i).sector)).toNat 0 =
        (inodeLength (node (ent i).sector)).toNat := by
      unfold transferred
      omega
    simp only [hall, Nat.zero_add, hdev] at hread
    simp only [Pintos.observe, hrun, ok_bind, h1.fileLength hf o, hread]
    rfl
  · refine .inr ⟨hnone, ?_⟩
    simp only [Pintos.observe, hrun, ok_bind]
    rfl

/-- Two healthy states over the same data show the same. -/
theorem FsOk.observe_eq (h : FsOk use live node [] ent cnt fs)
    (h' : FsOk use live node [] ent cnt fs') (hdev : fs'.dev = fs.dev) (name : CString) :
    Pintos.observe fs' name = Pintos.observe fs name := by
  rcases h.observe name with ⟨i, hi, hm, hfirst, hrun⟩ | ⟨hnone, hrun⟩ <;>
    rcases h'.observe name with ⟨j, hj, hm', hfirst', hrun'⟩ | ⟨hnone', hrun'⟩
  · have e : i = j := by
      rcases Nat.lt_trichotomy i j with hlt | rfl | hlt
      · exact absurd hm (hfirst' i hlt)
      · rfl
      · exact absurd hm' (hfirst j hlt)
    subst e
    rw [hrun, hrun', hdev]
  · exact absurd hm (hnone' i hi)
  · exact absurd hm' (hnone j hj)
  · rw [hrun, hrun']

end

/-- **Persistence.**  Whatever is reached from a formatted device under `StepOk`, shut
down and mounted again, shows the same names, lengths and bytes, and has the same
free map; that the callers have closed their files is not even needed. -/
theorem restart_of_run {dev : Device} (format : FormatOk dev) {junk : ℕ → Bool}
    {fs0 fs : FsState} (hinit : filesysInit dev junk true = .ok fs0) (run : FsStepsOk fs0 fs)
    (junk' : ℕ → Bool) :
    ∃ fs1 fs2, filesysDone fs = .ok fs1 ∧ filesysInit fs1.dev junk' false = .ok fs2 ∧
      SameView fs fs2 := by
  obtain ⟨use, live, node, ent, cnt, h⟩ := healthy_of_run format hinit run
  obtain ⟨fs1, fs2, hdone, -, hmount, h2, hdev, hcnt, hbits⟩ := h.remount junk'
  exact ⟨fs1, fs2, hdone, hmount, fun name => h.observe_eq h2 hdev name, hcnt, hbits⟩

/-- A file that was created, written and closed is there after a restart. -/
theorem restart_of_small_run : ∃ fs0 fs, filesysInit smallDevice (fun _ => false) true = .ok fs0 ∧
    FsStepsOk fs0 fs ∧ AllClosed fs ∧
    ∃ fs1 fs2, filesysDone fs = .ok fs1 ∧ filesysInit fs1.dev (fun _ => true) false = .ok fs2 ∧
      SameView fs fs2 := by
  have hrun : okWith (filesysInit smallDevice (fun _ => false) true) (fun fs =>
      (replay fsStep (fun fs o => FsCall fs o ∧ StepOk fs o) fs
        [.create [0x61] 600 false, .open [0x61], .write 9 (fun _ => 7) 30, .close 9]).any
          fun fs => decide (AllClosed fs)) = true := by
    decide +kernel
  obtain ⟨fs0, hinit, hrun⟩ := okWith_iff.mp hrun
  obtain ⟨fs, hreplay, hclosed⟩ := (Option.any_eq_true _ _).mp hrun
  have run : FsStepsOk fs0 fs := replay_reaches _ hreplay
  exact ⟨fs0, fs, hinit, run, of_decide_eq_true hclosed,
    restart_of_run (by decide) hinit run fun _ => true⟩

/-- Without the condition on writes a restart may not even succeed: the first byte
written to an empty file lands in the inode of the free map, whose length is then 0,
and `free_map_open` panics. -/
theorem restart_fails_after_growth : ¬ ∀ (dev : Device) (junk junk' : ℕ → Bool) (fs0 fs : FsState),
    FormatOk dev → filesysInit dev junk true = .ok fs0 → FsSteps fs0 fs → AllClosed fs →
    ∃ fs1 fs2, filesysDone fs = .ok fs1 ∧ filesysInit fs1.dev junk' false = .ok fs2 ∧
      SameView fs fs2 := by
  intro claim
  have hrun : okWith (filesysInit smallDevice (fun _ => false) true) (fun fs =>
      (replay fsStep FsCall fs
        [.create [0x61] 0 false, .open [0x61], .write 9 (fun _ => 0) 1, .close 9]).any fun fs =>
          decide (AllClosed fs) && okWith (filesysDone fs) fun fs1 =>
            !okWith (filesysInit fs1.dev (fun _ => false) false) fun _ => true) = true := by
    decide +kernel
  obtain ⟨fs0, hinit, hrun⟩ := okWith_iff.mp hrun
  obtain ⟨fs, hreplay, htest⟩ := (Option.any_eq_true _ _).mp hrun
  rw [Bool.and_eq_true] at htest
  obtain ⟨fs1', hdone', hfail⟩ := okWith_iff.mp htest.2
  obtain ⟨fs1, fs2, hdone, hmount, -⟩ := claim smallDevice _ (fun _ => false) fs0 fs (by decide) hinit
    (replay_reaches _ hreplay) (of_decide_eq_true htest.1)
  rw [hdone', Except.ok.injEq] at hdone
  rw [hdone, hmount] at hfail
  simp [okWith] at hfail

end Pintos
