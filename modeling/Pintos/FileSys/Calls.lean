import Pintos.Lib.Runs
import Pintos.FileSys.Format

/-!
# Runs of file system calls

The calls a kernel makes on the mounted file system, as one step function
(`fsStep`), the condition under which each keeps the file system healthy
(`StepOk`), and what follows for runs: from a formatted device on, every state
that calls under that condition lead to is healthy (`healthy_of_run`).
-/

namespace Pintos

open Lib Lib.Block

/-- A call on the file system. -/
inductive FsOp where
  | create (name : CString) (initialSize : ℤ) (isDir : Bool)
  | mkdir (pathName : CString)
  | open (name : CString)
  | write (f : ℕ) (buffer : ℕ → UInt8) (size : ℤ)
  | seek (f : ℕ) (newPos : ℤ)
  | remove (name : CString)
  | close (f : ℕ)

/-- The state a call leaves. -/
def fsStep (fs : FsState) : FsOp → Except Fault FsState
  | .create name initialSize isDir => do
      let (_, fs) ← filesysCreate fs name initialSize isDir
      return fs
  | .mkdir pathName => do
      let (_, fs) ← filesysMkdir fs pathName
      return fs
  | .open name => do
      let (_, fs) ← filesysOpen fs name
      return fs
  | .write f buffer size => do
      let (_, fs) ← fileWrite fs f buffer size
      return fs
  | .seek f newPos => fileSeek fs f newPos
  | .remove name => do
      let (_, fs) ← filesysRemove fs name
      return fs
  | .close f => fileClose fs f

/-- The calls a caller can make: names are strings, and `free_map_file` is not a file
the caller has. -/
def FsCall (fs : FsState) : FsOp → Prop
  | .create name _ _ => ∀ c ∈ name, c ≠ 0
  | .mkdir pathName => ∀ c ∈ pathName, c ≠ 0
  | .open name => ∀ c ∈ name, c ≠ 0
  | .write f _ _ => fs.freeMapFile ≠ some f
  | .seek f _ => fs.freeMapFile ≠ some f
  | .remove name => ∀ c ∈ name, c ≠ 0
  | .close f => fs.freeMapFile ≠ some f

/-- The condition on a call in the state it is made in. -/
def StepOk (fs : FsState) : FsOp → Prop
  | .create _ initialSize _ => CreateOk fs initialSize
  | .mkdir _ => CreateOk fs 0
  | .open _ => True
  | .write f _ size => WriteOk fs f size
  | .seek _ _ => True
  | .remove name => RemoveOk fs name
  | .close f => FileCloseOk fs f

instance (fs : FsState) : (o : FsOp) → Decidable (FsCall fs o)
  | .create name _ _ => inferInstanceAs (Decidable (∀ c ∈ name, c ≠ 0))
  | .mkdir pathName => inferInstanceAs (Decidable (∀ c ∈ pathName, c ≠ 0))
  | .open name => inferInstanceAs (Decidable (∀ c ∈ name, c ≠ 0))
  | .write f _ _ => inferInstanceAs (Decidable (fs.freeMapFile ≠ some f))
  | .seek f _ => inferInstanceAs (Decidable (fs.freeMapFile ≠ some f))
  | .remove name => inferInstanceAs (Decidable (∀ c ∈ name, c ≠ 0))
  | .close f => inferInstanceAs (Decidable (fs.freeMapFile ≠ some f))

instance (fs : FsState) : (o : FsOp) → Decidable (StepOk fs o)
  | .create _ initialSize _ => inferInstanceAs (Decidable (CreateOk fs initialSize))
  | .mkdir _ => inferInstanceAs (Decidable (CreateOk fs 0))
  | .open _ => inferInstanceAs (Decidable True)
  | .write f _ size => inferInstanceAs (Decidable (WriteOk fs f size))
  | .seek _ _ => inferInstanceAs (Decidable True)
  | .remove name => inferInstanceAs (Decidable (RemoveOk fs name))
  | .close f => inferInstanceAs (Decidable (FileCloseOk fs f))

/-- Some ghost data makes the state healthy. -/
def Healthy (fs : FsState) : Prop := ∃ use live node ent cnt, FsOk use live node [] ent cnt fs

/-- Following a file pointer that leads nowhere is a fault. -/
theorem file_of_ok {fs : FsState} {f : ℕ} {α : Type} {k : File → Except Fault α} {a : α}
    (h : (fs.file f >>= k) = .ok a) : ∃ file, fs.files f = some file := by
  cases e : fs.files f with
  | some file => exact ⟨file, rfl⟩
  | none =>
      simp only [FsState.file, e] at h
      cases h

section

variable {use : ℕ → Option Use} {live : ℕ → Prop} {node : ℕ → Sector} {ent : ℕ → DirEntry}
  {cnt : ℕ} {fs fs' : FsState} {o : FsOp}

/-- **One call** under its condition keeps the file system healthy, and what the root
directory owns stays its own. -/
theorem FsOk.step (h : FsOk use live node [] ent cnt fs) (call : FsCall fs o) (ok : StepOk fs o)
    (hrun : fsStep fs o = .ok fs') :
    ∃ use' live' node' ent' cnt', FsOk use' live' node' [] ent' cnt' fs' ∧
      KeepsUse use use' rootDirSector := by
  cases o with
  | create name size isDir =>
      obtain ⟨success, use', live', node', ent', cnt', fs1, hrun1, h1, -, -, owned⟩ :=
        h.filesysCreate call ok isDir
      simp only [fsStep, hrun1, ok_bind] at hrun
      cases hrun
      exact ⟨_, _, _, _, _, h1, owned⟩
  | mkdir pathName =>
      obtain ⟨success, use', live', node', ent', cnt', fs1, hrun1, h1, -, -, owned⟩ :=
        h.filesysCreate call ok true
      simp only [fsStep, filesysMkdir, hrun1, ok_bind] at hrun
      cases hrun
      exact ⟨_, _, _, _, _, h1, owned⟩
  | «open» name =>
      rcases h.filesysOpen name with ⟨i, -, -, -, f, q, fs1, hrun1, h1, -⟩ | ⟨-, fs1, hrun1, h1, -⟩ <;>
        simp only [fsStep, hrun1, ok_bind] at hrun <;> cases hrun <;>
        exact ⟨_, _, _, _, _, h1, .refl _ _⟩
  | write f buffer size =>
      have hrun' := hrun
      simp only [fsStep, Pintos.fileWrite, bind_assoc] at hrun'
      obtain ⟨file, hf⟩ := file_of_ok hrun'
      obtain ⟨n, use', node', fs1, hrun1, h1, -, -, owned⟩ := h.fileWrite hf call buffer ok
      simp only [fsStep, hrun1, ok_bind] at hrun
      cases hrun
      exact ⟨_, _, _, _, _, h1, owned⟩
  | seek f newPos =>
      obtain ⟨file, hf⟩ := file_of_ok hrun
      by_cases h0 : newPos < 0
      · simp only [fsStep, Pintos.fileSeek, FsState.file_ok hf, ok_bind, if_pos h0] at hrun
        cases hrun
      · obtain ⟨hrun1, h1⟩ := h.fileSeek hf call (not_lt.mp h0)
        simp only [fsStep, hrun1] at hrun
        cases hrun
        exact ⟨_, _, _, _, _, h1, .refl _ _⟩
  | remove name =>
      obtain ⟨success, use', live', node', ent', cnt', fs1, hrun1, h1, -, -, owned⟩ :=
        h.filesysRemove ok
      simp only [fsStep, hrun1, ok_bind] at hrun
      cases hrun
      exact ⟨_, _, _, _, _, h1, owned⟩
  | close f =>
      have hrun' := hrun
      simp only [fsStep, Pintos.fileClose, Pintos.fileAllowWrite, bind_assoc] at hrun'
      obtain ⟨file, hf⟩ := file_of_ok hrun'
      obtain ⟨use', live', fs1, hrun1, h1, -, -, owned⟩ := h.fileClose hf call ok
      simp only [fsStep, hrun1] at hrun
      cases hrun
      exact ⟨_, _, _, _, _, h1, owned⟩

/-- The steps of callers. -/
abbrev FsSteps : FsState → FsState → Prop := Reaches (OpStep fsStep FsCall)

/-- The steps of callers that meet `StepOk`. -/
abbrev FsStepsOk : FsState → FsState → Prop :=
  Reaches (OpStep fsStep fun fs o => FsCall fs o ∧ StepOk fs o)

/-- **Runs of callers**, from any healthy state on. -/
theorem FsOk.steps (h : FsOk use live node [] ent cnt fs) (run : FsStepsOk fs fs') :
    ∃ use' live' node' ent' cnt', FsOk use' live' node' [] ent' cnt' fs' ∧
      KeepsUse use use' rootDirSector := by
  induction run with
  | refl => exact ⟨_, _, _, _, _, h, .refl _ _⟩
  | tail _ hstep ih =>
      obtain ⟨use1, live1, node1, ent1, cnt1, h1, owned1⟩ := ih
      obtain ⟨o, ⟨call, ok⟩, hrun⟩ := hstep
      obtain ⟨use2, live2, node2, ent2, cnt2, h2, owned2⟩ := h1.step call ok hrun
      exact ⟨_, _, _, _, _, h2, owned1.trans owned2⟩

/-- **Runs.**  What is reached from a formatted device under `StepOk` is healthy. -/
theorem healthy_of_run {dev : Device} (format : FormatOk dev) {junk : ℕ → Bool} {fs0 fs : FsState}
    (hinit : filesysInit dev junk true = .ok fs0) (run : FsStepsOk fs0 fs) : Healthy fs := by
  obtain ⟨fs1, use, live, node, ent, cnt, hrun, h⟩ := filesysInit_format format junk
  rw [hinit, Except.ok.injEq] at hrun
  subst hrun
  obtain ⟨_, _, _, _, _, h', -⟩ := h.steps run
  exact ⟨_, _, _, _, _, h'⟩

end

end Pintos
