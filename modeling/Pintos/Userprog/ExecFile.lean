import Pintos.FileSys.OpenTableFrame

/-!
# The executable of a process

A child that loads its executable, runs and exits, and its parent that waits for it, on top
of the table of open files of `Pintos.FileSys.OpenTable`.  The parts of `userprog/process.c`
that count here:

* `load` opens the executable and at its end denies writes to it, whether it succeeds or not;
* `process_exit` ups `sema_dead` and then closes the executable;
* `process_wait` takes the child off the list of children, downs `sema_dead` and returns the
  child's status.

Every call on the table is one step; the threads may be switched between any two steps.
Other threads, and the child when it is not in `load` or `process_exit`, may make any call
with what they hold, which is never the executable's `struct file`: the pointer to it is
only in a variable of `load` and in `exec_file`.

* **`protected_of_run`** — if the child is not switched out between `sema_up` and
  `file_close`, the denial is over when `process_wait` returns.
* **`wait_returns_early`** — a switch there lets the parent return while writes are denied.
-/

namespace Pintos.ExecFile

open Lib OpenTable

variable {δ : Type}

/-! ## The two processes -/

/-- Where the child is. -/
inductive Child where
  /-- Before `filesys_open` in `load`. -/
  | starting
  /-- In `load`, with its variable `file`. -/
  | loading (file : Option ℕ)
  /-- After `load`. -/
  | running
  /-- In `process_exit`, between `sema_up` and `file_close`. -/
  | dying
  /-- After `file_close`. -/
  | closed
deriving DecidableEq, Repr

/-- Where the parent is. -/
inductive Parent where
  | running
  /-- In `sema_down (&sema_dead)`. -/
  | waiting
  /-- `process_wait` has returned this status. -/
  | returned (status : ℤ)
deriving DecidableEq, Repr

/-- The system. -/
structure State (δ : Type) where
  sys : Sys δ
  child : Child
  /-- `exec_file` of the child. -/
  execFile : Option ℕ
  /-- `sema_dead` and `exit_status` of the child's `child_info`. -/
  semaDead : ℕ
  exitStatus : ℤ
  parent : Parent

/-- A step. -/
inductive Event where
  /-- A call on the table, by any thread. -/
  | call (op : TableOp)
  /-- `load` gives up before it opens the executable. -/
  | loadFails
  /-- `filesys_open` in `load`. -/
  | openExecutable (name : CString)
  /-- The end of `load`. -/
  | endLoad
  /-- `exit_status` stores the status. -/
  | setStatus (status : ℤ)
  /-- `sema_up` in `process_exit`. -/
  | signalDeath
  /-- `file_close` in `process_exit`. -/
  | closeExecutable
  /-- `process_wait` finds the child. -/
  | wait
  /-- `sema_down` in `process_wait` returns. -/
  | waitReturns

/-- After `thread_create`. -/
def State.init (sys : Sys δ) : State δ := ⟨sys, .starting, none, 0, -1, .running⟩

/-- What a call returned. -/
def returned {ε σ α : Type} : EStateM.Result ε σ (Option α) → Option α
  | .ok a _ => a
  | .error _ _ => none

variable (L : DataLayer δ)

/-- `file_deny_write` at the end of `load`, if there is a file. -/
def denyExecutable (u : Sys δ) : Option ℕ → Sys δ
  | some f => u.after L (.fileDenyWrite f)
  | none => u

/-- `file_close (exec_file)`. -/
def closeExecFile (u : Sys δ) : Option ℕ → Sys δ
  | some f => u.after L (.fileClose f)
  | none => u

/-- The variable `file` of `load`. -/
def Child.file : Child → Option ℕ
  | .loading file => file
  | _ => none

/-- The effect of a step. -/
def State.after (s : State δ) : Event → State δ
  | .call op => { s with sys := s.sys.after L op }
  | .loadFails => { s with child := .loading none }
  | .openExecutable name => { s with
      sys := s.sys.after L (.filesysOpen name)
      child := .loading (returned (OpenTable.filesysOpen L name s.sys.table)) }
  | .endLoad => { s with
      sys := denyExecutable L s.sys s.child.file
      child := .running
      execFile := s.child.file }
  | .setStatus status => { s with exitStatus := status }
  | .signalDeath => { s with child := .dying, semaDead := s.semaDead + 1 }
  | .closeExecutable => { s with child := .closed, sys := closeExecFile L s.sys s.execFile }
  | .wait => { s with parent := .waiting }
  | .waitReturns => { s with semaDead := s.semaDead - 1, parent := .returned s.exitStatus }

/-- Which steps can be taken. -/
def State.Allowed (s : State δ) : Event → Prop
  | .call op => s.sys.Allowed op ∧ ∀ f, s.child.file = some f ∨ s.execFile = some f →
      op.file? ≠ some f
  | .loadFails => s.child = .starting
  | .openExecutable _ => s.child = .starting
  | .endLoad => ∃ file, s.child = .loading file
  | .setStatus _ => s.child = .running
  | .signalDeath => s.child = .running
  | .closeExecutable => s.child = .dying
  | .wait => s.parent = .running
  | .waitReturns => s.parent = .waiting ∧ 0 < s.semaDead

/-- The child is not switched out between `sema_up` and `file_close`. -/
def State.NoSwitch (s : State δ) (e : Event) : Prop := s.child = .dying → e = .closeExecutable

/-! ## Protection of the executable -/

/-- The file denies writes. -/
def Denies (t : Table δ) (f : ℕ) : Prop := ∃ file, t.files f = some file ∧ file.denyWrite = true

/-- **What the denial is for.** -/
structure Protected (s : State δ) : Prop where
  /-- Once `process_wait` has returned, the child does not deny writes any more. -/
  given : ∀ status, s.parent = .returned status → ∀ f, s.execFile = some f →
    ¬ Denies s.sys.table f
  /-- A write that is refused then is refused for another open file. -/
  others : ∀ status, s.parent = .returned status → ∀ p ino, s.sys.table.inodes p = some ino →
    ino.denyWriteCnt ≠ 0 →
    ∃ g, s.execFile ≠ some g ∧ ∃ file, s.sys.table.files g = some file ∧ file.inode = p ∧
      file.denyWrite = true
  /-- From the end of `load` until `process_exit` no write to the executable succeeds. -/
  refused : s.child = .running → ∀ f, s.execFile = some f → ∃ file,
    s.sys.table.files f = some file ∧ ∀ buffer offset,
      OpenTable.inodeWriteAt L file.inode buffer offset s.sys.table = .ok 0 s.sys.table

variable {L}

/-- What holds of the child's file in each phase. -/
def FileOk (t : Table δ) (execFile : Option ℕ) : Child → Prop
  | .starting => execFile = none
  | .loading file => execFile = none ∧ ∀ f, file = some f → t.files f ≠ none
  | .running | .dying => ∀ f, execFile = some f → Denies t f
  | .closed => ∀ f, execFile = some f → f < t.nextAddr ∧ t.files f = none

/-- The parent does not return before the executable is closed. -/
structure ParentOk (s : State δ) : Prop where
  early : s.child ≠ .dying → s.child ≠ .closed → s.semaDead = 0
  late : ∀ status, s.parent = .returned status → s.child = .closed

/-- The invariant. -/
structure Ok (s : State δ) : Prop where
  sys : s.sys.Ok
  file : s.sys.stopped = none → FileOk s.sys.table s.execFile s.child
  parent : ParentOk s

section Steps

variable {t t' : Table δ} {u : Sys δ} {s : State δ} {f : ℕ}

theorem Denies.leaves (hf : f < t.nextAddr) (h : LeavesFile f t t') (hd : Denies t f) :
    Denies t' f := by
  obtain ⟨file, e, hdeny⟩ := hd
  exact ⟨file, (h.2 hf).trans e, hdeny⟩

/-- Nobody else touches the file of the child. -/
theorem FileOk.leaves {execFile : Option ℕ} {c : Child} (hfresh : Fresh t)
    (h : ∀ f, c.file = some f ∨ execFile = some f → LeavesFile f t t')
    (hc : FileOk t execFile c) : FileOk t' execFile c := by
  have hlt : ∀ f, t.files f ≠ none → f < t.nextAddr := by
    intro f hf
    by_contra hge
    exact hf (hfresh.files f (not_lt.mp hge))
  have hdenies : ∀ f, execFile = some f → Denies t f → Denies t' f := by
    intro f hf hd
    obtain ⟨file, e, -⟩ := id hd
    exact hd.leaves (hlt f (by simp [e])) (h f (.inr hf))
  cases c with
  | starting => exact hc
  | loading file =>
      refine ⟨hc.1, fun f hf => ?_⟩
      have hopen := hc.2 f hf
      rwa [(h f (.inl hf)).2 (hlt f hopen)]
  | running => exact fun f hf => hdenies f hf (hc f hf)
  | dying => exact fun f hf => hdenies f hf (hc f hf)
  | closed =>
      intro f hf
      obtain ⟨hlt, hnone⟩ := hc f hf
      have hl := h f (.inr hf)
      exact ⟨hlt.trans_le hl.1, (hl.2 hlt).trans hnone⟩

/-- A kernel that has not stopped by now was running before. -/
theorem running_of_after {op : TableOp} (h : (u.after L op).stopped = none) : u.stopped = none := by
  rw [Sys.after] at h
  split at h
  · exact h
  · next hu => simpa using hu

theorem accounted_of_ok (h : u.Ok) (hu : u.stopped = none) : Accounted u.held u.table := by
  rcases h with ⟨-, ha⟩ | hd
  · exact ha
  · rw [hu] at hd
    cases hd

theorem after_of_running (hu : u.stopped = none) (op : TableOp) : u.after L op = u.call L op := by
  rw [Sys.after, hu, if_neg (by simp)]

/-- What a call leaves, if the kernel goes on. -/
theorem ends_of_running {α : Type} {held : α → Held} {r : EStateM.Result TableStop (Table δ) α}
    {Q : α → Table δ → Prop} (h : Ends r Q Stops) (hr : (u.ended held r).stopped = none) :
    ∃ a, r = .ok a (u.ended held r).table ∧ Q a (u.ended held r).table := by
  cases r with
  | ok a t => exact ⟨a, rfl, h⟩
  | error e t => cases hr

/-- `filesys_open` returns no file that is not open. -/
theorem filesysOpen_file (hok : u.Ok) (name : CString) (h : (u.after L (.filesysOpen name)).stopped = none)
    (hf : returned (OpenTable.filesysOpen L name u.table) = some f) :
    (u.after L (.filesysOpen name)).table.files f ≠ none := by
  have hu := running_of_after h
  rw [after_of_running hu] at h ⊢
  obtain ⟨r, hr, ha⟩ := ends_of_running ((accounted_of_ok hok hu).filesysOpen name) h
  rw [hr] at hf
  refine (ha.file f).mpr ?_
  rw [show r = some f from hf]
  exact List.mem_cons_self

/-- `file_deny_write` at the end of `load`. -/
theorem denies_after (hok : u.Ok) (hopen : u.table.files f ≠ none)
    (h : (u.after L (.fileDenyWrite f)).stopped = none) :
    Denies (u.after L (.fileDenyWrite f)).table f := by
  have hu := running_of_after h
  rw [after_of_running hu] at h ⊢
  obtain ⟨file, hf⟩ := Option.ne_none_iff_exists'.mp hopen
  obtain ⟨-, -, hflag⟩ := ends_of_running ((accounted_of_ok hok hu).fileDenyWrite hf) h
  exact ⟨_, hflag.file, rfl⟩

/-- `file_close` in `process_exit`. -/
theorem closed_after (hok : u.Ok) (hd : Denies u.table f)
    (h : (u.after L (.fileClose f)).stopped = none) :
    f < (u.after L (.fileClose f)).table.nextAddr ∧ (u.after L (.fileClose f)).table.files f = none := by
  have hu := running_of_after h
  obtain ⟨file, hf, -⟩ := hd
  have ha := accounted_of_ok hok hu
  -- The call names only `f`, so any other file shows that addresses grow.
  have hnext : u.table.nextAddr ≤ (u.after L (.fileClose f)).table.nextAddr :=
    (Sys.leavesFile_after (f := f + 1) u (.fileClose f) (by simp [TableOp.file?])).1
  refine ⟨(ha.file_lt hf).trans_le hnext, ?_⟩
  rw [after_of_running hu] at h ⊢
  obtain ⟨-, -, -, hnone⟩ := ends_of_running (ha.fileClose hf) h
  exact hnone

/-- The table is kept in order by the child too. -/
theorem sysOk_after (h : Ok s) (e : Event) (he : s.Allowed e) : (s.after L e).sys.Ok := by
  have hstep : ∀ op, (s.sys.stopped = none → s.sys.Allowed op) → (s.sys.after L op).Ok := by
    intro op hop
    rcases h.sys with ⟨hu, ha⟩ | hd
    · exact h.sys.step op (hop hu)
    · rw [Sys.after, if_pos (by simp [hd])]
      exact .inr hd
  -- only three of the events are calls on files
  cases e with
  | call op => exact hstep op fun _ => he.1
  | loadFails => exact h.sys
  | openExecutable name => exact hstep _ fun _ => trivial
  | endLoad =>
      obtain ⟨file, hc⟩ := he
      show (denyExecutable L s.sys s.child.file).Ok
      rw [hc]
      cases file with
      | none => exact h.sys
      | some f =>
          refine hstep _ fun hu => ?_
          have hf := h.file hu
          rw [hc] at hf
          exact ((accounted_of_ok h.sys hu).file f).mp (hf.2 f rfl)
  | setStatus status => exact h.sys
  | signalDeath => exact h.sys
  | closeExecutable =>
      show (closeExecFile L s.sys s.execFile).Ok
      cases hx : s.execFile with
      | none => exact h.sys
      | some f =>
          refine hstep _ fun hu => ?_
          have hf := h.file hu
          have hc : s.child = .dying := he
          rw [hc] at hf
          obtain ⟨file, hopen, -⟩ := hf f hx
          refine ((accounted_of_ok h.sys hu).file f).mp ?_
          rw [hopen]
          exact Option.some_ne_none file
  | wait => exact h.sys
  | waitReturns => exact h.sys

/-- The file of the child. -/
theorem fileOk_after (h : Ok s) (e : Event) (he : s.Allowed e)
    (hrun : (s.after L e).sys.stopped = none) :
    FileOk (s.after L e).sys.table (s.after L e).execFile (s.after L e).child := by
  cases e with
  | call op =>
      have hu : s.sys.stopped = none := running_of_after hrun
      refine (h.file hu).leaves (accounted_of_ok h.sys hu).toFresh fun f hf => ?_
      exact Sys.leavesFile_after s.sys op (he.2 f hf)
  | loadFails =>
      have hf := h.file hrun
      have hc : s.child = .starting := he
      rw [hc] at hf
      exact ⟨hf, fun f hnone => by cases hnone⟩
  | openExecutable name =>
      have hu : s.sys.stopped = none := running_of_after hrun
      have hf := h.file hu
      have hc : s.child = .starting := he
      rw [hc] at hf
      exact ⟨hf, fun f hr => filesysOpen_file h.sys name hrun hr⟩
  | endLoad =>
      obtain ⟨file, hc⟩ := he
      intro f hf
      have hfile : file = some f := by
        rw [State.after, hc] at hf
        exact hf
      rw [State.after, hc, hfile] at hrun ⊢
      have hok := h.file (running_of_after hrun)
      rw [hc] at hok
      exact denies_after h.sys (hok.2 f hfile) hrun
  | setStatus status => exact h.file hrun
  | signalDeath =>
      have hf := h.file hrun
      have hc : s.child = .running := he
      rw [hc] at hf
      exact hf
  | closeExecutable =>
      intro f hf
      have hx : s.execFile = some f := hf
      have hc : s.child = .dying := he
      rw [State.after, hx] at hrun ⊢
      have hok := h.file (running_of_after hrun)
      rw [hc] at hok
      exact closed_after h.sys (hok f hx) hrun
  | wait => exact h.file hrun
  | waitReturns => exact h.file hrun

/-- **The parent returns only when the executable is closed**, if the child is not switched
out before that. -/
theorem parentOk_after (h : Ok s) (e : Event) (he : s.Allowed e) (hns : s.NoSwitch e) :
    ParentOk (s.after L e) := by
  have hlate : s.child ≠ .closed → ∀ status, s.parent ≠ .returned status := fun hc status hr =>
    hc (h.parent.late status hr)
  have hearly : s.child = .starting → s.semaDead = 0 := fun hc =>
    h.parent.early (by simp [hc]) (by simp [hc])
  cases e with
  | call op => exact ⟨h.parent.early, h.parent.late⟩
  | loadFails =>
      have hc : s.child = .starting := he
      exact ⟨fun _ _ => hearly hc, fun status hr => absurd hr (hlate (by simp [hc]) status)⟩
  | openExecutable name =>
      have hc : s.child = .starting := he
      exact ⟨fun _ _ => hearly hc, fun status hr => absurd hr (hlate (by simp [hc]) status)⟩
  | endLoad =>
      obtain ⟨file, hc⟩ := he
      refine ⟨fun _ _ => h.parent.early (by simp [hc]) (by simp [hc]), fun status hr => ?_⟩
      exact absurd hr (hlate (by simp [hc]) status)
  | setStatus status => exact ⟨h.parent.early, h.parent.late⟩
  | signalDeath =>
      have hc : s.child = .running := he
      exact ⟨fun hd => absurd rfl hd, fun status hr => absurd hr (hlate (by simp [hc]) status)⟩
  | closeExecutable => exact ⟨fun _ hc => absurd rfl hc, fun _ _ => rfl⟩
  | wait => exact ⟨h.parent.early, fun status hr => by cases hr⟩
  | waitReturns =>
      -- `sema_dead` is up, so the child has announced its death, and it was not switched out.
      have hpos : 0 < s.semaDead := he.2
      have hdying : s.child ≠ .dying := fun hc => absurd (hns hc) (by simp)
      have hclosed : s.child = .closed := by
        by_contra hc
        have := h.parent.early hdying hc
        omega
      exact ⟨fun _ hc => absurd hclosed hc, fun _ _ => hclosed⟩

/-- **A step keeps the invariant.** -/
theorem Ok.step (h : Ok s) (e : Event) (he : s.Allowed e) (hns : s.NoSwitch e) :
    Ok (s.after L e) :=
  ⟨sysOk_after h e he, fileOk_after h e he, parentOk_after h e he hns⟩

/-- A file that denies writes has them refused. -/
theorem refused_of_denies (ha : Accounted u.held u.table) (hd : Denies u.table f) :
    ∃ file, u.table.files f = some file ∧ ∀ buffer offset,
      OpenTable.inodeWriteAt L file.inode buffer offset u.table = .ok 0 u.table := by
  obtain ⟨file, hf, hdeny⟩ := hd
  refine ⟨file, hf, (DenyOk.of_accounted ha).refused file.inode ?_ ?_⟩
  · obtain ⟨ino, e⟩ := ha.inv.alive (ha.file_pos hf)
    exact (ha.inv.listed _).mpr (by simp [e])
  · exact tally_pos.mpr ⟨f, ha.file_lt hf, file, hf, by simp [hdeny]⟩

/-- The invariant gives the protection. -/
theorem Ok.protects (h : Ok s) (hu : s.sys.stopped = none) : Protected L s := by
  have ha := accounted_of_ok h.sys hu
  have hclosed : ∀ status, s.parent = .returned status → ∀ f, s.execFile = some f →
      ¬ Denies s.sys.table f := by
    rintro status hr f hx ⟨file, hf, -⟩
    have hfile := h.file hu
    rw [h.parent.late status hr] at hfile
    rw [(hfile f hx).2] at hf
    cases hf
  refine ⟨hclosed, fun status hr p ino hp hne => ?_, fun hc f hx => ?_⟩
  · have hpos : 0 < deniers s.sys.table p := by
      have hcnt := (ha.inv.inode hp).2.2
      rw [hcnt] at hne
      exact Nat.pos_of_ne_zero (by exact_mod_cast hne)
    obtain ⟨g, -, file, hg, hdeny⟩ := tally_pos.mp hpos
    rw [Bool.and_eq_true, beq_iff_eq] at hdeny
    exact ⟨g, fun hx => hclosed status hr g hx ⟨file, hg, hdeny.2⟩, file, hg, hdeny.1, hdeny.2⟩
  · have hfile := h.file hu
    rw [hc] at hfile
    exact refused_of_denies ha (hfile f hx)

end Steps

/-! ## Runs -/

theorem ok_init {u : Sys δ} (h : u.Ok) : Ok (State.init u) :=
  ⟨h, fun _ => rfl, fun _ _ => rfl, fun _ hr => by cases hr⟩

/-- A schedule, of which the table is in a state that calls from outside can lead to. -/
structure Schedule (L : DataLayer δ) (heap : ℕ → Bool) (data : δ) (ops : List TableOp)
    (events : List Event) : Prop where
  before : Along (Sys.after L) Sys.Allowed (.init heap data) ops
  after : Along (State.after L) State.Allowed (.init (ops.foldl (Sys.after L) (.init heap data)))
    events

/-- **The executable is protected in every state**, if the child is never switched out
between `sema_up` and `file_close`. -/
theorem protected_of_run (L : DataLayer δ) (heap : ℕ → Bool) (data : δ) (ops : List TableOp)
    (events : List Event) (schedule : Schedule L heap data ops events)
    (noSwitch : Along (State.after L) State.NoSwitch
      (.init (ops.foldl (Sys.after L) (.init heap data))) events) :
    Always (State.after L) (fun s => s.sys.stopped = none → Protected L s)
      (.init (ops.foldl (Sys.after L) (.init heap data))) events := by
  have hsys : (ops.foldl (Sys.after L) (.init heap data)).Ok :=
    (Sys.ok_of_run heap data ops schedule.before).last
  refine Always.mono (fun s h hu => Ok.protects h hu) events _ ?_
  exact Always.of_along (fun s e h he => h.step e he.1 he.2) events _ (ok_init hsys)
    (Along.and events _ schedule.after noSwitch)

/-- A data layer in which every name leads to the inode in sector 5. -/
def oneFile : DataLayer (ℕ → List UInt8) :=
  { arrayData with lookup := fun _ _ data => some (some (5, [], 0), data) }

/-- The child loads its executable, which is then at address 4, and exits with status 3; the
parent waits and opens the file. -/
theorem protected_of_small_run :
    (Schedule oneFile (fun _ => true) (fun _ => []) []
        [.openExecutable [98], .endLoad, .wait, .setStatus 3, .signalDeath, .closeExecutable,
          .waitReturns, .call (.filesysOpen [98])] ∧
      Along (State.after oneFile) State.NoSwitch (.init (.init (fun _ => true) fun _ => []))
        [.openExecutable [98], .endLoad, .wait, .setStatus 3, .signalDeath, .closeExecutable,
          .waitReturns, .call (.filesysOpen [98])]) ∧
      Always (State.after oneFile) (fun s => s.sys.stopped = none → Protected oneFile s)
        (.init (.init (fun _ => true) fun _ => []))
        [.openExecutable [98], .endLoad, .wait, .setStatus 3, .signalDeath, .closeExecutable,
          .waitReturns, .call (.filesysOpen [98])] := by
  have schedule : Schedule oneFile (fun _ => true) (fun _ => []) []
      [.openExecutable [98], .endLoad, .wait, .setStatus 3, .signalDeath, .closeExecutable,
        .waitReturns, .call (.filesysOpen [98])] :=
    ⟨trivial, rfl, ⟨_, rfl⟩, rfl, rfl, rfl, rfl, ⟨rfl, Nat.one_pos⟩,
      ⟨trivial, fun _ _ => (Option.some_ne_none _).symm⟩, trivial⟩
  have noSwitch : Along (State.after oneFile) State.NoSwitch
      (.init (.init (fun _ => true) fun _ => []))
      [.openExecutable [98], .endLoad, .wait, .setStatus 3, .signalDeath, .closeExecutable,
        .waitReturns, .call (.filesysOpen [98])] := by
    refine ⟨?_, ?_, ?_, ?_, ?_, ?_, ?_, ?_, trivial⟩
    all_goals intro h
    all_goals first | rfl | cases h
  exact ⟨⟨schedule, noSwitch⟩, protected_of_run oneFile _ _ [] _ schedule noSwitch⟩

/-- **The parent returns from `process_wait` between `sema_up` and `file_close`**, and the
dead child still denies writes. -/
theorem wait_returns_early : ¬ ∀ (δ : Type) (L : DataLayer δ) (heap : ℕ → Bool) (data : δ)
    (ops : List TableOp) (events : List Event), Schedule L heap data ops events →
      Always (State.after L) (fun s => s.sys.stopped = none → Protected L s)
        (.init (ops.foldl (Sys.after L) (.init heap data))) events := by
  intro h
  have schedule : Schedule oneFile (fun _ => true) (fun _ => []) []
      [.openExecutable [98], .endLoad, .wait, .setStatus 3, .signalDeath, .waitReturns] :=
    ⟨trivial, rfl, ⟨_, rfl⟩, rfl, rfl, rfl, ⟨rfl, Nat.one_pos⟩, trivial⟩
  have hlast := (h _ oneFile _ _ [] _ schedule).last rfl
  exact hlast.given 3 rfl 4 rfl ⟨_, rfl, rfl⟩

end Pintos.ExecFile
