import Pintos.Shell.Msh

/-!
# The shell between its signals

`eval`, `do_bgfg` and `waitfg` of `Project0/msh.c` statement by statement, with rounds of
`sigchld_handler` at every point where `SIGCHLD` is not blocked.  Children stop, are killed
and exit when they like; a stop is pending until the handler has reported it.

`eval` blocks the signal from before the fork until the job is in the table.  `do_bgfg` does
not block it: it looks a job up and then uses the pointer in several statements.

A call of `addjob` and a round of the handler are one step each.  `kill` may fail, which
ends the shell, and so does the null pointer in the handler.

* **`tracked_iff`** — every child is in the table exactly if there is room for each new one.
* **`untracked_child`** — the seventeenth background job is not in the table.
-/

namespace Pintos.Shell

open Lib

/-! ## The system -/

/-- A child of the shell that has not been reaped. -/
inductive Child where
  | running
  /-- Stopped, and not yet reported by `waitpid`. -/
  | stopping
  /-- Stopped and reported. -/
  | stopped
  | exited
  | signaled
deriving DecidableEq, Repr

/-- What `waitpid` would report. -/
def Child.report : Child → Option Report
  | .running => none
  | .stopping => some .stopped
  | .stopped => none
  | .exited => some .exited
  | .signaled => some .signaled

/-- A child once it has been reported; a zombie is gone. -/
def Child.reported : Child → Option Child
  | .stopping => some .stopped
  | .exited => none
  | .signaled => none
  | c => some c

/-- A child after `SIGCONT`. -/
def Child.continued : Child → Child
  | .stopping => .running
  | .stopped => .running
  | c => c

/-- Where the shell is. -/
inductive Phase where
  /-- Before the next command. -/
  | idle
  /-- `eval`, after `fork`. -/
  | forked (bg : Bool) (pid : ℤ) (cmdline : List UInt8)
  /-- `eval`, after `addjob`. -/
  | added (bg : Bool) (pid : ℤ)
  /-- `eval`, with `SIGCHLD` unblocked again. -/
  | unblocked (bg : Bool) (pid : ℤ)
  /-- `do_bgfg`, with `currentJob`. -/
  | looked (fg : Bool) (i : ℕ)
  /-- `bg`, after `kill`. -/
  | resumedBg (i : ℕ)
  /-- `fg`, after the state has been set. -/
  | setFg (i : ℕ)
  /-- `fg`, after `kill`. -/
  | resumedFg (i : ℕ)
  /-- In `waitfg`. -/
  | waiting (pid : ℤ)
deriving DecidableEq, Repr

/-- How the shell may end. -/
inductive End where
  /-- `unix_error`. -/
  | exited
  /-- The null pointer in `sigchld_handler`. -/
  | crashed
deriving DecidableEq, Repr

/-- The shell. -/
structure Msh where
  jobs : Jobs
  children : ℤ → Option Child
  phase : Phase
  ended : Option End

def Msh.init : Msh := ⟨initjobs, fun _ => none, .idle, none⟩

/-- The job `do_bgfg` has a pointer to. -/
def Phase.currentJob : Phase → Option ℕ
  | .looked _ i => some i
  | .resumedBg i => some i
  | .setFg i => some i
  | .resumedFg i => some i
  | _ => none

/-- `SIGCHLD` is blocked. -/
def Phase.blocked : Phase → Bool
  | .forked _ _ _ => true
  | .added _ _ => true
  | _ => false

/-- A step. -/
inductive Event where
  /-- A child stops, exits or is killed, or somebody else continues it. -/
  | child (pid : ℤ) (c : Child)
  /-- A round of the handler. -/
  | handle (pid : ℤ)
  /-- `Fork` in `eval`. -/
  | fork (bg : Bool) (pid : ℤ) (cmdline : List UInt8)
  /-- `addjob` in `eval`. -/
  | addjob
  /-- `sigprocmask (SIG_UNBLOCK, …)` in `eval`. -/
  | unblock
  /-- The end of `eval`: `waitfg`, or the line for a background job. -/
  | finish
  /-- The lookup in `do_bgfg`, by pid or by job id. -/
  | lookupPid (fg : Bool) (pid : ℤ)
  | lookupJid (fg : Bool) (jid : ℤ)
  /-- `kill (-(currentJob->pid), SIGCONT)`, and its result. -/
  | kill (ok : Bool)
  /-- `currentJob->state = 2`. -/
  | setBg
  /-- `currentJob->state = 1`. -/
  | setFg
  /-- `waitfg (currentJob->pid)`. -/
  | enterWait
  /-- The loop of `waitfg` ends. -/
  | leaveWait

/-- The pointer of `do_bgfg`, if it is not null. -/
def Msh.look (s : Msh) (fg : Bool) : Option ℕ → Msh
  | some i => { s with phase := .looked fg i }
  | none => s

/-- A round of the handler for a child with something to report. -/
def Msh.handle (s : Msh) (pid : ℤ) (c : Child) (status : Report) : Msh :=
  match handleChild s.jobs pid status with
  | some (_, jobs) => { s with jobs, children := Function.update s.children pid c.reported }
  | none => { s with ended := some .crashed }

/-- `SIGCONT` to the process group of a job. -/
def Msh.continueChild (s : Msh) (pid : ℤ) : Msh :=
  { s with children := Function.update s.children pid ((s.children pid).map Child.continued) }

/-- The effect of a step. -/
def Msh.step (s : Msh) : Event → Msh
  | .child pid c => { s with children := Function.update s.children pid (some c) }
  | .handle pid =>
      match s.children pid with
      | some c =>
          match c.report with
          | some status => s.handle pid c status
          | none => s
      | none => s
  -- `SIGCHLD` is blocked from here to `unblock`
  | .fork bg pid cmdline => { s with
      children := Function.update s.children pid (some .running)
      phase := .forked bg pid cmdline }
  | .addjob =>
      match s.phase with
      | .forked bg pid cmdline => { s with
          jobs := (Shell.addjob s.jobs pid (if bg then .bg else .fg) cmdline).2
          phase := .added bg pid }
      | _ => s
  | .unblock =>
      match s.phase with
      | .added bg pid => { s with phase := .unblocked bg pid }
      | _ => s
  | .finish =>
      match s.phase with
      | .unblocked bg pid => { s with phase := if bg then .idle else .waiting pid }
      | _ => s
  | .lookupPid fg pid => s.look fg (getjobpid s.jobs pid)
  | .lookupJid fg jid => s.look fg (getjobjid s.jobs jid)
  | .kill ok =>
      if ok then
        match s.phase with
        | .looked false i => { s.continueChild (s.jobs.job i).pid with phase := .resumedBg i }
        | .setFg i => { s.continueChild (s.jobs.job i).pid with phase := .resumedFg i }
        | _ => s
      -- `unix_error`
      else { s with ended := some .exited }
  | .setBg =>
      match s.phase with
      | .resumedBg i => { s with jobs := s.jobs.setState i .bg, phase := .idle }
      | _ => s
  | .setFg =>
      match s.phase with
      | .looked true i => { s with jobs := s.jobs.setState i .fg, phase := .setFg i }
      | _ => s
  | .enterWait =>
      match s.phase with
      | .resumedFg i => { s with phase := .waiting (s.jobs.job i).pid }
      | _ => s
  | .leaveWait => { s with phase := .idle }

/-- A shell that has ended does nothing more. -/
def Msh.after (s : Msh) (e : Event) : Msh := if s.ended.isSome then s else s.step e

/-- Which steps can be taken. -/
def Msh.Allowed (s : Msh) : Event → Prop
  | .child pid c => ∃ c', s.children pid = some c' ∧ c'.report ≠ some .exited ∧
      c'.report ≠ some .signaled ∧ (c = .stopped → c' = .stopped)
  | .handle pid => s.phase.blocked = false ∧ ∃ c status, s.children pid = some c ∧
      c.report = some status
  | .fork _ pid _ => s.phase = .idle ∧ 1 ≤ pid ∧ s.children pid = none
  | .addjob => ∃ bg pid cmdline, s.phase = .forked bg pid cmdline
  | .unblock => ∃ bg pid, s.phase = .added bg pid
  | .finish => ∃ bg pid, s.phase = .unblocked bg pid
  | .lookupPid _ _ => s.phase = .idle
  | .lookupJid _ _ => s.phase = .idle
  | .kill _ => ∃ i, s.phase = .looked false i ∨ s.phase = .setFg i
  | .setBg => ∃ i, s.phase = .resumedBg i
  | .setFg => ∃ i, s.phase = .looked true i
  | .enterWait => ∃ i, s.phase = .resumedFg i
  | .leaveWait => ∃ pid, s.phase = .waiting pid ∧ pid ≠ fgpid s.jobs

/-! ## Steps that move no process -/

section Quiet

variable {s s' : Msh} {t t' : Jobs} {pid q : ℤ} {i : ℕ}

/-- No job, no child comes or goes, and `eval` does not get to or past `addjob`. -/
structure Quiet (s s' : Msh) : Prop where
  pids : ∀ k, (s'.jobs.job k).pid = (s.jobs.job k).pid
  children : ∀ pid, s'.children pid = none ↔ s.children pid = none
  forked : ∀ bg pid cmdline, s'.phase = .forked bg pid cmdline ↔ s.phase = .forked bg pid cmdline
  alive : s'.ended ≠ some .crashed

/-- Neither before nor after the step is a child without a job. -/
theorem Quiet.of_phase (hpids : ∀ k, (s'.jobs.job k).pid = (s.jobs.job k).pid)
    (hchildren : ∀ pid, s'.children pid = none ↔ s.children pid = none)
    (hf : ∀ bg pid cmdline, s.phase ≠ .forked bg pid cmdline)
    (hf' : ∀ bg pid cmdline, s'.phase ≠ .forked bg pid cmdline)
    (halive : s'.ended ≠ some .crashed) : Quiet s s' :=
  ⟨hpids, hchildren, fun bg pid cmdline => iff_of_false (hf' bg pid cmdline) (hf bg pid cmdline), halive⟩

/-- The steps that are not quiet. -/
def Event.Moves : Event → Prop
  | .handle _ => True
  | .fork _ _ _ => True
  | .addjob => True
  | _ => False

theorem continueChild_none (s : Msh) (pid q : ℤ) :
    (s.continueChild pid).children q = none ↔ s.children q = none := by
  by_cases e : q = pid
  · subst e
    simp [Msh.continueChild]
  · simp [Msh.continueChild, Function.update_of_ne e]

/-- **All other steps are quiet.** -/
theorem quiet_step (hend : s.ended = none) (e : Event) (he : s.Allowed e) (hq : ¬ e.Moves) :
    Quiet s (s.step e) := by
  have hno : s.ended ≠ some .crashed := by simp [hend]
  cases e with
  | child pid c =>
      obtain ⟨c', hc', -⟩ := he
      refine ⟨fun _ => rfl, fun q => ?_, fun _ _ _ => Iff.rfl, hno⟩
      by_cases e : q = pid
      · subst e
        simp [Msh.step, hc']
      · simp [Msh.step, Function.update_of_ne e]
  | handle pid => exact absurd trivial hq
  | fork bg pid cmdline => exact absurd trivial hq
  | addjob => exact absurd trivial hq
  | unblock =>
      obtain ⟨bg, pid, hphase⟩ := he
      rw [Msh.step, hphase]
      exact .of_phase (fun _ => rfl) (fun _ => Iff.rfl) (by simp [hphase]) (by simp) hno
  | finish =>
      obtain ⟨bg, pid, hphase⟩ := he
      rw [Msh.step, hphase]
      refine .of_phase (fun _ => rfl) (fun _ => Iff.rfl) (by simp [hphase]) ?_ hno
      cases bg <;> simp
  | lookupPid fg pid =>
      have hidle : s.phase = .idle := he
      rw [Msh.step]
      cases getjobpid s.jobs pid with
      | none => exact ⟨fun _ => rfl, fun _ => Iff.rfl, fun _ _ _ => Iff.rfl, hno⟩
      | some i =>
          exact .of_phase (fun _ => rfl) (fun _ => Iff.rfl) (by simp [hidle]) (by simp [Msh.look]) hno
  | lookupJid fg jid =>
      have hidle : s.phase = .idle := he
      rw [Msh.step]
      cases getjobjid s.jobs jid with
      | none => exact ⟨fun _ => rfl, fun _ => Iff.rfl, fun _ _ _ => Iff.rfl, hno⟩
      | some i =>
          exact .of_phase (fun _ => rfl) (fun _ => Iff.rfl) (by simp [hidle]) (by simp [Msh.look]) hno
  | kill ok =>
      obtain ⟨i, hphase⟩ := he
      rw [Msh.step]
      cases ok with
      | false => exact ⟨fun _ => rfl, fun _ => Iff.rfl, fun _ _ _ => Iff.rfl, by simp⟩
      | true =>
          rcases hphase with hphase | hphase
          · rw [hphase]
            exact .of_phase (fun _ => rfl) (continueChild_none s _) (by simp [hphase]) (by simp) hno
          · rw [hphase]
            exact .of_phase (fun _ => rfl) (continueChild_none s _) (by simp [hphase]) (by simp) hno
  | setBg =>
      obtain ⟨i, hphase⟩ := he
      rw [Msh.step, hphase]
      exact .of_phase (setState_pid s.jobs i .bg) (fun _ => Iff.rfl) (by simp [hphase]) (by simp) hno
  | setFg =>
      obtain ⟨i, hphase⟩ := he
      rw [Msh.step, hphase]
      exact .of_phase (setState_pid s.jobs i .fg) (fun _ => Iff.rfl) (by simp [hphase]) (by simp) hno
  | enterWait =>
      obtain ⟨i, hphase⟩ := he
      rw [Msh.step, hphase]
      exact .of_phase (fun _ => rfl) (fun _ => Iff.rfl) (by simp [hphase]) (by simp) hno
  | leaveWait =>
      obtain ⟨pid, hphase, -⟩ := he
      exact .of_phase (fun _ => rfl) (fun _ => Iff.rfl) (by simp [hphase]) (by simp [Msh.step]) hno

/-- A round of the handler is over: the child is reported, and its job deleted or stopped. -/
theorem handle_cases {c : Child} {status : Report} (hc : s.children pid = some c)
    (hr : c.report = some status) :
    (getjobpid s.jobs pid = none ∧ s.step (.handle pid) = { s with ended := some .crashed }) ∨
    (∃ i, getjobpid s.jobs pid = some i ∧ c = .stopping ∧ s.step (.handle pid) = { s with
      jobs := s.jobs.setState i .st
      children := Function.update s.children pid (some .stopped) }) ∨
    (∃ i, getjobpid s.jobs pid = some i ∧ c ≠ .stopping ∧ s.step (.handle pid) = { s with
      jobs := (deletejob s.jobs pid).2
      children := Function.update s.children pid none }) := by
  have hstep : s.step (.handle pid) = s.handle pid c status := by
    rw [Msh.step, hc]
    show (match c.report with | some status => s.handle pid c status | none => s) = _
    rw [hr]
  rw [hstep, Msh.handle]
  cases hi : getjobpid s.jobs pid with
  | none => exact .inl ⟨rfl, by rw [handleChild, hi]⟩
  | some i =>
      refine .inr ?_
      cases c with
      | running => cases hr
      | stopped => cases hr
      | stopping =>
          cases hr
          exact .inl ⟨i, rfl, rfl, by rw [handleChild_stopped hi]; rfl⟩
      | exited =>
          cases hr
          exact .inr ⟨i, rfl, by simp, by rw [handleChild_gone (by simp [hi]) (by simp)]; rfl⟩
      | signaled =>
          cases hr
          exact .inr ⟨i, rfl, by simp, by rw [handleChild_gone (by simp [hi]) (by simp)]; rfl⟩

end Quiet

/-! ## Jobs belong to children -/

/-- Every job is that of a child, and no two are of the same one. -/
structure Known (s : Msh) : Prop where
  unique : PidsUnique s.jobs
  child : ∀ i, Live s.jobs i → s.children (s.jobs.job i).pid ≠ none
  positive : ∀ pid, s.children pid ≠ none → 1 ≤ pid
  forked : ∀ bg pid cmdline, s.phase = .forked bg pid cmdline →
    s.children pid ≠ none ∧ ∀ i < maxJobs, (s.jobs.job i).pid ≠ pid

section Known

variable {s s' : Msh} {pid : ℤ}

theorem Known.init : Known .init :=
  ⟨fun _ _ h => absurd rfl h.2, fun _ h => absurd rfl h.2, fun _ h => absurd rfl h, fun _ _ _ h => by cases h⟩

theorem Known.quiet (h : Known s) (hq : Quiet s s') : Known s' := by
  refine ⟨h.unique.of_pids fun k => .inl (hq.pids k), fun i hi => ?_, fun pid hc => ?_,
    fun bg pid cmdline hp => ?_⟩
  · have hi' : Live s.jobs i := ⟨hi.1, hq.pids i ▸ hi.2⟩
    rw [hq.pids i, Ne, hq.children]
    exact h.child i hi'
  · exact h.positive pid fun hnone => hc ((hq.children pid).mpr hnone)
  · obtain ⟨hc, hno⟩ := h.forked bg pid cmdline ((hq.forked bg pid cmdline).mp hp)
    refine ⟨fun hnone => hc ((hq.children pid).mp hnone), fun i hi => ?_⟩
    rw [hq.pids i]
    exact hno i hi

theorem not_forked_of_blocked (h : s.phase.blocked = false) (bg : Bool) (pid : ℤ)
    (cmdline : List UInt8) : s.phase ≠ .forked bg pid cmdline := by
  intro e
  rw [e] at h
  cases h

/-- A child is gone, and so is its job. -/
theorem Known.gone (h : Known s) (hb : s.phase.blocked = false) (hpid : 1 ≤ pid) :
    Known { s with
      jobs := (deletejob s.jobs pid).2
      children := Function.update s.children pid none } := by
  have hold : ∀ k, ((deletejob s.jobs pid).2.job k).pid ≠ 0 →
      ((deletejob s.jobs pid).2.job k).pid = (s.jobs.job k).pid := fun k hk =>
    (deletejob_pid s.jobs pid k).resolve_right fun e => hk e.2
  refine ⟨h.unique.of_pids fun k => ?_, fun i hi => ?_, fun q hc => ?_, fun bg q cmdline hp =>
    absurd hp (not_forked_of_blocked hb bg q cmdline)⟩
  · exact (deletejob_pid s.jobs pid k).imp id fun e => e.2
  · have e := hold i hi.2
    have hi' : Live s.jobs i := ⟨hi.1, e ▸ hi.2⟩
    have hne : ((deletejob s.jobs pid).2.job i).pid ≠ pid := by
      intro hp
      have := getjobpid_deletejob_self h.unique hpid
      exact getjobpid_ne_none hpid hi.1 hp this
    show Function.update s.children pid none ((deletejob s.jobs pid).2.job i).pid ≠ none
    rw [Function.update_of_ne hne, e]
    exact h.child i hi'
  · by_cases e : q = pid
    · exact e ▸ hpid
    · have hc : Function.update s.children pid none q ≠ none := hc
      rw [Function.update_of_ne e] at hc
      exact h.positive q hc

/-- A child is reported as stopped. -/
theorem Known.stopped (h : Known s) (hb : s.phase.blocked = false) (i : ℕ) (hpid : 1 ≤ pid) :
    Known { s with
      jobs := s.jobs.setState i .st
      children := Function.update s.children pid (some .stopped) } := by
  refine ⟨h.unique.of_pids fun k => .inl (setState_pid ..), fun k hk => ?_, fun q hc => ?_,
    fun bg q cmdline hp => absurd hp (not_forked_of_blocked hb bg q cmdline)⟩
  · have hk' : Live s.jobs k := ⟨hk.1, setState_pid s.jobs i .st k ▸ hk.2⟩
    show Function.update s.children pid (some .stopped) ((s.jobs.setState i .st).job k).pid ≠ none
    rw [setState_pid]
    by_cases e : (s.jobs.job k).pid = pid
    · simp [e]
    · rw [Function.update_of_ne e]
      exact h.child k hk'
  · by_cases e : q = pid
    · exact e ▸ hpid
    · have hc : Function.update s.children pid (some Child.stopped) q ≠ none := hc
      rw [Function.update_of_ne e] at hc
      exact h.positive q hc

theorem Known.fork (h : Known s) (bg : Bool) (cmdline : List UInt8) (hpid : 1 ≤ pid)
    (hnew : s.children pid = none) : Known { s with
      children := Function.update s.children pid (some .running)
      phase := .forked bg pid cmdline } := by
  refine ⟨h.unique, fun i hi => ?_, fun q hc => ?_, fun bg' q cmdline' hp => ?_⟩
  · have hc := h.child i hi
    have hne : (s.jobs.job i).pid ≠ pid := fun e => hc (e ▸ hnew)
    show Function.update s.children pid (some .running) (s.jobs.job i).pid ≠ none
    rw [Function.update_of_ne hne]
    exact hc
  · by_cases e : q = pid
    · exact e ▸ hpid
    · have hc : Function.update s.children pid (some Child.running) q ≠ none := hc
      rw [Function.update_of_ne e] at hc
      exact h.positive q hc
  · cases hp
    refine ⟨by simp, fun i hi e => ?_⟩
    have e : (s.jobs.job i).pid = pid := e
    exact h.child i ⟨hi, by omega⟩ (e ▸ hnew)

theorem Known.addjob (h : Known s) {bg : Bool} {cmdline : List UInt8}
    (hphase : s.phase = .forked bg pid cmdline) (state : JobState) : Known { s with
      jobs := (Shell.addjob s.jobs pid state cmdline).2
      phase := .added bg pid } := by
  obtain ⟨hc, hno⟩ := h.forked bg pid cmdline hphase
  have hpid := h.positive pid hc
  rcases addjob_cases s.jobs hpid state cmdline with ⟨i, hi, hfree, -, hjob⟩ | ⟨-, hrun⟩
  · have hlive : ∀ k, Live (Shell.addjob s.jobs pid state cmdline).2 k → k ≠ i → Live s.jobs k := by
      intro k hk hne
      refine ⟨hk.1, ?_⟩
      have := hk.2
      rwa [hjob, set_job_of_ne hne] at this
    have hself : ((Shell.addjob s.jobs pid state cmdline).2.job i).pid = pid := by
      rw [hjob, set_job_self]
    have hother : ∀ k, k ≠ i →
        ((Shell.addjob s.jobs pid state cmdline).2.job k).pid = (s.jobs.job k).pid := by
      intro k hk
      rw [hjob, set_job_of_ne hk]
    refine ⟨fun k l hk hl e => ?_, fun k hk => ?_, h.positive, fun _ _ _ hp => by cases hp⟩
    · by_cases hki : k = i <;> by_cases hli : l = i
      · exact hki.trans hli.symm
      · rw [hki, hself, hother l hli] at e
        exact absurd e.symm (hno l hl.1)
      · rw [hli, hself, hother k hki] at e
        exact absurd e (hno k hk.1)
      · rw [hother k hki, hother l hli] at e
        exact h.unique k l (hlive k hk hki) (hlive l hl hli) e
    · by_cases hki : k = i
      · show s.children ((Shell.addjob s.jobs pid state cmdline).2.job k).pid ≠ none
        rw [hki, hself]
        exact hc
      · show s.children ((Shell.addjob s.jobs pid state cmdline).2.job k).pid ≠ none
        rw [hother k hki]
        exact h.child k (hlive k hk hki)
  · rw [hrun]
    exact ⟨h.unique, h.child, h.positive, fun _ _ _ hp => by cases hp⟩

theorem Known.step (h : Known s) (e : Event) (he : s.Allowed e) : Known (s.after e) := by
  rw [Msh.after]
  split
  · exact h
  next hend =>
    have hend : s.ended = none := by simpa using hend
    by_cases hm : e.Moves
    · cases e with
      | handle pid =>
          obtain ⟨hb, c, status, hc, hr⟩ := he
          have hpid := h.positive pid (by simp [hc])
          rcases handle_cases hc hr with ⟨-, hs⟩ | ⟨i, -, -, hs⟩ | ⟨i, -, -, hs⟩
          · rw [hs]
            exact ⟨h.unique, h.child, h.positive, h.forked⟩
          · rw [hs]
            exact h.stopped hb i hpid
          · rw [hs]
            exact h.gone hb hpid
      | fork bg pid cmdline =>
          obtain ⟨-, hpid, hnew⟩ := he
          exact h.fork bg cmdline hpid hnew
      | addjob =>
          obtain ⟨bg, pid, cmdline, hphase⟩ := he
          rw [Msh.step, hphase]
          exact h.addjob hphase _
      | _ => exact hm.elim
    · exact h.quiet (quiet_step hend e he hm)

end Known

/-! ## Every child is in the table -/

/-- The table has an entry for the child. -/
def HasJob (t : Jobs) (pid : ℤ) : Prop := ∃ i < maxJobs, (t.job i).pid = pid

/-- **Every child that is not reaped has a job**, from `addjob` on, and the handler has not
followed a null pointer. -/
structure Tracked (s : Msh) : Prop where
  job : ∀ pid, s.children pid ≠ none → (∀ bg cmdline, s.phase ≠ .forked bg pid cmdline) →
    HasJob s.jobs pid
  alive : s.ended ≠ some .crashed

/-- A new job finds a free entry. -/
def Msh.Room (s : Msh) : Event → Prop
  | .addjob => s.ended = none → ∃ i < maxJobs, (s.jobs.job i).pid = 0
  | _ => True

section Tracking

variable {s s' : Msh} {t : Jobs} {pid q : ℤ}

theorem Tracked.init : Tracked .init := ⟨fun _ h => absurd rfl h, by simp [Msh.init]⟩

theorem Tracked.quiet (h : Tracked s) (hq : Quiet s s') : Tracked s' := by
  refine ⟨fun pid hc hf => ?_, hq.alive⟩
  obtain ⟨i, hi, hp⟩ := h.job pid (fun hnone => hc ((hq.children pid).mpr hnone))
    fun bg cmdline hp => hf bg cmdline ((hq.forked bg pid cmdline).mpr hp)
  exact ⟨i, hi, (hq.pids i).trans hp⟩

theorem HasJob.deletejob (h : HasJob t q) (hne : q ≠ pid) : HasJob (Shell.deletejob t pid).2 q := by
  obtain ⟨i, hi, hp⟩ := h
  rcases deletejob_pid t pid i with e | ⟨e, -⟩
  · exact ⟨i, hi, e.trans hp⟩
  · exact absurd (hp.symm.trans e) hne

/-- A round of the handler finds the job of the child. -/
theorem Tracked.handle (h : Tracked s) (hk : Known s) (hb : s.phase.blocked = false) {c : Child}
    {status : Report} (hc : s.children pid = some c) (hr : c.report = some status) :
    Tracked (s.step (.handle pid)) := by
  have hfork := not_forked_of_blocked hb
  have hpos := hk.positive pid (by simp [hc])
  rcases handle_cases hc hr with ⟨hnone, -⟩ | ⟨i, -, -, hs⟩ | ⟨i, -, -, hs⟩
  · obtain ⟨i, hi, hp⟩ := h.job pid (by simp [hc]) fun bg cmdline => hfork bg pid cmdline
    exact absurd hnone (getjobpid_ne_none hpos hi hp)
  · rw [hs]
    refine ⟨fun q hq _ => ?_, h.alive⟩
    have hq' : s.children q ≠ none := by
      by_cases e : q = pid
      · simp [e, hc]
      · have hq : Function.update s.children pid (some .stopped) q ≠ none := hq
        rwa [Function.update_of_ne e] at hq
    obtain ⟨k, hk, hp⟩ := h.job q hq' fun bg cmdline => hfork bg q cmdline
    exact ⟨k, hk, (setState_pid s.jobs i .st k).trans hp⟩
  · rw [hs]
    refine ⟨fun q hq _ => ?_, h.alive⟩
    have hne : q ≠ pid := by
      rintro rfl
      simp at hq
    have hq : Function.update s.children pid none q ≠ none := hq
    rw [Function.update_of_ne hne] at hq
    exact (h.job q hq fun bg cmdline => hfork bg q cmdline).deletejob hne

/-- The forked child gets its job. -/
theorem Tracked.addjob (h : Tracked s) (hk : Known s) {bg : Bool} {cmdline : List UInt8}
    (hphase : s.phase = .forked bg pid cmdline) (state : JobState)
    (hroom : ∃ i < maxJobs, (s.jobs.job i).pid = 0) : Tracked { s with
      jobs := (Shell.addjob s.jobs pid state cmdline).2
      phase := .added bg pid } := by
  obtain ⟨hc, -⟩ := hk.forked bg pid cmdline hphase
  rcases addjob_cases s.jobs (hk.positive pid hc) state cmdline with ⟨i, hi, hfree, -, hjob⟩ | ⟨hfull, -⟩
  · refine ⟨fun q hq _ => ?_, h.alive⟩
    by_cases e : q = pid
    · refine ⟨i, hi, ?_⟩
      rw [hjob, set_job_self, e]
    · obtain ⟨k, hlt, hp⟩ := h.job q hq fun bg' cmdline' hp => by
        rw [hphase] at hp
        cases hp
        exact e rfl
      have hpos := hk.positive q hq
      have hne : k ≠ i := by
        rintro rfl
        omega
      refine ⟨k, hlt, ?_⟩
      rw [hjob, set_job_of_ne hne]
      exact hp
  · obtain ⟨k, hlt, h0⟩ := hroom
    exact absurd h0 (hfull k hlt)

/-- **A step keeps every child in the table.** -/
theorem Tracked.step (h : Tracked s) (hk : Known s) (e : Event) (he : s.Allowed e)
    (hroom : s.Room e) : Tracked (s.after e) := by
  rw [Msh.after]
  split
  · exact h
  next hend =>
    have hend : s.ended = none := by simpa using hend
    by_cases hm : e.Moves
    · cases e with
      | handle pid =>
          obtain ⟨hb, c, status, hc, hr⟩ := he
          exact h.handle hk hb hc hr
      | fork bg pid cmdline =>
          obtain ⟨hidle, -, -⟩ := he
          refine ⟨fun q hq hf => ?_, h.alive⟩
          have hne : q ≠ pid := fun e => hf bg cmdline (by rw [e]; rfl)
          have hq : Function.update s.children pid (some .running) q ≠ none := hq
          rw [Function.update_of_ne hne] at hq
          exact h.job q hq fun bg' cmdline' => by simp [hidle]
      | addjob =>
          obtain ⟨bg, pid, cmdline, hphase⟩ := he
          rw [Msh.step, hphase]
          exact h.addjob hk hphase _ (hroom hend)
      | _ => exact hm.elim
    · exact h.quiet (quiet_step hend e he hm)

/-- A child that is added to a full table has no job. -/
theorem room_of_tracked (hk : Known s) (e : Event) (he : s.Allowed e) (h : Tracked (s.after e)) :
    s.Room e := by
  cases e with
  | addjob =>
      intro hend
      obtain ⟨bg, pid, cmdline, hphase⟩ := he
      obtain ⟨hc, hno⟩ := hk.forked bg pid cmdline hphase
      rw [Msh.after, if_neg (by simp [hend]), Msh.step, hphase] at h
      rcases addjob_cases s.jobs (hk.positive pid hc) (if bg then .bg else .fg) cmdline with
        ⟨i, hi, hfree, -, -⟩ | ⟨-, hrun⟩
      · exact ⟨i, hi, hfree⟩
      · obtain ⟨i, hi, hp⟩ := h.job pid hc fun _ _ hp => by cases hp
        have hp : ((Shell.addjob s.jobs pid (if bg then .bg else .fg) cmdline).2.job i).pid = pid := hp
        rw [hrun] at hp
        exact absurd hp (hno i hi)
  | _ => trivial

end Tracking

/-- The known jobs of every run. -/
theorem known_of_run (events : List Event) (allowed : Along Msh.after Msh.Allowed .init events) :
    Always Msh.after Known .init events :=
  Always.of_along (fun _ e h he => h.step e he) events _ .init allowed

/-- **Every child is in the table throughout a run exactly if every new job finds room.** -/
theorem tracked_iff (events : List Event) (allowed : Along Msh.after Msh.Allowed .init events) :
    Always Msh.after Tracked .init events ↔ Along Msh.after Msh.Room .init events := by
  have hknown := known_of_run events allowed
  have hboth : Along Msh.after (fun s e => Known s ∧ s.Allowed e) .init events :=
    Along.of_always_before (fun _ _ hk he => ⟨hk, he⟩) events _ hknown allowed
  constructor
  · exact fun h => Along.of_always (fun _ e hs => room_of_tracked hs.1 e hs.2) events _ hboth h
  · intro h
    have hinv : Always Msh.after (fun s => Known s ∧ Tracked s) .init events :=
      Always.of_along (fun _ e hs he => ⟨hs.1.step e he.1, hs.2.step hs.1 e he.1 he.2⟩) events _
        ⟨.init, .init⟩ (Along.and events _ allowed h)
    exact Always.mono (fun _ hs => hs.2) events _ hinv

/-- A background command, from `fork` to the end of `eval`. -/
def launch (pid : ℤ) : List Event := [.fork true pid [], .addjob, .unblock, .finish]

/-- Background commands can be given one after the other, as long as the pids are new. -/
theorem allowed_launch : ∀ (pids : List ℤ) (s : Msh), s.phase = .idle → s.ended = none →
    pids.Nodup → (∀ p ∈ pids, 1 ≤ p ∧ s.children p = none) →
      Along Msh.after Msh.Allowed s (pids.flatMap launch) := by
  intro pids
  induction pids with
  | nil => exact fun _ _ _ _ _ => trivial
  | cons pid rest ih =>
      intro s hidle hend hnodup hnew
      obtain ⟨job, children, phase, ended⟩ := s
      cases hidle
      cases hend
      obtain ⟨hpos, hnone⟩ := hnew pid List.mem_cons_self
      obtain ⟨hnot, hrest⟩ := List.nodup_cons.mp hnodup
      refine ⟨⟨rfl, hpos, hnone⟩, ⟨_, _, _, rfl⟩, ⟨_, _, rfl⟩, ⟨_, _, rfl⟩, ih _ rfl rfl hrest fun p hp => ?_⟩
      obtain ⟨hp1, hp2⟩ := hnew p (List.mem_cons_of_mem _ hp)
      refine ⟨hp1, ?_⟩
      show Function.update children pid (some .running) p = none
      have hne : p ≠ pid := by
        rintro rfl
        exact hnot hp
      rw [Function.update_of_ne hne]
      exact hp2

/-- Two background commands. -/
theorem tracked_of_small_run :
    Along Msh.after Msh.Allowed .init ([5, 6].flatMap launch) ∧
      Always Msh.after Tracked .init ([5, 6].flatMap launch) := by
  have allowed : Along Msh.after Msh.Allowed .init ([5, 6].flatMap launch) :=
    allowed_launch [5, 6] .init rfl rfl (by decide) (by simp [Msh.init])
  refine ⟨allowed, (tracked_iff _ allowed).mpr ?_⟩
  exact ⟨trivial, fun _ => ⟨0, by decide, rfl⟩, trivial, trivial, trivial, fun _ => ⟨1, by decide, rfl⟩,
    trivial, trivial, trivial⟩

/-- The seventeenth background command. -/
def seventeen : List ℤ := (List.range 17).map fun k => (k : ℤ) + 1

/-- **The seventeenth job alive at once is not in the table.** -/
theorem untracked_child : ¬ ∀ events, Along Msh.after Msh.Allowed .init events →
    Always Msh.after Tracked .init events := by
  intro claim
  have hlast := (claim (seventeen.flatMap launch)
    (allowed_launch seventeen .init rfl rfl (by decide) (by decide))).last
  have hphase : ((seventeen.flatMap launch).foldl Msh.after .init).phase = .idle := by decide +kernel
  obtain ⟨i, hi, hp⟩ := hlast.job 17 (by decide +kernel) fun bg cmdline => by simp [hphase]
  have hnone : ∀ i < maxJobs, (((seventeen.flatMap launch).foldl Msh.after .init).jobs.job i).pid ≠ 17 := by
    decide +kernel
  exact hnone i hi hp

end Pintos.Shell
