import Pintos.Shell.MshRuns

/-!
# `bg` and `fg` against `SIGCHLD`

`do_bgfg` keeps a pointer into the job table and does not block `SIGCHLD`, so a round of
`sigchld_handler` may clear or change the entry between two of its statements.

The order of the table is `BgfgOk`: a free entry is cleared, at most one job is in the
foreground, a job whose stop has been reported is not listed as running in the background,
and `waitfg` is not entered with the pid 0.

* **`bgfgOk_of_run`** — it is kept if no round of the handler is about the job `do_bgfg` is
  at work on.
* **`phantom_foreground`** — a foreground job with the pid 0.
-/

namespace Pintos.Shell

open Lib

/-- **The order of the job table.** -/
structure BgfgOk (s : Msh) : Prop where
  /-- A free entry is cleared. -/
  free : ∀ i < maxJobs, (s.jobs.job i).pid = 0 →
    (s.jobs.job i).state = .undef ∧ (s.jobs.job i).jid = 0
  /-- At most one job is in the foreground. -/
  oneFg : ∀ i < maxJobs, ∀ j < maxJobs, (s.jobs.job i).state = .fg → (s.jobs.job j).state = .fg →
    i = j
  /-- A job that was reported to be stopped does not run in the background. -/
  stopped : ∀ i, Live s.jobs i → (s.jobs.job i).state = .bg →
    s.children (s.jobs.job i).pid ≠ some .stopped
  /-- `waitfg` is not entered with the pid 0. -/
  waits : s.phase ≠ .waiting 0

/-- No round of the handler is about the job `do_bgfg` is at work on. -/
def Msh.Undisturbed (s : Msh) : Event → Prop
  | .handle pid => ∀ i, s.phase.currentJob = some i → (s.jobs.job i).pid ≠ pid
  | _ => True

/-! ## The invariant -/

/-- No job is in the foreground. -/
def NoFg (t : Jobs) : Prop := ∀ k < maxJobs, (t.job k).state ≠ .fg

/-- The only job in the foreground is that of `pid`. -/
def FgOnly (t : Jobs) (pid : ℤ) : Prop := ∀ k < maxJobs, (t.job k).state = .fg → (t.job k).pid = pid

/-- What each phase relies on. -/
def PhaseOk (t : Jobs) (children : ℤ → Option Child) : Phase → Prop
  | .idle => NoFg t
  | .forked _ pid _ => NoFg t ∧ children pid ≠ some .stopped
  | .added bg pid => FgOnly t pid ∧ (bg = true → NoFg t) ∧ pid ≠ 0
  | .unblocked bg pid => FgOnly t pid ∧ (bg = true → NoFg t) ∧ pid ≠ 0
  | .looked _ i => NoFg t ∧ Live t i
  | .resumedBg i => NoFg t ∧ Live t i ∧ children (t.job i).pid ≠ some .stopped
  | .setFg i => FgOnly t (t.job i).pid ∧ Live t i
  | .resumedFg i => FgOnly t (t.job i).pid ∧ Live t i
  | .waiting pid => FgOnly t pid ∧ pid ≠ 0

/-- The part of `BgfgOk` about the table and the children. -/
structure TableOk (t : Jobs) (children : ℤ → Option Child) : Prop where
  free : ∀ i < maxJobs, (t.job i).pid = 0 → (t.job i).state = .undef ∧ (t.job i).jid = 0
  stopped : ∀ i, Live t i → (t.job i).state = .bg → children (t.job i).pid ≠ some .stopped

/-- The invariant. -/
structure RaceInv (s : Msh) : Prop where
  known : Known s
  table : TableOk s.jobs s.children
  phase : PhaseOk s.jobs s.children s.phase

section Steps

variable {s : Msh} {t t' : Jobs} {children children' : ℤ → Option Child} {pid : ℤ} {i : ℕ}

theorem RaceInv.init : RaceInv .init :=
  ⟨.init, ⟨fun _ _ _ => ⟨rfl, rfl⟩, fun _ h => absurd rfl h.2⟩, fun _ _ h => by cases h⟩

/-- If the only foreground job has a pid, there is at most one. -/
theorem oneFg_of_fgOnly (hu : PidsUnique t) (hpid : pid ≠ 0) (h : FgOnly t pid) :
    ∀ i < maxJobs, ∀ j < maxJobs, (t.job i).state = .fg → (t.job j).state = .fg → i = j := by
  intro i hi j hj hfi hfj
  have ei := h i hi hfi
  have ej := h j hj hfj
  exact hu i j ⟨hi, ei ▸ hpid⟩ ⟨hj, ej ▸ hpid⟩ (ei.trans ej.symm)

theorem oneFg_of_noFg (h : NoFg t) :
    ∀ i < maxJobs, ∀ j < maxJobs, (t.job i).state = .fg → (t.job j).state = .fg → i = j :=
  fun i hi _ _ hfi _ => absurd hfi (h i hi)

/-- The invariant gives the order of the table. -/
theorem RaceInv.bgfgOk (h : RaceInv s) : BgfgOk s := by
  have hp := h.phase
  refine ⟨h.table.free, ?_, h.table.stopped, fun hw => ?_⟩
  · cases hphase : s.phase with
    | idle =>
        rw [hphase] at hp
        exact oneFg_of_noFg hp
    | forked bg pid cmdline =>
        rw [hphase] at hp
        exact oneFg_of_noFg hp.1
    | added bg pid =>
        rw [hphase] at hp
        exact oneFg_of_fgOnly h.known.unique hp.2.2 hp.1
    | unblocked bg pid =>
        rw [hphase] at hp
        exact oneFg_of_fgOnly h.known.unique hp.2.2 hp.1
    | looked fg i =>
        rw [hphase] at hp
        exact oneFg_of_noFg hp.1
    | resumedBg i =>
        rw [hphase] at hp
        exact oneFg_of_noFg hp.1
    | setFg i =>
        rw [hphase] at hp
        exact oneFg_of_fgOnly h.known.unique hp.2.2 hp.1
    | resumedFg i =>
        rw [hphase] at hp
        exact oneFg_of_fgOnly h.known.unique hp.2.2 hp.1
    | waiting pid =>
        rw [hphase] at hp
        exact oneFg_of_fgOnly h.known.unique hp.2 hp.1
  · rw [hw] at hp
    exact hp.2 rfl

/-- Children may change, as long as no stop is reported. -/
theorem TableOk.withChildren (h : TableOk t children)
    (hc : ∀ x, children' x = some .stopped → children x = some .stopped) : TableOk t children' :=
  ⟨h.free, fun i hi hb e => h.stopped i hi hb (hc _ e)⟩

theorem PhaseOk.withChildren {p : Phase} (h : PhaseOk t children p)
    (hc : ∀ x, children' x = some .stopped → children x = some .stopped) : PhaseOk t children' p := by
  cases p with
  | forked bg pid cmdline => exact ⟨h.1, fun e => h.2 (hc _ e)⟩
  | resumedBg i => exact ⟨h.1, h.2.1, fun e => h.2.2 (hc _ e)⟩
  | _ => exact h

/-- The job of `pid` is cleared or stopped, and no other changes. -/
def JobHandled (t t' : Jobs) (pid : ℤ) : Prop :=
  ∀ k < maxJobs, (t.job k).pid ≠ pid ∧ t'.job k = t.job k ∨
    (t.job k).pid = pid ∧ (t'.job k = clearjob ∨ t'.job k = { t.job k with state := .st })

theorem jobHandled_deletejob (hu : PidsUnique t) (hpid : 1 ≤ pid) :
    JobHandled t (deletejob t pid).2 pid := by
  intro k hk
  rcases deletejob_cases t pid with ⟨i, hi, hp, -, hjob⟩ | ⟨hno, hsame⟩
  · rw [hjob]
    by_cases e : k = i
    · subst e
      exact .inr ⟨hp, .inl (set_job_self ..)⟩
    · refine .inl ⟨fun hkp => ?_, set_job_of_ne e _⟩
      exact e (hu k i ⟨hk, by omega⟩ ⟨hi, by omega⟩ (hkp.trans hp.symm))
  · rw [hsame]
    exact .inl ⟨(hno.resolve_left (by omega)) k hk, rfl⟩

theorem jobHandled_setState (hu : PidsUnique t) (hi : getjobpid t pid = some i) :
    JobHandled t (t.setState i .st) pid := by
  obtain ⟨hpid, hlt, hp⟩ := getjobpid_some hi
  intro k hk
  by_cases e : k = i
  · subst e
    exact .inr ⟨hp, .inr (set_job_self ..)⟩
  · refine .inl ⟨fun hkp => ?_, set_job_of_ne e _⟩
    exact e (hu k i ⟨hk, by omega⟩ ⟨hlt, by omega⟩ (hkp.trans hp.symm))

namespace JobHandled

theorem tableOk (h : JobHandled t t' pid) (hpid : 1 ≤ pid) (ht : TableOk t children)
    (hc : ∀ x, x ≠ pid → children' x = children x) : TableOk t' children' := by
  refine ⟨fun k hk h0 => ?_, fun k hk hb => ?_⟩
  · rcases h k hk with ⟨-, e⟩ | ⟨hp, e | e⟩
    · rw [e] at h0 ⊢
      exact ht.free k hk h0
    · rw [e]
      exact ⟨rfl, rfl⟩
    · rw [e] at h0
      have h0 : (t.job k).pid = 0 := h0
      omega
  · rcases h k hk.1 with ⟨hp, e⟩ | ⟨-, e | e⟩
    · rw [e] at hb ⊢
      rw [hc _ hp]
      exact ht.stopped k ⟨hk.1, e ▸ hk.2⟩ hb
    · exact absurd (congrArg Job.pid e) hk.2
    · rw [e] at hb
      cases hb

theorem noFg (h : JobHandled t t' pid) (hn : NoFg t) : NoFg t' := by
  intro k hk hf
  rcases h k hk with ⟨-, e⟩ | ⟨-, e | e⟩
  · exact hn k hk (e ▸ hf)
  · rw [e] at hf
    cases hf
  · rw [e] at hf
    cases hf

theorem fgOnly {q : ℤ} (h : JobHandled t t' pid) (hf : FgOnly t q) : FgOnly t' q := by
  intro k hk hfk
  rcases h k hk with ⟨-, e⟩ | ⟨-, e | e⟩
  · rw [e] at hfk ⊢
    exact hf k hk hfk
  · rw [e] at hfk
    cases hfk
  · rw [e] at hfk
    cases hfk

/-- The job `do_bgfg` is at work on is as it was. -/
theorem current (h : JobHandled t t' pid) (hl : Live t i) (hne : (t.job i).pid ≠ pid) :
    t'.job i = t.job i ∧ Live t' i := by
  have e : t'.job i = t.job i := by
    rcases h i hl.1 with ⟨-, e⟩ | ⟨hp, -⟩
    · exact e
    · exact absurd hp hne
  exact ⟨e, hl.1, e ▸ hl.2⟩

theorem phaseOk {p : Phase} (h : JobHandled t t' pid) (hb : p.blocked = false)
    (hcur : ∀ i, p.currentJob = some i → (t.job i).pid ≠ pid)
    (hc : ∀ x, x ≠ pid → children' x = children x) (hp : PhaseOk t children p) :
    PhaseOk t' children' p := by
  cases p with
  | idle => exact h.noFg hp
  | forked bg pid cmdline => cases hb
  | added bg pid => cases hb
  | unblocked bg pid => exact ⟨h.fgOnly hp.1, fun hbg => h.noFg (hp.2.1 hbg), hp.2.2⟩
  | looked fg i => exact ⟨h.noFg hp.1, (h.current hp.2 (hcur i rfl)).2⟩
  | resumedBg i =>
      obtain ⟨e, hl⟩ := h.current hp.2.1 (hcur i rfl)
      refine ⟨h.noFg hp.1, hl, ?_⟩
      rw [e, hc _ (hcur i rfl)]
      exact hp.2.2
  | setFg i =>
      obtain ⟨e, hl⟩ := h.current hp.2 (hcur i rfl)
      exact ⟨e ▸ h.fgOnly hp.1, hl⟩
  | resumedFg i =>
      obtain ⟨e, hl⟩ := h.current hp.2 (hcur i rfl)
      exact ⟨e ▸ h.fgOnly hp.1, hl⟩
  | waiting pid => exact ⟨h.fgOnly hp.1, hp.2⟩

end JobHandled

/-- The state of one live job is set. -/
theorem TableOk.setState (h : TableOk t children) (hl : Live t i) {state : JobState}
    (hs : state = .bg → children (t.job i).pid ≠ some .stopped) :
    TableOk (t.setState i state) children := by
  refine ⟨fun k hk h0 => ?_, fun k hk hb => ?_⟩
  · by_cases e : k = i
    · subst e
      rw [setState_pid] at h0
      exact absurd h0 hl.2
    · rw [Jobs.setState, set_job_of_ne e] at h0 ⊢
      exact h.free k hk h0
  · by_cases e : k = i
    · subst e
      rw [setState_pid]
      rw [Jobs.setState, set_job_self] at hb
      exact hs hb
    · rw [Jobs.setState, set_job_of_ne e] at hb ⊢
      refine h.stopped k ⟨hk.1, ?_⟩ hb
      have := hk.2
      rwa [setState_pid] at this

/-- A new job. -/
theorem TableOk.addjob (h : TableOk t children) (hpid : 1 ≤ pid) {state : JobState}
    (cmdline : List UInt8) (hs : children pid ≠ some .stopped) :
    TableOk (Shell.addjob t pid state cmdline).2 children := by
  rcases addjob_cases t hpid state cmdline with ⟨i, hi, hfree, -, hjob⟩ | ⟨-, hrun⟩
  · refine ⟨fun k hk h0 => ?_, fun k hk hb => ?_⟩
    · rw [hjob] at h0 ⊢
      by_cases e : k = i
      · subst e
        rw [set_job_self] at h0
        have h0 : pid = 0 := h0
        omega
      · rw [set_job_of_ne e] at h0 ⊢
        exact h.free k hk h0
    · have hk2 := hk.2
      rw [hjob] at hb hk2 ⊢
      by_cases e : k = i
      · subst e
        rw [set_job_self]
        exact hs
      · rw [set_job_of_ne e] at hb hk2 ⊢
        exact h.stopped k ⟨hk.1, hk2⟩ hb
  · rw [hrun]
    exact h

/-- The foreground after `addjob`. -/
theorem fgOnly_addjob (h : NoFg t) (hpid : 1 ≤ pid) (bg : Bool) (cmdline : List UInt8) :
    FgOnly (Shell.addjob t pid (if bg then .bg else .fg) cmdline).2 pid ∧
      (bg = true → NoFg (Shell.addjob t pid (if bg then .bg else .fg) cmdline).2) := by
  rcases addjob_cases t hpid (if bg then .bg else .fg) cmdline with ⟨i, hi, hfree, -, hjob⟩ | ⟨-, hrun⟩
  · refine ⟨fun k hk hf => ?_, fun hbg k hk hf => ?_⟩
    · rw [hjob] at hf ⊢
      by_cases e : k = i
      · subst e
        rw [set_job_self]
      · rw [set_job_of_ne e] at hf
        exact absurd hf (h k hk)
    · rw [hjob] at hf
      by_cases e : k = i
      · subst e
        rw [set_job_self, hbg] at hf
        cases hf
      · rw [set_job_of_ne e] at hf
        exact h k hk hf
  · rw [hrun]
    exact ⟨fun k hk hf => absurd hf (h k hk), fun _ => h⟩

/-- `fgpid` finds the foreground job. -/
theorem noFg_of_fgpid (h : FgOnly t pid) (hne : pid ≠ fgpid t) : NoFg t := by
  intro k hk hf
  apply hne
  unfold fgpid
  cases e : t.find fun job => job.state = .fg with
  | none =>
      have := find_none e hk
      simp [hf] at this
  | some j =>
      obtain ⟨hj, hfj⟩ := find_some e
      exact (h j hj (by simpa using hfj)).symm

/-- The pointer of `do_bgfg` is to a live job. -/
theorem live_of_getjobjid (h : TableOk t children) {jid : ℤ} (hi : getjobjid t jid = some i) :
    Live t i := by
  unfold getjobjid at hi
  split at hi
  · cases hi
  · next hpos =>
      obtain ⟨hlt, hp⟩ := find_some hi
      have e : (t.job i).jid = jid := by simpa using hp
      refine ⟨hlt, fun h0 => ?_⟩
      have := (h.free i hlt h0).2
      omega

/-- Looking a job up changes the phase only. -/
theorem RaceInv.look (h : RaceInv s) (hidle : s.phase = .idle) (fg : Bool) {found : Option ℕ}
    (hlive : ∀ i, found = some i → Live s.jobs i) :
    PhaseOk (s.look fg found).jobs (s.look fg found).children (s.look fg found).phase ∧
      TableOk (s.look fg found).jobs (s.look fg found).children := by
  cases found with
  | none => exact ⟨h.phase, h.table⟩
  | some i =>
      have hno : NoFg s.jobs := by
        have hp := h.phase
        rwa [hidle] at hp
      exact ⟨⟨hno, hlive i rfl⟩, h.table⟩

theorem continueChild_children (s : Msh) (pid x : ℤ) : (s.continueChild pid).children x =
    if x = pid then (s.children pid).map Child.continued else s.children x := by
  show Function.update s.children pid _ x = _
  by_cases e : x = pid
  · rw [if_pos e, e, Function.update_self]
  · rw [if_neg e, Function.update_of_ne e]

/-- A child that has been continued is not stopped. -/
theorem continued_self : (s.continueChild pid).children pid ≠ some .stopped := by
  intro hx
  rw [continueChild_children, if_pos rfl, Option.map_eq_some_iff] at hx
  obtain ⟨c, -, hc⟩ := hx
  cases c <;> cases hc

/-- `SIGCONT` does not stop anything. -/
theorem stopped_of_continued (x : ℤ) (hx : (s.continueChild pid).children x = some .stopped) :
    s.children x = some .stopped := by
  by_cases e : x = pid
  · rw [e] at hx
    exact absurd hx continued_self
  · rwa [continueChild_children, if_neg e] at hx

/-- One job becomes the foreground job. -/
theorem fgOnly_setState (h : NoFg t) : FgOnly (t.setState i .fg) ((t.setState i .fg).job i).pid := by
  intro k hk hf
  by_cases e : k = i
  · rw [e]
  · rw [Jobs.setState, set_job_of_ne e] at hf
    exact absurd hf (h k hk)

theorem noFg_setState (h : NoFg t) : NoFg (t.setState i .bg) := by
  intro k hk hf
  by_cases e : k = i
  · subst e
    rw [Jobs.setState, set_job_self] at hf
    cases hf
  · rw [Jobs.setState, set_job_of_ne e] at hf
    exact h k hk hf

theorem Live.setState {state : JobState} {k : ℕ} (h : Live t k) : Live (t.setState i state) k :=
  ⟨h.1, by rw [setState_pid]; exact h.2⟩

/-- The table and the phase after a step, for each kind of step. -/
theorem RaceInv.step_parts (h : RaceInv s) (e : Event) (he : s.Allowed e) (hu : s.Undisturbed e) :
    PhaseOk (s.step e).jobs (s.step e).children (s.step e).phase ∧
      TableOk (s.step e).jobs (s.step e).children := by
  have hp := h.phase
  cases e with
  | child pid c =>
      obtain ⟨c', hc', -, -, hs⟩ := he
      have hc : ∀ x, Function.update s.children pid (some c) x = some .stopped →
          s.children x = some .stopped := by
        intro x hx
        by_cases e : x = pid
        · subst e
          rw [Function.update_self] at hx
          rw [hc', hs (Option.some.inj hx)]
        · rwa [Function.update_of_ne e] at hx
      exact ⟨hp.withChildren hc, h.table.withChildren hc⟩
  | handle pid =>
      obtain ⟨hb, c, status, hc, hr⟩ := he
      have hpid := h.known.positive pid (by simp [hc])
      -- a child without a job, one that has stopped, or one that has ended
      rcases handle_cases hc hr with ⟨-, hs⟩ | ⟨i, hi, -, hs⟩ | ⟨i, -, -, hs⟩
      · rw [hs]
        exact ⟨hp, h.table⟩
      · have hj := jobHandled_setState h.known.unique hi
        rw [hs]
        exact ⟨hj.phaseOk hb hu (fun x hx => Function.update_of_ne hx ..) hp,
          hj.tableOk hpid h.table fun x hx => Function.update_of_ne hx ..⟩
      · have hj := jobHandled_deletejob h.known.unique hpid
        rw [hs]
        exact ⟨hj.phaseOk hb hu (fun x hx => Function.update_of_ne hx ..) hp,
          hj.tableOk hpid h.table fun x hx => Function.update_of_ne hx ..⟩
  | fork bg pid cmdline =>
      obtain ⟨hidle, -, -⟩ := he
      rw [hidle] at hp
      have hc : ∀ x, Function.update s.children pid (some Child.running) x = some .stopped →
          s.children x = some .stopped := by
        intro x hx
        by_cases e : x = pid
        · subst e
          simp at hx
        · rwa [Function.update_of_ne e] at hx
      exact ⟨⟨hp, by simp [Msh.step]⟩, h.table.withChildren hc⟩
  | addjob =>
      obtain ⟨bg, pid, cmdline, hphase⟩ := he
      obtain ⟨hchild, -⟩ := h.known.forked bg pid cmdline hphase
      have hpid := h.known.positive pid hchild
      rw [hphase] at hp
      rw [Msh.step, hphase]
      obtain ⟨hfg, hbg⟩ := fgOnly_addjob hp.1 hpid bg cmdline
      exact ⟨⟨hfg, hbg, by omega⟩, h.table.addjob hpid cmdline hp.2⟩
  | unblock =>
      obtain ⟨bg, pid, hphase⟩ := he
      rw [hphase] at hp
      rw [Msh.step, hphase]
      exact ⟨hp, h.table⟩
  | finish =>
      obtain ⟨bg, pid, hphase⟩ := he
      rw [hphase] at hp
      rw [Msh.step, hphase]
      cases bg with
      | true => exact ⟨hp.2.1 rfl, h.table⟩
      | false => exact ⟨⟨hp.1, hp.2.2⟩, h.table⟩
  | lookupPid fg pid =>
      refine h.look he fg fun i hi => ?_
      obtain ⟨hpid, hlt, e⟩ := getjobpid_some hi
      exact ⟨hlt, by omega⟩
  | lookupJid fg jid => exact h.look he fg fun i hi => live_of_getjobjid h.table hi
  | kill ok =>
      obtain ⟨i, hphase⟩ := he
      cases ok with
      | false => exact ⟨hp, h.table⟩
      | true =>
          rw [Msh.step, if_pos rfl]
          rcases hphase with hphase | hphase
          · rw [hphase] at hp ⊢
            exact ⟨⟨hp.1, hp.2, continued_self⟩, h.table.withChildren stopped_of_continued⟩
          · rw [hphase] at hp ⊢
            exact ⟨hp, h.table.withChildren stopped_of_continued⟩
  | setBg =>
      obtain ⟨i, hphase⟩ := he
      rw [hphase] at hp
      rw [Msh.step, hphase]
      exact ⟨noFg_setState hp.1, h.table.setState hp.2.1 fun _ => hp.2.2⟩
  | setFg =>
      obtain ⟨i, hphase⟩ := he
      rw [hphase] at hp
      rw [Msh.step, hphase]
      exact ⟨⟨fgOnly_setState hp.1, hp.2.setState⟩, h.table.setState hp.2 fun e => by cases e⟩
  | enterWait =>
      obtain ⟨i, hphase⟩ := he
      rw [hphase] at hp
      rw [Msh.step, hphase]
      exact ⟨⟨hp.1, hp.2.2⟩, h.table⟩
  | leaveWait =>
      obtain ⟨pid, hphase, hne⟩ := he
      rw [hphase] at hp
      exact ⟨noFg_of_fgpid hp.1 hne, h.table⟩

/-- **A step that does not disturb `do_bgfg` keeps the invariant.** -/
theorem RaceInv.step (h : RaceInv s) (e : Event) (he : s.Allowed e) (hu : s.Undisturbed e) :
    RaceInv (s.after e) := by
  have hk := h.known.step e he
  rw [Msh.after] at hk ⊢
  split at hk
  · next hend =>
      rw [if_pos hend]
      exact h
  · next hend =>
      rw [if_neg hend]
      obtain ⟨hphase, htable⟩ := h.step_parts e he hu
      exact ⟨hk, htable, hphase⟩

end Steps

/-- **The table is in order throughout a run in which no round of the handler is about the job
`do_bgfg` is at work on.** -/
theorem bgfgOk_of_run (events : List Event) (allowed : Along Msh.after Msh.Allowed .init events)
    (undisturbed : Along Msh.after Msh.Undisturbed .init events) :
    Always Msh.after BgfgOk .init events := by
  have hinv : Always Msh.after RaceInv .init events :=
    Always.of_along (fun _ e h he => h.step e he.1 he.2) events _ .init
      (Along.and events _ allowed undisturbed)
  exact Always.mono (fun _ h => h.bgfgOk) events _ hinv

/-- A background job that stops and is then brought to the foreground. -/
def resumed : List Event :=
  launch 5 ++ [.child 5 .stopping, .handle 5, .lookupPid true 5, .setFg, .kill true, .enterWait]

theorem bgfgOk_of_resumed :
    (Along Msh.after Msh.Allowed .init resumed ∧
      Along Msh.after Msh.Undisturbed .init resumed) ∧
        Always Msh.after BgfgOk .init resumed := by
  have allowed : Along Msh.after Msh.Allowed .init resumed := by
    refine ⟨⟨rfl, by decide, rfl⟩, ⟨_, _, _, rfl⟩, ⟨_, _, rfl⟩, ⟨_, _, rfl⟩, ?_, ?_, rfl, ⟨0, rfl⟩,
      ⟨0, .inr rfl⟩, ⟨0, rfl⟩, trivial⟩
    · exact ⟨.running, rfl, by decide, by decide, fun e => by cases e⟩
    · exact ⟨rfl, .stopping, .stopped, rfl, rfl⟩
  have undisturbed : Along Msh.after Msh.Undisturbed .init resumed := by
    refine ⟨trivial, trivial, trivial, trivial, trivial, fun i hi => ?_, trivial, trivial, trivial,
      trivial, trivial⟩
    cases hi
  exact ⟨⟨allowed, undisturbed⟩, bgfgOk_of_run resumed allowed undisturbed⟩

/-- The job exits between the lookup of `fg` and the assignment of its state. -/
def phantom : List Event :=
  launch 5 ++ [.lookupPid true 5, .child 5 .exited, .handle 5, .setFg]

/-- **A foreground job with the pid 0.** -/
theorem phantom_foreground : ¬ ∀ events, Along Msh.after Msh.Allowed .init events →
    Always Msh.after BgfgOk .init events := by
  intro claim
  have allowed : Along Msh.after Msh.Allowed .init phantom := by
    refine ⟨⟨rfl, by decide, rfl⟩, ⟨_, _, _, rfl⟩, ⟨_, _, rfl⟩, ⟨_, _, rfl⟩, rfl, ?_, ?_, ⟨0, rfl⟩,
      trivial⟩
    · exact ⟨.running, rfl, by decide, by decide, fun e => by cases e⟩
    · exact ⟨rfl, .exited, .exited, rfl, rfl⟩
  have hlast := (claim phantom allowed).last
  have hfree := (hlast.free 0 (by decide) (by decide +kernel)).1
  exact absurd hfree (by decide +kernel)

end Pintos.Shell
