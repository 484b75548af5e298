import Mathlib.Tactic
import Pintos.Lib.Block
import Pintos.Lib.Runs

/-!
# The job table of the shell

`Project0/jobs.c`: a fixed array of `MAXJOBS` entries and the static counter `nextjid`.  An
entry is free when its `pid` is 0.  A pointer to an entry is its index.

`addjob` takes `nextjid` for the new entry and goes back to 1 when the counter passes
`MAXJOBS`; `deletejob` sets the counter to one more than the largest id in use.  Neither
asks whether the id it leaves in the counter is in use.  The counter is an `int`; that a
signed overflow wraps is an assumption about the compiler.

Which id an added job gets follows from the calls before it (`Numbered`): one more than the
largest id in use, until an id of `MAXJOBS` or more is given out; from then on 1, 2, 3 and so
on, until a job is deleted.

* **`jobsOk_iff`** — the ids of a run are unique exactly if no added job gets an id that is in
  use, and none is added when the largest id in use is the largest `int`.
* **`job_id_twice`** — a run in which two live jobs have the id 1.
-/

namespace Pintos.Shell

open Lib

/-- `MAXJOBS`. -/
def maxJobs : ℕ := 16

/-- The states of a job. -/
inductive JobState where
  | undef
  | fg
  | bg
  | st
deriving DecidableEq, Repr

/-- `struct job_t`. -/
structure Job where
  pid : ℤ
  jid : ℤ
  state : JobState
  cmdline : List UInt8
deriving DecidableEq, Repr

/-- The table, with the static `nextjid`. -/
structure Jobs where
  job : ℕ → Job
  nextjid : ℤ

/-- What `clearjob` leaves. -/
def clearjob : Job := ⟨0, 0, .undef, []⟩

/-- `initjobs`. -/
def initjobs : Jobs := ⟨fun _ => clearjob, 1⟩

/-- The table with one entry replaced. -/
def Jobs.set (t : Jobs) (i : ℕ) (job : Job) : Jobs := { t with job := Function.update t.job i job }

/-- The loops of `jobs.c` that look for an entry. -/
def Jobs.find (t : Jobs) (p : Job → Bool) : Option ℕ :=
  (List.range maxJobs).find? fun i => p (t.job i)

/-- `maxjid`. -/
def maxjid (t : Jobs) : ℤ :=
  (List.range maxJobs).foldl (fun max i => if (t.job i).jid > max then (t.job i).jid else max) 0

/-- `addjob`. -/
def addjob (t : Jobs) (pid : ℤ) (state : JobState) (cmdline : List UInt8) : Bool × Jobs :=
  if pid < 1 then (false, t)
  else match t.find fun job => job.pid = 0 with
    | some i =>
        let next := wrap32 (t.nextjid + 1)
        (true, { t.set i ⟨pid, t.nextjid, state, cmdline⟩ with
          nextjid := if next > maxJobs then 1 else next })
    | none => (false, t)

/-- `deletejob`. -/
def deletejob (t : Jobs) (pid : ℤ) : Bool × Jobs :=
  if pid < 1 then (false, t)
  else match t.find fun job => job.pid = pid with
    | some i =>
        let cleared := t.set i clearjob
        (true, { cleared with nextjid := wrap32 (maxjid cleared + 1) })
    | none => (false, t)

/-- `fgpid`. -/
def fgpid (t : Jobs) : ℤ :=
  match t.find fun job => job.state = .fg with
  | some i => (t.job i).pid
  | none => 0

/-- `getjobpid`. -/
def getjobpid (t : Jobs) (pid : ℤ) : Option ℕ :=
  if pid < 1 then none else t.find fun job => job.pid = pid

/-- `getjobjid`. -/
def getjobjid (t : Jobs) (jid : ℤ) : Option ℕ :=
  if jid < 1 then none else t.find fun job => job.jid = jid

/-! ## Searching -/

variable {t : Jobs} {i : ℕ} {pid : ℤ}

theorem find_some {p : Job → Bool} (h : t.find p = some i) : i < maxJobs ∧ p (t.job i) = true := by
  obtain ⟨hp, hi, -⟩ := List.find?_range_eq_some.mp h
  exact ⟨List.mem_range.mp hi, hp⟩

theorem find_none {p : Job → Bool} (h : t.find p = none) (hi : i < maxJobs) :
    p (t.job i) = false := by
  have := List.find?_eq_none.mp h i (List.mem_range.mpr hi)
  simpa using this

/-- If only one entry qualifies, it is found. -/
theorem find_eq {p : Job → Bool} (hi : i < maxJobs) (hp : p (t.job i) = true)
    (hone : ∀ k < maxJobs, p (t.job k) = true → k = i) : t.find p = some i := by
  cases h : t.find p with
  | none =>
      rw [find_none h hi] at hp
      cases hp
  | some k =>
      obtain ⟨hk, hpk⟩ := find_some h
      rw [hone k hk hpk]

theorem find_eq_none {p : Job → Bool} (h : ∀ k < maxJobs, p (t.job k) = false) : t.find p = none := by
  cases e : t.find p with
  | none => rfl
  | some k =>
      obtain ⟨hk, hpk⟩ := find_some e
      rw [h k hk] at hpk
      cases hpk

/-- The entry is in use. -/
def Live (t : Jobs) (i : ℕ) : Prop := i < maxJobs ∧ (t.job i).pid ≠ 0

theorem set_job_self (t : Jobs) (i : ℕ) (job : Job) : (t.set i job).job i = job :=
  Function.update_self ..

theorem set_job_of_ne {k : ℕ} (h : k ≠ i) (job : Job) : (t.set i job).job k = t.job k :=
  Function.update_of_ne h ..

/-- What `addjob` does. -/
theorem addjob_cases (t : Jobs) (hpid : 1 ≤ pid) (state : JobState) (cmdline : List UInt8) :
    (∃ i < maxJobs, (t.job i).pid = 0 ∧ (addjob t pid state cmdline).1 = true ∧
      (addjob t pid state cmdline).2.job = (t.set i ⟨pid, t.nextjid, state, cmdline⟩).job) ∨
    ((∀ i < maxJobs, (t.job i).pid ≠ 0) ∧ addjob t pid state cmdline = (false, t)) := by
  unfold addjob
  rw [if_neg (by omega)]
  cases h : t.find fun job => job.pid = 0 with
  | none =>
      refine .inr ⟨fun i hi => ?_, rfl⟩
      simpa using find_none h hi
  | some i =>
      obtain ⟨hi, hp⟩ := find_some h
      exact .inl ⟨i, hi, by simpa using hp, rfl, rfl⟩

/-- What `deletejob` does. -/
theorem deletejob_cases (t : Jobs) (pid : ℤ) :
    (∃ i < maxJobs, (t.job i).pid = pid ∧ 1 ≤ pid ∧ (deletejob t pid).2.job = (t.set i clearjob).job) ∨
    ((pid < 1 ∨ ∀ i < maxJobs, (t.job i).pid ≠ pid) ∧ (deletejob t pid).2 = t) := by
  unfold deletejob
  by_cases hpid : pid < 1
  · rw [if_pos hpid]
    exact .inr ⟨.inl hpid, rfl⟩
  rw [if_neg hpid]
  cases h : t.find fun job => job.pid = pid with
  | none =>
      refine .inr ⟨.inr fun i hi => ?_, rfl⟩
      simpa using find_none h hi
  | some i =>
      obtain ⟨hi, hp⟩ := find_some h
      exact .inl ⟨i, hi, by simpa using hp, by omega, rfl⟩

/-! ## Runs -/

/-- A call that changes the table. -/
inductive JobOp where
  | add (pid : ℤ) (state : JobState) (cmdline : List UInt8)
  | delete (pid : ℤ)

/-- The table after a call. -/
def Jobs.after (t : Jobs) : JobOp → Jobs
  | .add pid state cmdline => (addjob t pid state cmdline).2
  | .delete pid => (deletejob t pid).2

/-- A job is added with a fresh positive pid. -/
def Jobs.Allowed (t : Jobs) : JobOp → Prop
  | .add pid _ _ => 1 ≤ pid ∧ ∀ i < maxJobs, (t.job i).pid ≠ pid
  | .delete _ => True

instance (t : Jobs) (op : JobOp) : Decidable (t.Allowed op) :=
  match op with
  | .add pid _ _ => inferInstanceAs (Decidable (1 ≤ pid ∧ ∀ i < maxJobs, (t.job i).pid ≠ pid))
  | .delete _ => .isTrue trivial

/-- **The ids of the table**: unique, positive, and found. -/
structure JobsOk (t : Jobs) : Prop where
  jids : ∀ i j, Live t i → Live t j → (t.job i).jid = (t.job j).jid → i = j
  pids : ∀ i j, Live t i → Live t j → (t.job i).pid = (t.job j).pid → i = j
  positive : ∀ i, Live t i → 1 ≤ (t.job i).jid
  foundJid : ∀ i, Live t i → getjobjid t (t.job i).jid = some i
  noJid : ∀ jid, (∀ i, Live t i → (t.job i).jid ≠ jid) → getjobjid t jid = none
  foundPid : ∀ i, Live t i → getjobpid t (t.job i).pid = some i
  noPid : ∀ pid, (∀ i, Live t i → (t.job i).pid ≠ pid) → getjobpid t pid = none

/-- An entry is free. -/
def Jobs.Room (t : Jobs) : Prop := ∃ i < maxJobs, (t.job i).pid = 0

instance (t : Jobs) : Decidable t.Room := inferInstanceAs (Decidable (∃ i < maxJobs, (t.job i).pid = 0))

/-- When a job is added to a table with room, `nextjid` is positive and no live job has it. -/
def Jobs.NextFree (t : Jobs) : JobOp → Prop
  | .add _ _ _ => t.Room → 1 ≤ t.nextjid ∧ ∀ i, Live t i → (t.job i).jid ≠ t.nextjid
  | .delete _ => True

/-- The invariant. -/
structure IdsOk (t : Jobs) : Prop where
  free : ∀ i < maxJobs, (t.job i).pid = 0 → (t.job i).jid = 0
  positivePid : ∀ i, Live t i → 1 ≤ (t.job i).pid
  jids : ∀ i j, Live t i → Live t j → (t.job i).jid = (t.job j).jid → i = j
  pids : ∀ i j, Live t i → Live t j → (t.job i).pid = (t.job j).pid → i = j
  positive : ∀ i, Live t i → 1 ≤ (t.job i).jid

theorem IdsOk.init : IdsOk initjobs :=
  ⟨fun _ _ _ => rfl, fun _ h => absurd rfl h.2, fun _ _ h => absurd rfl h.2, fun _ _ h => absurd rfl h.2,
    fun _ h => absurd rfl h.2⟩

/-- Only the entries of the table count. -/
theorem IdsOk.of_job {t' : Jobs} (h : IdsOk t) (e : t'.job = t.job) : IdsOk t' := by
  obtain ⟨job', next'⟩ := t'
  subst e
  exact ⟨h.free, h.positivePid, h.jids, h.pids, h.positive⟩

/-- Invariant step: a new entry. -/
theorem IdsOk.add (h : IdsOk t) (hi : i < maxJobs) (hfree : (t.job i).pid = 0) {job : Job}
    (hpid : 1 ≤ job.pid) (hjid : 1 ≤ job.jid) (hnewPid : ∀ k, Live t k → (t.job k).pid ≠ job.pid)
    (hnewJid : ∀ k, Live t k → (t.job k).jid ≠ job.jid) : IdsOk (t.set i job) := by
  have hlive : ∀ k, Live (t.set i job) k → k = i ∨ k ≠ i ∧ Live t k := by
    intro k hk
    by_cases e : k = i
    · exact .inl e
    · refine .inr ⟨e, hk.1, ?_⟩
      have := hk.2
      rwa [set_job_of_ne e] at this
  have hself := set_job_self t i job
  refine ⟨fun k hk h0 => ?_, fun k hk => ?_, fun k l hk hl e => ?_, fun k l hk hl e => ?_, fun k hk => ?_⟩
  · by_cases e : k = i
    · subst e
      rw [hself] at h0
      omega
    · rw [set_job_of_ne e] at h0 ⊢
      exact h.free k hk h0
  · rcases hlive k hk with rfl | ⟨hne, hk⟩
    · rwa [hself]
    · rw [set_job_of_ne hne]
      exact h.positivePid k hk
  · rcases hlive k hk with hki | ⟨hne, hk'⟩ <;> rcases hlive l hl with hli | ⟨hne', hl'⟩
    · exact hki.trans hli.symm
    · rw [hki, hself, set_job_of_ne hne'] at e
      exact absurd e.symm (hnewJid l hl')
    · rw [hli, hself, set_job_of_ne hne] at e
      exact absurd e (hnewJid k hk')
    · rw [set_job_of_ne hne, set_job_of_ne hne'] at e
      exact h.jids k l hk' hl' e
  · rcases hlive k hk with hki | ⟨hne, hk'⟩ <;> rcases hlive l hl with hli | ⟨hne', hl'⟩
    · exact hki.trans hli.symm
    · rw [hki, hself, set_job_of_ne hne'] at e
      exact absurd e.symm (hnewPid l hl')
    · rw [hli, hself, set_job_of_ne hne] at e
      exact absurd e (hnewPid k hk')
    · rw [set_job_of_ne hne, set_job_of_ne hne'] at e
      exact h.pids k l hk' hl' e
  · rcases hlive k hk with rfl | ⟨hne, hk⟩
    · rwa [hself]
    · rw [set_job_of_ne hne]
      exact h.positive k hk

/-- Invariant step: an entry is cleared. -/
theorem IdsOk.clear (h : IdsOk t) (i : ℕ) : IdsOk (t.set i clearjob) := by
  have hlive : ∀ k, Live (t.set i clearjob) k → k ≠ i ∧ Live t k := by
    intro k hk
    have hne : k ≠ i := by
      rintro rfl
      exact hk.2 (congrArg Job.pid (set_job_self t k clearjob))
    refine ⟨hne, hk.1, ?_⟩
    have := hk.2
    rwa [set_job_of_ne hne] at this
  refine ⟨fun k hk h0 => ?_, fun k hk => ?_, fun k l hk hl e => ?_, fun k l hk hl e => ?_, fun k hk => ?_⟩
  · by_cases e : k = i
    · subst e
      exact congrArg Job.jid (set_job_self t k clearjob)
    · rw [set_job_of_ne e] at h0 ⊢
      exact h.free k hk h0
  · obtain ⟨hne, hk⟩ := hlive k hk
    rw [set_job_of_ne hne]
    exact h.positivePid k hk
  · obtain ⟨hne, hk⟩ := hlive k hk
    obtain ⟨hne', hl⟩ := hlive l hl
    rw [set_job_of_ne hne, set_job_of_ne hne'] at e
    exact h.jids k l hk hl e
  · obtain ⟨hne, hk⟩ := hlive k hk
    obtain ⟨hne', hl⟩ := hlive l hl
    rw [set_job_of_ne hne, set_job_of_ne hne'] at e
    exact h.pids k l hk hl e
  · obtain ⟨hne, hk⟩ := hlive k hk
    rw [set_job_of_ne hne]
    exact h.positive k hk

theorem IdsOk.step (h : IdsOk t) (op : JobOp) (hop : t.Allowed op) (hnext : t.NextFree op) :
    IdsOk (t.after op) := by
  cases op with
  | add pid state cmdline =>
      obtain ⟨hpid, hfresh⟩ := hop
      rcases addjob_cases t hpid state cmdline with ⟨i, hi, hfree, -, hjob⟩ | ⟨-, hrun⟩
      · obtain ⟨hjid, hnew⟩ := hnext ⟨i, hi, hfree⟩
        exact (h.add hi hfree hpid hjid (fun k hk => hfresh k hk.1) hnew).of_job hjob
      · rw [Jobs.after, hrun]
        exact h
  | delete pid =>
      rcases deletejob_cases t pid with ⟨i, -, -, -, hjob⟩ | ⟨-, hrun⟩
      · exact (h.clear i).of_job hjob
      · rw [Jobs.after, hrun]
        exact h

/-- The invariant gives the ids. -/
theorem IdsOk.jobsOk (h : IdsOk t) : JobsOk t := by
  have hlive : ∀ k < maxJobs, 1 ≤ (t.job k).jid → Live t k := by
    intro k hk hpos
    refine ⟨hk, fun h0 => ?_⟩
    have := h.free k hk h0
    omega
  refine ⟨h.jids, h.pids, h.positive, fun i hi => ?_, fun jid hnone => ?_, fun i hi => ?_,
    fun pid hnone => ?_⟩
  · have hpos := h.positive i hi
    rw [getjobjid, if_neg (by omega)]
    refine find_eq hi.1 (by simp) fun k hk hp => ?_
    have e : (t.job k).jid = (t.job i).jid := by simpa using hp
    exact h.jids k i (hlive k hk (by omega)) hi e
  · rw [getjobjid]
    split
    · rfl
    · next hpos =>
        refine find_eq_none fun k hk => ?_
        by_contra hp
        have e : (t.job k).jid = jid := by simpa using hp
        exact hnone k (hlive k hk (by omega)) e
  · have hpos := h.positivePid i hi
    rw [getjobpid, if_neg (by omega)]
    refine find_eq hi.1 (by simp) fun k hk hp => ?_
    have e : (t.job k).pid = (t.job i).pid := by simpa using hp
    exact h.pids k i ⟨hk, by omega⟩ hi e
  · rw [getjobpid]
    split
    · rfl
    · next hpos =>
        refine find_eq_none fun k hk => ?_
        by_contra hp
        have e : (t.job k).pid = pid := by simpa using hp
        exact hnone k ⟨hk, by omega⟩ e

/-- A step that leaves unique ids has found `nextjid` free. -/
theorem nextFree_of_jobsOk (op : JobOp) (hop : t.Allowed op) (h : JobsOk (t.after op)) :
    t.NextFree op := by
  cases op with
  | delete pid => trivial
  | add pid state cmdline =>
      rintro ⟨k, hk, hk0⟩
      obtain ⟨hpid, -⟩ := hop
      rcases addjob_cases t hpid state cmdline with ⟨i, hi, hfree, -, hjob⟩ | ⟨hfull, -⟩
      · have hself : ((t.after (.add pid state cmdline)).job i) = ⟨pid, t.nextjid, state, cmdline⟩ := by
          rw [Jobs.after, hjob]
          exact set_job_self ..
        have hother : ∀ j, j ≠ i → (t.after (.add pid state cmdline)).job j = t.job j := by
          intro j hj
          rw [Jobs.after, hjob]
          exact set_job_of_ne hj _
        have hlive : Live (t.after (.add pid state cmdline)) i := ⟨hi, by rw [hself]; show pid ≠ 0; omega⟩
        refine ⟨by simpa [hself] using h.positive i hlive, fun j hj e => ?_⟩
        have hne : j ≠ i := by
          rintro rfl
          exact hj.2 hfree
        refine hne (h.jids j i ⟨hj.1, ?_⟩ hlive ?_)
        · rw [hother j hne]
          exact hj.2
        · rw [hother j hne, hself]
          exact e
      · exact absurd hk0 (hfull k hk)

/-! ## The ids that are given out -/

/-- A table, with what the calls so far say about the next id.  `none`: it is one more than
the largest id in use.  `some k`: since an id of `maxJobs` or more was given out, `k` jobs
were added and none was deleted. -/
structure Numbered where
  table : Jobs
  since : Option ℕ

/-- The start. -/
def Numbered.init : Numbered := ⟨initjobs, none⟩

/-- What the calls say after one more. -/
def Numbered.sinceAfter (s : Numbered) : JobOp → Option ℕ
  | .add _ _ _ =>
      if s.table.Room then
        match s.since with
        | none =>
            -- after the largest `int` the counter overflows instead of starting again at 1
            if (∃ i < maxJobs, maxJobs ≤ (s.table.job i).jid + 1) ∧
              ∀ i < maxJobs, (s.table.job i).jid < 2 ^ 31 - 2 then some 0 else none
        | some k => if k + 1 < maxJobs then some (k + 1) else some 0
      else s.since
  | .delete pid => if ∃ i < maxJobs, 1 ≤ pid ∧ (s.table.job i).pid = pid then none else s.since

/-- A call. -/
def Numbered.after (s : Numbered) (op : JobOp) : Numbered := ⟨s.table.after op, s.sinceAfter op⟩

/-- The table of the run is the one the calls make. -/
theorem table_after (s : Numbered) (op : JobOp) : (s.after op).table = s.table.after op := rfl

/-- A job that is added to a table with room gets a fresh id: the ids in use are smaller than
the largest `int`, and after an id of `maxJobs` or more the `k`-th job to be added finds the
id `k` unused. -/
def Numbered.IdFree (s : Numbered) : JobOp → Prop
  | .add _ _ _ => s.table.Room →
      (s.since = none → ∀ i < maxJobs, (s.table.job i).jid < 2 ^ 31 - 1) ∧
        ∀ k, s.since = some k → ∀ i < maxJobs, (s.table.job i).jid ≠ k + 1
  | .delete _ => True

instance (s : Numbered) (op : JobOp) : Decidable (s.IdFree op) :=
  match op with
  | .delete _ => .isTrue trivial
  | .add _ _ _ =>
      match h : s.since with
      | none => decidable_of_iff (s.table.Room → ∀ i < maxJobs, (s.table.job i).jid < 2 ^ 31 - 1)
          ⟨fun g room => ⟨fun _ => g room, fun k e => absurd (h.symm.trans e) (by simp)⟩,
            fun g room => (g room).1 h⟩
      | some k => decidable_of_iff (s.table.Room → ∀ i < maxJobs, (s.table.job i).jid ≠ k + 1)
          ⟨fun g room => ⟨fun e => absurd (h.symm.trans e) (by simp), fun l e => by
            cases h.symm.trans e
            exact g room⟩, fun g room => (g room).2 k h⟩

theorem foldl_max_le (f : ℕ → ℤ) {b : ℤ} : ∀ (l : List ℕ) (m : ℤ),
    l.foldl (fun max i => if f i > max then f i else max) m ≤ b ↔ m ≤ b ∧ ∀ i ∈ l, f i ≤ b := by
  intro l
  induction l with
  | nil => simp
  | cons i l ih =>
      intro m
      rw [List.foldl_cons, ih, List.forall_mem_cons, ← and_assoc]
      refine and_congr_left fun _ => ?_
      split <;> omega

/-- `maxjid` is the largest id, 0 in an empty table. -/
theorem maxjid_le_iff {b : ℤ} : maxjid t ≤ b ↔ 0 ≤ b ∧ ∀ i < maxJobs, (t.job i).jid ≤ b := by
  rw [maxjid, foldl_max_le fun i => (t.job i).jid]
  simp only [List.mem_range]

theorem le_maxjid (hi : i < maxJobs) : (t.job i).jid ≤ maxjid t := (maxjid_le_iff.mp le_rfl).2 i hi

theorem maxjid_nonneg (t : Jobs) : 0 ≤ maxjid t := (maxjid_le_iff.mp le_rfl).1

/-- The largest id is below a positive bound exactly if every id is. -/
theorem maxjid_lt_iff {b : ℤ} (hb : 0 < b) : maxjid t < b ↔ ∀ i < maxJobs, (t.job i).jid < b := by
  have : maxjid t < b ↔ maxjid t ≤ b - 1 := by omega
  rw [this, maxjid_le_iff]
  constructor
  · exact fun h i hi => by have := h.2 i hi; omega
  · exact fun h => ⟨by omega, fun i hi => by have := h i hi; omega⟩

/-- A positive id is reached by the largest one exactly if some entry has one as large. -/
theorem le_maxjid_iff {b : ℤ} (hb : 0 < b) : b ≤ maxjid t ↔ ∃ i < maxJobs, b ≤ (t.job i).jid := by
  rw [← not_lt, maxjid_lt_iff hb]
  push Not
  exact Iff.rfl

theorem maxjid_of_job {t' : Jobs} (h : t'.job = t.job) : maxjid t' = maxjid t := by
  rw [maxjid, maxjid, h]

/-- A job in a free entry. -/
theorem maxjid_set (hi : i < maxJobs) (hfree : (t.job i).jid = 0) (job : Job) :
    maxjid (t.set i job) = max (maxjid t) job.jid := by
  refine eq_of_forall_ge_iff fun b => ?_
  rw [max_le_iff, maxjid_le_iff, maxjid_le_iff]
  constructor
  · rintro ⟨h0, h⟩
    refine ⟨⟨h0, fun k hk => ?_⟩, ?_⟩
    · by_cases e : k = i
      · rw [e, hfree]
        exact h0
      · have := h k hk
        rwa [set_job_of_ne e] at this
    · have := h i hi
      rwa [set_job_self] at this
  · rintro ⟨⟨h0, h⟩, hb⟩
    refine ⟨h0, fun k hk => ?_⟩
    by_cases e : k = i
    · rw [e, set_job_self]
      exact hb
    · rw [set_job_of_ne e]
      exact h k hk

/-- The counter after a job was added. -/
theorem addjob_nextjid (hpid : 1 ≤ pid) (room : t.Room) (state : JobState) (cmdline : List UInt8) :
    (addjob t pid state cmdline).2.nextjid =
      if wrap32 (t.nextjid + 1) > maxJobs then 1 else wrap32 (t.nextjid + 1) := by
  unfold addjob
  rw [if_neg (by omega)]
  cases h : t.find fun job => job.pid = 0 with
  | some i => rfl
  | none =>
      obtain ⟨i, hi, h0⟩ := room
      have := find_none h hi
      rw [h0] at this
      simp at this

/-- The counter after a job was deleted. -/
theorem deletejob_nextjid (h : i < maxJobs) (hpid : 1 ≤ pid) (hi : (t.job i).pid = pid) :
    (deletejob t pid).2.nextjid = wrap32 (maxjid (deletejob t pid).2 + 1) := by
  unfold deletejob
  rw [if_neg (by omega)]
  cases e : t.find fun job => job.pid = pid with
  | some k => rfl
  | none =>
      have := find_none e h
      rw [hi] at this
      simp at this

/-- What the calls say is true of the counter. -/
structure Counted (s : Numbered) : Prop where
  ids : IdsOk s.table
  bounded : ∀ i < maxJobs, (s.table.job i).jid ≤ 2 ^ 31 - 1
  top : s.since = none → s.table.nextjid = wrap32 (maxjid s.table + 1)
  count : ∀ k, s.since = some k → k < maxJobs ∧ s.table.nextjid = k + 1

theorem Counted.init : Counted .init := by
  refine ⟨.init, fun i hi => ?_, fun _ => by decide, fun k h => ?_⟩
  · show (0 : ℤ) ≤ 2 ^ 31 - 1
    norm_num
  · cases h

variable {s : Numbered}

theorem Counted.maxjid_le (h : Counted s) : maxjid s.table ≤ 2 ^ 31 - 1 :=
  maxjid_le_iff.mpr ⟨by norm_num, h.bounded⟩

/-- The next id, when the counter follows the largest id in use. -/
theorem Counted.nextjid_top (h : Counted s) (hs : s.since = none)
    (hfree : ∀ i < maxJobs, (s.table.job i).jid < 2 ^ 31 - 1) : s.table.nextjid = maxjid s.table + 1 := by
  have h0 := maxjid_nonneg s.table
  have h1 := (maxjid_lt_iff (by norm_num)).mpr hfree
  rw [h.top hs, wrap32_of_range (by omega) (by omega)]

/-- The condition on the calls says that `nextjid` is free. -/
theorem Counted.nextFree_iff (h : Counted s) (op : JobOp) : s.table.NextFree op ↔ s.IdFree op := by
  cases op with
  | delete pid => exact Iff.rfl
  | add pid state cmdline =>
      refine forall_congr' fun room => ?_
      cases hs : s.since with
      | none =>
          constructor
          · rintro ⟨hpos, -⟩
            refine ⟨fun _ => (maxjid_lt_iff (by norm_num)).mp ?_, fun k e => (by cases e)⟩
            -- one more than the largest `int` wraps to a negative number
            by_contra hge
            have htop := h.maxjid_le
            have e : maxjid s.table + 1 = 2 ^ 31 := by omega
            rw [h.top hs, e] at hpos
            revert hpos
            decide
          · rintro ⟨hfree, -⟩
            have hnext := h.nextjid_top hs (hfree rfl)
            have h0 := maxjid_nonneg s.table
            refine ⟨by omega, fun i hi e => ?_⟩
            have := le_maxjid (t := s.table) hi.1
            omega
      | some k =>
          obtain ⟨hk, hnext⟩ := h.count k hs
          rw [hnext]
          constructor
          · rintro ⟨-, hnew⟩
            refine ⟨fun e => (by cases e), fun l e => ?_⟩
            cases e
            intro i hi e
            refine hnew i ⟨hi, fun h0 => ?_⟩ e
            have := h.ids.free i hi h0
            omega
          · rintro ⟨-, hnew⟩
            exact ⟨by omega, fun i hi => hnew k rfl i hi.1⟩

/-- One entry is changed, and gets an id that an `int` holds. -/
theorem jid_le_set {t' : Jobs} {job : Job} {b : ℤ} (h : ∀ k < maxJobs, (t.job k).jid ≤ b)
    (hjob : t'.job = (t.set i job).job) (hle : job.jid ≤ b) : ∀ k < maxJobs, (t'.job k).jid ≤ b := by
  intro k hk
  rw [hjob]
  by_cases e : k = i
  · rw [e, set_job_self]
    exact hle
  · rw [set_job_of_ne e]
    exact h k hk

/-- A call that changes nothing. -/
theorem Counted.unchanged (h : Counted s) {op : JobOp} (htable : (s.after op).table = s.table)
    (hsince : (s.after op).since = s.since) : Counted (s.after op) := by
  obtain ⟨hids, hbounded, htop, hcount⟩ := h
  refine ⟨?_, ?_, ?_, ?_⟩
  · rwa [htable]
  · rwa [htable]
  · rwa [htable, hsince]
  · rwa [htable, hsince]

/-- Invariant step: a job is deleted, or there is none. -/
theorem Counted.delete (h : Counted s) (pid : ℤ) (hids : IdsOk (s.after (.delete pid)).table) :
    Counted (s.after (.delete pid)) := by
  rcases deletejob_cases s.table pid with ⟨i, hi, hp, hpid, hjob⟩ | ⟨hno, hrun⟩
  · have hsince : (s.after (.delete pid)).since = none := if_pos ⟨i, hi, hpid, hp⟩
    refine ⟨hids, jid_le_set h.bounded hjob (by decide), fun _ => deletejob_nextjid hi hpid hp, fun k e => ?_⟩
    rw [hsince] at e
    cases e
  · refine h.unchanged hrun (if_neg ?_)
    rintro ⟨i, hi, hpid, hp⟩
    rcases hno with hno | hno
    · omega
    · exact hno i hi hp

section Add

variable {state : JobState} {cmdline : List UInt8}

/-- Invariant step: a job is added while the counter follows the largest id. -/
theorem Counted.addTop (h : Counted s) (hids : IdsOk (s.after (.add pid state cmdline)).table)
    (hpid : 1 ≤ pid) (hi : i < maxJobs) (hi0 : (s.table.job i).pid = 0)
    (hjob : (addjob s.table pid state cmdline).2.job =
      (s.table.set i ⟨pid, s.table.nextjid, state, cmdline⟩).job)
    (hs : s.since = none) (hfree : ∀ k < maxJobs, (s.table.job k).jid < 2 ^ 31 - 1) :
    Counted (s.after (.add pid state cmdline)) := by
  have room : s.table.Room := ⟨i, hi, hi0⟩
  have hnext := addjob_nextjid hpid room state cmdline
  have hn := h.nextjid_top hs hfree
  have h0 := maxjid_nonneg s.table
  have h1 := (maxjid_lt_iff (by norm_num)).mpr hfree
  have hmax : maxjid (s.after (.add pid state cmdline)).table = max (maxjid s.table) s.table.nextjid := by
    show maxjid (addjob s.table pid state cmdline).2 = _
    rw [maxjid_of_job hjob, maxjid_set hi (h.ids.free i hi hi0)]
  have hsince : (s.after (.add pid state cmdline)).since =
      if maxJobs - 1 ≤ maxjid s.table ∧ maxjid s.table < 2 ^ 31 - 2 then some 0 else none := by
    show (if s.table.Room then _ else _) = _
    rw [if_pos room, hs]
    refine if_congr (and_congr ?_ (maxjid_lt_iff (by norm_num)).symm) rfl rfl
    rw [le_maxjid_iff (by decide)]
    simp only [sub_le_iff_le_add]
  have hcast : ((maxJobs : ℕ) : ℤ) = 16 := rfl
  refine ⟨hids, jid_le_set h.bounded hjob (by show s.table.nextjid ≤ _; omega), fun e => ?_, fun k e => ?_⟩
  · show (addjob s.table pid state cmdline).2.nextjid = _
    rw [hnext, hmax, hn, max_eq_right (by omega)]
    by_cases hsmall : maxjid s.table + 1 + 1 ≤ maxJobs
    · rw [wrap32_of_range (by omega) (by omega), if_neg (by omega)]
    · -- only the largest `int` leaves the counter unbounded by `maxJobs`
      have hlast : maxjid s.table + 1 + 1 = 2 ^ 31 := by
        by_contra hne
        rw [hsince, if_pos (by omega)] at e
        cases e
      rw [hlast]
      decide
  · show k < maxJobs ∧ (addjob s.table pid state cmdline).2.nextjid = _
    rw [hsince] at e
    split at e
    · next hwrap =>
        cases e
        rw [hnext, hn, wrap32_of_range (by omega) (by omega), if_pos (by omega)]
        decide
    · cases e

/-- Invariant step: a job is added after the counter has started again. -/
theorem Counted.addSince (h : Counted s) (hids : IdsOk (s.after (.add pid state cmdline)).table)
    (hpid : 1 ≤ pid) (hi : i < maxJobs) (hi0 : (s.table.job i).pid = 0)
    (hjob : (addjob s.table pid state cmdline).2.job =
      (s.table.set i ⟨pid, s.table.nextjid, state, cmdline⟩).job)
    {k : ℕ} (hs : s.since = some k) : Counted (s.after (.add pid state cmdline)) := by
  have room : s.table.Room := ⟨i, hi, hi0⟩
  have hnext := addjob_nextjid hpid room state cmdline
  obtain ⟨hk, hn⟩ := h.count k hs
  have hmaxJobs : maxJobs = 16 := rfl
  have hsince : (s.after (.add pid state cmdline)).since =
      if k + 1 < maxJobs then some (k + 1) else some 0 := by
    show (if s.table.Room then _ else _) = _
    rw [if_pos room, hs]
  rw [hn, wrap32_of_range (by omega) (by omega)] at hnext
  refine ⟨hids, jid_le_set h.bounded hjob (by show s.table.nextjid ≤ _; omega), fun e => ?_, fun l e => ?_⟩
  · rw [hsince] at e
    split at e <;> cases e
  · show l < maxJobs ∧ (addjob s.table pid state cmdline).2.nextjid = _
    rw [hsince] at e
    split at e
    · next hlt =>
        cases e
        rw [hnext, if_neg (by omega)]
        exact ⟨hlt, by push_cast; ring⟩
    · next hlast =>
        cases e
        rw [hnext, if_pos (by omega)]
        decide

end Add

/-- Invariant step. -/
theorem Counted.step (h : Counted s) (op : JobOp) (hop : s.table.Allowed op) (hfree : s.IdFree op) :
    Counted (s.after op) := by
  have hids : IdsOk (s.after op).table := h.ids.step op hop ((h.nextFree_iff op).mpr hfree)
  cases op with
  | delete pid => exact h.delete pid hids
  | add pid state cmdline =>
      obtain ⟨hpid, -⟩ := hop
      rcases addjob_cases s.table hpid state cmdline with ⟨i, hi, hi0, -, hjob⟩ | ⟨hfull, hrun⟩
      · cases hs : s.since with
        | none => exact h.addTop hids hpid hi hi0 hjob hs ((hfree ⟨i, hi, hi0⟩).1 hs)
        | some k => exact h.addSince hids hpid hi hi0 hjob hs
      · have full : ¬ s.table.Room := by
          rintro ⟨k, hk, hk0⟩
          exact hfull k hk hk0
        exact h.unchanged (congrArg Prod.snd hrun) (if_neg full)

/-- **Job ids are unique in every state of a run exactly if every added job gets a fresh id**:
after an id of `maxJobs` or more was given out and no job deleted since, the `k`-th job to be
added finds the id `k` unused; at any other time the ids in use are below the largest `int`. -/
theorem jobsOk_iff (ops : List JobOp) (allowed : Along Jobs.after Jobs.Allowed initjobs ops) :
    Always Jobs.after JobsOk initjobs ops ↔ Along Numbered.after Numbered.IdFree .init ops := by
  have hallowed : Along Numbered.after (fun s op => s.table.Allowed op) .init ops :=
    (Along.map table_after ops .init).mpr allowed
  constructor
  · intro h
    have hnext : Along Numbered.after (fun s op => s.table.NextFree op) .init ops :=
      (Along.map table_after ops .init).mpr
        (Along.of_always (fun t op => nextFree_of_jobsOk op) ops _ allowed h)
    have hcounted : Always Numbered.after Counted .init ops :=
      Always.of_along (fun s op hs hop => hs.step op hop.1 ((hs.nextFree_iff op).mp hop.2)) ops _ .init
        (Along.and ops _ hallowed hnext)
    exact Along.of_always_before (fun s op hs => (hs.nextFree_iff op).mp) ops _ hcounted hnext
  · intro h
    refine (Always.map table_after ops .init).mp ?_
    refine Always.mono (fun s (hs : Counted s) => hs.ids.jobsOk) ops _ ?_
    exact Always.of_along (fun s op hs hop => hs.step op hop.1 hop.2) ops _ .init
      (Along.and ops _ hallowed h)

/-- Sixteen jobs, of which the first two end; the next two get the ids 17 and 1, and when
both have ended a last one gets the id 17 again. -/
def freshRun : List JobOp :=
  (List.range 16).map (fun k => .add (k + 1) .bg []) ++
    [.delete 1, .delete 2, .add 17 .bg [], .add 18 .fg [], .delete 18, .delete 17, .add 19 .bg []]

/-- A run in which the ids start again at 1. -/
theorem jobsOk_of_small_run : Always Jobs.after JobsOk initjobs freshRun :=
  (jobsOk_iff freshRun (by decide +kernel)).mpr (by decide +kernel)

/-- Sixteen jobs; the second and the third end, and two more are added: the first of them
gets the id 17 and the second the id 1, which the first job still has. -/
def wrappedRun : List JobOp :=
  (List.range 16).map (fun k => .add (k + 1) .bg []) ++
    [.delete 2, .delete 3, .add 17 .bg [], .add 18 .bg []]

/-- **Two live jobs with the id 1.** -/
theorem job_id_twice : ¬ ∀ ops, Along Jobs.after Jobs.Allowed initjobs ops →
    Always Jobs.after JobsOk initjobs ops := by
  intro claim
  have hlast := (claim wrappedRun (by decide +kernel)).last
  have hlive : ∀ i, i = 0 ∨ i = 2 → Live (wrappedRun.foldl Jobs.after initjobs) i := by
    rintro i (rfl | rfl)
    · exact ⟨by decide, by decide +kernel⟩
    · exact ⟨by decide, by decide +kernel⟩
  have h := hlast.jids 0 2 (hlive 0 (.inl rfl)) (hlive 2 (.inr rfl)) (by decide +kernel)
  cases h

end Pintos.Shell
