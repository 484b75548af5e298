import Pintos.Shell.Jobs

/-!
# Child events in the shell

`sigchld_handler` of `Project0/msh.c`.  One signal may stand for any number of children that
have changed state, so the handler asks `waitpid` again and again.  What `waitpid` reports,
in the order in which it does so, is a list; the list is what is pending when the signal
arrives, each change once.

The branch for a stopped child returns from the handler instead of asking again.

* **`allHandled_iff`** — everything pending is handled exactly if no stop is reported before
  the last change.
* **`zombie_after_stop`** — a child that exits is not reaped because another one stopped.
-/

namespace Pintos.Shell

open Lib

/-- What `waitpid` reports of a child, as `WIFEXITED`, `WIFSIGNALED` and `WIFSTOPPED` tell
it apart. -/
inductive Report where
  | exited
  | signaled
  | stopped
deriving DecidableEq, Repr

/-- The table with the state of one entry changed. -/
def Jobs.setState (t : Jobs) (i : ℕ) (state : JobState) : Jobs :=
  t.set i { t.job i with state }

/-- One round of the loop of `sigchld_handler`: the table afterwards, and whether the loop goes
on.  `none` is the null pointer of `getjobpid`, which is dereferenced. -/
def handleChild (t : Jobs) (pid : ℤ) (status : Report) : Option (Bool × Jobs) :=
  match getjobpid t pid with
  | none => none
  | some i =>
      match status with
      | .signaled => some (true, (deletejob t pid).2)
      | .stopped => some (false, t.setState i .st)
      | .exited => some (true, (deletejob t pid).2)

/-- `sigchld_handler`: what is still pending when it returns, and the table. -/
def sigchldHandler : List (ℤ × Report) → Jobs → Option (List (ℤ × Report) × Jobs)
  | [], t => some ([], t)
  | (pid, status) :: pending, t =>
      match handleChild t pid status with
      | none => none
      | some (true, t) => sigchldHandler pending t
      | some (false, t) => some (pending, t)

/-! ## Lookups by pid -/

variable {t t' : Jobs} {i : ℕ} {pid q : ℤ}

theorem find_congr {p : Job → Bool} (h : ∀ k < maxJobs, p (t'.job k) = p (t.job k)) :
    t'.find p = t.find p := by
  unfold Jobs.find
  apply List.find?_congr
  intro k hk
  exact h k (List.mem_range.mp hk)

/-- A live entry of the table, found by its pid. -/
theorem getjobpid_some (h : getjobpid t pid = some i) :
    1 ≤ pid ∧ i < maxJobs ∧ (t.job i).pid = pid := by
  unfold getjobpid at h
  split at h
  · cases h
  · next hpid =>
      obtain ⟨hi, hp⟩ := find_some h
      exact ⟨by omega, hi, by simpa using hp⟩

theorem getjobpid_eq_none (h : ∀ k < maxJobs, (t.job k).pid ≠ pid) : getjobpid t pid = none := by
  unfold getjobpid
  split
  · rfl
  · exact find_eq_none fun k hk => by simpa using h k hk

theorem getjobpid_congr (h : ∀ k < maxJobs, (t'.job k).pid = pid ↔ (t.job k).pid = pid) :
    getjobpid t' pid = getjobpid t pid := by
  unfold getjobpid
  split
  · rfl
  · exact find_congr fun k hk => by simp [h k hk]

/-- An entry that exists is found. -/
theorem getjobpid_ne_none (hpid : 1 ≤ pid) (hi : i < maxJobs) (h : (t.job i).pid = pid) :
    getjobpid t pid ≠ none := by
  unfold getjobpid
  rw [if_neg (by omega)]
  intro hnone
  have := find_none hnone hi
  simp [h] at this

/-- No two live entries have the same pid. -/
def PidsUnique (t : Jobs) : Prop :=
  ∀ i j, Live t i → Live t j → (t.job i).pid = (t.job j).pid → i = j

theorem PidsUnique.of_pids (h : PidsUnique t) (e : ∀ k, (t'.job k).pid = (t.job k).pid ∨ (t'.job k).pid = 0) :
    PidsUnique t' := by
  intro i j hi hj heq
  have live : ∀ k, Live t' k → Live t k ∧ (t'.job k).pid = (t.job k).pid := by
    intro k hk
    have := (e k).resolve_right hk.2
    exact ⟨⟨hk.1, this ▸ hk.2⟩, this⟩
  obtain ⟨hi, ei⟩ := live i hi
  obtain ⟨hj, ej⟩ := live j hj
  exact h i j hi hj (by rw [← ei, ← ej, heq])

/-- The pids after `deletejob`. -/
theorem deletejob_pid (t : Jobs) (pid : ℤ) (k : ℕ) :
    ((deletejob t pid).2.job k).pid = (t.job k).pid ∨
      (t.job k).pid = pid ∧ ((deletejob t pid).2.job k).pid = 0 := by
  rcases deletejob_cases t pid with ⟨i, hi, hp, -, hjob⟩ | ⟨-, hsame⟩
  · by_cases e : k = i
    · subst e
      refine .inr ⟨hp, ?_⟩
      rw [hjob, set_job_self]
      rfl
    · exact .inl (by rw [hjob, set_job_of_ne e])
  · exact .inl (by rw [hsame])

theorem setState_pid (t : Jobs) (i : ℕ) (state : JobState) (k : ℕ) :
    ((t.setState i state).job k).pid = (t.job k).pid := by
  by_cases e : k = i
  · subst e
    rw [Jobs.setState, set_job_self]
  · rw [Jobs.setState, set_job_of_ne e]

/-- The other jobs are found as before. -/
theorem getjobpid_deletejob_of_ne (hne : q ≠ pid) (hq : q ≠ 0) :
    getjobpid (deletejob t pid).2 q = getjobpid t q := by
  refine getjobpid_congr fun k _ => ?_
  rcases deletejob_pid t pid k with e | ⟨e, e'⟩
  · rw [e]
  · rw [e, e']
    exact iff_of_false (Ne.symm hq) (Ne.symm hne)

/-- The job itself is gone. -/
theorem getjobpid_deletejob_self (hu : PidsUnique t) (hpid : 1 ≤ pid) :
    getjobpid (deletejob t pid).2 pid = none := by
  refine getjobpid_eq_none fun k hk hkpid => ?_
  rcases deletejob_cases t pid with ⟨i, hi, hp, -, hjob⟩ | ⟨hno, hsame⟩
  · rw [hjob] at hkpid
    by_cases e : k = i
    · subst e
      rw [set_job_self] at hkpid
      exact absurd hkpid (show (0 : ℤ) ≠ pid by omega)
    · rw [set_job_of_ne e] at hkpid
      exact e (hu k i ⟨hk, by omega⟩ ⟨hi, by omega⟩ (hkpid.trans hp.symm))
  · rw [hsame] at hkpid
    exact (hno.resolve_left (by omega)) k hk hkpid

theorem getjobpid_setState (state : JobState) :
    getjobpid (t.setState i state) q = getjobpid t q :=
  getjobpid_congr fun k _ => by rw [setState_pid]

/-! ## The handler -/

/-- Every reported change has been dealt with: the job of a child that is gone is deleted, and
the job of a stopped child has the state `ST`. -/
def Dealt (t : Jobs) (r : ℤ × Report) : Prop :=
  match r.2 with
  | .stopped => ∃ i, getjobpid t r.1 = some i ∧ (t.job i).state = .st
  | _ => getjobpid t r.1 = none

/-- **All pending changes are handled**: `waitpid` has reported every one of them, so no zombie
is left, and each has been dealt with. -/
def AllHandled (pending : List (ℤ × Report)) (t : Jobs) : Prop :=
  ∃ t', sigchldHandler pending t = some ([], t') ∧ ∀ r ∈ pending, Dealt t' r

/-- The pending changes are of different children, all of them in the table. -/
structure Pending (pending : List (ℤ × Report)) (t : Jobs) : Prop where
  nodup : (pending.map Prod.fst).Nodup
  tracked : ∀ r ∈ pending, getjobpid t r.1 ≠ none

/-- No stop is reported before the last change. -/
def StopLast (pending : List (ℤ × Report)) : Prop := ∀ r ∈ pending.dropLast, r.2 ≠ .stopped

/-- A round for a child that is gone. -/
theorem handleChild_gone {status : Report} (h : getjobpid t pid ≠ none) (hs : status ≠ .stopped) :
    handleChild t pid status = some (true, (deletejob t pid).2) := by
  obtain ⟨i, hi⟩ := Option.ne_none_iff_exists'.mp h
  unfold handleChild
  rw [hi]
  cases status with
  | exited => rfl
  | signaled => rfl
  | stopped => exact absurd rfl hs

theorem handleChild_stopped (h : getjobpid t pid = some i) :
    handleChild t pid .stopped = some (false, t.setState i .st) := by
  unfold handleChild
  rw [h]

theorem Pending.tail {r : ℤ × Report} {rest : List (ℤ × Report)} (h : Pending (r :: rest) t) :
    Pending rest (deletejob t r.1).2 := by
  have hnodup := List.nodup_cons.mp h.nodup
  refine ⟨hnodup.2, fun r' hr' => ?_⟩
  have hne : r'.1 ≠ r.1 := fun e => hnodup.1 (List.mem_map.mpr ⟨r', hr', e⟩)
  have htracked := h.tracked r' (List.mem_cons_of_mem _ hr')
  obtain ⟨i, hi⟩ := Option.ne_none_iff_exists'.mp htracked
  obtain ⟨hpos, -, -⟩ := getjobpid_some hi
  rw [getjobpid_deletejob_of_ne hne (by omega)]
  exact htracked

/-- Handling the rest of the pending changes does not bring a deleted job back. -/
theorem gone_of_handler : ∀ (pending : List (ℤ × Report)) (t : Jobs) {left : List (ℤ × Report)}
    {t' : Jobs}, sigchldHandler pending t = some (left, t') → q ≠ 0 → getjobpid t q = none →
      getjobpid t' q = none := by
  intro pending
  induction pending with
  | nil =>
      intro t left t' h _ hq
      cases h
      exact hq
  | cons r rest ih =>
      intro t left t' h hq hnone
      obtain ⟨pid, status⟩ := r
      rw [sigchldHandler] at h
      cases hfound : getjobpid t pid with
      | none => simp [handleChild, hfound] at h
      | some i =>
          have hne : q ≠ pid := by
            rintro rfl
            rw [hnone] at hfound
            cases hfound
          by_cases hs : status = .stopped
          · subst hs
            rw [handleChild_stopped hfound] at h
            cases h
            rw [getjobpid_setState]
            exact hnone
          · rw [handleChild_gone (by simp [hfound]) hs] at h
            exact ih _ h hq (by rw [getjobpid_deletejob_of_ne hne hq]; exact hnone)

/-- **If no stop comes before the last change, all are handled.** -/
theorem allHandled_of_stopLast : ∀ (pending : List (ℤ × Report)) (t : Jobs), PidsUnique t →
    Pending pending t → StopLast pending → AllHandled pending t := by
  intro pending
  induction pending with
  | nil => exact fun t _ _ _ => ⟨t, rfl, fun r hr => absurd hr List.not_mem_nil⟩
  | cons r rest ih =>
      intro t hu hp hlast
      obtain ⟨pid, status⟩ := r
      have htracked := hp.tracked _ List.mem_cons_self
      obtain ⟨i, hi⟩ := Option.ne_none_iff_exists'.mp htracked
      obtain ⟨hpos, hlt, -⟩ := getjobpid_some hi
      by_cases hs : status = .stopped
      · -- a stop is the last change
        subst hs
        cases rest with
        | cons r' rest' => exact absurd rfl (hlast (pid, .stopped) List.mem_cons_self)
        | nil =>
            refine ⟨t.setState i .st, ?_, fun r hr => ?_⟩
            · rw [sigchldHandler, handleChild_stopped hi]
            · rw [List.mem_singleton.mp hr]
              refine ⟨i, by rw [getjobpid_setState]; exact hi, ?_⟩
              rw [Jobs.setState, set_job_self]
      · have hu' : PidsUnique (deletejob t pid).2 := by
          refine hu.of_pids fun k => ?_
          rcases deletejob_pid t pid k with e | ⟨-, e⟩
          · exact .inl e
          · exact .inr e
        have hlast' : StopLast rest := by
          intro r' hr'
          cases rest with
          | nil => cases hr'
          | cons r'' rest' => exact hlast r' (List.mem_cons_of_mem _ hr')
        obtain ⟨t', hrun, hdealt⟩ := ih _ hu' hp.tail hlast'
        refine ⟨t', ?_, fun r hr => ?_⟩
        · rw [sigchldHandler, handleChild_gone htracked hs]
          exact hrun
        · rcases List.mem_cons.mp hr with rfl | hr
          · have hgone := gone_of_handler rest _ hrun (by omega : pid ≠ 0)
              (getjobpid_deletejob_self hu hpos)
            cases status with
            | exited => exact hgone
            | signaled => exact hgone
            | stopped => exact absurd rfl hs
          · exact hdealt r hr

/-- A stop before the last change leaves something pending. -/
theorem stopLast_of_handled : ∀ (pending : List (ℤ × Report)) (t : Jobs) {t' : Jobs},
    sigchldHandler pending t = some ([], t') → StopLast pending := by
  intro pending
  induction pending with
  | nil => exact fun t t' _ r hr => absurd hr List.not_mem_nil
  | cons r rest ih =>
      intro t t' h r' hr'
      obtain ⟨pid, status⟩ := r
      rw [sigchldHandler] at h
      cases hfound : getjobpid t pid with
      | none => simp [handleChild, hfound] at h
      | some i =>
          by_cases hs : status = .stopped
          · subst hs
            rw [handleChild_stopped hfound] at h
            cases h
            cases hr'
          · rw [handleChild_gone (by simp [hfound]) hs] at h
            cases rest with
            | nil => cases hr'
            | cons r'' rest' =>
                rcases List.mem_cons.mp hr' with rfl | hr'
                · exact hs
                · exact ih _ h r' hr'

/-- **All pending changes are handled exactly if no stop is reported before the last.** -/
theorem allHandled_iff (pending : List (ℤ × Report)) (t : Jobs) (unique : PidsUnique t)
    (tracked : Pending pending t) : AllHandled pending t ↔ StopLast pending := by
  constructor
  · rintro ⟨t', hrun, -⟩
    exact stopLast_of_handled pending t hrun
  · exact allHandled_of_stopLast pending t unique tracked

/-- Two background jobs. -/
def twoJobs : Jobs := (addjob (addjob initjobs 7 .bg []).2 9 .bg []).2

theorem twoJobs_unique : PidsUnique twoJobs := by
  have hpid : ∀ k, Live twoJobs k → k = 0 ∨ k = 1 := by
    intro k hk
    by_contra hne
    rw [not_or] at hne
    apply hk.2
    show (Function.update (Function.update (fun _ => clearjob) 0 _) 1 _ k).pid = 0
    rw [Function.update_of_ne hne.2, Function.update_of_ne hne.1]
    rfl
  intro i j hi hj e
  rcases hpid i hi with rfl | rfl <;> rcases hpid j hj with rfl | rfl
  · rfl
  · exact absurd e (by decide)
  · exact absurd e (by decide)
  · rfl

/-- One job exits and the other stops. -/
theorem allHandled_twoJobs :
    (PidsUnique twoJobs ∧ Pending [(7, .exited), (9, .stopped)] twoJobs) ∧
      AllHandled [(7, .exited), (9, .stopped)] twoJobs := by
  have tracked : Pending [(7, .exited), (9, .stopped)] twoJobs := ⟨by decide, by decide⟩
  exact ⟨⟨twoJobs_unique, tracked⟩, (allHandled_iff _ _ twoJobs_unique tracked).mpr (by unfold StopLast; decide)⟩

/-- **The job that exits is not reaped** when the other one's stop is reported first. -/
theorem zombie_after_stop : ¬ ∀ (pending : List (ℤ × Report)) (t : Jobs), PidsUnique t →
    Pending pending t → AllHandled pending t := by
  intro claim
  obtain ⟨t', hrun, -⟩ := claim [(9, .stopped), (7, .exited)] twoJobs twoJobs_unique
    ⟨by decide, by decide⟩
  cases hrun

end Pintos.Shell
