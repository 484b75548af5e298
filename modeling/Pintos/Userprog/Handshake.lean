import Mathlib.Tactic
import Pintos.Lib.Runs

/-!
# The handshake of `exec`

`my_exec` of a parent and `start_process` of its children in `fs_PintOS`, in any interleaving, with
the rest of the system as a third party that takes and releases `filesys_lock`.

`my_exec` holds the lock while it waits on `exec_sema`, and the child ups `exec_sema` only after
`load` has succeeded.

* `load` gives its result as it likes; its failure is what the condition `LoadSucceeds` is about.
* `process_execute` fails, as it likes, before there is a child.

* **`handshake_of_loads`** — as long as no `load` fails, the handshake is as it should be.
* **`exec_hangs`** — after a failed `load` it is not.
-/

namespace Pintos.Userprog.Handshake

/-- Who has `filesys_lock`. -/
inductive Holder where
  | parent
  | other
deriving DecidableEq, Repr

/-- Where the parent is. -/
inductive Parent where
  | user
  /-- In `my_exec`, at `lock_acquire`. -/
  | acquiring
  /-- At `process_execute`. -/
  | executing
  /-- In `sema_down`, before a test. -/
  | waiting (pid : ℕ)
  /-- In `sema_down`, blocked. -/
  | blocked (pid : ℕ)
  /-- At `lock_release`; no `pid` for `TID_ERROR`. -/
  | releasing (pid : Option ℕ)
deriving DecidableEq, Repr

/-- Where a child is. -/
inductive Child where
  | loading
  /-- `load` has returned true. -/
  | loaded
  /-- `load` has returned false. -/
  | failed
  /-- `exec_sema` has been upped. -/
  | started
  /-- The child has run, and has terminated. -/
  | exited
  /-- The child has terminated without running. -/
  | dead
deriving DecidableEq, Repr

/-- Parent, children, lock and semaphore. -/
structure System where
  lock : Option Holder
  parent : Parent
  children : ℕ → Option Child
  nextPid : ℕ
  /-- `exec_sema.value`. -/
  value : ℕ
  /-- The calls of `my_exec` that have returned: the child, if there is one, and the value. -/
  results : List (Option ℕ × ℤ)

/-- What may happen. -/
inductive Op where
  | call
  | acquire
  /-- `process_execute` returns `TID_ERROR`. -/
  | refuse
  | create
  | down
  | release
  | load (pid : ℕ) (success : Bool)
  | up (pid : ℕ)
  | exit (pid : ℕ)
  | otherAcquire
  | otherRelease
deriving DecidableEq, Repr

/-- The value that `my_exec` returns. -/
def eax : Option ℕ → ℤ
  | none => -1
  | some pid => pid

/-- The child is at `place` now. -/
def System.setChild (s : System) (pid : ℕ) (place : Child) : System :=
  { s with children := Function.update s.children pid (some place) }

/-- `sema_up`, where the parent alone may wait. -/
def semaUp (s : System) : System :=
  match s.parent with
  | .blocked pid => { s with value := s.value + 1, parent := .waiting pid }
  | _ => { s with value := s.value + 1 }

/-- One step. -/
def exec (s : System) : Op → Except Unit System
  | .call => if s.parent = .user then .ok { s with parent := .acquiring } else .error ()
  | .acquire =>
      if s.parent = .acquiring ∧ s.lock = none then
        .ok { s with parent := .executing, lock := some .parent }
      else .error ()
  | .refuse => if s.parent = .executing then .ok { s with parent := .releasing none } else .error ()
  | .create =>
      if s.parent = .executing then
        .ok { s.setChild s.nextPid .loading with
          parent := .waiting s.nextPid, nextPid := s.nextPid + 1 }
      else .error ()
  | .down =>
      match s.parent with
      | .waiting pid =>
          if s.value = 0 then .ok { s with parent := .blocked pid }
          else .ok { s with parent := .releasing (some pid), value := s.value - 1 }
      | _ => .error ()
  | .release =>
      match s.parent with
      | .releasing pid => .ok { s with
          parent := .user, lock := none, results := s.results ++ [(pid, eax pid)] }
      | _ => .error ()
  | .load pid success =>
      if s.children pid = some .loading then
        .ok (s.setChild pid (if success then .loaded else .failed))
      else .error ()
  -- only after a load that succeeded
  | .up pid =>
      if s.children pid = some .loaded then .ok (semaUp (s.setChild pid .started)) else .error ()
  | .exit pid =>
      match s.children pid with
      | some .failed => .ok (s.setChild pid .dead)
      | some .started => .ok (s.setChild pid .exited)
      | _ => .error ()
  | .otherAcquire => if s.lock = none then .ok { s with lock := some .other } else .error ()
  | .otherRelease => if s.lock = some .other then .ok { s with lock := none } else .error ()

/-- Before the first call. -/
def start : System := ⟨none, .user, fun _ => none, 1, 0, []⟩

/-- The states of the runs whose steps meet a condition. -/
def Reachable (cond : Op → Prop) (s : System) : Prop :=
  Lib.Reaches (Lib.OpStep exec fun _ => cond) start s

/-- `load` has succeeded. -/
def Child.Loaded (c : Child) : Prop := c = .loaded ∨ c = .started ∨ c = .exited

/-- `load` has failed. -/
def Child.Failed (c : Child) : Prop := c = .failed ∨ c = .dead

/-- **What the handshake guarantees.** -/
structure Agreement (s : System) : Prop where
  /-- A call returns the child once its load has succeeded, and -1 otherwise. -/
  returned : ∀ r ∈ s.results, (r.1 = none ∧ r.2 = -1) ∨ ∃ pid c, r.1 = some pid ∧
    s.children pid = some c ∧ (c.Loaded ∧ r.2 = pid ∨ c.Failed ∧ r.2 = -1)
  /-- The parent is not blocked for a child that has terminated without upping `exec_sema`. -/
  awake : ∀ pid, s.parent = .blocked pid → s.children pid ≠ some .dead

/-- The condition on a step. -/
def LoadSucceeds : Op → Prop
  | .load _ success => success = true
  | _ => True

instance : DecidablePred LoadSucceeds
  | .load _ success => inferInstanceAs (Decidable (success = true))
  | .call | .acquire | .refuse | .create | .down | .release | .up _ | .exit _ | .otherAcquire
  | .otherRelease => .isTrue trivial

/-! ## Runs without a failed load -/

/-- The child has upped `exec_sema`. -/
def Child.Up (c : Child) : Prop := c = .started ∨ c = .exited

/-- The child has not yet upped `exec_sema`. -/
def Child.Coming (c : Child) : Prop := c = .loading ∨ c = .loaded

/-- The parent waits for the child. -/
def System.Waits (s : System) (pid : ℕ) : Prop := s.parent = .waiting pid ∨ s.parent = .blocked pid

/-- **The invariant**: a child that is coming is the one that the parent waits for, and the
semaphore has been upped, and the parent is not blocked, once it is there. -/
structure Ok (s : System) : Prop where
  fresh : ∀ pid c, s.children pid = some c → pid < s.nextPid
  others : ∀ pid c, s.children pid = some c → ¬ s.Waits pid → c.Up
  waits : ∀ pid, s.Waits pid → ∃ c, s.children pid = some c ∧
    (c.Coming ∧ s.value = 0 ∨ c.Up ∧ s.value = 1 ∧ s.parent = .waiting pid)
  idle : (∀ pid, ¬ s.Waits pid) → s.value = 0
  releasing : ∀ pid, s.parent = .releasing (some pid) → ∃ c, s.children pid = some c ∧ c.Up
  results : ∀ r ∈ s.results, (r.1 = none ∧ r.2 = -1) ∨ ∃ pid c, r.1 = some pid ∧
    s.children pid = some c ∧ c.Up ∧ r.2 = pid

section

variable {s t : System} {pid : ℕ}

theorem Child.Up.not_coming {c : Child} (h : c.Up) : ¬ c.Coming := by
  rintro (rfl | rfl)
  · rcases h with h | h <;> cases h
  · rcases h with h | h <;> cases h

theorem System.Waits.eq {q : ℕ} (h : s.Waits pid) (hq : s.Waits q) : pid = q := by
  rcases h with h | h <;> rcases hq with hq | hq <;> grind

theorem Ok.agreement (h : Ok s) : Agreement s := by
  refine ⟨fun r hr => ?_, fun pid hp hdead => ?_⟩
  · rcases h.results r hr with hnone | ⟨pid, c, hpid, hc, hup, hval⟩
    · exact .inl hnone
    · exact .inr ⟨pid, c, hpid, hc, .inl ⟨.inr hup, hval⟩⟩
  · obtain ⟨c, hc, hcase⟩ := h.waits pid (.inr hp)
    rw [hdead] at hc
    cases hc
    rcases hcase with ⟨hcoming, -⟩ | ⟨hup, -⟩
    · rcases hcoming with hcoming | hcoming <;> cases hcoming
    · rcases hup with hup | hup <;> cases hup

/-- What has been returned stays right: children that are up stay so. -/
theorem Ok.results_mono (h : Ok s) (hkeep : ∀ pid c, s.children pid = some c → c.Up →
    ∃ c', t.children pid = some c' ∧ c'.Up) (hresults : t.results = s.results) :
    ∀ r ∈ t.results, (r.1 = none ∧ r.2 = -1) ∨ ∃ pid c, r.1 = some pid ∧
      t.children pid = some c ∧ c.Up ∧ r.2 = pid := by
  intro r hr
  rcases h.results r (hresults ▸ hr) with hnone | ⟨pid, c, hpid, hc, hup, hval⟩
  · exact .inl hnone
  · obtain ⟨c', hc', hup'⟩ := hkeep pid c hc hup
    exact .inr ⟨pid, c', hpid, hc', hup', hval⟩

/-- The parent goes on, and is not in `sema_down` before or after; the lock does not matter. -/
theorem Ok.frame (h : Ok s) (hchildren : t.children = s.children) (hnext : t.nextPid = s.nextPid)
    (hvalue : t.value = s.value) (hresults : t.results = s.results)
    (hwaits : ∀ pid, t.Waits pid ↔ s.Waits pid)
      (hparent : ∀ pid, s.parent = .waiting pid → t.parent = .waiting pid)
    (hrel : ∀ pid, t.parent = .releasing (some pid) → s.parent = .releasing (some pid)) : Ok t := by
  refine ⟨?_, ?_, fun pid hw => ?_, fun hidle => ?_, fun pid hr => ?_, ?_⟩
  · rw [hchildren, hnext]
    exact h.fresh
  · simp only [hchildren, hwaits]
    exact h.others
  · obtain ⟨c, hc, hcase⟩ := h.waits pid ((hwaits pid).mp hw)
    rw [hchildren, hvalue]
    exact ⟨c, hc, hcase.imp_right fun hup => ⟨hup.1, hup.2.1, hparent pid hup.2.2⟩⟩
  · rw [hvalue]
    exact h.idle fun pid hw => hidle pid ((hwaits pid).mpr hw)
  · rw [hchildren]
    exact h.releasing pid (hrel pid hr)
  · rw [hchildren, hresults]
    exact h.results

@[grind =] theorem setChild_children (s : System) (pid q : ℕ) (place : Child) :
    (s.setChild pid place).children q = if q = pid then some place else s.children q :=
  Function.update_apply _ _ _ _

/-- **A new child.** -/
theorem Ok.create (h : Ok s) (hp : s.parent = .executing) : Ok { s.setChild s.nextPid .loading with
    parent := .waiting s.nextPid, nextPid := s.nextPid + 1 } := by
  have hold : ∀ pid, ¬ s.Waits pid := by grind [System.Waits]
  have hfree : ∀ c, s.children s.nextPid ≠ some c := fun c hc => absurd (h.fresh _ c hc) (by omega)
  refine ⟨fun pid c hc => ?_, fun pid c hc hw => ?_, fun pid hw => ?_, fun hidle => ?_,
    fun pid hr => ?_,
    h.results_mono (fun pid c hc hup => ⟨c, ?_, hup⟩) rfl⟩
  · have := h.fresh pid c
    grind
  · have := h.others pid c
    grind [System.Waits]
  · have hpid : pid = s.nextPid := by grind [System.Waits]
    exact ⟨.loading, by grind, .inl ⟨.inl rfl, h.idle hold⟩⟩
  · exact absurd (.inl rfl) (hidle s.nextPid)
  · cases hr
  · have := hfree c
    grind

/-- **A test of the semaphore.** -/
theorem Ok.blocks (h : Ok s) (hp : s.parent = .waiting pid) (hzero : s.value = 0) :
    Ok { s with parent := .blocked pid } := by
  have hwaits : ∀ q, System.Waits { s with parent := .blocked pid } q ↔ s.Waits q := by
    grind [System.Waits]
  refine ⟨h.fresh, fun q c hc hw => h.others q c hc fun hs => hw ((hwaits q).mpr hs), fun q hw =>
    ?_,
    fun _ => hzero, fun q hr => (by cases hr), h.results⟩
  obtain ⟨c, hc, hcase⟩ := h.waits q ((hwaits q).mp hw)
  exact ⟨c, hc, hcase.imp_right fun hup => absurd hup.2.1 (by omega)⟩

theorem Ok.passes (h : Ok s) (hp : s.parent = .waiting pid) (hzero : s.value ≠ 0) :
    Ok { s with parent := .releasing (some pid), value := s.value - 1 } := by
  obtain ⟨c, hc, hcase⟩ := h.waits pid (.inl hp)
  obtain ⟨hup, hone, -⟩ := hcase.resolve_left fun hcoming => hzero hcoming.2
  have hnot :
    ∀ q, ¬ System.Waits { s with parent := .releasing (some pid), value := s.value - 1 } q := by
    grind [System.Waits]
  refine ⟨h.fresh, fun q c' hc' _ => ?_, fun q hw => absurd hw (hnot q), fun _ => ?_, fun q hr =>
    ?_, h.results⟩
  · by_cases hq : q = pid
    · subst hq
      rw [hc] at hc'
      cases hc'
      exact hup
    · exact h.others q c' hc' fun hw => hq (hw.eq (.inl hp))
  · show s.value - 1 = 0
    omega
  · cases hr
    exact ⟨c, hc, hup⟩

/-- **The end of a call.** -/
theorem Ok.release (h : Ok s) {child : Option ℕ} (hp : s.parent = .releasing child) :
    Ok { s with parent := .user, lock := none, results := s.results ++ [(child, eax child)] } := by
  have hold : ∀ q, ¬ s.Waits q := by grind [System.Waits]
  have hnew : ∀ q, ¬ System.Waits { s with
      parent := .user, lock := none, results := s.results ++ [(child, eax child)] } q := by
    grind [System.Waits]
  refine ⟨h.fresh, fun q c hc _ => h.others q c hc (hold q), fun q hw => absurd hw (hnew q),
    fun _ => h.idle hold, fun q hr => (by cases hr), fun r hr => ?_⟩
  rcases List.mem_append.mp hr with hr | hr
  · exact h.results r hr
  · obtain rfl := List.mem_singleton.mp hr
    cases child with
    | none => exact .inl ⟨rfl, rfl⟩
    | some pid =>
        obtain ⟨c, hc, hup⟩ := h.releasing pid hp
        exact .inr ⟨pid, c, rfl, hc, hup, rfl⟩

/-- **A child goes on**, and has upped the semaphore before and after, or neither. -/
theorem Ok.setChild (h : Ok s) {c c' : Child} (hc : s.children pid = some c)
    (hup : c.Up ∧ c'.Up ∨ c.Coming ∧ c'.Coming) : Ok (s.setChild pid c') := by
  have hkeep : c.Up → c'.Up := fun h => by
    rcases hup with hup | hup
    · exact hup.2
    · exact absurd hup.1 h.not_coming
  refine ⟨fun q d hd => ?_, fun q d hd hw => ?_, fun q hw => ?_, h.idle, fun q hr => ?_,
    h.results_mono (fun q d hd hdup => ?_) rfl⟩
  · have := h.fresh q
    have := h.fresh pid c hc
    show q < s.nextPid
    grind
  · by_cases hq : q = pid
    · subst hq
      have hd' : d = c' := by grind
      rw [hd']
      exact hkeep (h.others q c hc hw)
    · exact h.others q d (by grind) hw
  · obtain ⟨d, hd, hcase⟩ := h.waits q hw
    by_cases hq : q = pid
    · subst hq
      rw [hc] at hd
      cases hd
      refine ⟨c', by grind, ?_⟩
      rcases hcase with ⟨hcoming, hzero⟩ | ⟨hcup, hrest⟩
      · rcases hup with hup | hup
        · exact absurd hcoming hup.1.not_coming
        · exact .inl ⟨hup.2, hzero⟩
      · exact .inr ⟨hkeep hcup, hrest⟩
    · exact ⟨d, by grind, hcase⟩
  · obtain ⟨d, hd, hdup⟩ := h.releasing q hr
    by_cases hq : q = pid
    · subst hq
      rw [hc] at hd
      cases hd
      exact ⟨c', by grind, hkeep hdup⟩
    · exact ⟨d, by grind, hdup⟩
  · by_cases hq : q = pid
    · subst hq
      rw [hc] at hd
      cases hd
      exact ⟨c', by grind, hkeep hdup⟩
    · exact ⟨d, by grind, hdup⟩

/-- **The child ups the semaphore**: the parent waits for it, and is not blocked any more. -/
theorem Ok.up (h : Ok s) (hc : s.children pid = some .loaded) :
    Ok (semaUp (s.setChild pid .started)) := by
  have hw : s.Waits pid := by
    by_contra hw
    exact (h.others pid _ hc hw).not_coming (.inr rfl)
  obtain ⟨c, hc', hcase⟩ := h.waits pid hw
  rw [hc] at hc'
  cases hc'
  have hzero : s.value = 0 := by
    rcases hcase with hcoming | hup
    · exact hcoming.2
    · exact absurd (.inr rfl) hup.1.not_coming
  have hup : semaUp (s.setChild pid .started) =
      { s.setChild pid .started with value := 1, parent := .waiting pid } := by
    rcases hw with hw | hw <;> simp only [semaUp, System.setChild, hw, hzero]
  rw [hup]
  have hsame :
    ∀ q, System.Waits { s.setChild pid .started with value := 1, parent := .waiting pid } q ↔
      q = pid := by
    intro q
    grind [System.Waits]
  refine ⟨fun q d hd => ?_, fun q d hd hq => ?_, fun q hq => ?_, fun hidle => ?_, fun q hr =>
    (by cases hr),
    h.results_mono (fun q d hd hdup => ?_) rfl⟩
  · have := h.fresh q
    have := h.fresh pid _ hc
    show q < s.nextPid
    grind
  · have hne : q ≠ pid := fun h => hq ((hsame q).mpr h)
    exact h.others q d (by grind) fun hwq => hne (hwq.eq hw)
  · obtain rfl := (hsame q).mp hq
    exact ⟨.started, by grind, .inr ⟨.inl rfl, rfl, rfl⟩⟩
  · exact absurd (.inl rfl) (hidle pid)
  · by_cases hq : q = pid
    · exact ⟨.started, by grind, .inl rfl⟩
    · exact ⟨d, by grind, hdup⟩

/-- No child has failed. -/
theorem Ok.up_or_coming (h : Ok s) {c : Child} (hc : s.children pid = some c) :
    c.Up ∨ c.Coming := by
  by_cases hw : s.Waits pid
  · obtain ⟨d, hd, hcase⟩ := h.waits pid hw
    rw [hc] at hd
    cases hd
    exact hcase.symm.imp (fun h => h.1) fun h => h.1
  · exact .inl (h.others pid c hc hw)

theorem Ok.step (h : Ok s) {op : Op} (hop : LoadSucceeds op) (hstep : exec s op = .ok t) :
    Ok t := by
  cases op with
  | call =>
      simp only [exec] at hstep
      split at hstep
      · cases hstep
        exact h.frame rfl rfl rfl rfl (by grind [System.Waits]) (by grind) (by grind)
      · cases hstep
  | acquire =>
      simp only [exec] at hstep
      split at hstep
      · cases hstep
        exact h.frame rfl rfl rfl rfl (by grind [System.Waits]) (by grind) (by grind)
      · cases hstep
  | refuse =>
      simp only [exec] at hstep
      split at hstep
      · cases hstep
        exact h.frame rfl rfl rfl rfl (by grind [System.Waits]) (by grind) (by grind)
      · cases hstep
  | create =>
      simp only [exec] at hstep
      split at hstep
      · next hp =>
          cases hstep
          exact h.create hp
      · cases hstep
  | down =>
      simp only [exec] at hstep
      split at hstep
      · next pid hp =>
          split at hstep
          · next hzero =>
              cases hstep
              exact h.blocks hp hzero
          · next hzero =>
              cases hstep
              exact h.passes hp hzero
      · cases hstep
  | release =>
      simp only [exec] at hstep
      split at hstep
      · next child hp =>
          cases hstep
          exact h.release hp
      · cases hstep
  | load pid success =>
      obtain rfl : success = true := hop
      simp only [exec] at hstep
      split at hstep
      · next hc =>
          cases hstep
          exact h.setChild hc (.inr ⟨.inl rfl, .inr rfl⟩)
      · cases hstep
  | up pid =>
      simp only [exec] at hstep
      split at hstep
      · next hc =>
          cases hstep
          exact h.up hc
      · cases hstep
  | exit pid =>
      simp only [exec] at hstep
      split at hstep
      · next hc =>
          rcases h.up_or_coming hc with hup | hcoming
          · rcases hup with hup | hup <;> cases hup
          · rcases hcoming with hcoming | hcoming <;> cases hcoming
      · next hc =>
          cases hstep
          exact h.setChild hc (.inl ⟨.inl rfl, .inr rfl⟩)
      · cases hstep
  | otherAcquire =>
      simp only [exec] at hstep
      split at hstep
      · cases hstep
        exact h.frame rfl rfl rfl rfl (by grind [System.Waits]) (by grind) (by grind)
      · cases hstep
  | otherRelease =>
      simp only [exec] at hstep
      split at hstep
      · cases hstep
        exact h.frame rfl rfl rfl rfl (by grind [System.Waits]) (by grind) (by grind)
      · cases hstep

theorem Ok.start : Ok start :=
  ⟨fun _ _ hc => (by cases hc), fun _ _ hc => (by cases hc), fun _ hw =>
    (by rcases hw with hw | hw <;> cases hw),
    fun _ => rfl, fun _ hr => (by cases hr), fun _ hr => (by cases hr)⟩

/-- **As long as no load fails, the handshake is as it should be**, in every state of every run. -/
theorem handshake_of_loads (h : Reachable LoadSucceeds s) : Agreement s := by
  have hstep : ∀ s t, Lib.OpStep exec (fun _ => LoadSucceeds) s t → Ok s → Ok t :=
    fun _ _ ⟨_, hop, hstep⟩ hs => hs.step hop hstep
  exact (Lib.Reaches.induct hstep h Ok.start).agreement

/-- A call that returns its child. -/
def oneCall : List Op := [.call, .acquire, .create, .down, .load 1 true, .up 1, .down, .release]

theorem handshake_oneCall : ∃ s, Lib.replay exec (fun _ => LoadSucceeds) start oneCall = some s ∧
    s.results = [(some 1, 1)] ∧ Agreement s := by
  obtain ⟨s, hs, hresults⟩ : ∃ s, Lib.replay exec (fun _ => LoadSucceeds) start oneCall = some s ∧
      s.results = [(some 1, 1)] := ⟨_, rfl, rfl⟩
  exact ⟨s, hs, hresults, handshake_of_loads (Lib.replay_reaches oneCall hs)⟩

/-- A call whose child fails to load. -/
def failedCall : List Op := [.call, .acquire, .create, .down, .load 1 false, .exit 1]

/-- **The parent is blocked for ever**, with the lock. -/
theorem exec_hangs : ¬ ∀ s, Reachable (fun _ => True) s → Agreement s := by
  intro h
  obtain ⟨s, hs, hparent, hdead⟩ : ∃ s, Lib.replay exec (fun _ _ => True) start failedCall =
    some s ∧
      s.parent = .blocked 1 ∧ s.children 1 = some .dead := ⟨_, rfl, rfl, rfl⟩
  exact (h s (Lib.replay_reaches failedCall hs)).awake 1 hparent hdead

end

end Pintos.Userprog.Handshake
