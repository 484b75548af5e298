import Pintos.Threads.Machine

/-!
# Wake-ups by the timer interrupt

The handler wakes the sleepers that are due with `sema_up`, and `sema_up` ends in
`thread_unblock`, which yields when a ready thread has a higher priority than the running
one; `thread_yield` must not run in an interrupt.  `WakesSafely` says when that does not
happen, and `timerInterrupt_completes_iff` that it is exactly then that the handler
completes, in every state of a run whose steps are undisturbed.
-/

namespace Pintos.Threads

open Lib Sched

variable {s s' : Sched} {t : ThreadPtr} {l : List ThreadPtr}

/-- The sleepers that the next timer interrupt wakes. -/
def dueSleepers (s : Sched) : List ThreadPtr :=
  s.waitList.takeWhile fun t => s.wakeup t ≤ s.ticks + 1

/-- The sleepers in `l` can be woken without a yield: the idle thread runs, or none of them
has blocked yet, or neither a ready thread nor one of those that have blocked has a higher
priority than the running thread. -/
def WakesSafely (s : Sched) (l : List ThreadPtr) : Prop :=
  s.idleThread = some s.running ∨ (∀ t ∈ l, (s.semas (.sleep t)).waiters = []) ∨
    (∀ t ∈ s.readyList, s.prio t ≤ s.prio s.running) ∧
      ∀ t ∈ l, (s.semas (.sleep t)).waiters ≠ [] → s.prio t ≤ s.prio s.running

instance (s : Sched) (l : List ThreadPtr) : Decidable (WakesSafely s l) :=
  inferInstanceAs (Decidable (s.idleThread = some s.running ∨
    (∀ t ∈ l, (s.semas (.sleep t)).waiters = []) ∨
    (∀ t ∈ s.readyList, s.prio t ≤ s.prio s.running) ∧
      ∀ t ∈ l, (s.semas (.sleep t)).waiters ≠ [] → s.prio t ≤ s.prio s.running))

/-- The state after `t` has been woken in an interrupt. -/
structure WokenTo (s : Sched) (t : ThreadPtr) (s' : Sched) : Prop where
  running : s'.running = s.running
  idleThread : s'.idleThread = s.idleThread
  ticks : s'.ticks = s.ticks
  prio : s'.prio = s.prio
  wakeup : s'.wakeup = s.wakeup
  ready : ∀ u, u ∈ s'.readyList ↔ u ∈ s.readyList ∨ u = t ∧ (s.semas (.sleep t)).waiters ≠ []
  waiters : ∀ y, (s'.semas y).waiters = if y = .sleep t then [] else (s.semas y).waiters

/-- Only the thread itself waits for its `sema_sleep`. -/
theorem waiters_sleep (h : Lists none s) (hshape : (sync s).Shape) :
    (s.semas (.sleep t)).waiters = [] ∨ (s.semas (.sleep t)).waiters = [t] := by
  have hself : ∀ u ∈ (s.semas (.sleep t)).waiters, u = t := by
    intro u hu
    have hw := (h.waiters _ u (by simp)).mp hu
    have hg : Good u (s.frames u) := hshape u
    cases hfr : s.frames u with
    | nil => simp [hfr] at hw
    | cons f fs =>
        rw [hfr] at hg hw
        have e : f = .semaDownAgain (.sleep t) := by simpa using hw.2
        rw [e] at hg
        exact hg.1.1.symm
  have hnodup := (h.waitersQueued (.sleep t)).nodup
  cases hws : (s.semas (.sleep t)).waiters with
  | nil => exact .inl rfl
  | cons u ws =>
      rw [hws] at hself hnodup
      have hu : u = t := hself u List.mem_cons_self
      refine .inr ?_
      cases ws with
      | nil => rw [hu]
      | cons v vs =>
          have hv : v = t := hself v (by simp)
          rw [hu, hv] at hnodup
          simp at hnodup

/-- `preempt` in an interrupt, with a thread on the ready list. -/
theorem preempt_intr (h : Lists none s) (ho : OnlyRunning s) (hready : s.readyList ≠ []) :
    ((s.idleThread = some s.running ∨ ∀ u ∈ s.readyList, s.prio u ≤ s.prio s.running) →
      ∃ elems, preempt true s = .ok (s.listEntry elems)) ∧
    (¬ (s.idleThread = some s.running ∨ ∀ u ∈ s.readyList, s.prio u ≤ s.prio s.running) →
      ∃ c, preempt true s = .error ⟨.yieldInInterrupt, c⟩) := by
  cases hr : s.readyList with
  | nil => exact absurd hr hready
  | cons head rest =>
      have hmax : (∀ u ∈ head :: rest, s.prio u ≤ s.prio s.running) ↔
          s.prio head ≤ s.prio s.running :=
        ⟨fun hle => hle head List.mem_cons_self, fun hle u hu =>
          (h.prio_le_head hr u (hr ▸ hu)).trans hle⟩
      rw [hmax, preempt_cons ho hr]
      refine ⟨fun hc => ⟨[.node head], if_neg ?_⟩, fun hc => ?_⟩
      · rintro ⟨hlt, hne⟩
        rcases hc with hi | hle
        · exact hne hi
        · exact not_lt.mpr hle hlt
      · rw [if_pos ⟨not_le.mp fun hle => hc (.inr hle), fun hi => hc (.inl hi)⟩]
        exact ⟨_, threadYield_intr (s := s.listEntry [.node head]) ho⟩

/-- The state after a thread has been put on the ready list in an interrupt. -/
structure Joined (s : Sched) (t : ThreadPtr) (s' : Sched) : Prop where
  running : s'.running = s.running
  idleThread : s'.idleThread = s.idleThread
  ticks : s'.ticks = s.ticks
  prio : s'.prio = s.prio
  wakeup : s'.wakeup = s.wakeup
  semas : s'.semas = s.semas
  ready : ∀ u, u ∈ s'.readyList ↔ u = t ∨ u ∈ s.readyList

/-- `thread_unblock` in an interrupt. -/
theorem threadUnblock_intr (h : Lists (some t) s) (ho : OnlyRunning s)
    (hst : s.statusOf t = some .blocked) (hidle : s.idleThread ≠ some t) :
    ((s.idleThread = some s.running ∨ ∀ u, u = t ∨ u ∈ s.readyList → s.prio u ≤ s.prio s.running) →
      ∃ s', threadUnblock true s t = .ok s' ∧ Joined s t s') ∧
    (¬ (s.idleThread = some s.running ∨
        ∀ u, u = t ∨ u ∈ s.readyList → s.prio u ≤ s.prio s.running) →
      ∃ c, threadUnblock true s t = .error ⟨.yieldInInterrupt, c⟩) := by
  have hne : t ≠ s.running := by
    intro e
    rw [(ho t).mpr e] at hst
    cases hst
  have ho' : OnlyRunning (s.insertReady t) := ho
  have hlists := h.insertReady (isSome_of_statusOf s hst) hidle
  have honly := ho'.setStatus hne (show Status.ready ≠ .running by simp)
  have hmem : ∀ u, u ∈ ((s.insertReady t).setStatus t .ready).readyList ↔
      u = t ∨ u ∈ s.readyList := fun u => mem_enqueue
  have hprio : ((s.insertReady t).setStatus t .ready).prio = s.prio :=
    prio_setStatus (s.insertReady t) t .ready
  have hup : threadUnblock true s t = preempt true ((s.insertReady t).setStatus t .ready) := by
    rw [statusOf, Option.map_eq_some_iff] at hst
    obtain ⟨th, hth, hb⟩ := hst
    unfold threadUnblock
    simp only [hth, hb, ne_eq, not_true_eq_false, if_false]
  obtain ⟨h1, h2⟩ := preempt_intr hlists honly (List.ne_nil_of_mem ((hmem t).mpr (.inl rfl)))
  simp only [hmem, hprio] at h1 h2
  rw [hup]
  refine ⟨fun hc => ?_, h2⟩
  obtain ⟨elems, he⟩ := h1 hc
  exact ⟨_, he, rfl, rfl, rfl, hprio, wakeup_setStatus (s.insertReady t) t .ready, rfl, hmem⟩

theorem popWaiter_waiters (x y : SemaId) (ws : List ThreadPtr) :
    ((popWaiter s x t ws).semas y).waiters = if y = x then ws else (s.semas y).waiters := by
  show ((Function.update s.semas x _) y).waiters = _
  split
  · next e => rw [e, Function.update_self]
  · next e => rw [Function.update_of_ne e]

/-- `sema_up` of a sleeper in the timer interrupt. -/
theorem semaUp_intr (h : Lists none s) (ho : OnlyRunning s) (hshape : (sync s).Shape) :
    (WakesSafely s [t] → ∃ s', semaUp true s (.sleep t) = .ok s' ∧ WokenTo s t s') ∧
    (¬ WakesSafely s [t] → ∃ c, semaUp true s (.sleep t) = .error ⟨.yieldInInterrupt, c⟩) := by
  have hwait := giveOne_waiters (s := s) (x := .sleep t) (.sleep t)
  rcases waiters_sleep (t := t) h hshape with hws | hws
  · have hup : semaUp true s (.sleep t) = .ok (giveOne s (.sleep t)) := by
      unfold semaUp
      simp only [hwait, hws]
    refine ⟨fun _ => ⟨_, hup, ⟨rfl, rfl, rfl, rfl, rfl, fun u => ?_, fun y => ?_⟩⟩,
      fun hc => absurd (.inr (.inl (by simp [hws]))) hc⟩
    · simp [hws, giveOne]
    · rw [giveOne_waiters]
      split
      · next e => rw [e, hws]
      · rfl
  · have ht := h.waiter_status (t := t) (x := .sleep t) (by simp [hws])
    have hidle : s.idleThread ≠ some t := fun hi => h.idleAwake t hi _ ht.2.2
    rw [hws] at hwait
    have hup : semaUp true s (.sleep t) =
        threadUnblock true (popWaiter (giveOne s (.sleep t)) (.sleep t) t []) t := by
      unfold semaUp
      simp only [hwait]
    have hsafe : WakesSafely s [t] ↔ (s.idleThread = some s.running ∨
        ∀ u, u = t ∨ u ∈ s.readyList → s.prio u ≤ s.prio s.running) := by
      simp only [WakesSafely, List.mem_singleton, forall_eq, hws, List.cons_ne_nil, false_or,
        ne_eq, not_false_eq_true, forall_true_left]
      apply or_congr_right
      constructor
      · rintro ⟨h1, h2⟩ u (rfl | hu)
        · exact h2
        · exact h1 u hu
      · intro hle
        exact ⟨fun u hu => hle u (.inr hu), hle t (.inl rfl)⟩
    obtain ⟨h1, h2⟩ := threadUnblock_intr (h.giveOne.popWaiter hwait) ho ht.2.1 hidle
    rw [hsafe, hup]
    refine ⟨fun hc => ?_, h2⟩
    obtain ⟨s', hs, hj⟩ := h1 hc
    refine ⟨s', hs, hj.running, hj.idleThread, hj.ticks, hj.prio, hj.wakeup, fun u => ?_,
      fun y => ?_⟩
    · refine (hj.ready u).trans ?_
      simp only [hws, ne_eq, List.cons_ne_nil, not_false_eq_true, and_true]
      exact or_comm
    · rw [hj.semas, popWaiter_waiters, giveOne_waiters]

/-! ## The loop -/

theorem WakesSafely.head (h : WakesSafely s (t :: l)) : WakesSafely s [t] := by
  refine h.imp id (Or.imp (fun h2 u hu => h2 u ?_) fun ⟨h1, h2⟩ => ⟨h1, fun u hu => h2 u ?_⟩)
  · rw [List.mem_singleton.mp hu]
    exact List.mem_cons_self
  · rw [List.mem_singleton.mp hu]
    exact List.mem_cons_self

theorem WokenTo.waiters_of_ne (h : WokenTo s t s') {u : ThreadPtr} (hu : u ≠ t) :
    (s'.semas (.sleep u)).waiters = (s.semas (.sleep u)).waiters := by
  rw [h.waiters, if_neg fun e => hu (SemaId.sleep.inj e)]

/-- The sleepers after the first can be woken safely afterwards. -/
theorem WakesSafely.tail (h : WakesSafely s (t :: l)) (hw : WokenTo s t s') : WakesSafely s' l := by
  unfold WakesSafely
  rw [hw.running, hw.idleThread, hw.prio]
  refine h.imp id (Or.imp (fun h2 u hu => ?_) fun ⟨h1, h2⟩ => ⟨fun u hu => ?_, fun u hu hne => ?_⟩)
  · by_cases e : u = t
    · rw [e, hw.waiters, if_pos rfl]
    · rw [hw.waiters_of_ne e]
      exact h2 u (.tail _ hu)
  · rcases (hw.ready u).mp hu with hu | ⟨rfl, hne⟩
    · exact h1 u hu
    · exact h2 u List.mem_cons_self hne
  · by_cases e : u = t
    · rw [e, hw.waiters, if_pos rfl] at hne
      exact absurd rfl hne
    · rw [hw.waiters_of_ne e] at hne
      exact h2 u (.tail _ hu) hne

/-- The sleepers can be woken safely if the first can and the others can afterwards. -/
theorem WakesSafely.cons (h : WakesSafely s [t]) (hw : WokenTo s t s') (htail : WakesSafely s' l) :
    WakesSafely s (t :: l) := by
  unfold WakesSafely at htail
  rw [hw.running, hw.idleThread, hw.prio] at htail
  rcases htail with hi | hempty | ⟨hready, hsleep⟩
  · exact .inl hi
  · have hl : ∀ u ∈ l, u ≠ t → (s.semas (.sleep u)).waiters = [] := by
      intro u hu hne
      rw [← hw.waiters_of_ne hne]
      exact hempty u hu
    rcases h with hi | hnone | ⟨h1, h2⟩
    · exact .inl hi
    · refine .inr (.inl fun u hu => ?_)
      by_cases e : u = t
      · rw [e]
        exact hnone t List.mem_cons_self
      · exact hl u ((List.mem_cons.mp hu).resolve_left e) e
    · refine .inr (.inr ⟨h1, fun u hu hne => ?_⟩)
      by_cases e : u = t
      · rw [e] at hne ⊢
        exact h2 t List.mem_cons_self hne
      · exact absurd (hl u ((List.mem_cons.mp hu).resolve_left e) e) hne
  · refine .inr (.inr ⟨fun u hu => hready u ((hw.ready u).mpr (.inl hu)), fun u hu hne => ?_⟩)
    by_cases e : u = t
    · rw [e] at hne ⊢
      exact hready t ((hw.ready t).mpr (.inr ⟨rfl, hne⟩))
    · refine hsleep u ((List.mem_cons.mp hu).resolve_left e) ?_
      rwa [hw.waiters_of_ne e]

/-- **The loop of the timer interrupt** completes if the sleepers that are due can be woken
safely; else it yields in the interrupt. -/
theorem wakeLoop_intr (l : List ThreadPtr) (h : Lists none s) (ho : OnlyRunning s)
    (hshape : (sync s).Shape) :
    (WakesSafely s (l.takeWhile fun t => s.wakeup t ≤ s.ticks) → ∃ s', wakeLoop l s = .ok s') ∧
    (¬ WakesSafely s (l.takeWhile fun t => s.wakeup t ≤ s.ticks) →
      ∃ c, wakeLoop l s = .error ⟨.yieldInInterrupt, c⟩) := by
  induction l generalizing s with
  | nil => exact ⟨fun _ => ⟨s, rfl⟩, fun hc => absurd (.inr (.inl (by simp))) hc⟩
  | cons t rest ih =>
      by_cases hdue : s.wakeup t ≤ s.ticks
      · set r : Sched := { s.listEntry [.node t] with waitList := s.waitList.erase t } with hr
        have hloop : wakeLoop (t :: rest) s = (semaUp true r (.sleep t)).bind (wakeLoop rest) := by
          have hdue' : (s.listEntry [.node t]).wakeup t ≤ (s.listEntry [.node t]).ticks := hdue
          unfold wakeLoop
          simp only [if_pos hdue']
          rfl
        have htake : (t :: rest).takeWhile (fun t => decide (s.wakeup t ≤ s.ticks)) =
            t :: rest.takeWhile fun t => decide (s.wakeup t ≤ s.ticks) := by simp [hdue]
        have hlists : Lists none r := h.values rfl (fun _ => rfl) rfl rfl rfl rfl
        have hshape' : (sync r).Shape := hshape
        obtain ⟨h1, h2⟩ := semaUp_intr (t := t) hlists ho hshape'
        rw [hloop, htake]
        by_cases hsafe : WakesSafely s [t]
        · obtain ⟨s', hs', hw⟩ := h1 hsafe
          obtain ⟨hl', ho', -, hsync⟩ := semaUp_spec hlists ho hs'
          have hshape'' : (sync s').Shape := by
            rw [hsync]
            exact fun u => by
              rw [Sync.up_frames]
              exact hshape u
          obtain ⟨ih1, ih2⟩ := ih hl' ho' hshape''
          rw [hw.wakeup, hw.ticks] at ih1 ih2
          have hw' : WokenTo s t s' := ⟨hw.running, hw.idleThread, hw.ticks, hw.prio, hw.wakeup,
            hw.ready, hw.waiters⟩
          rw [hs']
          exact ⟨fun hc => ih1 (hc.tail hw'), fun hc => ih2 fun htail => hc (hsafe.cons hw' htail)⟩
        · obtain ⟨c, hc⟩ := h2 hsafe
          rw [hc]
          exact ⟨fun hc' => absurd hc'.head hsafe, fun _ => ⟨c, rfl⟩⟩
      · have hdue' : ¬ (s.listEntry [.node t]).wakeup t ≤ (s.listEntry [.node t]).ticks := hdue
        have hloop : wakeLoop (t :: rest) s = .ok (s.listEntry [.node t]) := by
          unfold wakeLoop
          simp only [if_neg hdue']
        refine ⟨fun _ => ⟨_, hloop⟩, fun hc => absurd (.inr (.inl ?_)) hc⟩
        simp [hdue]

/-- **The handler completes** in a reachable state exactly when the sleepers that are due can be woken
safely; else it executes `thread_yield` in the interrupt. -/
theorem handler_completes_iff {main : ThreadPtr} {value : ℕ → ℕ} (h : Reach (start main value) s) :
    ((∃ s', timerInterrupt s = .ok s') ↔ WakesSafely s (dueSleepers s)) ∧
    ((∃ c, timerInterrupt s = .error ⟨.yieldInInterrupt, c⟩) ↔ ¬ WakesSafely s (dueSleepers s)) := by
  obtain ⟨hsound, -⟩ := h.sound
  obtain ⟨th, -, hcur⟩ := threadCurrent_ok hsound.only
  set r : Sched := { s with ticks := s.ticks + 1, threadTicks := s.threadTicks + 1 } with hr
  have hloop : timerInterrupt s = wakeLoop r.waitList r := by
    unfold timerInterrupt
    rw [hcur]
    rfl
  have hlists : Lists none r := hsound.lists.values rfl (fun _ => rfl) rfl rfl rfl rfl
  obtain ⟨h1, h2⟩ := wakeLoop_intr r.waitList hlists hsound.only hsound.shape
  have hsafe : WakesSafely r (r.waitList.takeWhile fun t => r.wakeup t ≤ r.ticks) =
      WakesSafely s (dueSleepers s) := rfl
  rw [hsafe] at h1 h2
  rw [hloop]
  refine ⟨⟨fun ⟨s', hs⟩ => ?_, h1⟩, ⟨fun ⟨c, hc⟩ hsafe => ?_, h2⟩⟩
  · by_contra hc
    obtain ⟨c, he⟩ := h2 hc
    rw [hs] at he
    cases he
  · obtain ⟨s', hs⟩ := h1 hsafe
    rw [hs] at hc
    cases hc

/-- **The timer interrupt completes**, in a run of undisturbed steps and at a tick that does not disturb
it either, exactly when the sleepers that are due can be woken safely; else it executes `thread_yield`
in the interrupt. -/
theorem timerInterrupt_completes_iff {main : ThreadPtr} {value : ℕ → ℕ} {m : Machine}
    (h : ReachUnder Undisturbed (startMachine main value) m) (htick : Undisturbed m (.event .tick)) :
    ((∀ r, m.Handles r → ∃ s', r = .ok s') ↔ WakesSafely m.sched (dueSleepers m.sched)) ∧
    ((∃ c, m.Handles (.error ⟨.yieldInInterrupt, c⟩)) ↔
      ¬ WakesSafely m.sched (dueSleepers m.sched)) := by
  have hreach : Reach (start main value) m.sched := reach_of_undisturbed (fun _ _ hcond => hcond) h
  have hhandles : ∀ r, m.Handles r ↔ r = timerInterrupt m.sched := fun r =>
    or_iff_right (by rw [htick.1]; decide)
  obtain ⟨hcompletes, hyields⟩ := handler_completes_iff hreach
  refine ⟨Iff.trans ⟨fun hall => ?_, ?_⟩ hcompletes, Iff.trans (exists_congr fun c => ?_) hyields⟩
  · exact hall _ ((hhandles _).mpr rfl)
  · rintro ⟨s', hs⟩ r hr
    exact ⟨s', ((hhandles r).mp hr).trans hs⟩
  · exact (hhandles _).trans eq_comm

/-- A thread with a high priority sleeps for one tick, and the initial thread takes an even higher
one. -/
theorem timerInterrupt_completes_after_raise : ∃ m, ReachUnder Undisturbed (startMachine 0 fun _ => 0) m ∧
    dueSleepers m.sched = [2] ∧ m.sched.prio 2 = 40 ∧ ∀ r, m.Handles r → ∃ s', r = .ok s' := by
  have hrun : (replay Machine.exec (fun m move => Undisturbed m move ∧ m.Can move)
      (startMachine 0 fun _ => 0) (bootMoves ++ createMoves 40 2 ++ moves [.run none 0] ++ sleepMoves 1 ++
        moves [.call (.threadSetPriority 50), .run none 0] ++ .enter :: moves [.run none 0])).map
          (fun m => (dueSleepers m.sched, m.sched.prio 2,
            decide (WakesSafely m.sched (dueSleepers m.sched)),
              decide (Undisturbed m (.event .tick)))) = some ([2], 40, true, true) := by
    decide +kernel
  obtain ⟨m, hm, e⟩ := Option.map_eq_some_iff.mp hrun
  obtain ⟨e1, e2, e3, e4⟩ : dueSleepers m.sched = [2] ∧ m.sched.prio 2 = 40 ∧
      decide (WakesSafely m.sched (dueSleepers m.sched)) = true ∧
        decide (Undisturbed m (.event .tick)) = true := by
    simpa only [Prod.mk.injEq] using e
  have hreach := reachUnder_of_replay hm
  exact ⟨m, hreach, e1, e2,
    (timerInterrupt_completes_iff hreach (of_decide_eq_true e4)).1.mpr (of_decide_eq_true e3)⟩

/-- Where a call panicked. -/
def stopSite : Except Panic Sched → Option Site
  | .ok _ => none
  | .error e => some e.site

/-- A thread with a higher priority than the initial thread's sleeps for one tick: the
interrupt that wakes it executes `thread_yield`. -/
theorem timerInterrupt_yields : ∃ m, ReachUnder Undisturbed (startMachine 0 fun _ => 0) m ∧
    Undisturbed m (.event .tick) ∧ m.sched.waitList = [2] ∧
      ∃ c, m.Handles (.error ⟨.yieldInInterrupt, c⟩) := by
  have hrun : (replay Machine.exec (fun m move => Undisturbed m move ∧ m.Can move)
      (startMachine 0 fun _ => 0) (bootMoves ++ createMoves 63 2 ++ moves [.run none 0] ++ sleepMoves 1)).map
        (fun m => (m.sched.waitList, decide (Undisturbed m (.event .tick)),
          stopSite (timerInterrupt m.sched))) = some ([2], true, some .yieldInInterrupt) := by
    decide +kernel
  obtain ⟨m, hm, e⟩ := Option.map_eq_some_iff.mp hrun
  obtain ⟨e1, e2, e3⟩ : m.sched.waitList = [2] ∧ decide (Undisturbed m (.event .tick)) = true ∧
      stopSite (timerInterrupt m.sched) = some .yieldInInterrupt := by
    simpa only [Prod.mk.injEq] using e
  refine ⟨m, reachUnder_of_replay hm, of_decide_eq_true e2, e1, ?_⟩
  cases htick : timerInterrupt m.sched with
  | ok r =>
      rw [htick] at e3
      cases e3
  | error p =>
      rw [htick] at e3
      refine ⟨p.converted, .inr ?_⟩
      rw [htick, ← Option.some.inj e3]

end Pintos.Threads
