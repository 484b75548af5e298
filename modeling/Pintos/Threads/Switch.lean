import Pintos.Threads.Queues

/-!
# Yielding, blocking and unblocking

One lemma for each function of the scheduler and of the semaphores that can switch
threads.  Each says that the lists are right afterwards, that one thread runs, and what
the function does to `sync`.  After a yield, a block or an unblock the running thread is
the right one (`Settled`).
-/

namespace Pintos.Threads

open Lib Sched

variable {s s' : Sched} {th : Thread} {t : ThreadPtr} {x : SemaId} {intr : Bool}

/-! ## Setting the status -/

theorem OnlyRunning.noneRunning (ho : OnlyRunning s) {st : Status} (hst : st ≠ .running) :
    NoneRunning (s.setStatus s.running st) := by
  intro u hu
  by_cases e : u = s.running
  · subst e
    rw [statusOf_setStatus_self s st ho.isSome, Option.some.injEq] at hu
    exact hst hu
  · rw [statusOf_setStatus_of_ne s st e] at hu
    exact e ((ho u).mp hu)

theorem OnlyRunning.setStatus (ho : OnlyRunning s) {st : Status} (ht : t ≠ s.running)
    (hst : st ≠ .running) : OnlyRunning (s.setStatus t st) := by
  intro u
  by_cases e : u = t
  · subst e
    refine iff_of_false (fun hu => ?_) ht
    rw [statusOf, Sched.setStatus, threads_modify_self, Option.map_map, Option.map_eq_some_iff] at hu
    obtain ⟨th, -, hth⟩ := hu
    exact hst hth
  · rw [statusOf_setStatus_of_ne s st e]
    exact ho u

/-- Only whether the thread sleeps can change. -/
theorem sync_setStatus (st : Status) : sync (s.setStatus t st) = { sync s with
    asleep := Function.update (sync s).asleep t
      ((s.threads t).isSome ∧ st = .blocked ∧ s.idleThread ≠ some t) } := by
  have hasleep : (sync (s.setStatus t st)).asleep = Function.update (sync s).asleep t
      ((s.threads t).isSome ∧ st = .blocked ∧ s.idleThread ≠ some t) := by
    funext u
    by_cases e : u = t
    · subst e
      rw [Function.update_self]
      refine propext ⟨fun ⟨hst, hi⟩ => ?_, fun ⟨hsome, hst, hi⟩ => ⟨?_, hi⟩⟩
      · have hsome := isSome_of_statusOf _ hst
        rw [Sched.setStatus, isSome_modify] at hsome
        rw [statusOf_setStatus_self s st hsome, Option.some.injEq] at hst
        exact ⟨hsome, hst, hi⟩
      · rw [statusOf_setStatus_self s st hsome, hst]
    · rw [Function.update_of_ne e]
      show (_ ∧ _) = (_ ∧ _)
      rw [statusOf_setStatus_of_ne s st e]
      rfl
  have heq : sync (s.setStatus t st) = { sync s with
      frames := (s.setStatus t st).frames
      asleep := (sync (s.setStatus t st)).asleep } := rfl
  rw [heq, hasleep, frames_setStatus]
  rfl

/-- A thread falls asleep. -/
theorem sync_setStatus_blocked (h : (s.threads t).isSome) (hidle : s.idleThread ≠ some t) :
    sync (s.setStatus t .blocked) =
      { sync s with asleep := Function.update (sync s).asleep t True } := by
  rw [sync_setStatus, eq_true (⟨h, rfl, hidle⟩ : _ ∧ _ ∧ _)]

/-- A thread is woken. -/
theorem sync_setStatus_ready : sync (s.setStatus t .ready) =
    { sync s with asleep := Function.update (sync s).asleep t False } := by
  rw [sync_setStatus, eq_false (fun h : _ ∧ _ ∧ _ => Status.noConfusion h.2.1)]

/-- A thread that does not sleep goes on not to sleep. -/
theorem sync_setStatus_awake {st : Status} (h : ¬ (sync s).asleep t)
    (hst : st = .blocked → s.idleThread = some t) : sync (s.setStatus t st) = sync s := by
  have hnew : ((s.threads t).isSome ∧ st = .blocked ∧ s.idleThread ≠ some t) = (sync s).asleep t :=
    propext (iff_of_false (fun hb => hb.2.2 (hst hb.2.1)) h)
  rw [sync_setStatus, hnew, Function.update_eq_self]

theorem OnlyRunning.awake (ho : OnlyRunning s) : ¬ (sync s).asleep s.running := by
  intro h
  have hb := h.1
  rw [(ho s.running).mpr rfl] at hb
  cases hb

/-- A change that leaves the threads alone. -/
theorem sync_of_threads (hthreads : s'.threads = s.threads) (hidle : s'.idleThread = s.idleThread) :
    sync s' = { sync s with
      semas := s'.semas
      holder := s'.holder
      waitList := s'.waitList
      downs := s'.history.downs
      ups := s'.history.ups
      woken := s'.history.woken
      inside := s'.history.inside } := by
  have hframes : s'.frames = s.frames := by
    funext t
    rw [frames_eq, hthreads, frames_eq]
  have hasleep : (sync s').asleep = (sync s).asleep := by
    funext t
    show (_ ∧ _) = (_ ∧ _)
    rw [statusOf, hthreads, hidle]
    rfl
  have heq : sync s' = { sync s' with
      frames := s'.frames
      asleep := (sync s').asleep
      idleThread := s'.idleThread } := rfl
  rw [heq, hframes, hasleep, hidle]
  rfl

theorem sync_insertReady (t : ThreadPtr) : sync (s.insertReady t) = sync s :=
  (sync_of_threads rfl rfl).trans rfl

theorem sync_listEntry (elems : List Elem) : sync (s.listEntry elems) = sync s :=
  (sync_of_threads rfl rfl).trans rfl

theorem sync_insertWaiter (x : SemaId) (t : ThreadPtr) : sync (s.insertWaiter x t) = { sync s with
    semas := Function.update s.semas x
      { s.semas x with waiters := enqueue s.key t (s.semas x).waiters } } :=
  (sync_of_threads rfl rfl).trans rfl

theorem sync_testing (x : SemaId) : sync (testing s x) = (sync s).test s.running x :=
  (sync_of_threads rfl rfl).trans rfl

theorem sync_takeOne (x : SemaId) : sync (takeOne s x) = (sync s).take x :=
  (sync_of_threads rfl rfl).trans rfl

theorem sync_giveOne (x : SemaId) : sync (giveOne s x) = (sync s).give x :=
  (sync_of_threads rfl rfl).trans rfl

theorem sync_popWaiter (x : SemaId) (t : ThreadPtr) (ws : List ThreadPtr) :
    { sync (popWaiter s x t ws) with
      asleep := Function.update (sync (popWaiter s x t ws)).asleep t False } =
      (sync s).rouse t x ws := by
  rw [@sync_of_threads s (popWaiter s x t ws) rfl rfl]
  rfl

/-- The running thread takes a status that puts it on no list. -/
theorem Lists.setStatus (h : Lists none s) (ho : OnlyRunning s) {st : Status}
    (h1 : st = .ready → s.idleThread = some s.running)
    (h2 : st = .blocked → ∀ x, (s.frames s.running).head? ≠ some (.semaDownAgain x)) :
    Lists none (s.setStatus s.running st) := by
  have hrun := (ho s.running).mpr rfl
  have hopen : Lists (some s.running) (s.setStatus s.running st) := by
    refine (h.openAt (t := s.running) (by simp [hrun]) (by simp [hrun])).congr rfl (fun _ => rfl)
      rfl rfl rfl (fun u hu _ _ => ?_) (fun _ _ _ => by rw [frames_setStatus])
      (fun _ _ _ => by rw [prio_setStatus]) fun i hi x => ?_
    · have hne : u ≠ s.running := fun e => hu (by rw [e])
      rw [statusOf_setStatus_of_ne s st hne]
    · rw [frames_setStatus]
      exact h.idleAwake i hi x
  refine hopen.close (statusOf_setStatus_self s st ho.isSome) h1 fun e x => ?_
  rw [frames_setStatus]
  exact h2 e x

/-! ## Yielding and blocking -/

/-- The running thread is made ready. -/
def makeReady (s : Sched) : Sched :=
  (if s.idleThread ≠ some s.running then s.insertReady s.running else s).setStatus s.running .ready

theorem makeReady_spec (h : Lists none s) (ho : OnlyRunning s) :
    Lists none (makeReady s) ∧ NoneRunning (makeReady s) ∧ sync (makeReady s) = sync s ∧
      (makeReady s).statusOf s.running = some .ready := by
  have hrun := (ho s.running).mpr rfl
  unfold makeReady
  by_cases hidle : s.idleThread = some s.running
  · rw [if_neg (not_not.mpr hidle)]
    exact ⟨h.setStatus ho (fun _ => hidle) (by simp), ho.noneRunning (by simp),
      sync_setStatus_awake ho.awake (by simp), statusOf_setStatus_self s .ready ho.isSome⟩
  · rw [if_pos hidle]
    have ho' : OnlyRunning (s.insertReady s.running) := ho
    have hopen := h.openAt (t := s.running) (by simp [hrun]) (by simp [hrun])
    exact ⟨hopen.insertReady ho.isSome hidle, ho'.noneRunning (by simp),
      (sync_setStatus_awake ho'.awake (by simp)).trans (sync_insertReady _),
      statusOf_setStatus_self (s.insertReady s.running) .ready ho.isSome⟩

theorem threadYield_eq (ho : OnlyRunning s) : threadYield false s = schedule (makeReady s) := by
  obtain ⟨th, -, hcur⟩ := threadCurrent_ok ho
  unfold threadYield makeReady
  rw [hcur]
  by_cases hidle : s.idleThread = some s.running
  · simp only [hidle, ne_eq, not_true_eq_false, if_false]
    rfl
  · simp only [hidle, ne_eq, not_false_eq_true, if_true]
    rfl

theorem threadYield_intr (ho : OnlyRunning s) :
    threadYield true s = s.panic .yieldInInterrupt := by
  obtain ⟨th, -, hcur⟩ := threadCurrent_ok ho
  unfold threadYield
  rw [hcur]
  rfl

theorem makeReady_running : (makeReady s).running = s.running := by
  unfold makeReady
  split <;> rfl

theorem threadYield_spec (h : Lists none s) (ho : OnlyRunning s)
    (hs : threadYield intr s = .ok s') : Settled s' ∧ sync s' = sync s := by
  cases intr with
  | true =>
      rw [threadYield_intr ho] at hs
      cases hs
  | false =>
      rw [threadYield_eq ho] at hs
      obtain ⟨h1, h2, h3, h4⟩ := makeReady_spec h ho
      have hlive : (makeReady s).statusOf (makeReady s).running ≠ some .dying := by
        rw [makeReady_running, h4]
        simp
      obtain ⟨h5, h6⟩ := schedule_spec h1 h2 (fun hd => absurd hd hlive) hs
      exact ⟨h5, h6.trans h3⟩

theorem threadBlock_spec (ho : OnlyRunning s) (h : Lists none (s.setStatus s.running .blocked))
    (hs : threadBlock s = .ok s') :
    Settled s' ∧ sync s' = sync (s.setStatus s.running .blocked) := by
  obtain ⟨th, -, hcur⟩ := threadCurrent_ok ho
  have hs' : schedule (s.setStatus s.running .blocked) = .ok s' := by
    unfold threadBlock at hs
    rwa [hcur] at hs
  have hlive : (s.setStatus s.running .blocked).statusOf s.running = some .blocked :=
    statusOf_setStatus_self s .blocked ho.isSome
  exact schedule_spec h (ho.noneRunning (by simp)) (fun hd => by cases hlive.symm.trans hd) hs'

theorem threadExit_spec (h : Lists none s) (ho : OnlyRunning s) (hframes : s.frames s.running = [])
    (hs : threadExit s = .ok s') : Settled s' ∧ sync s' = sync s := by
  obtain ⟨th, -, hcur⟩ := threadCurrent_ok ho
  have hs' : schedule (s.setStatus s.running .dying) = .ok s' := by
    unfold threadExit at hs
    rwa [hcur] at hs
  obtain ⟨h1, h2⟩ := schedule_spec (h.setStatus ho (by simp) (by simp)) (ho.noneRunning (by simp))
    (fun _ => by rwa [frames_setStatus]) hs'
  exact ⟨h1, h2.trans (sync_setStatus_awake ho.awake (by simp))⟩

/-! ## Unblocking -/

theorem prio_running (h : s.threads s.running = some th) : s.prio s.running = th.priority := by
  simp [prio, h]

/-- The head of the ready list has the highest priority on it. -/
theorem Lists.prio_le_head {hole : Option ThreadPtr} {head : ThreadPtr} {rest : List ThreadPtr}
    (h : Lists hole s) (hready : s.readyList = head :: rest) :
    ∀ u ∈ s.readyList, s.prio u ≤ s.prio head := by
  intro u hu
  have hq := h.readyQueued
  rw [hready] at hq hu
  have hkey : -s.prio head ≤ -s.prio u := hq.head_le u hu
  omega

/-- The end of `thread_unblock`, with a thread on the ready list. -/
theorem preempt_cons (ho : OnlyRunning s) {head : ThreadPtr} {rest : List ThreadPtr}
    (hready : s.readyList = head :: rest) :
    preempt intr s = if s.prio s.running < s.prio head ∧ s.idleThread ≠ some s.running
      then threadYield intr (s.listEntry [.node head]) else .ok (s.listEntry [.node head]) := by
  obtain ⟨th, hth, hcur⟩ := threadCurrent_ok (s := s.listEntry [.node head]) ho
  rw [prio_running (s := s) hth]
  unfold preempt
  rw [hready]
  simp only [listBegin]
  rw [hcur]
  rfl

/-- The end of `thread_unblock` leaves the right thread running. -/
theorem preempt_spec (h : Lists none s) (ho : OnlyRunning s) (hs : preempt intr s = .ok s') :
    Settled s' ∧ sync s' = sync s := by
  cases hready : s.readyList with
  | nil =>
      unfold preempt at hs
      rw [hready] at hs
      cases hs
      exact ⟨⟨h, ho, .inr (by simp [hready])⟩, rfl⟩
  | cons head rest =>
      rw [preempt_cons ho hready] at hs
      split at hs
      · obtain ⟨h1, h2⟩ := threadYield_spec (s := s.listEntry [.node head]) (h.listEntry _) ho hs
        exact ⟨h1, h2.trans (sync_listEntry _)⟩
      · next hc =>
          cases hs
          refine ⟨⟨h.listEntry _, ho, ?_⟩, sync_listEntry _⟩
          by_cases hidle : s.idleThread = some s.running
          · exact .inl hidle
          · refine .inr fun u hu => (h.prio_le_head hready u hu).trans ?_
            exact not_lt.mp fun hlt => hc ⟨hlt, hidle⟩

/-- `thread_unblock` of a thread that has been taken off the lists. -/
theorem threadUnblock_spec (h : Lists (some t) s) (ho : OnlyRunning s)
    (hidle : s.idleThread ≠ some t) (hs : threadUnblock intr s t = .ok s') :
    Settled s' ∧
      sync s' = { sync s with asleep := Function.update (sync s).asleep t False } := by
  unfold threadUnblock at hs
  cases hth : s.threads t with
  | none =>
      rw [hth] at hs
      cases hs
  | some th =>
      simp only [hth] at hs
      split at hs
      · cases hs
      · next hb =>
          have hsome : (s.threads t).isSome := by simp [hth]
          have hst : s.statusOf t = some .blocked := by
            rw [statusOf, hth]
            exact congrArg some (not_not.mp hb)
          have hne : t ≠ s.running := by
            intro e
            rw [(ho t).mpr e] at hst
            cases hst
          have ho' : OnlyRunning (s.insertReady t) := ho
          obtain ⟨h1, h2⟩ := preempt_spec (h.insertReady hsome hidle)
            (ho'.setStatus hne (by simp)) hs
          refine ⟨h1, h2.trans ?_⟩
          rw [sync_setStatus_ready, sync_insertReady]

/-! ## Semaphores -/

theorem giveOne_waiters (y : SemaId) : ((giveOne s x).semas y).waiters = (s.semas y).waiters := by
  by_cases e : y = x
  · subst e
    simp [giveOne]
  · simp [giveOne, e]

theorem takeOne_waiters (y : SemaId) : ((takeOne s x).semas y).waiters = (s.semas y).waiters := by
  by_cases e : y = x
  · subst e
    simp [takeOne]
  · simp [takeOne, e]

/-- Only the values of semaphores change. -/
theorem Lists.values (h : Lists none s) (hready : s'.readyList = s.readyList)
    (hwaiters : ∀ x, (s'.semas x).waiters = (s.semas x).waiters)
    (hidle : s'.idleThread = s.idleThread) (harrival : s'.history.arrival = s.history.arrival)
    (hclock : s'.history.clock = s.history.clock) (hthreads : s'.threads = s.threads) :
    Lists none s' := by
  have hstatus : s'.statusOf = s.statusOf := by
    funext t
    rw [statusOf, hthreads, statusOf]
  have hframes : s'.frames = s.frames := by
    funext t
    rw [frames_eq, hthreads, frames_eq]
  have hprio : s'.prio = s.prio := by
    funext t
    rw [prio_eq, hthreads, prio_eq]
  refine h.congr hready hwaiters hidle harrival hclock (fun t _ st _ => by rw [hstatus])
    (fun t _ _ => by rw [hframes]) (fun t _ _ => by rw [hprio]) fun i hi x => ?_
  rw [hframes]
  exact h.idleAwake i hi x

theorem Lists.giveOne (h : Lists none s) : Lists none (giveOne s x) :=
  h.values rfl giveOne_waiters rfl rfl rfl rfl

theorem Lists.takeOne (h : Lists none s) : Lists none (takeOne s x) :=
  h.values rfl takeOne_waiters rfl rfl rfl rfl

/-- `sema_up`. -/
theorem semaUp_spec (h : Lists none s) (ho : OnlyRunning s) (hs : semaUp intr s x = .ok s') :
    Lists none s' ∧ OnlyRunning s' ∧ (Top s' ∨ s' = giveOne s x) ∧ sync s' = (sync s).up x := by
  have hwait := giveOne_waiters (s := s) (x := x) x
  unfold semaUp at hs
  cases hws : (s.semas x).waiters with
  | nil =>
      simp only [hwait, hws] at hs
      cases hs
      rw [Sync.up_of_nil (sync s) x hws]
      exact ⟨h.giveOne, ho, .inr rfl, sync_giveOne x⟩
  | cons t rest =>
      rw [hws] at hwait
      simp only [hwait] at hs
      have ht := h.waiter_status (t := t) (x := x) (by simp [hws])
      have hidle : s.idleThread ≠ some t := fun hi => h.idleAwake t hi x ht.2.2
      obtain ⟨h1, h2⟩ := threadUnblock_spec (h.giveOne.popWaiter hwait) ho hidle hs
      refine ⟨h1.lists, h1.only, .inl h1.top, h2.trans ?_⟩
      rw [Sync.up_of_cons (sync s) x hws, sync_popWaiter, sync_giveOne]

theorem Lists.testing (h : Lists none s) : Lists none (testing s x) :=
  h.values rfl (fun _ => rfl) rfl rfl rfl rfl

/-- The running thread has more to do first. -/
theorem sync_push (h : (s.threads s.running).isSome) (fs : List Frame) :
    sync (s.push fs) = (sync s).put s.running (fs ++ s.frames s.running) := by
  have hframes : (s.push fs).frames = Function.update s.frames s.running
      (fs ++ s.frames s.running) := by
    funext u
    by_cases e : u = s.running
    · rw [e, Function.update_self, frames_push_self s fs h]
    · rw [Function.update_of_ne e]
      exact frames_modify_of_ne s e
  have hasleep : (sync (s.push fs)).asleep = (sync s).asleep := by
    funext u
    show (_ ∧ _) = (_ ∧ _)
    rw [statusOf_push]
    rfl
  have heq : sync (s.push fs) = { sync s with
      frames := (s.push fs).frames
      asleep := (sync (s.push fs)).asleep } := rfl
  rw [heq, hasleep, hframes]
  rfl

/-- The running thread blocks among the waiters of `x`. -/
theorem insertWaiter_block (h : Lists none s) (ho : OnlyRunning s)
    (hidle : s.idleThread ≠ some s.running)
    (hs : threadBlock ((s.insertWaiter x s.running).push [.semaDownAgain x]) = .ok s') :
    Settled s' ∧ sync s' = ((sync s).wait s.running x
      (enqueue s.key s.running (s.semas x).waiters)).put s.running
        (.semaDownAgain x :: s.frames s.running) := by
  have hrun := (ho s.running).mpr rfl
  have hsome : ((s.insertWaiter x s.running).threads s.running).isSome := ho.isSome
  have hopen := h.openAt (t := s.running) (by simp [hrun]) (by simp [hrun])
  have ho' : OnlyRunning ((s.insertWaiter x s.running).push [.semaDownAgain x]) := by
    intro u
    rw [statusOf_push]
    exact ho u
  obtain ⟨h1, h2⟩ := threadBlock_spec ho' (hopen.insertWaiter ho.isSome hidle) hs
  refine ⟨h1, h2.trans ?_⟩
  have hsome' : (((s.insertWaiter x s.running).push [.semaDownAgain x]).threads
      s.running).isSome := (isSome_modify (s.insertWaiter x s.running)).trans hsome
  have e := sync_setStatus_blocked hsome' hidle
  have e' := sync_push (s := s.insertWaiter x s.running) hsome [.semaDownAgain x]
  rw [sync_insertWaiter] at e'
  rw [e'] at e
  exact e

/-- One round of `sema_down`. -/
theorem semaDown_spec (h : Lists none s) (ho : OnlyRunning s) (hidle : s.idleThread ≠ some s.running)
    (hs : semaDown s x = .ok s') :
    Lists none s' ∧ OnlyRunning s' ∧ (Top s → Top s') ∧
      ((0 < (s.semas x).value ∧ sync s' = ((sync s).test s.running x).take x) ∨
        (s.semas x).value = 0 ∧ ∃ ws, ws.Perm (s.running :: (s.semas x).waiters) ∧
          sync s' = (((sync s).test s.running x).wait s.running x ws).put s.running
            (.semaDownAgain x :: s.frames s.running)) := by
  unfold semaDown at hs
  by_cases hv : (s.semas x).value = 0
  · have hv' : ((testing s x).semas x).value = 0 := hv
    simp only [if_pos hv'] at hs
    obtain ⟨h1, h2⟩ := insertWaiter_block (s := testing s x) h.testing ho hidle hs
    rw [sync_testing] at h2
    exact ⟨h1.lists, h1.only, fun _ => h1.top, .inr ⟨hv, _, enqueue_perm, h2⟩⟩
  · have hv' : ((testing s x).semas x).value ≠ 0 := hv
    simp only [if_neg hv'] at hs
    cases hs
    refine ⟨h.testing.takeOne, ho, fun htop => htop, .inl ⟨Nat.pos_of_ne_zero hv, ?_⟩⟩
    rw [sync_takeOne, sync_testing]

end Pintos.Threads
