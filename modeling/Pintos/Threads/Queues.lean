import Pintos.Threads.Sync

/-!
# The ready list and the lists of waiters

`Lists` says which threads are on which list and in which order.  A thread that is
being moved from one list to another may be left out (the *hole*): the steps of the
scheduler take a thread out, change it, and put it back, and each half is one lemma.

A switch of threads leaves `sync` alone.
-/

namespace Pintos.Threads

open Lib Sched

/-! ## Views of the state -/

section Views

variable (s : Sched) {t u : ThreadPtr} {f : Thread → Thread}

theorem threads_modify_of_ne (h : u ≠ t) : (s.modify t f).threads u = s.threads u :=
  Function.update_of_ne h _ _

theorem threads_modify_self : (s.modify t f).threads t = (s.threads t).map f :=
  Function.update_self ..

/-- A change of threads that keeps what `view` sees. -/
theorem map_modify {α : Type} {view : Thread → α} (h : ∀ th, view (f th) = view th) :
    ((s.modify t f).threads u).map view = (s.threads u).map view := by
  by_cases e : u = t
  · subst e
    rw [threads_modify_self, Option.map_map]
    congr 1
    funext th
    exact h th
  · rw [threads_modify_of_ne s e]

theorem statusOf_modify (h : ∀ th, (f th).status = th.status) :
    (s.modify t f).statusOf = s.statusOf := funext fun _ => map_modify s h

theorem frames_eq (u : ThreadPtr) : s.frames u = ((s.threads u).map (·.frames)).getD [] := by
  unfold Sched.frames
  cases s.threads u <;> rfl

theorem prio_eq (u : ThreadPtr) : s.prio u = ((s.threads u).map (·.priority)).getD 0 := by
  unfold Sched.prio
  cases s.threads u <;> rfl

theorem wakeup_eq (u : ThreadPtr) : s.wakeup u = ((s.threads u).map (·.wakeupTime)).getD 0 := by
  unfold Sched.wakeup
  cases s.threads u <;> rfl

theorem frames_modify (h : ∀ th, (f th).frames = th.frames) : (s.modify t f).frames = s.frames := by
  funext u
  rw [frames_eq, frames_eq, map_modify s h]

theorem prio_modify (h : ∀ th, (f th).priority = th.priority) : (s.modify t f).prio = s.prio := by
  funext u
  rw [prio_eq, prio_eq, map_modify s h]

theorem wakeup_modify (h : ∀ th, (f th).wakeupTime = th.wakeupTime) :
    (s.modify t f).wakeup = s.wakeup := by
  funext u
  rw [wakeup_eq, wakeup_eq, map_modify s h]

theorem frames_modify_of_ne (h : u ≠ t) : (s.modify t f).frames u = s.frames u := by
  rw [frames_eq, frames_eq, threads_modify_of_ne s h]

theorem prio_modify_of_ne (h : u ≠ t) : (s.modify t f).prio u = s.prio u := by
  rw [prio_eq, prio_eq, threads_modify_of_ne s h]

theorem isSome_modify : ((s.modify t f).threads u).isSome = (s.threads u).isSome := by
  by_cases e : u = t
  · subst e
    rw [threads_modify_self, Option.isSome_map]
  · rw [threads_modify_of_ne s e]

variable (t u) (status : Status) (frames : List Frame)

@[simp] theorem frames_setStatus : (s.setStatus t status).frames = s.frames :=
  frames_modify s fun _ => rfl

@[simp] theorem prio_setStatus : (s.setStatus t status).prio = s.prio := prio_modify s fun _ => rfl

@[simp] theorem wakeup_setStatus : (s.setStatus t status).wakeup = s.wakeup :=
  wakeup_modify s fun _ => rfl

@[simp] theorem key_setStatus : (s.setStatus t status).key = s.key := by
  funext u
  simp [key]

@[simp] theorem statusOf_push : (s.push frames).statusOf = s.statusOf :=
  statusOf_modify s fun _ => rfl

@[simp] theorem prio_push : (s.push frames).prio = s.prio := prio_modify s fun _ => rfl

@[simp] theorem key_push : (s.push frames).key = s.key := by
  funext u
  simp [key]

@[simp] theorem wakeup_push : (s.push frames).wakeup = s.wakeup := wakeup_modify s fun _ => rfl

@[simp] theorem statusOf_setFrames : (s.setFrames t frames).statusOf = s.statusOf :=
  statusOf_modify s fun _ => rfl

@[simp] theorem prio_setFrames : (s.setFrames t frames).prio = s.prio := prio_modify s fun _ => rfl

@[simp] theorem wakeup_setFrames : (s.setFrames t frames).wakeup = s.wakeup :=
  wakeup_modify s fun _ => rfl

variable {t u}

theorem statusOf_setStatus_of_ne (h : u ≠ t) : (s.setStatus t status).statusOf u = s.statusOf u := by
  rw [statusOf, setStatus, threads_modify_of_ne s h, statusOf]

theorem statusOf_setStatus_self (h : (s.threads t).isSome) :
    (s.setStatus t status).statusOf t = some status := by
  obtain ⟨th, hth⟩ := Option.isSome_iff_exists.mp h
  rw [statusOf, setStatus, threads_modify_self, hth]
  rfl

theorem isSome_of_statusOf {st : Status} (h : s.statusOf t = some st) : (s.threads t).isSome := by
  rw [statusOf, Option.map_eq_some_iff] at h
  obtain ⟨th, hth, -⟩ := h
  rw [hth]
  rfl

theorem isSome_of_frames (h : s.frames t ≠ []) : (s.threads t).isSome := by
  rw [frames_eq] at h
  cases e : s.threads t with
  | none => simp [e] at h
  | some th => rfl

theorem frames_setFrames_self (h : (s.threads t).isSome) : (s.setFrames t frames).frames t = frames := by
  obtain ⟨th, hth⟩ := Option.isSome_iff_exists.mp h
  rw [frames_eq, setFrames, threads_modify_self, hth]
  rfl

theorem frames_push_self (h : (s.threads s.running).isSome) :
    (s.push frames).frames s.running = frames ++ s.frames s.running := by
  obtain ⟨th, hth⟩ := Option.isSome_iff_exists.mp h
  rw [frames_eq, push, threads_modify_self, frames_eq, hth]
  rfl

end Views

/-! ## Who is on which list -/

/-- **The ready list and the lists of waiters.**  Of the thread in the hole it says only
that it is on none of them. -/
structure Lists (hole : Option ThreadPtr) (s : Sched) : Prop where
  out : ∀ t, hole = some t → t ∉ s.readyList ∧ ∀ x, t ∉ (s.semas x).waiters
  ready : ∀ t, hole ≠ some t →
    (t ∈ s.readyList ↔ s.statusOf t = some .ready ∧ s.idleThread ≠ some t)
  waiters : ∀ x t, hole ≠ some t → (t ∈ (s.semas x).waiters ↔
    s.statusOf t = some .blocked ∧ (s.frames t).head? = some (.semaDownAgain x))
  readyQueued : Queued s.key s.history.arrival s.readyList
  waitersQueued : ∀ x, Queued s.key s.history.arrival (s.semas x).waiters
  readyStamps : ∀ t ∈ s.readyList, s.history.arrival t < s.history.clock
  waiterStamps : ∀ x, ∀ t ∈ (s.semas x).waiters, s.history.arrival t < s.history.clock
  idleAwake : ∀ i, s.idleThread = some i → ∀ x, (s.frames i).head? ≠ some (.semaDownAgain x)

/-- Exactly the running thread has the status `THREAD_RUNNING`. -/
def OnlyRunning (s : Sched) : Prop := ∀ t, s.statusOf t = some .running ↔ t = s.running

/-- No thread has the status `THREAD_RUNNING`. -/
def NoneRunning (s : Sched) : Prop := ∀ t, s.statusOf t ≠ some .running

/-- The running thread is the idle thread, or no ready thread has a higher priority. -/
def Top (s : Sched) : Prop :=
  s.idleThread = some s.running ∨ ∀ t ∈ s.readyList, s.prio t ≤ s.prio s.running

section

variable {s s' : Sched} {hole : Option ThreadPtr} {t : ThreadPtr} {x : SemaId}

theorem OnlyRunning.isSome (h : OnlyRunning s) : (s.threads s.running).isSome :=
  isSome_of_statusOf s ((h s.running).mpr rfl)

theorem threadCurrent_ok (h : OnlyRunning s) :
    ∃ th, s.threads s.running = some th ∧ threadCurrent s = .ok th := by
  have hst := (h s.running).mpr rfl
  rw [statusOf, Option.map_eq_some_iff] at hst
  obtain ⟨th, hth, hrun⟩ := hst
  exact ⟨th, hth, by simp [threadCurrent, hth, hrun]⟩

namespace Lists

theorem mem_isSome (h : Lists none s) (ht : t ∈ s.readyList) : (s.threads t).isSome :=
  isSome_of_statusOf s ((h.ready t (by simp)).mp ht).1

theorem waiter_isSome (h : Lists none s) (ht : t ∈ (s.semas x).waiters) : (s.threads t).isSome :=
  isSome_of_statusOf s ((h.waiters x t (by simp)).mp ht).1

theorem ready_status (h : Lists hole s) (ht : t ∈ s.readyList) :
    hole ≠ some t ∧ s.statusOf t = some .ready := by
  have hne : hole ≠ some t := fun e => (h.out t e).1 ht
  exact ⟨hne, ((h.ready t hne).mp ht).1⟩

theorem waiter_status (h : Lists hole s) (ht : t ∈ (s.semas x).waiters) :
    hole ≠ some t ∧ s.statusOf t = some .blocked ∧
      (s.frames t).head? = some (.semaDownAgain x) := by
  have hne : hole ≠ some t := fun e => (h.out t e).2 x ht
  exact ⟨hne, (h.waiters x t hne).mp ht⟩

/-- What `Lists` depends on. -/
theorem congr (h : Lists hole s) (hready : s'.readyList = s.readyList)
    (hwaiters : ∀ x, (s'.semas x).waiters = (s.semas x).waiters)
    (hidle : s'.idleThread = s.idleThread) (harrival : s'.history.arrival = s.history.arrival)
    (hclock : s'.history.clock = s.history.clock)
    (hstatus : ∀ t, hole ≠ some t → ∀ st, st = .ready ∨ st = .blocked →
      (s'.statusOf t = some st ↔ s.statusOf t = some st))
    (hframes : ∀ t, hole ≠ some t → s.statusOf t = some .blocked → s'.frames t = s.frames t)
    (hprio : ∀ t, hole ≠ some t → s.statusOf t = some .ready ∨ s.statusOf t = some .blocked →
      s'.prio t = s.prio t)
    (hawake : ∀ i, s.idleThread = some i → ∀ x, (s'.frames i).head? ≠ some (.semaDownAgain x)) :
    Lists hole s' where
  out t ht := by
    obtain ⟨h1, h2⟩ := h.out t ht
    exact ⟨hready ▸ h1, fun x => (hwaiters x).symm ▸ h2 x⟩
  ready t ht := by
    rw [hready, hstatus t ht _ (.inl rfl), hidle]
    exact h.ready t ht
  waiters x t ht := by
    rw [hwaiters, hstatus t ht _ (.inr rfl), h.waiters x t ht]
    exact and_congr_right fun hb => by rw [hframes t ht hb]
  readyQueued := by
    rw [hready, harrival]
    refine h.readyQueued.congr (fun t ht => ?_) fun _ _ => rfl
    obtain ⟨hne, hst⟩ := h.ready_status ht
    rw [key, key, hprio t hne (.inl hst)]
  waitersQueued x := by
    rw [hwaiters, harrival]
    refine (h.waitersQueued x).congr (fun t ht => ?_) fun _ _ => rfl
    obtain ⟨hne, hst, -⟩ := h.waiter_status ht
    rw [key, key, hprio t hne (.inr hst)]
  readyStamps := by
    rw [hready, harrival, hclock]
    exact h.readyStamps
  waiterStamps x := by
    rw [hwaiters, harrival, hclock]
    exact h.waiterStamps x
  idleAwake i hi := hawake i (hidle ▸ hi)

/-! ## Taking a thread out -/

theorem openOut (h : Lists none s) (h1 : t ∉ s.readyList) (h2 : ∀ x, t ∉ (s.semas x).waiters) :
    Lists (some t) s := by
  refine ⟨fun u hu => ?_, fun u _ => h.ready u (by simp), fun x u _ => h.waiters x u (by simp),
    h.readyQueued, h.waitersQueued, h.readyStamps, h.waiterStamps, h.idleAwake⟩
  rw [Option.some.injEq] at hu
  exact hu ▸ ⟨h1, h2⟩

/-- A running or dying thread is on no list. -/
theorem openAt (h : Lists none s) (h1 : s.statusOf t ≠ some .ready)
    (h2 : s.statusOf t ≠ some .blocked) : Lists (some t) s :=
  h.openOut (fun hm => h1 (h.ready_status hm).2) fun _ hm => h2 (h.waiter_status hm).2.1

/-- A thread that has blocked without waiting for a semaphore is on no list. -/
theorem openBlocked (h : Lists none s) (h1 : s.statusOf t = some .blocked)
    (h2 : ∀ x, (s.frames t).head? ≠ some (.semaDownAgain x)) : Lists (some t) s := by
  refine h.openOut (fun hm => ?_) fun x hm => h2 x (h.waiter_status hm).2.2
  have hr := (h.ready_status hm).2
  rw [h1] at hr
  cases hr

/-- The idle thread is on no list. -/
theorem openIdle (h : Lists none s) (hi : s.idleThread = some t) : Lists (some t) s :=
  h.openOut (fun hm => ((h.ready _ (by simp)).mp hm).2 hi)
    fun x hm => h.idleAwake _ hi x (h.waiter_status hm).2.2

theorem listEntry (h : Lists hole s) (elems : List Elem) : Lists hole (s.listEntry elems) :=
  ⟨h.out, h.ready, h.waiters, h.readyQueued, h.waitersQueued, h.readyStamps, h.waiterStamps,
    h.idleAwake⟩

/-- A thread is taken off the ready list. -/
theorem eraseReady (h : Lists none s) (ht : t ∈ s.readyList) :
    Lists (some t) { s with readyList := s.readyList.erase t } := by
  have hmem : ∀ u, u ∈ s.readyList.erase t ↔ u ≠ t ∧ u ∈ s.readyList := fun u =>
    h.readyQueued.nodup.mem_erase_iff
  refine ⟨fun u hu => ?_, fun u hu => ?_, fun x u _ => h.waiters x u (by simp),
    h.readyQueued.erase, h.waitersQueued, fun u hu => h.readyStamps u ((hmem u).mp hu).2,
    h.waiterStamps, h.idleAwake⟩
  · rw [Option.some.injEq] at hu
    subst hu
    refine ⟨fun hm => ((hmem t).mp hm).1 rfl, fun x hm => ?_⟩
    have h1 := (h.ready_status ht).2
    rw [(h.waiter_status hm).2.1] at h1
    cases h1
  · have hne : u ≠ t := by
      rintro rfl
      exact hu rfl
    exact ((hmem u).trans (and_iff_right hne)).trans (h.ready u (by simp))

/-- The head of the ready list is taken off. -/
theorem popReady (h : Lists none s) {rest : List ThreadPtr} (hready : s.readyList = t :: rest) :
    Lists (some t) { s.listEntry [.node t] with readyList := rest } := by
  have hmem : t ∈ (s.listEntry [.node t]).readyList := by
    show t ∈ s.readyList
    simp [hready]
  have he : s.readyList.erase t = rest := by rw [hready, List.erase_cons_head]
  have hl := (h.listEntry [.node t]).eraseReady hmem
  rw [show (s.listEntry [.node t]).readyList.erase t = rest from he] at hl
  exact hl

/-- The first waiter is taken off. -/
theorem popWaiter (h : Lists none s) {rest : List ThreadPtr}
    (hwait : (s.semas x).waiters = t :: rest) : Lists (some t) (popWaiter s x t rest) := by
  have hnodup := (h.waitersQueued x).nodup
  rw [hwait] at hnodup
  have hq := h.waitersQueued x
  rw [hwait] at hq
  have ht := h.waiter_status (t := t) (x := x) (by simp [hwait])
  have hw : ∀ y, ((Pintos.Threads.popWaiter s x t rest).semas y).waiters =
      if y = x then rest else (s.semas y).waiters := by
    intro y
    by_cases e : y = x
    · subst e
      simp [Pintos.Threads.popWaiter]
    · simp [Pintos.Threads.popWaiter, e]
  refine ⟨fun u hu => ?_, fun u _ => h.ready u (by simp), fun y u hu => ?_, h.readyQueued,
    fun y => ?_, h.readyStamps, fun y u hu => ?_, h.idleAwake⟩
  · rw [Option.some.injEq] at hu
    subst hu
    refine ⟨fun hm => ?_, fun y => ?_⟩
    · have h1 := (h.ready_status hm).2
      rw [ht.2.1] at h1
      cases h1
    · rw [hw y]
      split
      · exact (List.nodup_cons.mp hnodup).1
      · next e =>
          intro hm
          have h1 := (h.waiter_status hm).2.2
          rw [ht.2.2, Option.some.injEq, Frame.semaDownAgain.injEq] at h1
          exact e h1.symm
  · rw [ne_eq, Option.some.injEq] at hu
    rw [hw y]
    refine Iff.trans ?_ (h.waiters y u (by simp))
    split
    · next e => simp [e, hwait, Ne.symm hu]
    · exact Iff.rfl
  · rw [hw y]
    split
    · exact hq.tail
    · exact h.waitersQueued y
  · rw [hw y] at hu
    split at hu
    · exact h.waiterStamps x u (by simp [hwait, hu])
    · exact h.waiterStamps y u hu

/-! ## Putting it back -/

/-- A thread whose status puts it on no list. -/
theorem close (h : Lists (some t) s) {st : Status} (hst : s.statusOf t = some st)
    (h1 : st = .ready → s.idleThread = some t)
    (h2 : st = .blocked → ∀ x, (s.frames t).head? ≠ some (.semaDownAgain x)) : Lists none s := by
  obtain ⟨o1, o2⟩ := h.out t rfl
  refine ⟨fun u hu => by simp at hu, fun u _ => ?_, fun x u _ => ?_, h.readyQueued,
    h.waitersQueued, h.readyStamps, h.waiterStamps, h.idleAwake⟩
  · by_cases e : u = t
    · subst e
      refine iff_of_false o1 fun ⟨hr, hi⟩ => hi (h1 ?_)
      rw [hst, Option.some.injEq] at hr
      exact hr
    · exact h.ready u (by simpa using Ne.symm e)
  · by_cases e : u = t
    · subst e
      refine iff_of_false (o2 x) fun ⟨hb, hx⟩ => h2 ?_ x hx
      rw [hst, Option.some.injEq] at hb
      exact hb
    · exact h.waiters x u (by simpa using Ne.symm e)

/-- The order of a list survives a stamp for a thread that is not on it. -/
theorem queued_arrive {l : List ThreadPtr} (h : Queued s.key s.history.arrival l) (ht : t ∉ l) :
    Queued s.key (s.arrive t).history.arrival l :=
  h.congr (fun _ _ => rfl) fun u hu =>
    Function.update_of_ne (fun e => ht (by rwa [← e])) _ _

theorem stamps_arrive {l : List ThreadPtr} (h : ∀ u ∈ l, s.history.arrival u < s.history.clock)
    (ht : t ∉ l) : ∀ u ∈ l, (s.arrive t).history.arrival u < s.history.clock := by
  intro u hu
  have hne : u ≠ t := fun e => ht (by rwa [← e])
  have e : (s.arrive t).history.arrival u = s.history.arrival u := Function.update_of_ne hne _ _
  rw [e]
  exact h u hu

theorem arrival_arrive : (s.arrive t).history.arrival t = s.history.clock :=
  Function.update_self ..

/-- The thread goes to the ready list. -/
theorem insertReady (h : Lists (some t) s) (hsome : (s.threads t).isSome)
    (hidle : s.idleThread ≠ some t) : Lists none ((s.insertReady t).setStatus t .ready) := by
  obtain ⟨o1, o2⟩ := h.out t rfl
  have hnow : ((s.insertReady t).setStatus t .ready).statusOf t = some .ready :=
    statusOf_setStatus_self (s.insertReady t) _ hsome
  refine ⟨fun u hu => by simp at hu, fun u _ => ?_, fun x u _ => ?_, ?_, fun x => ?_, fun u hu => ?_,
    fun x u hu => ?_, fun i hi x => ?_⟩
  · refine mem_enqueue.trans ?_
    by_cases e : u = t
    · subst e
      exact iff_of_true (.inl rfl) ⟨hnow, hidle⟩
    · rw [statusOf_setStatus_of_ne _ _ e]
      simp only [e, false_or]
      exact h.ready u (by simpa using Ne.symm e)
  · by_cases e : u = t
    · subst e
      rw [hnow]
      exact iff_of_false (o2 x) fun hb => by simp at hb
    · rw [statusOf_setStatus_of_ne _ _ e, frames_setStatus]
      exact h.waiters x u (by simpa using Ne.symm e)
  · rw [key_setStatus]
    refine Queued.insert (queued_arrive h.readyQueued o1) fun u hu => ?_
    refine (stamps_arrive h.readyStamps o1 u hu).trans_eq ?_
    exact arrival_arrive.symm
  · rw [key_setStatus]
    exact queued_arrive (h.waitersQueued x) (o2 x)
  · refine Nat.lt_succ_iff.mpr ?_
    rcases mem_enqueue.mp hu with rfl | hu
    · exact arrival_arrive.le
    · exact (stamps_arrive h.readyStamps o1 u hu).le
  · exact Nat.lt_succ_of_lt (stamps_arrive (h.waiterStamps x) (o2 x) u hu)
  · rw [frames_setStatus]
    exact h.idleAwake i hi x

theorem insertWaiter_waiters (x : SemaId) (t : ThreadPtr) (y : SemaId) :
    ((s.insertWaiter x t).semas y).waiters =
      if y = x then enqueue s.key t (s.semas x).waiters else (s.semas y).waiters := by
  show ((Function.update s.semas x _) y).waiters = _
  split
  · next e => rw [e, Function.update_self]
  · next e => rw [Function.update_of_ne e]

/-- The running thread goes to a list of waiters. -/
theorem insertWaiter (h : Lists (some s.running) s) (hsome : (s.threads s.running).isSome)
    (hidle : s.idleThread ≠ some s.running) :
    Lists none (((s.insertWaiter x s.running).push [.semaDownAgain x]).setStatus s.running
      .blocked) := by
  obtain ⟨o1, o2⟩ := h.out s.running rfl
  have hnow : (((s.insertWaiter x s.running).push [.semaDownAgain x]).setStatus s.running
      .blocked).statusOf s.running = some .blocked :=
    statusOf_setStatus_self _ _ ((isSome_modify (s.insertWaiter x s.running)).trans hsome)
  have hhead : ((s.insertWaiter x s.running).push [.semaDownAgain x]).frames s.running =
      .semaDownAgain x :: s.frames s.running :=
    frames_push_self (s.insertWaiter x s.running) _ hsome
  have hkey : ((s.insertWaiter x s.running).push [.semaDownAgain x]).key = s.key := key_push _ _
  have hother : ∀ u, u ≠ s.running →
      (((s.insertWaiter x s.running).push [.semaDownAgain x]).setStatus s.running .blocked).statusOf u =
        s.statusOf u := fun u hu =>
    (statusOf_setStatus_of_ne _ _ hu).trans (congrFun (statusOf_push _ _) u)
  have hothers : ∀ u, u ≠ s.running →
      ((s.insertWaiter x s.running).push [.semaDownAgain x]).frames u = s.frames u := fun u hu =>
    frames_modify_of_ne (s.insertWaiter x s.running) hu
  have hw := insertWaiter_waiters (s := s) x s.running
  refine ⟨fun u hu => by simp at hu, fun u _ => ?_, fun y u _ => ?_, ?_, fun y => ?_, fun u hu => ?_,
    fun y u hu => ?_, fun i hi y => ?_⟩
  · by_cases e : u = s.running
    · subst e
      rw [hnow]
      exact iff_of_false o1 fun hb => by simp at hb
    · rw [hother u e]
      exact h.ready u (by simpa using Ne.symm e)
  · show u ∈ ((s.insertWaiter x s.running).semas y).waiters ↔ _
    rw [hw y, frames_setStatus]
    by_cases e : u = s.running
    · subst e
      rw [hnow, hhead]
      by_cases hy : y = x
      · simp [hy]
      · rw [if_neg hy]
        refine iff_of_false (o2 y) fun hb => hy ?_
        simpa using hb.2.symm
    · rw [hother u e, hothers u e]
      refine Iff.trans ?_ (h.waiters y u (by simpa using Ne.symm e))
      by_cases hy : y = x
      · subst hy
        simp [e]
      · rw [if_neg hy]
  · rw [key_setStatus, hkey]
    exact queued_arrive h.readyQueued o1
  · show Queued _ _ ((s.insertWaiter x s.running).semas y).waiters
    rw [key_setStatus, hkey, hw y]
    by_cases hy : y = x
    · rw [if_pos hy]
      refine Queued.insert (queued_arrive (h.waitersQueued x) (o2 x)) fun u hu => ?_
      exact (stamps_arrive (h.waiterStamps x) (o2 x) u hu).trans_eq arrival_arrive.symm
    · rw [if_neg hy]
      exact queued_arrive (h.waitersQueued y) (o2 y)
  · exact Nat.lt_succ_of_lt (stamps_arrive h.readyStamps o1 u hu)
  · have hu' : u ∈ ((s.insertWaiter x s.running).semas y).waiters := hu
    rw [hw y] at hu'
    refine Nat.lt_succ_iff.mpr ?_
    by_cases hy : y = x
    · rw [if_pos hy] at hu'
      rcases mem_enqueue.mp hu' with rfl | hu'
      · exact arrival_arrive.le
      · exact (stamps_arrive (h.waiterStamps x) (o2 x) u hu').le
    · rw [if_neg hy] at hu'
      exact (stamps_arrive (h.waiterStamps y) (o2 y) u hu').le
  · have hne : i ≠ s.running := fun e => hidle (e ▸ hi)
    rw [frames_setStatus, hothers i hne]
    exact h.idleAwake i hi y

end Lists

/-! ## Switching -/

/-- The state after a switch: the lists are right, one thread runs, and it is the right one. -/
structure Settled (s : Sched) : Prop where
  lists : Lists none s
  only : OnlyRunning s
  top : Top s

/-- The threads after a switch. -/
theorem switchThreads_threads {next : ThreadPtr} (u : ThreadPtr) :
    (switchThreads s next).threads u =
      if s.running ≠ next ∧ s.statusOf s.running = some .dying ∧ s.running ≠ s.initialThread ∧
        u = s.running then none
      else (s.setStatus next .running).threads u := by
  unfold switchThreads
  by_cases hc : s.running ≠ next ∧ s.statusOf s.running = some .dying ∧
      s.running ≠ s.initialThread
  · simp only [if_pos hc]
    by_cases e : u = s.running
    · rw [e, if_pos ⟨hc.1, hc.2.1, hc.2.2, rfl⟩]
      exact Function.update_self ..
    · rw [if_neg fun h => e h.2.2.2]
      exact Function.update_of_ne e _ _
  · rw [if_neg hc, if_neg fun h => hc ⟨h.1, h.2.1, h.2.2.1⟩]

/-- A switch changes the status of the next thread, and frees a dying one. -/
theorem switchThreads_cases {next u : ThreadPtr} (hu : u ≠ next) :
    (switchThreads s next).threads u = s.threads u ∨
      (u = s.running ∧ s.statusOf u = some .dying ∧ (switchThreads s next).threads u = none) := by
  rw [switchThreads_threads]
  split
  · next hc => exact .inr ⟨hc.2.2.2, hc.2.2.2 ▸ hc.2.1, rfl⟩
  · exact .inl (threads_modify_of_ne s hu)

theorem switchThreads_next {next : ThreadPtr} :
    (switchThreads s next).threads next = (s.threads next).map fun th => { th with status := .running } := by
  rw [switchThreads_threads, if_neg fun hc => hc.1 hc.2.2.2.symm]
  exact threads_modify_self s

/-- The rest of the state after a switch. -/
theorem switchThreads_rest (s : Sched) (next : ThreadPtr) :
    ∃ threads, switchThreads s next = { s with threads, running := next, threadTicks := 0 } := by
  unfold switchThreads
  by_cases hc : s.running ≠ next ∧ s.statusOf s.running = some .dying ∧
      s.running ≠ s.initialThread
  · simp only [if_pos hc]
    exact ⟨_, rfl⟩
  · simp only [if_neg hc]
    exact ⟨_, rfl⟩

/-- `switch_threads` to a thread that has been taken off the lists. -/
theorem switchThreads_spec {next : ThreadPtr} (h : Lists (some next) s) (noneRuns : NoneRunning s)
    (hnext : (s.threads next).isSome)
    (hdying : s.statusOf s.running = some .dying → s.frames s.running = [])
    (hblocked : s.idleThread ≠ some next → s.statusOf next ≠ some .blocked) :
    Lists none (switchThreads s next) ∧ OnlyRunning (switchThreads s next) ∧
      sync (switchThreads s next) = sync s ∧
      ∀ t, t = next ∨ t ∈ s.readyList → (switchThreads s next).prio t = s.prio t := by
  obtain ⟨th, hth⟩ := Option.isSome_iff_exists.mp hnext
  have hnew : (switchThreads s next).statusOf next = some .running := by
    rw [statusOf, switchThreads_next, hth]
    rfl
  have hframes : (switchThreads s next).frames = s.frames := by
    funext u
    by_cases e : u = next
    · rw [e, frames_eq, frames_eq, switchThreads_next, hth]
      rfl
    · rcases switchThreads_cases (s := s) e with hsame | ⟨rfl, hd, hnone⟩
      · rw [frames_eq, frames_eq, hsame]
      · rw [hdying hd, frames_eq, hnone]
        rfl
  have hstatus : ∀ u, u ≠ next → (switchThreads s next).statusOf u = s.statusOf u ∨
      (s.statusOf u = some .dying ∧ (switchThreads s next).statusOf u = none) := by
    intro u hu
    rcases switchThreads_cases (s := s) hu with hsame | ⟨-, hd, hnone⟩
    · exact .inl (by rw [statusOf, statusOf, hsame])
    · exact .inr ⟨hd, by rw [statusOf, hnone]; rfl⟩
  have hprio : ∀ u, u = next ∨ s.statusOf u ≠ some .dying →
      (switchThreads s next).prio u = s.prio u := by
    intro u hu
    by_cases e : u = next
    · rw [e, prio_eq, prio_eq, switchThreads_next, hth]
      rfl
    · rcases switchThreads_cases (s := s) e with hsame | ⟨-, hd, -⟩
      · rw [prio_eq, prio_eq, hsame]
      · exact absurd hd (hu.resolve_left e)
  have hsame : ∀ u, u ≠ next → ∀ st, st = .ready ∨ st = .blocked →
      ((switchThreads s next).statusOf u = some st ↔ s.statusOf u = some st) := by
    intro u hu st hst
    rcases hstatus u hu with e | ⟨hd, hn⟩
    · rw [e]
    · rw [hd, hn]
      rcases hst with rfl | rfl <;> simp
  obtain ⟨threads, hrest⟩ := switchThreads_rest s next
  have hidle : (switchThreads s next).idleThread = s.idleThread := by rw [hrest]
  have hopen : Lists (some next) (switchThreads s next) := by
    refine h.congr (by rw [hrest]) (fun x => by rw [hrest]) hidle (by rw [hrest]) (by rw [hrest])
      (fun u hu => hsame u fun e => hu (e ▸ rfl)) (fun u _ _ => by rw [hframes])
      (fun u _ hst => hprio u (.inr ?_)) fun i hi x => ?_
    · rcases hst with hst | hst <;> simp [hst]
    · rw [hframes]
      exact h.idleAwake i hi x
  refine ⟨hopen.close hnew (by simp) (by simp), fun u => ⟨fun hu => ?_, ?_⟩, ?_, fun u hu => ?_⟩
  · by_contra hne
    have hne' : u ≠ next := fun e => hne (by rw [e, hrest])
    rcases hstatus u hne' with e | ⟨-, hn⟩
    · exact noneRuns u (e ▸ hu)
    · rw [hn] at hu
      cases hu
  · rintro rfl
    rwa [hrest] at hnew ⊢
  · have hasleep : (sync (switchThreads s next)).asleep = (sync s).asleep := by
      funext u
      refine propext ?_
      show (switchThreads s next).statusOf u = some .blocked ∧
          (switchThreads s next).idleThread ≠ some u ↔
        s.statusOf u = some .blocked ∧ s.idleThread ≠ some u
      rw [hidle]
      refine and_congr_left fun hi => ?_
      by_cases e : u = next
      · subst e
        rw [hnew]
        exact iff_of_false (by simp) (hblocked hi)
      · exact hsame u e _ (.inr rfl)
    have heq : sync (switchThreads s next) = { sync s with
        frames := (switchThreads s next).frames
        asleep := (sync (switchThreads s next)).asleep } := by
      rw [hrest]
      rfl
    rw [heq, hasleep, hframes]
    rfl
  · rcases hu with hu | hu
    · exact hprio u (.inl hu)
    · refine hprio u (.inr ?_)
      simp [(h.ready_status hu).2]

/-- `schedule` with a ready thread. -/
theorem schedule_cons {rest : List ThreadPtr} (hready : s.readyList = t :: rest)
    (noneRuns : NoneRunning s) (ht : (s.threads t).isSome) :
    schedule s = .ok (switchThreads { s.listEntry [.node t] with readyList := rest } t) := by
  have hnext : nextThreadToRun s = (some t, { s.listEntry [.node t] with readyList := rest }) := by
    simp [nextThreadToRun, hready]
  unfold schedule
  rw [hnext]
  exact (if_neg (noneRuns s.running)).trans (if_pos ht)

/-- `schedule` with no ready thread. -/
theorem schedule_nil (hready : s.readyList = []) (noneRuns : NoneRunning s)
    (hs : schedule s = .ok s') :
    ∃ i, s.idleThread = some i ∧ (s.threads i).isSome ∧ s' = switchThreads s i := by
  have hnext : nextThreadToRun s = (s.idleThread, s) := by simp [nextThreadToRun, hready]
  unfold schedule at hs
  rw [hnext] at hs
  simp only [if_neg (noneRuns s.running)] at hs
  cases hidle : s.idleThread with
  | none =>
      rw [hidle] at hs
      cases hs
  | some i =>
      simp only [hidle] at hs
      split at hs
      · next hi =>
          cases hs
          exact ⟨i, rfl, hi, rfl⟩
      · cases hs

/-- `schedule`: the lists are right again and the right thread runs. -/
theorem schedule_spec (h : Lists none s) (noneRuns : NoneRunning s)
    (hdying : s.statusOf s.running = some .dying → s.frames s.running = [])
    (hs : schedule s = .ok s') : Settled s' ∧ sync s' = sync s := by
  cases hready : s.readyList with
  | nil =>
      obtain ⟨i, hidle, hi, rfl⟩ := schedule_nil hready noneRuns hs
      obtain ⟨h1, h2, h3, -⟩ := switchThreads_spec (h.openIdle hidle) noneRuns hi hdying
        fun hne => absurd hidle hne
      obtain ⟨threads, hrest⟩ := switchThreads_rest s i
      refine ⟨⟨h1, h2, .inl ?_⟩, h3⟩
      rw [hrest]
      exact hidle
  | cons t rest =>
      have hst := (h.ready_status (t := t) (by simp [hready])).2
      have ht : (s.threads t).isSome := isSome_of_statusOf s hst
      have hq := h.readyQueued
      rw [hready] at hq
      rw [schedule_cons hready noneRuns ht] at hs
      cases hs
      have hst' : { s.listEntry [.node t] with readyList := rest }.statusOf t ≠ some .blocked := by
        show s.statusOf t ≠ _
        simp [hst]
      obtain ⟨h1, h2, h3, h4⟩ := switchThreads_spec (h.popReady hready) noneRuns ht hdying
        fun _ => hst'
      obtain ⟨threads, hrest⟩ :=
        switchThreads_rest { s.listEntry [.node t] with readyList := rest } t
      refine ⟨⟨h1, h2, .inr fun u hu => ?_⟩, h3⟩
      have hu' : u ∈ rest := by rwa [hrest] at hu
      have hrun : (switchThreads { s.listEntry [.node t] with readyList := rest } t).running = t := by
        rw [hrest]
      rw [hrun, h4 t (.inl rfl), h4 u (.inr hu')]
      have hle : -s.prio t ≤ -s.prio u := hq.head_le u (.tail _ hu')
      show s.prio u ≤ s.prio t
      omega

end

end Pintos.Threads
