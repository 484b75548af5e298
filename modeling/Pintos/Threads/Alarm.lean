import Pintos.Threads.Sched

/-!
# The alarm clock of `Project1`

`timer_sleep` and the loop of `timer_interrupt` of `Project1/timer.c`, alone: the insertion
into `wait_list` is atomic, and the `sema_up` of the handler raises the value of the
sleeper's semaphore and does nothing else.  A `timer_sleep` is four steps (the computation of
the wake-up time, its store, the insertion, and the rounds of `sema_down`), and ticks and the
steps of all threads come in any order.

Ticks are unbounded here; a wake-up time never exceeds `INT64_MAX` (`Alarm.Allowed`).
-/

namespace Pintos.Threads

open Lib

/-! ## State -/

/-- How far a thread is in `timer_sleep`. -/
inductive Place where
  /-- Not in `timer_sleep`. -/
  | outside
  /-- `stop` has been computed. -/
  | computed (stop : ℤ)
  /-- `wakeupTime` has been stored. -/
  | stored
  /-- The thread is in `wait_list`, or was, and has not called `sema_down`. -/
  | inserted
  /-- The thread has blocked in `sema_down`. -/
  | blocked
deriving DecidableEq, Repr

/-- What has happened in the present call of a thread. -/
structure Record where
  /-- The tick at which `stop` was computed, and the number of ticks to sleep. -/
  computedAt : ℤ
  duration : ℤ
  /-- The tick at which the thread was inserted into `wait_list`. -/
  insertedAt : ℤ
  /-- The ticks at which its semaphore was raised. -/
  ups : List ℤ
deriving DecidableEq, Repr

/-- The state of the alarm clock. -/
structure Alarm where
  ticks : ℤ
  waitList : List ThreadPtr
  wakeupTime : ThreadPtr → ℤ
  /-- `sema_sleep.value`. -/
  value : ThreadPtr → ℕ
  place : ThreadPtr → Place
  record : ThreadPtr → Record

namespace Alarm

/-- `INT64_MAX`. -/
def int64Max : ℤ := 2 ^ 63 - 1

/-- After boot. -/
def start : Alarm where
  ticks := 0
  waitList := []
  wakeupTime _ := 0
  value _ := 0
  place _ := .outside
  record _ := ⟨0, 0, 0, []⟩

/-! ## Steps -/

/-- `sema_up (&t->sema_sleep)`, recorded. -/
def semaUp (s : Alarm) (t : ThreadPtr) : Alarm :=
  { s with
    value := Function.update s.value t ((s.value t + 1) % 2 ^ 32)
    record := Function.update s.record t
      { s.record t with ups := s.ticks :: (s.record t).ups } }

/-- The loop of `timer_interrupt` over what is left of `wait_list`.  `list_remove` leaves the
links of the removed element alone, so `list_next` goes on to its old successor. -/
def wakeLoop : List ThreadPtr → Alarm → Alarm
  | [], s => s
  | t :: rest, s =>
      if s.wakeupTime t ≤ s.ticks then
        wakeLoop rest ({ s with waitList := s.waitList.erase t }.semaUp t)
      else s

/-- `timer_interrupt`. -/
def timerInterrupt (s : Alarm) : Alarm :=
  let s := { s with ticks := s.ticks + 1 }
  wakeLoop s.waitList s

/-- One round of `sema_down (&t->sema_sleep)`. -/
def semaDown (s : Alarm) (t : ThreadPtr) : Alarm :=
  if s.value t = 0 then { s with place := Function.update s.place t .blocked }
  else { s with
    value := Function.update s.value t (s.value t - 1)
    place := Function.update s.place t .outside }

/-- What happens next. -/
inductive Event where
  /-- The thread calls `timer_sleep (n)`. -/
  | timerSleep (t : ThreadPtr) (n : ℤ)
  /-- The thread takes the next step of its call. -/
  | run (t : ThreadPtr)
  /-- A timer interrupt. -/
  | tick

/-- The next step of the call of thread `t`. -/
def runThread (s : Alarm) (t : ThreadPtr) : Alarm :=
  match s.place t with
  | .outside => s
  | .computed stop => { s with
      wakeupTime := Function.update s.wakeupTime t stop
      place := Function.update s.place t .stored }
  | .stored => { s with
      waitList := enqueue s.wakeupTime t s.waitList
      place := Function.update s.place t .inserted
      record := Function.update s.record t { s.record t with insertedAt := s.ticks } }
  | .inserted => semaDown s t
  | .blocked => semaDown s t

/-- The call `timer_sleep (n)`, up to the computation of `stop`. -/
def timerSleep (s : Alarm) (t : ThreadPtr) (n : ℤ) : Alarm :=
  if n ≤ 0 then s
  else { s with
    place := Function.update s.place t (.computed (s.ticks + n))
    record := Function.update s.record t ⟨s.ticks, n, 0, []⟩ }

/-- One step. -/
def step (s : Alarm) : Event → Alarm
  | .timerSleep t n => timerSleep s t n
  | .run t => runThread s t
  | .tick => timerInterrupt s

/-- A thread is in one call at a time, and the wake-up time fits an `int64_t`. -/
def Allowed (s : Alarm) : Event → Prop
  | .timerSleep t n => s.place t = .outside ∧ s.ticks + n ≤ int64Max
  | _ => True

/-- Every order of calls, steps and ticks. -/
inductive Reach : Alarm → Prop where
  | start : Reach start
  | step {s : Alarm} {e : Event} : Reach s → Allowed s e → Reach (s.step e)

/-! ## The loop of the handler -/

/-- The thread is woken by the next tick. -/
def due (s : Alarm) (t : ThreadPtr) : Bool := s.wakeupTime t ≤ s.ticks

/-- The state after the threads in `d` have been woken and `rest` is left. -/
def wokenUp (s : Alarm) (d rest : List ThreadPtr) : Alarm :=
  { s with
    waitList := rest
    value := fun t => if t ∈ d then (s.value t + 1) % 2 ^ 32 else s.value t
    record := fun t => if t ∈ d then { s.record t with ups := s.ticks :: (s.record t).ups }
      else s.record t }

theorem wokenUp_nil (s : Alarm) : s.wokenUp [] s.waitList = s := by
  simp [wokenUp]

/-- **The loop** wakes each thread at the front of the list that is due, once. -/
theorem wakeLoop_eq (l : List ThreadPtr) : ∀ s : Alarm, s.waitList = l → l.Nodup →
    wakeLoop l s = s.wokenUp (l.takeWhile s.due) (l.dropWhile s.due) := by
  induction l with
  | nil =>
      intro s hl _
      exact (hl ▸ s.wokenUp_nil).symm
  | cons t rest ih =>
      intro s hl hnodup
      obtain ⟨ht, hrest⟩ := List.nodup_cons.mp hnodup
      by_cases hdue : s.wakeupTime t ≤ s.ticks
      · have hd : s.due t = true := decide_eq_true hdue
        have hloop : wakeLoop (t :: rest) s =
            wakeLoop rest ({ s with waitList := s.waitList.erase t }.semaUp t) := if_pos hdue
        rw [hloop, ih _ (by simp [semaUp, hl]) hrest, List.takeWhile_cons_of_pos hd,
          List.dropWhile_cons_of_pos hd]
        have hnot : t ∉ rest.takeWhile s.due := fun h => ht (List.takeWhile_subset _ h)
        have hsame : ({ s with waitList := s.waitList.erase t }.semaUp t).due = s.due := rfl
        rw [hsame]
        unfold wokenUp semaUp
        congr 1
        · funext u
          by_cases e : u = t
          · subst e
            simp [hnot]
          · simp [e]
        · funext u
          by_cases e : u = t
          · subst e
            simp [hnot]
          · simp [e]
      · have hd : ¬ s.due t = true := by simpa [due] using hdue
        have hloop : wakeLoop (t :: rest) s = s := if_neg hdue
        rw [hloop, List.takeWhile_cons_of_neg hd, List.dropWhile_cons_of_neg hd]
        exact (hl ▸ s.wokenUp_nil).symm

/-- `wait_list` is sorted by wake-up time. -/
def Sorted (s : Alarm) : Prop := s.waitList.Pairwise fun a b => s.wakeupTime a ≤ s.wakeupTime b

/-- In a sorted list the threads that are due stand in front. -/
theorem takeWhile_due (s : Alarm) {l : List ThreadPtr}
    (h : l.Pairwise fun a b => s.wakeupTime a ≤ s.wakeupTime b) :
    l.takeWhile s.due = l.filter s.due ∧ l.dropWhile s.due = l.filter fun t => !s.due t := by
  induction l with
  | nil => exact ⟨rfl, rfl⟩
  | cons t rest ih =>
      obtain ⟨h1, h2⟩ := List.pairwise_cons.mp h
      obtain ⟨ih1, ih2⟩ := ih h2
      by_cases hd : s.due t = true
      · simp [hd, ih1, ih2]
      · have hlate : ∀ u ∈ rest, s.due u = false := by
          intro u hu
          have hle := h1 u hu
          simp only [due, decide_eq_true_eq] at hd
          simp only [due, decide_eq_false_iff_not]
          omega
        simp only [Bool.not_eq_true] at hd
        refine ⟨?_, ?_⟩
        · simp only [List.takeWhile_cons, hd, List.filter_cons, Bool.false_eq_true, if_false]
          exact (List.filter_eq_nil_iff.mpr fun u hu => by simp [hlate u hu]).symm
        · simp only [List.dropWhile_cons, hd, List.filter_cons, Bool.false_eq_true, if_false,
            Bool.not_false, if_true]
          exact congrArg (t :: ·) (List.filter_eq_self.mpr fun u hu => by simp [hlate u hu]).symm

/-! ## The invariant -/

/-- The thread has been inserted and has not returned. -/
def Asleep (s : Alarm) (t : ThreadPtr) : Prop := s.place t = .inserted ∨ s.place t = .blocked

/-- The wake-up time is the time asked for. -/
def OnTime (s : Alarm) (t : ThreadPtr) : Prop :=
  s.wakeupTime t = (s.record t).computedAt + (s.record t).duration

/-- The first tick that finds the thread in `wait_list` at or after its wake-up time. -/
def firstTick (s : Alarm) (t : ThreadPtr) : ℤ := max (s.wakeupTime t) ((s.record t).insertedAt + 1)

/-- **A thread in its call**: before the insertion; waiting, when no tick since the insertion
has reached its wake-up time; or woken once, by the first tick that did. -/
inductive ThreadOk (s : Alarm) (t : ThreadPtr) : Prop where
  | outside : s.place t = .outside → s.value t = 0 → t ∉ s.waitList → ThreadOk s t
  | computed (stop : ℤ) : s.place t = .computed stop → s.value t = 0 → t ∉ s.waitList →
      stop = (s.record t).computedAt + (s.record t).duration → (s.record t).ups = [] → ThreadOk s t
  | stored : s.place t = .stored → s.value t = 0 → t ∉ s.waitList → s.OnTime t →
      (s.record t).ups = [] → ThreadOk s t
  | waiting : s.Asleep t → s.value t = 0 → t ∈ s.waitList → s.OnTime t →
      (s.record t).ups = [] → (s.record t).insertedAt ≤ s.ticks →
      s.ticks < s.wakeupTime t ∨ s.ticks = (s.record t).insertedAt → ThreadOk s t
  | woken : s.Asleep t → s.value t = 1 → t ∉ s.waitList → s.OnTime t →
      (s.record t).ups = [s.firstTick t] → s.firstTick t ≤ s.ticks → ThreadOk s t

/-- What holds between two steps. -/
structure Ok (s : Alarm) : Prop where
  sorted : s.Sorted
  nodup : s.waitList.Nodup
  threads : ∀ t, ThreadOk s t

variable {s s' : Alarm} {t u : ThreadPtr}

/-- A step of another thread. -/
theorem ThreadOk.congr (h : ThreadOk s t) (hplace : s'.place t = s.place t)
    (hvalue : s'.value t = s.value t) (hwait : t ∈ s'.waitList ↔ t ∈ s.waitList)
    (hwakeup : s'.wakeupTime t = s.wakeupTime t) (hrecord : s'.record t = s.record t)
    (hticks : s'.ticks = s.ticks) : ThreadOk s' t := by
  have hasleep : s'.Asleep t ↔ s.Asleep t := by rw [Asleep, hplace, Asleep]
  have hontime : s'.OnTime t ↔ s.OnTime t := by rw [OnTime, hwakeup, hrecord, OnTime]
  have hfirst : s'.firstTick t = s.firstTick t := by rw [firstTick, hwakeup, hrecord, firstTick]
  cases h with
  | outside h1 h2 h3 => exact .outside (hplace.trans h1) (hvalue.trans h2) (hwait.not.mpr h3)
  | computed stop h1 h2 h3 h4 h5 =>
      exact .computed stop (hplace.trans h1) (hvalue.trans h2) (hwait.not.mpr h3)
        (hrecord ▸ h4) (hrecord ▸ h5)
  | stored h1 h2 h3 h4 h5 =>
      exact .stored (hplace.trans h1) (hvalue.trans h2) (hwait.not.mpr h3) (hontime.mpr h4)
        (hrecord ▸ h5)
  | waiting h1 h2 h3 h4 h5 h6 h7 =>
      refine .waiting (hasleep.mpr h1) (hvalue.trans h2) (hwait.mpr h3) (hontime.mpr h4)
        (hrecord ▸ h5) ?_ ?_
      · rw [hrecord, hticks]
        exact h6
      · rw [hticks, hwakeup, hrecord]
        exact h7
  | woken h1 h2 h3 h4 h5 h6 =>
      refine .woken (hasleep.mpr h1) (hvalue.trans h2) (hwait.not.mpr h3) (hontime.mpr h4) ?_ ?_
      · rw [hrecord, hfirst]
        exact h5
      · rw [hfirst, hticks]
        exact h6

/-! ## Ticks -/

/-- **A tick** removes exactly the threads that are due and raises their semaphores. -/
theorem timerInterrupt_eq (hsorted : s.Sorted) (hnodup : s.waitList.Nodup) :
    s.timerInterrupt = { s with ticks := s.ticks + 1 }.wokenUp
      (s.waitList.filter fun t => s.wakeupTime t ≤ s.ticks + 1)
      (s.waitList.filter fun t => s.ticks + 1 < s.wakeupTime t) := by
  set r : Alarm := { s with ticks := s.ticks + 1 } with hr
  obtain ⟨h1, h2⟩ := r.takeWhile_due (l := s.waitList) hsorted
  have hloop : s.timerInterrupt = r.wokenUp (s.waitList.takeWhile r.due)
      (s.waitList.dropWhile r.due) := wakeLoop_eq s.waitList r rfl hnodup
  rw [hloop, h1, h2]
  congr 1
  refine List.filter_congr fun t _ => ?_
  show (!decide (s.wakeupTime t ≤ s.ticks + 1)) = decide (s.ticks + 1 < s.wakeupTime t)
  rw [← decide_not, decide_eq_decide]
  exact not_le

theorem Ok.tick (h : Ok s) : Ok s.timerInterrupt := by
  rw [timerInterrupt_eq h.sorted h.nodup]
  refine ⟨?_, ?_, fun t => ?_⟩
  · exact List.Pairwise.filter _ h.sorted
  · exact h.nodup.filter _
  · set r := ({ s with ticks := s.ticks + 1 } : Alarm).wokenUp
      (s.waitList.filter fun t => s.wakeupTime t ≤ s.ticks + 1)
      (s.waitList.filter fun t => s.ticks + 1 < s.wakeupTime t) with hr
    have hvalue : r.value t = if t ∈ s.waitList.filter (fun t => s.wakeupTime t ≤ s.ticks + 1)
        then (s.value t + 1) % 2 ^ 32 else s.value t := rfl
    have hrecord : r.record t = if t ∈ s.waitList.filter (fun t => s.wakeupTime t ≤ s.ticks + 1)
        then { s.record t with ups := (s.ticks + 1) :: (s.record t).ups } else s.record t := rfl
    have hmem : t ∈ r.waitList ↔ t ∈ s.waitList ∧ s.ticks + 1 < s.wakeupTime t := by
      simp [hr, wokenUp]
    simp only [List.mem_filter, decide_eq_true_eq] at hvalue hrecord
    -- a thread that is not in the list is not touched
    have hout : t ∉ s.waitList → r.value t = s.value t ∧ r.record t = s.record t ∧
        t ∉ r.waitList := by
      intro ht
      rw [hvalue, hrecord, hmem]
      simp [ht]
    cases h.threads t with
    | outside h1 h2 h3 =>
        obtain ⟨e1, -, e3⟩ := hout h3
        exact .outside h1 (e1.trans h2) e3
    | computed stop h1 h2 h3 h4 h5 =>
        obtain ⟨e1, e2, e3⟩ := hout h3
        exact .computed stop h1 (e1.trans h2) e3 (e2 ▸ h4) (e2 ▸ h5)
    | stored h1 h2 h3 h4 h5 =>
        obtain ⟨e1, e2, e3⟩ := hout h3
        refine .stored h1 (e1.trans h2) e3 ?_ (e2 ▸ h5)
        unfold OnTime
        rw [e2]
        exact h4
    | woken h1 h2 h3 h4 h5 h6 =>
        obtain ⟨e1, e2, e3⟩ := hout h3
        have hfirst : r.firstTick t = s.firstTick t := by
          unfold firstTick
          rw [e2]
          rfl
        refine .woken h1 (e1.trans h2) e3 ?_ (by rw [e2, hfirst]; exact h5) ?_
        · unfold OnTime
          rw [e2]
          exact h4
        · rw [hfirst]
          show s.firstTick t ≤ s.ticks + 1
          omega
    | waiting h1 h2 h3 h4 h5 h6 h7 =>
        rcases le_or_gt (s.wakeupTime t) (s.ticks + 1) with hdue | hlate
        · rw [if_pos ⟨h3, hdue⟩] at hvalue hrecord
          have hfirst : r.firstTick t = s.ticks + 1 := by
            unfold firstTick
            rw [hrecord]
            show max (s.wakeupTime t) ((s.record t).insertedAt + 1) = _
            omega
          refine .woken h1 (by simp [hvalue, h2]) (fun hm => ?_) ?_ ?_ (by rw [hfirst]; exact le_rfl)
          · have hlt := (hmem.mp hm).2
            omega
          · unfold OnTime
            rw [hrecord]
            exact h4
          · rw [hfirst, hrecord]
            show (s.ticks + 1) :: (s.record t).ups = _
            rw [h5]
        · have hnot : ¬ (t ∈ s.waitList ∧ s.wakeupTime t ≤ s.ticks + 1) := fun hb => by omega
          rw [if_neg hnot] at hvalue hrecord
          refine .waiting h1 (hvalue.trans h2) (hmem.mpr ⟨h3, hlate⟩) ?_ (hrecord ▸ h5) ?_
            (.inl hlate)
          · unfold OnTime
            rw [hrecord]
            exact h4
          · rw [hrecord]
            show (s.record t).insertedAt ≤ s.ticks + 1
            omega

/-! ## The steps of the threads -/

/-- A step of thread `u` that leaves the other threads alone. -/
theorem Ok.of_thread (h : Ok s) (hsorted : s'.Sorted) (hnodup : s'.waitList.Nodup)
    (hself : ThreadOk s' u) (hplace : ∀ t, t ≠ u → s'.place t = s.place t)
    (hvalue : ∀ t, t ≠ u → s'.value t = s.value t)
    (hwait : ∀ t, t ≠ u → (t ∈ s'.waitList ↔ t ∈ s.waitList))
    (hwakeup : ∀ t, t ≠ u → s'.wakeupTime t = s.wakeupTime t)
    (hrecord : ∀ t, t ≠ u → s'.record t = s.record t) (hticks : s'.ticks = s.ticks) : Ok s' := by
  refine ⟨hsorted, hnodup, fun t => ?_⟩
  by_cases e : t = u
  · exact e ▸ hself
  · exact (h.threads t).congr (hplace t e) (hvalue t e) (hwait t e) (hwakeup t e) (hrecord t e)
      hticks

theorem Ok.timerSleep (h : Ok s) {n : ℤ} (hplace : s.place t = .outside) :
    Ok (s.timerSleep t n) := by
  unfold Alarm.timerSleep
  split
  · exact h
  · have hself := h.threads t
    refine h.of_thread (u := t) h.sorted h.nodup ?_ (fun u hu => Function.update_of_ne hu _ _)
      (fun _ _ => rfl) (fun _ _ => Iff.rfl) (fun _ _ => rfl)
      (fun u hu => Function.update_of_ne hu _ _) rfl
    cases hself with
    | outside _ h2 h3 =>
        refine .computed (s.ticks + n) (Function.update_self ..) h2 h3 ?_ ?_
        · simp
        · simp
    | computed stop h1 => simp [hplace] at h1
    | stored h1 => simp [hplace] at h1
    | waiting h1 => simp [Asleep, hplace] at h1
    | woken h1 => simp [Asleep, hplace] at h1

/-- The store of the wake-up time. -/
theorem Ok.store (h : Ok s) {stop : ℤ} (hplace : s.place t = .computed stop) :
    Ok { s with
      wakeupTime := Function.update s.wakeupTime t stop
      place := Function.update s.place t .stored } := by
  cases h.threads t with
  | computed stop' h1 h2 h3 h4 h5 =>
      have hstop : stop' = stop := by
        rw [hplace] at h1
        exact (Place.computed.inj h1).symm
      have hne : ∀ a ∈ s.waitList, a ≠ t := fun a ha e => h3 (e ▸ ha)
      have hsorted : s.waitList.Pairwise fun a b =>
          Function.update s.wakeupTime t stop a ≤ Function.update s.wakeupTime t stop b := by
        refine List.Pairwise.imp_of_mem (fun {a b} ha hb hab => ?_) h.sorted
        rw [Function.update_of_ne (hne a ha), Function.update_of_ne (hne b hb)]
        exact hab
      refine h.of_thread (u := t) hsorted h.nodup ?_ (fun u hu => Function.update_of_ne hu _ _)
        (fun _ _ => rfl) (fun _ _ => Iff.rfl) (fun u hu => Function.update_of_ne hu _ _)
        (fun _ _ => rfl) rfl
      refine .stored (Function.update_self ..) h2 h3 ?_ h5
      show Function.update s.wakeupTime t stop t = _
      rw [Function.update_self, ← hstop]
      exact h4
  | outside h1 => simp [hplace] at h1
  | stored h1 => simp [hplace] at h1
  | waiting h1 => simp [Asleep, hplace] at h1
  | woken h1 => simp [Asleep, hplace] at h1

/-- The insertion into `wait_list`. -/
theorem Ok.insert (h : Ok s) (hplace : s.place t = .stored) :
    Ok { s with
      waitList := enqueue s.wakeupTime t s.waitList
      place := Function.update s.place t .inserted
      record := Function.update s.record t { s.record t with insertedAt := s.ticks } } := by
  cases h.threads t with
  | stored h1 h2 h3 h4 h5 =>
      have hnodup : (enqueue s.wakeupTime t s.waitList).Nodup :=
        enqueue_perm.nodup_iff.mpr (List.nodup_cons.mpr ⟨h3, h.nodup⟩)
      refine h.of_thread (u := t) (pairwise_enqueue h.sorted) hnodup ?_
        (fun u hu => Function.update_of_ne hu _ _) (fun _ _ => rfl) (fun u hu => ?_)
        (fun _ _ => rfl) (fun u hu => Function.update_of_ne hu _ _) rfl
      · refine .waiting (.inl (Function.update_self ..)) h2 (mem_enqueue.mpr (.inl rfl)) ?_ ?_ ?_ ?_
        · show s.wakeupTime t = _
          simp only [Function.update_self]
          exact h4
        · simp only [Function.update_self]
          exact h5
        · simp
        · simp
      · refine mem_enqueue.trans ?_
        simp [hu]
  | outside h1 => simp [hplace] at h1
  | computed stop h1 => simp [hplace] at h1
  | waiting h1 => simp [Asleep, hplace] at h1
  | woken h1 => simp [Asleep, hplace] at h1

/-- A round of `sema_down`. -/
theorem Ok.semaDown (h : Ok s) (hplace : s.Asleep t) : Ok (s.semaDown t) := by
  have hne : ∀ stop, s.place t ≠ .outside ∧ s.place t ≠ .computed stop ∧ s.place t ≠ .stored := by
    intro stop
    rcases hplace with e | e <;> simp [e]
  unfold Alarm.semaDown
  cases h.threads t with
  | waiting h1 h2 h3 h4 h5 h6 h7 =>
      rw [if_pos h2]
      refine h.of_thread (u := t) h.sorted h.nodup ?_ (fun u hu => Function.update_of_ne hu _ _)
        (fun _ _ => rfl) (fun _ _ => Iff.rfl) (fun _ _ => rfl) (fun _ _ => rfl) rfl
      exact .waiting (.inr (Function.update_self ..)) h2 h3 h4 h5 h6 h7
  | woken h1 h2 h3 h4 h5 h6 =>
      rw [if_neg (by omega)]
      refine h.of_thread (u := t) h.sorted h.nodup ?_ (fun u hu => Function.update_of_ne hu _ _)
        (fun u hu => Function.update_of_ne hu _ _) (fun _ _ => Iff.rfl) (fun _ _ => rfl)
        (fun _ _ => rfl) rfl
      refine .outside (Function.update_self ..) ?_ h3
      show Function.update s.value t (s.value t - 1) t = 0
      rw [Function.update_self, h2]
  | outside h1 => exact absurd h1 (hne 0).1
  | computed stop h1 => exact absurd h1 (hne stop).2.1
  | stored h1 => exact absurd h1 (hne 0).2.2

theorem Ok.runThread (h : Ok s) : Ok (s.runThread t) := by
  unfold Alarm.runThread
  split
  · exact h
  · next hp => exact h.store hp
  · next hp => exact h.insert hp
  · next hp => exact h.semaDown (.inl hp)
  · next hp => exact h.semaDown (.inr hp)

/-- A step keeps the invariant. -/
theorem Ok.step (h : Ok s) {e : Event} (ha : Allowed s e) : Ok (s.step e) := by
  cases e with
  | timerSleep t n => exact h.timerSleep ha.1
  | run t => exact h.runThread
  | tick => exact h.tick

theorem Reach.ok (h : Reach s) : Ok s := by
  induction h with
  | start => exact ⟨List.Pairwise.nil, List.nodup_nil, fun t => .outside rfl rfl List.not_mem_nil⟩
  | step _ ha ih => exact ih.step ha

/-! ## The alarm clock -/

/-- **The alarm clock.** -/
structure Safe (s : Alarm) : Prop where
  sorted : s.waitList.Pairwise fun a b => s.wakeupTime a ≤ s.wakeupTime b
  /-- A tick removes the threads that are due, leaves the others in order, and raises the
  semaphore of each thread it removes once. -/
  tickRemoves : s.timerInterrupt.ticks = s.ticks + 1 ∧
    s.timerInterrupt.waitList = s.waitList.filter fun t => s.ticks + 1 < s.wakeupTime t
  tickRaises : ∀ t, s.timerInterrupt.value t =
      s.value t + (if t ∈ s.waitList ∧ s.wakeupTime t ≤ s.ticks + 1 then 1 else 0) ∧
    (s.timerInterrupt.record t).ups =
      if t ∈ s.waitList ∧ s.wakeupTime t ≤ s.ticks + 1 then (s.ticks + 1) :: (s.record t).ups
      else (s.record t).ups
  /-- No thread returns before the ticks it asked for have passed since it computed its
  wake-up time. -/
  notEarly : ∀ t, s.place t ≠ .outside → (s.runThread t).place t = .outside →
    (s.record t).computedAt + (s.record t).duration ≤ s.ticks
  /-- A thread that has been inserted waits, and no tick since then has reached its wake-up
  time; or it has been woken once, by the first tick since its insertion that did, and its
  `sema_down` returns. -/
  wokenByFirst : ∀ t, s.place t = .inserted ∨ s.place t = .blocked →
    s.wakeupTime t = (s.record t).computedAt + (s.record t).duration ∧
    ((t ∈ s.waitList ∧ (s.record t).ups = [] ∧
        (s.ticks < s.wakeupTime t ∨ s.ticks = (s.record t).insertedAt)) ∨
      ((s.record t).ups = [max (s.wakeupTime t) ((s.record t).insertedAt + 1)] ∧
        (s.runThread t).place t = .outside))

theorem runThread_asleep (h : s.Asleep t) : s.runThread t = s.semaDown t := by
  unfold runThread
  rcases h with e | e <;> rw [e]

/-- A woken thread returns from `sema_down`. -/
theorem semaDown_returns (h : s.value t = 1) : (s.semaDown t).place t = .outside := by
  unfold semaDown
  rw [if_neg (by omega)]
  exact Function.update_self ..

theorem Ok.notEarly (h : Ok s) (hin : s.place t ≠ .outside)
    (hout : (s.runThread t).place t = .outside) :
    (s.record t).computedAt + (s.record t).duration ≤ s.ticks := by
  cases h.threads t with
  | outside h1 => exact absurd h1 hin
  | computed stop h1 => simp [Alarm.runThread, h1] at hout
  | stored h1 => simp [Alarm.runThread, h1] at hout
  | waiting h1 h2 =>
      rw [runThread_asleep h1, Alarm.semaDown, if_pos h2] at hout
      simp at hout
  | woken h1 h2 h3 h4 h5 h6 =>
      rw [← show s.wakeupTime t = _ from h4]
      exact (le_max_left _ _).trans h6

/-- **The alarm clock is safe in every order of calls, steps and ticks.** -/
theorem safe_of_reach (h : Reach s) : Safe s := by
  have hok := h.ok
  have htick := timerInterrupt_eq hok.sorted hok.nodup
  refine ⟨hok.sorted, ?_, fun t => ?_, fun t => hok.notEarly, fun t hp => ?_⟩
  · rw [htick]
    exact ⟨rfl, rfl⟩
  · rw [htick]
    simp only [wokenUp, List.mem_filter, decide_eq_true_eq]
    split
    · next hd =>
        refine ⟨?_, rfl⟩
        cases hok.threads t with
        | waiting _ h2 => simp [h2]
        | outside _ _ h3 => exact absurd hd.1 h3
        | computed _ _ _ h3 => exact absurd hd.1 h3
        | stored _ _ h3 => exact absurd hd.1 h3
        | woken _ _ h3 => exact absurd hd.1 h3
    · exact ⟨rfl, rfl⟩
  · cases hok.threads t with
    | waiting _ _ h3 h4 h5 _ h7 => exact ⟨h4, .inl ⟨h3, h5, h7⟩⟩
    | woken h1 h2 _ h4 h5 _ =>
        exact ⟨h4, .inr ⟨h5, by rw [runThread_asleep h1, semaDown_returns h2]⟩⟩
    | outside h1 => rcases hp with e | e <;> simp [e] at h1
    | computed stop h1 => rcases hp with e | e <;> simp [e] at h1
    | stored h1 => rcases hp with e | e <;> simp [e] at h1

/-- A thread whose wake-up tick falls between its insertion and its `sema_down`, next to one
that sleeps longer. -/
def overtaken : Alarm :=
  ((((((start.step (.timerSleep 1 1)).step (.run 1)).step (.run 1)).step
    (.timerSleep 2 5)).step (.run 2)).step (.run 2)).step .tick

theorem safe_after_overtaking : overtaken.waitList = [2] ∧ overtaken.place 1 = .inserted ∧
    (overtaken.record 1).ups = [1] ∧ (overtaken.runThread 1).place 1 = .outside ∧
    Safe overtaken := by
  refine ⟨by decide +kernel, by decide +kernel, by decide +kernel, by decide +kernel,
    safe_of_reach ?_⟩
  refine .step (.step (.step (.step (.step (.step (.step .start ?_) ?_) ?_) ?_) ?_) ?_) ?_
  all_goals trivial

end Alarm

end Pintos.Threads
