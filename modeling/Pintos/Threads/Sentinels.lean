import Pintos.Threads.Interrupt
import Pintos.Threads.Safety

/-!
# Sentinels are not threads

Every `list_entry` of the scheduler, the semaphores and the timer is logged in
`History.converted`, with whether the element belonged to a thread.  `thread_set_priority`
takes the head of the ready list without looking whether there is one; every other use is
guarded.  `conversions_of_reach` says that in a run whose steps are undisturbed, and in which it finds
a thread there, every conversion is of a thread's element, also in a step that ends in a panic.
-/

namespace Pintos.Threads

open Lib Sched

variable {s s' : Sched} {t : ThreadPtr} {x : SemaId} {intr : Bool}

/-- The conversions made up to the end of a step. -/
def conversions : Except Panic Sched → List Bool
  | .ok s => s.history.converted
  | .error p => p.converted

/-- Every conversion was of a thread's element. -/
def Clean (log : List Bool) : Prop := ∀ b ∈ log, b = true

/-- The threads on the lists of the scheduler and the semaphores exist. -/
structure Live (s : Sched) : Prop where
  running : (s.threads s.running).isSome
  ready : ∀ t ∈ s.readyList, (s.threads t).isSome
  waiters : ∀ x, ∀ t ∈ (s.semas x).waiters, (s.threads t).isSome

theorem Sound.live (h : Sound s) : Live s :=
  ⟨h.only.isSome, fun _ => h.lists.mem_isSome, fun _ _ => h.lists.waiter_isSome⟩

theorem Live.congr (h : Live s) (hrun : s'.running = s.running)
    (hthreads : ∀ t, (s'.threads t).isSome = (s.threads t).isSome)
    (hready : s'.readyList = s.readyList)
    (hwaiters : ∀ x, (s'.semas x).waiters = (s.semas x).waiters) : Live s' := by
  refine ⟨?_, fun t ht => ?_, fun x t ht => ?_⟩
  · rw [hthreads, hrun]
    exact h.running
  · rw [hthreads]
    exact h.ready t (hready ▸ ht)
  · rw [hthreads]
    rw [hwaiters] at ht
    exact h.waiters x t ht

theorem Live.modify (h : Live s) {g : Thread → Thread} : Live (s.modify t g) :=
  h.congr rfl (fun _ => isSome_modify s) rfl fun _ => rfl

theorem Clean.append {l l' : List Bool} (h : Clean l) (h' : Clean l') : Clean (l ++ l') := by
  intro b hb
  rcases List.mem_append.mp hb with hb | hb
  · exact h b hb
  · exact h' b hb

/-! ## Conversions of the scheduler -/

theorem Clean.listEntry (h : Clean s.history.converted) {elems : List Elem}
    (helems : ∀ e ∈ elems, s.interior e = true) : Clean (s.listEntry elems).history.converted := by
  refine Clean.append (fun b hb => ?_) h
  obtain ⟨e, he, rfl⟩ := List.mem_map.mp hb
  exact helems e he

theorem interior_compared {key : ThreadPtr → ℤ} {l : List ThreadPtr} (ht : (s.threads t).isSome)
    (hl : ∀ u ∈ l, (s.threads u).isSome) : ∀ e ∈ compared key t l, s.interior e = true := by
  intro e he
  obtain ⟨u, hu, he⟩ := List.mem_flatMap.mp he
  simp only [List.mem_cons, List.not_mem_nil, or_false] at he
  rcases he with rfl | rfl
  · exact ht
  · exact hl u (mem_of_mem_lookedAt hu)

theorem Clean.insertReady (h : Clean s.history.converted) (hl : Live s)
    (ht : (s.threads t).isSome) : Clean (s.insertReady t).history.converted :=
  h.listEntry (interior_compared ht hl.ready)

theorem Live.insertReady (h : Live s) (ht : (s.threads t).isSome) : Live (s.insertReady t) := by
  refine ⟨h.running, fun u hu => ?_, h.waiters⟩
  rcases mem_enqueue.mp hu with rfl | hu
  · exact ht
  · exact h.ready u hu

/-- Nothing is converted after the choice of the next thread. -/
theorem conversions_schedule :
    conversions (schedule s) = (nextThreadToRun s).2.history.converted := by
  unfold schedule
  rcases nextThreadToRun s with ⟨next, r⟩
  simp only
  split
  · rfl
  · cases next with
    | none => rfl
    | some n =>
        simp only
        split
        · obtain ⟨threads, hrest⟩ := switchThreads_rest r n
          rw [hrest]
          rfl
        · rfl

theorem Clean.schedule (h : Clean s.history.converted) (hl : Live s) :
    Clean (conversions (schedule s)) := by
  rw [conversions_schedule]
  unfold nextThreadToRun
  cases hready : s.readyList with
  | nil => exact h
  | cons u rest =>
      refine h.listEntry fun e he => ?_
      rw [List.mem_singleton.mp he]
      exact hl.ready u (by simp [hready])

theorem Clean.ite {c : Prop} [Decidable c] {r r' : Except Panic Sched} (h : Clean (conversions r))
    (h' : Clean (conversions r')) : Clean (conversions (if c then r else r')) := by
  split
  · exact h
  · exact h'

/-- `thread_current` converts nothing. -/
theorem Clean.bindCurrent (h : Clean s.history.converted) {k : Thread → Except Panic Sched}
    (hk : ∀ th, s.threads s.running = some th → Clean (conversions (k th))) :
    Clean (conversions (threadCurrent s >>= k)) := by
  unfold threadCurrent
  cases hth : s.threads s.running with
  | none => exact h
  | some th =>
      simp only
      split
      · exact hk th hth
      · exact h

theorem Clean.threadYield (h : Clean s.history.converted) (hl : Live s) :
    Clean (conversions (threadYield intr s)) := by
  refine h.bindCurrent fun th _ => ?_
  cases intr with
  | true => exact h
  | false =>
      simp only [Bool.false_eq_true, if_false]
      split
      · exact Clean.schedule (h.insertReady hl hl.running) ((hl.insertReady hl.running).modify)
      · exact Clean.schedule h hl.modify

theorem Clean.threadBlock (h : Clean s.history.converted) (hl : Live s) :
    Clean (conversions (threadBlock s)) :=
  h.bindCurrent fun _ _ => Clean.schedule h hl.modify

theorem Clean.threadExit (h : Clean s.history.converted) (hl : Live s) :
    Clean (conversions (threadExit s)) :=
  h.bindCurrent fun _ _ => Clean.schedule h hl.modify

theorem Clean.preempt (h : Clean s.history.converted) (hl : Live s) :
    Clean (conversions (preempt intr s)) := by
  unfold Threads.preempt
  cases hready : s.readyList with
  | nil => exact h
  | cons head rest =>
      simp only [listBegin]
      have hc : Clean (s.listEntry [.node head]).history.converted := by
        refine h.listEntry fun e he => ?_
        rw [List.mem_singleton.mp he]
        exact hl.ready head (by simp [hready])
      refine hc.bindCurrent fun th _ => Clean.ite ?_ hc
      exact hc.threadYield (hl.congr rfl (fun _ => rfl) rfl fun _ => rfl)

theorem Clean.threadUnblock (h : Clean s.history.converted) (hl : Live s) :
    Clean (conversions (threadUnblock intr s t)) := by
  unfold Threads.threadUnblock
  cases hth : s.threads t with
  | none => exact h
  | some th =>
      have ht : (s.threads t).isSome := by simp [hth]
      simp only
      split
      · exact h
      · exact Clean.preempt (h.insertReady hl ht) ((hl.insertReady ht).modify)

/-! ## Conversions of semaphores -/

theorem Live.insertWaiter (h : Live s) : Live (s.insertWaiter x s.running) := by
  refine ⟨h.running, h.ready, fun y u hu => ?_⟩
  rw [Lists.insertWaiter_waiters] at hu
  split at hu
  · rcases mem_enqueue.mp hu with rfl | hu
    · exact h.running
    · exact h.waiters x u hu
  · exact h.waiters y u hu

theorem Clean.semaDown (h : Clean s.history.converted) (hl : Live s) :
    Clean (conversions (semaDown s x)) := by
  unfold Threads.semaDown
  by_cases hv : ((testing s x).semas x).value = 0
  · simp only [if_pos hv]
    have hl' : Live (testing s x) := hl.congr rfl (fun _ => rfl) rfl fun _ => rfl
    have hc : Clean ((testing s x).insertWaiter x (testing s x).running).history.converted :=
      Clean.listEntry (s := testing s x) h (interior_compared hl'.running (hl'.waiters x))
    exact Clean.threadBlock (s := ((testing s x).insertWaiter x (testing s x).running).push _) hc
      hl'.insertWaiter.modify
  · simp only [if_neg hv]
    exact h

theorem Clean.semaUp (h : Clean s.history.converted) (hl : Live s) :
    Clean (conversions (semaUp intr s x)) := by
  unfold Threads.semaUp
  have hl' : Live (giveOne s x) := hl.congr rfl (fun _ => rfl) rfl giveOne_waiters
  cases hws : ((giveOne s x).semas x).waiters with
  | nil =>
      simp only [hws]
      exact h
  | cons u rest =>
      simp only [hws]
      have hu : ((giveOne s x).threads u).isSome := hl'.waiters x u (by simp [hws])
      have hc : Clean (popWaiter (giveOne s x) x u rest).history.converted := by
        refine Clean.listEntry (s := giveOne s x) h fun e he => ?_
        rw [List.mem_singleton.mp he]
        exact hu
      refine Clean.threadUnblock hc ⟨hl.running, hl.ready, fun y v hv => ?_⟩
      rw [popWaiter_waiters] at hv
      split at hv
      · exact hl'.waiters x v (by simp [hws, hv])
      · exact hl'.waiters y v hv

/-! ## Conversions of the timer -/

/-- The threads in the list of sleepers exist. -/
theorem sleepers_isSome (h : (sync s).SleepersOk) : ∀ t ∈ s.waitList, (s.threads t).isSome :=
  fun t ht => isSome_of_frames s ((h.each t).frames_ne_nil ht)

theorem Clean.wakeLoop (l : List ThreadPtr) (h : Clean s.history.converted) (hs : Sound s)
    (hsleep : (sync s).SleepersOk) (hl : s.waitList = l) :
    Clean (conversions (wakeLoop l s)) := by
  induction l generalizing s with
  | nil => exact h
  | cons t rest ih =>
      have hmem : t ∈ s.waitList := by simp [hl]
      have hc : Clean (s.listEntry [.node t]).history.converted := by
        refine h.listEntry fun e he => ?_
        rw [List.mem_singleton.mp he]
        exact sleepers_isSome hsleep t hmem
      unfold Threads.wakeLoop
      refine Clean.ite ?_ hc
      set r : Sched := { s.listEntry [.node t] with
        waitList := (s.listEntry [.node t]).waitList.erase t } with hr
      have hlive : Live r := hs.live.congr rfl (fun _ => rfl) rfl fun _ => rfl
      have hup : Clean (conversions (Threads.semaUp true r (.sleep t))) :=
        Clean.semaUp (s := r) hc hlive
      cases hresult : Threads.semaUp true r (.sleep t) with
      | error p =>
          rw [hresult] at hup
          exact hup
      | ok s' =>
          rw [hresult] at hup
          have hlists : Lists none r := hs.lists.values rfl (fun _ => rfl) rfl rfl rfl rfl
          obtain ⟨h1, h2, -, h4⟩ := semaUp_spec hlists hs.only hresult
          have hsync : sync s' = (sync s).wake t := h4
          refine ih hup (hs.of_wake h1 h2 hsync) (hsync ▸ hsleep.wake hmem) ?_
          have hwait : s'.waitList = (sync s').waitList := rfl
          rw [hwait, hsync, Sync.wake, Sync.up_waitList]
          show s.waitList.erase t = rest
          rw [hl, List.erase_cons_head]

theorem Clean.tick (h : Clean s.history.converted) (hs : Sound s) (hsleep : (sync s).SleepersOk) :
    Clean (conversions (tick s)) := by
  set r : Sched := { s with ticks := s.ticks + 1, threadTicks := s.threadTicks + 1 } with hr
  have hlists : Lists none r := hs.lists.values rfl (fun _ => rfl) rfl rfl rfl rfl
  have hsound : Sound r := hs.of_sync hlists hs.only rfl
  have htimer : Clean (conversions (timerInterrupt s)) :=
    h.bindCurrent fun _ _ => Clean.wakeLoop r.waitList (s := r) h hsound hsleep rfl
  unfold Threads.tick
  cases hresult : timerInterrupt s with
  | error p =>
      rw [hresult] at htimer
      exact htimer
  | ok s' =>
      rw [hresult] at htimer
      obtain ⟨r', h1, -, -, h4⟩ := timerInterrupt_wakes hs hresult
      exact Clean.ite (Clean.threadYield htimer (h4.sound h1).live) htimer

/-! ## Conversions of every step -/

/-- The test of `thread_set_priority`, with a thread on the ready list. -/
theorem Clean.priorityTest {junk : ℤ} (h : Clean s.history.converted) (hl : Live s)
    (hready : s.readyList ≠ []) : Clean (conversions (priorityTest junk s)) := by
  unfold Threads.priorityTest
  cases hr : s.readyList with
  | nil => exact absurd hr hready
  | cons head rest =>
      simp only [listBegin]
      have hc : Clean (s.listEntry [.node head]).history.converted := by
        refine h.listEntry fun e he => ?_
        rw [List.mem_singleton.mp he]
        exact hl.ready head (by simp [hr])
      refine hc.bindCurrent fun th _ => Clean.ite ?_ hc
      exact hc.threadYield (hl.congr rfl (fun _ => rfl) rfl fun _ => rfl)

theorem Clean.runFrame {page : Option ThreadPtr} {junk : ℤ} {f : Frame}
    (h : Clean s.history.converted) (hl : Live s)
    (hsleep : ∀ t ∈ s.waitList, (s.threads t).isSome)
    (hready : f = .priorityTest → s.readyList ≠ []) :
    Clean (conversions (runFrame page junk s f)) := by
  cases f with
  | idleBlock => exact Clean.threadBlock (s := s.push _) h hl.modify
  | threadCreate p idle =>
      cases page with
      | none => exact h
      | some t => exact Clean.ite (r := .ok _) h h
  | unblockNew t => exact h.threadUnblock hl
  | threadBlock => exact h.threadBlock hl
  | threadUnblock t => exact h.threadUnblock hl
  | threadYield => exact h.threadYield hl
  | threadExit => exact h.threadExit hl
  | setPriority p => exact Clean.ite (r := .ok _) h h
  | priorityTest => exact h.priorityTest hl (hready rfl)
  | semaDown x => exact h.semaDown hl
  | semaDownAgain x => exact h.semaDown hl
  | semaTryDown x =>
      simp only [Threads.runFrame, semaTryDown]
      split
      · exact h
      · exact h
  | semaUp x => exact h.semaUp hl
  | lockAcquire l => exact Clean.ite h h
  | lockTryAcquire l =>
      simp only [Threads.runFrame, semaTryDown]
      refine Clean.ite h ?_
      by_cases hv : 0 < (s.semas (.ofLock l)).value
      · simp only [if_pos hv, if_true]
        exact h
      · simp only [if_neg hv, Bool.false_eq_true, if_false]
        exact h
  | lockRelease l => exact Clean.ite (r := .ok _) h h
  | insertSleeper => exact h.listEntry (interior_compared hl.running hsleep)
  | _ => exact h

/-- What has been converted stays in the log. -/
theorem mem_conversions_threadYield {b : Bool} (h : b ∈ s.history.converted) :
    b ∈ conversions (threadYield intr s) := by
  have hschedule : ∀ r : Sched, b ∈ r.history.converted → b ∈ conversions (schedule r) := by
    intro r hr
    rw [conversions_schedule]
    unfold nextThreadToRun
    split
    · exact hr
    · exact List.mem_append_right _ hr
  unfold threadYield threadCurrent
  cases hth : s.threads s.running with
  | none => exact h
  | some th =>
      simp only
      split
      · cases intr with
        | true => exact h
        | false =>
            by_cases hidle : s.idleThread = some s.running
            · simp only [hidle, ne_eq, not_true_eq_false, if_false, Bool.false_eq_true]
              exact hschedule _ h
            · simp only [hidle, ne_eq, not_false_eq_true, if_true, Bool.false_eq_true, if_false]
              exact hschedule _ (List.mem_append_right _ h)
      · exact h

/-- The test of `thread_set_priority` on an empty ready list converts the tail. -/
theorem tail_converted {junk : ℤ} (hready : s.readyList = []) :
    false ∈ conversions (priorityTest junk s) := by
  unfold priorityTest threadCurrent
  simp only [hready, listBegin]
  have hfalse : false ∈ (s.listEntry [.tail]).history.converted := List.mem_cons_self
  cases hth : (s.listEntry [.tail]).threads (s.listEntry [.tail]).running with
  | none => exact hfalse
  | some th =>
      simp only
      split
      · show false ∈ conversions (if _ then _ else _)
        split
        · exact mem_conversions_threadYield hfalse
        · exact hfalse
      · exact hfalse

/-- `thread_set_priority` comes to its test with a thread on the ready list. -/
def Guarded (s : Sched) : Event → Prop
  | .run _ _ => (s.frames s.running).head? = some .priorityTest → s.readyList ≠ []
  | _ => True

instance (s : Sched) : (e : Event) → Decidable (Guarded s e)
  | .run _ _ => inferInstanceAs (Decidable ((s.frames s.running).head? = some .priorityTest →
      s.readyList ≠ []))
  | .call _ => inferInstanceAs (Decidable True)
  | .tick => inferInstanceAs (Decidable True)

/-- A step converts only elements of threads exactly when it is guarded. -/
theorem clean_step_iff {e : Event} (h : Clean s.history.converted) (hs : Sound s)
    (hsleep : (sync s).SleepersOk) : Clean (conversions (step s e)) ↔ Guarded s e := by
  cases e with
  | call c => exact iff_of_true h trivial
  | tick => exact iff_of_true (h.tick hs hsleep) trivial
  | run page junk =>
      unfold step Guarded
      cases hf : s.frames s.running with
      | nil => exact iff_of_true h (by simp)
      | cons f rest =>
          have hlive : Live (s.setFrames s.running rest) := hs.live.modify
          have hsleep' : ∀ t ∈ s.waitList, ((s.setFrames s.running rest).threads t).isSome :=
            fun t ht => (isSome_modify s).trans (sleepers_isSome hsleep t ht)
          simp only [List.head?_cons, Option.some.injEq]
          refine ⟨fun hc e hempty => ?_, fun hg => Clean.runFrame (s := s.setFrames s.running rest) h
            hlive hsleep' hg⟩
          subst e
          have hfalse := hc false (tail_converted (s := s.setFrames s.running rest) hempty)
          cases hfalse

/-- A step is undisturbed, and guarded. -/
def Careful (m : Machine) : MachineEvent → Prop
  | .enter => True
  | .event e => Undisturbed m (.event e) ∧ Guarded m.sched e

instance (m : Machine) : (move : MachineEvent) → Decidable (Careful m move)
  | .enter => inferInstanceAs (Decidable True)
  | .event _ => inferInstanceAs (Decidable (_ ∧ _))

theorem Careful.undisturbed {m : Machine} {move : MachineEvent} (h : Careful m move) :
    Undisturbed m move := by
  cases move with
  | enter => trivial
  | event e => exact h.1

/-- A careful step of a machine in a reachable state converts only elements of threads. -/
theorem Careful.clean {main : ThreadPtr} {value : ℕ → ℕ} {m m' : Machine} {move : MachineEvent}
    (h : Careful m move) (hstep : m.Step move m') (hreach : Reach (start main value) m.sched)
    (hclean : Clean m.sched.history.converted) : Clean m'.sched.history.converted := by
  rcases hstep with ⟨-, hexec⟩ | ⟨hinside, rfl⟩
  · cases move with
    | enter =>
        cases hexec
        exact hclean
    | event e =>
        obtain ⟨hsound, hsafe⟩ := hreach.interleaved.sound
        have hc := (clean_step_iff hclean hsound hsafe.sleepers).mpr h.2
        cases hs : step m.sched e with
        | error p =>
            rw [Machine.exec, hs] at hexec
            cases hexec
        | ok s' =>
            rw [Machine.exec, hs] at hexec
            cases hexec
            rwa [hs] at hc
  · exact absurd hinside (by rw [h.1.1]; decide)

/-- **No sentinel is taken for a thread** in a run whose steps are careful, and a further
undisturbed step, whether it completes or panics, converts only elements of threads exactly when it is
guarded too. -/
theorem conversions_of_reach {main : ThreadPtr} {value : ℕ → ℕ} {m : Machine}
    (h : ReachUnder Careful (startMachine main value) m) :
    Clean m.sched.history.converted ∧
      ∀ e, m.Can (.event e) → Undisturbed m (.event e) →
        (Clean (conversions (step m.sched e)) ↔ Guarded m.sched e) := by
  have hreach := reach_of_undisturbed (fun _ _ hcond => hcond.undisturbed) h
  have hclean : Clean m.sched.history.converted := by
    clear hreach
    induction h with
    | refl => exact fun b hb => absurd hb List.not_mem_nil
    | tail hprev hlast ih =>
        obtain ⟨move, hcond, hstep⟩ := hlast
        exact hcond.clean hstep (reach_of_undisturbed (fun _ _ hcond => hcond.undisturbed) hprev) ih
  obtain ⟨hsound, hsafe⟩ := hreach.interleaved.sound
  exact ⟨hclean, fun e _ _ => clean_step_iff hclean hsound hsafe.sleepers⟩

/-- With another thread on the ready list `thread_set_priority` looks at a thread. -/
theorem conversions_with_ready_thread : ∃ m, ReachUnder Careful (startMachine 0 fun _ => 0) m ∧
    (m.sched.frames m.sched.running).head? = some .priorityTest ∧
    Clean (conversions (step m.sched (.run none 99))) := by
  have hrun : (replay Machine.exec (fun m move => Careful m move ∧ m.Can move)
      (startMachine 0 fun _ => 0) (bootMoves ++ createMoves 20 2 ++
        moves [.call (.threadSetPriority 31), .run none 0] ++ [.enter])).map
          (fun m => ((m.sched.frames m.sched.running).head?, decide (m.Can (.event (.run none 99))),
            decide (Careful m (.event (.run none 99))))) = some (some .priorityTest, true, true) := by
    decide +kernel
  obtain ⟨m, hm, e⟩ := Option.map_eq_some_iff.mp hrun
  obtain ⟨e1, e2, e3⟩ : (m.sched.frames m.sched.running).head? = some .priorityTest ∧
      decide (m.Can (.event (.run none 99))) = true ∧
        decide (Careful m (.event (.run none 99))) = true := by
    simpa only [Prod.mk.injEq] using e
  have hcareful : Careful m (.event (.run none 99)) := of_decide_eq_true e3
  have hreach := reachUnder_of_replay hm
  exact ⟨m, hreach, e1, ((conversions_of_reach hreach).2 _ (of_decide_eq_true e2)
    hcareful.undisturbed).mpr hcareful.2⟩

/-- Without one it takes the tail of the ready list for a thread: the initial thread, alone
but for the idle thread, sets its own priority. -/
theorem tail_taken_for_thread : ∃ m, ReachUnder Undisturbed (startMachine 0 fun _ => 0) m ∧
    m.sched.readyList = [] ∧ m.Can (.event (.run none 99)) ∧
      Undisturbed m (.event (.run none 99)) ∧
        ∃ s', step m.sched (.run none 99) = .ok s' ∧ false ∈ s'.history.converted := by
  have hrun : (replay Machine.exec (fun m move => Undisturbed m move ∧ m.Can move)
      (startMachine 0 fun _ => 0) (bootMoves ++ moves [.call (.threadSetPriority 31), .run none 0] ++
        [.enter])).map (fun m => (m.sched.readyList, decide (m.Can (.event (.run none 99))),
          decide (Undisturbed m (.event (.run none 99))),
            match step m.sched (.run none 99) with
            | .ok s' => decide (false ∈ s'.history.converted)
            | .error _ => false)) = some ([], true, true, true) := by decide +kernel
  obtain ⟨m, hm, e⟩ := Option.map_eq_some_iff.mp hrun
  obtain ⟨e1, e2, e3, e4⟩ : m.sched.readyList = [] ∧ decide (m.Can (.event (.run none 99))) = true ∧
      decide (Undisturbed m (.event (.run none 99))) = true ∧ (match step m.sched (.run none 99) with
        | .ok s' => decide (false ∈ s'.history.converted)
        | .error _ => false) = true := by
    simpa only [Prod.mk.injEq] using e
  refine ⟨m, reachUnder_of_replay hm, e1, of_decide_eq_true e2, of_decide_eq_true e3, ?_⟩
  cases hstep : step m.sched (.run none 99) with
  | error p =>
      rw [hstep] at e4
      cases e4
  | ok s' =>
      rw [hstep] at e4
      exact ⟨s', rfl, of_decide_eq_true e4⟩

end Pintos.Threads
