import Pintos.Threads.Switch
import Pintos.Threads.Waiting

/-!
# Every step of the kernel

`Sound` is what holds between two steps: the lists are right, one thread runs, and the
threads' work is as `Sync` has it.  `runFrame_spec` goes through the steps of the running
thread: each is a step of `Sync` and keeps the lists, and after it the running thread is
the right one, or is about to test its priority (`RunsTop`).
-/

namespace Pintos.Threads

open Lib Sched

variable {s s' : Sched} {t : ThreadPtr} {x : SemaId} {f : Frame} {rest : List Frame}

/-- What holds between two steps. -/
structure Sound (s : Sched) : Prop where
  lists : Lists none s
  only : OnlyRunning s
  shape : (sync s).Shape
  idle : (sync s).IdleOk
  create : (sync s).CreateOk

/-- The running thread is the right one, or is about to test its priority. -/
def RunsTop (s : Sched) : Prop := (s.frames s.running).head? = some .priorityTest ∨ Top s

/-- What a step that does not touch priorities keeps. -/
structure Keeps (s s' : Sched) : Prop where
  lists : Lists none s'
  only : OnlyRunning s'
  top : Top s → Top s'

theorem Settled.keeps (h : Settled s') : Keeps s s' := ⟨h.lists, h.only, fun _ => h.top⟩

theorem Keeps.trans {r : Sched} (h : Keeps s r) (h' : Keeps r s') : Keeps s s' :=
  ⟨h'.lists, h'.only, fun ht => h'.top (h.top ht)⟩

/-- The waiters of a semaphore sleep in its `sema_down`. -/
theorem Lists.waitOk (h : Lists none s) : (sync s).WaitOk := by
  intro x t
  refine (h.waiters x t (by simp)).trans ⟨fun ⟨hb, hx⟩ => ⟨⟨hb, fun hi => ?_⟩, hx⟩,
    fun ⟨⟨hb, _⟩, hx⟩ => ⟨hb, hx⟩⟩
  exact h.idleAwake t hi x hx

/-! ## Changes to the running thread -/

/-- The running thread is changed, but not its status. -/
theorem Lists.modify (h : Lists none s) (ho : OnlyRunning s) {g : Thread → Thread}
    (hstatus : ∀ th, (g th).status = th.status)
    (hawake : s.idleThread = some s.running →
      ∀ x, ((s.modify s.running g).frames s.running).head? ≠ some (.semaDownAgain x)) :
    Lists none (s.modify s.running g) := by
  have hrun := (ho s.running).mpr rfl
  have hne : ∀ u st, s.statusOf u = some st → st ≠ .running → u ≠ s.running := by
    rintro u st hu hst rfl
    rw [hrun, Option.some.injEq] at hu
    exact hst hu.symm
  refine h.congr rfl (fun _ => rfl) rfl rfl rfl (fun u _ st _ => by rw [statusOf_modify s hstatus])
    (fun u _ hb => frames_modify_of_ne s (hne u _ hb (by simp))) (fun u _ hb => ?_) fun i hi y => ?_
  · rcases hb with hb | hb
    · exact prio_modify_of_ne s (hne u _ hb (by simp))
    · exact prio_modify_of_ne s (hne u _ hb (by simp))
  · by_cases e : i = s.running
    · subst e
      exact hawake hi y
    · rw [frames_modify_of_ne s e]
      exact h.idleAwake i hi y

theorem OnlyRunning.modify (ho : OnlyRunning s) {g : Thread → Thread}
    (hstatus : ∀ th, (g th).status = th.status) : OnlyRunning (s.modify t g) := by
  intro u
  rw [statusOf_modify s hstatus]
  exact ho u

theorem Top.congr (h : Top s) (hrun : s'.running = s.running) (hready : s'.readyList = s.readyList)
    (hidle : s'.idleThread = s.idleThread) (hprio : s'.prio = s.prio) : Top s' := by
  unfold Top
  rw [hrun, hready, hidle, hprio]
  exact h

/-- The running thread is given something else to do. -/
theorem Keeps.push (h : Lists none s) (ho : OnlyRunning s) {fs : List Frame}
    (hfs : s.idleThread = some s.running →
      ∀ x, (fs ++ s.frames s.running).head? ≠ some (.semaDownAgain x)) : Keeps s (s.push fs) := by
  refine ⟨h.modify ho (fun _ => rfl) fun hi x => ?_, ho.modify fun _ => rfl,
    fun ht => ht.congr rfl rfl rfl (prio_push s fs)⟩
  rw [show (s.modify s.running _).frames s.running = _ from frames_push_self s fs ho.isSome]
  exact hfs hi x

theorem sync_setFrames (h : (s.threads t).isSome) (fs : List Frame) :
    sync (s.setFrames t fs) = (sync s).put t fs := by
  have hframes : (s.setFrames t fs).frames = Function.update s.frames t fs := by
    funext u
    by_cases e : u = t
    · rw [e, Function.update_self, frames_setFrames_self s fs h]
    · rw [Function.update_of_ne e]
      exact frames_modify_of_ne s e
  have hasleep : (sync (s.setFrames t fs)).asleep = (sync s).asleep := by
    funext u
    show (_ ∧ _) = (_ ∧ _)
    rw [statusOf_setFrames]
    rfl
  have heq : sync (s.setFrames t fs) = { sync s with
      frames := (s.setFrames t fs).frames
      asleep := (sync (s.setFrames t fs)).asleep } := rfl
  rw [heq, hasleep, hframes]
  rfl

/-- A change of a thread that `sync` does not see. -/
theorem sync_modify {g : Thread → Thread} (hstatus : ∀ th, (g th).status = th.status)
    (hframes : ∀ th, (g th).frames = th.frames) : sync (s.modify t g) = sync s := by
  have hasleep : (sync (s.modify t g)).asleep = (sync s).asleep := by
    funext u
    show (_ ∧ _) = (_ ∧ _)
    rw [statusOf_modify s hstatus]
    rfl
  have heq : sync (s.modify t g) = { sync s with
      frames := (s.modify t g).frames
      asleep := (sync (s.modify t g)).asleep } := rfl
  rw [heq, hasleep, frames_modify s hframes]
  rfl

/-! ## The next step is taken off -/

/-- The running thread has `rest` left to do. -/
abbrev pop (s : Sched) (rest : List Frame) : Sched := s.setFrames s.running rest

theorem Sound.keeps_pop (h : Sound s) (hf : s.frames s.running = f :: rest) :
    Keeps s (pop s rest) := by
  refine ⟨h.lists.modify h.only (fun _ => rfl) fun hi x => ?_, h.only.modify fun _ => rfl,
    fun ht => ht.congr rfl rfl rfl (prio_setFrames s _ _)⟩
  rw [show (s.modify s.running _).frames s.running = rest from
    frames_setFrames_self s rest h.only.isSome]
  have hcases : s.frames s.running = [.idleBlock] ∨
      s.frames s.running = [.semaUp .idleStarted, .idleBlock] := h.idle.idle s.running hi
  rw [hf] at hcases
  rcases hcases with e | e
  · rw [(List.cons.inj e).2]
    simp
  · rw [(List.cons.inj e).2]
    simp

theorem Sound.sync_pop (h : Sound s) (rest : List Frame) :
    sync (pop s rest) = (sync s).put s.running rest := sync_setFrames h.only.isSome rest

/-- The idle thread takes no steps but its own. -/
theorem Sound.not_idle (h : Sound s) (hf : s.frames s.running = f :: rest) (hb : f ≠ .idleBlock)
    (hu : f ≠ .semaUp .idleStarted) : s.idleThread ≠ some s.running := by
  intro hi
  have hcases : s.frames s.running = [.idleBlock] ∨
      s.frames s.running = [.semaUp .idleStarted, .idleBlock] := h.idle.idle s.running hi
  rw [hf] at hcases
  rcases hcases with e | e
  · exact hb (List.cons.inj e).1
  · exact hu (List.cons.inj e).1

/-! ## The steps of the running thread -/

/-- A step of the running thread. -/
structure Stepped (s s' : Sched) : Prop where
  lists : Lists none s'
  only : OnlyRunning s'
  step : Sync.Step (sync s) s.running (sync s')
  top : RunsTop s → RunsTop s'

theorem Keeps.stepped (h : Keeps s s') (hf : s.frames s.running = f :: rest)
    (hne : f ≠ .priorityTest) (hstep : Sync.Step (sync s) s.running (sync s')) : Stepped s s' := by
  refine ⟨h.lists, h.only, hstep, fun ht => .inr (h.top (ht.resolve_left ?_))⟩
  rw [hf]
  simpa using hne

/-- The steps that only change what the thread has left to do. -/
theorem Keeps.moves (h : Keeps s s') (hf : s.frames s.running = f :: rest)
    (hne : f ≠ .priorityTest) {new : List Frame} (hm : Sync.Moves s.running f new)
    (hsync : sync s' = (sync s).put s.running (new ++ rest)) : Stepped s s' :=
  h.stepped hf hne (hsync ▸ Sync.Step.move hf hm)

section Frames

variable (h : Sound s) (hf : s.frames s.running = f :: rest)

include h

theorem Sound.frames_pop (rest : List Frame) : (pop s rest).frames s.running = rest :=
  frames_setFrames_self s rest h.only.isSome

theorem Sound.sync_push (fs rest : List Frame) :
    sync ((pop s rest).push fs) = (sync s).put s.running (fs ++ rest) := by
  have hsome : ((pop s rest).threads (pop s rest).running).isSome :=
    (isSome_modify s).trans h.only.isSome
  rw [Pintos.Threads.sync_push hsome, h.sync_pop]
  show ((sync s).put s.running rest).put s.running (fs ++ (pop s rest).frames s.running) = _
  rw [h.frames_pop, Sync.put_put]

include hf

theorem Sound.keeps_push (hb : f ≠ .idleBlock) (hu : f ≠ .semaUp .idleStarted) (fs : List Frame) :
    Keeps s ((pop s rest).push fs) := by
  have hk := h.keeps_pop hf
  exact hk.trans (Keeps.push hk.lists hk.only fun hi => absurd hi (h.not_idle hf hb hu))

/-- A step that only changes what the thread has left to do. -/
theorem Sound.moves (hne : f ≠ .priorityTest) (hm : Sync.Moves s.running f []) :
    Stepped s (pop s rest) :=
  (h.keeps_pop hf).moves hf hne hm (h.sync_pop rest)

/-- A step that gives the thread something to do first. -/
theorem Sound.pushes (hne : f ≠ .priorityTest) (hb : f ≠ .idleBlock)
    (hu : f ≠ .semaUp .idleStarted) {new : List Frame} (hm : Sync.Moves s.running f new) :
    Stepped s ((pop s rest).push new) :=
  (h.keeps_push hf hb hu new).moves hf hne hm (h.sync_push new rest)

end Frames

theorem Sound.stepped_setIdle (h : Sound s) (hf : s.frames s.running = .setIdle :: rest) :
    Stepped s { pop s rest with idleThread := some s.running } := by
  have hk := h.keeps_pop hf
  have hnone : s.idleThread = none := h.idle.mark s.running .setIdle
    (show .setIdle ∈ s.frames s.running by simp [hf]) trivial
  have hrest : rest = [.semaUp .idleStarted, .idleBlock] := (h.shape.cons hf).1
  have hrun : (pop s rest).statusOf s.running = some .running := (hk.only s.running).mpr rfl
  have hlists : Lists none { pop s rest with idleThread := some s.running } := by
    refine ⟨hk.lists.out, fun u _ => ?_, hk.lists.waiters, hk.lists.readyQueued,
      hk.lists.waitersQueued, hk.lists.readyStamps, hk.lists.waiterStamps, fun i hi x => ?_⟩
    · refine (hk.lists.ready u (by simp)).trans (and_congr_right fun hst => ?_)
      refine iff_of_true (by rw [show (pop s rest).idleThread = none from hnone]; simp) ?_
      intro e
      have e' : s.running = u := Option.some.inj e
      rw [← e', hrun] at hst
      cases hst
    · have e : s.running = i := Option.some.inj hi
      show ((pop s rest).frames i).head? ≠ _
      rw [← e, h.frames_pop, hrest]
      simp
  refine ⟨hlists, hk.only, ?_, fun _ => .inr (.inl rfl)⟩
  have hasleep : (sync { pop s rest with idleThread := some s.running }).asleep =
      (sync s).asleep := by
    funext u
    refine propext ?_
    show (pop s rest).statusOf u = some .blocked ∧ some s.running ≠ some u ↔
      s.statusOf u = some .blocked ∧ s.idleThread ≠ some u
    rw [statusOf_setFrames, hnone]
    refine and_congr_right fun hb => iff_of_true (fun e => ?_) (by simp)
    rw [← Option.some.inj e, (h.only s.running).mpr rfl] at hb
    cases hb
  have heq : sync { pop s rest with idleThread := some s.running } =
      { sync (pop s rest) with
        idleThread := some s.running
        asleep := (sync { pop s rest with idleThread := some s.running }).asleep } := rfl
  rw [heq, hasleep, h.sync_pop]
  exact Sync.Step.setIdle hf

theorem Sound.stepped_idleBlock (h : Sound s) (hf : s.frames s.running = .idleBlock :: rest)
    (hs : threadBlock ((pop s rest).push [.idleBlock]) = .ok s') : Stepped s s' := by
  have hi : s.idleThread = some s.running := h.idle.of_idleBlock h.shape hf
  have hk := h.keeps_pop hf
  have hk' : Keeps s ((pop s rest).push [.idleBlock]) :=
    hk.trans (Keeps.push hk.lists hk.only fun _ x => by simp)
  have hframes : ((pop s rest).push [.idleBlock]).frames s.running = .idleBlock :: rest := by
    have hsome : ((pop s rest).threads (pop s rest).running).isSome :=
      (isSome_modify s).trans h.only.isSome
    have e := frames_push_self (pop s rest) [.idleBlock] hsome
    rw [show (pop s rest).frames (pop s rest).running = rest from h.frames_pop rest] at e
    exact e
  have hlists := hk'.lists.setStatus hk'.only (fun e : Status.blocked = .ready => nomatch e)
      fun _ x => by
    rw [show ((pop s rest).push [.idleBlock]).frames
      ((pop s rest).push [.idleBlock]).running = _ from hframes]
    simp
  obtain ⟨h1, h2⟩ := threadBlock_spec hk'.only hlists hs
  refine h1.keeps.moves hf (by simp) Sync.Moves.idleBlock (h2.trans ?_)
  rw [← h.sync_push]
  exact sync_setStatus_awake hk'.only.awake fun _ => hi

theorem Sound.stepped_threadBlock (h : Sound s) (hf : s.frames s.running = .threadBlock :: rest)
    (hs : threadBlock (pop s rest) = .ok s') : Stepped s s' := by
  have hk := h.keeps_pop hf
  have hrest : rest = [] := (h.shape.cons hf).1
  have hlists := hk.lists.setStatus hk.only (fun e : Status.blocked = .ready => nomatch e)
      fun _ x => by
    rw [show (pop s rest).frames (pop s rest).running = rest from h.frames_pop rest, hrest]
    simp
  obtain ⟨h1, h2⟩ := threadBlock_spec hk.only hlists hs
  refine h1.keeps.stepped hf (by simp) ?_
  rw [h2, sync_setStatus_blocked hk.only.isSome (h.not_idle hf (by simp) (by simp)), h.sync_pop]
  exact Sync.Step.block hf

theorem Sound.stepped_threadYield (h : Sound s) (hf : s.frames s.running = .threadYield :: rest)
    (hs : threadYield false (pop s rest) = .ok s') : Stepped s s' := by
  have hk := h.keeps_pop hf
  obtain ⟨h1, h2⟩ := threadYield_spec hk.lists hk.only hs
  exact h1.keeps.moves hf (by simp) Sync.Moves.threadYield (h2.trans (h.sync_pop rest))

theorem Sound.stepped_threadExit (h : Sound s) (hf : s.frames s.running = .threadExit :: rest)
    (hs : threadExit (pop s rest) = .ok s') : Stepped s s' := by
  have hk := h.keeps_pop hf
  have hrest : rest = [] := (h.shape.cons hf).1
  have hnil : (pop s rest).frames (pop s rest).running = [] := (h.frames_pop rest).trans hrest
  obtain ⟨h1, h2⟩ := threadExit_spec hk.lists hk.only hnil hs
  exact h1.keeps.moves hf (by simp) Sync.Moves.threadExit (h2.trans (h.sync_pop rest))

/-- `thread_unblock` of a thread that waits for nothing. -/
theorem Sound.stepped_unblock (h : Sound s) (hf : s.frames s.running = f :: rest)
    (hfree : ∀ x, (s.frames t).head? ≠ some (.semaDownAgain x))
    (hidle : s.idleThread ≠ some t) (hne : f ≠ .priorityTest)
    (hstep : s.statusOf t = some .blocked → Sync.Step (sync s) s.running
      { (sync s).put s.running rest with asleep := Function.update (sync s).asleep t False })
    (hs : threadUnblock false (pop s rest) t = .ok s') : Stepped s s' := by
  have hk := h.keeps_pop hf
  have hb : s.statusOf t = some .blocked := by
    have e : (pop s rest).statusOf t = s.statusOf t := by rw [statusOf_setFrames]
    rw [← e]
    unfold threadUnblock at hs
    cases hth : (pop s rest).threads t with
    | none =>
        rw [hth] at hs
        cases hs
    | some th =>
        simp only [hth] at hs
        split at hs
        · cases hs
        · next hst =>
            rw [statusOf, hth]
            exact congrArg some (not_not.mp hst)
  have hrun : t ≠ s.running := by
    intro e
    rw [(h.only t).mpr e] at hb
    cases hb
  have hopen : Lists (some t) (pop s rest) := by
    refine hk.lists.openBlocked (by rw [statusOf_setFrames, hb]) fun x => ?_
    rw [show (pop s rest).frames t = s.frames t from frames_modify_of_ne s hrun]
    exact hfree x
  obtain ⟨h1, h2⟩ := threadUnblock_spec hopen hk.only hidle hs
  refine h1.keeps.stepped hf hne ?_
  rw [h2, h.sync_pop]
  exact hstep hb

theorem Sound.stepped_threadUnblock (h : Sound s) (hf : s.frames s.running = .threadUnblock t :: rest)
    (hfree : s.statusOf t = some .blocked → s.frames t = [])
    (hs : threadUnblock false (pop s rest) t = .ok s') : Stepped s s' := by
  by_cases hb : s.statusOf t = some .blocked
  · have hnil := hfree hb
    have hidle : s.idleThread ≠ some t := by
      intro hi
      have hcases : s.frames t = [.idleBlock] ∨ s.frames t = [.semaUp .idleStarted, .idleBlock] :=
        h.idle.idle t hi
      simp [hnil] at hcases
    exact h.stepped_unblock hf (by simp [hnil]) hidle (by simp)
      (fun hb => Sync.Step.unblock hf hnil ⟨hb, hidle⟩) hs
  · exfalso
    unfold threadUnblock at hs
    have e : (pop s rest).statusOf t = s.statusOf t := by rw [statusOf_setFrames]
    cases hth : (pop s rest).threads t with
    | none =>
        rw [hth] at hs
        cases hs
    | some th =>
        simp only [hth] at hs
        split at hs
        · cases hs
        · next hst =>
            apply hb
            rw [← e, statusOf, hth]
            exact congrArg some (not_not.mp hst)

theorem Sound.stepped_unblockNew (h : Sound s) (hf : s.frames s.running = .unblockNew t :: rest)
    (hs : threadUnblock false (pop s rest) t = .ok s') : Stepped s s' := by
  obtain ⟨⟨-, hidle⟩, hk⟩ := h.create.fresh s.running t
    (show .unblockNew t ∈ s.frames s.running by simp [hf])
  have hk' : (s.frames t).head? = some .kernelThread := hk
  exact h.stepped_unblock hf (by simp [hk']) hidle (by simp) (fun _ => Sync.Step.unblockNew hf) hs

/-! ## Priorities -/

theorem Sound.stepped_setPriority (h : Sound s) {p : ℤ} (hf : s.frames s.running = .setPriority p :: rest) :
    Stepped s (((pop s rest).modify s.running fun th => { th with priority := p }).push
      [.priorityTest]) := by
  have hk := h.keeps_pop hf
  set r := (pop s rest).modify s.running fun th => { th with priority := p } with hr
  have hidle : s.idleThread ≠ some s.running := h.not_idle hf (by simp) (by simp)
  have hlists : Lists none r := hk.lists.modify hk.only (fun _ => rfl) fun hi => absurd hi hidle
  have honly : OnlyRunning r := hk.only.modify fun _ => rfl
  have hk' : Keeps r (r.push [.priorityTest]) :=
    Keeps.push hlists honly fun hi => absurd hi hidle
  have hsome : (r.threads r.running).isSome := honly.isSome
  have hsync : sync r = (sync s).put s.running rest :=
    (sync_modify (s := pop s rest) (t := s.running) (g := fun th => { th with priority := p })
      (fun _ => rfl) fun _ => rfl).trans (h.sync_pop rest)
  have hframes : r.frames r.running = rest := by
    have e : r.frames = (pop s rest).frames := frames_modify _ fun _ => rfl
    rw [e]
    exact h.frames_pop rest
  have hpush := frames_push_self r [.priorityTest] hsome
  refine ⟨hk'.lists, hk'.only, ?_, fun _ => .inl ?_⟩
  · have e : sync (r.push [.priorityTest]) = (sync s).put s.running ([.priorityTest] ++ rest) := by
      rw [Pintos.Threads.sync_push hsome, hsync, hframes]
      exact Sync.put_put
    rw [e]
    exact Sync.Step.move hf Sync.Moves.setPriority
  · show ((r.push [.priorityTest]).frames r.running).head? = _
    rw [hpush]
    rfl

/-- The test of `thread_set_priority` leaves the right thread running. -/
theorem Sound.stepped_priorityTest (h : Sound s) {junk : ℤ}
    (hf : s.frames s.running = .priorityTest :: rest)
    (hs : priorityTest junk (pop s rest) = .ok s') : Stepped s s' := by
  have hk := h.keeps_pop hf
  set r := (pop s rest).listEntry [listBegin (pop s rest).readyList] with hr
  have hlists : Lists none r := hk.lists.listEntry _
  have honly : OnlyRunning r := hk.only
  obtain ⟨th, hth, hcur⟩ := threadCurrent_ok honly
  have hprio : r.prio r.running = th.priority := by simp [prio, hth]
  have hsync : sync r = (sync s).put s.running rest := h.sync_pop rest
  have hstep : Sync.Step (sync s) s.running (sync r) :=
    hsync ▸ Sync.Step.move hf Sync.Moves.priorityTest
  unfold priorityTest at hs
  simp only [← hr] at hs
  rw [hcur] at hs
  change ite _ _ _ = _ at hs
  split_ifs at hs with hc
  · obtain ⟨h1, h2⟩ := threadYield_spec hlists honly hs
    exact ⟨h1.lists, h1.only, h2 ▸ hstep, fun _ => .inr h1.top⟩
  · have e : s' = r := (Except.ok.inj hs).symm
    subst e
    refine ⟨hlists, honly, hstep, fun _ => .inr (.inr fun u hu => ?_)⟩
    cases hready : r.readyList with
    | nil =>
        rw [hready] at hu
        cases hu
    | cons t tail =>
        have hq := hlists.readyQueued
        rw [hready] at hq hu
        have hkey : -r.prio t ≤ -r.prio u := hq.head_le u hu
        have hready' : (pop s rest).readyList = t :: tail := hready
        rw [hready'] at hc
        have hle : ¬ th.priority < r.prio t := hc
        rw [hprio]
        omega

/-! ## Semaphores, locks and the timer -/

/-- A step that leaves the threads and the lists alone. -/
theorem Keeps.values (h : Keeps s s') {r : Sched} (hready : r.readyList = s'.readyList)
    (hwaiters : ∀ x, (r.semas x).waiters = (s'.semas x).waiters)
    (hidle : r.idleThread = s'.idleThread) (harrival : r.history.arrival = s'.history.arrival)
    (hclock : r.history.clock = s'.history.clock) (hthreads : r.threads = s'.threads)
    (hrun : r.running = s'.running) : Keeps s r := by
  refine ⟨h.lists.values hready hwaiters hidle harrival hclock hthreads, fun u => ?_, fun ht => ?_⟩
  · rw [statusOf, hthreads, hrun]
    exact h.only u
  · refine (h.top ht).congr hrun hready hidle ?_
    funext u
    rw [prio_eq, hthreads, prio_eq]

theorem Sound.stepped_semaDown (h : Sound s) (hd : Sync.Downs x f)
    (hf : s.frames s.running = f :: rest) (hs : semaDown (pop s rest) x = .ok s') :
    Stepped s s' := by
  have hk := h.keeps_pop hf
  have hidle : s.idleThread ≠ some s.running := by
    refine h.not_idle hf ?_ ?_
    all_goals rcases hd with rfl | rfl
    all_goals simp
  have hne : f ≠ .priorityTest := by rcases hd with rfl | rfl <;> simp
  obtain ⟨h1, h2, h3, h4⟩ := semaDown_spec hk.lists hk.only hidle hs
  refine (hk.trans ⟨h1, h2, h3⟩).stepped hf hne ?_
  rcases h4 with ⟨hv, h4⟩ | ⟨hv, ws, hws, h4⟩
  · rw [h4, h.sync_pop]
    exact Sync.Step.active (Sync.Active.down hf hd hv)
  · have e : (pop s rest).frames (pop s rest).running = rest := h.frames_pop rest
    have hput : (((sync s).put s.running rest).test s.running x).wait s.running x ws =
        (((sync s).test s.running x).wait s.running x ws).put s.running rest := rfl
    rw [h4, h.sync_pop, e, show (pop s rest).running = s.running from rfl, hput, Sync.put_put]
    exact Sync.Step.active (Sync.Active.wait hf hd hv hws)

theorem Sound.stepped_semaUp (h : Sound s) (hf : s.frames s.running = .semaUp x :: rest)
    (hs : semaUp false (pop s rest) x = .ok s') : Stepped s s' := by
  have hk := h.keeps_pop hf
  obtain ⟨h1, h2, h3, h4⟩ := semaUp_spec hk.lists hk.only hs
  have htop : Top (pop s rest) → Top s' := fun ht => h3.elim id fun e => e ▸ ht
  refine (hk.trans ⟨h1, h2, htop⟩).stepped hf (by simp) ?_
  rw [h4, h.sync_pop]
  exact Sync.Step.active (Sync.Active.up hf)

theorem Sound.keeps_takeOne (h : Sound s) (hf : s.frames s.running = f :: rest) (x : SemaId) :
    Keeps s (takeOne (pop s rest) x) :=
  (h.keeps_pop hf).values rfl takeOne_waiters rfl rfl rfl rfl rfl

theorem Sound.stepped_semaTryDown (h : Sound s)
    (hf : s.frames s.running = .semaTryDown x :: rest) :
    Stepped s (semaTryDown (pop s rest) x).2 := by
  unfold semaTryDown
  split
  · next hv =>
      refine (h.keeps_takeOne hf x).stepped hf (by simp) ?_
      have e : sync (takeOne (pop s rest) x) = ((sync s).take x).put s.running ([] ++ rest) :=
        congrArg (Sync.take · x) (h.sync_pop rest)
      rw [e]
      exact Sync.Step.active (Sync.Active.tryTake hf Sync.Tries.semaTryDown hv)
  · exact h.moves hf (by simp) Sync.Moves.tryDownFailed

theorem Sound.stepped_lockTryAcquire (h : Sound s) {l : LockId}
    (hf : s.frames s.running = .lockTryAcquire l :: rest) :
    Stepped s (if (semaTryDown (pop s rest) (.ofLock l)).1
      then (semaTryDown (pop s rest) (.ofLock l)).2.push [.setHolder l]
      else (semaTryDown (pop s rest) (.ofLock l)).2) := by
  unfold semaTryDown
  by_cases hv : 0 < ((pop s rest).semas (.ofLock l)).value
  · simp only [if_pos hv, if_true]
    have hk := h.keeps_takeOne hf (.ofLock l)
    have hidle : s.idleThread ≠ some s.running := h.not_idle hf (by simp) (by simp)
    refine (hk.trans (Keeps.push hk.lists hk.only fun hi => absurd hi hidle)).stepped hf (by simp) ?_
    have e : sync (takeOne (pop s rest) (.ofLock l)) =
        ((sync s).take (.ofLock l)).put s.running rest :=
      congrArg (Sync.take · (.ofLock l)) (h.sync_pop rest)
    have hframes : (takeOne (pop s rest) (.ofLock l)).frames
        (takeOne (pop s rest) (.ofLock l)).running = rest := h.frames_pop rest
    rw [Pintos.Threads.sync_push hk.only.isSome, e, hframes,
      show (takeOne (pop s rest) (.ofLock l)).running = s.running from rfl, Sync.put_put]
    exact Sync.Step.active (Sync.Active.tryTake hf Sync.Tries.lockTryAcquire hv)
  · simp only [if_neg hv, Bool.false_eq_true, if_false]
    exact h.moves hf (by simp) Sync.Moves.tryAcquireFailed

theorem Sound.stepped_setHolder (h : Sound s) {l : LockId}
    (hf : s.frames s.running = .setHolder l :: rest) : Stepped s (acquired (pop s rest) l) := by
  have hk : Keeps s (acquired (pop s rest) l) :=
    (h.keeps_pop hf).values rfl (fun _ => rfl) rfl rfl rfl rfl rfl
  refine hk.stepped hf (by simp) ?_
  have e : sync (acquired (pop s rest) l) = ((sync s).acquire s.running l).put s.running rest :=
    congrArg (Sync.acquire · s.running l) (h.sync_pop rest)
  rw [e]
  exact Sync.Step.active (Sync.Active.acquire hf)

theorem Sound.stepped_lockRelease (h : Sound s) {l : LockId}
    (hf : s.frames s.running = .lockRelease l :: rest) (hl : s.holder l = some s.running) :
    Stepped s ((released (pop s rest) l).push [.semaUp (.ofLock l)]) := by
  have hk : Keeps s (released (pop s rest) l) :=
    (h.keeps_pop hf).values rfl (fun _ => rfl) rfl rfl rfl rfl rfl
  have hidle : s.idleThread ≠ some s.running := h.not_idle hf (by simp) (by simp)
  refine (hk.trans (Keeps.push hk.lists hk.only fun hi => absurd hi hidle)).stepped hf (by simp) ?_
  have e : sync (released (pop s rest) l) = ((sync s).release s.running l).put s.running rest :=
    congrArg (Sync.release · s.running l) (h.sync_pop rest)
  have hframes : (released (pop s rest) l).frames (released (pop s rest) l).running = rest :=
    h.frames_pop rest
  rw [Pintos.Threads.sync_push hk.only.isSome, e, hframes,
    show (released (pop s rest) l).running = s.running from rfl, Sync.put_put]
  exact Sync.Step.active (Sync.Active.release hf hl)

theorem Sound.stepped_computeWakeup (h : Sound s) {n wakeupTime : ℤ}
    (hf : s.frames s.running = .computeWakeup n :: rest) :
    Stepped s (((pop s rest).modify s.running fun th => { th with wakeupTime }).push
      [.insertSleeper, .semaDown (.sleep s.running)]) := by
  have hk := h.keeps_pop hf
  set r := (pop s rest).modify s.running fun th => { th with wakeupTime } with hr
  have hidle : s.idleThread ≠ some s.running := h.not_idle hf (by simp) (by simp)
  have hk' : Keeps s r := by
    refine hk.trans ⟨hk.lists.modify hk.only (fun _ => rfl) fun hi => absurd hi hidle,
      hk.only.modify fun _ => rfl, fun ht => ht.congr rfl rfl rfl (prio_modify _ fun _ => rfl)⟩
  refine (hk'.trans (Keeps.push hk'.lists hk'.only fun hi => absurd hi hidle)).moves hf (by simp)
    Sync.Moves.computeWakeup ?_
  have hsync : sync r = (sync s).put s.running rest :=
    (sync_modify (s := pop s rest) (t := s.running) (g := fun th => { th with wakeupTime })
      (fun _ => rfl) fun _ => rfl).trans (h.sync_pop rest)
  have hframes : r.frames r.running = rest := by
    have e : r.frames = (pop s rest).frames := frames_modify _ fun _ => rfl
    rw [e]
    exact h.frames_pop rest
  rw [Pintos.Threads.sync_push hk'.only.isSome, hsync, hframes]
  exact Sync.put_put

theorem Sound.stepped_insertSleeper (h : Sound s)
    (hf : s.frames s.running = .insertSleeper :: rest) :
    Stepped s ((pop s rest).insertWait s.running) := by
  have hk : Keeps s ((pop s rest).insertWait s.running) :=
    (h.keeps_pop hf).values rfl (fun _ => rfl) rfl rfl rfl rfl rfl
  refine hk.stepped hf (by simp) ?_
  have e : sync ((pop s rest).insertWait s.running) =
      { (sync s).put s.running rest with
        waitList := enqueue (pop s rest).wakeup s.running s.waitList } := by
    rw [← h.sync_pop]
    rfl
  rw [e]
  exact Sync.Step.active (Sync.Active.insertSleeper hf enqueue_perm)

theorem Sound.stepped_takeTid (h : Sound s) {n : ℕ}
    (hf : s.frames s.running = .takeTid t :: rest) :
    Stepped s { (pop s rest).modify t fun th => { th with tid := n } with nextTid := n + 1 } := by
  have hk := h.keeps_pop hf
  have hstatus := statusOf_modify (pop s rest) (t := t) (f := fun th => { th with tid := n })
    fun _ => rfl
  have hframes := frames_modify (pop s rest) (t := t) (f := fun th => { th with tid := n })
    fun _ => rfl
  have hprio := prio_modify (pop s rest) (t := t) (f := fun th => { th with tid := n })
    fun _ => rfl
  have hlists : Lists none ((pop s rest).modify t fun th => { th with tid := n }) := by
    refine hk.lists.congr rfl (fun _ => rfl) rfl rfl rfl (fun u _ st _ => by rw [hstatus])
      (fun u _ _ => by rw [hframes]) (fun u _ _ => by rw [hprio]) fun i hi x => ?_
    rw [hframes]
    exact hk.lists.idleAwake i hi x
  have hk' : Keeps s ((pop s rest).modify t fun th => { th with tid := n }) :=
    hk.trans ⟨hlists, hk.only.modify fun _ => rfl, fun ht => ht.congr rfl rfl rfl hprio⟩
  refine (hk'.values (r := { (pop s rest).modify t fun th => { th with tid := n } with
    nextTid := n + 1 }) rfl (fun _ => rfl) rfl rfl rfl rfl rfl).moves hf (by simp)
    Sync.Moves.takeTid ?_
  exact (sync_modify (s := pop s rest) (t := t) (g := fun th => { th with tid := n })
    (fun _ => rfl) fun _ => rfl).trans (h.sync_pop rest)

/-! ## Creating a thread -/

theorem initThread_threads_of_ne {u : ThreadPtr} {p : ℤ} {idle : Bool} (hne : u ≠ t) :
    (initThread s t p idle).threads u = s.threads u := Function.update_of_ne hne _ _

theorem initThread_waiters {p : ℤ} {idle : Bool} (x : SemaId) :
    ((initThread s t p idle).semas x).waiters =
      if x = .sleep t then [] else (s.semas x).waiters := by
  show ((Function.update s.semas (.sleep t) ⟨0, []⟩) x).waiters = _
  split
  · next e => rw [e, Function.update_self]
  · next e => rw [Function.update_of_ne e]

/-- `init_thread` in a page that is not in use. -/
theorem Lists.initThread (h : Lists none s) (hshape : (sync s).Shape) {p : ℤ} {idle : Bool}
    (hfree : s.threads t = none) (hidle : s.idleThread ≠ some t) :
    Lists none (initThread s t p idle) := by
  set r := Threads.initThread s t p idle with hr
  have hnew : r.threads t = some ⟨0, .blocked, p, 0, firstFrames idle⟩ := Function.update_self ..
  have hstatus : r.statusOf t = some .blocked := by simp [statusOf, hnew]
  have hframes : r.frames t = firstFrames idle := by simp [frames, hnew]
  have hfirst : ∀ x, (firstFrames idle).head? ≠ some (.semaDownAgain x) := by
    intro x
    cases idle <;> simp [firstFrames]
  have hother : ∀ u, u ≠ t → r.threads u = s.threads u := fun u hu => initThread_threads_of_ne hu
  have hlive : ∀ u, (s.threads u).isSome → u ≠ t := by
    rintro u hu rfl
    simp [hfree] at hu
  have hkey : ∀ u, u ≠ t → r.key u = s.key u := by
    intro u hu
    simp [key, prio, hother u hu]
  -- nobody but `t` can wait for its semaphore
  have hsleep : ∀ u, u ∉ (s.semas (.sleep t)).waiters := by
    intro u hu
    have hw := (h.waiters _ u (by simp)).mp hu
    have hg : Good u (s.frames u) := hshape u
    cases hfr : s.frames u with
    | nil => simp [hfr] at hw
    | cons g gs =>
        rw [hfr] at hg hw
        have e : g = .semaDownAgain (.sleep t) := by simpa using hw.2
        rw [e] at hg
        have hut : t = u := hg.1.1
        exact hlive u (isSome_of_statusOf s hw.1) hut.symm
  refine ⟨by simp, fun u _ => ?_, fun x u _ => ?_, ?_, fun x => ?_, h.readyStamps, fun x u hu => ?_,
    fun i hi x => ?_⟩
  · show u ∈ s.readyList ↔ _
    by_cases e : u = t
    · subst e
      rw [hstatus]
      refine iff_of_false (fun hu => hlive u (h.mem_isSome hu) rfl) (by simp)
    · rw [statusOf, hother u e]
      exact h.ready u (by simp)
  · rw [initThread_waiters]
    by_cases e : u = t
    · subst e
      rw [hframes]
      refine iff_of_false (fun hu => ?_) fun hb => hfirst x hb.2
      split at hu
      · simp at hu
      · exact hlive u (h.waiter_isSome hu) rfl
    · have hst : r.statusOf u = s.statusOf u := by rw [statusOf, hother u e, statusOf]
      have hfr : r.frames u = s.frames u := by rw [frames_eq, hother u e, frames_eq]
      rw [hst, hfr, ← h.waiters x u (by simp)]
      split
      · next ex =>
          rw [ex]
          exact iff_of_false (by simp) (hsleep u)
      · exact Iff.rfl
  · exact h.readyQueued.congr (fun u hu => hkey u (hlive u (h.mem_isSome hu))) fun _ _ => rfl
  · rw [initThread_waiters]
    split
    · exact Queued.nil
    · exact (h.waitersQueued x).congr (fun u hu => hkey u (hlive u (h.waiter_isSome hu)))
        fun _ _ => rfl
  · rw [initThread_waiters] at hu
    split at hu
    · simp at hu
    · exact h.waiterStamps x u hu
  · have hi' : s.idleThread = some i := hi
    have hne : i ≠ t := by
      rintro rfl
      exact hidle hi'
    rw [frames_eq, hother i hne, ← frames_eq]
    exact h.idleAwake i hi' x

theorem Keeps.initThread (h : Keeps s s') (hshape : (sync s').Shape) {p : ℤ} {idle : Bool}
    (hfree : s'.threads t = none) (hidle : s'.idleThread ≠ some t) :
    Keeps s (initThread s' t p idle) := by
  have hne : ∀ u, (s'.threads u).isSome → u ≠ t := by
    rintro u hu rfl
    simp [hfree] at hu
  refine ⟨h.lists.initThread hshape hfree hidle, fun u => ?_, fun ht => ?_⟩
  · by_cases e : u = t
    · subst e
      refine iff_of_false (fun hu => ?_) fun er => ?_
      · rw [statusOf, show (Threads.initThread s' u p idle).threads u = _ from
          Function.update_self ..] at hu
        cases hu
      · exact hne u (er ▸ h.only.isSome) rfl
    · rw [statusOf, initThread_threads_of_ne e]
      exact h.only u
  · refine (h.top ht).imp (fun hi => hi) fun hle u hu => ?_
    have hu' : u ≠ t := hne u (h.lists.mem_isSome hu)
    have hr : s'.running ≠ t := hne _ h.only.isSome
    rw [prio_eq, prio_eq, initThread_threads_of_ne hu',
      show (Threads.initThread s' t p idle).running = s'.running from rfl,
      initThread_threads_of_ne hr, ← prio_eq, ← prio_eq]
    exact hle u hu

theorem sync_initThread {p : ℤ} {idle : Bool} (hidle : s.idleThread ≠ some t) :
    sync (initThread s t p idle) = (sync s).create t idle := by
  have hnew : (initThread s t p idle).threads t = some ⟨0, .blocked, p, 0, firstFrames idle⟩ :=
    Function.update_self ..
  have hframes : (initThread s t p idle).frames =
      Function.update s.frames t (firstFrames idle) := by
    funext u
    by_cases e : u = t
    · rw [e, Function.update_self]
      simp [frames, hnew]
    · rw [Function.update_of_ne e, frames_eq, initThread_threads_of_ne e, ← frames_eq]
  have hasleep : (sync (initThread s t p idle)).asleep =
      Function.update (sync s).asleep t True := by
    funext u
    by_cases e : u = t
    · rw [e, Function.update_self]
      exact eq_true ⟨by simp [statusOf, hnew], hidle⟩
    · rw [Function.update_of_ne e]
      show (_ ∧ _) = (_ ∧ _)
      rw [statusOf, initThread_threads_of_ne e]
      rfl
  have heq : sync (initThread s t p idle) = { (sync s).create t idle with
      frames := (initThread s t p idle).frames
      asleep := (sync (initThread s t p idle)).asleep } := rfl
  rw [heq, hasleep, hframes]
  rfl

theorem Sound.stepped_threadCreate (h : Sound s) {page : Option ThreadPtr} {p : ℤ} {idle : Bool}
    (hf : s.frames s.running = .threadCreate p idle :: rest)
    (hpage : ∀ t, page = some t → s.threads t = none)
    (hs : threadCreate page (pop s rest) p idle = .ok s') : Stepped s s' := by
  have hk := h.keeps_pop hf
  have hidle : s.idleThread ≠ some s.running := h.not_idle hf (by simp) (by simp)
  unfold threadCreate at hs
  cases page with
  | none =>
      cases hs
      exact h.moves hf (by simp) Sync.Moves.createFailed
  | some t =>
      simp only at hs
      split at hs
      · cases hs
        have hfree : s.threads t = none := hpage t rfl
        have hne : t ≠ s.running := by
          rintro rfl
          have hsome := h.only.isSome
          simp [hfree] at hsome
        have hempty : s.frames t = [] := by simp [frames, hfree]
        have hit : s.idleThread ≠ some t := by
          intro hi
          have hcases : s.frames t = [.idleBlock] ∨
              s.frames t = [.semaUp .idleStarted, .idleBlock] := h.idle.idle t hi
          simp [hempty] at hcases
        have hfree' : (pop s rest).threads t = none := (threads_modify_of_ne s hne).trans hfree
        have hshape : (sync (pop s rest)).Shape := by
          rw [h.sync_pop]
          exact h.shape.put (h.shape.cons hf).2
        have hk' : Keeps s (initThread (pop s rest) t p idle) := hk.initThread hshape hfree' hit
        refine (hk'.trans (Keeps.push hk'.lists hk'.only fun hi => absurd hi hidle)).stepped hf
          (by simp) ?_
        have hframes : (initThread (pop s rest) t p idle).frames s.running = rest := by
          rw [frames_eq, initThread_threads_of_ne hne.symm, ← frames_eq]
          exact h.frames_pop rest
        have hcreate : ((sync s).put s.running rest).create t idle =
            ((sync s).create t idle).put s.running rest := by
          unfold Sync.put Sync.create
          rw [Function.update_comm hne.symm]
        rw [Pintos.Threads.sync_push hk'.only.isSome, sync_initThread (s := pop s rest) hit,
          h.sync_pop, hcreate,
          show (initThread (pop s rest) t p idle).running = s.running from rfl, hframes,
          Sync.put_put]
        refine Sync.Step.active (Sync.Active.create hf hempty (fun ha => ?_) hne)
        have hst := ha.1
        simp [statusOf, hfree] at hst
      · cases hs

/-! ## Every step -/

/-- **A step of the running thread.** -/
theorem runFrame_spec (h : Sound s) {page : Option ThreadPtr} {junk : ℤ}
    (hf : s.frames s.running = f :: rest) (hallowed : Allowed s (.run page junk))
    (hs : runFrame page junk (pop s rest) f = .ok s') : Stepped s s' := by
  cases f with
  | kernelThread =>
      cases hs
      exact h.moves hf (by simp) Sync.Moves.kernelThread
  | setIdle =>
      cases hs
      exact h.stepped_setIdle hf
  | idleBlock => exact h.stepped_idleBlock hf hs
  | threadCreate p idle => exact h.stepped_threadCreate hf hallowed.1 hs
  | takeTid t =>
      cases hs
      exact h.stepped_takeTid hf
  | unblockNew t => exact h.stepped_unblockNew hf hs
  | threadBlock => exact h.stepped_threadBlock hf hs
  | threadUnblock t =>
      exact h.stepped_threadUnblock hf (hallowed.2 t (by rw [hf]; rfl)) hs
  | threadYield => exact h.stepped_threadYield hf hs
  | threadExit => exact h.stepped_threadExit hf hs
  | setPriority p =>
      simp only [runFrame] at hs
      split at hs
      · cases hs
        exact h.stepped_setPriority hf
      · cases hs
  | priorityTest => exact h.stepped_priorityTest hf hs
  | semaDown x => exact h.stepped_semaDown (.inl rfl) hf hs
  | semaDownAgain x => exact h.stepped_semaDown (.inr rfl) hf hs
  | semaTryDown x =>
      cases hs
      exact h.stepped_semaTryDown hf
  | semaUp x => exact h.stepped_semaUp hf hs
  | lockAcquire l =>
      simp only [runFrame] at hs
      split at hs
      · cases hs
      · cases hs
        exact h.pushes hf (by simp) (by simp) (by simp) Sync.Moves.lockAcquire
  | setHolder l =>
      cases hs
      exact h.stepped_setHolder hf
  | lockTryAcquire l =>
      simp only [runFrame] at hs
      split at hs
      · cases hs
      · cases hs
        exact h.stepped_lockTryAcquire hf
  | lockRelease l =>
      simp only [runFrame] at hs
      split at hs
      · next hl =>
          cases hs
          exact h.stepped_lockRelease hf hl
      · cases hs
  | computeWakeup n =>
      cases hs
      exact h.stepped_computeWakeup hf
  | insertSleeper =>
      cases hs
      exact h.stepped_insertSleeper hf

end Pintos.Threads
