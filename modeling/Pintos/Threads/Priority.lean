import Pintos.Threads.Runs

/-!
# Priority scheduling

What `Lists` and `RunsTop` say, in the words of the scheduler: the order of the ready list
and of the lists of waiters, who is on them, and that the running thread has the highest
priority.  `priorityOk_of_reach` is the statement for every reachable state.
-/

namespace Pintos.Threads

open Lib Sched

variable {s : Sched} {t : ThreadPtr} {x : SemaId}

/-- `a` stands before `b` in an ordered list: its priority is higher, or they are equal and
it arrived earlier. -/
def Before (s : Sched) (a b : ThreadPtr) : Prop :=
  s.prio b < s.prio a ∨ s.prio a = s.prio b ∧ s.history.arrival a < s.history.arrival b

/-- The thread is `THREAD_BLOCKED` in the `sema_down` of `x`. -/
def BlockedOn (s : Sched) (t : ThreadPtr) (x : SemaId) : Prop :=
  s.statusOf t = some .blocked ∧ (s.frames t).head? = some (.semaDownAgain x)

/-- **Priority scheduling.** -/
structure PriorityOk (s : Sched) : Prop where
  readyOrder : s.readyList.Pairwise (Before s)
  /-- The ready list has each `THREAD_READY` thread but the idle thread once. -/
  readyOnce : ∀ t, s.statusOf t = some .ready → s.idleThread ≠ some t → s.readyList.count t = 1
  readyOnly : ∀ t ∈ s.readyList, s.statusOf t = some .ready ∧ s.idleThread ≠ some t
  waitersOrder : ∀ x, (s.semas x).waiters.Pairwise (Before s)
  /-- A blocked waiter is on the list of its semaphore once, and on no other. -/
  waitersOnce : ∀ t x, BlockedOn s t x →
    (s.semas x).waiters.count t = 1 ∧ ∀ y, t ∈ (s.semas y).waiters → y = x
  waitersOnly : ∀ x, ∀ t ∈ (s.semas x).waiters, BlockedOn s t x
  /-- Outside `thread_set_priority` the running thread is the idle thread or has the
  highest priority. -/
  top : (s.frames s.running).head? ≠ some .priorityTest →
    s.idleThread = some s.running ∨ ∀ t ∈ s.readyList, s.prio t ≤ s.prio s.running

theorem before_of_queued {l : List ThreadPtr} (h : Queued s.key s.history.arrival l) :
    l.Pairwise (Before s) := by
  refine List.Pairwise.imp ?_ h
  intro a b hab
  unfold key at hab
  unfold Before
  omega

theorem Sound.priorityOk (h : Sound s) (htop : RunsTop s) : PriorityOk s where
  readyOrder := before_of_queued h.lists.readyQueued
  readyOnce t ht hi :=
    List.count_eq_one_of_mem h.lists.readyQueued.nodup ((h.lists.ready t (by simp)).mpr ⟨ht, hi⟩)
  readyOnly t ht := (h.lists.ready t (by simp)).mp ht
  waitersOrder x := before_of_queued (h.lists.waitersQueued x)
  waitersOnce t x ht := by
    have hmem := (h.lists.waiters x t (by simp)).mpr ht
    refine ⟨List.count_eq_one_of_mem (h.lists.waitersQueued x).nodup hmem, fun y hy => ?_⟩
    have hy' := ((h.lists.waiters y t (by simp)).mp hy).2
    rw [ht.2, Option.some.injEq, Frame.semaDownAgain.injEq] at hy'
    exact hy'.symm
  waitersOnly x t ht := (h.lists.waiters x t (by simp)).mp ht
  top hne := htop.resolve_left hne

/-- **Every reachable state schedules by priority.** -/
theorem priorityOk_of_reach {main : ThreadPtr} {value : ℕ → ℕ} (h : Reach (start main value) s) :
    PriorityOk s := h.sound.1.priorityOk h.sound.2

/-- Two threads are created, one with the priority of the creator and one with a lower one. -/
theorem priorityOk_after_two_creates : ∃ s, Reach (start 0 fun _ => 0) s ∧ s.readyList = [2, 3] ∧
    s.running = 0 ∧ PriorityOk s := by
  have hrun : (run (start 0 fun _ => 0) (boot ++ createEvents 31 2 ++ createEvents 20 3)).map
      (fun s => (s.readyList, s.running)) = some ([2, 3], 0) := by decide +kernel
  obtain ⟨s, hs, e⟩ := Option.map_eq_some_iff.mp hrun
  have hreach := Reach.start.run hs
  exact ⟨s, hreach, congrArg Prod.fst e, congrArg Prod.snd e, priorityOk_of_reach hreach⟩

end Pintos.Threads
