import Pintos.Lib.Queue
import Pintos.Lib.Runs

/-!
# Condition variables

`cond_wait`, `cond_signal` and `cond_broadcast` of `Project1/synch.c`, for one condition and the lock
that protects it, and every order in which the threads run.

The list of waiters is ordered with `value_less`, which takes its arguments for the `elem` of a
`struct thread` and compares what lies at the distance of `priority` from it.  On this list they are
the `elem` of a `struct semaphore_elem`, a local variable of `cond_wait`: what lies there is some word
on the stack of the waiting thread.  `memory` is the words as they are at the time of the call.

`wakes` is not in the source: it is the threads whose semaphore has been raised, in order, and a
broadcast remembers how it began.

* **`Inv.exec`** — every step keeps the invariant.
* **`cond_wakes_by_priority`** — which runs wake the threads by their priority, and that every
  broadcast wakes each waiter once.
* **`signal_not_highest`** — two threads, and the lower priority is woken first.
-/

namespace Pintos.Threads

open Lib

/-! ## State -/

/-- Where a thread is. -/
inductive CondPhase where
  /-- In none of the functions. -/
  | running
  /-- In `cond_wait`, on the list of waiters, before it gives up the lock. -/
  | inserted
  /-- In `cond_wait`, before its `sema_down`. -/
  | released
  /-- Blocked in the `sema_down` of `cond_wait`. -/
  | asleep
  /-- Woken up there, to test the semaphore again. -/
  | woken
  /-- In the `lock_acquire` of `cond_wait`. -/
  | reacquiring
  /-- In the loop of `cond_broadcast`, which began with the waiters `start` after `before`. -/
  | broadcasting (start before : List ℕ)
deriving DecidableEq, Repr

/-- A condition, its lock, and the threads. -/
structure Monitor where
  holder : Option ℕ
  waiters : List ℕ
  /-- The address of `waiter.elem`. -/
  elem : ℕ → ℕ
  /-- The value of `waiter.semaphore`. -/
  value : ℕ → ℕ
  phase : ℕ → CondPhase
  priority : ℕ → ℤ
  wakes : List ℕ

/-- `offsetof (struct thread, elem)`. -/
def offsetofElem : ℕ := 40

/-- `offsetof (struct thread, priority)`. -/
def offsetofPriority : ℕ := 28

/-- `list_entry (a, struct thread, elem)->priority`. -/
def priorityAt (memory : ℕ → ℤ) (a : ℕ) : ℤ := memory (a - offsetofElem + offsetofPriority)

/-- `value_less`. -/
def valueLess (memory : ℕ → ℤ) (a b : ℕ) : Prop := priorityAt memory a > priorityAt memory b

instance (memory : ℕ → ℤ) (a b : ℕ) : Decidable (valueLess memory a b) :=
  inferInstanceAs (Decidable (_ < _))

/-- `list_insert_ordered (&cond->waiters, &waiter.elem, value_less, NULL)`. -/
def insertWaiter (memory : ℕ → ℤ) (elem : ℕ → ℕ) (t : ℕ) (waiters : List ℕ) : List ℕ :=
  waiters.orderedInsert (fun x y => valueLess memory (elem x) (elem y)) t

/-- `sema_up` for the semaphore of the thread at the front, if there is one. -/
def Monitor.signalFront (s : Monitor) : Monitor :=
  match s.waiters with
  | [] => s
  | w :: waiters =>
      { s with
        waiters
        value := Function.update s.value w (s.value w + 1)
        phase := if s.phase w = .asleep then Function.update s.phase w .woken else s.phase
        wakes := s.wakes ++ [w] }

/-- What a thread does next. -/
inductive CondOp where
  | lockAcquire (t : ℕ)
  | lockRelease (t : ℕ)
  | setPriority (t : ℕ) (p : ℤ)
  /-- `cond_wait`, up to the insertion. -/
  | wait (t a : ℕ) (memory : ℕ → ℤ)
  /-- The `lock_release` of `cond_wait`. -/
  | waitRelease (t : ℕ)
  /-- One round of the `sema_down` of `cond_wait`. -/
  | waitDown (t : ℕ)
  /-- The `lock_acquire` of `cond_wait`. -/
  | waitAcquire (t : ℕ)
  | signal (t : ℕ)
  | broadcast (t : ℕ)
  /-- One round of the loop of `cond_broadcast`. -/
  | broadcastRound (t : ℕ)

namespace Monitor

/-- `t` runs outside the functions and holds the lock, as their assertions say. -/
def Holds (s : Monitor) (t : ℕ) : Prop := s.phase t = .running ∧ s.holder = some t

instance (s : Monitor) (t : ℕ) : Decidable (s.Holds t) := inferInstanceAs (Decidable (_ ∧ _))

/-- A thread goes on to another phase. -/
def goTo (s : Monitor) (t : ℕ) (p : CondPhase) : Monitor :=
  { s with phase := Function.update s.phase t p }

/-- `sema_init`, and the insertion into the list of waiters. -/
def startWait (s : Monitor) (t a : ℕ) (memory : ℕ → ℤ) : Monitor :=
  let elem := Function.update s.elem t a
  { s with
    elem
    value := Function.update s.value t 0
    waiters := insertWaiter memory elem t s.waiters
    phase := Function.update s.phase t .inserted }

/-- One step, if the thread can take it. -/
def exec (s : Monitor) : CondOp → Except Unit Monitor
  | .lockAcquire t =>
      if s.phase t = .running ∧ s.holder = none then .ok { s with holder := some t } else .error ()
  | .lockRelease t => if s.Holds t then .ok { s with holder := none } else .error ()
  | .setPriority t p =>
      if s.phase t = .running then .ok { s with priority := Function.update s.priority t p }
      else .error ()
  | .wait t a memory => if s.Holds t then .ok (s.startWait t a memory) else .error ()
  | .waitRelease t =>
      if s.phase t = .inserted then .ok ({ s with holder := none }.goTo t .released) else .error ()
  | .waitDown t =>
      if s.phase t = .released ∨ s.phase t = .woken then
        if s.value t = 0 then .ok (s.goTo t .asleep)
        else .ok ({ s with value := Function.update s.value t (s.value t - 1) }.goTo t .reacquiring)
      else .error ()
  | .waitAcquire t =>
      if s.phase t = .reacquiring ∧ s.holder = none then
        .ok ({ s with holder := some t }.goTo t .running)
      else .error ()
  | .signal t => if s.Holds t then .ok s.signalFront else .error ()
  | .broadcast t => if s.Holds t then .ok (s.goTo t (.broadcasting s.waiters s.wakes)) else .error ()
  | .broadcastRound t =>
      match s.phase t with
      | .broadcasting _ _ =>
          if s.waiters = [] then .ok (s.goTo t .running) else .ok s.signalFront
      | _ => .error ()

/-- No thread is in any of the functions. -/
def initial (priority : ℕ → ℤ) : Monitor where
  holder := none
  waiters := []
  elem _ := 0
  value _ := 0
  phase _ := .running
  priority
  wakes := []

end Monitor

/-! ## The invariant -/

namespace CondPhase

/-- The thread has been put on the list of waiters and has not passed its semaphore. -/
def Waits (p : CondPhase) : Prop := p = .inserted ∨ p = .released ∨ p = .asleep ∨ p = .woken

end CondPhase

open Monitor

/-- A broadcast that began with the waiters `start`, after `before` had been woken, wakes them one
after the other. -/
structure BroadcastOk (waiters wakes start before : List ℕ) : Prop where
  nodup : start.Nodup
  progress : ∃ done, start = done ++ waiters ∧ wakes = before ++ done

structure Inv (s : Monitor) : Prop where
  nodup : s.waiters.Nodup
  waits : ∀ t ∈ s.waiters, (s.phase t).Waits
  value : ∀ t, (s.phase t).Waits → (t ∈ s.waiters ↔ s.value t = 0)
  /-- Whoever sleeps has not been signaled. -/
  asleep : ∀ t, s.phase t = .asleep → s.value t = 0
  inserted : ∀ t, s.phase t = .inserted → s.holder = some t
  broadcasting : ∀ t start before, s.phase t = .broadcasting start before →
    s.holder = some t ∧ BroadcastOk s.waiters s.wakes start before

section Steps

variable {s s' : Monitor} {t a : ℕ} {memory : ℕ → ℤ}

theorem inv_initial (priority : ℕ → ℤ) : Inv (initial priority) where
  nodup := .nil
  waits t ht := by cases ht
  value t ht := by rcases ht with h | h | h | h <;> cases h
  asleep t ht := by cases ht
  inserted t ht := by cases ht
  broadcasting t _ _ ht := by cases ht

theorem not_waits_running : ¬ CondPhase.running.Waits := by
  rintro (h | h | h | h) <;> cases h

/-- The holder of the lock is in none of the functions. -/
theorem Monitor.Holds.free (ht : s.Holds t) : ∀ u, s.holder = some u → s.phase u = .running :=
  fun u hu => by
    rw [ht.2] at hu
    exact Option.some.inj hu ▸ ht.1

theorem insertWaiter_perm (elem : ℕ → ℕ) (ws : List ℕ) :
    (insertWaiter memory elem t ws).Perm (t :: ws) := List.perm_orderedInsert _ t ws

namespace Inv

variable (h : Inv s)
include h

theorem notMem (ht : ¬ (s.phase t).Waits) : t ∉ s.waiters := fun hm => ht (h.waits t hm)

/-- Only the holder of the lock is in the loop of a broadcast, or has just gone on the list. -/
theorem no_broadcast (hfree : ∀ u, s.holder = some u → s.phase u = .running) (u : ℕ)
    (start before : List ℕ) : s.phase u ≠ .broadcasting start before := fun e => by
  have := hfree u (h.broadcasting u start before e).1
  rw [e] at this
  cases this

theorem no_inserted (hfree : ∀ u, s.holder = some u → s.phase u = .running) (u : ℕ) :
    s.phase u ≠ .inserted := fun e => by
  have := hfree u (h.inserted u e)
  rw [e] at this
  cases this

/-- The lock changes hands where no thread depends on holding it. -/
theorem setHolder (hi : ∀ u, s.phase u ≠ .inserted)
    (hb : ∀ u start before, s.phase u ≠ .broadcasting start before) (o : Option ℕ) :
    Inv { s with holder := o } where
  nodup := h.nodup
  waits := h.waits
  value := h.value
  asleep := h.asleep
  inserted u hu := absurd hu (hi u)
  broadcasting u start before hu := absurd hu (hb u start before)

theorem setPriority (f : ℕ → ℤ) : Inv { s with priority := f } where
  nodup := h.nodup
  waits := h.waits
  value := h.value
  asleep := h.asleep
  inserted := h.inserted
  broadcasting := h.broadcasting

/-- A thread that waits goes on, and waits still. -/
theorem goTo_waits {p : CondPhase} (ht : (s.phase t).Waits) (hp : p.Waits) (hi : p ≠ .inserted)
    (hasleep : p = .asleep → s.value t = 0) : Inv (s.goTo t p) := by
  have hphase : ∀ u, (s.goTo t p).phase u = if u = t then p else s.phase u := fun u =>
    Function.update_apply ..
  have hwaits : ∀ u, ((s.goTo t p).phase u).Waits ↔ (s.phase u).Waits := fun u => by
    rw [hphase]
    split_ifs with e
    · exact iff_of_true hp (e ▸ ht)
    · rfl
  constructor
  · exact h.nodup
  · exact fun u hu => (hwaits u).mpr (h.waits u hu)
  · exact fun u hu => h.value u ((hwaits u).mp hu)
  · intro u hu
    rw [hphase] at hu
    split_ifs at hu with e
    · exact e ▸ hasleep hu
    · exact h.asleep u hu
  · intro u hu
    rw [hphase] at hu
    split_ifs at hu with e
    · exact absurd hu hi
    · exact h.inserted u hu
  · intro u start before hu
    rw [hphase] at hu
    split_ifs at hu with e
    · subst hu
      rcases hp with hp | hp | hp | hp <;> cases hp
    · exact h.broadcasting u start before hu

/-- A thread that is not on the list goes on to where it does not wait. -/
theorem goTo_other {p : CondPhase} (ht : t ∉ s.waiters) (hp : ¬ p.Waits)
    (hbroadcast : ∀ start before, p = .broadcasting start before →
      s.holder = some t ∧ BroadcastOk s.waiters s.wakes start before) : Inv (s.goTo t p) := by
  have hphase : ∀ u, (s.goTo t p).phase u = if u = t then p else s.phase u := fun u =>
    Function.update_apply ..
  have hne : ∀ u, ((s.goTo t p).phase u).Waits → u ≠ t ∧ (s.phase u).Waits := fun u hu => by
    rw [hphase] at hu
    split_ifs at hu with e
    · exact absurd hu hp
    · exact ⟨e, hu⟩
  constructor
  · exact h.nodup
  · intro u hu
    have hut : u ≠ t := fun e => ht (e ▸ hu)
    rw [hphase, if_neg hut]
    exact h.waits u hu
  · exact fun u hu => h.value u (hne u hu).2
  · intro u hu
    have := hne u (.inr (.inr (.inl hu)))
    rw [hphase, if_neg this.1] at hu
    exact h.asleep u hu
  · intro u hu
    have := hne u (.inl hu)
    rw [hphase, if_neg this.1] at hu
    exact h.inserted u hu
  · intro u start before hu
    rw [hphase] at hu
    split_ifs at hu with e
    · subst e
      exact hbroadcast start before hu
    · exact h.broadcasting u start before hu

/-- A thread that does not wait changes the value of its semaphore. -/
theorem setValue (ht : ¬ (s.phase t).Waits) (v : ℕ) :
    Inv { s with value := Function.update s.value t v } where
  nodup := h.nodup
  waits := h.waits
  value u hu := by
    have hut : u ≠ t := fun e => ht (e ▸ hu)
    show u ∈ s.waiters ↔ Function.update s.value t v u = 0
    rw [h.value u hu, Function.update_of_ne hut]
  asleep u hu := by
    have hut : u ≠ t := fun e => ht (e ▸ .inr (.inr (.inl hu)))
    exact (Function.update_of_ne hut _ _).trans (h.asleep u hu)
  inserted := h.inserted
  broadcasting := h.broadcasting

/-- The holder of the lock goes on the list of waiters. -/
theorem startWait (ht : s.Holds t) (memory : ℕ → ℤ) : Inv (s.startWait t a memory) := by
  have hnotMem : t ∉ s.waiters := h.notMem (by rw [ht.1]; exact not_waits_running)
  have hmem : ∀ u, u ∈ (s.startWait t a memory).waiters ↔ u = t ∨ u ∈ s.waiters := fun u => by
    rw [Monitor.startWait, (insertWaiter_perm _ _).mem_iff, List.mem_cons]
  have hphase : ∀ u, (s.startWait t a memory).phase u = if u = t then .inserted else s.phase u :=
    fun u => Function.update_apply ..
  have hvalue : ∀ u, (s.startWait t a memory).value u = if u = t then 0 else s.value u :=
    fun u => Function.update_apply ..
  constructor
  · exact (insertWaiter_perm _ _).nodup_iff.mpr (List.nodup_cons.mpr ⟨hnotMem, h.nodup⟩)
  · intro u hu
    rw [hphase]
    split_ifs with e
    · exact .inl rfl
    · exact h.waits u (((hmem u).mp hu).resolve_left e)
  · intro u hu
    rw [hmem, hvalue]
    split_ifs with e
    · simp [e]
    · rw [hphase, if_neg e] at hu
      simp [e, h.value u hu]
  · intro u hu
    rw [hphase] at hu
    split_ifs at hu with e
    rw [hvalue, if_neg e]
    exact h.asleep u hu
  · intro u hu
    rw [hphase] at hu
    split_ifs at hu with e
    · exact e ▸ ht.2
    · exact absurd hu (h.no_inserted ht.free u)
  · intro u start before hu
    rw [hphase] at hu
    split_ifs at hu with e
    exact absurd hu (h.no_broadcast ht.free u start before)

/-- Whoever stands at the front is woken. -/
theorem signalFront : Inv s.signalFront := by
  cases hw : s.waiters with
  | nil => rwa [Monitor.signalFront, hw]
  | cons w ws =>
      have hnodup := h.nodup
      rw [hw, List.nodup_cons] at hnodup
      have hwaits : (s.phase w).Waits := h.waits w (hw ▸ List.mem_cons_self)
      have hzero : s.value w = 0 := (h.value w hwaits).mp (hw ▸ List.mem_cons_self)
      have hphase : ∀ u, s.signalFront.phase u =
          if u = w ∧ s.phase w = .asleep then .woken else s.phase u := fun u => by
        rw [Monitor.signalFront, hw]
        by_cases e : s.phase w = .asleep <;> simp [e, Function.update_apply]
      have hvalue : ∀ u, s.signalFront.value u = if u = w then 1 else s.value u := fun u => by
        rw [Monitor.signalFront, hw]
        simp [Function.update_apply, hzero]
      have hlist : s.signalFront.waiters = ws := by rw [Monitor.signalFront, hw]
      have hholder : s.signalFront.holder = s.holder := by rw [Monitor.signalFront, hw]
      have hwaits' : ∀ u, (s.signalFront.phase u).Waits ↔ (s.phase u).Waits := fun u => by
        rw [hphase]
        split_ifs with e
        · exact iff_of_true (.inr (.inr (.inr rfl))) (e.1 ▸ hwaits)
        · rfl
      constructor
      · rw [hlist]
        exact hnodup.2
      · intro u hu
        rw [hlist] at hu
        exact (hwaits' u).mpr (h.waits u (hw ▸ List.mem_cons_of_mem _ hu))
      · intro u hu
        rw [hlist, hvalue]
        split_ifs with e
        · subst e
          exact iff_of_false hnodup.1 (by simp)
        · rw [← h.value u ((hwaits' u).mp hu), hw, List.mem_cons]
          simp [e]
      · intro u hu
        rw [hphase] at hu
        split_ifs at hu with e
        have huw : u ≠ w := fun e' => e ⟨e', e' ▸ hu⟩
        rw [hvalue, if_neg huw]
        exact h.asleep u hu
      · intro u hu
        rw [hphase] at hu
        split_ifs at hu with e
        rw [hholder]
        exact h.inserted u hu
      · intro u start before hu
        rw [hphase] at hu
        split_ifs at hu with e
        obtain ⟨hu', nodup, done, hstart, hwakes⟩ := h.broadcasting u start before hu
        refine ⟨by rw [hholder, hu'], nodup, done ++ [w], ?_, ?_⟩
        · rw [hlist, hstart, hw, List.append_assoc, List.singleton_append]
        · rw [Monitor.signalFront, hw]
          simp [hwakes]

/-- The thread gives up the lock before it sleeps. -/
theorem waitRelease (ht : s.phase t = .inserted) : Inv ({ s with holder := none }.goTo t .released) := by
  have hholder := h.inserted t ht
  have hreleased : Inv (s.goTo t .released) :=
    h.goTo_waits (.inl ht) (.inr (.inl rfl)) (by simp) (by simp)
  have hphase : ∀ u, (s.goTo t .released).phase u = if u = t then .released else s.phase u := fun u =>
    Function.update_apply ..
  refine hreleased.setHolder (fun u hu => ?_) (fun u start before hu => ?_) none
  · rw [hphase] at hu
    split_ifs at hu with e
    exact e (Option.some.inj ((h.inserted u hu).symm.trans hholder))
  · rw [hphase] at hu
    split_ifs at hu with e
    exact e (Option.some.inj ((h.broadcasting u start before hu).1.symm.trans hholder))

/-- A thread whose semaphore has been raised passes it. -/
theorem passSemaphore (ht : (s.phase t).Waits) (hv : s.value t ≠ 0) (v : ℕ) :
    Inv ({ s with value := Function.update s.value t v }.goTo t .reacquiring) := by
  have hnotMem : t ∉ s.waiters := fun hm => hv ((h.value t ht).mp hm)
  have hother : ¬ CondPhase.reacquiring.Waits := by
    rintro (e | e | e | e) <;> cases e
  have hphase : (s.goTo t .reacquiring).phase t = .reacquiring := Function.update_self ..
  have hgone : Inv (s.goTo t .reacquiring) :=
    h.goTo_other hnotMem hother fun _ _ e => by cases e
  exact hgone.setValue (by rwa [hphase]) v

/-- A thread that takes the lock returns from `cond_wait`. -/
theorem waitAcquire (ht : s.phase t = .reacquiring) (hfree : s.holder = none) :
    Inv ({ s with holder := some t }.goTo t .running) := by
  have hnone : ∀ u, s.holder = some u → s.phase u = .running := fun u hu => by
    rw [hfree] at hu
    cases hu
  have hnotMem : t ∉ s.waiters := h.notMem fun hw => by
    rw [ht] at hw
    rcases hw with e | e | e | e <;> cases e
  have hlocked := h.setHolder (h.no_inserted hnone) (h.no_broadcast hnone) (some t)
  exact hlocked.goTo_other hnotMem not_waits_running fun _ _ e => by cases e

/-- A broadcast begins with the waiters there are. -/
theorem broadcast (ht : s.Holds t) : Inv (s.goTo t (.broadcasting s.waiters s.wakes)) := by
  have hnotMem : t ∉ s.waiters := h.notMem (by rw [ht.1]; exact not_waits_running)
  refine h.goTo_other hnotMem ?_ ?_
  · rintro (e | e | e | e) <;> cases e
  · rintro start before ⟨⟩
    exact ⟨ht.2, h.nodup, [], by simp, by simp⟩

/-- **Every step keeps the invariant.** -/
theorem exec {o : CondOp} (hs : s.exec o = .ok s') : Inv s' := by
  cases o with
  | lockAcquire t =>
      simp only [Monitor.exec] at hs
      split_ifs at hs with hc
      cases hs
      have hfree : ∀ u, s.holder = some u → s.phase u = .running := fun u hu => by
        rw [hc.2] at hu
        cases hu
      exact h.setHolder (h.no_inserted hfree) (h.no_broadcast hfree) _
  | lockRelease t =>
      simp only [Monitor.exec] at hs
      split_ifs at hs with hc
      cases hs
      exact h.setHolder (h.no_inserted hc.free) (h.no_broadcast hc.free) _
  | setPriority t p =>
      simp only [Monitor.exec] at hs
      split_ifs at hs with hc
      cases hs
      exact h.setPriority _
  | wait t a memory =>
      simp only [Monitor.exec] at hs
      split_ifs at hs with hc
      cases hs
      exact h.startWait hc memory
  | waitRelease t =>
      simp only [Monitor.exec] at hs
      split_ifs at hs with hc
      cases hs
      exact h.waitRelease hc
  | waitDown t =>
      simp only [Monitor.exec] at hs
      split_ifs at hs with hc hv
      · cases hs
        exact h.goTo_waits (hc.elim (fun e => .inr (.inl e)) fun e => .inr (.inr (.inr e)))
          (.inr (.inr (.inl rfl))) (by simp) fun _ => hv
      · cases hs
        exact h.passSemaphore (hc.elim (fun e => .inr (.inl e)) fun e => .inr (.inr (.inr e))) hv _
  | waitAcquire t =>
      simp only [Monitor.exec] at hs
      split_ifs at hs with hc
      cases hs
      exact h.waitAcquire hc.1 hc.2
  | signal t =>
      simp only [Monitor.exec] at hs
      split_ifs at hs with hc
      cases hs
      exact h.signalFront
  | broadcast t =>
      simp only [Monitor.exec] at hs
      split_ifs at hs with hc
      cases hs
      exact h.broadcast hc
  | broadcastRound t =>
      simp only [Monitor.exec] at hs
      split at hs
      · split_ifs at hs with hempty
        · cases hs
          exact h.goTo_other (by simp [hempty]) not_waits_running fun _ _ e => by cases e
        · cases hs
          exact h.signalFront
      · cases hs

end Inv

end Steps

/-! ## The order of the waiters -/

/-- The words that `value_less` compares stand in the order of the priorities. -/
def Agrees (s : Monitor) : CondOp → Prop
  | .wait t a memory =>
      ∀ u ∈ s.waiters, valueLess memory a (s.elem u) ↔ s.priority u < s.priority t
  | _ => True

instance (s : Monitor) (o : CondOp) : Decidable (Agrees s o) :=
  match o with
  | .wait t a memory => inferInstanceAs
      (Decidable (∀ u ∈ s.waiters, valueLess memory a (s.elem u) ↔ s.priority u < s.priority t))
  | .lockAcquire _ | .lockRelease _ | .setPriority _ _ | .waitRelease _ | .waitDown _ | .waitAcquire _
  | .signal _ | .broadcast _ | .broadcastRound _ => .isTrue trivial

/-- The waiters stand in the order of their priorities. -/
def Sorted (s : Monitor) : Prop := s.waiters.Pairwise fun a b => s.priority b ≤ s.priority a

theorem orderedInsert_congr {α : Type} {r r' : α → α → Prop} [DecidableRel r] [DecidableRel r'] {x : α}
    {l : List α} (h : ∀ y ∈ l, r x y ↔ r' x y) : l.orderedInsert r x = l.orderedInsert r' x := by
  induction l with
  | nil => rfl
  | cons y l ih =>
      have hy := h y List.mem_cons_self
      rw [List.orderedInsert_cons, List.orderedInsert_cons, ih fun z hz => h z (List.mem_cons_of_mem _ hz)]
      simp only [hy]

section Order

variable {s s' : Monitor} {t : ℕ} {o : CondOp}

/-- Only an insertion puts a thread on the list, and no waiter changes its priority. -/
theorem exec_waiters (h : Inv s) (hs : s.exec o = .ok s') :
    (∃ t a memory, o = .wait t a memory ∧ s.Holds t ∧ s' = s.startWait t a memory) ∨
      s'.waiters.Sublist s.waiters ∧ ∀ u ∈ s.waiters, s'.priority u = s.priority u := by
  have hfront : s.signalFront.waiters.Sublist s.waiters ∧
      ∀ u ∈ s.waiters, s.signalFront.priority u = s.priority u := by
    cases hw : s.waiters with
    | nil => simp [Monitor.signalFront, hw]
    | cons w ws => simp [Monitor.signalFront, hw]
  cases o with
  | wait t a memory =>
      simp only [Monitor.exec] at hs
      split_ifs at hs with hc
      cases hs
      exact .inl ⟨t, a, memory, rfl, hc, rfl⟩
  | setPriority t p =>
      simp only [Monitor.exec] at hs
      split_ifs at hs with hc
      cases hs
      have hnotMem : t ∉ s.waiters := h.notMem (by rw [hc]; exact not_waits_running)
      exact .inr ⟨.refl _, fun u hu =>
        Function.update_of_ne (fun e : u = t => hnotMem (e ▸ hu)) _ _⟩
  | signal t =>
      simp only [Monitor.exec] at hs
      split_ifs at hs
      cases hs
      exact .inr hfront
  | broadcastRound t =>
      simp only [Monitor.exec] at hs
      split at hs
      · split_ifs at hs
        · cases hs
          exact .inr ⟨.refl _, fun _ _ => rfl⟩
        · cases hs
          exact .inr hfront
      · cases hs
  | lockAcquire t | lockRelease t | waitRelease t | waitAcquire t | broadcast t =>
      simp only [Monitor.exec] at hs
      split_ifs at hs
      cases hs
      exact .inr ⟨.refl _, fun _ _ => rfl⟩
  | waitDown t =>
      simp only [Monitor.exec] at hs
      split_ifs at hs <;> cases hs <;> exact .inr ⟨.refl _, fun _ _ => rfl⟩

/-- **A step that meets the condition keeps the order.** -/
theorem Sorted.exec (h : Sorted s) (inv : Inv s) (hagrees : Agrees s o) (hs : s.exec o = .ok s') :
    Sorted s' := by
  rcases exec_waiters inv hs with ⟨t, a, memory, rfl, ht, rfl⟩ | ⟨hsub, hprio⟩
  · have hnotMem : t ∉ s.waiters := inv.notMem (by rw [ht.1]; exact not_waits_running)
    have hinsert : insertWaiter memory (Function.update s.elem t a) t s.waiters
        = enqueue (fun u => - s.priority u) t s.waiters := by
      refine orderedInsert_congr fun u hu => ?_
      have hut : u ≠ t := fun e => hnotMem (e ▸ hu)
      rw [Function.update_self, Function.update_of_ne hut, hagrees u hu, neg_lt_neg_iff]
    show (insertWaiter memory (Function.update s.elem t a) t s.waiters).Pairwise _
    rw [hinsert]
    have hkeys : s.waiters.Pairwise fun a b => - s.priority a ≤ - s.priority b :=
      h.imp fun hab => neg_le_neg hab
    exact (pairwise_enqueue hkeys).imp fun hab => neg_le_neg_iff.mp hab
  · refine List.Pairwise.imp_of_mem (fun {a b} ha hb hab => ?_) (List.Pairwise.sublist hsub h)
    rw [hprio a (hsub.subset ha), hprio b (hsub.subset hb)]
    exact hab

end Order

/-! ## Runs -/

/-- A signal wakes a waiter with the highest priority. -/
def SignalWakesHighest (s : Monitor) : Prop :=
  ∀ t s', s.exec (.signal t) = .ok s' → s.waiters ≠ [] →
    ∃ w ∈ s.waiters, s'.wakes = s.wakes ++ [w] ∧ ∀ v ∈ s.waiters, s.priority v ≤ s.priority w

/-- Where a broadcast ends, it has woken each thread that was waiting when it began, and no other; and
nobody sleeps. -/
def BroadcastWakesEach (s : Monitor) : Prop :=
  ∀ t s' start before, s.phase t = .broadcasting start before →
    s.exec (.broadcastRound t) = .ok s' → s'.phase t = .running →
    s'.wakes = before ++ start ∧ start.Nodup ∧ ∀ u, s'.phase u ≠ .asleep

/-- The threads run in any order, and insertions meet a condition. -/
def CondReaches (guard : Monitor → CondOp → Prop) (priority : ℕ → ℤ) : Monitor → Prop :=
  Reaches (OpStep Monitor.exec guard) (Monitor.initial priority)

section Runs

variable {s : Monitor} {priority : ℕ → ℤ} {guard : Monitor → CondOp → Prop}

theorem CondReaches.inv (h : CondReaches guard priority s) : Inv s :=
  Reaches.induct (fun _ _ hst inv => by
    obtain ⟨o, -, hs⟩ := hst
    exact Inv.exec inv hs) h (inv_initial priority)

theorem CondReaches.sorted (h : CondReaches Agrees priority s) : Sorted s := by
  let Ordered : Monitor → Prop := fun s => Inv s ∧ Sorted s
  have hordered : Ordered s := Reaches.induct (fun _ _ hst hs => by
    obtain ⟨o, hagrees, hexec⟩ := hst
    exact ⟨hs.1.exec hexec, hs.2.exec hs.1 hagrees hexec⟩) h ⟨inv_initial priority, .nil⟩
  exact hordered.2

theorem Sorted.signal (h : Sorted s) : SignalWakesHighest s := by
  intro t s' hs hne
  simp only [Monitor.exec] at hs
  split_ifs at hs
  cases hs
  obtain ⟨w, ws, hw⟩ := List.exists_cons_of_ne_nil hne
  refine ⟨w, by simp [hw], by simp [Monitor.signalFront, hw], fun v hv => ?_⟩
  rw [Sorted, hw, List.pairwise_cons] at h
  rw [hw] at hv
  rcases List.mem_cons.mp hv with rfl | hv
  · exact le_rfl
  · exact h.1 v hv

theorem Inv.broadcast_end (h : Inv s) : BroadcastWakesEach s := by
  intro t s' start before ht hs hrunning
  have hempty : s.waiters = [] := by
    by_contra hne
    obtain ⟨w, ws, hw⟩ := List.exists_cons_of_ne_nil hne
    simp only [Monitor.exec, ht, if_neg hne] at hs
    cases hs
    -- the round that wakes a thread leaves this one where it is
    have hphase : s.signalFront.phase t = s.phase t := by
      rw [Monitor.signalFront, hw]
      by_cases e : s.phase w = .asleep
      · have htw : t ≠ w := fun e' => by rw [← e', ht] at e; cases e
        simp [e, Function.update_of_ne htw]
      · simp [e]
    rw [hphase, ht] at hrunning
    cases hrunning
  simp only [Monitor.exec, ht, if_pos hempty] at hs
  cases hs
  obtain ⟨-, hnodup, done, hstart, hwakes⟩ := h.broadcasting t start before ht
  rw [hempty, List.append_nil] at hstart
  refine ⟨hstart ▸ hwakes, hnodup, fun u hu => ?_⟩
  have hphase : (s.goTo t .running).phase u = if u = t then .running else s.phase u :=
    Function.update_apply ..
  rw [hphase] at hu
  split_ifs at hu with e
  have := (h.value u (.inr (.inr (.inl hu)))).mpr (h.asleep u hu)
  rw [hempty] at this
  cases this

/-- **Waking by priority.**  If every thread that starts to wait finds words on the stacks that are in
the order of the priorities, every signal wakes a thread of the highest priority.  A broadcast wakes
each waiter once in any case. -/
theorem cond_wakes_by_priority (priority : ℕ → ℤ) :
    (∀ s, CondReaches Agrees priority s → SignalWakesHighest s) ∧
      ∀ s, CondReaches (fun _ _ => True) priority s → BroadcastWakesEach s :=
  ⟨fun _ h => h.sorted.signal, fun _ h => h.inv.broadcast_end⟩

end Runs

/-! ## Two threads -/

/-- Thread `t` has the priority `t`. -/
def byNumber : ℕ → ℤ := fun t => t

/-- Thread 1 waits, then thread 2, and thread 3 takes the lock.  Every word on the stacks is 0. -/
def twoWaiters : List CondOp :=
  [.lockAcquire 1, .wait 1 1000 fun _ => 0, .waitRelease 1, .waitDown 1,
    .lockAcquire 2, .wait 2 2000 fun _ => 0, .waitRelease 2, .waitDown 2, .lockAcquire 3]

/-- What they end in. -/
def afterTwoWaiters : Monitor :=
  (replay Monitor.exec (fun _ _ => True) (Monitor.initial byNumber) twoWaiters).getD
    (Monitor.initial byNumber)

/-- **The thread with the lower priority is woken first.** -/
theorem signal_not_highest :
    CondReaches (fun _ _ => True) byNumber afterTwoWaiters ∧ ¬ SignalWakesHighest afterTwoWaiters := by
  refine ⟨replay_reaches twoWaiters rfl, fun h => ?_⟩
  obtain ⟨w, -, hwakes, hhighest⟩ := h 3 afterTwoWaiters.signalFront rfl (by decide)
  have hw : [1] = [] ++ [w] := hwakes
  obtain rfl : 1 = w := by simpa using hw
  exact absurd (hhighest 2 (by decide)) (by decide)

/-- The same steps, with the number of the thread below its waiter. -/
def twoOrderedWaiters : List CondOp :=
  [.lockAcquire 1, .wait 1 1000 fun _ => 1, .waitRelease 1, .waitDown 1,
    .lockAcquire 2, .wait 2 2000 fun a => if a = 1988 then 2 else 1, .waitRelease 2, .waitDown 2,
    .lockAcquire 3]

/-- What they end in. -/
def afterTwoOrderedWaiters : Monitor :=
  (replay Monitor.exec Agrees (Monitor.initial byNumber) twoOrderedWaiters).getD
    (Monitor.initial byNumber)

theorem cond_wakes_by_priority_two : SignalWakesHighest afterTwoOrderedWaiters :=
  (cond_wakes_by_priority byNumber).1 _ (replay_reaches twoOrderedWaiters rfl)

end Pintos.Threads
