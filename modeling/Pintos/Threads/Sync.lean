import Pintos.Threads.Sched

/-!
# What the threads wait for

The semaphores and locks, without the scheduler.  `Sync` keeps of the kernel's state
what each thread has left to do, which threads sleep, and the semaphores and locks;
which thread runs and the ready list are left out.  `Sync.Step` is one step of some
thread that does not sleep, and `Sync.wake` is what the timer interrupt does for one
sleeper: the scheduler is free in its choice of the thread.

`Good` says how the steps of a thread follow each other; every step keeps it.  The
invariants over `Sync` are in the modules that follow.
-/

namespace Pintos.Threads

/-! ## The abstract state -/

/-- The kernel's state without the scheduler. -/
structure Sync where
  frames : ThreadPtr → List Frame
  /-- The thread is `THREAD_BLOCKED`, and is not the idle thread. -/
  asleep : ThreadPtr → Prop
  semas : SemaId → Semaphore
  holder : LockId → Option ThreadPtr
  waitList : List ThreadPtr
  idleThread : Option ThreadPtr
  downs : SemaId → ℕ
  ups : SemaId → ℕ
  woken : SemaId → List ThreadPtr
  inside : LockId → List ThreadPtr

/-- The kernel's state without the scheduler. -/
def sync (s : Sched) : Sync where
  frames := s.frames
  asleep t := s.statusOf t = some .blocked ∧ s.idleThread ≠ some t
  semas := s.semas
  holder := s.holder
  waitList := s.waitList
  idleThread := s.idleThread
  downs := s.history.downs
  ups := s.history.ups
  woken := s.history.woken
  inside := s.history.inside

namespace Sync

section Operations

variable (s : Sync) (u t : ThreadPtr) (x : SemaId) (l : LockId)

/-- Thread `u` has `fs` left to do. -/
def put (fs : List Frame) : Sync := { s with frames := Function.update s.frames u fs }

/-- Thread `u` tests the value of `x`. -/
def test : Sync := { s with woken := Function.update s.woken x ((s.woken x).erase u) }

/-- The value of `x` is taken down. -/
def take : Sync :=
  { s with
    semas := Function.update s.semas x { s.semas x with value := (s.semas x).value - 1 }
    downs := Function.update s.downs x (s.downs x + 1) }

/-- Thread `u` goes to sleep among the waiters `ws` of `x`. -/
def wait (ws : List ThreadPtr) : Sync :=
  { s with
    semas := Function.update s.semas x { s.semas x with waiters := ws }
    asleep := Function.update s.asleep u True }

/-- The value of `x` goes up. -/
def give : Sync :=
  { s with
    semas := Function.update s.semas x { s.semas x with value := ((s.semas x).value + 1) % 2 ^ 32 }
    ups := Function.update s.ups x (s.ups x + 1) }

/-- The first waiter `t` of `x` is woken; the others are `ws`. -/
def rouse (ws : List ThreadPtr) : Sync :=
  { s with
    semas := Function.update s.semas x { s.semas x with waiters := ws }
    asleep := Function.update s.asleep t False
    woken := Function.update s.woken x (t :: s.woken x) }

/-- `sema_up`. -/
def up : Sync :=
  match (s.semas x).waiters with
  | [] => s.give x
  | t :: ws => (s.give x).rouse t x ws

theorem up_of_nil (h : (s.semas x).waiters = []) : s.up x = s.give x := by
  rw [up, h]

theorem up_of_cons {t : ThreadPtr} {ws : List ThreadPtr} (h : (s.semas x).waiters = t :: ws) :
    s.up x = (s.give x).rouse t x ws := by
  rw [up, h]

/-- Thread `u` has the lock. -/
def acquire : Sync :=
  { s with
    holder := Function.update s.holder l (some u)
    inside := Function.update s.inside l (u :: s.inside l) }

/-- Thread `u` gives the lock back. -/
def release : Sync :=
  { s with
    holder := Function.update s.holder l none
    inside := Function.update s.inside l ((s.inside l).erase u) }

/-- A thread `t` is created. -/
def create (idle : Bool) : Sync :=
  { s with
    frames := Function.update s.frames t (firstFrames idle)
    asleep := Function.update s.asleep t True
    semas := Function.update s.semas (.sleep t) ⟨0, []⟩
    downs := Function.update s.downs (.sleep t) 0
    ups := Function.update s.ups (.sleep t) 0
    woken := Function.update s.woken (.sleep t) [] }

/-- The timer interrupt wakes `t`. -/
def wake : Sync := { s with waitList := s.waitList.erase t }.up (.sleep t)

end Operations

/-! ## Steps -/

/-- The steps that only change what the thread has left to do. -/
inductive Moves (u : ThreadPtr) : Frame → List Frame → Prop where
  | kernelThread : Moves u .kernelThread []
  | createFailed {p idle} : Moves u (.threadCreate p idle) []
  | takeTid {t} : Moves u (.takeTid t) []
  | threadYield : Moves u .threadYield []
  | threadExit : Moves u .threadExit []
  | setPriority {p} : Moves u (.setPriority p) [.priorityTest]
  | priorityTest : Moves u .priorityTest []
  | tryDownFailed {x} : Moves u (.semaTryDown x) []
  | lockAcquire {l} : Moves u (.lockAcquire l) [.semaDown (.ofLock l), .setHolder l]
  | tryAcquireFailed {l} : Moves u (.lockTryAcquire l) []
  | computeWakeup {n} : Moves u (.computeWakeup n) [.insertSleeper, .semaDown (.sleep u)]
  | idleBlock : Moves u .idleBlock [.idleBlock]

/-- The steps that take a semaphore down without sleeping. -/
inductive Tries : Frame → SemaId → List Frame → Prop where
  | semaTryDown {x} : Tries (.semaTryDown x) x []
  | lockTryAcquire {l} : Tries (.lockTryAcquire l) (.ofLock l) [.setHolder l]

/-- A round of `sema_down`. -/
def Downs (x : SemaId) (f : Frame) : Prop := f = .semaDown x ∨ f = .semaDownAgain x

/-- The steps of the thread `u` that create a thread or work on a semaphore, a lock or
the list of sleepers. -/
inductive Active (s : Sync) (u : ThreadPtr) : Sync → Prop where
  | create {t p idle rest} : s.frames u = .threadCreate p idle :: rest → s.frames t = [] →
      ¬ s.asleep t → t ≠ u →
      Active s u ((s.create t idle).put u
        ([.lockAcquire .tidLock, .takeTid t, .lockRelease .tidLock, .unblockNew t] ++ rest))
  | tryTake {f x new rest} : s.frames u = f :: rest → Tries f x new → 0 < (s.semas x).value →
      Active s u ((s.take x).put u (new ++ rest))
  | down {f x rest} : s.frames u = f :: rest → Downs x f → 0 < (s.semas x).value →
      Active s u (((s.test u x).take x).put u rest)
  | wait {f x rest ws} : s.frames u = f :: rest → Downs x f → (s.semas x).value = 0 →
      ws.Perm (u :: (s.semas x).waiters) →
      Active s u (((s.test u x).wait u x ws).put u (.semaDownAgain x :: rest))
  | up {x rest} : s.frames u = .semaUp x :: rest → Active s u ((s.put u rest).up x)
  | acquire {l rest} : s.frames u = .setHolder l :: rest →
      Active s u ((s.acquire u l).put u rest)
  | release {l rest} : s.frames u = .lockRelease l :: rest → s.holder l = some u →
      Active s u ((s.release u l).put u (.semaUp (.ofLock l) :: rest))
  | insertSleeper {ws rest} : s.frames u = .insertSleeper :: rest →
      ws.Perm (u :: s.waitList) → Active s u { s.put u rest with waitList := ws }

/-- **One step of the thread `u`.** -/
inductive Step (s : Sync) (u : ThreadPtr) : Sync → Prop where
  | move {f new rest} : s.frames u = f :: rest → Moves u f new → Step s u (s.put u (new ++ rest))
  | call (c : Call) : s.frames u = [] → Step s u (s.put u c.frames)
  | setIdle {rest} : s.frames u = .setIdle :: rest →
      Step s u { s.put u rest with idleThread := some u }
  | block {rest} : s.frames u = .threadBlock :: rest →
      Step s u { s.put u rest with asleep := Function.update s.asleep u True }
  | unblock {t rest} : s.frames u = .threadUnblock t :: rest → s.frames t = [] → s.asleep t →
      Step s u { s.put u rest with asleep := Function.update s.asleep t False }
  | unblockNew {t rest} : s.frames u = .unblockNew t :: rest →
      Step s u { s.put u rest with asleep := Function.update s.asleep t False }
  | active {s'} : Active s u s' → Step s u s'

/-- The waiters of a semaphore are the threads that sleep in its `sema_down`. -/
def WaitOk (s : Sync) : Prop :=
  ∀ x t, t ∈ (s.semas x).waiters ↔ s.asleep t ∧ (s.frames t).head? = some (.semaDownAgain x)

/-! ## Views -/

section Views

variable {s : Sync} {u t : ThreadPtr} {x y : SemaId} {fs ws : List Frame}

@[simp] theorem put_frames_self : (s.put u fs).frames u = fs := Function.update_self ..

theorem put_frames_of_ne (h : t ≠ u) : (s.put u fs).frames t = s.frames t :=
  Function.update_of_ne h _ _

@[simp] theorem put_put : (s.put u ws).put u fs = s.put u fs := by
  unfold put
  simp

@[simp] theorem up_frames : (s.up x).frames = s.frames := by
  unfold up
  split <;> rfl

@[simp] theorem up_holder : (s.up x).holder = s.holder := by
  unfold up
  split <;> rfl

@[simp] theorem up_inside : (s.up x).inside = s.inside := by
  unfold up
  split <;> rfl

@[simp] theorem up_waitList : (s.up x).waitList = s.waitList := by
  unfold up
  split <;> rfl

@[simp] theorem up_idleThread : (s.up x).idleThread = s.idleThread := by
  unfold up
  split <;> rfl

theorem up_value_self : ((s.up x).semas x).value = ((s.semas x).value + 1) % 2 ^ 32 := by
  unfold up
  split <;> simp [give, rouse]

theorem up_semas_of_ne (h : y ≠ x) : (s.up x).semas y = s.semas y := by
  unfold up
  split <;> simp [give, rouse, h]

end Views

end Sync

/-! ## How the steps follow each other -/

/-- The steps that come only right after an earlier part of their own call. -/
def Inner : Frame → Prop
  | .kernelThread | .setHolder _ | .semaDownAgain _ | .semaDown (.sleep _)
  | .semaUp (.ofLock _) | .priorityTest | .insertSleeper => True
  | _ => False

/-- What follows is not in the middle of a call. -/
def Plain (fs : List Frame) : Prop := ∀ f, fs.head? = some f → ¬ Inner f

/-- What follows a `sema_down` of thread `t`. -/
def AfterDown (t : ThreadPtr) (fs : List Frame) : SemaId → Prop
  | .ofLock l => fs.head? = some (.setHolder l)
  | .sleep u => u = t ∧ fs = []
  | _ => Plain fs

/-- What follows a step of thread `t`. -/
def Follows (t : ThreadPtr) : Frame → List Frame → Prop
  | .threadExit, fs | .threadBlock, fs | .idleBlock, fs | .computeWakeup _, fs
  | .threadCreate _ false, fs => fs = []
  | .setIdle, fs => fs = [.semaUp .idleStarted, .idleBlock]
  | .threadCreate _ true, fs => fs = [.semaDown .idleStarted]
  | .insertSleeper, fs => fs = [.semaDown (.sleep t)]
  | .semaDown x, fs | .semaDownAgain x, fs => AfterDown t fs x
  | .semaTryDown x, fs => (∃ i, x = .user i) ∧ Plain fs
  | .semaUp .idleStarted, fs => fs = [.idleBlock]
  | .semaUp (.sleep _), _ => False
  | .unblockNew _, fs => fs = [] ∨ fs = [.semaDown .idleStarted]
  | _, fs => Plain fs

/-- **The steps of thread `t` follow each other as the code has them.** -/
def Good (t : ThreadPtr) : List Frame → Prop
  | [] => True
  | f :: fs => Follows t f fs ∧ Good t fs

namespace Good

variable {t u : ThreadPtr} {f : Frame} {new rest : List Frame} {x : SemaId}

/-- A step is followed by the beginning of a call, unless it goes down on a lock or
falls asleep. -/
theorem plain (h : Good t (f :: rest)) (hf : ∀ l, ¬ Sync.Downs (.ofLock l) f)
    (hs : f ≠ .insertSleeper) : Plain rest := by
  have hf' := h.1
  cases f with
  | semaDown x =>
      cases x with
      | ofLock l => exact absurd (.inl rfl) (hf l)
      | sleep u => simp [hf'.2, Plain]
      | user i => exact hf'
      | idleStarted => exact hf'
  | semaDownAgain x =>
      cases x with
      | ofLock l => exact absurd (.inr rfl) (hf l)
      | sleep u => simp [hf'.2, Plain]
      | user i => exact hf'
      | idleStarted => exact hf'
  | semaUp x =>
      cases x with
      | sleep u => exact hf'.elim
      | idleStarted => simp_all [Follows, Plain, Inner]
      | user i => exact hf'
      | ofLock l => exact hf'
  | threadCreate p idle => cases idle <;> simp_all [Follows, Plain, Inner]
  | unblockNew t => rcases hf' with rfl | rfl <;> simp [Plain, Inner]
  | semaTryDown x => exact hf'.2
  | _ => first | exact hf' | simp_all [Follows, Plain, Inner]

theorem move (h : Good u (f :: rest)) (hm : Sync.Moves u f new) : Good u (new ++ rest) := by
  obtain ⟨h1, h2⟩ := h
  cases hm with
  | setPriority => exact ⟨h1, h2⟩
  | lockAcquire => exact ⟨rfl, h1, h2⟩
  | computeWakeup =>
      cases h1
      exact ⟨rfl, ⟨rfl, rfl⟩, trivial⟩
  | idleBlock => exact ⟨h1, h2⟩
  | _ => exact h2

theorem call (c : Call) : Good u c.frames := by
  cases c with
  | timerSleep n =>
      simp only [Call.frames]
      split
      · exact ⟨rfl, trivial⟩
      · trivial
  | _ => simp [Call.frames, Good, Follows, AfterDown, Plain]

theorem first (idle : Bool) : Good t (firstFrames idle) := by
  cases idle <;> simp [firstFrames, Good, Follows, Plain, Inner]

theorem create {p : ℤ} {idle : Bool} (h : Good u (.threadCreate p idle :: rest)) :
    Good u ([.lockAcquire .tidLock, .takeTid t, .lockRelease .tidLock, .unblockNew t] ++ rest) := by
  have hrest : rest = [] ∨ rest = [.semaDown .idleStarted] := by
    cases idle with
    | true => exact .inr h.1
    | false => exact .inl h.1
  refine ⟨?_, ?_, ?_, hrest, h.2⟩ <;> simp [Follows, Plain, Inner]

theorem tries (h : Good u (f :: rest)) (ht : Sync.Tries f x new) : Good u (new ++ rest) := by
  cases ht with
  | semaTryDown => exact h.2
  | lockTryAcquire => exact h

end Good

namespace Sync

variable {s s' : Sync} {u t : ThreadPtr} {x : SemaId} {l : LockId}

/-- Every thread's steps follow each other as the code has them. -/
def Shape (s : Sync) : Prop := ∀ t, Good t (s.frames t)

theorem Shape.put (h : Shape s) {fs : List Frame} (hfs : Good u fs) : Shape (s.put u fs) := by
  intro t
  by_cases e : t = u
  · rw [e, put_frames_self]
    exact hfs
  · rw [put_frames_of_ne e]
    exact h t

theorem Shape.cons (h : Shape s) {f : Frame} {rest : List Frame} (hf : s.frames u = f :: rest) :
    Good u (f :: rest) := hf ▸ h u

theorem Shape.step (h : Shape s) (hs : Step s u s') : Shape s' := by
  cases hs with
  | move hf hm => exact h.put ((h.cons hf).move hm)
  | call c hf => exact h.put (Good.call c)
  | setIdle hf => exact h.put (h.cons hf).2
  | block hf => exact h.put (h.cons hf).2
  | unblock hf => exact h.put (h.cons hf).2
  | unblockNew hf => exact h.put (h.cons hf).2
  | active ha =>
      cases ha with
      | @create t p idle rest hf ht _ hne =>
          have hnew : Shape (s.create t idle) := Shape.put (s := s) h (Good.first idle)
          exact hnew.put (h.cons hf).create
      | tryTake hf ht => exact Shape.put (s := s.take _) h ((h.cons hf).tries ht)
      | down hf => exact Shape.put (s := (s.test u _).take _) h (h.cons hf).2
      | wait hf hd =>
          refine Shape.put (s := (s.test u _).wait u _ _) h ⟨?_, (h.cons hf).2⟩
          rcases hd with rfl | rfl
          · exact (h.cons hf).1
          · exact (h.cons hf).1
      | up hf =>
          unfold Shape
          rw [up_frames]
          exact h.put (h.cons hf).2
      | acquire hf => exact Shape.put (s := s.acquire u _) h (h.cons hf).2
      | release hf => exact Shape.put (s := s.release u _) h ⟨(h.cons hf).1, (h.cons hf).2⟩
      | insertSleeper hf => exact h.put (h.cons hf).2

theorem Shape.wake (h : Shape s) : Shape (s.wake t) := by
  unfold Shape Sync.wake
  rw [up_frames]
  exact h

end Sync

end Pintos.Threads
