import Pintos.Lib.Queue

/-!
# Threads and the scheduler of `Project1`

`Project1/thread.c`.  A thread is named by the page its `struct thread` is in.  Lists
of the kernel are lists of threads, with the sentinels left out; where the code takes
an element without knowing that there is one, `listBegin` gives the sentinel back.

A function that runs with interrupts off, up to the point where it turns them on or
switches to another thread, is one step.  What a thread has left to do of the calls it
is in is its list of `Frame`s: a thread that is switched out in the middle of a call
goes on there when it is scheduled again.

Three steps run with interrupts on in the source and are one step here all the same:
`insertSleeper`, `priorityTest` and `threadCreate`.  `ticks` and `wakeupTime` are `int64_t`
there and have no bound here.  `Undisturbed` (of `Machine`) is the condition under which
neither makes a difference.

`History` is not part of the kernel: it records what has happened, for the statements
about runs.
-/

namespace Pintos.Threads

open Lib

/-! ## State -/

/-- A `struct thread`, by its page. -/
abbrev ThreadPtr : Type := ℕ

/-- `enum thread_status`. -/
inductive Status where
  | running
  | ready
  | blocked
  | dying
deriving DecidableEq, Repr

/-- The locks: `tid_lock` and those of the threads' own code. -/
inductive LockId where
  | tidLock
  | user (i : ℕ)
deriving DecidableEq, Repr

/-- The semaphores: those of the threads' own code, the one inside a lock, `sema_sleep`
of a thread, and `idle_started` of `thread_start`. -/
inductive SemaId where
  | user (i : ℕ)
  | ofLock (l : LockId)
  | sleep (t : ThreadPtr)
  | idleStarted
deriving DecidableEq, Repr

/-- What is left of a call, one step each. -/
inductive Frame where
  /-- `kernel_thread`, before it calls the thread's function. -/
  | kernelThread
  /-- `idle_thread = thread_current ()`. -/
  | setIdle
  /-- The loop of `idle`. -/
  | idleBlock
  /-- `thread_create` up to `init_thread`; the flag says whether it creates the idle thread. -/
  | threadCreate (priority : ℤ) (idle : Bool)
  /-- `tid = next_tid++` of `allocate_tid`. -/
  | takeTid (t : ThreadPtr)
  /-- The `thread_unblock` of `thread_create`. -/
  | unblockNew (t : ThreadPtr)
  | threadBlock
  | threadUnblock (t : ThreadPtr)
  | threadYield
  | threadExit
  /-- The first half of `thread_set_priority`. -/
  | setPriority (newPriority : ℤ)
  /-- The test at the end of `thread_set_priority`. -/
  | priorityTest
  | semaDown (x : SemaId)
  /-- The loop of `sema_down` after `thread_block`. -/
  | semaDownAgain (x : SemaId)
  | semaTryDown (x : SemaId)
  | semaUp (x : SemaId)
  | lockAcquire (l : LockId)
  /-- `lock->holder = thread_current ()`. -/
  | setHolder (l : LockId)
  | lockTryAcquire (l : LockId)
  | lockRelease (l : LockId)
  /-- `timer_sleep` up to the store of `wakeupTime`. -/
  | computeWakeup (ticks : ℤ)
  /-- `timer_sleep`: the insertion in `wait_list`. -/
  | insertSleeper
deriving DecidableEq, Repr

/-- `struct thread`, with what is left of its calls. -/
structure Thread where
  tid : ℕ
  status : Status
  priority : ℤ
  wakeupTime : ℤ
  frames : List Frame
deriving DecidableEq, Repr

/-- `struct semaphore`. -/
structure Semaphore where
  value : ℕ
  waiters : List ThreadPtr
deriving DecidableEq, Repr

/-- What has happened so far. -/
structure History where
  /-- The number of insertions into ordered lists. -/
  clock : ℕ
  /-- When each thread was last inserted into the ready list or a list of waiters. -/
  arrival : ThreadPtr → ℕ
  /-- Completed downs and ups of each semaphore. -/
  downs : SemaId → ℕ
  ups : SemaId → ℕ
  /-- The threads woken from each semaphore that have not tested its value again. -/
  woken : SemaId → List ThreadPtr
  /-- The threads that have returned from acquiring each lock and not called for its
  release since. -/
  inside : LockId → List ThreadPtr
  /-- For each `list_entry`, latest first: was it applied to the element of a thread? -/
  converted : List Bool

/-- The state of the kernel. -/
structure Sched where
  threads : ThreadPtr → Option Thread
  running : ThreadPtr
  readyList : List ThreadPtr
  idleThread : Option ThreadPtr
  initialThread : ThreadPtr
  semas : SemaId → Semaphore
  holder : LockId → Option ThreadPtr
  waitList : List ThreadPtr
  ticks : ℤ
  threadTicks : ℕ
  nextTid : ℕ
  history : History

/-- Why the kernel panics: a failed assertion. -/
inductive Site where
  /-- `ASSERT (is_thread (t))`. -/
  | notThread
  /-- `ASSERT (t->status == THREAD_RUNNING)` of `thread_current`. -/
  | notRunning
  /-- `ASSERT (t->status == THREAD_BLOCKED)` of `thread_unblock`. -/
  | notBlocked
  /-- `ASSERT (!intr_context ())` of `thread_yield`. -/
  | yieldInInterrupt
  /-- `ASSERT (cur->status != THREAD_RUNNING)` of `schedule`. -/
  | stillRunning
  /-- A priority outside `PRI_MIN` to `PRI_MAX`. -/
  | priorityRange
  /-- `lock_acquire` of a lock that the thread holds. -/
  | lockHeld
  /-- `lock_release` of a lock that the thread does not hold. -/
  | lockNotHeld
deriving DecidableEq, Repr

/-- A panic, with the conversions made up to it. -/
structure Panic where
  site : Site
  converted : List Bool

/-- `PRI_MIN`. -/
def priMin : ℤ := 0

/-- `PRI_DEFAULT`. -/
def priDefault : ℤ := 31

/-- `PRI_MAX`. -/
def priMax : ℤ := 63

/-- `TIME_SLICE`. -/
def timeSlice : ℕ := 4

namespace Sched

variable (s : Sched)

/-- The kernel panics. -/
def panic {α : Type} (site : Site) : Except Panic α := .error ⟨site, s.history.converted⟩

/-- The status of a thread. -/
def statusOf (t : ThreadPtr) : Option Status := (s.threads t).map (·.status)

/-- The priority of a thread. -/
def prio (t : ThreadPtr) : ℤ :=
  match s.threads t with
  | some th => th.priority
  | none => 0

/-- The wake-up time of a thread. -/
def wakeup (t : ThreadPtr) : ℤ :=
  match s.threads t with
  | some th => th.wakeupTime
  | none => 0

/-- What a thread has left to do. -/
def frames (t : ThreadPtr) : List Frame :=
  match s.threads t with
  | some th => th.frames
  | none => []

/-- `value_less` of `thread.c` and `synch.c`: the greater priority comes first. -/
def key (t : ThreadPtr) : ℤ := -s.prio t

/-! ## Updates -/

/-- Change a thread. -/
def modify (t : ThreadPtr) (f : Thread → Thread) : Sched :=
  { s with threads := Function.update s.threads t ((s.threads t).map f) }

/-- Set the status of a thread. -/
def setStatus (t : ThreadPtr) (status : Status) : Sched := s.modify t fun th => { th with status }

/-- Set what a thread has left to do. -/
def setFrames (t : ThreadPtr) (frames : List Frame) : Sched :=
  s.modify t fun th => { th with frames }

/-- The running thread has more to do first. -/
def push (frames : List Frame) : Sched :=
  s.modify s.running fun th => { th with frames := frames ++ th.frames }

/-! ## Lists -/

/-- A list element: of a thread, or the tail sentinel. -/
inductive Elem where
  | node (t : ThreadPtr)
  | tail

/-- `list_begin`. -/
def listBegin : List ThreadPtr → Elem
  | [] => .tail
  | t :: _ => .node t

/-- The element belongs to a thread. -/
def interior : Elem → Bool
  | .node t => (s.threads t).isSome
  | .tail => false

/-- `list_entry` of the given elements. -/
def listEntry (elems : List Elem) : Sched :=
  { s with history := { s.history with converted := elems.map s.interior ++ s.history.converted } }

/-- The elements that `value_less` is called on while `x` is inserted: `x` and each
element looked at. -/
def compared (key : ThreadPtr → ℤ) (x : ThreadPtr) (l : List ThreadPtr) : List Elem :=
  (lookedAt key x l).flatMap fun y => [.node x, .node y]

/-- Note an arrival in the ready list or a list of waiters. -/
def arrive (t : ThreadPtr) : Sched :=
  { s with history := { s.history with
      clock := s.history.clock + 1
      arrival := Function.update s.history.arrival t s.history.clock } }

/-- `list_insert_ordered (&ready_list, &t->elem, value_less, NULL)`. -/
def insertReady (t : ThreadPtr) : Sched :=
  { (s.listEntry (compared s.key t s.readyList)).arrive t with
    readyList := enqueue s.key t s.readyList }

/-- `list_insert_ordered (&sema->waiters, &t->elem, value_less, NULL)`. -/
def insertWaiter (x : SemaId) (t : ThreadPtr) : Sched :=
  { (s.listEntry (compared s.key t (s.semas x).waiters)).arrive t with
    semas := Function.update s.semas x
      { s.semas x with waiters := enqueue s.key t (s.semas x).waiters } }

/-- `list_insert_ordered (&wait_list, &t->waiting_elem, value_less, NULL)`, with the
`value_less` of `timer.c`: the smaller wake-up time comes first. -/
def insertWait (t : ThreadPtr) : Sched :=
  { (s.listEntry (compared s.wakeup t s.waitList)) with waitList := enqueue s.wakeup t s.waitList }

end Sched

/-! ## The scheduler -/

open Sched

/-- `thread_current`. -/
def threadCurrent (s : Sched) : Except Panic Thread :=
  match s.threads s.running with
  | some th => if th.status = .running then .ok th else s.panic .notRunning
  | none => s.panic .notThread

/-- `next_thread_to_run`; `none` is a null `idle_thread`. -/
def nextThreadToRun (s : Sched) : Option ThreadPtr × Sched :=
  match s.readyList with
  | [] => (s.idleThread, s)
  | t :: rest => (some t, { s.listEntry [.node t] with readyList := rest })

/-- `switch_threads` and `thread_schedule_tail`: `next` runs, and the page of a thread that
is dying is freed, unless it is the initial thread's. -/
def switchThreads (s : Sched) (next : ThreadPtr) : Sched :=
  let cur := s.running
  let s' : Sched := { s.setStatus next .running with running := next, threadTicks := 0 }
  if cur ≠ next ∧ s.statusOf cur = some .dying ∧ cur ≠ s.initialThread then
    { s' with threads := Function.update s'.threads cur none }
  else s'

/-- `schedule`. -/
def schedule (s : Sched) : Except Panic Sched :=
  let (next, s) := nextThreadToRun s
  if s.statusOf s.running = some .running then s.panic .stillRunning
  else match next with
    | some next => if (s.threads next).isSome then .ok (switchThreads s next) else s.panic .notThread
    | none => s.panic .notThread

/-- `thread_yield`; `intr` is `intr_context ()`. -/
def threadYield (intr : Bool) (s : Sched) : Except Panic Sched := do
  let _ ← threadCurrent s
  if intr then s.panic .yieldInInterrupt
  else
    let s := if s.idleThread ≠ some s.running then s.insertReady s.running else s
    schedule (s.setStatus s.running .ready)

/-- `thread_block`. -/
def threadBlock (s : Sched) : Except Panic Sched := do
  let _ ← threadCurrent s
  schedule (s.setStatus s.running .blocked)

/-- `thread_exit`. -/
def threadExit (s : Sched) : Except Panic Sched := do
  let _ ← threadCurrent s
  schedule (s.setStatus s.running .dying)

/-- The end of `thread_unblock`: yield to the head of the ready list if its priority is
higher. -/
def preempt (intr : Bool) (s : Sched) : Except Panic Sched :=
  match s.readyList with
  | [] => .ok s
  | head :: _ => do
      let s := s.listEntry [listBegin s.readyList]
      let cur ← threadCurrent s
      if cur.priority < s.prio head ∧ s.idleThread ≠ some s.running then threadYield intr s
      else .ok s

/-- `thread_unblock`. -/
def threadUnblock (intr : Bool) (s : Sched) (t : ThreadPtr) : Except Panic Sched :=
  match s.threads t with
  | none => s.panic .notThread
  | some th =>
      if th.status ≠ .blocked then s.panic .notBlocked
      else preempt intr ((s.insertReady t).setStatus t .ready)

/-! ## Semaphores -/

/-- `sema->value--`, which completes a down. -/
def takeOne (s : Sched) (x : SemaId) : Sched :=
  { s with
    semas := Function.update s.semas x { s.semas x with value := (s.semas x).value - 1 }
    history := { s.history with
      downs := Function.update s.history.downs x (s.history.downs x + 1) } }

/-- `sema->value++`. -/
def giveOne (s : Sched) (x : SemaId) : Sched :=
  { s with
    semas := Function.update s.semas x
      { s.semas x with value := ((s.semas x).value + 1) % 2 ^ 32 }
    history := { s.history with
      ups := Function.update s.history.ups x (s.history.ups x + 1) } }

/-- The running thread is about to test the value of `x`. -/
def testing (s : Sched) (x : SemaId) : Sched :=
  { s with history := { s.history with
      woken := Function.update s.history.woken x ((s.history.woken x).erase s.running) } }

/-- One round of the loop of `sema_down`. -/
def semaDown (s : Sched) (x : SemaId) : Except Panic Sched :=
  let s := testing s x
  if (s.semas x).value = 0 then
    threadBlock ((s.insertWaiter x s.running).push [.semaDownAgain x])
  else .ok (takeOne s x)

/-- `sema_try_down`. -/
def semaTryDown (s : Sched) (x : SemaId) : Bool × Sched :=
  if 0 < (s.semas x).value then (true, takeOne s x) else (false, s)

/-- The first waiter leaves the list. -/
def popWaiter (s : Sched) (x : SemaId) (t : ThreadPtr) (rest : List ThreadPtr) : Sched :=
  { s.listEntry [.node t] with
    semas := Function.update s.semas x { s.semas x with waiters := rest }
    history := { (s.listEntry [.node t]).history with
      woken := Function.update s.history.woken x (t :: s.history.woken x) } }

/-- `sema_up`. -/
def semaUp (intr : Bool) (s : Sched) (x : SemaId) : Except Panic Sched :=
  let s := giveOne s x
  match (s.semas x).waiters with
  | [] => .ok s
  | t :: rest => threadUnblock intr (popWaiter s x t rest) t

/-! ## Locks -/

/-- `lock->holder = thread_current ()`, on which `lock_acquire` returns. -/
def acquired (s : Sched) (l : LockId) : Sched :=
  { s with
    holder := Function.update s.holder l (some s.running)
    history := { s.history with
      inside := Function.update s.history.inside l (s.running :: s.history.inside l) } }

/-- `lock->holder = NULL` of `lock_release`. -/
def released (s : Sched) (l : LockId) : Sched :=
  { s with
    holder := Function.update s.holder l none
    history := { s.history with
      inside := Function.update s.history.inside l ((s.history.inside l).erase s.running) } }

/-! ## The timer -/

/-- The loop of `timer_interrupt`, over what is left of `wait_list`. -/
def wakeLoop : List ThreadPtr → Sched → Except Panic Sched
  | [], s => .ok s
  | t :: rest, s =>
      let s := s.listEntry [.node t]
      if s.wakeup t ≤ s.ticks then do
        let s ← semaUp true { s with waitList := s.waitList.erase t } (.sleep t)
        wakeLoop rest s
      else .ok s

/-- `timer_interrupt`, with `thread_tick`. -/
def timerInterrupt (s : Sched) : Except Panic Sched := do
  let _ ← threadCurrent s
  let s : Sched := { s with ticks := s.ticks + 1, threadTicks := s.threadTicks + 1 }
  wakeLoop s.waitList s

/-- A timer tick: the handler, and the yield on return when the time slice is over. -/
def tick (s : Sched) : Except Panic Sched := do
  let s ← timerInterrupt s
  if timeSlice ≤ s.threadTicks then threadYield false s else .ok s

/-! ## Steps -/

/-- What a new thread has to do. -/
def firstFrames (idle : Bool) : List Frame :=
  if idle then [.kernelThread, .setIdle, .semaUp .idleStarted, .idleBlock] else [.kernelThread]

/-- `init_thread`. -/
def initThread (s : Sched) (t : ThreadPtr) (priority : ℤ) (idle : Bool) : Sched :=
  { s with
    threads := Function.update s.threads t (some ⟨0, .blocked, priority, 0, firstFrames idle⟩)
    semas := Function.update s.semas (.sleep t) ⟨0, []⟩
    history := { s.history with
      downs := Function.update s.history.downs (.sleep t) 0
      ups := Function.update s.history.ups (.sleep t) 0
      woken := Function.update s.history.woken (.sleep t) [] } }

/-- `thread_create`; `page` is what `palloc_get_page` returns. -/
def threadCreate (page : Option ThreadPtr) (s : Sched) (priority : ℤ) (idle : Bool) :
    Except Panic Sched :=
  match page with
  | none => .ok s
  | some t =>
      if priMin ≤ priority ∧ priority ≤ priMax then
        .ok ((initThread s t priority idle).push
          [.lockAcquire .tidLock, .takeTid t, .lockRelease .tidLock, .unblockNew t])
      else s.panic .priorityRange

/-- The test at the end of `thread_set_priority`; `junk` is what stands before the tail of
an empty ready list where a thread has its priority. -/
def priorityTest (junk : ℤ) (s : Sched) : Except Panic Sched := do
  let e := listBegin s.readyList
  let s := s.listEntry [e]
  let head := match e with
    | .node t => s.prio t
    | .tail => junk
  let cur ← threadCurrent s
  if cur.priority < head then threadYield false s else .ok s

/-- One step of the running thread, whose next frame is `f`. -/
def runFrame (page : Option ThreadPtr) (junk : ℤ) (s : Sched) : Frame → Except Panic Sched
  | .kernelThread => .ok s
  | .setIdle => .ok { s with idleThread := some s.running }
  | .idleBlock => threadBlock (s.push [.idleBlock])
  | .threadCreate priority idle => threadCreate page s priority idle
  | .takeTid t => .ok { s.modify t fun th => { th with tid := s.nextTid } with
      nextTid := s.nextTid + 1 }
  | .unblockNew t => threadUnblock false s t
  | .threadBlock => threadBlock s
  | .threadUnblock t => threadUnblock false s t
  | .threadYield => threadYield false s
  | .threadExit => threadExit s
  | .setPriority newPriority =>
      if priMin ≤ newPriority ∧ newPriority ≤ priMax then
        .ok ((s.modify s.running fun th => { th with priority := newPriority }).push [.priorityTest])
      else s.panic .priorityRange
  | .priorityTest => priorityTest junk s
  | .semaDown x => semaDown s x
  | .semaDownAgain x => semaDown s x
  | .semaTryDown x => .ok (semaTryDown s x).2
  | .semaUp x => semaUp false s x
  | .lockAcquire l =>
      if s.holder l = some s.running then s.panic .lockHeld
      else .ok (s.push [.semaDown (.ofLock l), .setHolder l])
  | .setHolder l => .ok (acquired s l)
  | .lockTryAcquire l =>
      if s.holder l = some s.running then s.panic .lockHeld
      else
        let (success, s) := semaTryDown s (.ofLock l)
        .ok (if success then s.push [.setHolder l] else s)
  | .lockRelease l =>
      if s.holder l = some s.running then
        .ok ((released s l).push [.semaUp (.ofLock l)])
      else s.panic .lockNotHeld
  | .computeWakeup n =>
      .ok ((s.modify s.running fun th => { th with wakeupTime := s.ticks + n }).push
        [.insertSleeper, .semaDown (.sleep s.running)])
  | .insertSleeper => .ok (s.insertWait s.running)

/-- The calls of a thread's own code. -/
inductive Call where
  | threadCreate (priority : ℤ)
  | threadBlock
  | threadUnblock (t : ThreadPtr)
  | threadYield
  | threadSetPriority (newPriority : ℤ)
  | threadExit
  | semaDown (i : ℕ)
  | semaTryDown (i : ℕ)
  | semaUp (i : ℕ)
  | lockAcquire (i : ℕ)
  | lockTryAcquire (i : ℕ)
  | lockRelease (i : ℕ)
  | timerSleep (ticks : ℤ)

/-- The steps of a call. -/
def Call.frames : Call → List Frame
  | .threadCreate priority => [.threadCreate priority false]
  | .threadBlock => [.threadBlock]
  | .threadUnblock t => [.threadUnblock t]
  | .threadYield => [.threadYield]
  | .threadSetPriority newPriority => [.setPriority newPriority]
  | .threadExit => [.threadExit]
  | .semaDown i => [.semaDown (.user i)]
  | .semaTryDown i => [.semaTryDown (.user i)]
  | .semaUp i => [.semaUp (.user i)]
  | .lockAcquire i => [.lockAcquire (.user i)]
  | .lockTryAcquire i => [.lockTryAcquire (.user i)]
  | .lockRelease i => [.lockRelease (.user i)]
  | .timerSleep ticks => if 0 < ticks then [.computeWakeup ticks] else []

/-- What happens next. -/
inductive Event where
  /-- The running thread makes a call. -/
  | call (c : Call)
  /-- The running thread takes the next step of its call. -/
  | run (page : Option ThreadPtr) (junk : ℤ)
  /-- A timer tick. -/
  | tick

/-- One step of the kernel. -/
def step (s : Sched) : Event → Except Panic Sched
  | .call c => .ok (s.push c.frames)
  | .run page junk =>
      match s.frames s.running with
      | [] => .ok s
      | f :: rest => runFrame page junk (s.setFrames s.running rest) f
  | .tick => tick s

/-- The thread that the next step unblocks with a direct call of `thread_unblock`. -/
def unblocks : List Frame → Option ThreadPtr
  | .threadUnblock t :: _ => some t
  | _ => none

/-- The events that can happen.  A thread makes a call when the one before has returned,
and `palloc_get_page` returns a page that is not in use.  A direct call of
`thread_unblock` is for a thread that has blocked itself with `thread_block`, not for one
that waits for a semaphore or has not been started: those are left to `sema_up` and
`thread_create`. -/
def Allowed (s : Sched) : Event → Prop
  | .call _ => s.frames s.running = []
  | .run page _ => (∀ t ∈ page, s.threads t = none) ∧
      ∀ t ∈ unblocks (s.frames s.running), s.statusOf t = some .blocked → s.frames t = []
  | .tick => True

instance (s : Sched) : (e : Event) → Decidable (Allowed s e)
  | .call _ => inferInstanceAs (Decidable (s.frames s.running = []))
  | .run page _ => inferInstanceAs (Decidable ((∀ t ∈ page, s.threads t = none) ∧
      ∀ t ∈ unblocks (s.frames s.running), s.statusOf t = some .blocked → s.frames t = []))
  | .tick => inferInstanceAs (Decidable True)

/-- The states that can be reached. -/
inductive Reach (s₀ : Sched) : Sched → Prop where
  | start : Reach s₀ s₀
  | step {s s' : Sched} {e : Event} : Reach s₀ s → Allowed s e → step s e = .ok s' → Reach s₀ s'

/-- A run through the given events. -/
def run (s : Sched) : List Event → Option Sched
  | [] => some s
  | e :: es =>
      if Allowed s e then
        match step s e with
        | .ok s' => run s' es
        | .error _ => none
      else none

theorem Reach.run {s₀ s s' : Sched} (h : Reach s₀ s) {es : List Event} (hs : run s es = some s') :
    Reach s₀ s' := by
  induction es generalizing s with
  | nil =>
      cases hs
      exact h
  | cons e es ih =>
      unfold Threads.run at hs
      split at hs
      · next ha =>
          split at hs
          · next r hr => exact ih (h.step ha hr) hs
          · cases hs
      · cases hs

/-- The entry of `thread_start`, in the initial thread `main`; the semaphores of the
threads' own code start with the values `value`. -/
def start (main : ThreadPtr) (value : ℕ → ℕ) : Sched where
  -- `thread_start` creates the idle thread and waits until it has run
  threads := Function.update (fun _ => none) main
    (some ⟨1, .running, priDefault, 0, [.threadCreate priMin true, .semaDown .idleStarted]⟩)
  running := main
  readyList := []
  idleThread := none
  initialThread := main
  semas x := match x with
    | .user i => ⟨value i, []⟩
    | .ofLock _ => ⟨1, []⟩
    | .sleep _ => ⟨0, []⟩
    | .idleStarted => ⟨0, []⟩
  holder _ := none
  waitList := []
  ticks := 0
  threadTicks := 0
  nextTid := 2
  history := ⟨0, fun _ => 0, fun _ => 0, fun _ => 0, fun _ => [], fun _ => [], []⟩

end Pintos.Threads
