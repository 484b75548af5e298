import Pintos.Lib.Runs
import Pintos.Threads.Runs

/-!
# Ticks in the middle of a step

Three steps of `Sched` are more than one access to shared data and run with interrupts on: the
insertion in `wait_list`, where `list_insert_ordered` walks along the list and `list_insert` makes four
stores; the test at the end of `thread_set_priority`, which reads the head of the ready list and then
its priority; and the beginning of `thread_create`, where `init_thread` makes four stores to put the
thread in `all_list`.  A tick may fall into the middle of them; a list is then half linked, or the head
is gone when its priority is read.

`Machine` is the kernel together with whether its running thread is in the middle of such a step.  A
tick that falls there may leave anything behind (`Machine.Step`): what it does is decided by links and
by memory that has been given back, of which `Sched` knows nothing.  `Undisturbed` is the condition on
a step that keeps a run away from this, and from sums that an `int64_t` does not hold.

* **`reach_of_undisturbed`** — in a run of undisturbed steps the kernel is in a state of `Reach`.
-/

namespace Pintos.Threads

open Lib

/-- The step is more than one access to shared data, with interrupts on. -/
def Frame.divisible : Frame → Bool
  | .insertSleeper => true
  | .priorityTest => true
  | .threadCreate _ _ => true
  | _ => false

/-- The next step of the running thread is divisible. -/
def Sched.divisible (s : Sched) : Bool := (s.frames s.running).head?.any Frame.divisible

/-- The wake-up time that the next step of the running thread computes. -/
def Sched.nextWakeup (s : Sched) : Option ℤ :=
  match s.frames s.running with
  | .computeWakeup n :: _ => some (s.ticks + n)
  | _ => none

/-- The kernel; `inside` says that the running thread has begun its next step, a divisible one. -/
structure Machine where
  sched : Sched
  inside : Bool

/-- What happens next. -/
inductive MachineEvent where
  /-- The running thread begins a divisible step. -/
  | enter
  | event (e : Event)

namespace Machine

/-- The moves that can happen.  A thread finishes the step it has begun before it does anything
else, and does not finish a divisible step that it has not begun. -/
def Can (m : Machine) : MachineEvent → Prop
  | .enter => m.inside = false ∧ m.sched.divisible = true
  | .event (.call c) => m.inside = false ∧ Allowed m.sched (.call c)
  | .event (.run page junk) => m.inside = m.sched.divisible ∧ Allowed m.sched (.run page junk)
  | .event .tick => m.inside = false

instance (m : Machine) : (move : MachineEvent) → Decidable (m.Can move)
  | .enter => inferInstanceAs (Decidable (_ ∧ _))
  | .event (.call _) => inferInstanceAs (Decidable (_ ∧ _))
  | .event (.run _ _) => inferInstanceAs (Decidable (_ ∧ _))
  | .event .tick => inferInstanceAs (Decidable (_ = _))

/-- What a move does. -/
def exec (m : Machine) : MachineEvent → Except Panic Machine
  | .enter => .ok { m with inside := true }
  | .event e => (step m.sched e).map fun s => ⟨s, false⟩

/-- What the handler of a tick may come to: anything in the middle of a divisible step. -/
def Handles (m : Machine) (r : Except Panic Sched) : Prop :=
  m.inside = true ∨ r = timerInterrupt m.sched

/-- One step.  After a tick in the middle of a divisible step the machine may be in any state. -/
def Step (m : Machine) (move : MachineEvent) (m' : Machine) : Prop :=
  m.Can move ∧ m.exec move = .ok m' ∨ m.inside = true ∧ move = .event .tick

end Machine

/-- `INT64_MAX`. -/
def maxTicks : ℤ := 2 ^ 63 - 1

/-- No tick falls into the middle of a divisible step, and `ticks` and the wake-up times fit in an
`int64_t`. -/
def Undisturbed (m : Machine) : MachineEvent → Prop
  | .enter => True
  | .event (.call _) => True
  | .event (.run _ _) => ∀ stop ∈ m.sched.nextWakeup, stop ≤ maxTicks
  | .event .tick => m.inside = false ∧ m.sched.ticks + 1 ≤ maxTicks

instance (m : Machine) : (move : MachineEvent) → Decidable (Undisturbed m move)
  | .enter => inferInstanceAs (Decidable True)
  | .event (.call _) => inferInstanceAs (Decidable True)
  | .event (.run _ _) => inferInstanceAs (Decidable (∀ stop ∈ m.sched.nextWakeup, stop ≤ maxTicks))
  | .event .tick => inferInstanceAs (Decidable (_ ∧ _))

/-- The machine at the entry of `thread_start`. -/
def startMachine (main : ThreadPtr) (value : ℕ → ℕ) : Machine := ⟨start main value, false⟩

section Runs

variable {P : Machine → MachineEvent → Prop} {m m' m₀ : Machine} {s₀ : Sched}

/-- The machines reached from `m₀` by steps that meet the condition `P`. -/
def ReachUnder (P : Machine → MachineEvent → Prop) (m₀ m : Machine) : Prop :=
  Reaches (fun m m' => ∃ move, P m move ∧ m.Step move m') m₀ m

/-- Moves that can be made, each under the condition, lead to a machine that is reached. -/
theorem reachUnder_of_replay [∀ m move, Decidable (P m move)] {moves : List MachineEvent}
    (h : replay Machine.exec (fun m move => P m move ∧ m.Can move) m₀ moves = some m) :
      ReachUnder P m₀ m := by
  refine Relation.ReflTransGen.mono ?_ _ _ (replay_reaches moves h)
  rintro a b ⟨move, ⟨hcond, hcan⟩, hexec⟩
  exact ⟨move, hcond, .inl ⟨hcan, hexec⟩⟩

/-- An undisturbed step is one of the kernel, or none. -/
theorem Machine.Step.reach {move : MachineEvent} (h : m.Step move m') (hstep : Undisturbed m move)
    (hreach : Reach s₀ m.sched) : Reach s₀ m'.sched := by
  rcases h with ⟨hcan, hexec⟩ | ⟨hinside, rfl⟩
  · cases move with
    | enter =>
        cases hexec
        exact hreach
    | event e =>
        have hallowed : Allowed m.sched e := by
          cases e with
          | call c => exact hcan.2
          | run page junk => exact hcan.2
          | tick => trivial
        cases hs : step m.sched e with
        | error p =>
            rw [Machine.exec, hs] at hexec
            cases hexec
        | ok s' =>
            rw [Machine.exec, hs] at hexec
            cases hexec
            exact hreach.step hallowed hs
  · exact absurd hinside (by rw [hstep.1]; decide)

/-- **In a run of undisturbed steps** the kernel is in a state of `Reach`. -/
theorem reach_of_undisturbed (hP : ∀ m move, P m move → Undisturbed m move)
    (h : ReachUnder P m₀ m) : Reach m₀.sched m.sched := by
  induction h with
  | refl => exact .start
  | tail _ hlast ih =>
      obtain ⟨move, hcond, hstep⟩ := hlast
      exact hstep.reach (hP _ move hcond) ih

end Runs

/-- The events as they are, where none begins a divisible step. -/
def moves (es : List Event) : List MachineEvent := es.map .event

/-- The moves of `boot`. -/
def bootMoves : List MachineEvent := .enter :: moves boot

/-- The moves of `createEvents`. -/
def createMoves (priority : ℤ) (t : ThreadPtr) : List MachineEvent :=
  .event (.call (.threadCreate priority)) :: .enter :: moves ((createEvents priority t).drop 1)

/-- The moves of `timer_sleep`, up to the point where the thread blocks. -/
def sleepMoves (ticks : ℤ) : List MachineEvent :=
  moves [.call (.timerSleep ticks), .run none 0] ++ .enter :: moves [.run none 0, .run none 0]

end Pintos.Threads
