import Pintos.Lib.Command
import Pintos.Lib.Ring
import Pintos.Lib.Runs

/-!
# Interrupt queues

`devices/intq.c` of `fs_PintOS`, with the lock of `threads/synch.c` it uses.  Interrupts
are off in every function of the queue, so a call runs undisturbed up to the point
where its thread blocks: in `sema_down`, or in `wait`.  `Phase` says where in a call a
thread is, and one step of the system is what one thread does until it blocks or
returns, or one call from an interrupt handler.

A failed `ASSERT` stops the kernel.  `puts` and `gets` are not in the source: they are
the bytes put into the queue and the bytes returned, in order.
-/

namespace Pintos.Devices

open Lib

/-! ## State -/

/-- `INTQ_BUFSIZE`. -/
def intqBufsize : ℕ := 64

/-- A call of one of the two functions. -/
inductive Call where
  | getc
  | putc (byte : UInt8)
deriving DecidableEq, Repr

/-- Where a thread is. -/
inductive Phase where
  /-- In none of the functions of the queue, or running in one of them. -/
  | free
  /-- Blocked in `sema_down` of the lock. -/
  | acquiring (c : Call)
  /-- Woken up there, to test the semaphore again. -/
  | retrying (c : Call)
  /-- Blocked in `wait`. -/
  | waiting (c : Call)
  /-- Woken up in `wait`. -/
  | woken (c : Call)
deriving DecidableEq, Repr

/-- The two members a waiting thread may be recorded in. -/
inductive Member where
  | notFull
  | notEmpty
deriving DecidableEq, Repr

/-- `struct intq` and the threads that use it.  `value` and `waiters` are the semaphore of
the lock, `holder` its holder; `waiter` are the members `not_full` and `not_empty`. -/
structure Intq where
  value : ℕ
  waiters : List ℕ
  holder : Option ℕ
  waiter : Member → Option ℕ
  buf : ℕ → UInt8
  head : ℕ
  tail : ℕ
  phase : ℕ → Phase
  puts : List UInt8
  gets : List UInt8
  up : Bool

/-- A failed `ASSERT`. -/
inductive Panic where
  | assertFailed
deriving DecidableEq, Repr

/-- Code of the queue. -/
abbrev IntqCode (α : Type) : Type := EStateM Panic Intq α

/-- `ASSERT`. -/
def assert (c : Intq → Bool) : IntqCode Unit := do
  if ← fetch c then pure () else stop .assertFailed

/-- The thread `t` goes on in phase `p` when it runs again. -/
def goTo (t : ℕ) (p : Phase) : IntqCode Unit :=
  change fun q => { q with phase := Function.update q.phase t p }

/-! ## `thread_unblock` and the lock -/

/-- What becomes of a blocked thread that is made ready. -/
def Phase.unblocked : Phase → Option Phase
  | .acquiring c => some (.retrying c)
  | .waiting c => some (.woken c)
  | _ => none

/-- `thread_unblock`; a thread that is not blocked fails the assertion. -/
def threadUnblock (t : ℕ) : IntqCode Unit := do
  match ← fetch fun q => (q.phase t).unblocked with
  | some p => goTo t p
  | none => stop .assertFailed

/-- `sema_up` of the lock. -/
def semaUp : IntqCode Unit := do
  match ← fetch Intq.waiters with
  | [] => pure ()
  | t :: rest => do
      change fun q => { q with waiters := rest }
      threadUnblock t
  change fun q => { q with value := q.value + 1 }

/-- `lock_release`. -/
def lockRelease (t : ℕ) : IntqCode Unit := do
  assert fun q => q.holder = some t
  change fun q => { q with holder := none }
  semaUp

/-! ## The queue -/

/-- `next`. -/
def next (pos : ℕ) : ℕ := (pos + 1) % intqBufsize

/-- `intq_empty`. -/
def Intq.empty (q : Intq) : Bool := q.head = q.tail

/-- `intq_full`. -/
def Intq.full (q : Intq) : Bool := next q.head = q.tail

/-- The condition a thread recorded in the member waits to see the end of. -/
def Intq.blocks (q : Intq) : Member → Bool
  | .notFull => q.full
  | .notEmpty => q.empty

/-- The member the loop of the call passes to `wait`. -/
def Call.waitsIn : Call → Member
  | .getc => .notEmpty
  | .putc _ => .notFull

/-- The member the call passes to `signal`. -/
def Call.signals : Call → Member
  | .getc => .notFull
  | .putc _ => .notEmpty

/-- The condition of the loop of `intq_getc` or `intq_putc`. -/
def Intq.mustWait (q : Intq) (c : Call) : Bool := q.blocks c.waitsIn

/-- `wait`, up to `thread_block`. -/
def wait (t : ℕ) (c : Call) : IntqCode Unit := do
  assert fun q => q.blocks c.waitsIn
  change fun q => { q with waiter := Function.update q.waiter c.waitsIn (some t) }
  goTo t (.waiting c)

/-- `signal`. -/
def signal (w : Member) : IntqCode Unit := do
  assert fun q => !q.blocks w
  match ← fetch fun q => q.waiter w with
  | none => pure ()
  | some t => do
      threadUnblock t
      change fun q => { q with waiter := Function.update q.waiter w none }

/-- The byte a call moves, and the position it moves on. -/
def Intq.move (q : Intq) : Call → Intq
  | .getc => { q with
      gets := q.gets ++ [q.buf q.tail]
      tail := next q.tail }
  | .putc byte => { q with
      puts := q.puts ++ [byte]
      buf := Function.update q.buf q.head byte
      head := next q.head }

/-- The end of `intq_getc` or `intq_putc`, after the loop. -/
def transfer (c : Call) : IntqCode Unit := do
  change fun q => q.move c
  signal c.signals

/-- `sema_down` of the lock and what follows it in the loop, up to the point where the
thread blocks. -/
def semaDown (t : ℕ) (c : Call) : IntqCode Unit := do
  if (← fetch Intq.value) = 0 then do
    change fun q => { q with waiters := q.waiters ++ [t] }
    goTo t (.acquiring c)
  else do
    change fun q => { q with value := q.value - 1 }
    change fun q => { q with holder := some t }
    wait t c

/-- `intq_getc` or `intq_putc` from the test of its loop on. -/
def loop (t : ℕ) (c : Call) : IntqCode Unit := do
  if ← fetch fun q => q.mustWait c then do
    assert fun q => q.holder ≠ some t
    semaDown t c
  else transfer c

/-! ## Steps -/

/-- One step of the system. -/
inductive Op where
  /-- A thread calls one of the functions. -/
  | call (t : ℕ) (c : Call)
  /-- A thread that was made ready runs on. -/
  | resume (t : ℕ)
  /-- An interrupt handler calls one of the functions. -/
  | handler (c : Call)
deriving Repr

/-- What a thread that runs again does. -/
def resume (t : ℕ) : IntqCode Unit := do
  match ← fetch fun q => q.phase t with
  | .retrying c => semaDown t c
  | .woken c => do
      goTo t .free
      lockRelease t
      loop t c
  | _ => pure ()

/-- The code of a step.  In a handler, a call that would have to wait fails the assertion
of the loop. -/
def runOp : Op → IntqCode Unit
  | .call t c => loop t c
  | .resume t => resume t
  | .handler c => do
      assert fun q => !q.mustWait c
      transfer c

/-- The queue after a step; a failed assertion is the end. -/
def afterOp (q : Intq) (op : Op) : Intq :=
  match runOp op q with
  | .ok _ q' => q'
  | .error _ q' => { q' with up := false }

/-- A thread calls while it is in no call, and runs on if it is ready.  Handlers get only
from a non-empty and put only into a non-full queue. -/
def OpAllowed (q : Intq) : Op → Prop
  | .call t _ => q.up = true ∧ q.phase t = .free
  | .resume t => q.up = true ∧ ∃ c, q.phase t = .retrying c ∨ q.phase t = .woken c
  | .handler c => q.up = true ∧ q.mustWait c = false

/-- `intq_init`, with no thread in a call.  The bytes of the buffer are what they are. -/
def intqInit (buf : ℕ → UInt8) : Intq where
  value := 1
  waiters := []
  holder := none
  waiter _ := none
  buf := buf
  head := 0
  tail := 0
  phase _ := .free
  puts := []
  gets := []
  up := true

end Pintos.Devices
