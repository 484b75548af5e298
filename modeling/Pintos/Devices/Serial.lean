import Pintos.Devices.IntqSafety

/-!
# The serial port and the input buffer

`devices/serial.c`, `devices/input.c` and the end of `keyboard_interrupt` in `devices/kbd.c`, over the
interrupt queues of `devices/intq.c`.  Interrupts are off in every function, but for the first part of
`serial_init_queue`, which is taken as one step; so a call runs undisturbed up to the point where its
thread blocks in `intq_putc` or `intq_getc`; what is left of the call (`write_ier`, `serial_notify`)
is done when the thread comes through the queue.

Of the UART the driver sees the line status register and the bytes received, and these are arguments
of a step.  `wire` are the bytes written to the transmitter, `accepted` those of the calls of
`serial_putc` that have returned, in the order in which they returned.  An interrupt may come in
`serial_init_queue` after the mode has been changed, so that this call is two steps; `started` says
that it is over.

The two queues share their threads: a thread is in a call of at most one of them.
-/

namespace Pintos.Devices

open Lib

/-! ## State -/

/-- The transmission mode. -/
inductive Mode where
  | uninit
  | poll
  | queue
deriving DecidableEq, Repr

/-- The two bits of the interrupt enable register that are used, `IER_RECV` and `IER_XMIT`. -/
structure Ier where
  recv : Bool
  xmit : Bool
deriving DecidableEq, Repr

/-- The static variables of `serial.c` and `input.c`, and the UART. -/
structure Serial where
  mode : Mode
  txq : Intq
  buffer : Intq
  ier : Ier
  wire : List UInt8
  accepted : List UInt8
  started : Bool
  up : Bool

/-- Code of the driver. -/
abbrev SerialCode (α : Type) : Type := EStateM Panic Serial α

/-- Code of a queue, on the transmit queue. -/
def onTxq {α : Type} (m : IntqCode α) : SerialCode α := fun s =>
  match m s.txq with
  | .ok a q => .ok a { s with txq := q }
  | .error e q => .error e { s with txq := q }

/-- Code of a queue, on the input buffer. -/
def onBuffer {α : Type} (m : IntqCode α) : SerialCode α := fun s =>
  match m s.buffer with
  | .ok a q => .ok a { s with buffer := q }
  | .error e q => .error e { s with buffer := q }

/-- Who runs the code: a thread, which had interrupts off or on before, or an interrupt
handler. -/
inductive Caller where
  | thread (t : ℕ) (off : Bool)
  | handler
deriving DecidableEq, Repr

/-- `old_level == INTR_OFF`. -/
def Caller.off : Caller → Bool
  | .thread _ off => off
  | .handler => true

/-- `intq_getc` or `intq_putc`; in a handler a call that would have to wait fails an assertion. -/
def Caller.run : Caller → Call → IntqCode Unit
  | .thread t _, c => loop t c
  | .handler, c => runOp (.handler c)

/-- The caller is blocked in the queue. -/
def Caller.blocked (q : Intq) : Caller → Bool
  | .thread t _ => q.phase t ≠ .free
  | .handler => false

/-! ## `serial.c` -/

/-- `write_ier`. -/
def writeIer : SerialCode Unit :=
  change fun s => { s with ier := ⟨!s.buffer.full, !s.txq.empty⟩ }

/-- `putc_poll`, once the transmitter is ready. -/
def putcPoll (byte : UInt8) : SerialCode Unit :=
  change fun s => { s with wire := s.wire ++ [byte] }

/-- `init_poll`.  `intq_init` does not touch the bytes of the buffer. -/
def initPoll : SerialCode Unit := do
  if (← fetch Serial.mode) = .uninit then
    change fun s => { s with ier := ⟨false, false⟩, txq := intqInit s.txq.buf, mode := .poll }
  else stop .assertFailed

/-- `intq_getc (&txq)` where the queue is not empty: the byte. -/
def takeByte (who : Caller) : SerialCode UInt8 := do
  let byte ← fetch fun s => s.txq.buf s.txq.tail
  onTxq (who.run .getc)
  return byte

/-- The end of `serial_putc`, which a blocked thread does not come to. -/
def finishPutc (who : Caller) (byte : UInt8) : SerialCode Unit := do
  if ← fetch fun s => who.blocked s.txq then pure ()
  else do
    change fun s => { s with accepted := s.accepted ++ [byte] }
    writeIer

/-- `if (mode == UNINIT) init_poll ();`, at the start of two functions. -/
def ensurePoll : SerialCode Unit := do
  if (← fetch Serial.mode) = .uninit then initPoll else pure ()

/-- Where interrupts are off and the queue is full, `serial_putc` sends one byte by polling. -/
def makeRoom (who : Caller) : SerialCode Unit := do
  if ← fetch fun s => who.off && s.txq.full then do
    let first ← takeByte who
    putcPoll first
  else pure ()

/-- `serial_putc`. -/
def serialPutc (who : Caller) (byte : UInt8) : SerialCode Unit := do
  if (← fetch Serial.mode) = .queue then do
    makeRoom who
    onTxq (who.run (.putc byte))
    finishPutc who byte
  else do
    ensurePoll
    putcPoll byte
    change fun s => { s with accepted := s.accepted ++ [byte] }

/-- The loop of `serial_flush`; the queue has less than `intqBufsize` bytes. -/
def flushLoop (who : Caller) : ℕ → SerialCode Unit
  | 0 => pure ()
  | k + 1 => do
      if ← fetch fun s => s.txq.empty then pure ()
      else do
        let byte ← takeByte who
        putcPoll byte
        flushLoop who k

/-- `serial_flush`. -/
def serialFlush (who : Caller) : SerialCode Unit := flushLoop who intqBufsize

/-- `serial_init_queue`, up to `mode = QUEUE`.  Interrupts may be on here.  With `mode == POLL`, as in
`main`, no handler can tell the part from one step; with `mode == UNINIT` a handler that writes a byte
might come into the middle of `init_poll`, which is left out: the part is one step in that mode too. -/
def serialInitQueue : SerialCode Unit := do
  ensurePoll
  if (← fetch Serial.mode) = .poll then change fun s => { s with mode := .queue }
  else stop .assertFailed

/-- The rest of `serial_init_queue`, with interrupts off. -/
def finishInitQueue : SerialCode Unit := do
  writeIer
  change fun s => { s with started := true }

/-- `serial_notify`. -/
def serialNotify : SerialCode Unit := do
  if (← fetch Serial.mode) = .queue then writeIer else pure ()

/-! ## `input.c` -/

/-- `input_putc`, which only interrupt handlers call. -/
def inputPutc (key : UInt8) : SerialCode Unit := do
  if ← fetch fun s => s.buffer.full then stop .assertFailed
  else do
    onBuffer (runOp (.handler (.putc key)))
    serialNotify

/-- The end of `input_getc`. -/
def finishGetc (t : ℕ) : SerialCode Unit := do
  if ← fetch fun s => (Caller.thread t false).blocked s.buffer then pure () else serialNotify

/-- `input_getc`. -/
def inputGetc (t : ℕ) : SerialCode Unit := do
  onBuffer (loop t .getc)
  finishGetc t

/-! ## Interrupts -/

/-- The first loop of `serial_interrupt`; `rx` are the bytes the UART has. -/
def receive : List UInt8 → SerialCode Unit
  | [] => pure ()
  | key :: rx => do
      if ← fetch fun s => s.buffer.full then pure ()
      else do
        inputPutc key
        receive rx

/-- The second loop; the UART takes `room` bytes. -/
def transmit : ℕ → SerialCode Unit
  | 0 => pure ()
  | room + 1 => do
      if ← fetch fun s => s.txq.empty then pure ()
      else do
        let byte ← takeByte .handler
        putcPoll byte
        transmit room

/-- `serial_interrupt`. -/
def serialInterrupt (rx : List UInt8) (room : ℕ) : SerialCode Unit := do
  receive rx
  transmit room
  writeIer

/-- The end of `keyboard_interrupt`, for the character of a key. -/
def keyPressed (c : UInt8) : SerialCode Unit := do
  if ← fetch fun s => s.buffer.full then pure () else inputPutc c

/-! ## Steps -/

/-- One step of the system. -/
inductive SerialOp where
  | initQueue
  | finishInitQueue
  | putc (who : Caller) (byte : UInt8)
  | flush (who : Caller)
  /-- A thread that was made ready goes on in `intq_putc`. -/
  | resumePutc (t : ℕ)
  | getc (t : ℕ)
  /-- A thread that was made ready goes on in `intq_getc`. -/
  | resumeGetc (t : ℕ)
  | interrupt (rx : List UInt8) (room : ℕ)
  | key (c : UInt8)
deriving Repr

/-- The byte a thread in `intq_putc` has in its hands. -/
def Phase.byte : Phase → Option UInt8
  | .retrying (.putc byte) => some byte
  | .woken (.putc byte) => some byte
  | _ => none

/-- What a thread that goes on in `serial_putc` does. -/
def resumePutc (t : ℕ) : SerialCode Unit := do
  match ← fetch fun s => (s.txq.phase t).byte with
  | some byte => do
      onTxq (resume t)
      finishPutc (.thread t false) byte
  | none => pure ()

/-- What a thread that goes on in `input_getc` does. -/
def resumeGetc (t : ℕ) : SerialCode Unit := do
  onBuffer (resume t)
  finishGetc t

/-- The code of a step. -/
def runSerial : SerialOp → SerialCode Unit
  | .initQueue => serialInitQueue
  | .finishInitQueue => finishInitQueue
  | .putc who byte => serialPutc who byte
  | .flush who => serialFlush who
  | .resumePutc t => resumePutc t
  | .getc t => inputGetc t
  | .resumeGetc t => resumeGetc t
  | .interrupt rx room => serialInterrupt rx room
  | .key c => keyPressed c

/-- The state after a step; a failed assertion is the end. -/
def afterSerial (s : Serial) (op : SerialOp) : Serial :=
  match runSerial op s with
  | .ok _ s' => s'
  | .error _ s' => { s' with up := false }

/-- The thread is in no call of either queue. -/
def Serial.Idle (s : Serial) (t : ℕ) : Prop := s.txq.phase t = .free ∧ s.buffer.phase t = .free

/-- The caller can make a call. -/
def Caller.Idle (s : Serial) : Caller → Prop
  | .thread t _ => s.Idle t
  | .handler => True

/-- A thread calls while it is in no call, and goes on if it is ready.  The interrupt handler of the
port is registered by `serial_init_queue`. -/
def SerialAllowed (s : Serial) : SerialOp → Prop
  | .initQueue => s.up = true
  | .finishInitQueue => s.up = true ∧ s.mode = .queue
  | .putc who _ => s.up = true ∧ who.Idle s
  | .flush who => s.up = true ∧ who.Idle s
  | .resumePutc t => s.up = true ∧
      ∃ byte, s.txq.phase t = .retrying (.putc byte) ∨ s.txq.phase t = .woken (.putc byte)
  | .getc t => s.up = true ∧ s.Idle t
  | .resumeGetc t => s.up = true ∧
      (s.buffer.phase t = .retrying .getc ∨ s.buffer.phase t = .woken .getc)
  | .interrupt _ _ => s.up = true ∧ s.mode = .queue
  | .key _ => s.up = true

/-- After `input_init`, before the port is used; what is in the register is anybody's guess. -/
def serialBoot (buf : ℕ → UInt8) (ier : Ier) : Serial where
  mode := .uninit
  txq := { intqInit (fun _ => 0) with value := 0 }
  buffer := intqInit buf
  ier := ier
  wire := []
  accepted := []
  started := false
  up := true

end Pintos.Devices
