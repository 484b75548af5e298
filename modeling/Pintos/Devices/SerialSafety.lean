import Pintos.Devices.Serial

/-!
# The bytes of the serial port

A byte given to `serial_putc` may be sent at once, by polling, or go through the transmit queue and be
sent by the interrupt handler, by `serial_flush`, or by a caller with interrupts off that finds the
queue full.  **The bytes are sent in the order in which the calls return, each of them once**: what has
been accepted is what is on the wire followed by what is in the queue (`SerialOk.order`).

The transmit interrupt is enabled whenever there is a byte to send, and the receive interrupt exactly
when there is room for a key (`IerOk`): no byte waits in the queue for an interrupt that does not come.

* **`serialOk_of_run`** — both, in every state of every run; and when an assertion fails.
* **`wire_of_flush`** — after `serial_flush` nothing is left to be sent.
-/

namespace Pintos.Devices

open Lib

/-! ## Steps of a queue -/

/-- The bytes are left alone. -/
structure SameBytes (q q' : Intq) : Prop where
  buf : q'.buf = q.buf
  head : q'.head = q.head
  tail : q'.tail = q.tail
  puts : q'.puts = q.puts
  gets : q'.gets = q.gets

/-- The bytes are left alone, and a thread that is in no call stays out. -/
structure Steady (t : ℕ) (q q' : Intq) : Prop extends SameBytes q q' where
  free : q.phase t = .free → q'.phase t = .free

section Queue

variable {q q' q'' : Intq} {t : ℕ} {c : Call}

theorem SameBytes.refl (q : Intq) : SameBytes q q := ⟨rfl, rfl, rfl, rfl, rfl⟩

theorem SameBytes.trans (h : SameBytes q q') (h' : SameBytes q' q'') : SameBytes q q'' :=
  ⟨h'.buf.trans h.buf, h'.head.trans h.head, h'.tail.trans h.tail, h'.puts.trans h.puts,
    h'.gets.trans h.gets⟩

instance : Std.Refl (Steady t) := ⟨fun q => ⟨.refl q, id⟩⟩

instance : IsTrans Intq (Steady t) :=
  ⟨fun _ _ _ h h' => ⟨h.toSameBytes.trans h'.toSameBytes, fun hf => h'.free (h.free hf)⟩⟩

namespace SameBytes

theorem bytesOk (h : SameBytes q q') (hq : BytesOk q) : BytesOk q' :=
  hq.congr h.buf h.head h.tail h.puts h.gets

theorem held (h : SameBytes q q') : q'.held = q.held := by
  rw [Intq.held, Intq.held, h.buf, h.head, h.tail]

theorem empty (h : SameBytes q q') : q'.empty = q.empty := by
  rw [Intq.empty, Intq.empty, h.head, h.tail]

theorem full (h : SameBytes q q') : q'.full = q.full := by
  rw [Intq.full, Intq.full, h.head, h.tail]

theorem mustWait (h : SameBytes q q') (c : Call) : q'.mustWait c = q.mustWait c := by
  cases c with
  | getc => exact h.empty
  | putc byte => exact h.full

theorem move (h : SameBytes q q') (c : Call) : SameBytes (q.move c) (q'.move c) := by
  obtain ⟨hbuf, hhead, htail, hputs, hgets⟩ := h
  cases c with
  | getc => exact ⟨hbuf, hhead, by simp [Intq.move, htail], hputs, by simp [Intq.move, hbuf, htail, hgets]⟩
  | putc byte =>
      exact ⟨by simp [Intq.move, hbuf, hhead], by simp [Intq.move, hhead], htail,
        by simp [Intq.move, hputs], hgets⟩

end SameBytes

theorem steady_assert (f : Intq → Bool) : Moves (Steady t) (assert f) :=
  Moves.bind (Moves.fetch _) fun _ => Moves.ite (Moves.pure ()) (Moves.stop _)

/-- A thread in no call is not made ready. -/
theorem steady_threadUnblock (u : ℕ) : Moves (Steady t) (threadUnblock u) := by
  intro q
  cases hp : (q.phase u).unblocked with
  | none =>
      have hrun : threadUnblock u q = .error .assertFailed q := by
        simp [threadUnblock, hp]
      rw [hrun]
      exact refl_of (Steady t) q
  | some p =>
      have hrun : threadUnblock u q = .ok () { q with phase := Function.update q.phase u p } := by
        simp [threadUnblock, hp, goTo]
      rw [hrun]
      refine ⟨⟨rfl, rfl, rfl, rfl, rfl⟩, fun hfree => ?_⟩
      have hne : t ≠ u := by
        rintro rfl
        rw [hfree] at hp
        cases hp
      exact (Function.update_of_ne hne _ _).trans hfree

theorem steady_signal (w : Member) : Moves (Steady t) (signal w) := by
  refine Moves.bind (steady_assert _) fun _ => Moves.bind (Moves.fetch _) fun waiter => ?_
  cases waiter with
  | none => exact Moves.pure ()
  | some u =>
      refine Moves.bind (steady_threadUnblock u) fun _ => ?_
      exact Moves.change fun _ => ⟨⟨rfl, rfl, rfl, rfl, rfl⟩, id⟩

theorem steady_lockRelease (u : ℕ) : Moves (Steady t) (lockRelease u) := by
  refine Moves.bind (steady_assert _) fun _ => ?_
  refine Moves.bind (Moves.change fun _ => ⟨⟨rfl, rfl, rfl, rfl, rfl⟩, id⟩) fun _ => ?_
  have hup : Moves (Steady t) (change fun q => { q with value := q.value + 1 } : IntqCode Unit) :=
    Moves.change fun _ => ⟨⟨rfl, rfl, rfl, rfl, rfl⟩, id⟩
  refine Moves.bind (Moves.fetch _) fun waiters => ?_
  cases waiters with
  | nil => exact hup
  | cons u rest =>
      refine Moves.bind (Moves.change fun _ => ⟨⟨rfl, rfl, rfl, rfl, rfl⟩, id⟩) fun _ => ?_
      exact Moves.bind (steady_threadUnblock u) fun _ => hup

/-- The caller is in no call. -/
def Caller.Free (q : Intq) : Caller → Prop
  | .thread t _ => q.phase t = .free
  | .handler => True

/-- The call has come to its end. -/
structure Moved (c : Call) (q q' : Intq) : Prop where
  ready : q.mustWait c = false
  bytes : SameBytes (q.move c) q'

/-- A thread is through its call, or it is blocked and nothing has been moved. -/
def Outcome (t : ℕ) (c : Call) (q q' : Intq) : Prop :=
  (q'.phase t = .free ∧ Moved c q q') ∨ (q'.phase t ≠ .free ∧ SameBytes q q')

theorem Outcome.after (h : SameBytes q q') (h' : Outcome t c q' q'') : Outcome t c q q'' := by
  rcases h' with ⟨hfree, hready, hbytes⟩ | ⟨hblocked, hbytes⟩
  · exact .inl ⟨hfree, (h.mustWait c).symm.trans hready, (h.move c).trans hbytes⟩
  · exact .inr ⟨hblocked, h.trans hbytes⟩

/-- A thread in `sema_down` blocks there, or in `wait`. -/
theorem semaDown_blocks : Ends (semaDown t c q) (fun _ q' => Outcome t c q q') fun _ _ => True := by
  unfold semaDown
  rw [fetch_bind]
  refine Ends.ite (fun _ => ?_) fun _ => ?_
  · refine .inr ⟨?_, ⟨rfl, rfl, rfl, rfl, rfl⟩⟩
    show Function.update q.phase t (.acquiring c) t ≠ .free
    simp
  · refine Ends.change (Ends.change ?_)
    refine Ends.bind (Q := fun _ q' => SameBytes q q') ?_ fun _ q1 h1 => ?_
    · refine ((steady_assert (t := t) _).ends _).mono (fun _ q' h => ?_) fun _ _ _ => trivial
      exact ⟨h.buf, h.head, h.tail, h.puts, h.gets⟩
    · refine .inr ⟨?_, ⟨h1.buf, h1.head, h1.tail, h1.puts, h1.gets⟩⟩
      show Function.update q1.phase t (.waiting c) t ≠ .free
      simp

/-- The end of a call. -/
theorem transfer_moves (hready : q.mustWait c = false) : Ends (transfer c q)
    (fun _ q' => Moved c q q' ∧ (q.phase t = .free → q'.phase t = .free)) fun _ _ => True := by
  refine Ends.change (((steady_signal (t := t) _).ends _).mono (fun _ q' h => ?_) fun _ _ _ => trivial)
  have hphase : (q.move c).phase = q.phase := by cases c <;> rfl
  exact ⟨⟨hready, h.toSameBytes⟩, fun hfree => h.free (hphase ▸ hfree)⟩

/-- **A call of a thread.** -/
theorem loop_outcome (hfree : q.phase t = .free) :
    Ends (loop t c q) (fun _ q' => Outcome t c q q') fun _ _ => True := by
  unfold loop
  rw [fetch_bind]
  refine Ends.ite (fun _ => ?_) fun hc => ?_
  · refine (((steady_assert (t := t) _).ends q).mono (fun _ _ h => h.toSameBytes) fun _ _ _ => trivial).bind
      fun _ q1 h1 => ?_
    exact semaDown_blocks.mono (fun _ _ h => h.after h1) fun _ _ h => h
  · refine (transfer_moves (t := t) (Bool.eq_false_iff.mpr hc)).mono (fun _ q' h => ?_) fun _ _ h => h
    exact .inl ⟨h.2 hfree, h.1⟩

/-- **A thread that goes on.** -/
theorem resume_outcome (h : q.phase t = .retrying c ∨ q.phase t = .woken c) :
    Ends (resume t q) (fun _ q' => Outcome t c q q') fun _ _ => True := by
  unfold resume
  rw [fetch_bind]
  rcases h with h | h
  · rw [h]
    exact semaDown_blocks
  · rw [h]
    refine Ends.change ?_
    refine ((steady_lockRelease (t := t) t).ends _).mono (fun _ _ h => h) (fun _ _ _ => trivial) |>.bind
      fun _ q1 h1 => ?_
    have hsame : SameBytes q q1 := ⟨h1.buf, h1.head, h1.tail, h1.puts, h1.gets⟩
    exact (loop_outcome (h1.free (Function.update_self ..))).mono (fun _ _ h' => h'.after hsame)
      fun _ _ h' => h'

/-- What is known of a queue in order, beside what is known of its bytes; `P` is the condition under
which no assertion fails. -/
theorem Ends.withQueueOk {r : EStateM.Result Panic Intq Unit} {Q : Unit → Intq → Prop} {P : Prop}
    (h : Ends r Q fun _ _ => True) (hok : P → Ends r (fun _ => QueueOk) fun _ _ => False) :
    Ends r (fun a q' => Q a q' ∧ (P → QueueOk q')) fun _ _ => ¬ P := by
  cases r with
  | ok a q' => exact ⟨h, hok⟩
  | error e q' => exact hok

theorem run_handler (hready : q.mustWait c = false) : Caller.handler.run c q = transfer c q := by
  have hassert : assert (fun q => !q.mustWait c) q = .ok () q := by simp [assert, hready]
  rw [Caller.run, runOp, bind_of_ok hassert]

/-- A call of a queue in order. -/
theorem run_ok {who : Caller} (h : QueueOk q) (hfree : who.Free q)
    (hready : who = .handler → q.mustWait c = false) :
    Ends (who.run c q) (fun _ => QueueOk) fun _ _ => False := by
  cases who with
  | thread t off => exact loop_ok h hfree
  | handler =>
      rw [run_handler (hready rfl)]
      exact transfer_ok h (hready rfl)

/-- **A call that need not wait.** -/
theorem run_ready {who : Caller} {P : Prop} (hok : P → QueueOk q) (hfree : who.Free q)
    (hready : q.mustWait c = false) : Ends (who.run c q)
      (fun _ q' => (who.Free q' ∧ Moved c q q') ∧ (P → QueueOk q')) fun _ _ => ¬ P := by
  refine Ends.withQueueOk ?_ fun hP => run_ok (hok hP) hfree fun _ => hready
  cases who with
  | thread t off =>
      have hrun : loop t c q = transfer c q := by
        rw [loop, fetch_bind, hready]
        rfl
      rw [Caller.run, hrun]
      exact (transfer_moves hready).mono (fun _ _ h => ⟨h.2 hfree, h.1⟩) fun _ _ h => h
  | handler =>
      rw [run_handler hready]
      exact (transfer_moves (t := 0) hready).mono (fun _ _ h => ⟨trivial, h.1⟩) fun _ _ h => h

/-- The caller is through, or it is blocked and nothing has been moved. -/
def Caller.Outcome (who : Caller) (c : Call) (q q' : Intq) : Prop :=
  (who.blocked q' = false ∧ Moved c q q') ∨ (who.blocked q' = true ∧ SameBytes q q')

theorem Outcome.thread {off : Bool} (h : Outcome t c q q') : (Caller.thread t off).Outcome c q q' := by
  rcases h with ⟨hfree, hmoved⟩ | ⟨hblocked, hsame⟩
  · exact .inl ⟨by simp [Caller.blocked, hfree], hmoved⟩
  · exact .inr ⟨by simp [Caller.blocked, hblocked], hsame⟩

/-- **A call of anybody**; an interrupt handler may not have to wait. -/
theorem run_outcome {who : Caller} {P : Prop} (hok : P → QueueOk q) (hfree : who.Free q)
    (hready : who = .handler → q.mustWait c = false) : Ends (who.run c q)
      (fun _ q' => who.Outcome c q q' ∧ (P → QueueOk q')) fun _ _ => ¬ P := by
  cases who with
  | thread t off =>
      refine Ends.withQueueOk ?_ fun hP => run_ok (hok hP) hfree hready
      exact (loop_outcome hfree).mono (fun _ _ h => h.thread) fun _ _ h => h
  | handler =>
      refine (run_ready hok hfree (hready rfl)).mono (fun _ _ h => ⟨.inl ⟨rfl, h.1.2⟩, h.2⟩) ?_
      exact fun _ _ h => h

/-- **A thread that goes on**, in a queue where no assertion fails. -/
theorem resume_ok {P : Prop} (hok : P → QueueOk q)
    (h : q.phase t = .retrying c ∨ q.phase t = .woken c) : Ends (resume t q)
      (fun _ q' => (Caller.thread t false).Outcome c q q' ∧ (P ∧ Careful q (.resume t) → QueueOk q'))
      fun _ _ => ¬ (P ∧ Careful q (.resume t)) := by
  refine Ends.withQueueOk ((resume_outcome h).mono (fun _ _ h => h.thread) fun _ _ h => h) ?_
  intro hP
  have hstep : Ends (runOp (.resume t) q) (fun _ => QueueOk) fun _ _ => False :=
    runOp_ok (hok hP.1) ⟨(hok hP.1).up, c, h⟩ hP.2
  exact hstep

/-- A thread that is not careful fails the assertion of `wait`. -/
theorem resume_fails (h : ¬ Careful q (.resume t)) : ∃ q', resume t q = .error .assertFailed q' := by
  simp only [Careful, not_forall] at h
  obtain ⟨c, hp, hvalue, hready⟩ := h
  have hblocks : q.blocks c.waitsIn = false := Bool.eq_false_iff.mpr hready
  refine ⟨{ q with value := q.value - 1, holder := some t }, ?_⟩
  simp only [resume, fetch_bind, hp, semaDown, if_neg hvalue, change_bind]
  refine bind_of_error ?_
  simp only [assert, fetch_bind]
  exact congrArg (fun b => (if b = true then pure () else stop Panic.assertFailed) _) hblocks

/-- The bytes put are those returned and those in the queue. -/
theorem BytesOk.split (h : BytesOk q) : q.puts = q.gets ++ q.held := by
  obtain ⟨k, hk, head, bytes⟩ := h.ring
  rw [Intq.held, h.count_eq hk head]
  exact bytes

namespace Moved

theorem bytesOk (h : Moved c q q') (hq : BytesOk q) : BytesOk q' := h.bytes.bytesOk (hq.move h.ready).1

theorem not_full (h : Moved .getc q q') (hq : BytesOk q) : q'.full = false :=
  h.bytes.full.trans (hq.move h.ready).2

theorem held_getc (h : Moved .getc q q') (hq : BytesOk q) : q.held = q.buf q.tail :: q'.held := by
  have hsplit := (hq.move h.ready).1.split
  have hq' : q.puts = (q.gets ++ [q.buf q.tail]) ++ (q.move .getc).held := hsplit
  rw [hq.split, List.append_assoc] at hq'
  rw [h.bytes.held]
  exact List.append_cancel_left hq'

theorem held_putc {byte : UInt8} (h : Moved (.putc byte) q q') (hq : BytesOk q) :
    q'.held = q.held ++ [byte] := by
  have hsplit := (hq.move h.ready).1.split
  have hq' : q.puts ++ [byte] = q.gets ++ (q.move (.putc byte)).held := hsplit
  rw [hq.split, List.append_assoc] at hq'
  rw [h.bytes.held]
  exact (List.append_cancel_left hq').symm

end Moved

theorem BytesOk.held_eq_nil (h : BytesOk q) : q.held = [] ↔ q.empty = true := by
  obtain ⟨k, hk, head, -⟩ := h.ring
  rw [h.empty_iff hk head, ← List.length_eq_zero_iff, Intq.held, length_ringList, h.count_eq hk head]

theorem BytesOk.length_held (h : BytesOk q) : q.held.length < intqBufsize := by
  obtain ⟨k, hk, head, -⟩ := h.ring
  rw [Intq.held, length_ringList, h.count_eq hk head]
  exact hk

end Queue

/-! ## The invariant -/

/-- The interrupts the driver waits for are enabled. -/
structure IerOk (s : Serial) : Prop where
  xmit : s.txq.empty = false → s.ier.xmit = true
  recv : s.ier.recv = !s.buffer.full

/-- What the driver promises: bytes are sent in the order in which they were accepted, keys are read in
the order in which they came, nothing is queued before interrupts are used, and afterwards the
interrupts are enabled that have something to do. -/
structure SerialOk (s : Serial) : Prop where
  order : s.accepted = s.wire ++ s.txq.held
  keys : s.buffer.puts = s.buffer.gets ++ s.buffer.held
  direct : s.mode ≠ .queue → s.txq.held = []
  ier : s.started = true → IerOk s

/-- The queues are in order.  There is no lock in `txq` before it is initialized. -/
structure QueuesOk (s : Serial) : Prop where
  txq : s.mode ≠ .uninit → QueueOk s.txq
  buffer : QueueOk s.buffer

/-- The invariant in the middle of a call.  `P` is what is assumed of the steps for no assertion to
fail. -/
structure Flow (P : Prop) (s : Serial) : Prop where
  up : s.up = true
  txq : BytesOk s.txq
  buffer : BytesOk s.buffer
  order : s.accepted = s.wire ++ s.txq.held
  direct : s.mode ≠ .queue → s.txq.held = [] ∧ ∀ t, s.txq.phase t = .free
  queued : s.started = true → s.mode = .queue
  sound : P → QueuesOk s

/-- The invariant between two steps. -/
structure Resting (P : Prop) (s : Serial) : Prop extends Flow P s where
  ier : s.started = true → IerOk s

theorem Resting.serialOk {P : Prop} {s : Serial} (h : Resting P s) : SerialOk s where
  order := h.order
  keys := h.buffer.split
  direct hmode := (h.direct hmode).1
  ier := h.ier

theorem Flow.mono {P P' : Prop} {s : Serial} (h : Flow P s) (hP : P' → P) : Flow P' s :=
  ⟨h.up, h.txq, h.buffer, h.order, h.direct, h.queued, fun hP' => h.sound (hP hP')⟩

theorem Resting.mono {P P' : Prop} {s : Serial} (h : Resting P s) (hP : P' → P) : Resting P' s :=
  ⟨h.toFlow.mono hP, h.ier⟩

/-! ## The transmit queue -/

section Txq

variable {s s' : Serial} {who : Caller} {byte : UInt8} {α : Type} {P : Prop}

theorem ends_onTxq {m : IntqCode α} {Q : α → Intq → Prop} (h : Ends (m s.txq) Q fun _ _ => ¬ P) :
    Ends (onTxq m s) (fun a s' => ∃ q, Q a q ∧ s' = { s with txq := q }) fun _ _ => ¬ P := by
  unfold onTxq
  cases hm : m s.txq with
  | ok a q =>
      rw [hm] at h
      exact ⟨q, h, rfl⟩
  | error e q =>
      rw [hm] at h
      exact h

theorem ends_onBuffer {m : IntqCode α} {Q : α → Intq → Prop} (h : Ends (m s.buffer) Q fun _ _ => ¬ P) :
    Ends (onBuffer m s) (fun a s' => ∃ q, Q a q ∧ s' = { s with buffer := q }) fun _ _ => ¬ P := by
  unfold onBuffer
  cases hm : m s.buffer with
  | ok a q =>
      rw [hm] at h
      exact ⟨q, h, rfl⟩
  | error e q =>
      rw [hm] at h
      exact h

/-- A part of a call that leaves the register, the mode and the input buffer alone. -/
structure TxOnly (s s' : Serial) : Prop where
  mode : s'.mode = s.mode
  ier : s'.ier = s.ier
  buffer : s'.buffer = s.buffer
  started : s'.started = s.started

/-- The transmit queue may be used. -/
theorem Flow.txqOk (h : Flow P s) (hmode : s.mode = .queue) (hP : P) : QueueOk s.txq :=
  (h.sound hP).txq (by simp [hmode])

/-- The oldest byte is taken out and sent. -/
theorem sendByte (h : Flow P s) (hfree : who.Free s.txq) (hmode : s.mode = .queue)
    (hne : s.txq.empty = false) :
    Ends ((takeByte who >>= putcPoll) s) (fun _ s' => Flow P s' ∧ who.Free s'.txq ∧ TxOnly s s' ∧
      s'.txq.full = false ∧ s.txq.held.length = s'.txq.held.length + 1) fun _ _ => ¬ P := by
  unfold takeByte
  rw [bind_assoc, fetch_bind, bind_assoc]
  have hready : s.txq.mustWait .getc = false := hne
  refine (ends_onTxq (run_ready (h.txqOk hmode) hfree hready)).bind ?_
  rintro - s' ⟨q, ⟨⟨hfree', hmoved⟩, hok⟩, rfl⟩
  have hheld := hmoved.held_getc h.txq
  have hflow : Flow P { s with
      txq := q
      wire := s.wire ++ [s.txq.buf s.txq.tail] } := by
    refine ⟨h.up, hmoved.bytesOk h.txq, h.buffer, ?_, fun hn => absurd hmode hn, h.queued, ?_⟩
    · show s.accepted = s.wire ++ [s.txq.buf s.txq.tail] ++ q.held
      rw [h.order, hheld]
      simp
    · exact fun hP => ⟨fun _ => hok hP, (h.sound hP).buffer⟩
  refine ⟨hflow, hfree', ⟨rfl, rfl, rfl, rfl⟩, hmoved.not_full h.txq, ?_⟩
  show s.txq.held.length = q.held.length + 1
  rw [hheld]
  rfl

/-- The enabled interrupts still suffice. -/
theorem IerOk.txOnly (h : IerOk s) (hs : TxOnly s s') (hne : s'.txq.empty = false → s.txq.empty = false) :
    IerOk s' where
  xmit he := hs.ier ▸ h.xmit (hne he)
  recv := by
    rw [hs.ier, hs.buffer]
    exact h.recv

theorem writeIer_resting (h : Flow P s) :
    Ends (writeIer s) (fun _ s' => Resting P s' ∧ s'.mode = s.mode ∧ IerOk s') fun _ _ => ¬ P := by
  have hier : IerOk { s with ier := ⟨!s.buffer.full, !s.txq.empty⟩ } := by
    refine ⟨fun he => ?_, rfl⟩
    show (!s.txq.empty) = true
    rw [show s.txq.empty = false from he]
    rfl
  have hsound : P → QueuesOk { s with ier := ⟨!s.buffer.full, !s.txq.empty⟩ } :=
    fun hP => ⟨(h.sound hP).txq, (h.sound hP).buffer⟩
  exact ⟨⟨⟨h.up, h.txq, h.buffer, h.order, h.direct, h.queued, hsound⟩, fun _ => hier⟩, rfl, hier⟩

/-- The end of `serial_putc`. -/
theorem finishPutc_resting {q : Intq} (h : Flow P s) (hmode : s.mode = .queue)
    (hier : s.started = true → IerOk s) (hq : who.Outcome (.putc byte) s.txq q) (hok : P → QueueOk q) :
    Ends (finishPutc who byte { s with txq := q }) (fun _ => Resting P) fun _ _ => ¬ P := by
  have hsound : P → QueueOk q ∧ QueueOk s.buffer := fun hP => ⟨hok hP, (h.sound hP).buffer⟩
  unfold finishPutc
  rw [fetch_bind]
  rcases hq with ⟨hblocked, hmoved⟩ | ⟨hblocked, hsame⟩
  · rw [hblocked, if_neg Bool.false_ne_true]
    have hflow : Flow P { s with
        txq := q
        accepted := s.accepted ++ [byte] } := by
      refine ⟨h.up, hmoved.bytesOk h.txq, h.buffer, ?_, fun hn => absurd hmode hn, h.queued, ?_⟩
      · show s.accepted ++ [byte] = s.wire ++ q.held
        rw [hmoved.held_putc h.txq, ← List.append_assoc, ← h.order]
      · exact fun hP => ⟨fun _ => (hsound hP).1, (hsound hP).2⟩
    exact Ends.change ((writeIer_resting hflow).mono (fun _ _ hs => hs.1) fun _ _ hs => hs)
  · rw [hblocked, if_pos rfl]
    refine ⟨⟨h.up, hsame.bytesOk h.txq, h.buffer, ?_, fun hn => absurd hmode hn, h.queued, ?_⟩, fun hs => ?_⟩
    · show s.accepted = s.wire ++ q.held
      rw [hsame.held]
      exact h.order
    · exact fun hP => ⟨fun _ => (hsound hP).1, (hsound hP).2⟩
    · exact (hier hs).txOnly ⟨rfl, rfl, rfl, rfl⟩ fun he => hsame.empty ▸ he

theorem initPoll_flow (h : Flow P s) (hmode : s.mode = .uninit) :
    Ends (initPoll s) (fun _ s' => Flow P s' ∧ s'.mode = .poll ∧ s'.started = false) fun _ _ => ¬ P := by
  have hheld : s.txq.held = [] := (h.direct (by simp [hmode])).1
  have hnew : (intqInit s.txq.buf).held = [] := (queueOk_init _).bytes.held_eq_nil.mpr rfl
  have hstarted : s.started = false := Bool.eq_false_iff.mpr fun hs => by
    have := h.queued hs
    simp [hmode] at this
  unfold initPoll
  rw [fetch_bind, if_pos hmode]
  refine ⟨⟨h.up, (queueOk_init _).bytes, h.buffer, ?_, fun _ => ⟨hnew, fun _ => rfl⟩, ?_, ?_⟩, rfl, hstarted⟩
  · show s.accepted = s.wire ++ (intqInit s.txq.buf).held
    rw [h.order, hheld, hnew]
  · exact fun hs => absurd hs (by simp [hstarted])
  · exact fun hP => ⟨fun _ => queueOk_init _, (h.sound hP).buffer⟩

theorem ensurePoll_flow (h : Flow P s) : Ends (ensurePoll s) (fun _ s' => Flow P s' ∧
    (s.mode ≠ .queue → s'.mode = .poll) ∧ (s'.mode ≠ .queue → s'.started = false)) fun _ _ => ¬ P := by
  unfold ensurePoll
  rw [fetch_bind]
  refine Ends.ite (fun huninit => ?_) fun huninit => ⟨h, fun hn => ?_, fun hn => ?_⟩
  · exact (initPoll_flow h huninit).mono (fun _ _ hs => ⟨hs.1, fun _ => hs.2.1, fun _ => hs.2.2⟩)
      fun _ _ hs => hs
  · cases hm : s.mode with
    | uninit => exact absurd hm huninit
    | poll => rfl
    | queue => exact absurd hm hn
  · exact Bool.eq_false_iff.mpr fun hs => hn (h.queued hs)

/-- Afterwards an interrupt handler finds room. -/
theorem makeRoom_flow (h : Resting P s) (hfree : who.Free s.txq) (hmode : s.mode = .queue) :
    Ends (makeRoom who s) (fun _ s' => Resting P s' ∧ who.Free s'.txq ∧ s'.mode = .queue ∧
      (who = .handler → s'.txq.full = false)) fun _ _ => ¬ P := by
  unfold makeRoom
  rw [fetch_bind]
  refine Ends.ite (fun hfull => ?_) fun hfull => ⟨h, hfree, hmode, ?_⟩
  · have hne : s.txq.empty = false := by
      obtain ⟨k, hk, head, -⟩ := h.txq.ring
      rw [Bool.and_eq_true] at hfull
      have hcount := (h.txq.full_iff hk head).mp hfull.2
      refine Bool.eq_false_iff.mpr fun he => ?_
      have := (h.txq.empty_iff hk head).mp he
      simp only [intqBufsize] at hcount
      omega
    refine (sendByte h.toFlow hfree hmode hne).mono (fun _ s' hs => ?_) fun _ _ hs => hs
    obtain ⟨hflow, hfree', honly, hroom, -⟩ := hs
    refine ⟨⟨hflow, fun hst => ?_⟩, hfree', honly.mode.trans hmode, fun _ => hroom⟩
    exact (h.ier (honly.started ▸ hst)).txOnly honly fun _ => hne
  · rintro rfl
    simpa [Caller.off] using hfull

/-- **`serial_putc`**, by polling or through the queue. -/
theorem serialPutc_resting (h : Resting P s) (hfree : who.Free s.txq) :
    Ends (serialPutc who byte s) (fun _ => Resting P) fun _ _ => ¬ P := by
  unfold serialPutc
  rw [fetch_bind]
  refine Ends.ite (fun hmode => ?_) fun hmode => ?_
  · -- the queue
    refine (makeRoom_flow h hfree hmode).bind ?_
    rintro - s1 ⟨h1, hfree1, hmode1, hroom⟩
    have hready : who = .handler → s1.txq.mustWait (.putc byte) = false := hroom
    refine (ends_onTxq (run_outcome (h1.txqOk hmode1) hfree1 hready)).bind ?_
    rintro - s2 ⟨q, ⟨hq, hok⟩, rfl⟩
    exact finishPutc_resting h1.toFlow hmode1 h1.ier hq hok
  · -- polling
    refine (ensurePoll_flow h.toFlow).bind ?_
    rintro - s1 ⟨h1, hmode1, hstarted⟩
    have hpoll : s1.mode ≠ .queue := by
      rw [hmode1 hmode]
      decide
    refine Ends.change ⟨⟨h1.up, h1.txq, h1.buffer, ?_, h1.direct, h1.queued, ?_⟩, fun hs => ?_⟩
    · show s1.accepted ++ [byte] = s1.wire ++ [byte] ++ s1.txq.held
      rw [h1.order, (h1.direct hpoll).1]
      simp
    · exact fun hP => ⟨(h1.sound hP).txq, (h1.sound hP).buffer⟩
    · exact absurd (show s1.started = true from hs) (by simp [hstarted hpoll])

/-- **`serial_flush`** sends what is in the queue. -/
theorem flushLoop_resting (k : ℕ) : ∀ {s : Serial}, Resting P s → who.Free s.txq → s.txq.held.length ≤ k →
    Ends (flushLoop who k s) (fun _ s' => Resting P s' ∧ s'.txq.held = []) fun _ _ => ¬ P := by
  induction k with
  | zero => exact fun {s} h _ hk => ⟨h, List.length_eq_zero_iff.mp (by omega)⟩
  | succ k ih =>
      intro s h hfree hk
      unfold flushLoop
      rw [fetch_bind]
      refine Ends.ite (fun he => ⟨h, h.txq.held_eq_nil.mpr he⟩) fun hne => ?_
      have hempty := Bool.eq_false_iff.mpr hne
      have hmode : s.mode = .queue := by
        by_contra hn
        exact hne (h.txq.held_eq_nil.mp (h.direct hn).1)
      rw [← bind_assoc]
      refine (sendByte h.toFlow hfree hmode hempty).bind ?_
      rintro - s' ⟨hflow, hfree', honly, -, hlen⟩
      refine ih ⟨hflow, fun hs => ?_⟩ hfree' (by omega)
      exact (h.ier (honly.started ▸ hs)).txOnly honly fun _ => hempty

end Txq

/-! ## The input buffer -/

section Buffer

variable {s s' : Serial} {P : Prop}

/-- The input buffer after something has been done to it. -/
theorem Flow.setBuffer {q : Intq} (h : Flow P s) (hq : BytesOk q) (hok : P → QueueOk q) :
    Flow P { s with buffer := q } :=
  ⟨h.up, h.txq, hq, h.order, h.direct, h.queued, fun hP => ⟨(h.sound hP).txq, hok hP⟩⟩

/-- The register follows the buffer. -/
theorem serialNotify_resting (h : Flow P s) :
    Ends (serialNotify s) (fun _ s' => Resting P s' ∧ s'.mode = s.mode) fun _ _ => ¬ P := by
  unfold serialNotify
  rw [fetch_bind]
  refine Ends.ite (fun _ => ?_) fun hmode => ⟨⟨h, fun hs => absurd (h.queued hs) hmode⟩, rfl⟩
  exact (writeIer_resting h).mono (fun _ _ hs => ⟨hs.1, hs.2.1⟩) fun _ _ hs => hs

theorem inputPutc_resting (h : Resting P s) (hroom : s.buffer.full = false) (key : UInt8) :
    Ends (inputPutc key s) (fun _ s' => Resting P s' ∧ s'.mode = s.mode) fun _ _ => ¬ P := by
  have hready : s.buffer.mustWait (.putc key) = false := hroom
  have hrun := @run_ready s.buffer (.putc key) .handler P (fun hP => (h.sound hP).buffer) trivial hready
  unfold inputPutc
  rw [fetch_bind, hroom, if_neg Bool.false_ne_true]
  refine (ends_onBuffer hrun).bind ?_
  rintro - s1 ⟨q, ⟨⟨-, hmoved⟩, hok⟩, rfl⟩
  exact serialNotify_resting (h.toFlow.setBuffer (hmoved.bytesOk h.buffer) hok)

/-- The end of `input_getc`. -/
theorem finishGetc_resting {q : Intq} {t : ℕ} {c : Call} (h : Resting P s)
    (hq : (Caller.thread t false).Outcome c s.buffer q) (hok : P → QueueOk q) :
    Ends (finishGetc t { s with buffer := q }) (fun _ => Resting P) fun _ _ => ¬ P := by
  unfold finishGetc
  rw [fetch_bind]
  rcases hq with ⟨hfree, hmoved⟩ | ⟨hblocked, hsame⟩
  · rw [hfree, if_neg Bool.false_ne_true]
    have hflow := h.toFlow.setBuffer (hmoved.bytesOk h.buffer) hok
    exact (serialNotify_resting hflow).mono (fun _ _ hs => hs.1) fun _ _ hs => hs
  · rw [hblocked, if_pos rfl]
    refine ⟨h.toFlow.setBuffer (hsame.bytesOk h.buffer) hok, fun hs => ⟨(h.ier hs).xmit, ?_⟩⟩
    show s.ier.recv = !q.full
    rw [hsame.full]
    exact (h.ier hs).recv

/-- The bytes received, as long as there is room. -/
theorem receive_resting (rx : List UInt8) : ∀ {s : Serial}, Resting P s →
    Ends (receive rx s) (fun _ s' => Resting P s' ∧ s'.mode = s.mode) fun _ _ => ¬ P := by
  induction rx with
  | nil => exact fun {s} h => ⟨h, rfl⟩
  | cons key rx ih =>
      intro s h
      unfold receive
      rw [fetch_bind]
      refine Ends.ite (fun _ => ⟨h, rfl⟩) fun hroom => ?_
      refine (inputPutc_resting h (Bool.eq_false_iff.mpr hroom) key).bind ?_
      rintro - s1 ⟨h1, hmode1⟩
      exact (ih h1).mono (fun _ _ hs => ⟨hs.1, hs.2.trans hmode1⟩) fun _ _ hs => hs

/-- The bytes sent, as long as there are any. -/
theorem transmit_flow (room : ℕ) : ∀ {s : Serial}, Flow P s → s.mode = .queue →
    Ends (transmit room s) (fun _ s' => Flow P s' ∧ s'.mode = .queue) fun _ _ => ¬ P := by
  induction room with
  | zero => exact fun {s} h hmode => ⟨h, hmode⟩
  | succ room ih =>
      intro s h hmode
      unfold transmit
      rw [fetch_bind]
      refine Ends.ite (fun _ => ⟨h, hmode⟩) fun hne => ?_
      rw [← bind_assoc]
      refine (@sendByte s .handler P h trivial hmode (Bool.eq_false_iff.mpr hne)).bind ?_
      rintro - s1 ⟨hflow, -, honly, -, -⟩
      exact ih hflow (honly.mode.trans hmode)

/-- **`serial_interrupt`.** -/
theorem serialInterrupt_resting (h : Resting P s) (hmode : s.mode = .queue) (rx : List UInt8) (room : ℕ) :
    Ends (serialInterrupt rx room s) (fun _ => Resting P) fun _ _ => ¬ P := by
  refine (receive_resting rx h).bind ?_
  rintro - s1 ⟨h1, hmode1⟩
  refine (transmit_flow room h1.toFlow (hmode1.trans hmode)).bind ?_
  rintro - s2 ⟨h2, -⟩
  exact (writeIer_resting h2).mono (fun _ _ hs => hs.1) fun _ _ hs => hs

/-- `serial_init_queue`, called once. -/
theorem serialInitQueue_resting (h : Resting P s) : Ends (serialInitQueue s)
    (fun _ => Resting (P ∧ s.mode ≠ .queue)) fun _ _ => ¬ (P ∧ s.mode ≠ .queue) := by
  refine ((ensurePoll_flow h.toFlow).mono (fun _ _ hs => hs) fun _ _ hn hP => hn hP.1).bind ?_
  rintro - s1 ⟨h1, hmode, hstarted⟩
  rw [fetch_bind]
  refine Ends.ite (fun hpoll => ?_) fun hn hP => hn (hmode hP.2)
  have hsound : P ∧ s.mode ≠ .queue → QueuesOk { s1 with mode := .queue } := fun hP =>
    ⟨fun _ => (h1.sound hP.1).txq (by simp [hpoll]), (h1.sound hP.1).buffer⟩
  refine ⟨⟨h1.up, h1.txq, h1.buffer, h1.order, fun hn => absurd rfl hn, fun _ => rfl, hsound⟩, fun hs => ?_⟩
  exact absurd (show s1.started = true from hs) (by simp [hstarted (by simp [hpoll])])

theorem finishInitQueue_resting (h : Resting P s) (hmode : s.mode = .queue) :
    Ends (finishInitQueue s) (fun _ => Resting P) fun _ _ => ¬ P := by
  refine (writeIer_resting h.toFlow).bind ?_
  rintro - s1 ⟨h1, hmode1, hier⟩
  have hsound : P → QueuesOk { s1 with started := true } := fun hP =>
    ⟨(h1.sound hP).txq, (h1.sound hP).buffer⟩
  refine ⟨⟨h1.up, h1.txq, h1.buffer, h1.order, h1.direct, fun _ => hmode1.trans hmode, hsound⟩, fun _ => ?_⟩
  exact ⟨hier.xmit, hier.recv⟩

end Buffer

/-! ## Runs -/

/-- `serial_init_queue` is called once, and a thread that waited for the lock of a queue still has to
wait when it gets it. -/
def SerialCareful (s : Serial) : SerialOp → Prop
  | .initQueue => s.mode ≠ .queue
  | .resumePutc t => Careful s.txq (.resume t)
  | .resumeGetc t => Careful s.buffer (.resume t)
  | _ => True

section Runs

variable {s : Serial} {op : SerialOp} {P : Prop}

theorem Caller.Idle.free {who : Caller} (h : who.Idle s) : who.Free s.txq := by
  cases who with
  | thread t off => exact h.1
  | handler => trivial

/-- What a thread that goes on has in its hands. -/
theorem byte_resumed {p : Phase} {byte : UInt8} (h : p = .retrying (.putc byte) ∨ p = .woken (.putc byte)) :
    p.byte = some byte := by
  rcases h with rfl | rfl <;> rfl

theorem resumePutc_resting {t : ℕ} {byte : UInt8} (h : Resting P s)
    (hphase : s.txq.phase t = .retrying (.putc byte) ∨ s.txq.phase t = .woken (.putc byte)) :
    Ends (resumePutc t s) (fun _ => Resting (P ∧ Careful s.txq (.resume t)))
      fun _ _ => ¬ (P ∧ Careful s.txq (.resume t)) := by
  have hmode : s.mode = .queue := by
    by_contra hn
    rcases hphase with hp | hp <;> simp [(h.direct hn).2 t] at hp
  unfold resumePutc
  rw [fetch_bind, byte_resumed hphase]
  refine (ends_onTxq (resume_ok (h.txqOk hmode) hphase)).bind ?_
  rintro - s1 ⟨q, ⟨hq, hok⟩, rfl⟩
  exact finishPutc_resting (h.toFlow.mono And.left) hmode h.ier hq hok

theorem resumeGetc_resting {t : ℕ} (h : Resting P s)
    (hphase : s.buffer.phase t = .retrying .getc ∨ s.buffer.phase t = .woken .getc) :
    Ends (resumeGetc t s) (fun _ => Resting (P ∧ Careful s.buffer (.resume t)))
      fun _ _ => ¬ (P ∧ Careful s.buffer (.resume t)) := by
  refine (ends_onBuffer (resume_ok (fun hP => (h.sound hP).buffer) hphase)).bind ?_
  rintro - s1 ⟨q, ⟨hq, hok⟩, rfl⟩
  exact finishGetc_resting (h.mono And.left) hq hok

/-- A step of which nothing is assumed. -/
theorem step_plain {r : EStateM.Result Panic Serial Unit} (h : Ends r (fun _ => Resting P) fun _ _ => ¬ P) :
    Ends r (fun _ => Resting (P ∧ True)) fun _ _ => ¬ (P ∧ True) :=
  h.mono (fun _ _ hs => hs.mono And.left) fun _ _ hn hP => hn hP.1

/-- **One step.** -/
theorem runSerial_resting (h : Resting P s) (allowed : SerialAllowed s op) :
    Ends (runSerial op s) (fun _ => Resting (P ∧ SerialCareful s op))
      fun _ _ => ¬ (P ∧ SerialCareful s op) := by
  cases op with
  | initQueue => exact serialInitQueue_resting h
  | finishInitQueue => exact step_plain (finishInitQueue_resting h allowed.2)
  | putc who byte => exact step_plain (serialPutc_resting h allowed.2.free)
  | flush who =>
      refine step_plain ((flushLoop_resting intqBufsize h allowed.2.free h.txq.length_held.le).mono ?_ ?_)
      · exact fun _ _ hs => hs.1
      · exact fun _ _ hs => hs
  | resumePutc t =>
      obtain ⟨-, byte, hphase⟩ := allowed
      exact resumePutc_resting h hphase
  | getc t =>
      have hfree : (Caller.thread t false).Free s.buffer := allowed.2.2
      have hrun := @run_outcome s.buffer .getc (.thread t false) P (fun hP => (h.sound hP).buffer) hfree nofun
      refine step_plain ((ends_onBuffer hrun).bind ?_)
      rintro - s1 ⟨q, ⟨hq, hok⟩, rfl⟩
      exact finishGetc_resting h hq hok
  | resumeGetc t => exact resumeGetc_resting h allowed.2
  | interrupt rx room => exact step_plain (serialInterrupt_resting h allowed.2 rx room)
  | key c =>
      refine step_plain ?_
      show Ends (keyPressed c s) _ _
      unfold keyPressed
      rw [fetch_bind]
      refine Ends.ite (fun _ => h) fun hroom => ?_
      exact (inputPutc_resting h (Bool.eq_false_iff.mpr hroom) c).mono (fun _ _ hs => hs.1) fun _ _ hs => hs

/-- Nothing runs after a failed assertion. -/
theorem SerialAllowed.up (allowed : SerialAllowed s op) : s.up = true := by
  cases op with
  | initQueue => exact allowed
  | key c => exact allowed
  | _ => exact allowed.1

/-- The code does not write `up`. -/
theorem afterSerial_up (h : (afterSerial s op).up = true) :
    ∃ s', runSerial op s = .ok () s' ∧ afterSerial s op = s' := by
  unfold afterSerial at h ⊢
  cases hrun : runSerial op s with
  | ok a s' => exact ⟨s', rfl, rfl⟩
  | error e s' =>
      rw [hrun] at h
      cases h

/-- **A step after which the kernel is up was careful.** -/
theorem serialCareful_of_up (allowed : SerialAllowed s op) (h : (afterSerial s op).up = true) :
    SerialCareful s op := by
  obtain ⟨s', hrun, -⟩ := afterSerial_up h
  by_contra hnot
  have hstop : ∃ s', runSerial op s = .error .assertFailed s' := by
    cases op with
    | initQueue =>
        have hmode : s.mode = .queue := not_not.mp hnot
        refine ⟨s, ?_⟩
        simp [runSerial, serialInitQueue, ensurePoll, hmode]
    | resumePutc t =>
        obtain ⟨-, byte, hphase⟩ := allowed
        obtain ⟨q, hq⟩ := resume_fails hnot
        refine ⟨{ s with txq := q }, ?_⟩
        show resumePutc t s = _
        unfold resumePutc
        rw [fetch_bind, byte_resumed hphase]
        exact bind_of_error (by simp [onTxq, hq])
    | resumeGetc t =>
        obtain ⟨q, hq⟩ := resume_fails hnot
        exact ⟨{ s with buffer := q }, bind_of_error (by simp [onBuffer, hq])⟩
    | _ => exact absurd trivial hnot
  obtain ⟨s'', hstop⟩ := hstop
  rw [hrun] at hstop
  cases hstop

theorem resting_boot (buf : ℕ → UInt8) (ier : Ier) (P : Prop) : Resting P (serialBoot buf ier) := by
  have hheld : (serialBoot buf ier).txq.held = [] := by
    simp [serialBoot, intqInit, Intq.held, intqBufsize, ringList]
  have htxq : BytesOk (serialBoot buf ier).txq :=
    (queueOk_init fun _ => 0).bytes.congr rfl rfl rfl rfl rfl
  refine ⟨⟨rfl, htxq, (queueOk_init buf).bytes, ?_, fun _ => ⟨hheld, fun _ => rfl⟩,
    fun h => (by cases h), fun _ => ?_⟩, fun h => (by cases h)⟩
  · rw [hheld]
    rfl
  · exact ⟨fun h => absurd rfl h, queueOk_init buf⟩

/-- **After `serial_flush`** what has been accepted is on the wire. -/
theorem wire_of_flush {who : Caller} (h : Resting P s) (allowed : SerialAllowed s (.flush who)) :
    Ends (serialFlush who s) (fun _ s' => s'.wire = s'.accepted) fun _ _ => ¬ P := by
  refine (flushLoop_resting intqBufsize h allowed.2.free h.txq.length_held.le).mono ?_ fun _ _ hs => hs
  rintro - s' ⟨hrest, hheld⟩
  rw [hrest.order, hheld, List.append_nil]

/-- **The serial port.**  In every run of the driver, by threads and interrupt handlers in any order,
the bytes accepted are those on the wire and then those in the queue, keys are neither lost nor
duplicated in the buffer, and the interrupts are enabled that are needed; an assertion fails in the run
if and only if a step is not careful. -/
theorem serialOk_of_run (buf : ℕ → UInt8) (ier : Ier) (ops : List SerialOp)
    (allowed : Along afterSerial SerialAllowed (serialBoot buf ier) ops) :
    Always afterSerial (fun s => s.up = true → SerialOk s) (serialBoot buf ier) ops ∧
      (Always afterSerial (fun s => s.up = true) (serialBoot buf ier) ops ↔
        Along afterSerial SerialCareful (serialBoot buf ier) ops) := by
  refine ⟨?_, fun h => ?_, fun careful => ?_⟩
  · -- nothing is assumed of the steps
    have hinv : Always afterSerial (fun s => s.up = true → Resting False s) (serialBoot buf ier) ops := by
      refine Always.of_along (fun s op hs hop => fun hup => ?_) ops _ (fun _ => resting_boot buf ier False) allowed
      obtain ⟨s', hrun, hs'⟩ := afterSerial_up hup
      have hstep := runSerial_resting (hs hop.up) hop
      rw [hrun] at hstep
      rw [hs']
      exact Resting.mono hstep False.elim
    exact Always.mono (fun s hs hup => (hs hup).serialOk) ops _ hinv
  · have hcareful : ∀ s op, SerialAllowed s op → (afterSerial s op).up = true → SerialCareful s op :=
      fun s op hop hup => serialCareful_of_up hop hup
    exact Along.of_always hcareful ops _ allowed h
  · -- all steps are careful
    have hinv : Always afterSerial (fun s => s.up = true ∧ Resting True s) (serialBoot buf ier) ops := by
      refine Always.of_along (fun s op hs hop => ?_) ops _ ⟨rfl, resting_boot buf ier True⟩
        (Along.and ops _ allowed careful)
      have hstep := runSerial_resting hs.2 hop.1
      unfold afterSerial
      cases hrun : runSerial op s with
      | ok a s' =>
          rw [hrun] at hstep
          exact ⟨Flow.up hstep.toFlow, Resting.mono hstep fun _ => ⟨trivial, hop.2⟩⟩
      | error e s' =>
          rw [hrun] at hstep
          exact absurd ⟨trivial, hop.2⟩ hstep
    exact Always.mono (fun s hs => hs.1) ops _ hinv

/-- A key comes while the port is still polled; then a byte is queued, and sent by the interrupt, and a
thread reads the key. -/
def oneOfEach : List SerialOp :=
  [.putc (.thread 1 false) 0x61, .key 0x71, .initQueue, .finishInitQueue, .putc (.thread 1 false) 0x62,
    .interrupt [0x72] 1, .getc 2, .flush .handler]

theorem serialOk_of_oneOfEach :
    Along afterSerial SerialAllowed (serialBoot (fun _ => 0) ⟨true, true⟩) oneOfEach ∧
      Always afterSerial (fun s => s.up = true → SerialOk s) (serialBoot (fun _ => 0) ⟨true, true⟩) oneOfEach := by
  have allowed : Along afterSerial SerialAllowed (serialBoot (fun _ => 0) ⟨true, true⟩) oneOfEach :=
    ⟨⟨rfl, rfl, rfl⟩, rfl, rfl, ⟨rfl, rfl⟩, ⟨rfl, rfl, rfl⟩, ⟨rfl, rfl⟩, ⟨rfl, rfl, rfl⟩, ⟨rfl, trivial⟩, trivial⟩
  exact ⟨allowed, (serialOk_of_run _ _ _ allowed).1⟩

end Runs

end Pintos.Devices
