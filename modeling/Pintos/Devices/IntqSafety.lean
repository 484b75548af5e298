import Pintos.Devices.Intq

/-!
# The bytes of an interrupt queue

The queue is a ring buffer of 64 cells and the lock lets one thread at a time into
`wait`.  A thread that had to wait for the lock does not test its condition again
before it calls `wait`, so **the assertion of `wait` fails if a byte came (or a cell
became free) in between**.  `Careful` excludes these steps; `intqOk_iff` says that the
queue is safe in every state of a run if and only if the run has none of them.

* `BytesOk` — the ring buffer holds what was put and not yet returned.
* `ThreadsOk` — the lock, the semaphore and the two waiters fit the phases of the threads.
-/

namespace Pintos.Devices

open Lib

/-! ## The invariants -/

/-- The bytes in the queue, oldest first. -/
def Intq.held (q : Intq) : List UInt8 :=
  ringList intqBufsize q.buf q.tail ((q.head + intqBufsize - q.tail) % intqBufsize)

/-- Nothing is lost or duplicated: the queue holds what was put and not returned. -/
structure BytesOk (q : Intq) : Prop where
  tail_lt : q.tail < intqBufsize
  ring : ∃ k < intqBufsize, q.head = (q.tail + k) % intqBufsize ∧
    q.puts = q.gets ++ ringList intqBufsize q.buf q.tail k

/-- A thread in this phase has the lock. -/
def Phase.Inside : Phase → Prop
  | .waiting _ => True
  | .woken _ => True
  | _ => False

/-- The lock and the waiters fit the phases. -/
structure ThreadsOk (q : Intq) : Prop where
  holder : ∀ t, q.holder = some t ↔ (q.phase t).Inside
  value : q.value = if q.holder = none then 1 else 0
  waiters : ∀ t, t ∈ q.waiters ↔ ∃ c, q.phase t = .acquiring c
  nodup : q.waiters.Nodup
  waiter : ∀ w t, q.waiter w = some t ↔ ∃ c, q.phase t = .waiting c ∧ c.waitsIn = w

/-! ## The ring buffer -/

section Bytes

variable {q : Intq} {k : ℕ}

theorem BytesOk.empty_iff (h : BytesOk q) (hk : k < intqBufsize)
    (head : q.head = (q.tail + k) % intqBufsize) : q.empty = true ↔ k = 0 := by
  rw [Intq.empty, decide_eq_true_iff, head]
  exact ring_empty_iff h.tail_lt hk

theorem BytesOk.full_iff (h : BytesOk q) (hk : k < intqBufsize)
    (head : q.head = (q.tail + k) % intqBufsize) : q.full = true ↔ k + 1 = intqBufsize := by
  rw [Intq.full, decide_eq_true_iff, next, head]
  exact ring_full_iff h.tail_lt hk

/-- The count read off the two positions. -/
theorem BytesOk.count_eq (h : BytesOk q) (hk : k < intqBufsize)
    (head : q.head = (q.tail + k) % intqBufsize) :
    (q.head + intqBufsize - q.tail) % intqBufsize = k := by
  have htail := h.tail_lt
  simp only [intqBufsize] at *
  omega

/-- `intq_getc` takes the oldest byte. -/
theorem BytesOk.get (h : BytesOk q) (hne : q.empty = false) :
    BytesOk (q.move .getc) ∧ (q.move .getc).full = false := by
  obtain ⟨k, hk, head, bytes⟩ := h.ring
  have hpos : k ≠ 0 := by
    intro e
    have := (h.empty_iff hk head).mpr e
    rw [hne] at this
    cases this
  obtain ⟨j, rfl⟩ := Nat.exists_eq_succ_of_ne_zero hpos
  have hnext : q.head = (next q.tail + j) % intqBufsize := by
    rw [head, next, Nat.mod_add_mod]
    congr 1
    omega
  have hget : BytesOk (q.move .getc) := by
    refine ⟨Nat.mod_lt _ (by decide), j, by omega, hnext, ?_⟩
    show q.puts = (q.gets ++ [q.buf q.tail]) ++ ringList intqBufsize q.buf (next q.tail) j
    rw [bytes, ringList_succ _ _ h.tail_lt, List.append_assoc, List.singleton_append, next]
  refine ⟨hget, Bool.eq_false_iff.mpr fun e => ?_⟩
  have := (hget.full_iff (by omega) hnext).mp e
  omega

/-- `intq_putc` appends a byte. -/
theorem BytesOk.put (h : BytesOk q) (hnf : q.full = false) (byte : UInt8) :
    BytesOk (q.move (.putc byte)) ∧ (q.move (.putc byte)).empty = false := by
  obtain ⟨k, hk, head, bytes⟩ := h.ring
  have hroom : k + 1 ≠ intqBufsize := by
    intro e
    have := (h.full_iff hk head).mpr e
    rw [hnf] at this
    cases this
  have hnext : next q.head = (q.tail + (k + 1)) % intqBufsize := by
    rw [head, next, Nat.mod_add_mod, Nat.add_assoc]
  have hput : BytesOk (q.move (.putc byte)) := by
    refine ⟨h.tail_lt, k + 1, by omega, hnext, ?_⟩
    show q.puts ++ [byte] =
      q.gets ++ ringList intqBufsize (Function.update q.buf q.head byte) q.tail (k + 1)
    rw [head, ringList_update _ _ _ hk, bytes, List.append_assoc]
  refine ⟨hput, Bool.eq_false_iff.mpr fun e => ?_⟩
  have := (hput.empty_iff (by omega) hnext).mp e
  omega

/-- A call that need not wait keeps the bytes, and what it signals is true. -/
theorem BytesOk.move (h : BytesOk q) {c : Call} (hc : q.mustWait c = false) :
    BytesOk (q.move c) ∧ (q.move c).blocks c.signals = false := by
  cases c with
  | getc => exact h.get hc
  | putc byte => exact h.put hc byte

/-- The bytes do not depend on the threads. -/
theorem BytesOk.congr {q' : Intq} (h : BytesOk q) (hbuf : q'.buf = q.buf) (hhead : q'.head = q.head)
    (htail : q'.tail = q.tail) (hputs : q'.puts = q.puts) (hgets : q'.gets = q.gets) :
    BytesOk q' := by
  constructor
  · rw [htail]
    exact h.tail_lt
  · rw [hbuf, hhead, htail, hputs, hgets]
    exact h.ring

end Bytes

/-! ## The lock and the waiters -/

section Threads

variable {q : Intq} {t : ℕ} {c : Call}

/-- Only the fields about threads matter. -/
theorem ThreadsOk.move (h : ThreadsOk q) (c : Call) : ThreadsOk (q.move c) := by
  cases c with
  | getc => exact ⟨h.holder, h.value, h.waiters, h.nodup, h.waiter⟩
  | putc byte => exact ⟨h.holder, h.value, h.waiters, h.nodup, h.waiter⟩

/-- A thread in this phase neither sleeps nor has the lock. -/
def Phase.Apart : Phase → Prop
  | .free => True
  | .retrying _ => True
  | _ => False

theorem ThreadsOk.not_waiting (h : ThreadsOk q) (ht : (q.phase t).Apart) :
    t ∉ q.waiters ∧ q.holder ≠ some t ∧ ∀ w, q.waiter w ≠ some t := by
  refine ⟨fun hm => ?_, fun e => ?_, fun w e => ?_⟩
  · obtain ⟨c, hc⟩ := (h.waiters t).mp hm
    simp [hc, Phase.Apart] at ht
  · have hin := (h.holder t).mp e
    cases hp : q.phase t <;> simp_all [Phase.Apart, Phase.Inside]
  · obtain ⟨c, hc, -⟩ := (h.waiter w t).mp e
    simp [hc, Phase.Apart] at ht

/-- The thread joins those that wait for the lock. -/
theorem ThreadsOk.enqueue (h : ThreadsOk q) (ht : (q.phase t).Apart) (c : Call) :
    ThreadsOk { q with
      waiters := q.waiters ++ [t]
      phase := Function.update q.phase t (.acquiring c) } := by
  obtain ⟨hnot, hholder, hwaiter⟩ := h.not_waiting ht
  refine ⟨fun u => ?_, h.value, fun u => ?_, ?_, fun w u => ?_⟩
  · rcases eq_or_ne u t with rfl | hu
    · simpa [Phase.Inside] using hholder
    · simpa [hu] using h.holder u
  · rcases eq_or_ne u t with rfl | hu
    · simp
    · simpa [hu] using h.waiters u
  · exact h.nodup.append (List.nodup_singleton t) (by simpa using hnot)
  · rcases eq_or_ne u t with rfl | hu
    · simpa using hwaiter w
    · simpa [hu] using h.waiter w u

/-- With the lock free, nobody is in `wait`. -/
theorem ThreadsOk.alone (h : ThreadsOk q) (hfree : q.holder = none) (u : ℕ) (c : Call) :
    q.phase u ≠ .waiting c := by
  intro e
  have : q.holder = some u := (h.holder u).mpr (by rw [e]; trivial)
  rw [hfree] at this
  cases this

/-- The thread takes the lock and blocks in `wait`. -/
theorem ThreadsOk.enter (h : ThreadsOk q) (ht : (q.phase t).Apart) (hfree : q.holder = none)
    (c : Call) :
    ThreadsOk { q with
      value := 0
      holder := some t
      waiter := Function.update q.waiter c.waitsIn (some t)
      phase := Function.update q.phase t (.waiting c) } := by
  obtain ⟨hnot, -, hwaiter⟩ := h.not_waiting ht
  refine ⟨fun u => ?_, by simp, fun u => ?_, h.nodup, fun w u => ?_⟩
  · rcases eq_or_ne u t with rfl | hu
    · simp [Phase.Inside]
    · simpa [hu, hu.symm, hfree] using h.holder u
  · rcases eq_or_ne u t with rfl | hu
    · simpa using hnot
    · simpa [hu] using h.waiters u
  · rcases eq_or_ne w c.waitsIn with rfl | hw
    · rcases eq_or_ne u t with rfl | hu
      · simp
      · simp [hu, hu.symm, h.alone hfree]
    · rcases eq_or_ne u t with rfl | hu
      · simpa [hw, hw.symm] using hwaiter w
      · simpa [hw, hu] using h.waiter w u

/-- The thread recorded in a member is woken up. -/
theorem ThreadsOk.wake (h : ThreadsOk q) (ht : q.phase t = .waiting c) :
    ThreadsOk { q with
      waiter := Function.update q.waiter c.waitsIn none
      phase := Function.update q.phase t (.woken c) } := by
  have hrec : q.waiter c.waitsIn = some t := (h.waiter _ t).mpr ⟨c, ht, rfl⟩
  refine ⟨fun u => ?_, h.value, fun u => ?_, h.nodup, fun w u => ?_⟩
  · rcases eq_or_ne u t with rfl | hu
    · simpa [ht, Phase.Inside] using h.holder u
    · simpa [hu] using h.holder u
  · rcases eq_or_ne u t with rfl | hu
    · simpa [ht] using h.waiters u
    · simpa [hu] using h.waiters u
  · rcases eq_or_ne w c.waitsIn with rfl | hw
    · rcases eq_or_ne u t with rfl | hu
      · simp
      · have hother := h.waiter c.waitsIn u
        rw [hrec] at hother
        simpa [hu, hu.symm] using hother
    · rcases eq_or_ne u t with rfl | hu
      · simpa [ht, hw, hw.symm] using h.waiter w u
      · simpa [hw, hu] using h.waiter w u

/-- The thread gives the lock back. -/
theorem ThreadsOk.release (h : ThreadsOk q) (ht : q.phase t = .woken c) :
    ThreadsOk { q with
      value := 1
      holder := none
      phase := Function.update q.phase t .free } := by
  have hholder : q.holder = some t := (h.holder t).mpr (by rw [ht]; trivial)
  refine ⟨fun u => ?_, by simp, fun u => ?_, h.nodup, fun w u => ?_⟩
  · rcases eq_or_ne u t with rfl | hu
    · simp [Phase.Inside]
    · simpa [hu, hu.symm, hholder] using h.holder u
  · rcases eq_or_ne u t with rfl | hu
    · simpa [ht] using h.waiters u
    · simpa [hu] using h.waiters u
  · rcases eq_or_ne u t with rfl | hu
    · simpa [ht] using h.waiter w u
    · simpa [hu] using h.waiter w u

/-- The first thread that waits for the lock is woken up. -/
theorem ThreadsOk.dequeue {rest : List ℕ} (h : ThreadsOk q) (hw : q.waiters = t :: rest)
    (ht : q.phase t = .acquiring c) :
    ThreadsOk { q with
      waiters := rest
      phase := Function.update q.phase t (.retrying c) } := by
  have hnodup := h.nodup
  rw [hw, List.nodup_cons] at hnodup
  refine ⟨fun u => ?_, h.value, fun u => ?_, hnodup.2, fun w u => ?_⟩
  · rcases eq_or_ne u t with rfl | hu
    · simpa [ht, Phase.Inside] using h.holder u
    · simpa [hu] using h.holder u
  · rcases eq_or_ne u t with rfl | hu
    · simpa using hnodup.1
    · simpa [hw, hu] using h.waiters u
  · rcases eq_or_ne u t with rfl | hu
    · simpa [ht] using h.waiter w u
    · simpa [hu] using h.waiter w u

end Threads

/-! ## One step -/

/-- The queue is in order. -/
structure QueueOk (q : Intq) : Prop where
  bytes : BytesOk q
  threads : ThreadsOk q
  up : q.up = true

section Steps

variable {q : Intq} {t : ℕ} {c : Call} {E : Panic → Intq → Prop}

theorem ends_assert {f : Intq → Bool} (h : f q = true) :
    Ends (assert f q) (fun _ q' => q' = q) E := by
  simp [assert, h, Ends]

theorem ends_threadUnblock {p : Phase} (h : (q.phase t).unblocked = some p) :
    Ends (threadUnblock t q)
      (fun _ q' => q' = { q with phase := Function.update q.phase t p }) E := by
  simp [threadUnblock, h, goTo, Ends]

/-- `signal` wakes the thread that is recorded, if there is one. -/
theorem signal_ok (h : QueueOk q) {w : Member} (hw : q.blocks w = false) :
    Ends (signal w q) (fun _ => QueueOk) E := by
  refine (ends_assert (by simp [hw])).bind ?_
  rintro - q' rfl
  cases hrec : q'.waiter w with
  | none => simpa [Ends, hrec] using h
  | some u =>
      obtain ⟨c, hc, rfl⟩ := (h.threads.waiter w u).mp hrec
      simp only [fetch_bind, hrec]
      refine (ends_threadUnblock (by rw [hc]; rfl)).bind ?_
      rintro - q1 rfl
      exact ⟨h.bytes.congr rfl rfl rfl rfl rfl, h.threads.wake hc, h.up⟩

/-- A call that need not wait returns. -/
theorem transfer_ok (h : QueueOk q) (hc : q.mustWait c = false) :
    Ends (transfer c q) (fun _ => QueueOk) E := by
  obtain ⟨hbytes, hsignal⟩ := h.bytes.move hc
  have hup : (q.move c).up = true := by
    cases c <;> exact h.up
  exact Ends.change (signal_ok ⟨hbytes, h.threads.move c, hup⟩ hsignal)

/-- A call that takes the lock must find its condition unchanged. -/
theorem semaDown_ok (h : QueueOk q) (ht : (q.phase t).Apart)
    (hc : q.value ≠ 0 → q.mustWait c = true) : Ends (semaDown t c q) (fun _ => QueueOk) E := by
  unfold semaDown
  simp only [fetch_bind]
  refine Ends.ite (fun _ => ?_) fun hne => ?_
  · exact ⟨h.bytes.congr rfl rfl rfl rfl rfl, h.threads.enqueue ht c, h.up⟩
  · have hfree : q.holder = none := by
      by_contra hheld
      exact hne (by rw [h.threads.value, if_neg hheld])
    have hvalue : q.value - 1 = 0 := by
      rw [h.threads.value, if_pos hfree]
    simp only [change_bind, hvalue]
    refine Ends.bind (ends_assert (hc hne)) ?_
    rintro - q1 rfl
    exact ⟨h.bytes.congr rfl rfl rfl rfl rfl, h.threads.enter ht hfree c, h.up⟩

/-- A call from the test of its loop on. -/
theorem loop_ok (h : QueueOk q) (ht : q.phase t = .free) :
    Ends (loop t c q) (fun _ => QueueOk) E := by
  unfold loop
  have hapart : (q.phase t).Apart := by
    rw [ht]
    trivial
  simp only [fetch_bind]
  refine Ends.ite (fun hc => ?_) fun hc => ?_
  · refine (ends_assert (by simpa using (h.threads.not_waiting hapart).2.1)).bind ?_
    rintro - q1 rfl
    exact semaDown_ok h hapart fun _ => hc
  · exact transfer_ok h (by simpa using hc)

/-- A thread that comes back from `wait` gives the lock to the next one. -/
theorem lockRelease_ok (h : QueueOk q) (ht : q.phase t = .woken c) :
    Ends ((goTo t .free >>= fun _ => lockRelease t) q)
      (fun _ q' => QueueOk q' ∧ q'.phase t = .free) E := by
  have hholder : q.holder = some t := (h.threads.holder t).mpr (by rw [ht]; trivial)
  have hvalue : q.value = 0 := by
    rw [h.threads.value, hholder]
    rfl
  have hrel := h.threads.release ht
  have hbytes : ∀ {q'}, q'.buf = q.buf → q'.head = q.head → q'.tail = q.tail →
      q'.puts = q.puts → q'.gets = q.gets → BytesOk q' := fun e1 e2 e3 e4 e5 =>
    h.bytes.congr e1 e2 e3 e4 e5
  refine Ends.change (Ends.bind (ends_assert (by simpa using hholder)) ?_)
  rintro - q1 rfl
  refine Ends.change ?_
  cases hw : q.waiters with
  | nil =>
      simp only [semaUp, fetch_bind, change_run, hvalue]
      exact ⟨⟨hbytes rfl rfl rfl rfl rfl, hw ▸ hrel, h.up⟩, by simp⟩
  | cons u rest =>
      obtain ⟨c', hu⟩ := (h.threads.waiters u).mp (by simp [hw])
      have hut : u ≠ t := by
        rintro rfl
        rw [ht] at hu
        cases hu
      have hdeq := hrel.dequeue (c := c') hw (by simpa [hut] using hu)
      simp only [semaUp, fetch_bind]
      refine Ends.change (Ends.bind (ends_threadUnblock (p := .retrying c') ?_) ?_)
      · simp [hut, hu, Phase.unblocked]
      · rintro - q2 rfl
        simp only [change_run, hvalue]
        exact ⟨⟨hbytes rfl rfl rfl rfl rfl, hdeq, h.up⟩, by simp [hut.symm]⟩

/-- A thread that resumes in `sema_down` and gets the lock finds its condition unchanged. -/
def Careful (q : Intq) : Op → Prop
  | .resume t => ∀ c, q.phase t = .retrying c → q.value ≠ 0 → q.mustWait c = true
  | _ => True

/-- **A careful step keeps the queue in order.** -/
theorem runOp_ok {op : Op} (h : QueueOk q) (allowed : OpAllowed q op) (careful : Careful q op) :
    Ends (runOp op q) (fun _ => QueueOk) E := by
  cases op with
  | call t c => exact loop_ok h allowed.2
  | handler c =>
      refine (ends_assert (by simp [allowed.2])).bind ?_
      rintro - q1 rfl
      exact transfer_ok h allowed.2
  | resume t =>
      obtain ⟨-, c, hp | hp⟩ := allowed
      · simp only [runOp, resume, fetch_bind, hp]
        exact semaDown_ok h (by rw [hp]; trivial) (careful c hp)
      · simp only [runOp, resume, fetch_bind, hp]
        have hrel : Ends _ _ E := lockRelease_ok h hp
        rw [← bind_assoc]
        exact hrel.bind fun _ q' hq' => loop_ok hq'.1 hq'.2

end Steps

/-! ## Whole runs -/

/-- What the queue promises: the bytes returned are a prefix of those put and the rest is
in the queue, which has room for it; a thread blocked in `wait` is recorded in the member
it waits in; and no assertion has failed. -/
structure IntqOk (q : Intq) : Prop where
  bytes : q.puts = q.gets ++ q.held
  room : q.held.length ≤ intqBufsize - 1
  recorded : ∀ t c, q.phase t = .waiting c → q.waiter c.waitsIn = some t
  up : q.up = true

theorem QueueOk.intqOk {q : Intq} (h : QueueOk q) : IntqOk q := by
  obtain ⟨k, hk, head, bytes⟩ := h.bytes.ring
  have hheld : q.held = ringList intqBufsize q.buf q.tail k := by
    rw [Intq.held, h.bytes.count_eq hk head]
  refine ⟨hheld ▸ bytes, ?_, fun t c e => (h.threads.waiter _ t).mpr ⟨c, e, rfl⟩, h.up⟩
  rw [hheld, length_ringList]
  omega

theorem queueOk_init (buf : ℕ → UInt8) : QueueOk (intqInit buf) := by
  refine ⟨⟨Nat.zero_lt_succ 63, 0, Nat.zero_lt_succ 63, rfl, rfl⟩, ⟨?_, rfl, ?_, List.nodup_nil, ?_⟩, rfl⟩
  · intro t
    simp [intqInit, Phase.Inside]
  · intro t
    simp [intqInit]
  · intro w t
    simp [intqInit]

theorem QueueOk.step {q : Intq} {op : Op} (h : QueueOk q) (allowed : OpAllowed q op)
    (careful : Careful q op) : QueueOk (afterOp q op) := by
  have hrun : Ends (runOp op q) (fun _ => QueueOk) fun _ _ => False := runOp_ok h allowed careful
  unfold afterOp
  cases e : runOp op q with
  | ok u q' =>
      rw [e] at hrun
      exact hrun
  | error x q' =>
      rw [e] at hrun
      exact hrun.elim

/-- A step that is not careful fails the assertion of `wait`. -/
theorem careful_of_up {q : Intq} {op : Op} (h : (afterOp q op).up = true) : Careful q op := by
  cases op with
  | call t c => trivial
  | handler c => trivial
  | resume t =>
      intro c hp hvalue
      by_contra hc
      have hblocks : q.blocks c.waitsIn = false := Bool.eq_false_iff.mpr hc
      have hstop : ∃ q', runOp (.resume t) q = .error .assertFailed q' := by
        refine ⟨{ q with value := q.value - 1, holder := some t }, ?_⟩
        simp only [runOp, resume, fetch_bind, hp, semaDown, if_neg hvalue, change_bind]
        refine bind_of_error ?_
        simp only [assert, fetch_bind]
        exact congrArg (fun b => (if b = true then pure () else stop Panic.assertFailed) _) hblocks
      obtain ⟨q', e⟩ := hstop
      rw [afterOp, e] at h
      cases h

/-- **A run of any threads and interrupt handlers is safe in every state if and only if
every thread that had to wait for the lock still has to wait when it gets it.** -/
theorem intqOk_iff (buf : ℕ → UInt8) (ops : List Op)
    (allowed : Along afterOp OpAllowed (intqInit buf) ops) :
    Always afterOp IntqOk (intqInit buf) ops ↔ Along afterOp Careful (intqInit buf) ops := by
  constructor
  · intro h
    exact Along.of_always (fun q op _ h' => careful_of_up h'.up) ops _ allowed h
  · intro careful
    have hinv : Always afterOp QueueOk (intqInit buf) ops :=
      Always.of_along (fun q op hq hop => hq.step hop.1 hop.2) ops _ (queueOk_init buf)
        (Along.and ops _ allowed careful)
    exact Always.mono (fun q hq => hq.intqOk) ops _ hinv

/-- A thread waits for a byte, a second one for the lock; the byte comes and the first
thread returns, so that the second one has to wait in its turn. -/
def oneByte : List Op :=
  [.call 1 .getc, .call 2 .getc, .handler (.putc 0x61), .resume 1, .resume 2]

theorem intqOk_of_one_byte :
    Along afterOp OpAllowed (intqInit fun _ => 0) oneByte ∧
      Always afterOp IntqOk (intqInit fun _ => 0) oneByte := by
  have allowed : Along afterOp OpAllowed (intqInit fun _ => 0) oneByte :=
    ⟨⟨rfl, rfl⟩, ⟨rfl, rfl⟩, ⟨rfl, rfl⟩, ⟨rfl, .getc, .inr rfl⟩, ⟨rfl, .getc, .inl rfl⟩, trivial⟩
  refine ⟨allowed, (intqOk_iff _ _ allowed).mpr ⟨trivial, trivial, trivial, ?_, ?_, trivial⟩⟩
  · intro c e
    cases e
  · intro c e _
    cases e
    rfl

/-- With a second byte before the first thread runs, the second thread fails the assertion
of `wait`. -/
theorem intq_fails_after_two_bytes :
    ¬ ∀ (buf : ℕ → UInt8) (ops : List Op), Along afterOp OpAllowed (intqInit buf) ops →
      Always afterOp IntqOk (intqInit buf) ops := by
  intro claim
  have h := claim (fun _ => 0) [.call 1 .getc, .call 2 .getc, .handler (.putc 0x61),
    .handler (.putc 0x62), .resume 1, .resume 2]
    ⟨⟨rfl, rfl⟩, ⟨rfl, rfl⟩, ⟨rfl, rfl⟩, ⟨rfl, rfl⟩, ⟨rfl, .getc, .inr rfl⟩,
      ⟨rfl, .getc, .inl rfl⟩, trivial⟩
  exact Bool.false_ne_true h.2.2.2.2.2.2.up

end Pintos.Devices
