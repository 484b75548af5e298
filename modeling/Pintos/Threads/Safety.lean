import Pintos.Threads.Runs
import Pintos.Threads.Semaphores

/-!
# Safety of semaphores and locks

`Interleaved` is a run of the kernel in which, between any two steps, any ready thread may
be switched to: every order in which the scheduler could run the threads.  In such a run
the downs of a semaphore are covered by its initial value and the ups, no wake-up is lost,
and a lock has at most one thread inside.
-/

namespace Pintos.Threads

open Lib Sched

variable {s s' : Sched} {t : ThreadPtr} {main : ThreadPtr} {value : ℕ → ℕ}

/-! ## Interleavings -/

/-- A switch to the ready thread `t`, as a scheduler could make it. -/
def switchTo (s : Sched) (t : ThreadPtr) : Sched :=
  switchThreads { makeReady s with readyList := (makeReady s).readyList.erase t } t

/-- A step of the kernel, or a switch to some ready thread. -/
inductive Move (s : Sched) : Sched → Prop where
  | step {s' : Sched} {e : Event} : Allowed s e → step s e = .ok s' → Move s s'
  | switch {t : ThreadPtr} : t ∈ s.readyList → Move s (switchTo s t)

/-- **Any interleaving of the threads.** -/
inductive Interleaved (s₀ : Sched) : Sched → Prop where
  | start : Interleaved s₀ s₀
  | move {s s' : Sched} : Interleaved s₀ s → Move s s' → Interleaved s₀ s'

theorem switchTo_spec (h : Lists none s) (ho : OnlyRunning s) (ht : t ∈ s.readyList) :
    Lists none (switchTo s t) ∧ OnlyRunning (switchTo s t) ∧ sync (switchTo s t) = sync s := by
  obtain ⟨h1, h2, h3, h4⟩ := makeReady_spec h ho
  have ht' : t ∈ (makeReady s).readyList := by
    unfold makeReady
    split
    · exact mem_enqueue.mpr (.inr ht)
    · exact ht
  have hst := (h1.ready_status ht').2
  have hlive : (makeReady s).statusOf (makeReady s).running ≠ some .dying := by
    rw [makeReady_running, h4]
    simp
  have hnext : (makeReady s).statusOf t ≠ some .blocked := by simp [hst]
  obtain ⟨h5, h6, h7, -⟩ := switchThreads_spec (h1.eraseReady ht') h2 (isSome_of_statusOf _ hst)
    (fun hd => absurd hd hlive) fun _ => hnext
  refine ⟨h5, h6, h7.trans ?_⟩
  rw [← h3]
  exact (sync_of_threads rfl rfl).trans rfl

/-! ## The invariant -/

/-- Semaphores, locks and sleepers. -/
structure SyncOk (init : SemaId → ℕ) (m : Sync) : Prop where
  sema : ∀ x, Sync.SemaOk (init x) m x
  woken : Sync.WokenOk m
  lock : ∀ l, Sync.LockOk m l
  sleepers : Sync.SleepersOk m

/-- The initial values of the semaphores. -/
def initial (value : ℕ → ℕ) : SemaId → ℕ
  | .user i => value i
  | .ofLock _ => 1
  | .sleep _ => 0
  | .idleStarted => 0

theorem SyncOk.start (main : ThreadPtr) (value : ℕ → ℕ) :
    SyncOk (initial value) (sync (start main value)) := by
  have hcalm : ∀ t, Sync.Calm ((Threads.start main value).frames t) := by
    intro t
    rw [frames_start]
    split
    · exact Sync.Calm.cons id
    · exact Sync.Calm.nil
  refine ⟨fun x => ⟨?_, fun hne => absurd (waiters_start main value x) hne⟩,
    ⟨fun x t => ?_, fun _ => List.nodup_nil⟩, fun l => ?_, ⟨fun t => ?_, List.nodup_nil⟩⟩
  · cases x <;> exact le_rfl
  · exact iff_of_false List.not_mem_nil fun hb => (hcalm t).again x hb.2
  · exact .free rfl rfl rfl fun t => (hcalm t).tok l
  · exact .awake rfl List.not_mem_nil

theorem SyncOk.wake {init : SemaId → ℕ} (h : SyncOk init (sync s)) (hs : Sound s)
    (ht : t ∈ s.waitList) : SyncOk init ((sync s).wake t) where
  sema x := (h.sema x).wake
  woken := h.woken.wake hs.lists.waitOk
  lock l := (h.lock l).wake
  sleepers := h.sleepers.wake ht

theorem SyncOk.transition (h : SyncOk (initial value) (sync s)) (hs : Sound s)
    (ht : Transition s s') : SyncOk (initial value) (sync s') := by
  refine ht.preserves h (fun hstep => ?_) fun r t hr hm hP => hP.wake hr hm
  refine ⟨fun x => (h.sema x).step ?_ hs.shape hs.create hstep,
    h.woken.step hs.shape hs.create hs.lists.waitOk hs.only.awake hstep,
    fun l => (h.lock l).step hs.shape hs.create hstep, h.sleepers.step hs.shape hs.create hstep⟩
  rintro v rfl
  rfl

theorem Interleaved.sound (h : Interleaved (Threads.start main value) s) :
    Sound s ∧ SyncOk (initial value) (sync s) := by
  induction h with
  | start => exact ⟨Sound.start main value, SyncOk.start main value⟩
  | move _ hm ih =>
      obtain ⟨h1, h2⟩ := ih
      cases hm with
      | step ha hs =>
          have ht := h1.transition ha hs
          exact ⟨(ht.sound h1).1, h2.transition h1 ht⟩
      | switch ht =>
          obtain ⟨h3, h4, h5⟩ := switchTo_spec h1.lists h1.only ht
          exact ⟨h1.of_sync h3 h4 h5, h5 ▸ h2⟩

/-- A run of the kernel is one of its interleavings. -/
theorem Reach.interleaved {s₀ : Sched} (h : Reach s₀ s) : Interleaved s₀ s := by
  induction h with
  | start => exact .start
  | step _ ha hs ih => exact ih.move (.step ha hs)

/-! ## Safety -/

/-- **Safety of the semaphores and locks.** -/
structure SyncSafe (value : ℕ → ℕ) (s : Sched) : Prop where
  /-- The completed downs do not exceed the initial value and the ups. -/
  downs : ∀ x, s.history.downs x ≤ initial value x + s.history.ups x
  /-- A down is completed only where the value is above zero. -/
  positive : ∀ s', Move s s' → ∀ x, s.history.downs x < s'.history.downs x →
    0 < (s.semas x).value
  /-- No wake-up is lost: some thread has been woken and will test the value again. -/
  noLostWakeup : ∀ x, 0 < (s.semas x).value → (s.semas x).waiters ≠ [] →
    ∃ t ∈ s.history.woken x, t ∉ (s.semas x).waiters ∧ s.statusOf t ≠ some .blocked ∧
      (s.frames t).head? = some (.semaDownAgain x)
  /-- The threads inside a lock are its holder. -/
  exclusion : ∀ l, s.history.inside l = (s.holder l).toList

theorem inside_of_lockOk {l : LockId} (h : Sync.LockOk (sync s) l) :
    s.history.inside l = (s.holder l).toList := by
  cases h with
  | free _ h2 h3 =>
      rw [show s.holder l = none from h2]
      exact h3
  | held t _ h2 h3 =>
      rw [show s.holder l = some t from h2]
      exact h3
  | between t _ h2 h3 =>
      rw [show s.holder l = none from h2]
      exact h3

/-- A move completes a down only where the value is above zero. -/
theorem Move.positive (h : Move s s') (hs : Sound s) (x : SemaId) :
    s'.history.downs x ≤ s.history.downs x ∨ 0 < (s.semas x).value := by
  cases h with
  | step ha hs' =>
      have ht := hs.transition ha hs'
      exact ht.preserves (P := fun m => m.downs x ≤ s.history.downs x ∨ 0 < (s.semas x).value)
        (.inl le_rfl) (fun hstep => hstep.downs hs.shape hs.create x) fun r t _ _ hP => by
          rw [Sync.wake, Sync.up_downs]
          exact hP
  | switch ht =>
      obtain ⟨-, -, h3⟩ := switchTo_spec hs.lists hs.only ht
      have hdowns : (switchTo s _).history.downs = s.history.downs := congrArg Sync.downs h3
      exact .inl (by rw [hdowns])

/-- **Semaphores and locks are safe in every interleaving.** -/
theorem syncSafe_of_interleaved (h : Interleaved (start main value) s) : SyncSafe value s := by
  obtain ⟨hs, hok⟩ := h.sound
  refine ⟨fun x => ?_, fun s' hm x hlt => ?_, fun x hpos hne => ?_, fun l => inside_of_lockOk (hok.lock l)⟩
  · exact (Nat.le_add_left _ _).trans (hok.sema x).count
  · exact (hm.positive hs x).resolve_left (not_le.mpr hlt)
  · have hlen : 0 < (s.history.woken x).length := hpos.trans_le ((hok.sema x).woken hne)
    obtain ⟨t, ht⟩ := List.exists_mem_of_length_pos hlen
    obtain ⟨hawake, hagain⟩ := (hok.woken.mem x t).mp ht
    have hblocked : s.statusOf t ≠ some .blocked := fun hb =>
      hawake ⟨hb, fun hi => hs.lists.idleAwake t hi x hagain⟩
    exact ⟨t, ht, fun hm => hblocked (hs.lists.waiter_status hm).2.1, hblocked, hagain⟩

/-- A thread blocks on a lock that the initial thread holds, and two more threads are
created, one of which is switched to out of turn. -/
theorem syncSafe_after_contention : ∃ s, Interleaved (start 0 fun _ => 0) s ∧
    s.running = 4 ∧ s.holder (.user 0) = some 0 ∧ (s.semas (.ofLock (.user 0))).waiters = [2] ∧
    SyncSafe (fun _ => 0) s := by
  have hrun : (run (start 0 fun _ => 0) (boot ++ [.call (.lockAcquire 0)] ++
      List.replicate 3 (.run none 0) ++ createEvents 40 2 ++
      [.run none 0, .call (.lockAcquire 0), .run none 0, .run none 0] ++
      createEvents 31 3 ++ createEvents 20 4)).map (fun s => (s.readyList, (switchTo s 4).running,
        (switchTo s 4).holder (.user 0), ((switchTo s 4).semas (.ofLock (.user 0))).waiters)) =
      some ([3, 4], 4, some 0, [2]) := by decide +kernel
  obtain ⟨s, hs, e⟩ := Option.map_eq_some_iff.mp hrun
  simp only [Prod.mk.injEq] at e
  obtain ⟨e1, e2, e3, e4⟩ := e
  have hi : Interleaved (start 0 fun _ => 0) (switchTo s 4) :=
    (Reach.start.run hs).interleaved.move (.switch (by rw [e1]; decide))
  exact ⟨_, hi, e2, e3, e4, syncSafe_of_interleaved hi⟩

end Pintos.Threads
