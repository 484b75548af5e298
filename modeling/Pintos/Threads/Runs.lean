import Pintos.Threads.Steps

/-!
# Timer ticks and runs of the kernel

A timer tick is a sequence of wake-ups (`Wakes`), each of which keeps the kernel sound,
and perhaps a yield.  With the steps of the running thread this gives `Sound.step`, and
by induction `Reach.sound`: every reachable state is sound and the right thread runs in it.
-/

namespace Pintos.Threads

open Lib Sched

variable {s s' : Sched} {t : ThreadPtr}

/-! ## Timer ticks -/

theorem Sound.of_stepped (h : Sound s) (hs : Stepped s s') : Sound s' where
  lists := hs.lists
  only := hs.only
  shape := h.shape.step hs.step
  idle := h.idle.step h.shape hs.step
  create := h.create.step h.shape h.lists.waitOk h.only.awake hs.step

/-- The wake-ups of a timer interrupt, one sleeper after the other. -/
inductive Wakes : Sched → Sched → Prop where
  | refl (s : Sched) : Wakes s s
  | look {s r s' : Sched} : Lists none r → OnlyRunning r → (RunsTop s → RunsTop r) →
      sync r = sync s → Wakes r s' → Wakes s s'
  | wake {s r s' : Sched} (t : ThreadPtr) : t ∈ s.waitList → Lists none r → OnlyRunning r →
      (RunsTop s → RunsTop r) → sync r = (sync s).wake t → Wakes r s' → Wakes s s'

theorem Sound.of_sync (h : Sound s) (hlists : Lists none s') (honly : OnlyRunning s')
    (hsync : sync s' = sync s) : Sound s' :=
  ⟨hlists, honly, hsync ▸ h.shape, hsync ▸ h.idle, hsync ▸ h.create⟩

theorem Sound.of_wake (h : Sound s) (hlists : Lists none s') (honly : OnlyRunning s')
    (hsync : sync s' = (sync s).wake t) : Sound s' :=
  ⟨hlists, honly, hsync ▸ h.shape.wake, hsync ▸ h.idle.wake,
    hsync ▸ h.create.wake h.lists.waitOk⟩

theorem Wakes.sound (hw : Wakes s s') (h : Sound s) : Sound s' := by
  induction hw with
  | refl s => exact h
  | look hlists honly _ hsync _ ih => exact ih (h.of_sync hlists honly hsync)
  | wake t _ hlists honly _ hsync _ ih => exact ih (h.of_wake hlists honly hsync)

theorem Wakes.runsTop (hw : Wakes s s') (h : RunsTop s) : RunsTop s' := by
  induction hw with
  | refl s => exact h
  | look _ _ htop _ _ ih => exact ih (htop h)
  | wake t _ _ _ htop _ _ ih => exact ih (htop h)

/-- The loop of the timer interrupt. -/
theorem wakeLoop_wakes (l : List ThreadPtr) (h : Sound s) (hl : s.waitList = l)
    (hs : wakeLoop l s = .ok s') : Wakes s s' := by
  induction l generalizing s with
  | nil =>
      cases hs
      exact .refl _
  | cons t rest ih =>
      have hnode : Sound (s.listEntry [.node t]) := h.of_sync (h.lists.listEntry _) h.only rfl
      refine .look hnode.lists hnode.only (fun ht => ht) rfl ?_
      unfold wakeLoop at hs
      simp only at hs
      split at hs
      · cases hr : semaUp true { s.listEntry [.node t] with
            waitList := (s.listEntry [.node t]).waitList.erase t } (.sleep t) with
        | error e =>
            rw [hr] at hs
            cases hs
        | ok r =>
            rw [hr] at hs
            have hlists : Lists none { s.listEntry [.node t] with
                waitList := (s.listEntry [.node t]).waitList.erase t } :=
              hnode.lists.values rfl (fun _ => rfl) rfl rfl rfl rfl
            obtain ⟨h1, h2, h3, h4⟩ := semaUp_spec hlists h.only hr
            have htop : RunsTop (s.listEntry [.node t]) → RunsTop r := by
              rcases h3 with h3 | rfl
              · exact fun _ => .inr h3
              · exact fun ht => ht
            have hsync : sync r = (sync (s.listEntry [.node t])).wake t := h4
            refine .wake t (by simp [show (s.listEntry [.node t]).waitList = _ from hl]) h1 h2 htop
              hsync (ih (hnode.of_wake h1 h2 hsync) ?_ hs)
            have hwait : r.waitList = (sync r).waitList := rfl
            rw [hwait, hsync, Sync.wake, Sync.up_waitList]
            show s.waitList.erase t = rest
            rw [hl, List.erase_cons_head]
      · cases hs
        exact .refl _

theorem timerInterrupt_wakes (h : Sound s) (hs : timerInterrupt s = .ok s') :
    ∃ r, Sound r ∧ sync r = sync s ∧ (RunsTop s → RunsTop r) ∧ Wakes r s' := by
  obtain ⟨th, -, hcur⟩ := threadCurrent_ok h.only
  unfold timerInterrupt at hs
  rw [hcur] at hs
  set r : Sched := { s with ticks := s.ticks + 1, threadTicks := s.threadTicks + 1 } with hr
  have hlists : Lists none r := h.lists.values rfl (fun _ => rfl) rfl rfl rfl rfl
  have hsound : Sound r := h.of_sync hlists h.only rfl
  exact ⟨r, hsound, rfl, fun ht => ht, wakeLoop_wakes r.waitList hsound rfl hs⟩

/-- A timer tick: the handler, and perhaps a yield. -/
theorem tick_wakes (h : Sound s) (hs : tick s = .ok s') :
    ∃ r r', Sound r ∧ sync r = sync s ∧ Wakes r r' ∧ Sound s' ∧ sync s' = sync r' ∧
      (RunsTop s → RunsTop s') := by
  unfold tick at hs
  cases hr : timerInterrupt s with
  | error e =>
      rw [hr] at hs
      cases hs
  | ok r' =>
      rw [hr] at hs
      obtain ⟨r, h1, h2, h3, h4⟩ := timerInterrupt_wakes h hr
      have h5 : Sound r' := h4.sound h1
      have hs' : (if timeSlice ≤ r'.threadTicks then threadYield false r' else .ok r') = .ok s' := hs
      split at hs'
      · obtain ⟨h6, h7⟩ := threadYield_spec h5.lists h5.only hs'
        exact ⟨r, r', h1, h2, h4, h5.of_sync h6.lists h6.only h7, h7, fun _ => .inr h6.top⟩
      · cases hs'
        exact ⟨r, _, h1, h2, h4, h5, rfl, fun ht => h4.runsTop (h3 ht)⟩

/-! ## Runs -/

theorem frames_start (main : ThreadPtr) (value : ℕ → ℕ) (t : ThreadPtr) :
    (start main value).frames t =
      if t = main then [.threadCreate priMin true, .semaDown .idleStarted] else [] := by
  by_cases e : t = main
  · subst e
    simp [start, frames]
  · simp [start, frames, e]

theorem statusOf_start (main : ThreadPtr) (value : ℕ → ℕ) (t : ThreadPtr) :
    (start main value).statusOf t = if t = main then some .running else none := by
  by_cases e : t = main
  · subst e
    simp [start, statusOf]
  · simp [start, statusOf, e]

theorem waiters_start (main : ThreadPtr) (value : ℕ → ℕ) (x : SemaId) :
    ((start main value).semas x).waiters = [] := by
  cases x <;> rfl

theorem Sound.start (main : ThreadPtr) (value : ℕ → ℕ) : Sound (start main value) := by
  have hframes : ∀ t f, f ∈ (Threads.start main value).frames t →
      t = main ∧ (f = .threadCreate priMin true ∨ f = .semaDown .idleStarted) := by
    intro t f hf
    rw [frames_start] at hf
    split at hf
    · next e => exact ⟨e, by simpa using hf⟩
    · simp at hf
  have hlists : Lists none (Threads.start main value) := by
    refine ⟨by simp, fun t _ => ?_, fun x t _ => ?_, Queued.nil, fun x => ?_, fun t ht => ?_,
      fun x t ht => ?_, fun i hi => ?_⟩
    · rw [statusOf_start]
      refine iff_of_false List.not_mem_nil fun h => ?_
      split at h <;> simp at h
    · rw [waiters_start, statusOf_start]
      refine iff_of_false List.not_mem_nil fun h => ?_
      split at h <;> simp at h
    · rw [waiters_start]
      exact Queued.nil
    · exact absurd ht List.not_mem_nil
    · rw [waiters_start] at ht
      exact absurd ht List.not_mem_nil
    · cases hi
  refine ⟨hlists, fun t => ?_, fun t => ?_, ⟨fun t f hf _ => rfl, fun t u f g hf _ hg _ => ?_,
    fun i hi => ?_, fun t ht => ?_⟩, ⟨fun t u ht => ?_, fun t u v ht _ => ?_⟩⟩
  · rw [statusOf_start]
    show _ ↔ t = main
    split <;> simp [*]
  · show Good t ((Threads.start main value).frames t)
    rw [frames_start]
    split
    · exact ⟨rfl, by simp [Follows, AfterDown, Plain], trivial⟩
    · trivial
  · rw [(hframes t f hf).1, (hframes u g hg).1]
  · cases hi
  · rcases (hframes t _ ht).2 with e | e <;> cases e
  · rcases (hframes t _ ht).2 with e | e <;> cases e
  · rcases (hframes t _ ht).2 with e | e <;> cases e

/-- **What an event can do**: nothing, a step of the running thread, or a timer tick. -/
inductive Transition (s s' : Sched) : Prop where
  | stay : s' = s → Transition s s'
  | stepped : Stepped s s' → Transition s s'
  | ticked (r r' : Sched) : Sound r → sync r = sync s → Wakes r r' → sync s' = sync r' →
      Sound s' → (RunsTop s → RunsTop s') → Transition s s'

theorem Sound.transition (h : Sound s) {e : Event} (ha : Allowed s e) (hs : step s e = .ok s') :
    Transition s s' := by
  cases e with
  | call c =>
      cases hs
      have hframes : s.frames s.running = [] := ha
      have hidle : s.idleThread ≠ some s.running := by
        intro hi
        have hcases : s.frames s.running = [.idleBlock] ∨
            s.frames s.running = [.semaUp .idleStarted, .idleBlock] := h.idle.idle s.running hi
        simp [hframes] at hcases
      have hk : Keeps s (s.push c.frames) := Keeps.push h.lists h.only fun hi => absurd hi hidle
      have hsync : sync (s.push c.frames) = (sync s).put s.running c.frames := by
        rw [Pintos.Threads.sync_push h.only.isSome, hframes, List.append_nil]
      exact .stepped ⟨hk.lists, hk.only, hsync ▸ Sync.Step.call c hframes, fun ht =>
        .inr (hk.top (ht.resolve_left (by simp [hframes])))⟩
  | run page junk =>
      unfold Threads.step at hs
      cases hf : s.frames s.running with
      | nil =>
          rw [hf] at hs
          cases hs
          exact .stay rfl
      | cons f rest =>
          rw [hf] at hs
          exact .stepped (runFrame_spec h hf ha hs)
  | tick =>
      obtain ⟨r, r', h1, h2, h3, h4, h5, h6⟩ := tick_wakes h hs
      exact .ticked r r' h1 h2 h3 h5 h4 h6

theorem Transition.sound (ht : Transition s s') (h : Sound s) :
    Sound s' ∧ (RunsTop s → RunsTop s') := by
  cases ht with
  | stay e =>
      subst e
      exact ⟨h, id⟩
  | stepped hs => exact ⟨h.of_stepped hs, hs.top⟩
  | ticked _ _ _ _ _ _ h1 h2 => exact ⟨h1, h2⟩

theorem Wakes.preserves {P : Sync → Prop} (hw : Wakes s s') (h : Sound s) (hP : P (sync s))
    (hwake : ∀ r t, Sound r → t ∈ r.waitList → P (sync r) → P ((sync r).wake t)) : P (sync s') := by
  induction hw with
  | refl s => exact hP
  | look hlists honly _ hsync _ ih => exact ih (h.of_sync hlists honly hsync) (hsync ▸ hP)
  | wake t ht hlists honly _ hsync _ ih =>
      exact ih (h.of_wake hlists honly hsync) (hsync ▸ hwake _ t h ht hP)

/-- What the steps and the wake-ups of `Sync` preserve, every event preserves. -/
theorem Transition.preserves {P : Sync → Prop} (ht : Transition s s') (hP : P (sync s))
    (hstep : Sync.Step (sync s) s.running (sync s') → P (sync s'))
    (hwake : ∀ r t, Sound r → t ∈ r.waitList → P (sync r) → P ((sync r).wake t)) : P (sync s') := by
  cases ht with
  | stay e => exact e ▸ hP
  | stepped hs => exact hstep hs.step
  | ticked r r' h1 h2 h3 h4 => exact h4 ▸ h3.preserves h1 (h2 ▸ hP) hwake

/-- **A step keeps the kernel sound.** -/
theorem Sound.step (h : Sound s) {e : Event} (ha : Allowed s e) (hs : step s e = .ok s') :
    Sound s' ∧ (RunsTop s → RunsTop s') := (h.transition ha hs).sound h

/-- **Every reachable state is sound.** -/
theorem Reach.sound {main : ThreadPtr} {value : ℕ → ℕ} (h : Reach (Threads.start main value) s) :
    Sound s ∧ RunsTop s := by
  induction h with
  | start => exact ⟨Sound.start main value, .inr (.inr fun t ht => absurd ht List.not_mem_nil)⟩
  | step _ ha hs ih =>
      obtain ⟨h1, h2⟩ := ih.1.step ha hs
      exact ⟨h1, h2 ih.2⟩

/-- The events of `thread_start` in which the idle thread gets page 1. -/
def boot : List Event := .run (some 1) 0 :: List.replicate 13 (.run none 0)

/-- The events of a `thread_create` in which the new thread gets page `t`. -/
def createEvents (priority : ℤ) (t : ThreadPtr) : List Event :=
  [.call (.threadCreate priority), .run (some t) 0] ++ List.replicate 7 (.run none 0)

end Pintos.Threads
