import Pintos.Threads.Waiting

/-!
# Locks and sleepers

Over `Sync`, and again for every order in which the threads run:

* `LockOk` — a lock is free, or held by one thread, or on its way between the two.
* `SleepOk` — a thread in `timer_sleep`, its semaphore and the list of sleepers.

A step changes what one thread has to do next, so the invariants are about the first frame
of the threads' work, and most steps neither start nor end there (`Quiet`).
-/

namespace Pintos.Threads

namespace Sync

variable {s s' : Sync} {u t : ThreadPtr} {x : SemaId} {l : LockId}

/-! ## The first frames -/

/-- The thread has taken the semaphore of `l` without being its holder yet, or has given up
being its holder without having raised the semaphore. -/
def Tok (l : LockId) (fs : List Frame) : Prop :=
  fs.head? = some (.setHolder l) ∨ fs.head? = some (.semaUp (.ofLock l))

/-- The thread is in the loop of the `sema_down` of `x`. -/
def Again (x : SemaId) (fs : List Frame) : Prop := fs.head? = some (.semaDownAgain x)

/-- The thread is in the `sema_down` of its `timer_sleep`. -/
def Sleeping (t : ThreadPtr) (fs : List Frame) : Prop :=
  ∃ f, fs.head? = some f ∧ Downs (.sleep t) f

theorem Plain.not_tok {fs : List Frame} (h : Plain fs) : ¬ Tok l fs := by
  rintro (e | e)
  · exact h _ e trivial
  · exact h _ e trivial

theorem Plain.not_again {fs : List Frame} (h : Plain fs) : ¬ Again x fs := fun e => h _ e trivial

theorem Plain.not_sleeping {fs : List Frame} (h : Plain fs) : ¬ Sleeping t fs := by
  rintro ⟨f, e, rfl | rfl⟩
  · exact h _ e trivial
  · exact h _ e trivial

/-- None of the first frames above. -/
structure Calm (fs : List Frame) : Prop where
  tok : ∀ l, ¬ Tok l fs
  again : ∀ x, ¬ Again x fs
  sleeping : ∀ t, ¬ Sleeping t fs

theorem Calm.of_plain {fs : List Frame} (h : Plain fs) : Calm fs :=
  ⟨fun _ => Plain.not_tok h, fun _ => Plain.not_again h, fun _ => Plain.not_sleeping h⟩

theorem Calm.nil : Calm [] := Calm.of_plain (by simp [Plain])

/-- The first frames above. -/
def Loud : Frame → Prop
  | .setHolder _ | .semaUp (.ofLock _) | .semaDownAgain _ | .semaDown (.sleep _) => True
  | _ => False

theorem Calm.cons {f : Frame} {fs : List Frame} (h : ¬ Loud f) : Calm (f :: fs) := by
  refine ⟨fun l hl => ?_, fun x hx => ?_, fun t ht => ?_⟩
  · rcases hl with e | e
    · exact h (Option.some.inj e ▸ trivial)
    · exact h (Option.some.inj e ▸ trivial)
  · exact h (Option.some.inj hx ▸ trivial)
  · obtain ⟨g, hg, rfl | rfl⟩ := ht
    · exact h (Option.some.inj hg ▸ trivial)
    · exact h (Option.some.inj hg ▸ trivial)

theorem Calm.first (idle : Bool) : Calm (firstFrames idle) := by
  cases idle with
  | true => exact Calm.cons id
  | false => exact Calm.cons id

theorem Calm.move {f : Frame} {new rest : List Frame} (h : Good u (f :: rest))
    (hm : Moves u f new) : Calm (f :: rest) ∧ Calm (new ++ rest) := by
  have hrest : f ≠ .insertSleeper → (∀ l, ¬ Downs (.ofLock l) f) → Calm rest :=
    fun h1 h2 => Calm.of_plain (h.plain h2 h1)
  cases hm with
  | setPriority =>
      exact ⟨Calm.cons id, Calm.cons id⟩
  | lockAcquire =>
      exact ⟨Calm.cons id, Calm.cons id⟩
  | computeWakeup =>
      exact ⟨Calm.cons id, Calm.cons id⟩
  | idleBlock =>
      exact ⟨Calm.cons id, Calm.cons id⟩
  | _ =>
      exact ⟨Calm.cons id, hrest (by simp) (by simp [Downs])⟩

theorem Calm.call (c : Call) : Calm c.frames := by
  cases c with
  | timerSleep n =>
      simp only [Call.frames]
      split
      · exact Calm.cons id
      · exact Calm.nil
  | _ => exact Calm.cons id

/-! ## Quiet steps -/

/-- **A quiet step**: the first frames stay calm where they change, and the semaphores,
locks and sleepers are left alone. -/
structure Quiet (s s' : Sync) : Prop where
  frames : ∀ t, s'.frames t = s.frames t ∨ (Calm (s.frames t) ∧ Calm (s'.frames t))
  asleep : ∀ t, Calm (s.frames t) ∨ (s'.asleep t ↔ s.asleep t)
  semas : s'.semas = s.semas
  holder : s'.holder = s.holder
  waitList : s'.waitList = s.waitList
  downs : s'.downs = s.downs
  ups : s'.ups = s.ups
  woken : s'.woken = s.woken
  inside : s'.inside = s.inside

theorem calm_put {fs : List Frame} (h : Calm (s.frames u)) (hfs : Calm fs) (t : ThreadPtr) :
    (s.put u fs).frames t = s.frames t ∨ (Calm (s.frames t) ∧ Calm ((s.put u fs).frames t)) := by
  by_cases e : t = u
  · subst e
    rw [put_frames_self]
    exact .inr ⟨h, hfs⟩
  · exact .inl (put_frames_of_ne e)

/-- A step is quiet or active. -/
theorem Step.quiet (h : Step s u s') (hshape : Shape s) (hc : CreateOk s) :
    Quiet s s' ∨ Active s u s' := by
  have hcalm : ∀ {f rest}, s.frames u = f :: rest → ¬ Loud f → Calm (s.frames u) :=
    fun hf h => hf ▸ Calm.cons h
  have hplain : ∀ {f rest}, s.frames u = f :: rest → (∀ l, ¬ Downs (.ofLock l) f) →
      f ≠ .insertSleeper → Calm rest :=
    fun hf h1 h2 => Calm.of_plain ((hshape.cons hf).plain h1 h2)
  cases h with
  | move hf hm =>
      obtain ⟨h1, h2⟩ := Calm.move (hshape.cons hf) hm
      rw [← hf] at h1
      exact .inl ⟨calm_put h1 h2, fun _ => .inr Iff.rfl, rfl, rfl, rfl, rfl, rfl, rfl, rfl⟩
  | call c hf =>
      exact .inl ⟨calm_put (hf ▸ Calm.nil) (Calm.call c), fun _ => .inr Iff.rfl, rfl, rfl, rfl, rfl,
        rfl, rfl, rfl⟩
  | setIdle hf =>
      have h1 := hcalm hf id
      have h2 := hplain hf (by simp [Downs]) (by simp)
      exact .inl ⟨calm_put h1 h2, fun _ => .inr Iff.rfl, rfl, rfl, rfl, rfl, rfl, rfl, rfl⟩
  | block hf =>
      have h1 := hcalm hf id
      have h2 := hplain hf (by simp [Downs]) (by simp)
      refine .inl ⟨calm_put h1 h2, fun t => ?_, rfl, rfl, rfl, rfl, rfl, rfl, rfl⟩
      by_cases e : t = u
      · exact .inl (e ▸ h1)
      · exact .inr (iff_of_eq (Function.update_of_ne e _ _))
  | @unblock v rest hf hempty =>
      have h1 := hcalm hf id
      have h2 := hplain hf (by simp [Downs]) (by simp)
      refine .inl ⟨calm_put h1 h2, fun t => ?_, rfl, rfl, rfl, rfl, rfl, rfl, rfl⟩
      by_cases e : t = v
      · exact .inl (e ▸ hempty ▸ Calm.nil)
      · exact .inr (iff_of_eq (Function.update_of_ne e _ _))
  | @unblockNew v rest hf =>
      have h1 := hcalm hf id
      have h2 := hplain hf (by simp [Downs]) (by simp)
      refine .inl ⟨calm_put h1 h2, fun t => ?_, rfl, rfl, rfl, rfl, rfl, rfl, rfl⟩
      by_cases e : t = v
      · subst e
        have hk := (hc.fresh u t (by simp [hf])).2
        obtain ⟨gs, hgs⟩ := List.head?_eq_some_iff.mp hk
        rw [hgs]
        exact .inl (Calm.cons id)
      · exact .inr (iff_of_eq (Function.update_of_ne e _ _))
  | active ha => exact .inr ha

/-- A predicate that no calm work meets is not changed by a quiet step. -/
theorem Quiet.iff (h : Quiet s s') {P : List Frame → Prop} (hP : ∀ fs, Calm fs → ¬ P fs)
    (t : ThreadPtr) : P (s'.frames t) ↔ P (s.frames t) := by
  rcases h.frames t with e | ⟨h1, h2⟩
  · rw [e]
  · exact iff_of_false (hP _ h2) (hP _ h1)

/-- The same for a step that changes the work of one thread. -/
theorem put_iff {P : List Frame → Prop} {fs : List Frame} (h1 : ¬ P (s.frames u)) (h2 : ¬ P fs)
    (t : ThreadPtr) : P ((s.put u fs).frames t) ↔ P (s.frames t) := by
  by_cases e : t = u
  · subst e
    rw [put_frames_self]
    exact iff_of_false h2 h1
  · rw [put_frames_of_ne e]

/-- And for a step that creates a thread. -/
theorem create_iff {P : List Frame → Prop} {fs : List Frame} {idle : Bool} (ht : s.frames t = [])
    (hP : ∀ fs, Calm fs → ¬ P fs) (h1 : ¬ P (s.frames u)) (h2 : ¬ P fs) (v : ThreadPtr) :
    P (((s.create t idle).put u fs).frames v) ↔ P (s.frames v) := by
  by_cases e : v = u
  · subst e
    rw [put_frames_self]
    exact iff_of_false h2 h1
  · rw [put_frames_of_ne e]
    by_cases e' : v = t
    · subst e'
      rw [show (s.create v idle).frames v = firstFrames idle from Function.update_self .., ht]
      exact iff_of_false (hP _ (Calm.first idle)) (hP _ Calm.nil)
    · rw [show (s.create t idle).frames v = s.frames v from Function.update_of_ne e' _ _]

/-! ## Locks -/

/-- **A lock** is free, or held by one thread, or one thread is about to become its holder or
to raise its semaphore. -/
inductive LockOk (s : Sync) (l : LockId) : Prop where
  | free : (s.semas (.ofLock l)).value = 1 → s.holder l = none → s.inside l = [] →
      (∀ t, ¬ Tok l (s.frames t)) → LockOk s l
  | held (t : ThreadPtr) : (s.semas (.ofLock l)).value = 0 → s.holder l = some t →
      s.inside l = [t] → (∀ t, ¬ Tok l (s.frames t)) → LockOk s l
  | between (t : ThreadPtr) : (s.semas (.ofLock l)).value = 0 → s.holder l = none →
      s.inside l = [] → Tok l (s.frames t) → (∀ u, Tok l (s.frames u) → u = t) → LockOk s l

theorem LockOk.congr (h : LockOk s l)
    (hv : (s'.semas (.ofLock l)).value = (s.semas (.ofLock l)).value)
    (hh : s'.holder l = s.holder l) (hi : s'.inside l = s.inside l)
    (ht : ∀ t, Tok l (s'.frames t) ↔ Tok l (s.frames t)) : LockOk s' l := by
  cases h with
  | free h1 h2 h3 h4 =>
      exact .free (hv.trans h1) (hh.trans h2) (hi.trans h3) fun t => (ht t).not.mpr (h4 t)
  | held t h1 h2 h3 h4 =>
      exact .held t (hv.trans h1) (hh.trans h2) (hi.trans h3) fun t => (ht t).not.mpr (h4 t)
  | between t h1 h2 h3 h4 h5 =>
      exact .between t (hv.trans h1) (hh.trans h2) (hi.trans h3) ((ht t).mpr h4) fun u hu =>
        h5 u ((ht u).mp hu)

theorem LockOk.quiet (h : LockOk s l) (hq : Quiet s s') : LockOk s' l :=
  h.congr (by rw [hq.semas]) (by rw [hq.holder]) (by rw [hq.inside])
    (hq.iff fun _ hc => hc.tok l)

/-- The semaphore of a free lock is taken. -/
theorem LockOk.take (h : LockOk s l) (hpos : 0 < (s.semas (.ofLock l)).value)
    (hv : (s'.semas (.ofLock l)).value = (s.semas (.ofLock l)).value - 1)
    (hh : s'.holder l = s.holder l) (hi : s'.inside l = s.inside l) (hu : Tok l (s'.frames u))
    (hother : ∀ t, t ≠ u → s'.frames t = s.frames t) : LockOk s' l := by
  cases h with
  | free h1 h2 h3 h4 =>
      refine .between u (by rw [hv, h1]) (hh.trans h2) (hi.trans h3) hu fun t ht => ?_
      by_contra hne
      rw [hother t hne] at ht
      exact h4 t ht
  | held t h1 => omega
  | between t h1 => omega

theorem take_value_of_ne (h : x ≠ .ofLock l) :
    ((s.take x).semas (.ofLock l)).value = (s.semas (.ofLock l)).value := by
  show ((Function.update s.semas x _) (.ofLock l)).value = _
  rw [Function.update_of_ne h.symm]

theorem take_value_self : ((s.take x).semas x).value = (s.semas x).value - 1 := by
  show ((Function.update s.semas x _) x).value = _
  rw [Function.update_self]

theorem wait_value {ws : List ThreadPtr} (y : SemaId) :
    ((s.wait u x ws).semas y).value = (s.semas y).value := by
  show ((Function.update s.semas x _) y).value = _
  by_cases e : y = x
  · rw [e, Function.update_self]
  · rw [Function.update_of_ne e]

theorem LockOk.down (h : LockOk s l) (hshape : Shape s) {f : Frame} {rest : List Frame}
    (hf : s.frames u = f :: rest) (hd : Downs x f) (hpos : 0 < (s.semas x).value) :
    LockOk (((s.test u x).take x).put u rest) l := by
  have hnot : ¬ Tok l (s.frames u) := by
    rw [hf]
    rcases hd with rfl | rfl <;> simp [Tok]
  by_cases e : x = .ofLock l
  · subst e
    have hrest : rest.head? = some (.setHolder l) := by
      rcases hd with rfl | rfl
      · exact (hshape.cons hf).1
      · exact (hshape.cons hf).1
    refine h.take (u := u) hpos take_value_self rfl rfl ?_ fun t ht => put_frames_of_ne ht
    rw [put_frames_self]
    exact .inl hrest
  · refine h.congr (take_value_of_ne e) rfl rfl (put_iff (s := (s.test u x).take x) hnot ?_)
    intro htok
    cases x with
    | ofLock l' =>
        have hrest : rest.head? = some (.setHolder l') := by
          rcases hd with rfl | rfl
          · exact (hshape.cons hf).1
          · exact (hshape.cons hf).1
        rcases htok with ht | ht
        · rw [hrest, Option.some.injEq, Frame.setHolder.injEq] at ht
          exact e (ht ▸ rfl)
        · rw [hrest] at ht
          cases ht
    | _ =>
        refine Plain.not_tok ((hshape.cons hf).plain (fun l' hd' => ?_) ?_) htok
        · rcases hd with rfl | rfl <;> rcases hd' with hd' | hd' <;> cases hd'
        · rcases hd with rfl | rfl <;> simp

theorem LockOk.active (h : LockOk s l) (hshape : Shape s) (hs : Active s u s') : LockOk s' l := by
  cases hs with
  | create hf ht _ _ =>
      -- the new thread has nothing to do with the lock
      refine h.congr ?_ rfl rfl (create_iff ht (fun _ hc => hc.tok l) ?_ ?_)
      · show ((Function.update s.semas _ _) (.ofLock l)).value = _
        rw [Function.update_of_ne (by simp)]
      · rw [hf]
        exact (Calm.cons id).tok l
      · exact (Calm.cons id).tok l
  | @tryTake f x new rest hf ht hpos =>
      cases ht with
      | semaTryDown =>
          have hx : x ≠ .ofLock l := by
            obtain ⟨i, rfl⟩ := (hshape.cons hf).1.1
            simp
          refine h.congr (take_value_of_ne hx) rfl rfl (put_iff (s := s.take x) ?_ ?_)
          · show ¬ Tok l (s.frames u)
            rw [hf]
            exact (Calm.cons id).tok l
          · exact Plain.not_tok ((hshape.cons hf).plain (by simp [Downs]) (by simp))
      | @lockTryAcquire l' =>
          by_cases e : l' = l
          · subst e
            refine h.take (u := u) hpos take_value_self rfl rfl ?_ fun t ht => put_frames_of_ne ht
            rw [put_frames_self]
            exact .inl rfl
          · refine h.congr (take_value_of_ne fun e' => e (SemaId.ofLock.inj e')) rfl rfl
              (put_iff (s := s.take _) ?_ ?_)
            · show ¬ Tok l (s.frames u)
              rw [hf]
              exact (Calm.cons id).tok l
            · rintro (e' | e')
              · exact e (Frame.setHolder.inj (Option.some.inj e'))
              · cases Option.some.inj e'
  | down hf hd hpos => exact h.down hshape hf hd hpos
  | @wait f x rest ws hf hd _ _ =>
      refine h.congr (wait_value (s := s.test u x) (u := u) _) rfl rfl
        (put_iff (s := (s.test u x).wait u x ws) ?_ (by simp [Tok]))
      show ¬ Tok l (s.frames u)
      rw [hf]
      rcases hd with rfl | rfl <;> simp [Tok]
  | @up x rest hf =>
      have hrest : ¬ Tok l rest :=
        Plain.not_tok ((hshape.cons hf).plain (by simp [Downs]) (by simp))
      by_cases e : x = .ofLock l
      · subst e
        have hu : Tok l (s.frames u) := by
          rw [hf]
          exact .inr rfl
        cases h with
        -- `u` has the token, so that the lock is between its two steps
        | free _ _ _ h4 => exact absurd hu (h4 u)
        | held t _ _ _ h4 => exact absurd hu (h4 u)
        | between t h1 h2 h3 h4 h5 =>
            refine .free ?_ (by rw [up_holder]; exact h2) (by rw [up_inside]; exact h3) fun v => ?_
            · rw [up_value_self]
              show ((s.semas (.ofLock l)).value + 1) % 2 ^ 32 = 1
              simp [h1]
            · rw [up_frames]
              by_cases e : v = u
              · rw [e, put_frames_self]
                exact hrest
              · rw [put_frames_of_ne e]
                exact fun hv => e ((h5 v hv).trans (h5 u hu).symm)
      · refine h.congr ?_ (by rw [up_holder]; rfl) (by rw [up_inside]; rfl) fun v => ?_
        · rw [up_semas_of_ne (Ne.symm e)]
          rfl
        · rw [up_frames]
          refine put_iff ?_ hrest v
          rw [hf]
          rintro (e' | e')
          · cases Option.some.inj e'
          · exact e (Frame.semaUp.inj (Option.some.inj e'))
  | @acquire l' rest hf =>
      have hrest : ¬ Tok l rest :=
        Plain.not_tok ((hshape.cons hf).plain (by simp [Downs]) (by simp))
      by_cases e : l' = l
      · subst e
        have hu : Tok l' (s.frames u) := by
          rw [hf]
          exact .inl rfl
        cases h with
        | free _ _ _ h4 => exact absurd hu (h4 u)
        | held t _ _ _ h4 => exact absurd hu (h4 u)
        | between t h1 h2 h3 h4 h5 =>
            refine .held u h1 (Function.update_self ..) ?_ fun v => ?_
            · show Function.update s.inside l' (u :: s.inside l') l' = [u]
              rw [Function.update_self, h3]
            · by_cases e : v = u
              · rw [e, put_frames_self]
                exact hrest
              · rw [put_frames_of_ne e]
                exact fun hv => e ((h5 v hv).trans (h5 u hu).symm)
      · refine h.congr rfl (Function.update_of_ne (Ne.symm e) _ _)
          (Function.update_of_ne (Ne.symm e) _ _) (put_iff (s := s.acquire u l') ?_ hrest)
        show ¬ Tok l (s.frames u)
        rw [hf]
        rintro (e' | e')
        · exact e (Frame.setHolder.inj (Option.some.inj e'))
        · cases Option.some.inj e'
  | @release l' rest hf hl =>
      have hu : ¬ Tok l (s.frames u) := by
        rw [hf]
        exact (Calm.cons id).tok l
      by_cases e : l' = l
      · subst e
        cases h with
        | free _ h2 => simp [hl] at h2
        | between t _ h2 => simp [hl] at h2
        | held t h1 h2 h3 h4 =>
            have htu : t = u := by
              rw [hl] at h2
              exact (Option.some.inj h2).symm
            refine .between u h1 (Function.update_self ..) ?_ ?_ fun v hv => ?_
            · show Function.update s.inside l' ((s.inside l').erase u) l' = []
              rw [Function.update_self, h3, htu]
              simp
            · rw [put_frames_self]
              exact .inr rfl
            · by_contra hne
              rw [put_frames_of_ne hne] at hv
              exact h4 v hv
      · refine h.congr rfl (Function.update_of_ne (Ne.symm e) _ _)
          (Function.update_of_ne (Ne.symm e) _ _) (put_iff (s := s.release u l') hu ?_)
        rintro (e' | e')
        · cases Option.some.inj e'
        · exact e (SemaId.ofLock.inj (Frame.semaUp.inj (Option.some.inj e')))
  | @insertSleeper ws rest hf =>
      -- the thread goes on to its own semaphore
      have hrest : rest = [.semaDown (.sleep u)] := (hshape.cons hf).1
      refine h.congr rfl rfl rfl (put_iff ?_ ?_)
      · rw [hf]
        exact (Calm.cons id).tok l
      · simp [hrest, Tok]

theorem LockOk.step (h : LockOk s l) (hshape : Shape s) (hc : CreateOk s) (hs : Step s u s') :
    LockOk s' l := by
  rcases hs.quiet hshape hc with hq | ha
  · exact h.quiet hq
  · exact h.active hshape ha

theorem LockOk.wake (h : LockOk s l) : LockOk (s.wake t) l := by
  unfold Sync.wake
  refine h.congr ?_ (by rw [up_holder]) (by rw [up_inside]) fun v => by rw [up_frames]
  rw [up_semas_of_ne (by simp)]

/-! ## Sleepers -/

/-- **A thread and its `sema_sleep`**: it is not asleep in `timer_sleep`, or it waits for the
timer, or the timer has raised its semaphore. -/
inductive SleepOk (s : Sync) (t : ThreadPtr) : Prop where
  | awake : (s.semas (.sleep t)).value = 0 → t ∉ s.waitList → SleepOk s t
  | waiting : (s.semas (.sleep t)).value = 0 → t ∈ s.waitList → Sleeping t (s.frames t) →
      SleepOk s t
  | called : (s.semas (.sleep t)).value = 1 → t ∉ s.waitList → Sleeping t (s.frames t) →
      SleepOk s t

theorem SleepOk.congr (h : SleepOk s t)
    (hv : (s'.semas (.sleep t)).value = (s.semas (.sleep t)).value)
    (hw : t ∈ s'.waitList ↔ t ∈ s.waitList)
    (hf : Sleeping t (s.frames t) → Sleeping t (s'.frames t)) : SleepOk s' t := by
  cases h with
  | awake h1 h2 => exact .awake (hv.trans h1) (hw.not.mpr h2)
  | waiting h1 h2 h3 => exact .waiting (hv.trans h1) (hw.mpr h2) (hf h3)
  | called h1 h2 h3 => exact .called (hv.trans h1) (hw.not.mpr h2) (hf h3)

theorem SleepOk.quiet (h : SleepOk s t) (hq : Quiet s s') : SleepOk s' t :=
  h.congr (by rw [hq.semas]) (by rw [hq.waitList]) (hq.iff (fun _ hc => hc.sleeping t) t).mpr

/-- A step that is not in the `sema_down` of a `timer_sleep`. -/
theorem put_sleeping {f : Frame} {rest fs : List Frame} (hf : s.frames u = f :: rest)
    (hd : ∀ t, ¬ Downs (.sleep t) f) (h : Sleeping t (s.frames t)) :
    Sleeping t ((s.put u fs).frames t) := by
  by_cases e : t = u
  · subst e
    rw [hf] at h
    obtain ⟨g, hg, hd'⟩ := h
    cases hg
    exact absurd hd' (hd t)
  · rwa [put_frames_of_ne e]

theorem test_take_value_of_ne {y : SemaId} (h : y ≠ x) :
    (((s.test u x).take x).semas y).value = (s.semas y).value := by
  show ((Function.update s.semas x _) y).value = _
  rw [Function.update_of_ne h]

theorem SleepOk.down (h : SleepOk s t) {f : Frame} {rest : List Frame}
    (hf : s.frames u = f :: rest) (hd : Downs x f) (hpos : 0 < (s.semas x).value) :
    SleepOk (((s.test u x).take x).put u rest) t := by
  by_cases e : x = .sleep t
  · subst e
    cases h with
    | awake h1 => omega
    | waiting h1 => omega
    | called h1 h2 h3 =>
        refine .awake ?_ h2
        rw [show ((((s.test u (.sleep t)).take (.sleep t)).put u rest).semas (.sleep t)).value = _
          from take_value_self (s := s.test u (.sleep t))]
        show (s.semas (.sleep t)).value - 1 = 0
        omega
  · refine h.congr (test_take_value_of_ne (Ne.symm e)) Iff.rfl fun hs => ?_
    by_cases htu : t = u
    · subst htu
      rw [hf] at hs
      obtain ⟨g, hg, hd'⟩ := hs
      cases hg
      refine absurd ?_ e
      rcases hd with rfl | rfl <;> rcases hd' with hd' | hd' <;> cases hd' <;> rfl
    · rwa [put_frames_of_ne htu]

theorem SleepOk.active (h : SleepOk s t) (hshape : Shape s) (hs : Active s u s') :
    SleepOk s' t := by
  cases hs with
  | @create v p idle rest hf hv _ hne =>
      by_cases e : t = v
      · subst e
        cases h with
        | awake h1 h2 =>
            refine .awake ?_ h2
            show ((Function.update s.semas (.sleep t) ⟨0, []⟩) (.sleep t)).value = 0
            rw [Function.update_self]
        | waiting _ _ h3 =>
            rw [hv] at h3
            exact absurd h3 (Calm.nil.sleeping t)
        | called _ _ h3 =>
            rw [hv] at h3
            exact absurd h3 (Calm.nil.sleeping t)
      · refine h.congr ?_ Iff.rfl fun hs => @put_sleeping (s.create v idle) _ _ ?_ rest _ ?_ ?_ ?_
        · show ((Function.update s.semas (.sleep v) _) (.sleep t)).value = _
          rw [Function.update_of_ne fun e' => e (SemaId.sleep.inj e')]
        · exact .threadCreate p idle
        · show Function.update s.frames v _ u = _
          rw [Function.update_of_ne hne.symm, hf]
        · simp [Downs]
        · show Sleeping t (Function.update s.frames v _ t)
          rwa [Function.update_of_ne e]
  | @tryTake f x new rest hf ht _ =>
      have hx : x ≠ .sleep t := by
        cases ht with
        | semaTryDown =>
            obtain ⟨i, rfl⟩ := (hshape.cons hf).1.1
            simp
        | lockTryAcquire => simp
      refine h.congr ?_ Iff.rfl (put_sleeping (s := s.take x) hf ?_)
      · show ((Function.update s.semas x _) (.sleep t)).value = _
        rw [Function.update_of_ne hx.symm]
      · cases ht <;> simp [Downs]
  | down hf hd hpos => exact h.down hf hd hpos
  | @wait f x rest ws hf hd _ _ =>
      refine h.congr (wait_value (s := s.test u x) (u := u) _) Iff.rfl fun hs => ?_
      by_cases e : t = u
      · subst e
        rw [hf] at hs
        obtain ⟨g, hg, hd'⟩ := hs
        cases hg
        have hx : x = .sleep t := by
          rcases hd with rfl | rfl <;> rcases hd' with hd' | hd' <;> cases hd' <;> rfl
        rw [put_frames_self]
        exact ⟨_, rfl, .inr (hx ▸ rfl)⟩
      · rwa [put_frames_of_ne e]
  | @up x rest hf =>
      have hx : x ≠ .sleep t := by
        rintro rfl
        exact (hshape.cons hf).1
      refine h.congr ?_ (by rw [up_waitList]; rfl) fun hs => ?_
      · rw [up_semas_of_ne hx.symm]
        rfl
      · rw [up_frames]
        exact put_sleeping hf (by simp [Downs]) hs
  | acquire hf => exact h.congr rfl Iff.rfl (put_sleeping (s := s.acquire u _) hf (by simp [Downs]))
  | release hf => exact h.congr rfl Iff.rfl (put_sleeping (s := s.release u _) hf (by simp [Downs]))
  | @insertSleeper ws rest hf hws =>
      by_cases e : t = u
      · subst e
        have hrest : rest = [.semaDown (.sleep t)] := (hshape.cons hf).1
        have hnot : ¬ Sleeping t (s.frames t) := by
          rw [hf]
          exact (Calm.cons id).sleeping t
        cases h with
        | awake h1 h2 =>
            refine .waiting h1 (hws.mem_iff.mpr List.mem_cons_self) ?_
            show Sleeping t ((s.put t rest).frames t)
            rw [put_frames_self, hrest]
            exact ⟨_, rfl, .inl rfl⟩
        | waiting _ _ h3 => exact absurd h3 hnot
        | called _ _ h3 => exact absurd h3 hnot
      · refine h.congr rfl ?_ fun hs => ?_
        · rw [hws.mem_iff, List.mem_cons]
          exact or_iff_right e
        · show Sleeping t ((s.put u rest).frames t)
          rwa [put_frames_of_ne e]

theorem SleepOk.step (h : SleepOk s t) (hshape : Shape s) (hc : CreateOk s) (hs : Step s u s') :
    SleepOk s' t := by
  rcases hs.quiet hshape hc with hq | ha
  · exact h.quiet hq
  · exact h.active hshape ha

theorem SleepOk.wake (h : SleepOk s t) (hnodup : s.waitList.Nodup) (hu : u ∈ s.waitList) :
    SleepOk (s.wake u) t := by
  unfold Sync.wake
  by_cases e : t = u
  · subst e
    cases h with
    | awake _ h2 => exact absurd hu h2
    | called _ h2 => exact absurd hu h2
    | waiting h1 h2 h3 =>
        refine .called ?_ ?_ ?_
        · rw [up_value_self]
          show ((s.semas (.sleep t)).value + 1) % 2 ^ 32 = 1
          simp [h1]
        · rw [up_waitList]
          exact fun hm => (hnodup.mem_erase_iff.mp hm).1 rfl
        · rw [up_frames]
          exact h3
  · refine h.congr ?_ ?_ fun hs => ?_
    · rw [up_semas_of_ne fun e' => e (SemaId.sleep.inj e')]
    · rw [up_waitList]
      exact List.mem_erase_of_ne e
    · rwa [up_frames]

/-- A thread in the list of sleepers has more to do. -/
theorem SleepOk.frames_ne_nil (h : SleepOk s t) (ht : t ∈ s.waitList) : s.frames t ≠ [] := by
  intro e
  cases h with
  | awake _ h2 => exact h2 ht
  | called _ h2 => exact h2 ht
  | waiting _ _ h3 =>
      rw [e] at h3
      exact Calm.nil.sleeping t h3

/-- The list of sleepers after a step. -/
theorem Step.waitList (h : Step s u s') (hshape : Shape s) (hc : CreateOk s) :
    s'.waitList = s.waitList ∨
      (∃ rest, s.frames u = .insertSleeper :: rest) ∧ s'.waitList.Perm (u :: s.waitList) := by
  rcases h.quiet hshape hc with hq | ha
  · exact .inl hq.waitList
  · cases ha with
    | create => exact .inl rfl
    | tryTake => exact .inl rfl
    | down => exact .inl rfl
    | wait => exact .inl rfl
    | up => exact .inl up_waitList
    | acquire => exact .inl rfl
    | release => exact .inl rfl
    | @insertSleeper ws rest hf hws => exact .inr ⟨⟨rest, hf⟩, hws⟩

/-- **All sleepers.** -/
structure SleepersOk (s : Sync) : Prop where
  each : ∀ t, SleepOk s t
  nodup : s.waitList.Nodup

theorem SleepersOk.step (h : SleepersOk s) (hshape : Shape s) (hc : CreateOk s)
    (hs : Step s u s') : SleepersOk s' := by
  refine ⟨fun t => (h.each t).step hshape hc hs, ?_⟩
  rcases hs.waitList hshape hc with e | ⟨⟨rest, hf⟩, hws⟩
  · rw [e]
    exact h.nodup
  · refine hws.nodup_iff.mpr (List.nodup_cons.mpr ⟨fun hu => ?_, h.nodup⟩)
    have hnot : ¬ Sleeping u (s.frames u) := by
      rw [hf]
      exact (Calm.cons id).sleeping u
    cases h.each u with
    | awake _ h2 => exact h2 hu
    | waiting _ _ h3 => exact hnot h3
    | called _ _ h3 => exact hnot h3

theorem SleepersOk.wake (h : SleepersOk s) (ht : t ∈ s.waitList) : SleepersOk (s.wake t) := by
  refine ⟨fun u => (h.each u).wake h.nodup ht, ?_⟩
  unfold Sync.wake
  rw [up_waitList]
  exact h.nodup.erase t

end Sync

end Pintos.Threads
