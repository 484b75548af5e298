import Pintos.Threads.Locks

/-!
# Semaphores

Over `Sync`, for every order in which the threads run:

* `WokenOk` — who has been woken from a semaphore and has not tested its value again.
* `SemaOk` — the counting of ups and downs, and that no wake-up is lost.
-/

namespace Pintos.Threads

namespace Sync

variable {s s' : Sync} {u t : ThreadPtr} {x : SemaId}

/-! ## Who has been woken -/

/-- **The threads woken from a semaphore** are those that are awake in the loop of its
`sema_down`. -/
structure WokenOk (s : Sync) : Prop where
  mem : ∀ x t, t ∈ s.woken x ↔ ¬ s.asleep t ∧ Again x (s.frames t)
  nodup : ∀ x, (s.woken x).Nodup

theorem WokenOk.quiet (h : WokenOk s) (hq : Quiet s s') : WokenOk s' := by
  refine ⟨fun x t => ?_, fun x => by rw [hq.woken]; exact h.nodup x⟩
  rw [hq.woken, h.mem x t, hq.iff (fun _ hc => hc.again x) t]
  rcases hq.asleep t with hc | ha
  · exact iff_of_false (fun hx => hc.again x hx.2) fun hx => hc.again x hx.2
  · rw [ha]

/-- A step that leaves the semaphores alone. -/
theorem WokenOk.keep (h : WokenOk s) (hwoken : s'.woken = s.woken) (hasleep : s'.asleep = s.asleep)
    (ht : ∀ x t, Again x (s'.frames t) ↔ Again x (s.frames t)) : WokenOk s' := by
  refine ⟨fun x t => ?_, fun x => by rw [hwoken]; exact h.nodup x⟩
  rw [hwoken, hasleep, ht, h.mem]

/-- The thread `u` tests the value of `x`, and is then in no `sema_down` loop or asleep. -/
theorem WokenOk.test (h : WokenOk s) {f : Frame} {rest : List Frame} (hf : s.frames u = f :: rest)
    (hd : Downs x f) (hwoken : s'.woken = Function.update s.woken x ((s.woken x).erase u))
    (hasleep : ∀ t, t ≠ u → (s'.asleep t ↔ s.asleep t))
    (hframes : ∀ t, t ≠ u → s'.frames t = s.frames t)
    (hself : ∀ y, s'.asleep u ∨ ¬ Again y (s'.frames u)) : WokenOk s' := by
  have hmem : ∀ y t, t ∈ s'.woken y ↔ t ∈ s.woken y ∧ t ≠ u := by
    intro y t
    rw [hwoken]
    by_cases e : y = x
    · subst e
      rw [Function.update_self, (h.nodup y).mem_erase_iff]
      exact and_comm
    · rw [Function.update_of_ne e]
      refine (and_iff_left_of_imp fun ht htu => ?_).symm
      subst htu
      have hagain := ((h.mem y t).mp ht).2
      rw [hf] at hagain
      rcases hd with rfl | rfl
      · cases Option.some.inj hagain
      · exact e (Frame.semaDownAgain.inj (Option.some.inj hagain)).symm
  refine ⟨fun y t => ?_, fun y => ?_⟩
  · rw [hmem]
    by_cases e : t = u
    · subst e
      refine iff_of_false (fun ht => ht.2 rfl) fun ⟨ha, hx⟩ => ?_
      rcases hself y with h' | h'
      · exact ha h'
      · exact h' hx
    · rw [hasleep t e, hframes t e, h.mem]
      exact and_iff_left e
  · rw [hwoken]
    by_cases e : y = x
    · subst e
      rw [Function.update_self]
      exact (h.nodup y).erase u
    · rw [Function.update_of_ne e]
      exact h.nodup y

/-- `sema_up`. -/
theorem WokenOk.up (h : WokenOk s) (hw : WaitOk s) : WokenOk (s.up x) := by
  unfold Sync.up
  split
  · exact ⟨h.mem, h.nodup⟩
  · next t ws hws =>
      have ht : s.asleep t ∧ Again x (s.frames t) := (hw x t).mp (by simp [hws])
      have hfresh : t ∉ s.woken x := fun hm => ((h.mem x t).mp hm).1 ht.1
      refine ⟨fun y v => ?_, fun y => ?_⟩
      · show v ∈ Function.update s.woken x (t :: s.woken x) y ↔
          ¬ Function.update s.asleep t False v ∧ Again y (s.frames v)
        by_cases ev : v = t
        · subst ev
          rw [Function.update_self]
          by_cases ey : y = x
          · subst ey
            rw [Function.update_self]
            exact iff_of_true List.mem_cons_self ⟨id, ht.2⟩
          · rw [Function.update_of_ne ey]
            refine iff_of_false (fun hm => ((h.mem y v).mp hm).1 ht.1) fun hb => ey ?_
            exact Frame.semaDownAgain.inj (Option.some.inj (hb.2.symm.trans ht.2))
        · rw [Function.update_of_ne ev, ← h.mem y v]
          by_cases ey : y = x
          · subst ey
            rw [Function.update_self, List.mem_cons]
            exact or_iff_right ev
          · rw [Function.update_of_ne ey]
      · show (Function.update s.woken x (t :: s.woken x) y).Nodup
        by_cases ey : y = x
        · subst ey
          rw [Function.update_self]
          exact List.nodup_cons.mpr ⟨hfresh, h.nodup y⟩
        · rw [Function.update_of_ne ey]
          exact h.nodup y

/-- What follows a `sema_down` is not its loop. -/
theorem not_again_of_downs (hshape : Shape s) {f : Frame} {rest : List Frame}
    (hf : s.frames u = f :: rest) (hd : Downs x f) (y : SemaId) : ¬ Again y rest := by
  cases x with
  | ofLock l =>
      have hrest : rest.head? = some (.setHolder l) := by
        rcases hd with rfl | rfl
        · exact (hshape.cons hf).1
        · exact (hshape.cons hf).1
      intro hy
      rw [Again, hrest] at hy
      cases Option.some.inj hy
  | _ =>
      refine Plain.not_again ((hshape.cons hf).plain (fun l' hd' => ?_) ?_)
      · rcases hd with rfl | rfl <;> rcases hd' with hd' | hd' <;> cases hd'
      · rcases hd with rfl | rfl <;> simp

theorem WokenOk.create (h : WokenOk s) (hshape : Shape s) {p : ℤ} {idle : Bool}
    {rest fs : List Frame} (hf : s.frames u = .threadCreate p idle :: rest) (ht : s.frames t = [])
    (hfs : Calm fs) : WokenOk ((s.create t idle).put u fs) := by
  have hiff : ∀ x v, Again x (((s.create t idle).put u fs).frames v) ↔ Again x (s.frames v) := by
    intro x
    refine create_iff ht (fun _ hc => hc.again x) ?_ (hfs.again x)
    rw [hf]
    exact (Calm.cons id).again x
  have hsleep : ∀ v, ¬ Again (.sleep t) (s.frames v) := by
    intro v hv
    obtain ⟨gs, hgs⟩ := List.head?_eq_some_iff.mp hv
    have e : t = v := (hshape.cons hgs).1.1
    rw [← e, ht] at hv
    cases hv
  refine ⟨fun x v => ?_, fun x => ?_⟩
  · rw [hiff]
    show v ∈ Function.update s.woken (.sleep t) [] x ↔ ¬ Function.update s.asleep t True v ∧ _
    by_cases e : v = t
    · subst e
      rw [Function.update_self]
      refine iff_of_false (fun hm => ?_) fun hb => hb.1 trivial
      by_cases ex : x = .sleep v
      · rw [ex, Function.update_self] at hm
        cases hm
      · rw [Function.update_of_ne ex, h.mem, ht] at hm
        cases hm.2
    · rw [Function.update_of_ne e]
      by_cases ex : x = .sleep t
      · rw [ex, Function.update_self]
        exact iff_of_false List.not_mem_nil fun hb => hsleep v hb.2
      · rw [Function.update_of_ne ex]
        exact h.mem x v
  · show (Function.update s.woken (.sleep t) [] x).Nodup
    by_cases ex : x = .sleep t
    · rw [ex, Function.update_self]
      exact List.nodup_nil
    · rw [Function.update_of_ne ex]
      exact h.nodup x

theorem WokenOk.active (h : WokenOk s) (hshape : Shape s) (hw : WaitOk s) (hawake : ¬ s.asleep u)
    (hs : Active s u s') : WokenOk s' := by
  have hput : ∀ {f rest fs}, s.frames u = f :: rest → (∀ x, ¬ Again x (f :: rest)) →
      (∀ x, ¬ Again x fs) → ∀ x t, Again x ((s.put u fs).frames t) ↔ Again x (s.frames t) :=
    fun hf h1 h2 x => put_iff (hf ▸ h1 x) (h2 x)
  cases hs with
  | create hf ht _ _ => exact h.create hshape hf ht (Calm.cons id)
  | @tryTake f x new rest hf ht _ =>
      refine h.keep rfl rfl (hput hf ?_ ?_)
      · cases ht with
        | semaTryDown => exact (Calm.cons id).again
        | lockTryAcquire => exact (Calm.cons id).again
      · cases ht with
        | semaTryDown =>
            exact fun y => Plain.not_again ((hshape.cons hf).plain (by simp [Downs]) (by simp))
        | lockTryAcquire => exact fun y hy => by cases Option.some.inj hy
  | @down f x rest hf hd _ =>
      refine h.test hf hd rfl (fun _ _ => Iff.rfl) (fun t ht => put_frames_of_ne ht) fun y => .inr ?_
      rw [put_frames_self]
      exact not_again_of_downs hshape hf hd y
  | @wait f x rest ws hf hd _ _ =>
      refine h.test hf hd rfl (fun t ht => ?_) (fun t ht => put_frames_of_ne ht) fun y => .inl ?_
      · exact iff_of_eq (Function.update_of_ne ht _ _)
      · show Function.update s.asleep u True u
        rw [Function.update_self]
        trivial
  | @up x rest hf =>
      have hrest : ∀ y, ¬ Again y rest := fun y =>
        Plain.not_again ((hshape.cons hf).plain (by simp [Downs]) (by simp))
      refine WokenOk.up ?_ (hw.put hawake rest)
      exact h.keep rfl rfl (hput hf (fun y hy => by cases Option.some.inj hy) hrest)
  | @acquire l rest hf =>
      refine h.keep rfl rfl (hput hf (fun y hy => by cases Option.some.inj hy) fun y => ?_)
      exact Plain.not_again ((hshape.cons hf).plain (by simp [Downs]) (by simp))
  | @release l rest hf _ =>
      refine h.keep rfl rfl (hput hf (Calm.cons id).again fun y hy => ?_)
      cases Option.some.inj hy
  | @insertSleeper ws rest hf _ =>
      have hrest : rest = [.semaDown (.sleep u)] := (hshape.cons hf).1
      refine h.keep rfl rfl (hput hf (Calm.cons id).again fun y hy => ?_)
      rw [hrest] at hy
      cases Option.some.inj hy

theorem WokenOk.step (h : WokenOk s) (hshape : Shape s) (hc : CreateOk s) (hw : WaitOk s)
    (hawake : ¬ s.asleep u) (hs : Step s u s') : WokenOk s' := by
  rcases hs.quiet hshape hc with hq | ha
  · exact h.quiet hq
  · exact h.active hshape hw hawake ha

theorem WokenOk.wake (h : WokenOk s) (hw : WaitOk s) : WokenOk (s.wake t) :=
  WokenOk.up (s := { s with waitList := s.waitList.erase t }) ⟨h.mem, h.nodup⟩ hw

/-! ## The counting of ups and downs -/

/-- **A semaphore**: its value and the completed downs are covered by its initial value and
the ups, and while threads wait its value is covered by the threads woken. -/
structure SemaOk (init : ℕ) (s : Sync) (x : SemaId) : Prop where
  count : (s.semas x).value + s.downs x ≤ init + s.ups x
  woken : (s.semas x).waiters ≠ [] → (s.semas x).value ≤ (s.woken x).length

section Counting

variable {init : ℕ} {y : SemaId}

theorem SemaOk.congr (h : SemaOk init s x) (hsemas : s'.semas x = s.semas x)
    (hdowns : s'.downs x = s.downs x) (hups : s'.ups x = s.ups x)
    (hwoken : s'.woken x = s.woken x) : SemaOk init s' x := by
  refine ⟨?_, ?_⟩
  · rw [hsemas, hdowns, hups]
    exact h.count
  · rw [hsemas, hwoken]
    exact h.woken

theorem SemaOk.take (h : SemaOk init s x) (hpos : 0 < (s.semas y).value) :
    SemaOk init (s.take y) x := by
  by_cases e : x = y
  · subst e
    refine ⟨?_, ?_⟩
    · show ((Function.update s.semas x _) x).value + Function.update s.downs x _ x ≤ init + s.ups x
      rw [Function.update_self, Function.update_self]
      have hc := h.count
      show (s.semas x).value - 1 + (s.downs x + 1) ≤ _
      omega
    · show ((Function.update s.semas x _) x).waiters ≠ [] →
        ((Function.update s.semas x _) x).value ≤ _
      rw [Function.update_self]
      intro hne
      exact (Nat.sub_le _ _).trans (h.woken hne)
  · exact h.congr (Function.update_of_ne e _ _) (Function.update_of_ne e _ _) rfl rfl

/-- A test of the value that finds it above zero. -/
theorem SemaOk.down (h : SemaOk init s x) (hpos : 0 < (s.semas y).value) :
    SemaOk init ((s.test u y).take y) x := by
  by_cases e : x = y
  · subst e
    refine ⟨?_, ?_⟩
    · show ((Function.update s.semas x _) x).value + Function.update s.downs x _ x ≤ init + s.ups x
      rw [Function.update_self, Function.update_self]
      have hc := h.count
      show (s.semas x).value - 1 + (s.downs x + 1) ≤ _
      omega
    · show ((Function.update s.semas x _) x).waiters ≠ [] →
        ((Function.update s.semas x _) x).value ≤ (Function.update s.woken x _ x).length
      rw [Function.update_self, Function.update_self]
      intro hne
      have hle := h.woken hne
      show (s.semas x).value - 1 ≤ ((s.woken x).erase u).length
      rw [List.length_erase]
      split <;> omega
  · exact h.congr (Function.update_of_ne e _ _) (Function.update_of_ne e _ _) rfl
      (Function.update_of_ne e _ _)

/-- A test of the value that finds it zero. -/
theorem SemaOk.wait (h : SemaOk init s x) (hzero : (s.semas y).value = 0) {ws : List ThreadPtr} :
    SemaOk init ((s.test u y).wait u y ws) x := by
  by_cases e : x = y
  · subst e
    have hv : (((s.test u x).wait u x ws).semas x).value = 0 := by
      rw [wait_value (s := s.test u x)]
      exact hzero
    refine ⟨?_, fun _ => by rw [hv]; exact Nat.zero_le _⟩
    rw [hv]
    have hc := h.count
    show 0 + s.downs x ≤ init + s.ups x
    omega
  · exact h.congr (Function.update_of_ne e _ _) rfl rfl (Function.update_of_ne e _ _)

theorem SemaOk.up (h : SemaOk init s x) : SemaOk init (s.up y) x := by
  have hmod : ((s.semas x).value + 1) % 2 ^ 32 ≤ (s.semas x).value + 1 := Nat.mod_le _ _
  unfold Sync.up
  split
  · next hws =>
      by_cases e : x = y
      · subst e
        refine ⟨?_, ?_⟩
        · show ((Function.update s.semas x _) x).value + s.downs x ≤
            init + Function.update s.ups x _ x
          rw [Function.update_self, Function.update_self]
          have hc := h.count
          show ((s.semas x).value + 1) % 2 ^ 32 + s.downs x ≤ init + (s.ups x + 1)
          omega
        · show ((Function.update s.semas x _) x).waiters ≠ [] → _
          rw [Function.update_self]
          exact fun hne => absurd hws hne
      · exact h.congr (Function.update_of_ne e _ _) rfl (Function.update_of_ne e _ _) rfl
  · next t ws hws =>
      by_cases e : x = y
      · subst e
        have hsema : (((s.give x).rouse t x ws).semas x) =
            ⟨((s.semas x).value + 1) % 2 ^ 32, ws⟩ := by
          simp [give, rouse]
        refine ⟨?_, fun _ => ?_⟩
        · rw [hsema]
          show ((s.semas x).value + 1) % 2 ^ 32 + s.downs x ≤ init + Function.update s.ups x _ x
          rw [Function.update_self]
          have hc := h.count
          omega
        · rw [hsema]
          show ((s.semas x).value + 1) % 2 ^ 32 ≤ (Function.update s.woken x (t :: s.woken x) x).length
          rw [Function.update_self, List.length_cons]
          have hle := h.woken (by simp [hws])
          omega
      · refine h.congr ?_ rfl (Function.update_of_ne e _ _) (Function.update_of_ne e _ _)
        simp [give, rouse, e]

theorem SemaOk.create {idle : Bool} (h : SemaOk init s x) (hinit : ∀ v, x = .sleep v → init = 0) :
    SemaOk init (s.create t idle) x := by
  by_cases e : x = .sleep t
  · subst e
    refine ⟨?_, ?_⟩
    · show ((Function.update s.semas _ _) _).value + Function.update s.downs _ _ _ ≤
        init + Function.update s.ups _ _ _
      simp
    · show ((Function.update s.semas _ _) _).waiters ≠ [] → _
      simp
  · exact h.congr (Function.update_of_ne e _ _) (Function.update_of_ne e _ _)
      (Function.update_of_ne e _ _) (Function.update_of_ne e _ _)

theorem SemaOk.active (h : SemaOk init s x) (hinit : ∀ v, x = .sleep v → init = 0)
    (hs : Active s u s') : SemaOk init s' x := by
  cases hs with
  | @create t p idle rest => 
      have hc : SemaOk init (s.create t idle) x := h.create hinit
      exact hc.congr rfl rfl rfl rfl
  | tryTake _ _ hpos => exact (h.take hpos).congr rfl rfl rfl rfl
  | down _ _ hpos => exact (h.down (u := u) hpos).congr rfl rfl rfl rfl
  | wait _ _ hzero => exact (h.wait (u := u) hzero).congr rfl rfl rfl rfl
  | up => exact SemaOk.up (h.congr rfl rfl rfl rfl)
  | acquire => exact h.congr rfl rfl rfl rfl
  | release => exact h.congr rfl rfl rfl rfl
  | insertSleeper => exact h.congr rfl rfl rfl rfl

theorem SemaOk.step (h : SemaOk init s x) (hinit : ∀ v, x = .sleep v → init = 0)
    (hshape : Shape s) (hc : CreateOk s) (hs : Step s u s') : SemaOk init s' x := by
  rcases hs.quiet hshape hc with hq | ha
  · exact h.congr (by rw [hq.semas]) (by rw [hq.downs]) (by rw [hq.ups]) (by rw [hq.woken])
  · exact h.active hinit ha

theorem SemaOk.wake (h : SemaOk init s x) : SemaOk init (s.wake t) x :=
  SemaOk.up (s := { s with waitList := s.waitList.erase t }) (h.congr rfl rfl rfl rfl)

@[simp] theorem up_downs : (s.up x).downs = s.downs := by
  unfold up
  split <;> rfl

/-- A step completes a down only where the value is above zero. -/
theorem Step.downs (h : Step s u s') (hshape : Shape s) (hc : CreateOk s) (x : SemaId) :
    s'.downs x ≤ s.downs x ∨ 0 < (s.semas x).value := by
  rcases h.quiet hshape hc with hq | ha
  · exact .inl (by rw [hq.downs])
  · cases ha with
    | @create t p idle rest =>
        refine .inl ?_
        show Function.update s.downs (.sleep t) 0 x ≤ s.downs x
        by_cases e : x = .sleep t
        · rw [e, Function.update_self]
          exact Nat.zero_le _
        · rw [Function.update_of_ne e]
    | @tryTake f y new rest _ _ hpos =>
        by_cases e : x = y
        · exact .inr (e ▸ hpos)
        · exact .inl (Function.update_of_ne e _ _).le
    | @down f y rest _ _ hpos =>
        by_cases e : x = y
        · exact .inr (e ▸ hpos)
        · exact .inl (Function.update_of_ne e _ _).le
    | wait => exact .inl le_rfl
    | up => exact .inl (by rw [up_downs]; exact le_rfl)
    | acquire => exact .inl le_rfl
    | release => exact .inl le_rfl
    | insertSleeper => exact .inl le_rfl

end Counting

end Sync

end Pintos.Threads
