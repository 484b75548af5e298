import Pintos.Threads.Sync

/-!
# New threads and the idle thread

Over `Sync`, so for every order in which the threads that do not sleep may run:

* `IdleOk` — the idle thread and its start.
* `CreateOk` — threads that are being created.

Each is kept by every step and by every wake-up of the timer.
-/

namespace Pintos.Threads

namespace Sync

variable {s s' : Sync} {u t : ThreadPtr} {x : SemaId} {l : LockId}

/-! ## What a step does to the threads' work -/

/-- The steps that lead to an idle thread. -/
def Mark : Frame → Prop
  | .setIdle | .threadCreate _ true => True
  | _ => False

/-- The steps that the next two invariants do not speak about. -/
def Ordinary : Frame → Prop
  | .setIdle | .threadCreate _ true | .unblockNew _ | .idleBlock => False
  | _ => True

/-- The thread `u` goes on, and neither creates a thread nor becomes the idle thread. -/
structure Goes (s : Sync) (u : ThreadPtr) (s' : Sync) (fs : List Frame) : Prop where
  frames : s'.frames = Function.update s.frames u fs
  idleThread : s'.idleThread = s.idleThread
  ordinary : ∀ f ∈ fs, f ∈ s.frames u ∨ Ordinary f
  setIdle : .setIdle ∈ s.frames u → .setIdle ∈ fs
  idle : s.frames u = [.idleBlock] ∨ s.frames u = [.semaUp .idleStarted, .idleBlock] →
    fs = [.idleBlock]

/-- `Goes` for a step that puts `new` in the place of the first frame. -/
theorem Goes.of_cons {f : Frame} {new rest : List Frame} (hf : s.frames u = f :: rest)
    (hframes : s'.frames = Function.update s.frames u (new ++ rest))
    (hidle : s'.idleThread = s.idleThread) (hne : f ≠ .setIdle)
    (hnew : ∀ g ∈ new, g = f ∨ Ordinary g) (hblock : f = .idleBlock → new = [.idleBlock])
    (hup : f = .semaUp .idleStarted → new = []) : Goes s u s' (new ++ rest) := by
  refine ⟨hframes, hidle, fun g hg => ?_, fun h => ?_, fun h => ?_⟩
  · rw [hf]
    rcases List.mem_append.mp hg with hg | hg
    · rcases hnew g hg with rfl | ho
      · exact .inl List.mem_cons_self
      · exact .inr ho
    · exact .inl (.tail _ hg)
  · rw [hf] at h
    rcases List.mem_cons.mp h with rfl | h
    · exact absurd rfl hne
    · exact List.mem_append_right _ h
  · rw [hf] at h
    rcases h with h | h
    · obtain ⟨rfl, rfl⟩ := List.cons.inj h
      rw [hblock rfl]
      rfl
    · obtain ⟨rfl, rfl⟩ := List.cons.inj h
      rw [hup rfl]
      rfl

theorem Goes.move {f : Frame} {new rest : List Frame} (hf : s.frames u = f :: rest)
    (hm : Moves u f new) : Goes s u (s.put u (new ++ rest)) (new ++ rest) := by
  refine Goes.of_cons hf rfl rfl ?_ ?_ ?_ ?_
  all_goals cases hm
  all_goals simp [Ordinary]

theorem Goes.call (c : Call) (hf : s.frames u = []) : Goes s u (s.put u c.frames) c.frames := by
  refine ⟨rfl, rfl, fun f hfs => .inr ?_, fun h => ?_, fun h => ?_⟩
  · cases c with
    | timerSleep n =>
        simp only [Call.frames] at hfs
        split at hfs
        · cases List.mem_singleton.mp hfs
          trivial
        · simp at hfs
    | _ =>
        cases List.mem_singleton.mp hfs
        trivial
  · simp [hf] at h
  · simp [hf] at h

/-- A step that works on a semaphore, a lock or the list of sleepers, and creates nothing. -/
theorem Active.goes (h : Active s u s') :
    (∃ fs, Goes s u s' fs) ∨ ∃ t p idle rest, s.frames u = .threadCreate p idle :: rest ∧
      s.frames t = [] ∧ ¬ s.asleep t ∧ t ≠ u ∧ s' = (s.create t idle).put u
        ([.lockAcquire .tidLock, .takeTid t, .lockRelease .tidLock, .unblockNew t] ++ rest) := by
  cases h with
  | @create t p idle rest hf ht ha hne => exact .inr ⟨t, p, idle, rest, hf, ht, ha, hne, rfl⟩
  | tryTake hf ht =>
      refine .inl ⟨_, Goes.of_cons hf rfl rfl ?_ ?_ ?_ ?_⟩
      all_goals cases ht
      all_goals simp [Ordinary]
  | @down f x rest hf hd =>
      refine .inl ⟨_, @Goes.of_cons s _ u f [] rest hf rfl rfl ?_ ?_ ?_ ?_⟩
      all_goals rcases hd with rfl | rfl
      all_goals simp
  | @wait f x rest ws hf hd =>
      refine .inl ⟨_, @Goes.of_cons s _ u f [.semaDownAgain x] rest hf rfl rfl ?_ ?_ ?_ ?_⟩
      all_goals rcases hd with rfl | rfl
      all_goals simp [Ordinary]
  | @up x rest hf =>
      refine .inl ⟨_, @Goes.of_cons s _ u _ [] rest hf up_frames up_idleThread ?_ ?_ ?_ ?_⟩
      all_goals simp
  | @acquire l rest hf =>
      refine .inl ⟨_, @Goes.of_cons s _ u _ [] rest hf rfl rfl ?_ ?_ ?_ ?_⟩
      all_goals simp
  | @release l rest hf =>
      refine .inl ⟨_, @Goes.of_cons s _ u _ [.semaUp (.ofLock l)] rest hf rfl rfl ?_ ?_ ?_ ?_⟩
      all_goals simp [Ordinary]
  | @insertSleeper ws rest hf =>
      refine .inl ⟨_, @Goes.of_cons s _ u _ [] rest hf rfl rfl ?_ ?_ ?_ ?_⟩
      all_goals simp

/-- What a step can do to the threads' work. -/
theorem Step.goes (h : Step s u s') :
    (∃ fs, Goes s u s' fs) ∨
    (∃ rest, s.frames u = .setIdle :: rest ∧ s' = { s.put u rest with idleThread := some u }) ∨
    ∃ t p idle rest, s.frames u = .threadCreate p idle :: rest ∧ s.frames t = [] ∧
      ¬ s.asleep t ∧ t ≠ u ∧ s' = (s.create t idle).put u
        ([.lockAcquire .tidLock, .takeTid t, .lockRelease .tidLock, .unblockNew t] ++ rest) := by
  cases h with
  | move hf hm => exact .inl ⟨_, Goes.move hf hm⟩
  | call c hf => exact .inl ⟨_, Goes.call c hf⟩
  | @setIdle rest hf => exact .inr (.inl ⟨rest, hf, rfl⟩)
  | @block rest hf =>
      refine .inl ⟨_, @Goes.of_cons s _ u _ [] rest hf rfl rfl ?_ ?_ ?_ ?_⟩
      all_goals simp
  | @unblock t rest hf =>
      refine .inl ⟨_, @Goes.of_cons s _ u _ [] rest hf rfl rfl ?_ ?_ ?_ ?_⟩
      all_goals simp
  | @unblockNew t rest hf =>
      refine .inl ⟨_, @Goes.of_cons s _ u _ [] rest hf rfl rfl ?_ ?_ ?_ ?_⟩
      all_goals simp
  | active ha =>
      rcases ha.goes with hg | hc
      · exact .inl hg
      · exact .inr (.inr hc)

theorem Goes.mem {fs : List Frame} (h : Goes s u s' fs) {f : Frame} {v : ThreadPtr}
    (hf : f ∈ s'.frames v) (ho : ¬ Ordinary f) : f ∈ s.frames v := by
  rw [h.frames] at hf
  by_cases e : v = u
  · subst e
    rw [Function.update_self] at hf
    exact (h.ordinary f hf).resolve_right ho
  · rwa [Function.update_of_ne e] at hf

theorem Goes.frames_of_ne {fs : List Frame} (h : Goes s u s' fs) {v : ThreadPtr} (hv : v ≠ u) :
    s'.frames v = s.frames v := by
  rw [h.frames, Function.update_of_ne hv]

theorem Mark.not_ordinary {f : Frame} (h : Mark f) : ¬ Ordinary f := by
  unfold Mark at h
  split at h
  · exact fun ho => ho
  · exact fun ho => ho
  · exact h.elim

/-! ## The idle thread -/

/-- **The idle thread.**  At most one is being started, and only while there is none. -/
structure IdleOk (s : Sync) : Prop where
  mark : ∀ u f, f ∈ s.frames u → Mark f → s.idleThread = none
  one : ∀ u v f g, f ∈ s.frames u → Mark f → g ∈ s.frames v → Mark g → u = v
  idle : ∀ i, s.idleThread = some i →
    s.frames i = [.idleBlock] ∨ s.frames i = [.semaUp .idleStarted, .idleBlock]
  block : ∀ u, .idleBlock ∈ s.frames u → s.idleThread = some u ∨ .setIdle ∈ s.frames u

theorem IdleOk.goes (h : IdleOk s) {fs : List Frame} (hg : Goes s u s' fs) : IdleOk s' where
  mark v f hf hm := by
    rw [hg.idleThread]
    exact h.mark v f (hg.mem hf hm.not_ordinary) hm
  one v w f g hf hm hg' hm' :=
    h.one v w f g (hg.mem hf hm.not_ordinary) hm (hg.mem hg' hm'.not_ordinary) hm'
  idle i hi := by
    rw [hg.idleThread] at hi
    by_cases e : i = u
    · subst e
      rw [hg.frames, Function.update_self, hg.idle (h.idle i hi)]
      exact .inl rfl
    · rw [hg.frames_of_ne e]
      exact h.idle i hi
  block v hv := by
    rw [hg.idleThread]
    rcases h.block v (hg.mem hv fun ho => ho) with hi | hs
    · exact .inl hi
    · refine .inr ?_
      by_cases e : v = u
      · subst e
        rw [hg.frames, Function.update_self]
        exact hg.setIdle hs
      · rwa [hg.frames_of_ne e]

theorem IdleOk.setIdle (h : IdleOk s) (hshape : Shape s) {rest : List Frame}
    (hf : s.frames u = .setIdle :: rest) : IdleOk { s.put u rest with idleThread := some u } := by
  have hrest : rest = [.semaUp .idleStarted, .idleBlock] := (hshape.cons hf).1
  have hu : .setIdle ∈ s.frames u := by simp [hf]
  have hself : (s.put u rest).frames u = rest := put_frames_self
  -- the mark of the step just taken was the only one
  have hnone : ∀ v f, f ∈ (s.put u rest).frames v → ¬ Mark f := by
    intro v f hv hm
    by_cases e : v = u
    · rw [e, hself, hrest] at hv
      simp only [List.mem_cons, List.not_mem_nil, or_false] at hv
      rcases hv with rfl | rfl <;> exact hm
    · rw [put_frames_of_ne e] at hv
      exact e (h.one v u f _ hv hm hu trivial)
  refine ⟨fun v f hv hm => absurd hm (hnone v f hv), fun v w f g hv hm => absurd hm (hnone v f hv),
    fun i hi => ?_, fun v hv => ?_⟩
  · cases hi
    exact .inr (hself.trans hrest)
  · by_cases e : v = u
    · exact .inl (by rw [e])
    · have hv' : .idleBlock ∈ s.frames v := by
        have hv2 : .idleBlock ∈ (s.put u rest).frames v := hv
        rwa [put_frames_of_ne e] at hv2
      rcases h.block v hv' with hi | hs
      · rw [h.mark u _ hu trivial] at hi
        cases hi
      · exact absurd (h.one v u _ _ hs trivial hu trivial) e

theorem IdleOk.create (h : IdleOk s) (hshape : Shape s) {p : ℤ} {idle : Bool} {rest : List Frame}
    (hf : s.frames u = .threadCreate p idle :: rest) (ht : s.frames t = []) (hne : t ≠ u) :
    IdleOk ((s.create t idle).put u
      ([.lockAcquire .tidLock, .takeTid t, .lockRelease .tidLock, .unblockNew t] ++ rest)) := by
  set fs := [.lockAcquire .tidLock, .takeTid t, .lockRelease .tidLock, .unblockNew t] ++ rest
    with hfs
  have hself : ((s.create t idle).put u fs).frames u = fs := put_frames_self
  have hnew : ((s.create t idle).put u fs).frames t = firstFrames idle := by
    rw [put_frames_of_ne hne]
    exact Function.update_self ..
  have hother : ∀ v, v ≠ u → v ≠ t → ((s.create t idle).put u fs).frames v = s.frames v := by
    intro v hv hv'
    rw [put_frames_of_ne hv]
    exact Function.update_of_ne hv' _ _
  have hrest : rest = [] ∨ rest = [.semaDown .idleStarted] := by
    have hg := (hshape.cons hf).1
    cases idle with
    | true => exact .inr hg
    | false => exact .inl hg
  -- a marked step is the new thread's, and then its creator's was marked, or an old one
  have hmark : ∀ v f, f ∈ ((s.create t idle).put u fs).frames v → Mark f →
      (v = t ∧ idle = true) ∨ (v ≠ u ∧ f ∈ s.frames v) := by
    intro v f hv hm
    by_cases e : v = u
    · rw [e, hself, hfs] at hv
      rcases hrest with rfl | rfl
      · simp only [List.append_nil, List.mem_cons, List.not_mem_nil, or_false] at hv
        rcases hv with rfl | rfl | rfl | rfl <;> exact hm.elim
      · simp only [List.mem_append, List.mem_cons, List.not_mem_nil, or_false] at hv
        rcases hv with (rfl | rfl | rfl | rfl) | rfl <;> exact hm.elim
    · by_cases e' : v = t
      · rw [e', hnew] at hv
        cases idle with
        | true => exact .inl ⟨e', rfl⟩
        | false =>
            rw [firstFrames] at hv
            cases List.mem_singleton.mp hv
            exact hm.elim
      · rw [hother v e e'] at hv
        exact .inr ⟨e, hv⟩
  have hcreator : idle = true → Mark (.threadCreate p idle) := by
    rintro rfl
    trivial
  have hu : .threadCreate p idle ∈ s.frames u := by simp [hf]
  refine ⟨fun v f hv hm => ?_, fun v w f g hv hm hw hm' => ?_, fun i hi => ?_, fun v hv => ?_⟩
  · rcases hmark v f hv hm with ⟨-, hi⟩ | ⟨-, hv⟩
    · exact h.mark u _ hu (hcreator hi)
    · exact h.mark v f hv hm
  · rcases hmark v f hv hm with ⟨evt, hi⟩ | ⟨hvu, hvs⟩
    · rcases hmark w g hw hm' with ⟨ewt, -⟩ | ⟨hwu, hws⟩
      · rw [evt, ewt]
      · exact absurd (h.one w u _ _ hws hm' hu (hcreator hi)) hwu
    · rcases hmark w g hw hm' with ⟨-, hi⟩ | ⟨-, hws⟩
      · exact absurd (h.one v u _ _ hvs hm hu (hcreator hi)) hvu
      · exact h.one v w f g hvs hm hws hm'
  · have hi' := h.idle i hi
    have hiu : i ≠ u := by
      rintro rfl
      rw [hf] at hi'
      simp at hi'
    have hit : i ≠ t := by
      rintro rfl
      rw [ht] at hi'
      simp at hi'
    rw [hother i hiu hit]
    exact hi'
  · by_cases e : v = u
    · rw [e, hself, hfs] at hv
      rcases hrest with rfl | rfl <;> simp at hv
    · by_cases e' : v = t
      · rw [e', hnew]
        rw [e', hnew] at hv
        cases idle with
        | true => exact .inr (by simp [firstFrames])
        | false => simp [firstFrames] at hv
      · rw [hother v e e'] at hv ⊢
        exact h.block v hv

theorem IdleOk.step (h : IdleOk s) (hshape : Shape s) (hs : Step s u s') : IdleOk s' := by
  rcases hs.goes with ⟨fs, hg⟩ | ⟨rest, hf, rfl⟩ | ⟨t, p, idle, rest, hf, ht, -, hne, rfl⟩
  · exact h.goes hg
  · exact h.setIdle hshape hf
  · exact h.create hshape hf ht hne

theorem IdleOk.wake (h : IdleOk s) : IdleOk (s.wake t) := by
  unfold Sync.wake
  refine ⟨?_, ?_, ?_, ?_⟩
  all_goals simp only [up_frames, up_idleThread]
  · exact h.mark
  · exact h.one
  · exact h.idle
  · exact h.block

/-- The step of the idle thread's loop is the idle thread's. -/
theorem IdleOk.of_idleBlock (h : IdleOk s) (hshape : Shape s) {rest : List Frame}
    (hf : s.frames u = .idleBlock :: rest) : s.idleThread = some u := by
  have hrest : rest = [] := (hshape.cons hf).1
  rcases h.block u (by simp [hf]) with hi | hs
  · exact hi
  · rw [hf, hrest] at hs
    simp at hs

/-! ## Threads that are being created -/

/-- **A thread that is being created** sleeps before its first step, and one call of
`thread_create` is going to unblock it. -/
structure CreateOk (s : Sync) : Prop where
  fresh : ∀ u t, .unblockNew t ∈ s.frames u →
    s.asleep t ∧ (s.frames t).head? = some .kernelThread
  one : ∀ u v t, .unblockNew t ∈ s.frames u → .unblockNew t ∈ s.frames v → u = v

/-- Nothing new is created, and what is being created is left alone. -/
theorem CreateOk.keep (h : CreateOk s)
    (hsub : ∀ v t, .unblockNew t ∈ s'.frames v → .unblockNew t ∈ s.frames v)
    (hkeep : ∀ v t, .unblockNew t ∈ s'.frames v → s.asleep t →
      (s.frames t).head? = some .kernelThread → s'.asleep t ∧ s'.frames t = s.frames t) :
    CreateOk s' where
  fresh v t hv := by
    obtain ⟨h1, h2⟩ := h.fresh v t (hsub v t hv)
    obtain ⟨h3, h4⟩ := hkeep v t hv h1 h2
    exact ⟨h3, by rw [h4, h2]⟩
  one v w t hv hw := h.one v w t (hsub v t hv) (hsub w t hw)

theorem up_asleep_of_ne (hw : WaitOk s) (ht : s.asleep t)
    (hne : (s.frames t).head? ≠ some (.semaDownAgain x)) : (s.up x).asleep t := by
  unfold up
  split
  · exact ht
  · next w ws hws =>
      have hmem : w ∈ (s.semas x).waiters := by simp [hws]
      have e : t ≠ w := fun e => hne (e ▸ ((hw x w).mp hmem).2)
      show Function.update s.asleep w False t
      rwa [Function.update_of_ne e]

theorem WaitOk.put (hw : WaitOk s) (hawake : ¬ s.asleep u) (fs : List Frame) :
    WaitOk (s.put u fs) := by
  intro x t
  by_cases e : t = u
  · subst e
    exact iff_of_false (fun hm => hawake ((hw x t).mp hm).1) fun hm => hawake hm.1
  · rw [put_frames_of_ne e]
    exact hw x t

/-- A sleeping thread before its first step sleeps on, unless this step is the end of its
creation. -/
theorem Step.asleep (h : Step s u s') (hw : WaitOk s) (hawake : ¬ s.asleep u) (ht : s.asleep t)
    (hk : (s.frames t).head? = some .kernelThread) :
    s'.asleep t ∨ ∃ rest, s.frames u = .unblockNew t :: rest ∧
      s'.frames = Function.update s.frames u rest := by
  have hne : t ≠ u := fun e => hawake (e ▸ ht)
  have stays : ∀ v p, (v = t → p) → Function.update s.asleep v p t := by
    intro v p hp
    by_cases e : t = v
    · subst e
      rw [Function.update_self]
      exact hp rfl
    · rwa [Function.update_of_ne e]
  cases h with
  | move => exact .inl ht
  | call => exact .inl ht
  | setIdle => exact .inl ht
  | block => exact .inl (stays _ _ fun _ => trivial)
  | unblock hf hempty =>
      refine .inl (stays _ _ fun e => ?_)
      rw [e] at hempty
      simp [hempty] at hk
  | @unblockNew v rest hf =>
      by_cases e : v = t
      · subst e
        exact .inr ⟨rest, hf, rfl⟩
      · exact .inl (stays _ _ fun e' => absurd e' e)
  | active ha =>
      refine .inl ?_
      cases ha with
      | create => exact stays _ _ fun _ => trivial
      | tryTake => exact ht
      | down => exact ht
      | wait => exact stays _ _ fun _ => trivial
      | @up x rest hf =>
          refine up_asleep_of_ne (hw.put hawake rest) ht ?_
          rw [put_frames_of_ne hne, hk]
          simp
      | acquire => exact ht
      | release => exact ht
      | insertSleeper => exact ht

theorem CreateOk.goes (h : CreateOk s) {fs : List Frame} (hg : Goes s u s' fs) (hs : Step s u s')
    (hshape : Shape s) (hw : WaitOk s) (hawake : ¬ s.asleep u) : CreateOk s' := by
  refine h.keep (fun v t hv => hg.mem hv fun ho => ho) fun v t hv ht hk => ?_
  refine ⟨(hs.asleep hw hawake ht hk).resolve_right ?_, hg.frames_of_ne fun e => hawake (e ▸ ht)⟩
  rintro ⟨rest, hf, hframes⟩
  have hu : .unblockNew t ∈ s.frames u := by simp [hf]
  have e : v = u := h.one v u t (hg.mem hv fun ho => ho) hu
  rw [e, hframes, Function.update_self] at hv
  rcases (hshape.cons hf).1 with rfl | rfl <;> simp at hv

theorem CreateOk.setIdle (h : CreateOk s) (hawake : ¬ s.asleep u) {rest : List Frame}
    (hf : s.frames u = .setIdle :: rest) :
    CreateOk { s.put u rest with idleThread := some u } := by
  refine h.keep (fun v t hv => ?_) fun v t _ ht _ => ⟨ht, put_frames_of_ne ?_⟩
  · by_cases e : v = u
    · subst e
      rw [hf]
      have hv' : .unblockNew t ∈ (s.put v rest).frames v := hv
      rw [put_frames_self] at hv'
      exact .tail _ hv'
    · have hv' : .unblockNew t ∈ (s.put u rest).frames v := hv
      rwa [put_frames_of_ne e] at hv'
  · exact fun e => hawake (e ▸ ht)

theorem CreateOk.create (h : CreateOk s) (hshape : Shape s) (hawake : ¬ s.asleep u) {p : ℤ}
    {idle : Bool} {rest : List Frame} (hf : s.frames u = .threadCreate p idle :: rest)
    (ht : s.frames t = []) (hne : t ≠ u) :
    CreateOk ((s.create t idle).put u
      ([.lockAcquire .tidLock, .takeTid t, .lockRelease .tidLock, .unblockNew t] ++ rest)) := by
  set fs := [.lockAcquire .tidLock, .takeTid t, .lockRelease .tidLock, .unblockNew t] ++ rest
    with hfs
  have hself : ((s.create t idle).put u fs).frames u = fs := put_frames_self
  have hnew : ((s.create t idle).put u fs).frames t = firstFrames idle := by
    rw [put_frames_of_ne hne]
    exact Function.update_self ..
  have hother : ∀ v, v ≠ u → v ≠ t → ((s.create t idle).put u fs).frames v = s.frames v := by
    intro v hv hv'
    rw [put_frames_of_ne hv]
    exact Function.update_of_ne hv' _ _
  have hasleep : ∀ v, v = t ∨ s.asleep v → ((s.create t idle).put u fs).asleep v := by
    intro v hv
    show Function.update s.asleep t True v
    by_cases e : v = t
    · rw [e, Function.update_self]
      trivial
    · rw [Function.update_of_ne e]
      exact hv.resolve_left e
  have hrest : ∀ w, .unblockNew w ∉ rest := by
    intro w hw
    have hg := (hshape.cons hf).1
    cases idle with
    | true =>
        rw [show rest = [.semaDown .idleStarted] from hg] at hw
        simp at hw
    | false =>
        rw [show rest = [] from hg] at hw
        simp at hw
  -- what is being created is the new thread, by `u`, or was before, by another thread
  have hcases : ∀ v w, .unblockNew w ∈ ((s.create t idle).put u fs).frames v →
      (v = u ∧ w = t) ∨ (v ≠ u ∧ .unblockNew w ∈ s.frames v) := by
    intro v w hv
    by_cases e : v = u
    · rw [e, hself, hfs] at hv
      simp only [List.mem_append, List.mem_cons, List.not_mem_nil, or_false, hrest w, reduceCtorEq,
        false_or, Frame.unblockNew.injEq] at hv
      exact .inl ⟨e, hv⟩
    · refine .inr ⟨e, ?_⟩
      by_cases e' : v = t
      · rw [e', hnew] at hv
        cases idle <;> simp [firstFrames] at hv
      · rwa [hother v e e'] at hv
  have hold : ∀ v w, .unblockNew w ∈ s.frames v → w ≠ t := by
    rintro v w hv rfl
    have hk := (h.fresh v w hv).2
    simp [ht] at hk
  refine ⟨fun v w hv => ?_, fun v v' w hv hv' => ?_⟩
  · rcases hcases v w hv with ⟨-, rfl⟩ | ⟨-, hv⟩
    · rw [hnew]
      refine ⟨hasleep w (.inl rfl), ?_⟩
      cases idle <;> rfl
    · obtain ⟨h1, h2⟩ := h.fresh v w hv
      rw [hother w (fun e => hawake (e ▸ h1)) (hold v w hv)]
      exact ⟨hasleep w (.inr h1), h2⟩
  · rcases hcases v w hv with ⟨ev, ew⟩ | ⟨-, hs⟩
    · rcases hcases v' w hv' with ⟨ev', -⟩ | ⟨-, hs'⟩
      · rw [ev, ev']
      · exact absurd ew (hold v' w hs')
    · rcases hcases v' w hv' with ⟨-, ew⟩ | ⟨-, hs'⟩
      · exact absurd ew (hold v w hs)
      · exact h.one v v' w hs hs'

theorem CreateOk.step (h : CreateOk s) (hshape : Shape s) (hw : WaitOk s) (hawake : ¬ s.asleep u)
    (hs : Step s u s') : CreateOk s' := by
  rcases hs.goes with ⟨fs, hg⟩ | ⟨rest, hf, rfl⟩ | ⟨t, p, idle, rest, hf, ht, -, hne, rfl⟩
  · exact h.goes hg hs hshape hw hawake
  · exact h.setIdle hawake hf
  · exact h.create hshape hawake hf ht hne

theorem CreateOk.wake (h : CreateOk s) (hw : WaitOk s) : CreateOk (s.wake t) := by
  unfold Sync.wake
  refine h.keep (fun v w hv => ?_) fun v w hv hs hk => ⟨?_, ?_⟩
  · rwa [up_frames] at hv
  · exact up_asleep_of_ne (s := { s with waitList := s.waitList.erase t }) hw hs (by simp [hk])
  · rw [up_frames]

end Sync

end Pintos.Threads
