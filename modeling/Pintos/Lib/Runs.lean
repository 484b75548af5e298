import Mathlib.Logic.Relation

/-!
# Runs

Two ways of running a system step by step, and the rules for reasoning about
whole runs.

* `runOps` — a fallible function of a state and an operation, run over a list of
  operations.  `Guarded` says that every operation of the list meets a condition
  in the state it is started in.  `runOps_refines` is the simulation rule.
* `Reaches` — a step relation, closed under any number of steps.  `Reaches.induct`
  is the invariant rule; `replay` runs given operations and reaches what it ends in.
* `Along` and `Always` — a step that always gives a state, run over a list of
  operations: every operation meets a condition in the state it starts in, every state
  has a property.  `Always.of_along` is the invariant rule for them.
* `okWith` — for concrete runs: a computation succeeds and its result passes a test.
-/

namespace Lib

section Ops

variable {σ α op reply ε : Type}

/-- Run a list of operations, collecting the replies. -/
def runOps (step : σ → op → Except ε (reply × σ)) : σ → List op → Except ε (List reply × σ)
  | s, [] => .ok ([], s)
  | s, o :: os => do
      let (r, s) ← step s o
      let (rs, s) ← runOps step s os
      return (r :: rs, s)

/-- Run a list of operations that cannot fail. -/
def pureOps (step : α → op → reply × α) : α → List op → List reply × α
  | a, [] => ([], a)
  | a, o :: os => ((step a o).1 :: (pureOps step (step a o).2 os).1, (pureOps step (step a o).2 os).2)

/-- Every operation meets `guard` in the state it starts in. -/
def Guarded (step : σ → op → Except ε (reply × σ)) (guard : σ → op → Prop) : σ → List op → Prop
  | _, [] => True
  | s, o :: os => guard s o ∧ ∀ r s', step s o = .ok (r, s') → Guarded step guard s' os

instance Guarded.decidable {step : σ → op → Except ε (reply × σ)} {guard : σ → op → Prop}
    [∀ s o, Decidable (guard s o)] : ∀ (s : σ) (os : List op), Decidable (Guarded step guard s os)
  | _, [] => .isTrue trivial
  | s, o :: os =>
      match e : step s o with
      | .ok (r, s') =>
          have : Decidable (Guarded step guard s' os) := Guarded.decidable s' os
          decidable_of_iff (guard s o ∧ Guarded step guard s' os) <| and_congr_right fun _ =>
            ⟨fun h r' s'' e' => by rw [e] at e'; cases e'; exact h, fun h => h r s' e⟩
      | .error x => decidable_of_iff (guard s o) <|
          ⟨fun h => ⟨h, fun r' s'' e' => by rw [e] at e'; cases e'⟩, fun h => h.1⟩

/-- A condition on the operations alone. -/
theorem Guarded.of_forall {step : σ → op → Except ε (reply × σ)} {P : op → Prop} :
    ∀ (os : List op) (s : σ), (∀ o ∈ os, P o) → Guarded step (fun _ o => P o) s os := by
  intro os
  induction os with
  | nil => exact fun _ _ => trivial
  | cons o os ih =>
      intro s h
      exact ⟨h o List.mem_cons_self, fun _ s' _ => ih s' fun x hx => h x (List.mem_cons_of_mem _ hx)⟩

/-- **The simulation rule.**  If every guarded step gives the reply of the abstract
step and keeps the relation, a guarded run gives the replies of the abstract run
and ends in related states. -/
theorem runOps_refines {step : σ → op → Except ε (reply × σ)} {guard : σ → op → Prop}
    {astep : α → op → reply × α} {R : σ → α → Prop}
    (sim : ∀ s a o, R s a → guard s o →
      ∃ s', step s o = .ok ((astep a o).1, s') ∧ R s' (astep a o).2) :
    ∀ (os : List op) (s : σ) (a : α), R s a → Guarded step guard s os →
      ∃ s', runOps step s os = .ok ((pureOps astep a os).1, s') ∧ R s' (pureOps astep a os).2 := by
  intro os
  induction os with
  | nil => exact fun s a h _ => ⟨s, rfl, h⟩
  | cons o os ih =>
      intro s a h guarded
      obtain ⟨s1, hstep, h1⟩ := sim s a o h guarded.1
      obtain ⟨s2, hrun, h2⟩ := ih s1 _ h1 (guarded.2 _ _ hstep)
      refine ⟨s2, ?_, h2⟩
      rw [runOps, hstep]
      show (runOps step s1 os >>= fun x => pure (_ :: x.1, x.2)) = _
      rw [hrun]
      rfl

end Ops

section Relation

variable {σ op ε : Type} {step : σ → σ → Prop}

/-- `t` is reached from `s` by finitely many steps. -/
abbrev Reaches (step : σ → σ → Prop) : σ → σ → Prop := Relation.ReflTransGen step

/-- **The invariant rule.** -/
theorem Reaches.induct {Inv : σ → Prop} (preserved : ∀ s t, step s t → Inv s → Inv t) {s t : σ}
    (h : Reaches step s t) (init : Inv s) : Inv t := by
  induction h with
  | refl => exact init
  | tail _ hst ih => exact preserved _ _ hst ih

/-- A step of a system of operations: one that meets `guard` and does not fail. -/
def OpStep (exec : σ → op → Except ε σ) (guard : σ → op → Prop) (s t : σ) : Prop :=
  ∃ o, guard s o ∧ exec s o = .ok t

/-- Run given operations, each under its guard. -/
def replay (exec : σ → op → Except ε σ) (guard : σ → op → Prop) [∀ s o, Decidable (guard s o)] :
    σ → List op → Option σ
  | s, [] => some s
  | s, o :: os =>
      if guard s o then
        match exec s o with
        | .ok t => replay exec guard t os
        | .error _ => none
      else none

/-- What a replay ends in is reached. -/
theorem replay_reaches {exec : σ → op → Except ε σ} {guard : σ → op → Prop}
    [∀ s o, Decidable (guard s o)] :
    ∀ (os : List op) {s t : σ}, replay exec guard s os = some t →
      Reaches (OpStep exec guard) s t := by
  intro os
  induction os with
  | nil =>
      intro s t h
      cases h
      exact .refl
  | cons o os ih =>
      intro s t h
      rw [replay] at h
      split at h
      · next hg =>
          cases e : exec s o with
          | error x => simp [e] at h
          | ok u =>
              rw [e] at h
              exact .head ⟨o, hg, e⟩ (ih h)
      · cases h

end Relation

section Total

variable {σ op : Type} {after : σ → op → σ}

/-- Every operation meets `guard` in the state it starts in. -/
def Along (after : σ → op → σ) (guard : σ → op → Prop) : σ → List op → Prop
  | _, [] => True
  | s, o :: os => guard s o ∧ Along after guard (after s o) os

/-- Every state of the run, the first and the last among them, has the property `P`. -/
def Always (after : σ → op → σ) (P : σ → Prop) : σ → List op → Prop
  | s, [] => P s
  | s, o :: os => P s ∧ Always after P (after s o) os

instance Along.decidable {guard : σ → op → Prop} [∀ s o, Decidable (guard s o)] :
    ∀ (s : σ) (os : List op), Decidable (Along after guard s os)
  | _, [] => .isTrue trivial
  | s, o :: os =>
      have : Decidable (Along after guard (after s o) os) := Along.decidable (after s o) os
      inferInstanceAs (Decidable (guard s o ∧ Along after guard (after s o) os))

theorem Always.first {P : σ → Prop} {s : σ} {os : List op} (h : Always after P s os) : P s := by
  cases os with
  | nil => exact h
  | cons o os => exact h.1

theorem Always.last {P : σ → Prop} : ∀ {os : List op} {s : σ}, Always after P s os →
    P (os.foldl after s) := by
  intro os
  induction os with
  | nil => exact id
  | cons o os ih => exact fun h => ih h.2

/-- **The invariant rule**: what every guarded step keeps holds of every state. -/
theorem Always.of_along {guard : σ → op → Prop} {P : σ → Prop}
    (step : ∀ s o, P s → guard s o → P (after s o)) :
    ∀ (os : List op) (s : σ), P s → Along after guard s os → Always after P s os := by
  intro os
  induction os with
  | nil => exact fun s h _ => h
  | cons o os ih =>
      intro s h guarded
      exact ⟨h, ih _ (step s o h guarded.1) guarded.2⟩

/-- The property of every state may be weakened. -/
theorem Always.mono {P Q : σ → Prop} (hPQ : ∀ s, P s → Q s) :
    ∀ (os : List op) (s : σ), Always after P s os → Always after Q s os := by
  intro os
  induction os with
  | nil => exact fun s h => hPQ s h
  | cons o os ih => exact fun s h => ⟨hPQ s h.1, ih _ h.2⟩

/-- A run of a system that carries more than another one shows the other one's run. -/
theorem Along.map {τ : Type} {after' : τ → op → τ} {f : τ → σ} (hf : ∀ s o, f (after' s o) = after (f s) o)
    {guard : σ → op → Prop} :
    ∀ (os : List op) (s : τ), Along after' (fun s o => guard (f s) o) s os ↔ Along after guard (f s) os := by
  intro os
  induction os with
  | nil => exact fun _ => Iff.rfl
  | cons o os ih =>
      intro s
      refine and_congr_right fun _ => ?_
      rw [ih (after' s o), hf s o]

theorem Always.map {τ : Type} {after' : τ → op → τ} {f : τ → σ} (hf : ∀ s o, f (after' s o) = after (f s) o)
    {P : σ → Prop} :
    ∀ (os : List op) (s : τ), Always after' (fun s => P (f s)) s os ↔ Always after P (f s) os := by
  intro os
  induction os with
  | nil => exact fun _ => Iff.rfl
  | cons o os ih =>
      intro s
      refine and_congr_right fun _ => ?_
      rw [ih (after' s o), hf s o]

/-- A condition that every step must have met, seen from the state after it. -/
theorem Along.of_always {guard guard' : σ → op → Prop} {P : σ → Prop}
    (step : ∀ s o, guard s o → P (after s o) → guard' s o) :
    ∀ (os : List op) (s : σ), Along after guard s os → Always after P s os →
      Along after guard' s os := by
  intro os
  induction os with
  | nil => exact fun _ _ _ => trivial
  | cons o os ih =>
      intro s guarded h
      exact ⟨step s o guarded.1 h.2.first, ih _ guarded.2 h.2⟩

/-- A condition that every guarded step meets in a state with the property `P`. -/
theorem Along.of_always_before {guard guard' : σ → op → Prop} {P : σ → Prop}
    (step : ∀ s o, P s → guard s o → guard' s o) :
    ∀ (os : List op) (s : σ), Always after P s os → Along after guard s os →
      Along after guard' s os := by
  intro os
  induction os with
  | nil => exact fun _ _ _ => trivial
  | cons o os ih =>
      intro s h guarded
      exact ⟨step s o h.1 guarded.1, ih _ h.2 guarded.2⟩

/-- Two conditions along one run. -/
theorem Along.and {guard guard' : σ → op → Prop} :
    ∀ (os : List op) (s : σ), Along after guard s os → Along after guard' s os →
      Along after (fun s o => guard s o ∧ guard' s o) s os := by
  intro os
  induction os with
  | nil => exact fun _ _ _ => trivial
  | cons o os ih => exact fun s h h' => ⟨⟨h.1, h'.1⟩, ih _ h.2 h'.2⟩

end Total

section Concrete

variable {α ε : Type}

/-- A computation succeeds with a value that passes a test. -/
def okWith (x : Except ε α) (test : α → Bool) : Bool :=
  match x with
  | .ok a => test a
  | .error _ => false

theorem okWith_iff {x : Except ε α} {test : α → Bool} :
    okWith x test = true ↔ ∃ a, x = .ok a ∧ test a = true := by
  cases x <;> simp [okWith]

end Concrete

end Lib
