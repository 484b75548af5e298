import Mathlib.Tactic

/-!
# Commands that may stop

Kernel code runs in a state and either returns a value or stops for a reason: a
panic, the death of the calling thread, a value that C leaves undefined.  Such a
command is an `EStateM ε σ α`; **the state at the stop is kept**, so a property of
every state that is reached can be stated of a run that panics as well.

`Ends r Q E` says where a run `r` may end: in `Q a s` if it returned `a` in the state
`s`, in `E e s` if it stopped with `e`.  A specification of a command `m` is a
theorem `Ends (m s) Q E` under a hypothesis on `s`.  `Q` and `E` may mention `s`, so
there is no need for auxiliary variables, and **the rule for sequencing is
`Ends.bind`**: the specification of the first command gives the states the second
one may start in.

Two stronger forms: `Exactly r C Q` says also when a run returns, and `Moves R m` relates
the states before and after every run of `m`, returned or stopped.
-/

namespace Lib

variable {ε σ α β : Type}

/-- Reads a part of the state. -/
def fetch (f : σ → α) : EStateM ε σ α := fun s => .ok (f s) s

/-- Changes the state. -/
def change (f : σ → σ) : EStateM ε σ Unit := fun s => .ok () (f s)

/-- Stops, and leaves the state as it is. -/
def stop (e : ε) : EStateM ε σ α := fun s => .error e s

/-- Where a run may end. -/
def Ends (r : EStateM.Result ε σ α) (Q : α → σ → Prop) (E : ε → σ → Prop) : Prop :=
  match r with
  | .ok a s => Q a s
  | .error e s => E e s

/-- The state a run ends in, returned or stopped. -/
def final : EStateM.Result ε σ α → σ
  | .ok _ s => s
  | .error _ s => s

section Equations

variable {s : σ}

@[simp] theorem pure_run (a : α) : (pure a : EStateM ε σ α) s = .ok a s := rfl

@[simp] theorem fetch_run (f : σ → α) : (fetch f : EStateM ε σ α) s = .ok (f s) s := rfl

@[simp] theorem change_run (f : σ → σ) : (change f : EStateM ε σ Unit) s = .ok () (f s) := rfl

@[simp] theorem stop_run (e : ε) : (stop e : EStateM ε σ α) s = .error e s := rfl

/-- Sequencing, once the first command has returned. -/
theorem bind_of_ok {m : EStateM ε σ α} {f : α → EStateM ε σ β} {a : α} {s' : σ}
    (h : m s = .ok a s') : (m >>= f) s = f a s' := by
  show EStateM.bind m f s = _
  rw [EStateM.bind, h]

/-- Sequencing, once the first command has stopped. -/
theorem bind_of_error {m : EStateM ε σ α} {f : α → EStateM ε σ β} {e : ε} {s' : σ}
    (h : m s = .error e s') : (m >>= f) s = .error e s' := by
  show EStateM.bind m f s = _
  rw [EStateM.bind, h]

@[simp] theorem fetch_bind (f : σ → α) (g : α → EStateM ε σ β) : (fetch f >>= g) s = g (f s) s := rfl

@[simp] theorem change_bind (f : σ → σ) (g : Unit → EStateM ε σ β) :
    (change f >>= g) s = g () (f s) := rfl

@[simp] theorem stop_bind (e : ε) (g : α → EStateM ε σ β) :
    (stop e >>= g) s = .error e s := rfl

@[simp] theorem pure_bind_run (a : α) (g : α → EStateM ε σ β) :
    ((pure a : EStateM ε σ α) >>= g) s = g a s := rfl

end Equations

namespace Ends

variable {Q Q' : α → σ → Prop} {R : β → σ → Prop} {E E' : ε → σ → Prop} {s : σ}

/-- The conditions at the end may be weakened. -/
theorem mono {r : EStateM.Result ε σ α} (h : Ends r Q E) (hQ : ∀ a s, Q a s → Q' a s)
    (hE : ∀ e s, E e s → E' e s) : Ends r Q' E' := by
  cases r with
  | ok a s => exact hQ a s h
  | error e s => exact hE e s h

/-- **Sequencing.** -/
theorem bind {m : EStateM ε σ α} {f : α → EStateM ε σ β} (h : Ends (m s) Q E)
    (hf : ∀ a s', Q a s' → Ends (f a s') R E) : Ends ((m >>= f) s) R E := by
  cases hm : m s with
  | ok a s' =>
      rw [hm] at h
      rw [bind_of_ok hm]
      exact hf a s' h
  | error e s' =>
      rw [hm] at h
      rw [bind_of_error hm]
      exact h

theorem fetch {f : σ → α} {g : α → EStateM ε σ β} (h : Ends (g (f s) s) R E) :
    Ends ((Lib.fetch f >>= g) s) R E := h

theorem change {f : σ → σ} {g : Unit → EStateM ε σ β} (h : Ends (g () (f s)) R E) :
    Ends ((Lib.change f >>= g) s) R E := h

/-- A choice between two commands. -/
theorem ite {c : Prop} [Decidable c] {m m' : EStateM ε σ α} (h : c → Ends (m s) Q E)
    (h' : ¬ c → Ends (m' s) Q E) : Ends ((if c then m else m') s) Q E := by
  split
  · next hc => exact h hc
  · next hc => exact h' hc

/-- Two specifications of one run. -/
theorem and {r : EStateM.Result ε σ α} (h : Ends r Q E) (h' : Ends r Q' E') :
    Ends r (fun a s => Q a s ∧ Q' a s) fun e s => E e s ∧ E' e s := by
  cases r with
  | ok a s => exact ⟨h, h'⟩
  | error e s => exact ⟨h, h'⟩

end Ends

/-- **An exact specification**: the run returns if and only if `C` holds, and then in `Q`. -/
def Exactly (r : EStateM.Result ε σ α) (C : Prop) (Q : α → σ → Prop) : Prop :=
  Ends r (fun a s => C ∧ Q a s) fun _ _ => ¬ C

namespace Exactly

variable {r : EStateM.Result ε σ α} {C D : Prop} {Q Q' : α → σ → Prop} {R : β → σ → Prop} {s : σ}

theorem returns (h : Exactly r C Q) (hC : C) : ∃ a s, r = .ok a s ∧ Q a s := by
  cases r with
  | ok a s => exact ⟨a, s, rfl, h.2⟩
  | error e s => exact absurd hC h

theorem stops (h : Exactly r C Q) (hC : ¬ C) : ∃ e s, r = .error e s := by
  cases r with
  | ok a s => exact absurd h.1 hC
  | error e s => exact ⟨e, s, rfl⟩

theorem mono (h : Exactly r C Q) (hC : C ↔ D) (hQ : ∀ a s, C → Q a s → Q' a s) : Exactly r D Q' :=
  Ends.mono h (fun a s hq => ⟨hC.mp hq.1, hQ a s hq.1 hq.2⟩) fun _ _ hn hD => hn (hC.mpr hD)

/-- **Sequencing**: both parts must return. -/
theorem bind {m : EStateM ε σ α} {f : α → EStateM ε σ β} (h : Exactly (m s) C Q)
    (hf : ∀ a s', C → Q a s' → Exactly (f a s') D R) : Exactly ((m >>= f) s) (C ∧ D) R := by
  cases hm : m s with
  | ok a s' =>
      rw [hm] at h
      rw [bind_of_ok hm]
      exact (hf a s' h.1 h.2).mono ⟨fun hD => ⟨h.1, hD⟩, fun hCD => hCD.2⟩ fun _ _ _ hR => hR
  | error e s' =>
      rw [hm] at h
      rw [bind_of_error hm]
      exact fun hCD => h hCD.1

end Exactly

/-- **A frame condition**: whether `m` returns or stops, the states before and after it are
related. -/
def Moves (R : σ → σ → Prop) (m : EStateM ε σ α) : Prop := ∀ s, R s (final (m s))

namespace Moves

variable {R R' : σ → σ → Prop}

theorem mono {m : EStateM ε σ α} (h : Moves R m) (hR : ∀ s s', R s s' → R' s s') : Moves R' m :=
  fun s => hR _ _ (h s)

/-- A frame condition as a specification. -/
theorem ends {m : EStateM ε σ α} (h : Moves R m) (s : σ) :
    Ends (m s) (fun _ s' => R s s') fun _ s' => R s s' := by
  have hs := h s
  cases e : m s with
  | ok a s' =>
      rw [e] at hs
      exact hs
  | error x s' =>
      rw [e] at hs
      exact hs

theorem fetch [Std.Refl R] (f : σ → α) : Moves R (Lib.fetch f : EStateM ε σ α) :=
  fun s => refl_of R s

theorem pure [Std.Refl R] (a : α) : Moves R (Pure.pure a : EStateM ε σ α) := fun s => refl_of R s

theorem stop [Std.Refl R] (e : ε) : Moves R (Lib.stop e : EStateM ε σ α) := fun s => refl_of R s

theorem change {f : σ → σ} (h : ∀ s, R s (f s)) : Moves R (Lib.change f : EStateM ε σ Unit) := h

/-- **Sequencing.** -/
theorem bind [IsTrans σ R] {m : EStateM ε σ α} {f : α → EStateM ε σ β} (hm : Moves R m)
    (hf : ∀ a, Moves R (f a)) : Moves R (m >>= f) := by
  intro s
  have h := hm s
  cases e : m s with
  | ok a s' =>
      rw [e] at h
      rw [bind_of_ok e]
      exact trans_of R h (hf a s')
  | error x s' =>
      rw [e] at h
      rw [bind_of_error e]
      exact h

/-- A choice between two commands. -/
theorem ite {c : Prop} [Decidable c] {m m' : EStateM ε σ α} (h : Moves R m) (h' : Moves R m') :
    Moves R (if c then m else m') := by
  split
  · exact h
  · exact h'

end Moves

/-- Runs `body` for every element of a list, in order. -/
def forEach (body : α → EStateM ε σ Unit) : List α → EStateM ε σ Unit
  | [] => pure ()
  | a :: rest => do
      body a
      forEach body rest

/-- **The rule for `forEach`**: the invariant speaks of the elements still to come. -/
theorem Ends.forEach {body : α → EStateM ε σ Unit} {I : List α → σ → Prop} {E : ε → σ → Prop}
    (hstep : ∀ a rest s, I (a :: rest) s → Ends (body a s) (fun _ => I rest) E) :
    ∀ {l : List α} {s : σ}, I l s → Ends (Lib.forEach body l s) (fun _ => I []) E := by
  intro l
  induction l with
  | nil =>
      intro s h
      exact h
  | cons a rest ih =>
      intro s h
      exact Ends.bind (hstep a rest s h) fun _ _ h' => ih h'

end Lib
