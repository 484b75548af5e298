import Pintos.Lib.Command

/-!
# Commands and invariants

What holds of a command started in any state with an invariant.

* `Upholds I m Q E`: started in a state with `I`, `m` returns only into states with `I`, what it returns
  is as `Q` says, and if it stops, the reason is as `E` says.
* `Preserves I m Q`: the same, and nothing is said of a command that stops.

Both go through programs by one rule for each way to put commands together.
-/

namespace Lib

variable {ε σ α β : Type}

/-- An invariant is kept by every run that returns, with a result as `Q` says; a run that stops has a
reason as `E` says. -/
def Upholds (I : σ → Prop) (m : EStateM ε σ α) (Q : α → Prop) (E : ε → Prop) : Prop :=
  ∀ s, I s → Ends (m s) (fun a s' => I s' ∧ Q a) fun e _ => E e

namespace Upholds

variable {I : σ → Prop} {m m' : EStateM ε σ α} {f : α → EStateM ε σ β} {Q Q' : α → Prop} {R : β → Prop}
  {E : ε → Prop}

theorem pure {a : α} (h : Q a) : Upholds I (Pure.pure a : EStateM ε σ α) Q E := fun _ hs => ⟨hs, h⟩

theorem stop {e : ε} (h : E e) : Upholds I (Lib.stop e : EStateM ε σ α) Q E := fun _ _ => h

theorem fetch {f : σ → α} (h : ∀ s, I s → Q (f s)) : Upholds I (Lib.fetch f : EStateM ε σ α) Q E :=
  fun s hs => ⟨hs, h s hs⟩

theorem change {f : σ → σ} (h : ∀ s, I s → I (f s)) :
    Upholds I (Lib.change f : EStateM ε σ Unit) (fun _ => True) E :=
  fun s hs => ⟨h s hs, trivial⟩

/-- **Sequencing.** -/
theorem bind (h : Upholds I m Q E) (hf : ∀ a, Q a → Upholds I (f a) R E) : Upholds I (m >>= f) R E :=
  fun s hs => Ends.bind (h s hs) fun a s' ha => hf a ha.2 s' ha.1

theorem ite {c : Prop} [Decidable c] (h : c → Upholds I m Q E) (h' : ¬ c → Upholds I m' Q E) :
    Upholds I (if c then m else m') Q E := by
  split
  · next hc => exact h hc
  · next hc => exact h' hc

theorem mono (h : Upholds I m Q E) (hQ : ∀ a, Q a → Q' a) : Upholds I m Q' E :=
  fun s hs => Ends.mono (h s hs) (fun a _ ha => ⟨ha.1, hQ a ha.2⟩) fun _ _ h => h

/-- What a run that returned leaves. -/
theorem of_ok (h : Upholds I m Q E) {s s' : σ} {a : α} (hs : I s) (hrun : m s = .ok a s') : I s' ∧ Q a := by
  have hends := h s hs
  rw [hrun] at hends
  exact hends

end Upholds

/-- An invariant is kept by every run that returns, with a result as `Q` says. -/
def Preserves (I : σ → Prop) (m : EStateM ε σ α) (Q : α → Prop) : Prop := Upholds I m Q fun _ => True

namespace Preserves

variable {I : σ → Prop} {m m' : EStateM ε σ α} {f : α → EStateM ε σ β} {Q Q' : α → Prop} {R : β → Prop}

theorem pure {a : α} (h : Q a) : Preserves I (Pure.pure a : EStateM ε σ α) Q := Upholds.pure h

theorem stop (e : ε) : Preserves I (Lib.stop e : EStateM ε σ α) Q := Upholds.stop trivial

theorem fetch {f : σ → α} (h : ∀ s, I s → Q (f s)) : Preserves I (Lib.fetch f : EStateM ε σ α) Q :=
  Upholds.fetch h

theorem change {f : σ → σ} (h : ∀ s, I s → I (f s)) :
    Preserves I (Lib.change f : EStateM ε σ Unit) fun _ => True := Upholds.change h

/-- **Sequencing.** -/
theorem bind (h : Preserves I m Q) (hf : ∀ a, Q a → Preserves I (f a) R) : Preserves I (m >>= f) R :=
  Upholds.bind h hf

theorem ite {c : Prop} [Decidable c] (h : c → Preserves I m Q) (h' : ¬ c → Preserves I m' Q) :
    Preserves I (if c then m else m') Q := Upholds.ite h h'

/-- What a run that returned leaves. -/
theorem of_ok (h : Preserves I m Q) {s s' : σ} {a : α} (hs : I s) (hrun : m s = .ok a s') : I s' ∧ Q a :=
  Upholds.of_ok h hs hrun

end Preserves

end Lib
