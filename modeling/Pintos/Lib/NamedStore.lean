import Mathlib.Logic.Function.Basic
import Pintos.Lib.GrowArray
import Pintos.Lib.Runs

/-!
# Stores of named files

A store gives names to files and lets callers hold handles on them.  A file is a growable array; a handle
is a file, a position in it, and the mark that its holder denies writes to the file.  Names and handles
refer to files by identifiers, so that **a file whose name is removed lives on under its handles**, and
the identifier of a file that nothing refers to may be given to a new one.

`Does` is one call: the store before it, the call, its reply and the store after it.  It is a relation
since a store is free to choose the identifier of a new file and the handle of an opened one, and what
storage a call costs or gives back.  **A creation is refused exactly if the name is taken or not one that a
file may have, or no storage is free**; a refused call changes neither names nor files nor handles.

* `runs_of_simulation` — an implementation each of whose steps is a call of the store gives the replies
  of a run of the store.
* **`Runs.denied_kept`** — a file keeps its contents as long as a holder of it denies writes.
-/

namespace Lib.NamedStore

/-- A handle. -/
structure Handle (ι : Type) where
  file : ι
  pos : ℕ
  denies : Bool
deriving DecidableEq, Repr

/-- What the names lead to, what is in the files, the handles, and the units of storage that are free. -/
structure Store (ν ι η α : Type) where
  named : ν → Option ι
  contents : ι → List α
  handle : η → Option (Handle ι)
  free : ℕ

/-- A call.  A new file has a kind, of which the store keeps no record. -/
inductive Call (ν κ η α : Type) where
  | create (name : ν) (kind : κ) (size : ℕ)
  | open (name : ν)
  | length (h : η)
  | tell (h : η)
  | read (h : η) (size : ℕ)
  | write (h : η) (data : List α)
  | seek (h : η) (pos : ℕ)
  | deny (h : η)
  | allow (h : η)
  | remove (name : ν)
  | close (h : η)
deriving DecidableEq

/-- A reply. -/
inductive Reply (η α : Type) where
  | done
  | success (b : Bool)
  | opened (h : Option η)
  | count (n : ℕ)
  | data (l : List α)
deriving DecidableEq

variable {ν ι η κ α : Type} [DecidableEq ν] [DecidableEq ι] [DecidableEq η]

namespace Store

/-- Something refers to the file. -/
def Alive (A : Store ν ι η α) (i : ι) : Prop :=
  (∃ n, A.named n = some i) ∨ ∃ h x, A.handle h = some x ∧ x.file = i

/-- A holder of the file denies writes to it. -/
def Denied (A : Store ν ι η α) (i : ι) : Prop :=
  ∃ h x, A.handle h = some x ∧ x.file = i ∧ x.denies = true

def setName (A : Store ν ι η α) (n : ν) (o : Option ι) : Store ν ι η α :=
  { A with named := Function.update A.named n o }

def setContents (A : Store ν ι η α) (i : ι) (l : List α) : Store ν ι η α :=
  { A with contents := Function.update A.contents i l }

def setHandle (A : Store ν ι η α) (h : η) (o : Option (Handle ι)) : Store ν ι η α :=
  { A with handle := Function.update A.handle h o }

def setFree (A : Store ν ι η α) (free : ℕ) : Store ν ι η α :=
  { A with free }

/-- The bytes a read returns. -/
def bytesAt (A : Store ν ι η α) (x : Handle ι) (size : ℕ) : List α :=
  GrowArray.read (A.contents x.file) size x.pos

/-- A write through the handle. -/
def written (A : Store ν ι η α) (zero : α) (h : η) (x : Handle ι) (data : List α) : Store ν ι η α :=
  (A.setContents x.file (GrowArray.write zero (A.contents x.file) data x.pos)).setHandle h
    (some { x with pos := x.pos + data.length })

/-- A store without names and handles. -/
def empty (contents : ι → List α) (free : ℕ) : Store ν ι η α where
  named _ := none
  contents := contents
  handle _ := none
  free := free

end Store

/-- A file with this name can be created: the name may be one of a file and is not taken, and there is
storage. -/
def Store.CanCreate (legal : ν → Prop) (A : Store ν ι η α) (n : ν) : Prop :=
  legal n ∧ A.named n = none ∧ 0 < A.free

/-- **One call.** -/
inductive Does (legal : ν → Prop) (zero : α) :
    Store ν ι η α → Call ν κ η α → Reply η α → Store ν ι η α → Prop where
  | created {A n k i} (size free : ℕ) : A.CanCreate legal n → ¬ A.Alive i →
      Does legal zero A (.create n k size) (.success true)
        (((A.setContents i (List.replicate size zero)).setName n (some i)).setFree free)
  | refused {A n k size} (free : ℕ) : ¬ A.CanCreate legal n →
      Does legal zero A (.create n k size) (.success false) (A.setFree free)
  | opened {A n i h} : A.named n = some i → A.handle h = none →
      Does legal zero A (.open n) (.opened (some h)) (A.setHandle h (some ⟨i, 0, false⟩))
  | missing {A n} : A.named n = none → Does legal zero A (.open n) (.opened none) A
  | length {A h x} : A.handle h = some x →
      Does legal zero A (.length h) (.count (A.contents x.file).length) A
  | tell {A h x} : A.handle h = some x → Does legal zero A (.tell h) (.count x.pos) A
  | read {A h x} (size : ℕ) : A.handle h = some x →
      Does legal zero A (.read h size) (.data (A.bytesAt x size))
        (A.setHandle h (some { x with pos := x.pos + (A.bytesAt x size).length }))
  | wrote {A h x} (data : List α) (free : ℕ) : A.handle h = some x → ¬ A.Denied x.file →
      Does legal zero A (.write h data) (.count data.length) ((A.written zero h x data).setFree free)
  | denied {A h x} (data : List α) : A.handle h = some x → A.Denied x.file →
      Does legal zero A (.write h data) (.count 0) A
  | seek {A h x} (pos : ℕ) : A.handle h = some x →
      Does legal zero A (.seek h pos) .done (A.setHandle h (some { x with pos }))
  | deny {A h x} : A.handle h = some x →
      Does legal zero A (.deny h) .done (A.setHandle h (some { x with denies := true }))
  | allow {A h x} : A.handle h = some x →
      Does legal zero A (.allow h) .done (A.setHandle h (some { x with denies := false }))
  | removed {A n i} (free : ℕ) : A.named n = some i →
      Does legal zero A (.remove n) (.success true) ((A.setName n none).setFree free)
  | unknown {A n} : A.named n = none → Does legal zero A (.remove n) (.success false) A
  | close {A h x} (free : ℕ) : A.handle h = some x →
      Does legal zero A (.close h) .done ((A.setHandle h none).setFree free)

/-- A run: the calls and their replies. -/
inductive Runs (legal : ν → Prop) (zero : α) :
    Store ν ι η α → List (Call ν κ η α) → List (Reply η α) → Store ν ι η α → Prop where
  | nil (A) : Runs legal zero A [] [] A
  | cons {A B C c r cs rs} : Does legal zero A c r B → Runs legal zero B cs rs C →
      Runs legal zero A (c :: cs) (r :: rs) C

/-! ## One call -/

section Calls

variable {legal : ν → Prop} {zero : α} {A B : Store ν ι η α} {c : Call ν κ η α} {r : Reply η α}
  {h : η} {x : Handle ι} {i : ι}

/-- What a handle keeps as long as it is neither closed nor told to allow writes. -/
theorem Does.handle_kept (d : Does legal zero A c r B) (hx : A.handle h = some x) (hden : x.denies = true)
    (hclose : c ≠ .close h) (hallow : c ≠ .allow h) :
    ∃ y, B.handle h = some y ∧ y.file = x.file ∧ y.denies = true := by
  have same : ∃ y, A.handle h = some y ∧ y.file = x.file ∧ y.denies = true := ⟨x, hx, rfl, hden⟩
  -- a change of the handle `g`, which is `h` itself or another one
  have change : ∀ {g o}, (g = h → ∃ y, o = some y ∧ y.file = x.file ∧ y.denies = true) →
      ∃ y, Function.update A.handle g o h = some y ∧ y.file = x.file ∧ y.denies = true := by
    intro g o ho
    by_cases e : g = h
    · subst e
      obtain ⟨y, rfl, hy⟩ := ho rfl
      exact ⟨y, Function.update_self .., hy⟩
    · rw [Function.update_of_ne (Ne.symm e)]
      exact same
  cases d with
  | @opened m j g hm hg =>
      refine change fun e => ?_
      rw [e, hx] at hg
      cases hg
  | @read g y size hy =>
      refine change fun e => ⟨_, rfl, ?_⟩
      rw [e, hx, Option.some.injEq] at hy
      exact ⟨hy ▸ rfl, hy ▸ hden⟩
  | @wrote g y data free hy hnot =>
      refine change fun e => ⟨_, rfl, ?_⟩
      rw [e, hx, Option.some.injEq] at hy
      exact ⟨hy ▸ rfl, hy ▸ hden⟩
  | @seek g y pos hy =>
      refine change fun e => ⟨_, rfl, ?_⟩
      rw [e, hx, Option.some.injEq] at hy
      exact ⟨hy ▸ rfl, hy ▸ hden⟩
  | @deny g y hy =>
      refine change fun e => ⟨_, rfl, ?_⟩
      rw [e, hx, Option.some.injEq] at hy
      exact ⟨hy ▸ rfl, rfl⟩
  | @allow g y hy => exact change fun e => absurd (e ▸ rfl) hallow
  | @close g y free hy => exact change fun e => absurd (e ▸ rfl) hclose
  | _ => exact same

/-- A file that is alive changes only by a write through one of its handles. -/
theorem Does.contents_kept (d : Does legal zero A c r B) (alive : A.Alive i)
    (hwrite : ∀ h data x, c = .write h data → A.handle h = some x → x.file = i → A.Denied i) :
    B.contents i = A.contents i := by
  cases d with
  | @created m k j size free hcan hfresh =>
      have hne : i ≠ j := fun e => hfresh (e ▸ alive)
      exact Function.update_of_ne hne _ _
  | @wrote g y data free hy hnot =>
      have hne : i ≠ y.file := fun e => hnot (e ▸ hwrite g data y rfl hy e.symm)
      exact Function.update_of_ne hne _ _
  | _ => rfl

end Calls

/-! ## Runs -/

section Runs

variable {legal : ν → Prop} {zero : α} {A B : Store ν ι η α} {cs : List (Call ν κ η α)}
  {rs : List (Reply η α)} {h : η} {x : Handle ι}

/-- **Denying writes works**: the file keeps its contents as long as the handle is kept. -/
theorem Runs.denied_kept (run : Runs legal zero A cs rs B) (hx : A.handle h = some x) (hden : x.denies = true)
    (hcs : ∀ c ∈ cs, c ≠ .close h ∧ c ≠ .allow h) :
    B.contents x.file = A.contents x.file ∧ ∃ y, B.handle h = some y ∧ y.file = x.file ∧ y.denies = true := by
  induction run generalizing x with
  | nil => exact ⟨rfl, x, hx, rfl, hden⟩
  | @cons A B C c r cs rs d _ ih =>
      obtain ⟨hclose, hallow⟩ := hcs c (List.mem_cons_self ..)
      have alive : A.Alive x.file := .inr ⟨h, x, hx, rfl⟩
      have denied : A.Denied x.file := ⟨h, x, hx, rfl, hden⟩
      have hsame := d.contents_kept alive fun _ _ _ _ _ _ => denied
      obtain ⟨y, hy, hfile, hyden⟩ := d.handle_kept hx hden hclose hallow
      obtain ⟨hcontents, hlast⟩ := ih hy hyden fun c' hc' => hcs c' (List.mem_cons_of_mem _ hc')
      rw [hfile] at hcontents hlast
      exact ⟨hcontents.trans hsame, hlast⟩

/-- **Simulation.**  If every guarded step of an implementation is a call of the store it represents, a
guarded run fails nowhere and its replies are those of a run of the store. -/
theorem runs_of_simulation {σ ε : Type} {step : σ → Call ν κ η α → Except ε (Reply η α × σ)}
    {guard : σ → Call ν κ η α → Prop} {R : σ → Store ν ι η α → Prop}
    (sim : ∀ s A c, R s A → guard s c → ∃ r s' B, step s c = .ok (r, s') ∧ Does legal zero A c r B ∧ R s' B) :
    ∀ (cs : List (Call ν κ η α)) (s : σ) (A : Store ν ι η α), R s A → Guarded step guard s cs →
      ∃ rs s' B, runOps step s cs = .ok (rs, s') ∧ Runs legal zero A cs rs B ∧ R s' B := by
  intro cs
  induction cs with
  | nil => exact fun s A hR _ => ⟨[], s, A, rfl, .nil A, hR⟩
  | cons c cs ih =>
      intro s A hR guarded
      obtain ⟨r, s1, A1, hstep, d, hR1⟩ := sim s A c hR guarded.1
      obtain ⟨rs, s', B, hrun, run, hR'⟩ := ih s1 A1 hR1 (guarded.2 r s1 hstep)
      refine ⟨r :: rs, s', B, ?_, .cons d run, hR'⟩
      rw [runOps, hstep]
      show (runOps step s1 cs >>= fun x => pure (_ :: x.1, x.2)) = _
      rw [hrun]
      rfl

end Runs

end Lib.NamedStore
