import Mathlib.Data.List.Sort
import Mathlib.Tactic

/-!
# Queues ordered by a key, ties by arrival

A queue into which elements are inserted before the first element with a greater key:
`List.orderedInsert` for the strict order of the keys.  Elements with equal keys then
stand in the order they arrived in.  Arrival is a stamp per element, and `Queued` says
that the queue is ordered by key and, where the keys are equal, by stamp.

* `Queued.insert` — inserting an element with a fresh stamp keeps the order.
* `Queued.head_le` — the head has the least key.
* `Queued.congr` — only the keys and stamps of the members matter.
-/

namespace Lib

variable {α κ : Type} [LinearOrder κ] {key key' : α → κ} {stamp stamp' : α → ℕ} {x : α}
  {l : List α}

/-- The insertion: before the first element with a greater key. -/
abbrev enqueue (key : α → κ) (x : α) (l : List α) : List α :=
  l.orderedInsert (fun a b => key a < key b) x

/-- Ordered by key, and elements with equal keys by stamp. -/
def Queued (key : α → κ) (stamp : α → ℕ) (l : List α) : Prop :=
  l.Pairwise fun a b => key a < key b ∨ key a = key b ∧ stamp a < stamp b

@[simp] theorem mem_enqueue {y : α} : y ∈ enqueue key x l ↔ y = x ∨ y ∈ l :=
  List.mem_orderedInsert _

theorem enqueue_perm : (enqueue key x l).Perm (x :: l) := List.perm_orderedInsert _ x l

/-- The elements the insertion looks at: those it passes, and the one it stops at. -/
def lookedAt (key : α → κ) (x : α) : List α → List α
  | [] => []
  | y :: l => if key x < key y then [y] else y :: lookedAt key x l

theorem mem_of_mem_lookedAt {y : α} : ∀ {l : List α}, y ∈ lookedAt key x l → y ∈ l := by
  intro l
  induction l with
  | nil => exact fun h => h
  | cons z l ih =>
      intro h
      rw [lookedAt] at h
      split at h
      · exact List.mem_singleton.mp h ▸ List.mem_cons_self
      · rcases List.mem_cons.mp h with rfl | h
        · exact List.mem_cons_self
        · exact List.mem_cons_of_mem _ (ih h)

theorem Queued.nil : Queued key stamp [] := List.Pairwise.nil

theorem Queued.tail {y : α} (h : Queued key stamp (y :: l)) : Queued key stamp l :=
  (List.pairwise_cons.mp h).2

/-- The head has the least key. -/
theorem Queued.head_le {y : α} (h : Queued key stamp (y :: l)) : ∀ z ∈ y :: l, key y ≤ key z := by
  intro z hz
  rcases List.mem_cons.mp hz with rfl | hz
  · exact le_rfl
  · rcases (List.pairwise_cons.mp h).1 z hz with hlt | ⟨heq, -⟩
    · exact hlt.le
    · exact heq.le

/-- No element stands in a queue twice. -/
theorem Queued.nodup (h : Queued key stamp l) : l.Nodup :=
  h.imp fun hab e => by
    subst e
    rcases hab with h | ⟨-, h⟩
    · exact lt_irrefl _ h
    · exact lt_irrefl _ h

/-- The order depends on the keys and stamps of the members only. -/
theorem Queued.congr (h : Queued key stamp l) (hkey : ∀ y ∈ l, key' y = key y)
    (hstamp : ∀ y ∈ l, stamp' y = stamp y) : Queued key' stamp' l := by
  refine List.Pairwise.imp_of_mem ?_ h
  intro a b ha hb hab
  rwa [hkey a ha, hkey b hb, hstamp a ha, hstamp b hb]

theorem Queued.erase [BEq α] (h : Queued key stamp l) : Queued key stamp (l.erase x) :=
  List.Pairwise.sublist List.erase_sublist h

/-- **Inserting an element that arrives last** keeps the order. -/
theorem Queued.insert (h : Queued key stamp l) (last : ∀ y ∈ l, stamp y < stamp x) :
    Queued key stamp (enqueue key x l) := by
  induction l with
  | nil => exact List.pairwise_singleton _ _
  | cons y l ih =>
      rw [enqueue, List.orderedInsert_cons]
      split
      · next hlt =>
          refine List.pairwise_cons.mpr ⟨fun z hz => .inl ?_, h⟩
          exact hlt.trans_le (h.head_le z hz)
      · next hle =>
          obtain ⟨hy, hl⟩ := List.pairwise_cons.mp h
          refine List.pairwise_cons.mpr ⟨fun z hz => ?_, ih hl fun z hz => last z (.tail _ hz)⟩
          rcases mem_enqueue.mp hz with rfl | hz
          · rcases (not_lt.mp hle).lt_or_eq with hlt | heq
            · exact .inl hlt
            · exact .inr ⟨heq, last y List.mem_cons_self⟩
          · exact hy z hz

/-- The insertion keeps a list that is sorted by key sorted. -/
theorem pairwise_enqueue (h : l.Pairwise fun a b => key a ≤ key b) :
    (enqueue key x l).Pairwise fun a b => key a ≤ key b := by
  induction l with
  | nil => exact List.pairwise_singleton _ _
  | cons y l ih =>
      obtain ⟨hy, hl⟩ := List.pairwise_cons.mp h
      rw [enqueue, List.orderedInsert_cons]
      split
      · next hlt =>
          refine List.pairwise_cons.mpr ⟨fun z hz => ?_, h⟩
          rcases List.mem_cons.mp hz with rfl | hz
          · exact hlt.le
          · exact hlt.le.trans (hy z hz)
      · next hle =>
          refine List.pairwise_cons.mpr ⟨fun z hz => ?_, ih hl⟩
          rcases mem_enqueue.mp hz with rfl | hz
          · exact not_lt.mp hle
          · exact hy z hz

end Lib
