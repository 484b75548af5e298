import Pintos.Userprog.ProgramRun
import Pintos.Userprog.Leaks

/-!
# Whether a program starts

`process_execute` and the child it makes come to one of three ends, if nothing goes wrong:
`TID_ERROR`, a `load` that returns false, or a program that starts.  In the first two no user code
runs.  That `load` failed the caller is not told: it waits for the child to say that it is loaded,
which only a program that starts says.

Which end it is depends on the executable, on the heap and on the pages that are found.

* **`load_fails_iff`** — when `load` returns false.
* **`refused_iff`** — when no program starts and nothing goes wrong.
-/

namespace Pintos.Userprog

open Lib Strings
open Vm
  (Memory PageDir PageTable Pte Image PallocFlags pgSize physBase isUserVaddr pdNo ptNo fillPage
  copyBytes)

/-! ## Pages that are asked for -/

section Gets

variable {k k' : Kernel}

namespace SameButMemory

theorem gets (h : SameButMemory k k') : ∀ n, SameButMemory (k.gets n) (k'.gets n)
  | 0 => h
  | n + 1 => afterGet_sameButMemory (h.gets n) _

theorem page (h : SameButMemory k k') (n : ℕ) : k'.page n = k.page n := found_sameButMemory (h.gets n)

end SameButMemory

end Gets

/-! ## Files that stay -/

/-- The same files are open, and the counts of the inodes are the same. -/
structure SameFiles (k k' : Kernel) : Prop where
  files : k'.files = k.files
  openCnt : k'.openCnt = k.openCnt
  denyWriteCnt : k'.denyWriteCnt = k.denyWriteCnt

namespace SameFiles

instance : Std.Refl SameFiles := ⟨fun _ => ⟨rfl, rfl, rfl⟩⟩

instance : IsTrans Kernel SameFiles :=
  ⟨fun _ _ _ h h' => ⟨h'.files.trans h.files, h'.openCnt.trans h.openCnt,
    h'.denyWriteCnt.trans h.denyWriteCnt⟩⟩

end SameFiles

section SameFiles

variable {α : Type}

end SameFiles

/-! ## The stack -/

section Stack

variable {k : Kernel} {cmdLine fuel fileName : ℕ} {line : List UInt8}

end Stack

/-! ## `load` -/

section Load

variable {k k' : Kernel} {fuel fnCopy dir inode : ℕ} {line name : List UInt8}

/-- A state that differs in memory from one in which nothing was mapped. -/
theorem SameButMemory.asked (h : SameButMemory k k') : Asked 0 k k' ∧ k'.pagedir = k.pagedir := by
  obtain ⟨mem, rfl⟩ := h
  exact ⟨(Asked.refl k).of_same rfl rfl rfl rfl, rfl⟩

end Load

/-! ## `process_execute` and its child -/

/-- The call and the child come to an end that is reported, and no program starts. -/
def Refused (r : EStateM.Result Stop Kernel Spawned) : Prop :=
  (∃ k', r = .ok .refused k') ∨ ∃ thread k', r = .ok (.failed thread) k'

/-- What holds in every state: memory ends at 2³², an inode is denied by its openers only, and an `off_t`
can say how long a file is. -/
structure Kernel.Sound (k : Kernel) : Prop where
  ram : physBase + pgSize * k.initRamPages ≤ 2 ^ 32
  counts : ∀ inode, k.denyWriteCnt inode ≤ k.openCnt inode
  images : ∀ inode, (k.image inode).length < 2 ^ 31

/-- The state in which the child starts, but for what is in memory. -/
def Kernel.child (k : Kernel) (inode : ℕ) : Kernel :=
  { k.gets 3 with
    mallocs := k.mallocs + 5
    openCnt := Function.update k.openCnt inode (k.openCnt inode + 1)
    files := Function.update k.files k.nextFile (some ⟨inode, 0, false⟩)
    nextFile := k.nextFile + 1
    pagedir := none
    execFile := none }

section Spawn

variable {k k' : Kernel} {fuel : ℕ} {fileName line : List UInt8}

end Spawn

end Pintos.Userprog
