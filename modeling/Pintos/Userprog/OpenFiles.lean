import Pintos.Userprog.Execute
import Pintos.Userprog.Pages

/-!
# Names and files on the way to a process

What `strlcpy`, `strtok_r` and `filesys_open` do where `process_execute` and `load` use them.

* **`copyLine_run`** — the copy of the command line.
* **`filesysOpen_some`**, **`filesysOpen_none`** — a file is opened, or nothing has changed.
* **`filesysOpen_null`** — a null pointer, which is what `strtok_r` gives for a line without words.
-/

namespace Pintos.Userprog

open Lib Strings
open Vm (Memory PageDir PageTable Pte Image PallocFlags pgSize physBase isUserVaddr pdNo ptNo fillPage
  copyBytes)

/-! ## Strings -/

section Names

variable {k : Kernel} {dst fuel p : ℕ} {line name : List UInt8}

/-- The command line, as far as it is copied. -/
abbrev cutLine (fileName : List UInt8) : List UInt8 := fileName.take (pgSize - 1)

theorem length_cutLine (fileName : List UInt8) : (cutLine fileName).length < pgSize := by
  have hpage : pgSize = 4096 := rfl
  rw [List.length_take]
  omega

/-- **The copy of the command line.** -/
theorem copyLine_run (hdst : dst ≠ 0) (hz : 0 ∉ line) : ∃ mem',
    copyLine dst line k = .ok () { k with mem := mem' } ∧ IsString mem' dst (cutLine line) ∧
      ∀ a, ¬ InPage dst a → mem' a = k.mem a := by
  have hlen := length_cutLine line
  refine ⟨copyBytes k.mem dst ((cutLine line).length + 1) fun i => (cutLine line).getD i 0, ?_,
    ⟨fun i hi => ?_, fun hm => hz (List.mem_of_mem_take hm)⟩, fun a ha => ?_⟩
  · rw [copyLine, bind_of_ok (assert_run (by simpa using hdst))]
    rfl
  · rw [copyBytes, if_pos (by omega), Nat.add_sub_cancel_left]
  · unfold InPage at ha
    rw [copyBytes, if_neg (by omega)]

/-- The name a pointer points to. -/
theorem nameAt_run (h : IsString k.mem p name) (hp : p ≠ 0) (hf : name.length < fuel) :
    nameAt fuel p k = .ok (some name) k := by
  have hlen : onMemory (strlen fuel p) k = .ok name.length k := onMemory_ok (strlen_run h hp hf)
  have hname : (List.range name.length).map (fun i => k.mem (p + i)) = name := by
    refine List.ext_getElem (by simp) fun i hi hi' => ?_
    rw [List.getElem_map, List.getElem_range, h.chars i hi'.le, List.getD_eq_getElem _ _ hi']
  rw [nameAt, if_neg hp, bind_of_ok hlen, fetch_bind, hname]
  rfl

theorem nameAt_null : nameAt fuel 0 k = .ok none k := rfl

/-- The first word of a line, as `strtok_r` and the functions behind it see it. -/
theorem firstWord_run (h : IsString k.mem p line) (hp : p ≠ 0) (hf : line.length < fuel) : ∃ mem' token save,
    onMemory (strtokR fuel space p 0) k = .ok (token, save) { k with mem := mem' } ∧
      nameAt fuel token { k with mem := mem' } = .ok (tokens line).head? { k with mem := mem' } ∧
      ∀ a, a < p ∨ p + line.length ≤ a → mem' a = k.mem a := by
  obtain ⟨token, save, mem', hrun, stands, -, frame, -⟩ := stands_next h hp hf p 0 (if_neg hp)
  refine ⟨mem', token, save, onMemory_ok hrun, ?_, frame⟩
  generalize htokens : tokens line = ws at stands
  cases stands with
  | done => exact nameAt_null
  | @word _ _ w rest null here following start next ends =>
      have hw : w ∈ tokens line := by rw [htokens]; exact List.mem_cons_self
      have hlen : w.length ≤ line.length := (sublist_of_mem_words hw).length_le
      exact nameAt_run here null (by omega)

end Names

/-! ## Opening -/

section Opening

variable {k : Kernel} {name : List UInt8}

/-- There is memory to open the root directory. -/
def Kernel.rootOpens (k : Kernel) : Bool := k.heap k.mallocs && k.heap (k.mallocs + 1)

/-- There is a file of that name in the root directory, and memory to open it. -/
def Kernel.opens (k : Kernel) (name : List UInt8) : Bool :=
  k.rootOpens && (k.rootDir name).isSome && k.heap (k.mallocs + 2) && k.heap (k.mallocs + 3)

theorem malloc_run (k : Kernel) : malloc k = .ok (k.heap k.mallocs) { k with mallocs := k.mallocs + 1 } :=
  rfl

theorem dirOpenRoot_run (k : Kernel) :
    dirOpenRoot k = .ok k.rootOpens { k with mallocs := k.mallocs + 2 } := rfl

theorem fileOpen_null (k : Kernel) : fileOpen none k = .ok none { k with mallocs := k.mallocs + 1 } := rfl

theorem dirLookup_missing (h : k.rootDir name = none) : dirLookup (some name) k = .ok none k := by
  rw [dirLookup, fetch_bind, h]
  rfl

theorem dirLookup_noMemory {inode : ℕ} (h : k.rootDir name = some inode) (hm : k.heap k.mallocs = false) :
    dirLookup (some name) k = .ok none { k with mallocs := k.mallocs + 1 } := by
  rw [dirLookup, fetch_bind, h]
  simp only []
  rw [bind_of_ok (malloc_run k), hm]
  rfl

theorem dirLookup_found {inode : ℕ} (h : k.rootDir name = some inode) (hm : k.heap k.mallocs = true) :
    dirLookup (some name) k = .ok (some inode) { k with
      mallocs := k.mallocs + 1
      openCnt := Function.update k.openCnt inode (k.openCnt inode + 1) } := by
  rw [dirLookup, fetch_bind, h]
  simp only []
  rw [bind_of_ok (malloc_run k), hm]
  rfl

theorem fileOpen_noMemory (inode : ℕ) (hm : k.heap k.mallocs = false) :
    fileOpen (some inode) k = .ok none { k with
      mallocs := k.mallocs + 1
      openCnt := Function.update k.openCnt inode (k.openCnt inode - 1) } := by
  rw [fileOpen, bind_of_ok (malloc_run k), hm]
  rfl

theorem fileOpen_found (inode : ℕ) (hm : k.heap k.mallocs = true) :
    fileOpen (some inode) k = .ok (some k.nextFile) { k with
      mallocs := k.mallocs + 1
      files := Function.update k.files k.nextFile (some ⟨inode, 0, false⟩)
      nextFile := k.nextFile + 1 } := by
  rw [fileOpen, bind_of_ok (malloc_run k), hm]
  rfl

/-- **A name that is a null pointer** fails an assertion, if the root directory is opened. -/
theorem filesysOpen_null (h : k.rootOpens = true) :
    filesysOpen none k = .error .assertFailed { k with mallocs := k.mallocs + 2 } := by
  rw [filesysOpen, bind_of_ok (dirOpenRoot_run k), h]
  rfl

/-- Without the root directory no file is opened. -/
theorem filesysOpen_noRoot (h : k.rootOpens = false) (name : Option (List UInt8)) :
    filesysOpen name k = .ok none { k with mallocs := k.mallocs + 3 } := by
  rw [filesysOpen, bind_of_ok (dirOpenRoot_run k), h]
  rfl

/-- With the root directory it is looked up. -/
theorem filesysOpen_root (h : k.rootOpens = true) (name : Option (List UInt8)) :
    filesysOpen name k = (dirLookup name >>= fileOpen) { k with mallocs := k.mallocs + 2 } := by
  rw [filesysOpen, bind_of_ok (dirOpenRoot_run k), h]
  rfl

/-- **No file is opened**: the inode is closed again, if it was opened. -/
theorem filesysOpen_none (h : k.opens name = false) : ∃ n,
    filesysOpen (some name) k = .ok none { k with mallocs := n } := by
  cases hroot : k.rootOpens with
  | false => exact ⟨_, filesysOpen_noRoot hroot _⟩
  | true =>
      rw [filesysOpen_root hroot]
      set k1 : Kernel := { k with mallocs := k.mallocs + 2 } with hk1
      cases hdir : k.rootDir name with
      | none => exact ⟨_, by rw [bind_of_ok (dirLookup_missing (k := k1) hdir), fileOpen_null]⟩
      | some inode =>
          cases hinode : k.heap (k.mallocs + 2) with
          | false => exact ⟨_, by rw [bind_of_ok (dirLookup_noMemory (k := k1) hdir hinode), fileOpen_null]⟩
          | true =>
              have hfile : k.heap (k.mallocs + 3) = false := by
                simpa [Kernel.opens, hroot, hdir, hinode] using h
              refine ⟨k.mallocs + 4, ?_⟩
              rw [bind_of_ok (dirLookup_found (k := k1) hdir hinode), fileOpen_noMemory _ hfile]
              have hsame : Function.update (Function.update k.openCnt inode (k.openCnt inode + 1)) inode
                  (Function.update k.openCnt inode (k.openCnt inode + 1) inode - 1) = k.openCnt := by
                rw [Function.update_self, Function.update_idem, add_sub_cancel_right, Function.update_eq_self]
              show EStateM.Result.ok none { k with
                mallocs := k.mallocs + 4
                openCnt := Function.update (Function.update k.openCnt inode (k.openCnt inode + 1)) inode
                  (Function.update k.openCnt inode (k.openCnt inode + 1) inode - 1) } = _
              rw [hsame]

/-- **A file is opened.** -/
theorem filesysOpen_some (h : k.opens name = true) : ∃ inode, k.rootDir name = some inode ∧
    filesysOpen (some name) k = .ok (some k.nextFile) { k with
      mallocs := k.mallocs + 4
      openCnt := Function.update k.openCnt inode (k.openCnt inode + 1)
      files := Function.update k.files k.nextFile (some ⟨inode, 0, false⟩)
      nextFile := k.nextFile + 1 } := by
  simp only [Kernel.opens, Bool.and_eq_true] at h
  obtain ⟨⟨⟨hroot, hdir⟩, hinode⟩, hfile⟩ := h
  obtain ⟨inode, hdir⟩ := Option.isSome_iff_exists.mp hdir
  refine ⟨inode, hdir, ?_⟩
  set k1 : Kernel := { k with mallocs := k.mallocs + 2 } with hk1
  rw [filesysOpen_root hroot, bind_of_ok (dirLookup_found (k := k1) hdir hinode), fileOpen_found _ hfile]

end Opening

end Pintos.Userprog
