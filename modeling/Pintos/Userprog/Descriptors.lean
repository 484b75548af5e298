import Pintos.Lib.Command

/-!
# File descriptors

The table `open_files` of a process and what `userprog/syscall.c` of `fs_PintOS` does with it:
`open` takes the next free slot, `close` empties one, and the end of a process closes what is open.

The slot of descriptor `fd` is `fd - 2`.  The table is the last field of `struct thread`, so that
the words behind its 128 slots belong to nobody; `openFiles` are the words from the first slot on.
`thread_create` has filled them with zeros, but nothing below assumes that of the words behind.

* `closed` are the files that `file_close` was called on, and `strayed` says that a word behind the
  table was read or written; neither is in the source.
* `filesys_open` is given by its result.
* `exit_status` calls `my_close`, which calls `get_file`, which calls `exit_status`; `fuel` bounds
  the depth.
* `filesys_lock` is granted unless the process itself holds it.

* **`myOpen_iff`** — when `open` does what it should.
* **`terminate_iff`** — when the end of a process closes all descriptors.
-/

namespace Pintos.Userprog.Descriptors

open Lib

/-- The process, as far as its files go. -/
structure Process where
  openFiles : ℕ → Option ℕ
  execFile : Option ℕ
  lockHeld : Bool
  closed : List ℕ
  strayed : Bool

/-- How code may end without returning. -/
inductive Stop where
  /-- `thread_exit`, with the status that was recorded. -/
  | exited (status : ℤ)
  | assertFailed
  | unending
deriving DecidableEq, Repr

/-- Code of the process. -/
abbrev Code (α : Type) : Type := EStateM Stop Process α

/-! ## The code -/

/-- The process after an access to the word `i` from the first slot on. -/
def Process.look (p : Process) (i : ℕ) : Process :=
  { p with strayed := p.strayed || decide (128 ≤ i) }

/-- An access to the word `i` from the first slot on. -/
def access (i : ℕ) : Code Unit := change fun p => p.look i

/-- `cur->open_files[i]`. -/
def slot (i : ℕ) : Code (Option ℕ) := do
  access i
  fetch fun p => p.openFiles i

/-- `cur->open_files[i] = file`. -/
def setSlot (i : ℕ) (file : Option ℕ) : Code Unit := do
  access i
  change fun p => { p with openFiles := Function.update p.openFiles i file }

/-- `lock_acquire (&filesys_lock)`. -/
def lockAcquire : Code Unit := do
  let held ← fetch Process.lockHeld
  if held then stop .assertFailed else change fun p => { p with lockHeld := true }

/-- `lock_release (&filesys_lock)`. -/
def lockRelease : Code Unit := do
  let held ← fetch Process.lockHeld
  if held then change fun p => { p with lockHeld := false } else stop .assertFailed

/-- `file_close`. -/
def fileClose (file : Option ℕ) : Code Unit :=
  change fun p => { p with closed := p.closed ++ file.toList }

/-- `thread_exit`, after `status` has been recorded. -/
def threadExit (status : ℤ) : Code Unit := do
  let execFile ← fetch Process.execFile
  fileClose execFile
  stop (.exited status)

/-- `get_file`; `exit` is `exit_status`. -/
def getFile (exit : ℤ → Code Unit) (fd : ℤ) : Code (Option ℕ) :=
  if fd < 2 ∨ 129 < fd then do
    exit (-1)
    slot (fd - 2).toNat
  else do
    let file ← slot (fd - 2).toNat
    if file = none then do
      exit (-1)
      slot (fd - 2).toNat
    else slot (fd - 2).toNat

/-- `my_close`. -/
def myClose (exit : ℤ → Code Unit) (fd : ℤ) : Code Unit := do
  let file ← getFile exit fd
  setSlot (fd - 2).toNat none
  lockAcquire
  fileClose file
  lockRelease

/-- The loop of `exit_status`, from `numof_file` on. -/
def closeFiles (exit : ℤ → Code Unit) : ℕ → ℕ → Code Unit
  | 0, _ => pure ()
  | n + 1, numofFile => do
      let file ← slot numofFile
      if file ≠ none then do
        myClose exit numofFile
        closeFiles exit n (numofFile + 1)
      else closeFiles exit n (numofFile + 1)

/-- `exit_status`. -/
def exitStatus : ℕ → ℤ → Code Unit
  | 0, _ => stop .unending
  | fuel + 1, status => do
      -- `numof_file` runs from 2 to 128
      closeFiles (exitStatus fuel) 127 2
      threadExit status

/-- The loop of `next_fd`, from `index` on. -/
def nextFd : ℕ → ℕ → Code ℤ
  | 0, _ => stop .unending
  | n + 1, index => do
      let file ← slot index
      if file = none then return index + 2 else nextFd n (index + 1)

/-- `my_open`, where `valid` says that the name may be read and `opened` is the result of
`filesys_open`: the value returned. -/
def myOpen (fuel : ℕ) (valid : Bool) (opened : Option ℕ) : Code ℤ :=
  if ¬ valid then do
    exitStatus fuel (-1)
    return -1
  else do
    lockAcquire
    lockRelease
    if opened ≠ none then do
      let fd ← nextFd fuel 0
      setSlot (fd - 2).toNat opened
      return fd
    else return -1

/-- `my_seek`, which takes `filesys_lock` before it looks up the file. -/
def mySeek (fuel : ℕ) (fd position : ℤ) : Code Unit := do
  lockAcquire
  -- `file_length` and `file_seek` leave the descriptors as they are
  let _ ← getFile (exitStatus fuel) fd
  if position < 0 then return () else lockRelease

/-- How a process ends. -/
inductive Ending where
  /-- `exit_status` without `filesys_lock`: the call `exit`, a bad pointer, a bad descriptor in any
  call but `seek`, an unknown call, or a page fault. -/
  | exit (status : ℤ)
  /-- `seek` of a descriptor that is not open. -/
  | seek (fd position : ℤ)
  /-- A page fault at a kernel address, in a call that holds `filesys_lock`. -/
  | fault
  /-- `thread_exit` alone, after an exception that is not a page fault. -/
  | killed
deriving DecidableEq, Repr

/-- The end of a process. -/
def terminate (fuel : ℕ) : Ending → Code Unit
  | .exit status => exitStatus fuel status
  | .seek fd position => mySeek fuel fd position
  | .fault => do
      lockAcquire
      exitStatus fuel (-1)
  | .killed => threadExit (-1)

/-! ## The table -/

/-- The slot is in use. -/
def Process.InUse (p : Process) (i : ℕ) : Prop := p.openFiles i ≠ none

instance (p : Process) (i : ℕ) : Decidable (p.InUse i) := inferInstanceAs (Decidable (_ ≠ none))

/-- The processes that are reached by opening and closing files, with the descriptors they hold:
those that `open` has returned and that have not been closed since.  At the start the table is empty;
the words behind it may be anything. -/
inductive Holds : Process → List ℤ → Prop
  | start {p : Process} (empty : ∀ i < 128, p.openFiles i = none) (unlocked : p.lockHeld = false)
      (clean : p.strayed = false) : Holds p []
  | openFile {p p' : Process} {held : List ℤ} {fuel : ℕ} {valid : Bool} {opened : Option ℕ} {fd : ℤ}
      (h : Holds p held) (run : myOpen fuel valid opened p = .ok fd p') :
      Holds p' (if fd = -1 then held else fd :: held)
  | closeFile {p p' : Process} {held : List ℤ} {fuel : ℕ} {fd : ℤ} (h : Holds p held)
      (run : myClose (exitStatus fuel) fd p = .ok () p') : Holds p' (held.erase fd)

/-- The processes that are reached by opening and closing files. -/
def Reachable (p : Process) : Prop := ∃ held, Holds p held

/-- The files of the descriptors `held`. -/
def Process.entries (p : Process) (held : List ℤ) : List ℕ :=
  held.filterMap fun fd => p.openFiles (fd - 2).toNat

section

variable {p p' : Process} {fuel n i : ℕ} {f : ℕ}

/-! ## `open` -/

theorem look_of_lt (h : i < 128) : p.look i = p := by
  rw [Process.look, decide_eq_false (by omega), Bool.or_false]

@[simp] theorem slot_run (i : ℕ) (p : Process) : slot i p = .ok (p.openFiles i) (p.look i) := rfl

theorem setSlot_run (h : i < 128) (file : Option ℕ) : setSlot i file p =
    .ok () { p with openFiles := Function.update p.openFiles i file } := by
  rw [setSlot, access, change_bind, look_of_lt h, change_run]

theorem lock_run (h : p.lockHeld = false) : lockAcquire p = .ok () { p with lockHeld := true } := by
  rw [lockAcquire, fetch_bind, h]
  rfl

theorem unlock_run (h : p.lockHeld = true) :
    lockRelease p = .ok () { p with lockHeld := false } := by
  rw [lockRelease, fetch_bind, h]
  rfl

/-- **The search** for a free slot ends at the first one. -/
theorem nextFd_run {j : ℕ} (hused : ∀ k, i ≤ k → k < j → p.InUse k) (hij : i ≤ j)
    (hfree : p.openFiles j = none) (hj : j < 128) (hn : j - i < n) :
      nextFd n i p = .ok ((j : ℤ) + 2) p := by
  induction n generalizing i with
  | zero => omega
  | succ n ih =>
      rw [nextFd, bind_of_ok (slot_run i p), look_of_lt (by omega)]
      by_cases hi : i = j
      · subst hi
        rw [if_pos hfree]
        rfl
      · rw [if_neg (hused i le_rfl (by omega))]
        exact ih (fun k hk => hused k (by omega)) (by omega) (by omega)

/-- An access behind another one. -/
theorem look_look {j : ℕ} (h : i ≤ j) : (p.look i).look j = p.look j := by
  have hor : (p.strayed || decide (128 ≤ i) || decide (128 ≤ j)) = (p.strayed || decide (128 ≤ j)) := by
    by_cases hi : 128 ≤ i
    · rw [decide_eq_true (le_trans hi h), Bool.or_true, Bool.or_true]
    · rw [decide_eq_false hi, Bool.or_false]
  rw [Process.look, Process.look, Process.look, hor]

/-- **What a search has found**: the first empty word. -/
theorem nextFd_ok {fd : ℤ} : ∀ (n i : ℕ) (p : Process), nextFd n i p = .ok fd p' →
    ∃ j : ℕ, i ≤ j ∧ fd = (j : ℤ) + 2 ∧ p.openFiles j = none ∧ (∀ k, i ≤ k → k < j → p.InUse k) ∧
      p' = p.look j
  | 0, _, _, hrun => by cases hrun
  | n + 1, i, p, hrun => by
      rw [nextFd, bind_of_ok (slot_run i p)] at hrun
      by_cases hfree : p.openFiles i = none
      · rw [if_pos hfree] at hrun
        cases hrun
        exact ⟨i, le_rfl, rfl, hfree, fun k hk hki => absurd hk (by omega), rfl⟩
      · rw [if_neg hfree] at hrun
        obtain ⟨j, hij, hfd, hj, hused, hp'⟩ := nextFd_ok n (i + 1) (p.look i) hrun
        refine ⟨j, by omega, hfd, hj, fun k hk hkj => ?_, hp'.trans (look_look (by omega))⟩
        rcases Nat.eq_or_lt_of_le hk with rfl | hlt
        · exact hfree
        · exact hused k hlt hkj

/-- A search that finds no free slot leaves the table. -/
theorem nextFd_strays {fd : ℤ} {n : ℕ} (hused : ∀ k < 128, p.InUse k)
    (hrun : nextFd n 0 p = .ok fd p') : p'.strayed = true ∧ 2 ≤ fd := by
  obtain ⟨j, -, rfl, hfree, -, rfl⟩ := nextFd_ok n 0 p hrun
  have hj : 128 ≤ j := by
    by_contra hlt
    exact hused j (by omega) hfree
  refine ⟨?_, by omega⟩
  show (p.strayed || decide (128 ≤ j)) = true
  rw [decide_eq_true hj, Bool.or_true]

theorem nextFd_stops {e : Stop} : ∀ (n i : ℕ) (p : Process), nextFd n i p = .error e p' → e =
    .unending
  | 0, _, _, hrun => by
      cases hrun
      rfl
  | n + 1, i, p, hrun => by
      rw [nextFd, bind_of_ok (slot_run i p)] at hrun
      by_cases hfree : p.openFiles i = none
      · rw [if_pos hfree] at hrun
        cases hrun
      · rw [if_neg hfree] at hrun
        exact nextFd_stops n (i + 1) _ hrun

/-- `open` of a file, up to the search. -/
theorem myOpen_run (hlock : p.lockHeld = false) (fuel f : ℕ) : myOpen fuel true (some f) p =
    (nextFd fuel 0 >>= fun fd => setSlot (fd - 2).toNat (some f) >>= fun _ => pure fd) p := by
  have hback : { p with lockHeld := false } = p := by rw [← hlock]
  rw [myOpen, if_neg (by decide), bind_of_ok (lock_run hlock), bind_of_ok (unlock_run rfl),
    if_pos (by simp)]
  simp only [hback]

theorem myOpen_none (hlock : p.lockHeld = false) (fuel : ℕ) :
    myOpen fuel true none p = .ok (-1) p := by
  have hback : { p with lockHeld := false } = p := by rw [← hlock]
  rw [myOpen, if_neg (by decide), bind_of_ok (lock_run hlock), bind_of_ok (unlock_run rfl),
    if_neg (by simp)]
  simp only [hback]
  rfl

/-- **`open` with a free slot**: the first one is taken, and nothing else is changed. -/
theorem myOpen_first (hlock : p.lockHeld = false) (hused : ∀ k < i, p.InUse k)
    (hfree : p.openFiles i = none) (hi : i < 128) (fuel : ℕ) (hfuel : 128 ≤ fuel) (f : ℕ) :
      myOpen fuel true (some f) p =
      .ok ((i : ℤ) + 2) { p with openFiles := Function.update p.openFiles i (some f) } := by
  have hnat : ((i : ℤ) + 2 - 2).toNat = i := by omega
  rw [myOpen_run hlock,
    bind_of_ok (nextFd_run (fun k _ hk => hused k hk) (Nat.zero_le i) hfree hi (by omega)),
    hnat, bind_of_ok (setSlot_run hi _)]
  rfl

/-- What `open` should do when `filesys_open` has returned `opened`. -/
structure Opens (p : Process) (opened : Option ℕ) (r : EStateM.Result Stop Process ℤ) : Prop where
  missing : opened = none → r = .ok (-1) p
  free : ∀ f i, opened = some f → i < 128 → p.openFiles i = none → (∀ k < i, p.InUse k) →
    r = .ok ((i : ℤ) + 2) { p with openFiles := Function.update p.openFiles i (some f) }
  full : ∀ f, opened = some f → (∀ i < 128, p.InUse i) →
    ∃ p', (r = .ok (-1) p' ∨ ∃ s, r = .error (.exited s) p') ∧ p'.strayed = p.strayed ∧
      f ∈ p'.closed

/-- With a full table, `open` returns a descriptor or does not end. -/
theorem myOpen_full (hlock : p.lockHeld = false) (hused : ∀ i < 128, p.InUse i) (fuel f : ℕ) :
    ¬ Opens p (some f) (myOpen fuel true (some f) p) := by
  intro h
  obtain ⟨p', hr, -⟩ := h.full f rfl hused
  rw [myOpen_run hlock] at hr
  cases hsearch : nextFd fuel 0 p with
  | error e p1 =>
      obtain rfl := nextFd_stops _ _ _ hsearch
      rw [bind_of_error hsearch] at hr
      rcases hr with hr | ⟨s, hr⟩
      · cases hr
      · cases hr
  | ok fd p1 =>
      obtain ⟨-, hfd⟩ := nextFd_strays hused hsearch
      rw [bind_of_ok hsearch] at hr
      rcases hr with hr | ⟨s, hr⟩
      · cases hr
        omega
      · cases hr

/-! ## The end of a process -/

/-- `exit_status` does not return. -/
theorem exitStatus_ne_ok (fuel : ℕ) (s : ℤ) (p p' : Process) : exitStatus fuel s p ≠ .ok () p' := by
  cases fuel with
  | zero => exact fun h => by cases h
  | succ fuel =>
      intro h
      rw [exitStatus] at h
      cases hclose : closeFiles (exitStatus fuel) 127 2 p with
      | error e q =>
          rw [bind_of_error hclose] at h
          cases h
      | ok u q =>
          rw [bind_of_ok hclose, threadExit, fetch_bind, fileClose, change_bind] at h
          cases h

/-- `get_file` for a slot in use. -/
theorem getFile_run {exit : ℤ → Code Unit} (hi : i < 128) (hf : p.openFiles i = some f) :
    getFile exit ((i : ℤ) + 2) p = .ok (some f) p := by
  rw [getFile, if_neg (by omega), show ((i : ℤ) + 2 - 2).toNat = i by omega,
    bind_of_ok (slot_run i p),
    look_of_lt hi, hf, if_neg (by simp), slot_run, look_of_lt hi, hf]

/-- The process after the file `f` of slot `i` has been closed. -/
def Process.shut (p : Process) (i f : ℕ) : Process :=
  { p with openFiles := Function.update p.openFiles i none, closed := p.closed ++ [f] }

/-- **`close` of an open descriptor.** -/
theorem myClose_run {exit : ℤ → Code Unit} (hlock : p.lockHeld = false) (hi : i < 128)
    (hf : p.openFiles i = some f) : myClose exit ((i : ℤ) + 2) p = .ok () (p.shut i f) := by
  have hacquire := lock_run (p := { p with openFiles := Function.update p.openFiles i none }) hlock
  rw [myClose, bind_of_ok (getFile_run hi hf), show ((i : ℤ) + 2 - 2).toNat = i by omega,
    bind_of_ok (setSlot_run hi none), bind_of_ok hacquire, fileClose, change_bind, unlock_run rfl,
      Process.shut, hlock]
  rfl

/-- The descriptor is open. -/
def Process.IsOpen (p : Process) (fd : ℤ) : Prop := 2 ≤ fd ∧ fd ≤ 129 ∧ p.InUse (fd - 2).toNat

/-- `get_file` for a descriptor that is not open: the process exits. -/
theorem getFile_exit {exit : ℤ → Code Unit} {fd : ℤ} {e : Stop} (hfd : ¬ p.IsOpen fd)
    (hexit : exit (-1) p = .error e p') : getFile exit fd p = .error e p' := by
  by_cases hrange : fd < 2 ∨ 129 < fd
  · rw [getFile, if_pos hrange, bind_of_error hexit]
  · have hfree : p.openFiles (fd - 2).toNat = none := by
      by_contra huse
      exact hfd ⟨by omega, by omega, huse⟩
    rw [getFile, if_neg hrange, bind_of_ok (slot_run _ p), look_of_lt (by omega), if_pos hfree,
      bind_of_error hexit]

/-- `close` of anything else does not return. -/
theorem myClose_ok {fd : ℤ} (hrun : myClose (exitStatus fuel) fd p = .ok () p') :
    ∃ i f : ℕ, fd = (i : ℤ) + 2 ∧ i < 128 ∧ p.openFiles i = some f := by
  by_cases hfd : p.IsOpen fd
  · obtain ⟨f, hf⟩ := Option.ne_none_iff_exists'.mp hfd.2.2
    have hlow := hfd.1
    have hhigh := hfd.2.1
    exact ⟨(fd - 2).toNat, f, by omega, by omega, hf⟩
  · cases hexit : exitStatus fuel (-1) p with
    | ok u q => exact absurd hexit (exitStatus_ne_ok fuel (-1) p q)
    | error e q =>
        rw [myClose, bind_of_error (getFile_exit hfd hexit)] at hrun
        cases hrun

/-! ## The descriptors a process holds -/

/-- **What `open` does when it returns**: nothing, or it stores the file in the first empty word. -/
theorem myOpen_ok {valid : Bool} {opened : Option ℕ} {fd : ℤ} (hlock : p.lockHeld = false)
    (hrun : myOpen fuel valid opened p = .ok fd p') : (fd = -1 ∧ p' = p) ∨
      ∃ j f : ℕ, fd = (j : ℤ) + 2 ∧ p.openFiles j = none ∧
        p' = { p.look j with openFiles := Function.update p.openFiles j (some f) } := by
  cases valid with
  | false =>
      cases hexit : exitStatus fuel (-1) p with
      | ok u q => exact absurd hexit (exitStatus_ne_ok fuel (-1) p q)
      | error e q =>
          rw [myOpen, if_pos (by decide), bind_of_error hexit] at hrun
          cases hrun
  | true =>
      cases opened with
      | none =>
          rw [myOpen_none hlock] at hrun
          cases hrun
          exact .inl ⟨rfl, rfl⟩
      | some f =>
          rw [myOpen_run hlock] at hrun
          cases hsearch : nextFd fuel 0 p with
          | error e q =>
              rw [bind_of_error hsearch] at hrun
              cases hrun
          | ok fd' q =>
              obtain ⟨j, -, rfl, hfree, -, rfl⟩ := nextFd_ok _ _ _ hsearch
              rw [bind_of_ok hsearch, show ((j : ℤ) + 2 - 2).toNat = j by omega] at hrun
              cases hrun
              refine .inr ⟨j, f, rfl, hfree, ?_⟩
              show ({ (p.look j).look j with openFiles := _ } : Process) = _
              rw [look_look le_rfl]
              rfl

/-- The descriptors `held` are those in use: each has a word that is in use, and each slot of the
table that is in use has its descriptor. -/
structure Consistent (p : Process) (held : List ℤ) : Prop where
  unlocked : p.lockHeld = false
  nodup : held.Nodup
  valid : ∀ fd ∈ held, 2 ≤ fd ∧ p.InUse (fd - 2).toNat
  table : ∀ i < 128, p.InUse i → (i : ℤ) + 2 ∈ held

theorem inUse_update (i k : ℕ) (file : Option ℕ) (p : Process) :
    Process.InUse { p with openFiles := Function.update p.openFiles i file } k ↔
      if k = i then file ≠ none else p.InUse k := by
  show Function.update p.openFiles i file k ≠ none ↔ _
  rw [Function.update_apply]
  split_ifs with h
  · exact Iff.rfl
  · exact Iff.rfl

/-- `open` keeps the table consistent. -/
theorem Consistent.opened {held : List ℤ} (h : Consistent p held) {j : ℕ}
    (hfree : p.openFiles j = none) (f : ℕ) :
      Consistent { p.look j with openFiles := Function.update p.openFiles j (some f) }
        (((j : ℤ) + 2) :: held) := by
  have huse := fun k => inUse_update j k (some f) p
  refine ⟨h.unlocked, List.nodup_cons.mpr ⟨fun hmem => ?_, h.nodup⟩, fun fd hfd => ?_,
    fun i hi hin => ?_⟩
  · have hin := (h.valid _ hmem).2
    rw [show ((j : ℤ) + 2 - 2).toNat = j by omega] at hin
    exact hin hfree
  · rcases List.mem_cons.mp hfd with rfl | hmem
    · refine ⟨by omega, (huse _).mpr ?_⟩
      rw [if_pos (by omega)]
      exact Option.some_ne_none f
    · refine ⟨(h.valid fd hmem).1, (huse _).mpr ?_⟩
      split_ifs
      · exact Option.some_ne_none f
      · exact (h.valid fd hmem).2
  · have hin := (huse i).mp hin
    split_ifs at hin with hij
    · exact hij ▸ List.mem_cons_self
    · exact List.mem_cons_of_mem _ (h.table i hi hin)

/-- `close` keeps the table consistent. -/
theorem Consistent.shut {held : List ℤ} (h : Consistent p held) (i f : ℕ) :
    Consistent (p.shut i f) (held.erase ((i : ℤ) + 2)) := by
  have huse := fun k => inUse_update i k none p
  refine ⟨h.unlocked, h.nodup.erase _, fun fd hfd => ?_, fun k hk hin => ?_⟩
  · obtain ⟨hne, hmem⟩ := (h.nodup.mem_erase_iff).mp hfd
    have hlow := (h.valid fd hmem).1
    refine ⟨hlow, (huse _).mpr ?_⟩
    rw [if_neg (by omega)]
    exact (h.valid fd hmem).2
  · have hin := (huse k).mp hin
    split_ifs at hin with hki
    · exact absurd rfl hin
    · exact (h.nodup.mem_erase_iff).mpr ⟨by omega, h.table k hk hin⟩

/-- **The descriptors a process holds are those in use.** -/
theorem Holds.consistent {held : List ℤ} (h : Holds p held) : Consistent p held := by
  induction h with
  | start hempty hunlocked _ =>
      exact ⟨hunlocked, List.nodup_nil, fun fd hfd => absurd hfd List.not_mem_nil,
        fun i hi hin => absurd (hempty i hi) hin⟩
  | openFile _ hrun ih =>
      rcases myOpen_ok ih.unlocked hrun with ⟨rfl, rfl⟩ | ⟨j, f, rfl, hfree, rfl⟩
      · rw [if_pos rfl]
        exact ih
      · rw [if_neg (by omega)]
        exact ih.opened hfree f
  | closeFile _ hrun ih =>
      obtain ⟨i, f, rfl, hi, hf⟩ := myClose_ok hrun
      rw [myClose_run ih.unlocked hi hf] at hrun
      cases hrun
      exact ih.shut i f

/-- **The lock is free** between two calls. -/
theorem Reachable.unlocked (h : Reachable p) : p.lockHeld = false := by
  obtain ⟨held, hheld⟩ := h
  exact hheld.consistent.unlocked

/-! ## What a process may hold -/

/-- A process without open files. -/
def noFiles : Process := ⟨fun _ => none, some 9, false, [], false⟩

theorem holds_noFiles : Holds noFiles [] := .start (fun _ _ => rfl) rfl rfl

/-- A process that has opened one file. -/
def oneFile : Process := { noFiles with openFiles := Function.update noFiles.openFiles 0 (some 5) }

theorem holds_oneFile : Holds oneFile [2] :=
  .openFile holds_noFiles
    (myOpen_first (i := 0) rfl (fun k hk => by omega) rfl (by decide) 128 le_rfl 5)

/-- A process without open files, with a word in use behind the table. -/
def leftOver : Process := { noFiles with openFiles := Function.update noFiles.openFiles 128 (some 7) }

theorem leftOver_empty (i : ℕ) (hi : i < 128) : leftOver.openFiles i = none :=
  Function.update_of_ne (by omega) _ _

theorem holds_leftOver : Holds leftOver [] := .start leftOver_empty rfl rfl

/-- **A process may fill its table.** -/
theorem holds_full (hp : Holds p []) (hempty : ∀ i < 128, p.openFiles i = none) (n : ℕ)
    (hn : n ≤ 128) : ∃ q held, Holds q held ∧ (∀ fd ∈ held, fd < (n : ℤ) + 2) ∧
      (∀ i < n, q.InUse i) ∧ ∀ i, n ≤ i → q.openFiles i = p.openFiles i := by
  induction n with
  | zero =>
      exact ⟨p, [], hp, fun fd hfd => absurd hfd List.not_mem_nil, fun i hi => by omega,
        fun _ _ => rfl⟩
  | succ n ih =>
      obtain ⟨q, held, hq, hheld, hused, hfree⟩ := ih (by omega)
      have hrun := myOpen_first hq.consistent.unlocked hused
        ((hfree n le_rfl).trans (hempty n (by omega))) (by omega) 128 le_rfl 0
      have hopen := Holds.openFile hq hrun
      rw [if_neg (by omega)] at hopen
      refine ⟨_, _, hopen, fun fd hfd => ?_, fun i hi => ?_, fun i hi => ?_⟩
      · rcases List.mem_cons.mp hfd with rfl | hmem
        · push_cast
          omega
        · have := hheld fd hmem
          push_cast
          omega
      · rw [inUse_update]
        split_ifs with hin
        · exact Option.some_ne_none 0
        · exact hused i (by omega)
      · show Function.update q.openFiles n (some 0) i = _
        rw [Function.update_of_ne (by omega)]
        exact hfree i (by omega)

/-- **And close every other file.** -/
theorem holds_even {held : List ℤ} (hp : Holds p held) (hfull : ∀ i < 128, p.InUse i)
    (hheld : ∀ fd ∈ held, fd < 130) (m : ℕ) (hm : m ≤ 64) :
      ∃ q held', Holds q held' ∧ (∀ fd ∈ held', fd < 130) ∧
        (∀ i < 128, q.InUse i ↔ i % 2 = 0 ∨ 2 * m ≤ i) ∧ (q.InUse 128 ↔ p.InUse 128) := by
  induction m with
  | zero =>
      exact ⟨p, held, hp, hheld, fun i hi => iff_of_true (hfull i hi) (.inr (by omega)), Iff.rfl⟩
  | succ m ih =>
      obtain ⟨q, held', hq, hheld', hused, hbehind⟩ := ih (by omega)
      obtain ⟨f, hf⟩ := Option.ne_none_iff_exists'.mp
        ((hused (2 * m + 1) (by omega)).mpr (.inr (by omega)))
      have hrun : myClose (exitStatus 0) (((2 * m + 1 : ℕ) : ℤ) + 2) q =
          .ok () (q.shut (2 * m + 1) f) := myClose_run hq.consistent.unlocked (by omega) hf
      refine ⟨_, _, .closeFile hq hrun, fun fd hfd => hheld' fd (List.mem_of_mem_erase hfd),
        fun i hi => ?_, ?_⟩
      · refine (inUse_update (2 * m + 1) i none q).trans ?_
        split_ifs with hin
        · exact iff_of_false (fun h => h rfl) (by omega)
        · rw [hused i hi]
          omega
      · refine (inUse_update (2 * m + 1) 128 none q).trans ?_
        rw [if_neg (by omega), hbehind]

/-! ## The loop that closes -/

section Loop

variable {exit : ℤ → Code Unit} {j : ℕ}

/-- The loop goes past an empty slot. -/
theorem closeFiles_skip (hj : p.openFiles j = none) :
    closeFiles exit (n + 1) j p = closeFiles exit n (j + 1) (p.look j) := by
  rw [closeFiles, bind_of_ok (slot_run j p), if_neg (by simpa using hj)]

/-- At a slot in use, **the loop closes the slot two before it**. -/
theorem closeFiles_close (hlock : p.lockHeld = false) (hi : i < 127) (hj : p.InUse (i + 2))
    (hf : p.openFiles i = some f) : closeFiles exit (n + 1) (i + 2) p =
      closeFiles exit n (i + 2 + 1) ((p.look (i + 2)).shut i f) := by
  have hclose : myClose exit ((i : ℤ) + 2) (p.look (i + 2)) = .ok () ((p.look (i + 2)).shut i f) :=
    myClose_run hlock (by omega) hf
  rw [closeFiles, bind_of_ok (slot_run _ p), if_pos (show p.openFiles (i + 2) ≠ none from hj),
    Nat.cast_add, Nat.cast_ofNat, bind_of_ok hclose]

/-- The loop stops where `my_close` stops. -/
theorem closeFiles_stop (hj : p.InUse (i + 2)) {e : Stop}
    (hclose : myClose exit ((i : ℤ) + 2) (p.look (i + 2)) = .error e p') :
      closeFiles exit (n + 1) (i + 2) p = .error e p' := by
  rw [closeFiles, bind_of_ok (slot_run _ p), if_pos (show p.openFiles (i + 2) ≠ none from hj),
    Nat.cast_add, Nat.cast_ofNat, bind_of_error hclose]

/-- At a slot in use, two behind an empty one, the process exits again. -/
theorem closeFiles_exit (hj : p.InUse (i + 2)) (hf : p.openFiles i = none) {e : Stop}
    (hexit : exit (-1) (p.look (i + 2)) = .error e p') :
      closeFiles exit (n + 1) (i + 2) p = .error e p' := by
  have hshut : ¬ (p.look (i + 2)).IsOpen ((i : ℤ) + 2) := fun hopen => by
    have hin := hopen.2.2
    rw [show ((i : ℤ) + 2 - 2).toNat = i by omega] at hin
    exact hin hf
  apply closeFiles_stop hj
  rw [myClose, bind_of_error (getFile_exit hshut hexit)]

end Loop

/-- A slot in use, two behind an empty one. -/
structure Process.Torn (p : Process) (i : ℕ) : Prop where
  inside : i < 127
  inUse : p.InUse (i + 2)
  hole : ¬ p.InUse i

/-- **With such a slot the process exits again and again**: the loop never gets past the slot, so
that it is not closed, and what it closes on the way does not fill the hole. -/
theorem exitStatus_torn (hlock : p.lockHeld = false) (hp : p.Torn i) (s : ℤ) :
    ∃ p', exitStatus fuel s p = .error .unending p' := by
  induction fuel generalizing p s with
  | zero => exact ⟨p, rfl⟩
  | succ fuel ih =>
      -- the loop comes to the slot in use at the latest there, and calls `exit_status` again
      have hloop : ∀ n j, ∀ q : Process, q.lockHeld = false → q.Torn i → n + j = 127 → j ≤ i →
          ∃ q', closeFiles (exitStatus fuel) n (j + 2) q = .error .unending q' := by
        intro n
        induction n with
        | zero =>
            intro j q _ hq hn hj
            have := hq.inside
            omega
        | succ n ihn =>
            intro j q hq hqi hn hj
            by_cases huse : q.InUse (j + 2)
            · cases hf : q.openFiles j with
              | none =>
                  obtain ⟨q', hq'⟩ :=
                    ih (p := q.look (j + 2)) hq ⟨hqi.inside, hqi.inUse, hqi.hole⟩ (-1)
                  exact ⟨q', closeFiles_exit huse hf hq'⟩
              | some f =>
                  have hji : j ≠ i := fun h => hqi.hole (by
                    rw [Process.InUse, ← h, hf]
                    exact Option.some_ne_none f)
                  rw [closeFiles_close hq (by omega) huse hf]
                  refine ihn (j + 1) _ hq ⟨hqi.inside, ?_, ?_⟩ (by omega) (by omega)
                  · show Function.update q.openFiles j none (i + 2) ≠ none
                    rw [Function.update_of_ne (by omega)]
                    exact hqi.inUse
                  · show ¬ Function.update q.openFiles j none i ≠ none
                    rw [Function.update_of_ne (by omega)]
                    exact hqi.hole
            · have hji : j ≠ i := fun h => huse (h ▸ hqi.inUse)
              rw [closeFiles_skip (not_not.mp huse)]
              exact ihn (j + 1) _ hq ⟨hqi.inside, hqi.inUse, hqi.hole⟩ (by omega) (by omega)
      obtain ⟨q, hq⟩ := hloop 127 0 p hlock hp rfl (Nat.zero_le i)
      exact ⟨q, by rw [exitStatus, bind_of_error hq]⟩

/-- The files that the loop closes from slot `j + 2` on: those of the slots two before a slot in
use. -/
def Process.behind (p : Process) (n j : ℕ) : List ℕ :=
  (List.range' j n).filterMap fun k => if p.InUse (k + 2) then p.openFiles k else none

/-- **Without such a slot the loop ends.** -/
theorem closeFiles_run (exit : ℤ → Code Unit) : ∀ (n j : ℕ) (p : Process), p.lockHeld = false →
    n + j = 127 →
    (∀ k, j ≤ k → ¬ p.Torn k) → ∃ p', closeFiles exit n (j + 2) p = .ok () p' ∧
      p'.closed = p.closed ++ p.behind n j ∧ p'.execFile = p.execFile
  | 0, j, p, _, _, _ => ⟨p, rfl, by simp [Process.behind], rfl⟩
  | n + 1, j, p, hlock, hn, hwhole => by
      by_cases huse : p.InUse (j + 2)
      · cases hf : p.openFiles j with
        | none => exact absurd ⟨by omega, huse, fun h => h hf⟩ (hwhole j le_rfl)
        | some f =>
            have hsame : ∀ k, j < k → ((p.look (j + 2)).shut j f).openFiles k = p.openFiles k :=
              fun k hk => by
              show Function.update p.openFiles j none k = _
              rw [Function.update_of_ne (by omega)]
            obtain ⟨p', hrun, hclosed, hexec⟩ :=
              closeFiles_run exit n (j + 1) ((p.look (j + 2)).shut j f) hlock (by omega)
              fun k hk ht => hwhole k (by omega) ⟨ht.inside, by
                  rw [Process.InUse, ← hsame (k + 2) (by omega)]
                  exact ht.inUse, by
                  rw [Process.InUse, ← hsame k (by omega)]
                  exact ht.hole⟩
            have hbehind : ((p.look (j + 2)).shut j f).behind n (j + 1) = p.behind n (j + 1) := by
              refine List.filterMap_congr fun k hk => ?_
              have hk := (List.mem_range'_1.mp hk).1
              refine if_congr ?_ (hsame k (by omega)) rfl
              rw [Process.InUse, Process.InUse, hsame (k + 2) (by omega)]
            refine ⟨p', by rw [closeFiles_close hlock (by omega) huse hf, hrun], ?_, hexec⟩
            rw [hclosed, hbehind, Process.behind, Process.behind, List.range'_succ,
              List.filterMap_cons, if_pos huse, hf]
            exact List.append_assoc p.closed [f] _
      · obtain ⟨p', hrun, hclosed, hexec⟩ :=
        closeFiles_run exit n (j + 1) (p.look (j + 2)) hlock (by omega)
          fun k hk ht => hwhole k (by omega) ⟨ht.inside, ht.inUse, ht.hole⟩
        refine ⟨p', by rw [closeFiles_skip (not_not.mp huse), hrun], ?_, hexec⟩
        rw [hclosed]
        show p.closed ++ p.behind n (j + 1) = _
        rw [Process.behind, Process.behind, List.range'_succ, List.filterMap_cons, if_neg huse]

/-! ## What has been closed -/

/-- The files of the descriptors held, the executable, and nothing else have been closed at the
end. -/
def Releases (p : Process) (held : List ℤ) (way : Ending) : Prop :=
  ∃ fuel s p', terminate fuel way p = .error (.exited s) p' ∧
    p'.closed.Perm (p.closed ++ p.entries held ++ p.execFile.toList)

/-- With `exit_status` and without the lock: no descriptor is held, or all even ones up to 128 are
and no other one, as the word right behind the table is empty or is not.  With the lock: no
descriptor is held and that word is empty.  With `thread_exit` alone: no descriptor is held. -/
def Process.Tidy (p : Process) (held : List ℤ) : Ending → Prop
  | .exit _ => ∀ fd, fd ∈ held ↔ 2 ≤ fd ∧ fd ≤ 128 ∧ fd % 2 = 0 ∧ p.InUse 128
  | .seek _ _ => held = [] ∧ ¬ p.InUse 128
  | .fault => held = [] ∧ ¬ p.InUse 128
  | .killed => held = []

section Held

variable {held : List ℤ}

/-- The words of the descriptors held. -/
def words (held : List ℤ) : List ℕ := held.map fun fd => (fd - 2).toNat

/-- A word is that of a descriptor. -/
theorem Consistent.mem_words (h : Consistent p held) (k : ℕ) :
    k ∈ words held ↔ (k : ℤ) + 2 ∈ held := by
  constructor
  · intro hk
    obtain ⟨fd, hfd, rfl⟩ := List.mem_map.mp hk
    have hlow := (h.valid fd hfd).1
    rw [show (((fd - 2).toNat : ℕ) : ℤ) + 2 = fd by omega]
    exact hfd
  · exact fun hk => List.mem_map.mpr ⟨_, hk, by omega⟩

theorem Consistent.words_nodup (h : Consistent p held) : (words held).Nodup :=
  List.Nodup.map_on (fun fd hfd fd' hfd' heq => by
    have hlow := (h.valid fd hfd).1
    have hlow' := (h.valid fd' hfd').1
    omega) h.nodup

theorem entries_eq (p : Process) (held : List ℤ) :
    p.entries held = (words held).filterMap p.openFiles := by
  rw [words, List.filterMap_map]
  rfl

theorem length_filterMap_openFiles {ws : List ℕ} (h : ∀ k ∈ ws, p.InUse k) :
    (ws.filterMap p.openFiles).length = ws.length :=
  List.filterMap_length_eq_length.mpr fun k hk => Option.isSome_iff_ne_none.mpr (h k hk)

/-- The number of files a process has open is that of its descriptors. -/
theorem Consistent.length_entries (h : Consistent p held) :
    (p.entries held).length = held.length := by
  rw [entries_eq, length_filterMap_openFiles, words, List.length_map]
  intro k hk
  have hin := (h.valid _ ((h.mem_words k).mp hk)).2
  rwa [show ((k : ℤ) + 2 - 2).toNat = k by omega] at hin

/-- No descriptor is held if nothing has to be closed. -/
theorem Consistent.perm_iff (h : Consistent p held) (closed : List ℕ) (exec : Option ℕ) :
    (closed ++ exec.toList).Perm (closed ++ p.entries held ++ exec.toList) ↔ held = [] := by
  constructor
  · intro hperm
    have hlen := hperm.length_eq
    rw [List.length_append, List.length_append, List.length_append, h.length_entries] at hlen
    exact List.eq_nil_of_length_eq_zero (by omega)
  · rintro rfl
    exact List.Perm.of_eq (by rw [Process.entries, List.filterMap_nil, List.append_nil])

/-- The loop of `exit_status` closes the files held if and only if the words held are those two
before a word in use. -/
theorem behind_perm_iff (h : Consistent p held) (hwhole : ∀ k, ¬ p.Torn k) :
    (p.behind 127 0).Perm (p.entries held) ↔
      ∀ k, k ∈ words held ↔ k < 127 ∧ p.InUse (k + 2) := by
  let shut := (List.range 127).filter fun k => decide (p.InUse (k + 2))
  have hmem : ∀ k, k ∈ shut ↔ k < 127 ∧ p.InUse (k + 2) := fun k => by
    rw [List.mem_filter, List.mem_range, decide_eq_true_iff]
  have hbehind : p.behind 127 0 = shut.filterMap p.openFiles := by
    rw [List.filterMap_filter, Process.behind, ← List.range_eq_range']
    refine List.filterMap_congr fun k _ => ?_
    by_cases huse : p.InUse (k + 2)
    · rw [if_pos huse, if_pos (decide_eq_true huse)]
    · rw [if_neg huse, if_neg (by rw [decide_eq_false huse]; decide)]
  have hnodup : shut.Nodup := List.nodup_range.filter _
  have huse : ∀ k ∈ shut, p.InUse k := fun k hk => by
    by_contra hhole
    exact hwhole k ⟨((hmem k).mp hk).1, ((hmem k).mp hk).2, hhole⟩
  have hsub : shut ⊆ words held := fun k hk =>
    (h.mem_words k).mpr (h.table k (by have := ((hmem k).mp hk).1; omega) (huse k hk))
  rw [hbehind, entries_eq]
  constructor
  · intro hperm k
    -- as many files as descriptors: the slots closed are all of them
    have hlen := hperm.length_eq
    rw [length_filterMap_openFiles huse, ← entries_eq, h.length_entries,
      ← List.length_map (fun fd : ℤ => (fd - 2).toNat)] at hlen
    have hwords := (hnodup.subperm hsub).perm_of_length_le (by rw [hlen]; rfl)
    rw [← hwords.mem_iff, hmem]
  · intro hiff
    have hwords : shut.Perm (words held) :=
      (List.perm_ext_iff_of_nodup hnodup h.words_nodup).mpr fun k => by rw [hmem, hiff]
    exact hwords.filterMap p.openFiles

/-- Where each word of the table is in use exactly if the second one behind it is, the even words are
as the word behind the table is, and the odd ones are empty. -/
theorem inUse_chain (hup : ∀ k < 128, p.InUse k ↔ k < 127 ∧ p.InUse (k + 2)) {k : ℕ} (hk : k < 128) :
    p.InUse k ↔ k % 2 = 0 ∧ p.InUse 128 := by
  -- down from the two words at the end, in steps of two
  have hodd : ∀ m ≤ 63, ¬ p.InUse (127 - 2 * m) := by
    intro m
    induction m with
    | zero => exact fun _ huse => absurd ((hup 127 (by omega)).mp huse).1 (by omega)
    | succ m ih =>
        intro hm huse
        have hnext := ((hup _ (by omega)).mp huse).2
        rw [show 127 - 2 * (m + 1) + 2 = 127 - 2 * m by omega] at hnext
        exact ih (by omega) hnext
  have heven : ∀ m ≤ 64, (p.InUse (128 - 2 * m) ↔ p.InUse 128) := by
    intro m
    induction m with
    | zero => exact fun _ => Iff.rfl
    | succ m ih =>
        intro hm
        rw [← ih (by omega), hup _ (by omega), show 128 - 2 * (m + 1) + 2 = 128 - 2 * m by omega]
        exact ⟨fun hin => hin.2, fun hin => ⟨by omega, hin⟩⟩
  rcases Nat.mod_two_eq_zero_or_one k with h0 | h1
  · rw [and_iff_right h0, ← heven ((128 - k) / 2) (by omega), show 128 - 2 * ((128 - k) / 2) = k by omega]
  · refine iff_of_false (fun hin => hodd ((127 - k) / 2) (by omega) ?_) fun h => by omega
    rwa [show 127 - 2 * ((127 - k) / 2) = k by omega]

/-- **The tidy tables**: going up from a descriptor held in steps of two, all words are in use, up to
the one behind the table, and none but the descriptors met on the way is held. -/
theorem tidy_iff (h : Consistent p held) (s : ℤ) : p.Tidy held (.exit s) ↔
    ∀ k : ℕ, k ∈ words held ↔ k < 127 ∧ p.InUse (k + 2) := by
  have hword : ∀ k : ℕ, k ∈ words held → p.InUse k := fun k hk => by
    have hin := (h.valid _ ((h.mem_words k).mp hk)).2
    rwa [show ((k : ℤ) + 2 - 2).toNat = k by omega] at hin
  have htable : ∀ k < 128, p.InUse k → k ∈ words held := fun k hk hin =>
    (h.mem_words k).mpr (h.table k hk hin)
  constructor
  · intro htidy
    have heven : ∀ k : ℕ, k ∈ words held ↔ k < 127 ∧ k % 2 = 0 ∧ p.InUse 128 := fun k => by
      rw [h.mem_words, htidy]
      constructor
      · exact fun hk => ⟨by omega, by omega, hk.2.2.2⟩
      · exact fun hk => ⟨by omega, by omega, by omega, hk.2.2⟩
    intro k
    rw [heven]
    constructor
    · rintro ⟨hk, h0, hin⟩
      refine ⟨hk, ?_⟩
      by_cases hlast : k = 126
      · rwa [hlast]
      · exact hword (k + 2) ((heven (k + 2)).mpr ⟨by omega, by omega, hin⟩)
    · rintro ⟨hk, hin⟩
      by_cases hlast : k = 126
      · subst hlast
        exact ⟨hk, rfl, hin⟩
      · have hnext := (heven (k + 2)).mp (htable _ (by omega) hin)
        exact ⟨hk, by omega, hnext.2.2⟩
  · intro hiff fd
    have hup : ∀ k < 128, p.InUse k ↔ k < 127 ∧ p.InUse (k + 2) := fun k hk =>
      ⟨fun hin => (hiff k).mp (htable k hk hin), fun hin => hword k ((hiff k).mpr hin)⟩
    constructor
    · intro hfd
      obtain ⟨k, rfl⟩ : ∃ k : ℕ, fd = (k : ℤ) + 2 :=
        ⟨(fd - 2).toNat, by have := (h.valid fd hfd).1; omega⟩
      have hk := (h.mem_words k).mpr hfd
      have hlt := ((hiff k).mp hk).1
      obtain ⟨h0, hin⟩ := (inUse_chain hup (by omega)).mp (hword k hk)
      exact ⟨by omega, by omega, by omega, hin⟩
    · rintro ⟨hlow, hhigh, h0, hin⟩
      obtain ⟨k, rfl⟩ : ∃ k : ℕ, fd = (k : ℤ) + 2 := ⟨(fd - 2).toNat, by omega⟩
      exact h.table k (by omega) ((inUse_chain hup (by omega)).mpr ⟨by omega, hin⟩)

/-! ## The ways to end -/

/-- `thread_exit` closes the executable only. -/
theorem threadExit_run (s : ℤ) (p : Process) :
    threadExit s p = .error (.exited s) { p with closed := p.closed ++ p.execFile.toList } := rfl

/-- **The end with `exit_status`.** -/
theorem releases_exit (h : Consistent p held) (s : ℤ) :
    Releases p held (.exit s) ↔ p.Tidy held (.exit s) := by
  by_cases htorn : ∃ i, p.Torn i
  -- the process exits again and again, and its table is not tidy
  · obtain ⟨i, hi⟩ := htorn
    constructor
    · rintro ⟨fuel, e, p', hrun, -⟩
      obtain ⟨q, hq⟩ := exitStatus_torn h.unlocked hi s
      rw [terminate, hq] at hrun
      cases hrun
    · intro htidy
      have hword := ((tidy_iff h s).mp htidy i).mpr ⟨hi.inside, hi.inUse⟩
      have hin := (h.valid _ ((h.mem_words i).mp hword)).2
      rw [show ((i : ℤ) + 2 - 2).toNat = i by omega] at hin
      exact absurd hin hi.hole
  · rw [not_exists] at htorn
    have hrun : ∀ fuel, ∃ q, exitStatus (fuel + 1) s p = .error (.exited s) q ∧
        q.closed = p.closed ++ p.behind 127 0 ++ p.execFile.toList := by
      intro fuel
      obtain ⟨q, hq, hclosed, hexec⟩ :=
        closeFiles_run (exitStatus fuel) 127 0 p h.unlocked rfl fun k _ => htorn k
      refine ⟨_, by rw [exitStatus, bind_of_ok hq, threadExit_run], ?_⟩
      rw [hclosed, hexec]
    have hperm : ∀ {q : Process}, q.closed = p.closed ++ p.behind 127 0 ++ p.execFile.toList →
        (q.closed.Perm (p.closed ++ p.entries held ++ p.execFile.toList) ↔ p.Tidy held (.exit s)) := by
      intro q hclosed
      rw [hclosed, List.perm_append_right_iff, List.perm_append_left_iff, tidy_iff h s]
      exact behind_perm_iff h htorn
    constructor
    · rintro ⟨fuel, e, p', hend, hclosed⟩
      cases fuel with
      | zero => cases hend
      | succ fuel =>
          obtain ⟨q, hq, hclosed'⟩ := hrun fuel
          rw [terminate, hq] at hend
          cases hend
          exact (hperm hclosed').mp hclosed
    · intro htidy
      obtain ⟨q, hq, hclosed⟩ := hrun 0
      exact ⟨1, s, q, hq, (hperm hclosed).mpr htidy⟩

/-- A loop that meets no slot in use. -/
theorem closeFiles_empty (exit : ℤ → Code Unit) : ∀ (n j : ℕ) (p : Process),
    (∀ k, j ≤ k → k < j + n → ¬ p.InUse k) → ∃ p', closeFiles exit n j p = .ok () p' ∧
      p'.closed = p.closed ∧ p'.execFile = p.execFile
  | 0, _, p, _ => ⟨p, rfl, rfl, rfl⟩
  | n + 1, j, p, hempty => by
      rw [closeFiles_skip (not_not.mp (hempty j le_rfl (by omega)))]
      exact closeFiles_empty exit n (j + 1) (p.look j) fun k hk hkn => hempty k (by omega) (by omega)

/-- `exit_status` of a process that has nothing to close. -/
theorem exitStatus_empty (hempty : ∀ k, 2 ≤ k → k ≤ 128 → ¬ p.InUse k) (fuel : ℕ) (s : ℤ) :
    ∃ p', exitStatus (fuel + 1) s p = .error (.exited s) p' ∧
      p'.closed = p.closed ++ p.execFile.toList := by
  obtain ⟨q, hq, hclosed, hexec⟩ := closeFiles_empty (exitStatus fuel) 127 2 p
    fun k hk hkn => hempty k hk (by omega)
  refine ⟨_, by rw [exitStatus, bind_of_ok hq, threadExit_run], ?_⟩
  rw [hclosed, hexec]

/-- `my_close` of an open descriptor by a process that holds the lock. -/
theorem myClose_locked {exit : ℤ → Code Unit} (hlock : p.lockHeld = true) (hi : i < 128)
    (hf : p.openFiles i = some f) : myClose exit ((i : ℤ) + 2) p =
      .error .assertFailed { p with openFiles := Function.update p.openFiles i none } := by
  rw [myClose, bind_of_ok (getFile_run hi hf), show ((i : ℤ) + 2 - 2).toNat = i by omega,
    bind_of_ok (setSlot_run hi none)]
  apply bind_of_error
  rw [lockAcquire, fetch_bind]
  exact congrFun (if_pos hlock) _

/-- **With the lock held nothing can be closed**: the first `my_close` that finds its file stops in
`lock_acquire`, and one that does not find it exits again. -/
theorem closeFiles_locked {exit : ℤ → Code Unit}
    (hexit : ∀ q : Process, q.lockHeld = true → (∃ k, 2 ≤ k ∧ k ≤ 128 ∧ q.InUse k) →
      ∃ e q', exit (-1) q = .error e q' ∧ ∀ s, e ≠ .exited s) :
    ∀ (n j : ℕ) (p : Process), p.lockHeld = true → n + j = 127 →
      (∃ k, j ≤ k ∧ k ≤ 126 ∧ p.InUse (k + 2)) →
        ∃ e p', closeFiles exit n (j + 2) p = .error e p' ∧ ∀ s, e ≠ .exited s
  | 0, j, p, _, hn, ⟨k, hjk, hk, _⟩ => by omega
  | n + 1, j, p, hlock, hn, ⟨k, hjk, hk, hin⟩ => by
      by_cases huse : p.InUse (j + 2)
      · cases hf : p.openFiles j with
        | none =>
            obtain ⟨e, q, hq, hne⟩ :=
              hexit (p.look (j + 2)) hlock ⟨j + 2, by omega, by omega, huse⟩
            exact ⟨e, q, closeFiles_exit huse hf hq, hne⟩
        | some f =>
            exact ⟨.assertFailed, _, closeFiles_stop huse (myClose_locked hlock (by omega) hf),
              fun s hs => by cases hs⟩
      · rw [closeFiles_skip (not_not.mp huse)]
        have hkj : k ≠ j := fun heq => huse (heq ▸ hin)
        exact closeFiles_locked hexit n (j + 1) (p.look (j + 2)) hlock (by omega)
          ⟨k, by omega, hk, hin⟩

/-- With the lock held and something to close the process does not end. -/
theorem exitStatus_locked (fuel : ℕ) : ∀ (s : ℤ) (p : Process), p.lockHeld = true →
    (∃ k, 2 ≤ k ∧ k ≤ 128 ∧ p.InUse k) →
      ∃ e p', exitStatus fuel s p = .error e p' ∧ ∀ s', e ≠ .exited s' := by
  induction fuel with
  | zero => exact fun s p _ _ => ⟨.unending, p, rfl, fun s' hs => by cases hs⟩
  | succ fuel ih =>
      rintro s p hlock ⟨k, hlow, hhigh, hin⟩
      obtain ⟨e, q, hq, hne⟩ := closeFiles_locked (ih (-1)) 127 0 p hlock rfl
        ⟨k - 2, by omega, by omega, by rwa [show k - 2 + 2 = k by omega]⟩
      exact ⟨e, q, by rw [exitStatus, bind_of_error hq], hne⟩

/-- **The end with the lock held.** -/
theorem exits_locked (h : Consistent p held) :
    (∃ fuel s p', exitStatus fuel (-1) { p with lockHeld := true } = .error (.exited s) p' ∧
      p'.closed.Perm (p.closed ++ p.entries held ++ p.execFile.toList)) ↔
        held = [] ∧ ¬ p.InUse 128 := by
  constructor
  · rintro ⟨fuel, s, p', hend, hclosed⟩
    -- a word in use would have been closed, and `lock_acquire` would have stopped
    have hempty : ∀ k, 2 ≤ k → k ≤ 128 → ¬ p.InUse k := fun k hlow hhigh hin => by
      obtain ⟨e, q, hq, hne⟩ :=
        exitStatus_locked fuel (-1) { p with lockHeld := true } rfl ⟨k, hlow, hhigh, hin⟩
      rw [hq] at hend
      cases hend
      exact hne s rfl
    cases fuel with
    | zero => cases hend
    | succ fuel =>
        obtain ⟨q, hq, hclosed'⟩ :=
          exitStatus_empty (p := { p with lockHeld := true }) hempty fuel (-1)
        rw [hq] at hend
        cases hend
        rw [hclosed'] at hclosed
        exact ⟨(h.perm_iff p.closed p.execFile).mp hclosed, hempty 128 (by decide) le_rfl⟩
  · rintro ⟨rfl, hbehind⟩
    have hempty : ∀ k, 2 ≤ k → k ≤ 128 → ¬ p.InUse k := fun k _ hhigh hin => by
      rcases Nat.lt_or_eq_of_le hhigh with hlt | rfl
      · exact List.not_mem_nil (h.table k hlt hin)
      · exact hbehind hin
    obtain ⟨q, hq, hclosed⟩ := exitStatus_empty (p := { p with lockHeld := true }) hempty 0 (-1)
    refine ⟨1, -1, q, hq, ?_⟩
    rw [hclosed]
    exact (h.perm_iff p.closed p.execFile).mpr rfl

/-- `seek` of an open descriptor returns. -/
theorem mySeek_open {fd : ℤ} (hlock : p.lockHeld = false) (hfd : p.IsOpen fd) (fuel : ℕ)
    (position : ℤ) : ∃ p', mySeek fuel fd position p = .ok () p' := by
  obtain ⟨f, hf⟩ := Option.ne_none_iff_exists'.mp hfd.2.2
  obtain ⟨i, rfl⟩ : ∃ i : ℕ, fd = (i : ℤ) + 2 := ⟨(fd - 2).toNat, by have := hfd.1; omega⟩
  rw [show ((i : ℤ) + 2 - 2).toNat = i by omega] at hf
  have hlt : i < 128 := by
    have := hfd.2.1
    omega
  have hget : getFile (exitStatus fuel) ((i : ℤ) + 2) { p with lockHeld := true } =
      .ok (some f) { p with lockHeld := true } := getFile_run hlt hf
  by_cases hpos : position < 0
  · exact ⟨_, by rw [mySeek, bind_of_ok (lock_run hlock), bind_of_ok hget, if_pos hpos]; rfl⟩
  · exact ⟨_, by rw [mySeek, bind_of_ok (lock_run hlock), bind_of_ok hget, if_neg hpos, unlock_run rfl]⟩

/-- **The end in `seek`.** -/
theorem releases_seek (h : Consistent p held) (fd position : ℤ) :
    Releases p held (.seek fd position) ↔ p.Tidy held (.seek fd position) := by
  by_cases hfd : p.IsOpen fd
  · constructor
    · rintro ⟨fuel, s, p', hend, -⟩
      obtain ⟨q, hq⟩ := mySeek_open h.unlocked hfd fuel position
      rw [terminate, hq] at hend
      cases hend
    · rintro ⟨rfl, -⟩
      obtain ⟨hlow, hhigh, hin⟩ := hfd
      exact absurd (h.table (fd - 2).toNat (by omega) hin) List.not_mem_nil
  · have hseek : ∀ fuel s p', mySeek fuel fd position p = .error (.exited s) p' ↔
        exitStatus fuel (-1) { p with lockHeld := true } = .error (.exited s) p' := fun fuel s p' => by
      cases hexit : exitStatus fuel (-1) { p with lockHeld := true } with
      | ok u q => exact absurd hexit (exitStatus_ne_ok fuel (-1) _ q)
      | error e q =>
          rw [mySeek, bind_of_ok (lock_run h.unlocked),
            bind_of_error (getFile_exit (p := { p with lockHeld := true }) hfd hexit)]
    refine Iff.trans ?_ (exits_locked h)
    constructor
    · rintro ⟨fuel, s, p', hend, hclosed⟩
      exact ⟨fuel, s, p', (hseek fuel s p').mp hend, hclosed⟩
    · rintro ⟨fuel, s, p', hend, hclosed⟩
      exact ⟨fuel, s, p', (hseek fuel s p').mpr hend, hclosed⟩

/-- **The end in a page fault with the lock held.** -/
theorem releases_fault (h : Consistent p held) : Releases p held .fault ↔ p.Tidy held .fault := by
  refine Iff.trans ?_ (exits_locked h)
  have hfault : ∀ fuel, terminate fuel .fault p = exitStatus fuel (-1) { p with lockHeld := true } :=
    fun fuel => by rw [terminate, bind_of_ok (lock_run h.unlocked)]
  constructor
  · rintro ⟨fuel, s, p', hend, hclosed⟩
    exact ⟨fuel, s, p', (hfault fuel).symm.trans hend, hclosed⟩
  · rintro ⟨fuel, s, p', hend, hclosed⟩
    exact ⟨fuel, s, p', (hfault fuel).trans hend, hclosed⟩

/-- **The end with `thread_exit` alone.** -/
theorem releases_killed (h : Consistent p held) : Releases p held .killed ↔ p.Tidy held .killed := by
  refine Iff.trans ?_ (h.perm_iff p.closed p.execFile)
  constructor
  · rintro ⟨fuel, s, p', hend, hclosed⟩
    rw [terminate, threadExit_run] at hend
    cases hend
    exact hclosed
  · exact fun hclosed => ⟨0, -1, _, threadExit_run (-1) p, hclosed⟩

/-- **The end of a process releases its descriptors** if and only if the table is tidy. -/
theorem terminate_iff (h : Holds p held) (way : Ending) :
    Releases p held way ↔ p.Tidy held way := by
  have hp := h.consistent
  cases way with
  | exit s => exact releases_exit hp s
  | seek fd position => exact releases_seek hp fd position
  | fault => exact releases_fault hp
  | killed => exact releases_killed hp

end Held

/-- It releases the 64 files of a process that has the even descriptors open, with a word in use
behind the table, and a process that has closed its only file again may end in any way. -/
theorem terminate_evenFiles :
    (∃ p held, Holds p held ∧ (∀ fd, fd ∈ held ↔ 2 ≤ fd ∧ fd ≤ 128 ∧ fd % 2 = 0) ∧
      Releases p held (.exit 0)) ∧
    (oneFile.shut 0 5).closed = [5] ∧ Releases (oneFile.shut 0 5) [] (.exit 0) ∧
      Releases (oneFile.shut 0 5) [] (.seek 2 0) := by
  have hrun : myClose (exitStatus 0) 2 oneFile = .ok () (oneFile.shut 0 5) :=
    @myClose_run oneFile 0 5 (exitStatus 0) rfl (by decide) rfl
  have hshut : Holds (oneFile.shut 0 5) [] := .closeFile holds_oneFile hrun
  have hnone : ∀ k, ¬ (oneFile.shut 0 5).InUse k := fun k huse => by
    have huse := (inUse_update 0 k none oneFile).mp huse
    split_ifs at huse with hk
    · exact huse rfl
    · exact huse (Function.update_of_ne hk _ _)
  -- all slots are taken, then the odd ones closed
  obtain ⟨p, held, hp, hlt, hused, hbehind⟩ :=
    holds_full (p := leftOver) holds_leftOver leftOver_empty 128 le_rfl
  obtain ⟨q, held', hq, hlt', heven, hbehind'⟩ := holds_even hp hused hlt 64 le_rfl
  have hlast : q.InUse 128 := hbehind'.mpr (by
    rw [Process.InUse, hbehind 128 le_rfl]
    exact Option.some_ne_none 7)
  have hheld : ∀ fd, fd ∈ held' ↔ 2 ≤ fd ∧ fd ≤ 128 ∧ fd % 2 = 0 := by
    intro fd
    constructor
    · intro hfd
      obtain ⟨hlow, hin⟩ := hq.consistent.valid fd hfd
      have hhigh := hlt' fd hfd
      have := (heven (fd - 2).toNat (by omega)).mp hin
      exact ⟨hlow, by omega, by omega⟩
    · rintro ⟨hlow, hhigh, h0⟩
      have hmem := hq.consistent.table (fd - 2).toNat (by omega)
        ((heven _ (by omega)).mpr (.inl (by omega)))
      rwa [show (((fd - 2).toNat : ℕ) : ℤ) + 2 = fd by omega] at hmem
  refine ⟨⟨q, held', hq, hheld, (terminate_iff hq (.exit 0)).mpr fun fd => ?_⟩, rfl,
    (terminate_iff hshut (.exit 0)).mpr fun fd => ?_,
    (terminate_iff hshut (.seek 2 0)).mpr ⟨rfl, hnone 128⟩⟩
  · rw [hheld]
    exact ⟨fun h => ⟨h.1, h.2.1, h.2.2, hlast⟩, fun h => ⟨h.1, h.2.1, h.2.2.1⟩⟩
  · exact ⟨fun h => absurd h List.not_mem_nil, fun h => absurd h.2.2.2 (hnone 128)⟩

/-- The file of slot 0 stays open. -/
theorem terminate_leaks : ¬ ∀ p held, Holds p held → ∀ s, Releases p held (.exit s) := by
  intro h
  have htidy := (releases_exit holds_oneFile.consistent 0).mp (h oneFile [2] holds_oneFile 0)
  exact ((htidy 2).mp List.mem_cons_self).2.2.2 rfl

/-! ## Descriptors -/

/-- **Descriptors are allocated as they should be** if and only if the file cannot be opened or
there is a free slot. -/
theorem myOpen_iff (h : Reachable p) (hfuel : 128 ≤ fuel) (opened : Option ℕ) :
    Opens p opened (myOpen fuel true opened p) ↔ opened = none ∨ ∃ i < 128, ¬ p.InUse i := by
  constructor
  · intro hopens
    by_contra hcond
    rw [not_or, not_exists] at hcond
    obtain ⟨f, rfl⟩ := Option.ne_none_iff_exists'.mp hcond.1
    have hfull : ∀ i < 128, p.InUse i := fun i hi => by_contra fun hfree => hcond.2 i ⟨hi, hfree⟩
    exact myOpen_full h.unlocked hfull fuel f hopens
  · intro hcond
    refine ⟨?_, ?_, ?_⟩
    · rintro rfl
      exact myOpen_none h.unlocked fuel
    · rintro f i rfl hi hfree hused
      exact myOpen_first h.unlocked hused hfree hi fuel hfuel f
    · rintro f rfl hfull
      rcases hcond with hcond | ⟨i, hi, hfree⟩
      · cases hcond
      · exact absurd (hfull i hi) hfree

/-- A second descriptor. -/
theorem myOpen_second : Opens oneFile (some 6) (myOpen 128 true (some 6) oneFile) :=
  (myOpen_iff ⟨[2], holds_oneFile⟩ le_rfl (some 6)).mpr (.inr ⟨1, by decide, by decide⟩)

/-- The 129th `open` does not fail. -/
theorem myOpen_overflows : ¬ ∀ p, Reachable p → ∀ opened,
    Opens p opened (myOpen 200 true opened p) := by
  intro h
  obtain ⟨p, held, hp, -, hused, -⟩ := holds_full holds_noFiles (fun _ _ => rfl) 128 le_rfl
  exact myOpen_full hp.consistent.unlocked hused 200 1 (h p ⟨held, hp⟩ (some 1))

end

end Pintos.Userprog.Descriptors
