import Pintos.FileSys.OpenTableRuns

/-!
# Calls that leave a file alone

A `struct file` is changed only by the calls that are given its address.  `LeavesFile f`
relates two tables between which the file at `f` did not change, also when it is not open:
an address that was freed is never used again.

* **`Sys.leavesFile_after`** — every call that does not name `f`.
-/

namespace Pintos.OpenTable

open Lib

variable {δ α : Type} {L : DataLayer δ} {f : ℕ}

/-- The file at `f` is as it was. -/
def LeavesFile (f : ℕ) (t t' : Table δ) : Prop :=
  t.nextAddr ≤ t'.nextAddr ∧ (f < t.nextAddr → t'.files f = t.files f)

instance : Std.Refl (LeavesFile f (δ := δ)) := ⟨fun _ => ⟨le_rfl, fun _ => rfl⟩⟩

instance : IsTrans (Table δ) (LeavesFile f) where
  trans _ _ _ h h' := ⟨h.1.trans h'.1, fun hf => (h'.2 (hf.trans_le h.1)).trans (h.2 hf)⟩

namespace LeavesFile

theorem of_files {t t' : Table δ} (hn : t'.nextAddr = t.nextAddr) (hf : t'.files = t.files) :
    LeavesFile f t t' :=
  ⟨hn.ge, fun _ => congrFun hf f⟩

/-! ## Inodes -/

theorem onData (c : DataCode δ α) : Moves (LeavesFile f) (OpenTable.onData c) := by
  intro t
  unfold OpenTable.onData
  split
  · exact of_files rfl rfl
  · exact refl_of _ t

theorem malloc : Moves (LeavesFile f) (OpenTable.malloc (δ := δ)) := by
  refine Moves.bind (Moves.fetch _) fun a => Moves.bind (Moves.change fun t => of_files rfl rfl) fun _ =>
    Moves.ite (Moves.bind (Moves.change fun t => ?_) fun _ => Moves.pure _) (Moves.pure _)
  exact ⟨Nat.le_succ _, fun _ => rfl⟩

theorem getInode (p : ℕ) : Moves (LeavesFile f (δ := δ)) (OpenTable.getInode p) := by
  refine Moves.bind (Moves.fetch _) fun a => ?_
  cases a with
  | none => exact Moves.stop _
  | some ino => exact Moves.pure _

theorem setInode (p : ℕ) (ino : OpenInode) :
    Moves (LeavesFile f (δ := δ)) (OpenTable.setInode p ino) :=
  Moves.change fun _ => of_files rfl rfl

theorem getDir (d : ℕ) : Moves (LeavesFile f (δ := δ)) (OpenTable.getDir d) := by
  refine Moves.bind (Moves.fetch _) fun a => ?_
  cases a with
  | none => exact Moves.stop _
  | some ino => exact Moves.pure _

theorem setDir (d : ℕ) (dir : Option OpenDir) :
    Moves (LeavesFile f (δ := δ)) (OpenTable.setDir d dir) :=
  Moves.change fun _ => of_files rfl rfl

theorem tableAssert (c : Bool) : Moves (LeavesFile f (δ := δ)) (OpenTable.tableAssert c) :=
  Moves.ite (Moves.pure _) (Moves.stop _)

theorem inodeReopen (p : ℕ) : Moves (LeavesFile f (δ := δ)) (OpenTable.inodeReopen p) :=
  Moves.bind (getInode p) fun _ => setInode p _

theorem newInode (s : ℕ) : Moves (LeavesFile f) (OpenTable.newInode L s) := by
  refine Moves.bind malloc fun r => ?_
  cases r with
  | none => exact Moves.pure _
  | some p =>
      exact Moves.bind (Moves.change fun _ => of_files rfl rfl) fun _ =>
        Moves.bind (onData _) fun _ => Moves.pure _

theorem inodeOpen (s : ℕ) : Moves (LeavesFile f) (OpenTable.inodeOpen L s) := by
  refine Moves.bind (Moves.fetch _) fun r => ?_
  cases r with
  | none => exact newInode s
  | some p => exact Moves.bind (inodeReopen p) fun _ => Moves.pure _

theorem freeInode (p : ℕ) (ino : OpenInode) : Moves (LeavesFile f) (OpenTable.freeInode L p ino) :=
  Moves.bind (Moves.change fun _ => of_files rfl rfl) fun _ => Moves.bind
    (Moves.ite (Moves.bind (onData _) fun _ => onData _) (Moves.pure _)) fun _ =>
    Moves.change fun _ => of_files rfl rfl

theorem inodeClose (inode : Option ℕ) : Moves (LeavesFile f) (OpenTable.inodeClose L inode) := by
  cases inode with
  | none => exact Moves.pure _
  | some p =>
      exact Moves.bind (getInode p) fun ino => Moves.bind (setInode p _) fun _ =>
        Moves.ite (freeInode p ino) (Moves.pure _)

theorem inodeRemove (p : ℕ) : Moves (LeavesFile f (δ := δ)) (OpenTable.inodeRemove p) :=
  Moves.bind (getInode p) fun _ => setInode p _

theorem inodeDenyWrite (p : ℕ) : Moves (LeavesFile f (δ := δ)) (OpenTable.inodeDenyWrite p) :=
  Moves.bind (getInode p) fun _ => Moves.bind (setInode p _) fun _ => tableAssert _

theorem inodeAllowWrite (p : ℕ) : Moves (LeavesFile f (δ := δ)) (OpenTable.inodeAllowWrite p) :=
  Moves.bind (getInode p) fun _ => Moves.bind (tableAssert _) fun _ =>
    Moves.bind (tableAssert _) fun _ => setInode p _

theorem inodeWriteAt (p : ℕ) (buffer : List UInt8) (offset : ℤ) :
    Moves (LeavesFile f) (OpenTable.inodeWriteAt L p buffer offset) :=
  Moves.bind (getInode p) fun _ => Moves.ite (Moves.pure _) (onData _)

/-! ## Other files -/

theorem getFile (g : ℕ) : Moves (LeavesFile f (δ := δ)) (OpenTable.getFile g) := by
  refine Moves.bind (Moves.fetch _) fun a => ?_
  cases a with
  | none => exact Moves.stop _
  | some ino => exact Moves.pure _

theorem setFile {g : ℕ} (hg : g ≠ f) (file : Option OpenFile) :
    Moves (LeavesFile f (δ := δ)) (OpenTable.setFile g file) :=
  Moves.change fun _ => ⟨le_rfl, fun _ => Function.update_of_ne hg.symm ..⟩

/-- Memory was there. -/
theorem malloc_some {t : Table δ} (e : t.heap t.mallocs = true) : OpenTable.malloc t =
    .ok (some t.nextAddr) { t with mallocs := t.mallocs + 1, nextAddr := t.nextAddr + 1 } := by
  show (if t.heap t.mallocs = true then _ else _ : TableCode δ (Option ℕ)) _ = _
  rw [if_pos e]
  rfl

/-- There was no memory. -/
theorem malloc_none {t : Table δ} (e : t.heap t.mallocs = false) :
    OpenTable.malloc t = .ok none { t with mallocs := t.mallocs + 1 } := by
  show (if t.heap t.mallocs = true then _ else _ : TableCode δ (Option ℕ)) _ = _
  rw [if_neg (ne_true_of_eq_false e)]
  rfl

/-- A new file is at a new address. -/
theorem fileOpen (inode : Option ℕ) : Moves (LeavesFile f) (OpenTable.fileOpen L inode) := by
  have hfail : ∀ i : Option ℕ, Moves (LeavesFile f)
      (OpenTable.inodeClose L i >>= fun _ => pure (none : Option ℕ)) := fun i =>
    Moves.bind (inodeClose i) fun _ => Moves.pure _
  intro t
  cases e : t.heap t.mallocs with
  | false =>
      rw [OpenTable.fileOpen, bind_of_ok (malloc_none e)]
      have h1 : LeavesFile f t { t with mallocs := t.mallocs + 1 } := of_files rfl rfl
      cases inode with
      | none => exact trans_of (LeavesFile f) h1 (hfail none _)
      | some p => exact trans_of (LeavesFile f) h1 (hfail (some p) _)
  | true =>
      rw [OpenTable.fileOpen, bind_of_ok (malloc_some e)]
      cases inode with
      | none =>
          have h1 : LeavesFile f t { t with mallocs := t.mallocs + 1, nextAddr := t.nextAddr + 1 } :=
            ⟨Nat.le_succ _, fun _ => rfl⟩
          exact trans_of (LeavesFile f) h1 (hfail none _)
      | some p => exact ⟨Nat.le_succ _, fun hf => Function.update_of_ne hf.ne ..⟩

theorem fileReopen (g : ℕ) : Moves (LeavesFile f) (OpenTable.fileReopen L g) :=
  Moves.bind (getFile g) fun _ => Moves.bind (inodeReopen _) fun _ => fileOpen _

theorem fileDenyWrite {g : ℕ} (hg : g ≠ f) :
    Moves (LeavesFile f (δ := δ)) (OpenTable.fileDenyWrite g) :=
  Moves.bind (getFile g) fun _ =>
    Moves.ite (Moves.bind (setFile hg _) fun _ => inodeDenyWrite _) (Moves.pure _)

theorem fileAllowWrite {g : ℕ} (hg : g ≠ f) :
    Moves (LeavesFile f (δ := δ)) (OpenTable.fileAllowWrite g) :=
  Moves.bind (getFile g) fun _ =>
    Moves.ite (Moves.bind (setFile hg _) fun _ => inodeAllowWrite _) (Moves.pure _)

theorem fileClose {g : ℕ} (hg : g ≠ f) : Moves (LeavesFile f) (OpenTable.fileClose L (some g)) :=
  Moves.bind (fileAllowWrite hg) fun _ => Moves.bind (getFile g) fun _ =>
    Moves.bind (inodeClose _) fun _ => setFile hg _

theorem fileWrite {g : ℕ} (hg : g ≠ f) (buffer : List UInt8) :
    Moves (LeavesFile f) (OpenTable.fileWrite L g buffer) :=
  Moves.bind (getFile g) fun _ => Moves.bind (inodeWriteAt _ _ _) fun _ =>
    Moves.bind (setFile hg _) fun _ => Moves.pure _

/-! ## Directories and names -/

theorem dirOpen (inode : Option ℕ) : Moves (LeavesFile f) (OpenTable.dirOpen L inode) := by
  refine Moves.bind malloc fun r => ?_
  cases inode with
  | none => exact Moves.bind (inodeClose _) fun _ => Moves.pure _
  | some p =>
      cases r with
      | none => exact Moves.bind (inodeClose _) fun _ => Moves.pure _
      | some d => exact Moves.bind (setDir d _) fun _ => Moves.pure _

theorem dirOpenRoot : Moves (LeavesFile f) (OpenTable.dirOpenRoot L) :=
  Moves.bind (inodeOpen _) dirOpen

theorem dirReopen (d : ℕ) : Moves (LeavesFile f) (OpenTable.dirReopen L d) :=
  Moves.bind (getDir d) fun _ => Moves.bind (inodeReopen _) fun _ => dirOpen _

theorem dirClose (dir : Option ℕ) : Moves (LeavesFile f) (OpenTable.dirClose L dir) := by
  cases dir with
  | none => exact Moves.pure _
  | some d => exact Moves.bind (getDir d) fun _ => Moves.bind (inodeClose _) fun _ => setDir d _

theorem dirLookup (d : ℕ) (name : CString) : Moves (LeavesFile f) (OpenTable.dirLookup L d name) := by
  refine Moves.bind (getDir d) fun _ => Moves.bind (onData _) fun r => ?_
  cases r with
  | none => exact Moves.pure _
  | some e => exact inodeOpen _

theorem dirAdd (d : ℕ) (name : CString) (s : ℕ) :
    Moves (LeavesFile f) (OpenTable.dirAdd L d name s) := by
  refine Moves.bind (getDir d) fun _ => Moves.ite (Moves.pure _) (Moves.bind (onData _) fun r => ?_)
  cases r with
  | none =>
      exact Moves.bind (onData _) fun _ => Moves.bind (inodeWriteAt _ _ _) fun _ => Moves.pure _
  | some e => exact Moves.pure _

theorem eraseEntry (p q : ℕ) (entry : List UInt8) (ofs : ℤ) :
    Moves (LeavesFile f) (OpenTable.eraseEntry L p q entry ofs) :=
  Moves.bind (inodeWriteAt _ _ _) fun _ => Moves.ite
    (Moves.bind (inodeClose _) fun _ => Moves.pure _)
    (Moves.bind (inodeRemove q) fun _ => Moves.bind (inodeClose _) fun _ => Moves.pure _)

theorem dirRemove (d : ℕ) (name : CString) : Moves (LeavesFile f) (OpenTable.dirRemove L d name) := by
  refine Moves.bind (getDir d) fun _ => Moves.bind (onData _) fun r => ?_
  cases r with
  | none => exact Moves.pure _
  | some e =>
      refine Moves.bind (inodeOpen _) fun q => ?_
      cases q with
      | none => exact Moves.pure _
      | some q => exact eraseEntry _ _ _ _

theorem createIn (d : ℕ) (name : CString) (size : ℤ) (isDir : Bool) :
    Moves (LeavesFile f) (OpenTable.createIn L d name size isDir) := by
  refine Moves.bind (onData _) fun r => ?_
  cases r with
  | none => exact Moves.pure _
  | some s =>
      exact Moves.bind (onData _) fun _ =>
        Moves.ite (Moves.bind (dirAdd _ _ _) fun _ => Moves.pure _) (Moves.pure _)

theorem filesysCreate (name : CString) (size : ℤ) (isDir : Bool) :
    Moves (LeavesFile f) (OpenTable.filesysCreate L name size isDir) := by
  refine Moves.ite (Moves.pure _) (Moves.bind dirOpenRoot fun r => ?_)
  cases r with
  | none => exact Moves.pure _
  | some d =>
      exact Moves.bind (createIn _ _ _ _) fun _ => Moves.bind (Moves.ite (onData _) (Moves.pure _)) fun _ =>
        Moves.bind (dirClose _) fun _ => Moves.pure _

theorem filesysOpen (name : CString) : Moves (LeavesFile f) (OpenTable.filesysOpen L name) := by
  refine Moves.bind dirOpenRoot fun r => ?_
  cases r with
  | none => exact fileOpen none
  | some d => exact Moves.bind (dirLookup d name) fun _ => Moves.bind (dirClose _) fun _ => fileOpen _

theorem filesysRemove (name : CString) : Moves (LeavesFile f) (OpenTable.filesysRemove L name) := by
  refine Moves.bind dirOpenRoot fun r => ?_
  cases r with
  | none => exact Moves.pure _
  | some d =>
      exact Moves.bind (dirRemove d name) fun _ => Moves.bind (dirClose _) fun _ => Moves.pure _

end LeavesFile

/-! ## Calls from outside -/

/-- The file a call is given. -/
def TableOp.file? : TableOp → Option ℕ
  | .fileReopen f | .fileClose f | .fileDenyWrite f | .fileAllowWrite f => some f
  | .fileWrite f _ => some f
  | _ => none

theorem Sys.ended_leavesFile {u : Sys δ} {held : α → Held} {m : TableCode δ α}
    (hm : Moves (LeavesFile f) m) : LeavesFile f u.table (u.ended held (m u.table)).table := by
  have h := hm u.table
  cases e : m u.table with
  | ok a t =>
      rw [e] at h
      exact h
  | error x t =>
      rw [e] at h
      exact h

/-- **A call that does not name a file leaves it alone.** -/
theorem Sys.leavesFile_after (u : Sys δ) (op : TableOp) (hop : op.file? ≠ some f) :
    LeavesFile f u.table (u.after L op).table := by
  have hne : ∀ {g : ℕ}, some g ≠ some f → g ≠ f := fun h e => h (congrArg some e)
  rw [Sys.after]
  split
  · exact refl_of _ u.table
  cases op with
  | inodeOpen s => exact ended_leavesFile (.inodeOpen s)
  | inodeReopen p => exact ended_leavesFile (.inodeReopen p)
  | inodeClose p => exact ended_leavesFile (.inodeClose (some p))
  | inodeRemove p => exact ended_leavesFile (.inodeRemove p)
  | inodeWriteAt p b o => exact ended_leavesFile (.inodeWriteAt p b o)
  | fileOpen inode =>
      cases inode with
      | none => exact ended_leavesFile (.fileOpen none)
      | some p => exact ended_leavesFile (.fileOpen (some p))
  | fileReopen g => exact ended_leavesFile (.fileReopen g)
  | fileClose g => exact ended_leavesFile (.fileClose (hne hop))
  | fileDenyWrite g => exact ended_leavesFile (.fileDenyWrite (hne hop))
  | fileAllowWrite g => exact ended_leavesFile (.fileAllowWrite (hne hop))
  | fileWrite g b => exact ended_leavesFile (.fileWrite (hne hop) b)
  | dirOpen inode =>
      cases inode with
      | none => exact ended_leavesFile (.dirOpen none)
      | some p => exact ended_leavesFile (.dirOpen (some p))
  | dirReopen d => exact ended_leavesFile (.dirReopen d)
  | dirClose d => exact ended_leavesFile (.dirClose (some d))
  | dirLookup d n => exact ended_leavesFile (.dirLookup d n)
  | dirAdd d n s => exact ended_leavesFile (.dirAdd d n s)
  | dirRemove d n => exact ended_leavesFile (.dirRemove d n)
  | filesysCreate n k b => exact ended_leavesFile (.filesysCreate n k b)
  | filesysOpen n => exact ended_leavesFile (.filesysOpen n)
  | filesysRemove n => exact ended_leavesFile (.filesysRemove n)

end Pintos.OpenTable
