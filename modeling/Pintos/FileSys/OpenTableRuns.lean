import Pintos.FileSys.OpenTableSafety
import Pintos.Lib.GrowArray

/-!
# What is open, through every sequence of calls

The invariant of `Pintos.FileSys.OpenTableSafety` along every sequence of calls on inodes,
files, directories and names, with allocations that fail at any time.  The calls never
follow a dangling pointer and never fail an assertion; the kernel may stop only inside the
data layer.

* **`openOk_of_run`** — one inode for a sector, with as many openers as the callers hold handles on it.
* **`denyOk_of_run`** — writes to an inode are refused while a file denies them.
-/

namespace Pintos.OpenTable

open Lib

variable {δ α : Type} {L : DataLayer δ} {u : Sys δ}

/-- The invariant of a run. -/
def Sys.Ok (u : Sys δ) : Prop :=
  (u.stopped = none ∧ Accounted u.held u.table) ∨ u.stopped = some .dataLayer

theorem Sys.ok_init (heap : ℕ → Bool) (data : δ) : (Sys.init heap data).Ok := by
  have hcells : Cells ⟨[], [], []⟩ (Sys.init heap data).table :=
    ⟨List.nodup_nil, List.nodup_nil, fun _ => iff_of_false (fun h => h rfl) List.not_mem_nil,
      fun _ => iff_of_false (fun h => h rfl) List.not_mem_nil⟩
  refine .inl ⟨rfl, ⟨fun _ _ => rfl, fun _ _ => rfl⟩, hcells, List.nodup_nil, fun p => ?_, fun h => ?_,
    fun h => ?_, fun _ => ?_, fun _ => rfl⟩
  · exact ⟨fun h => absurd h List.not_mem_nil, fun h => absurd rfl h⟩
  · cases h
  · cases h
  · exact ⟨rfl, rfl⟩

/-- A call that keeps the accounts keeps the invariant. -/
theorem Sys.ended_ok (hu : u.stopped = none) {held : α → Held}
    {r : EStateM.Result TableStop (Table δ) α} (h : Ends r (fun a t => Accounted (held a) t) Stops) :
    (u.ended held r).Ok := by
  cases r with
  | ok a t => exact .inl ⟨hu, h⟩
  | error e t => exact .inr (congrArg some h)

/-- **A call keeps the invariant.** -/
theorem Sys.call_ok (hu : u.stopped = none) (ha : Accounted u.held u.table) (op : TableOp)
    (hop : u.Allowed op) : (u.call L op).Ok := by
  cases op with
  | inodeOpen s => exact ended_ok hu ((ha.inodeOpen s).mono (fun _ _ h => h.1) fun _ _ he => he)
  | inodeReopen p =>
      exact ended_ok hu ((ha.inodeReopen (Accounted.ref_pos hop)).mono (fun _ _ h => h.1)
        fun _ _ he => he)
  | inodeClose p =>
      exact ended_ok hu ((ha.refFirst hop).inodeClose.mono (fun _ _ h => h.1) fun _ _ he => he)
  | inodeRemove p =>
      exact ended_ok hu ((ha.inodeRemove (Accounted.ref_pos hop)).mono (fun _ _ h => h.1)
        fun _ _ he => he)
  | inodeWriteAt p b o =>
      exact ended_ok hu ((ha.inodeWriteAt (Accounted.ref_pos hop) b o).mono (fun _ _ h => h.1)
        fun _ _ he => he)
  | fileOpen inode =>
      cases inode with
      | none => exact ended_ok hu (Accounted.fileOpen none ha)
      | some p => exact ended_ok hu (Accounted.fileOpen (some p) (ha.refFirst hop))
  | fileReopen f =>
      obtain ⟨file, hf⟩ := ha.file_some hop
      exact ended_ok hu (ha.fileReopen hf)
  | fileClose f =>
      obtain ⟨file, hf⟩ := ha.file_some hop
      exact ended_ok hu ((ha.fileClose hf).mono (fun _ _ h => h.1) fun _ _ he => he)
  | fileDenyWrite f =>
      obtain ⟨file, hf⟩ := ha.file_some hop
      exact ended_ok hu ((ha.fileDenyWrite hf).mono (fun _ _ h => h.accounted) fun _ _ he => he)
  | fileAllowWrite f =>
      obtain ⟨file, hf⟩ := ha.file_some hop
      exact ended_ok hu ((ha.fileAllowWrite hf).mono (fun _ _ h => h.accounted) fun _ _ he => he)
  | fileWrite f b =>
      obtain ⟨file, hf⟩ := ha.file_some hop
      exact ended_ok hu (ha.fileWrite hf b)
  | dirOpen inode =>
      cases inode with
      | none => exact ended_ok hu (Accounted.dirOpen none ha)
      | some p => exact ended_ok hu (Accounted.dirOpen (some p) (ha.refFirst hop))
  | dirReopen d =>
      obtain ⟨dir, hd⟩ := ha.dir_some hop
      exact ended_ok hu (ha.dirReopen hd)
  | dirClose d =>
      obtain ⟨dir, hd⟩ := ha.dir_some hop
      exact ended_ok hu (ha.dirClose hd)
  | dirLookup d n =>
      obtain ⟨dir, hd⟩ := ha.dir_some hop
      exact ended_ok hu ((ha.dirLookup hd n).mono (fun _ _ h => h.1) fun _ _ he => he)
  | dirAdd d n s =>
      obtain ⟨dir, hd⟩ := ha.dir_some hop
      exact ended_ok hu ((ha.dirAdd hd n s).mono (fun _ _ h => h.1) fun _ _ he => he)
  | dirRemove d n =>
      obtain ⟨dir, hd⟩ := ha.dir_some hop
      exact ended_ok hu ((ha.dirRemove hd n).mono (fun _ _ h => h.1) fun _ _ he => he)
  | filesysCreate n k b => exact ended_ok hu (ha.filesysCreate n k b)
  | filesysOpen n => exact ended_ok hu (ha.filesysOpen n)
  | filesysRemove n => exact ended_ok hu (ha.filesysRemove n)

theorem Sys.Ok.step (h : u.Ok) (op : TableOp) (hop : u.Allowed op) : (u.after L op).Ok := by
  rw [Sys.after]
  rcases h with ⟨hu, ha⟩ | hu
  · rw [hu, if_neg (by simp)]
    exact call_ok hu ha op hop
  · rw [if_pos (by simp [hu])]
    exact .inr hu

/-- The invariant holds in every state. -/
theorem Sys.ok_of_run (heap : ℕ → Bool) (data : δ) (ops : List TableOp)
    (allowed : Along (Sys.after L) Sys.Allowed (.init heap data) ops) :
    Always (Sys.after L) Sys.Ok (.init heap data) ops :=
  Always.of_along (fun _ op h hop => h.step op hop) ops _ (Sys.ok_init heap data) allowed

/-! ## The table of open inodes -/

/-- The handles that the callers hold on an inode: references, files and directories. -/
def Sys.handlesOn (u : Sys δ) (p : ℕ) : ℕ :=
  u.held.refs.count p + u.held.files.countP (fun f => (u.table.files f).any fun x => x.inode == p) +
    u.held.dirs.countP fun d => (u.table.dirs d).any fun x => x.inode == p

/-- **The open inodes and the handles on them.** -/
structure TableOk (u : Sys δ) : Prop where
  /-- At most one inode for a sector. -/
  nodup : u.table.openInodes.Nodup
  one : ∀ p ∈ u.table.openInodes, ∀ q ∈ u.table.openInodes, ∀ a b, u.table.inodes p = some a →
    u.table.inodes q = some b → a.sector = b.sector → p = q
  /-- `open_cnt` is the number of handles. -/
  counted : ∀ p ∈ u.table.openInodes, ∃ ino, u.table.inodes p = some ino ∧
    ino.openCnt = u.handlesOn p ∧ 1 ≤ ino.openCnt
  /-- An inode is in memory, and listed, as long as there is a handle on it. -/
  listed : ∀ p, p ∈ u.table.openInodes ↔ u.table.inodes p ≠ none
  freed : ∀ p, u.table.inodes p = none ↔ u.handlesOn p = 0
  /-- A file or directory is in memory as long as the callers hold it. -/
  files : ∀ f, u.table.files f ≠ none ↔ f ∈ u.held.files
  dirs : ∀ d, u.table.dirs d ≠ none ↔ d ∈ u.held.dirs
  /-- Handles on one sector share the inode. -/
  shared : ∀ p q a b, 0 < u.handlesOn p → 0 < u.handlesOn q → u.table.inodes p = some a →
    u.table.inodes q = some b → a.sector = b.sector → p = q

/-- What the callers hold is what there is. -/
theorem Sys.handlesOn_eq (ha : Accounted u.held u.table) (p : ℕ) :
    u.handlesOn p = handles u.held.refs u.table p := by
  rw [Sys.handlesOn, handles, filesOn, dirsOn,
    tally_eq_countP ha.filesNodup ha.file ha.files, tally_eq_countP ha.dirsNodup ha.dir ha.dirs]

theorem TableOk.of_accounted (ha : Accounted u.held u.table) : TableOk u where
  nodup := ha.inv.nodup
  one p _ q _ a b hp hq hs := ha.inv.unique hp hq hs
  counted p hp := by
    obtain ⟨ino, e⟩ := Option.ne_none_iff_exists'.mp ((ha.inv.listed p).mp hp)
    obtain ⟨hcnt, hpos, -⟩ := ha.inv.inode e
    rw [Sys.handlesOn_eq ha]
    refine ⟨ino, e, hcnt, ?_⟩
    rw [hcnt]
    exact_mod_cast hpos
  listed := ha.inv.listed
  freed p := by
    rw [Sys.handlesOn_eq ha]
    constructor
    · exact fun e => (ha.inv.dead e).1
    · intro hz
      by_contra hne
      obtain ⟨ino, e⟩ := Option.ne_none_iff_exists'.mp hne
      have := (ha.inv.inode e).2.1
      omega
  files := ha.file
  dirs := ha.dir
  shared p q a b _ _ hp hq hs := ha.inv.unique hp hq hs

/-- The kernel has stopped, in the data layer, or the table is in order. -/
def OpenOk (u : Sys δ) : Prop :=
  (u.stopped = none ∨ u.stopped = some .dataLayer) ∧ (u.stopped = none → TableOk u)

/-- **The open inodes are in order after every sequence of calls.** -/
theorem openOk_of_run (L : DataLayer δ) (heap : ℕ → Bool) (data : δ) (ops : List TableOp)
    (allowed : Along (Sys.after L) Sys.Allowed (.init heap data) ops) :
    Always (Sys.after L) OpenOk (.init heap data) ops := by
  refine Always.mono (fun u h => ?_) ops _ (Sys.ok_of_run heap data ops allowed)
  rcases h with ⟨hu, ha⟩ | hu
  · exact ⟨.inl hu, fun _ => .of_accounted ha⟩
  · refine ⟨.inr hu, fun hn => ?_⟩
    rw [hu] at hn
    cases hn

/-- A data layer in which every inode is an array of bytes and no name is found. -/
def arrayData : DataLayer (ℕ → List UInt8) where
  load p _ data := some ((), Function.update data p [7])
  lookup _ _ data := some (none, data)
  slot _ _ _ data := some (([], 0), data)
  write p buffer offset data := some (buffer.length,
    Function.update data p (GrowArray.write 0 (data p) buffer offset.toNat))
  create _ _ _ data := some (true, data)
  allocate data := some (none, data)
  release _ data := some ((), data)
  releaseBlocks _ data := some ((), data)

/-- An inode is opened, made a file, reopened, once while memory is short, and both files are closed:
the last close frees the inode. -/
theorem openOk_of_small_run :
    (Along (Sys.after arrayData) Sys.Allowed (.init (fun n => n ≠ 2) fun _ => [])
        [.inodeOpen 5, .fileOpen (some 1), .fileReopen 2, .fileReopen 2, .fileClose 2, .fileClose 3] ∧
      Always (Sys.after arrayData) OpenOk (.init (fun n => n ≠ 2) fun _ => [])
        [.inodeOpen 5, .fileOpen (some 1), .fileReopen 2, .fileReopen 2, .fileClose 2, .fileClose 3]) ∧
      let closed := [TableOp.inodeOpen 5, .fileOpen (some 1), .fileReopen 2, .fileReopen 2, .fileClose 2,
        .fileClose 3].foldl (Sys.after arrayData) (.init (fun n => n ≠ 2) fun _ => [])
      closed.held = ⟨[], [], []⟩ ∧ closed.table.inodes 1 = none := by
  have allowed : Along (Sys.after arrayData) Sys.Allowed (.init (fun n => n ≠ 2) fun _ => [])
      [.inodeOpen 5, .fileOpen (some 1), .fileReopen 2, .fileReopen 2, .fileClose 2, .fileClose 3] :=
    ⟨trivial, List.mem_singleton_self 1, List.mem_singleton_self 2, List.mem_singleton_self 2,
      List.mem_cons_of_mem 3 (List.mem_singleton_self 2), List.mem_singleton_self 3, trivial⟩
  exact ⟨⟨allowed, openOk_of_run arrayData _ _ _ allowed⟩, rfl, rfl⟩

/-! ## Denied writes -/

/-- **The denials of an inode.** -/
structure DenyOk (L : DataLayer δ) (u : Sys δ) : Prop where
  /-- `deny_write_cnt` is the number of files that deny writes, and at most `open_cnt`. -/
  counted : ∀ p ∈ u.table.openInodes, ∃ ino, u.table.inodes p = some ino ∧
    ino.denyWriteCnt = deniers u.table p ∧ ino.denyWriteCnt ≤ ino.openCnt
  /-- While some file denies them, writes return 0 and change nothing. -/
  refused : ∀ p ∈ u.table.openInodes, 0 < deniers u.table p → ∀ buffer offset,
    inodeWriteAt L p buffer offset u.table = .ok 0 u.table
  /-- While none does, they are carried out. -/
  done : ∀ p ∈ u.table.openInodes, deniers u.table p = 0 → ∀ buffer offset,
    inodeWriteAt L p buffer offset u.table = onData (L.write p buffer offset) u.table

theorem DenyOk.of_accounted (ha : Accounted u.held u.table) : DenyOk L u := by
  have hino : ∀ p ∈ u.table.openInodes, ∃ ino, u.table.inodes p = some ino ∧
      ino.openCnt = handles u.held.refs u.table p ∧ ino.denyWriteCnt = deniers u.table p := by
    intro p hp
    obtain ⟨ino, e⟩ := Option.ne_none_iff_exists'.mp ((ha.inv.listed p).mp hp)
    obtain ⟨hcnt, -, hdn⟩ := ha.inv.inode e
    exact ⟨ino, e, hcnt, hdn⟩
  refine ⟨fun p hp => ?_, fun p hp hpos buffer offset => ?_, fun p hp hz buffer offset => ?_⟩
  · obtain ⟨ino, e, hcnt, hdn⟩ := hino p hp
    refine ⟨ino, e, hdn, ?_⟩
    rw [hdn, hcnt]
    exact_mod_cast deniers_le_handles u.held.refs u.table p
  · obtain ⟨ino, e, -, hdn⟩ := hino p hp
    have hne : ino.denyWriteCnt ≠ 0 := by
      rw [hdn]
      exact_mod_cast hpos.ne'
    rw [inodeWriteAt, bind_of_ok (getInode_ok e), if_pos hne]
    rfl
  · obtain ⟨ino, e, -, hdn⟩ := hino p hp
    have hzero : ino.denyWriteCnt = 0 := by
      rw [hdn, hz]
      rfl
    rw [inodeWriteAt, bind_of_ok (getInode_ok e), if_neg (not_not.mpr hzero)]

/-- **The denials are counted right after every sequence of calls**, and the assertions of
`inode_deny_write` and `inode_allow_write` hold. -/
theorem denyOk_of_run (L : DataLayer δ) (heap : ℕ → Bool) (data : δ) (ops : List TableOp)
    (allowed : Along (Sys.after L) Sys.Allowed (.init heap data) ops) :
    Always (Sys.after L) (fun u => u.stopped ≠ some .assertFailed ∧ (u.stopped = none → DenyOk L u))
      (.init heap data) ops := by
  refine Always.mono (fun u h => ?_) ops _ (Sys.ok_of_run heap data ops allowed)
  rcases h with ⟨hu, ha⟩ | hu
  · refine ⟨?_, fun _ => .of_accounted ha⟩
    rw [hu]
    exact (Option.some_ne_none _).symm
  · rw [hu]
    refine ⟨by simp, fun hn => ?_⟩
    cases hn

/-- Two files on one inode, one of which denies writes and is closed. -/
theorem denyOk_of_small_run :
    Along (Sys.after arrayData) Sys.Allowed (.init (fun _ => true) fun _ => [])
        [.inodeOpen 5, .fileOpen (some 1), .fileReopen 2, .fileDenyWrite 3, .fileWrite 2 [1, 2],
          .fileClose 3, .fileWrite 2 [1, 2]] ∧
      Always (Sys.after arrayData)
        (fun u => u.stopped ≠ some .assertFailed ∧ (u.stopped = none → DenyOk arrayData u))
        (.init (fun _ => true) fun _ => [])
        [.inodeOpen 5, .fileOpen (some 1), .fileReopen 2, .fileDenyWrite 3, .fileWrite 2 [1, 2],
          .fileClose 3, .fileWrite 2 [1, 2]] := by
  have allowed : Along (Sys.after arrayData) Sys.Allowed (.init (fun _ => true) fun _ => [])
      [.inodeOpen 5, .fileOpen (some 1), .fileReopen 2, .fileDenyWrite 3, .fileWrite 2 [1, 2],
        .fileClose 3, .fileWrite 2 [1, 2]] :=
    ⟨trivial, List.mem_singleton_self 1, List.mem_singleton_self 2, List.mem_cons_self,
      List.mem_cons_of_mem 3 (List.mem_singleton_self 2), List.mem_cons_self, List.mem_singleton_self 2,
      trivial⟩
  exact ⟨allowed, denyOk_of_run arrayData _ _ _ allowed⟩

/-- A write of no bytes returns 0 and changes nothing although nobody denies it. -/
theorem empty_write_returns_zero : ¬ ∀ (δ : Type) (L : DataLayer δ) (heap : ℕ → Bool) (data : δ)
    (ops : List TableOp), Along (Sys.after L) Sys.Allowed (.init heap data) ops →
      Always (Sys.after L) (fun u => u.stopped = none → ∀ p ∈ u.table.openInodes, ∀ buffer offset,
        inodeWriteAt L p buffer offset u.table = .ok 0 u.table ↔ 0 < deniers u.table p)
        (.init heap data) ops := by
  intro h
  have hrun := h _ arrayData (fun _ => true) (fun _ => []) [.inodeOpen 5] ⟨trivial, trivial⟩
  have hiff := hrun.2 rfl 1 (List.mem_singleton_self 1) [] 0
  have hwrite : inodeWriteAt arrayData 1 [] 0
      (Sys.after arrayData (.init (fun _ => true) fun _ => []) (.inodeOpen 5)).table =
      .ok 0 (Sys.after arrayData (.init (fun _ => true) fun _ => []) (.inodeOpen 5)).table := by
    have hsame : Function.update (Function.update (fun _ : ℕ => ([] : List UInt8)) 1 [7]) 1
        (GrowArray.write 0 [7] [] 0) = Function.update (fun _ => []) 1 [7] := by
      rw [Function.update_idem]
      rfl
    rw [inodeWriteAt, bind_of_ok (getInode_ok rfl)]
    exact congrArg (fun data => EStateM.Result.ok (0 : ℤ)
      { (Sys.after arrayData (.init (fun _ => true) fun _ => []) (.inodeOpen 5)).table with data })
      hsame
  exact absurd (hiff.mp hwrite) (by decide)

end Pintos.OpenTable
