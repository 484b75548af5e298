import Pintos.FileSys.OpenTable

/-!
# The counters of the open inodes

`Inv h dn t` says that `open_inodes` is in order, with `h p` handles on the inode `p` and
`dn p` files that deny writes to it.  The functions on inodes change `h` and `dn` at one
place (`inodeOpen_inv`, `inodeClose_inv`, …); the functions on files and directories turn
one kind of handle into another, so that `h` is always the number of references, files and
directories (`Accounted`).

* **`openOk_of_run`** — the table is in order in every state.
* **`denyOk_of_run`** — the counters of denied writes are right, and no assertion on them
  fails.
-/

namespace Pintos.OpenTable

open Lib

variable {δ α : Type} {L : DataLayer δ} {t t' : Table δ} {h dn : ℕ → ℕ} {p f d : ℕ}

/-! ## Inodes -/

/-- One more. -/
def bump (h : ℕ → ℕ) (p : ℕ) : ℕ → ℕ := Function.update h p (h p + 1)

/-- One less. -/
def drop (h : ℕ → ℕ) (p : ℕ) : ℕ → ℕ := Function.update h p (h p - 1)

theorem drop_bump (h : ℕ → ℕ) (p : ℕ) : drop (bump h p) p = h := by
  simp [drop, bump]

/-- **The open inodes**, with `h` handles and `dn` denials. -/
structure Inv (h dn : ℕ → ℕ) (t : Table δ) : Prop where
  nodup : t.openInodes.Nodup
  listed : ∀ p, p ∈ t.openInodes ↔ t.inodes p ≠ none
  unique : ∀ {p q a b}, t.inodes p = some a → t.inodes q = some b → a.sector = b.sector → p = q
  inode : ∀ {p ino}, t.inodes p = some ino →
    ino.openCnt = h p ∧ 0 < h p ∧ ino.denyWriteCnt = dn p
  dead : ∀ {p}, t.inodes p = none → h p = 0 ∧ dn p = 0
  fresh : ∀ {p}, t.nextAddr ≤ p → t.inodes p = none

/-- Only the inodes, the counters of the allocator and the data may have changed. -/
structure SameHandles (t t' : Table δ) : Prop where
  files : t'.files = t.files
  dirs : t'.dirs = t.dirs
  next : t.nextAddr ≤ t'.nextAddr

theorem SameHandles.refl (t : Table δ) : SameHandles t t := ⟨rfl, rfl, le_rfl⟩

theorem SameHandles.trans {t'' : Table δ} (h : SameHandles t t') (h' : SameHandles t' t'') :
    SameHandles t t'' :=
  ⟨h'.files.trans h.files, h'.dirs.trans h.dirs, h.next.trans h'.next⟩

/-- The stop of the data layer, the only one there may be. -/
def Stops (e : TableStop) (_ : Table δ) : Prop := e = .dataLayer

theorem Inv.alive (hi : Inv h dn t) (hp : 0 < h p) : ∃ ino, t.inodes p = some ino := by
  cases e : t.inodes p with
  | some ino => exact ⟨ino, rfl⟩
  | none =>
      have := (hi.dead e).1
      omega

theorem getInode_ok {ino : OpenInode} (e : t.inodes p = some ino) :
    getInode p t = .ok ino t := by
  simp [getInode, e]

theorem getFile_ok {file : OpenFile} (e : t.files f = some file) :
    getFile f t = .ok file t := by
  simp [getFile, e]

theorem getDir_ok {dir : OpenDir} (e : t.dirs d = some dir) : getDir d t = .ok dir t := by
  simp [getDir, e]

/-- A call of the data layer leaves the table alone. -/
theorem ends_onData (c : DataCode δ α) (t : Table δ) :
    Ends (onData c t) (fun _ t' => ∃ data, t' = { t with data }) Stops := by
  unfold onData
  cases c t.data with
  | none => rfl
  | some r => exact ⟨r.2, rfl⟩

theorem Inv.withData (hi : Inv h dn t) (data : δ) : Inv h dn { t with data } :=
  ⟨hi.nodup, hi.listed, hi.unique, hi.inode, hi.dead, hi.fresh⟩

/-- An allocation: a fresh address, or nothing. -/
theorem ends_malloc (hi : Inv h dn t) : Ends (malloc t)
    (fun r t' => Inv h dn t' ∧ t'.inodes = t.inodes ∧ t'.openInodes = t.openInodes ∧
      t'.files = t.files ∧ t'.dirs = t.dirs ∧ t.nextAddr ≤ t'.nextAddr ∧
      ∀ a ∈ r, a = t.nextAddr ∧ t'.nextAddr = t.nextAddr + 1) Stops := by
  unfold malloc
  simp only [fetch_bind, change_bind]
  split
  · refine ⟨⟨hi.nodup, hi.listed, hi.unique, hi.inode, hi.dead, fun {p} hp => hi.fresh ?_⟩, rfl, rfl,
      rfl, rfl, Nat.le_succ _, ?_⟩
    · exact le_trans (Nat.le_succ _) hp
    · rintro a ha
      cases ha
      exact ⟨rfl, rfl⟩
  · exact ⟨⟨hi.nodup, hi.listed, hi.unique, hi.inode, hi.dead, hi.fresh⟩, rfl, rfl, rfl, rfl, le_rfl,
      fun a ha => by cases ha⟩

/-- The counters of one inode change. -/
theorem Inv.setInode (hi : Inv h dn t) {ino : OpenInode} (e : t.inodes p = some ino)
    (ino' : OpenInode) (hs : ino'.sector = ino.sector) {h' dn' : ℕ → ℕ} (hpos : 0 < h' p)
    (hcnt : ino'.openCnt = h' p) (hdn : ino'.denyWriteCnt = dn' p)
    (hh : ∀ q, q ≠ p → h' q = h q) (hd : ∀ q, q ≠ p → dn' q = dn q) :
    Inv h' dn' { t with inodes := Function.update t.inodes p (some ino') } := by
  have hget : ∀ {q a}, Function.update t.inodes p (some ino') q = some a →
      ∃ b, t.inodes q = some b ∧ a.sector = b.sector := by
    intro q a hq
    rcases eq_or_ne q p with rfl | hne
    · rw [Function.update_self, Option.some.injEq] at hq
      exact ⟨ino, e, hq ▸ hs⟩
    · rw [Function.update_of_ne hne] at hq
      exact ⟨a, hq, rfl⟩
  refine ⟨hi.nodup, fun q => ?_, fun {q r a b} hq hr hsec => ?_, fun {q a} hq => ?_, fun {q} hq => ?_,
    fun {q} hq => ?_⟩
  · rw [hi.listed q]
    rcases eq_or_ne q p with rfl | hne
    · simp [e]
    · simp [hne]
  · obtain ⟨a', ha', hsa⟩ := hget hq
    obtain ⟨b', hb', hsb⟩ := hget hr
    exact hi.unique ha' hb' (hsa.symm.trans (hsec.trans hsb))
  · replace hq : Function.update t.inodes p (some ino') q = some a := hq
    rcases eq_or_ne q p with rfl | hne
    · rw [Function.update_self, Option.some.injEq] at hq
      subst hq
      exact ⟨hcnt, hpos, hdn⟩
    · rw [Function.update_of_ne hne] at hq
      rw [hh q hne, hd q hne]
      exact hi.inode hq
  · replace hq : Function.update t.inodes p (some ino') q = none := hq
    rcases eq_or_ne q p with rfl | hne
    · rw [Function.update_self] at hq
      cases hq
    · rw [Function.update_of_ne hne] at hq
      rw [hh q hne, hd q hne]
      exact hi.dead hq
  · have hne : q ≠ p := by
      rintro rfl
      rw [hi.fresh hq] at e
      cases e
    exact (Function.update_of_ne hne ..).trans (hi.fresh hq)

/-- `inode_reopen`. -/
theorem inodeReopen_inv (hi : Inv h dn t) (hp : 0 < h p) : Ends (inodeReopen p t)
    (fun _ t' => Inv (bump h p) dn t' ∧ SameHandles t t') Stops := by
  obtain ⟨ino, e⟩ := hi.alive hp
  obtain ⟨hcnt, -, hdn⟩ := hi.inode e
  rw [inodeReopen, bind_of_ok (getInode_ok e)]
  refine ⟨hi.setInode e { ino with openCnt := ino.openCnt + 1 } rfl ?_ ?_ hdn
    (fun q hq => Function.update_of_ne hq ..) fun _ _ => rfl, rfl, rfl, le_rfl⟩
  · simp [bump]
  · simp [bump, hcnt]

/-- The search finds an inode of the sector, if one is open. -/
theorem findOpen_some {sector : ℕ} (e : findOpen t sector = some p) :
    ∃ ino, t.inodes p = some ino ∧ ino.sector = sector := by
  have := List.find?_some e
  obtain ⟨ino, hino, hs⟩ := (Option.any_eq_true _ _).mp this
  exact ⟨ino, hino, by simpa using hs⟩

theorem findOpen_none (hi : Inv h dn t) {sector : ℕ} (e : findOpen t sector = none) {ino : OpenInode}
    (hp : t.inodes p = some ino) : ino.sector ≠ sector := by
  intro hs
  have hmem : p ∈ t.openInodes := (hi.listed p).mpr (by rw [hp]; exact Option.some_ne_none ino)
  have := List.find?_eq_none.mp e p hmem
  simp [hp, hs] at this

/-- A new inode. -/
theorem Inv.pushInode (hi : Inv h dn t) {sector : ℕ} (hnew : findOpen t sector = none)
    (hp : t.inodes p = none) (hlt : p < t.nextAddr) : Inv (bump h p) dn { t with
      openInodes := p :: t.openInodes
      inodes := Function.update t.inodes p (some ⟨sector, 1, false, 0⟩) } := by
  obtain ⟨hh, hd⟩ := hi.dead hp
  have hget : ∀ {q a}, Function.update t.inodes p (some ⟨sector, 1, false, 0⟩) q = some a →
      (q = p ∧ a = ⟨sector, 1, false, 0⟩) ∨ (q ≠ p ∧ t.inodes q = some a) := by
    intro q a hq
    rcases eq_or_ne q p with rfl | hne
    · rw [Function.update_self, Option.some.injEq] at hq
      exact .inl ⟨rfl, hq.symm⟩
    · rw [Function.update_of_ne hne] at hq
      exact .inr ⟨hne, hq⟩
  refine ⟨?_, fun q => ?_, fun {q r a b} hq hr hsec => ?_, fun {q a} hq => ?_, fun {q} hq => ?_,
    fun {q} hq => ?_⟩
  · exact List.nodup_cons.mpr ⟨fun hm => (hi.listed p).mp hm hp, hi.nodup⟩
  · rw [List.mem_cons, hi.listed q]
    rcases eq_or_ne q p with rfl | hne
    · simp
    · simp [hne]
  · rcases hget hq with ⟨hqp, ha⟩ | ⟨-, hq'⟩ <;> rcases hget hr with ⟨hrp, hb⟩ | ⟨-, hr'⟩
    · exact hqp.trans hrp.symm
    · rw [ha] at hsec
      exact absurd hsec.symm (findOpen_none hi hnew hr')
    · rw [hb] at hsec
      exact absurd hsec (findOpen_none hi hnew hq')
    · exact hi.unique hq' hr' hsec
  · rcases hget hq with ⟨rfl, rfl⟩ | ⟨hne, hq⟩
    · simp [bump, hh, hd]
    · have : bump h p q = h q := Function.update_of_ne hne ..
      rw [this]
      exact hi.inode hq
  · have hne : q ≠ p := by
      rintro rfl
      replace hq : Function.update t.inodes q (some ⟨sector, 1, false, 0⟩) q = none := hq
      rw [Function.update_self] at hq
      cases hq
    have : bump h p q = h q := Function.update_of_ne hne ..
    rw [this]
    exact hi.dead ((Function.update_of_ne hne ..).symm.trans hq)
  · have hne : q ≠ p := by
      rintro rfl
      exact absurd hlt (not_lt.mpr hq)
    exact (Function.update_of_ne hne ..).trans (hi.fresh hq)

/-- The handles after a call that may have opened an inode. -/
def opened (h : ℕ → ℕ) : Option ℕ → ℕ → ℕ
  | none => h
  | some p => bump h p

/-- **`inode_open`** adds a handle to the inode of the sector, or fails. -/
theorem inodeOpen_inv (hi : Inv h dn t) (sector : ℕ) : Ends (inodeOpen L sector t)
    (fun r t' => Inv (opened h r) dn t' ∧ SameHandles t t') Stops := by
  unfold inodeOpen
  refine Ends.fetch ?_
  cases hfind : findOpen t sector with
  | some p =>
      obtain ⟨ino, hino, -⟩ := findOpen_some hfind
      exact Ends.bind (inodeReopen_inv hi (hi.inode hino).2.1) fun _ t' ht => ht
  | none =>
      unfold newInode
      refine Ends.bind (ends_malloc hi) fun r t1 ht => ?_
      obtain ⟨hi1, hino, hopen, hfiles, hdirs, hnext, hr⟩ := ht
      cases r with
      | none => exact ⟨hi1, hfiles, hdirs, hnext⟩
      | some p =>
          obtain ⟨rfl, hlt⟩ := hr p rfl
          have hnone : t1.inodes t.nextAddr = none := by
            rw [hino]
            exact hi.fresh le_rfl
          have hfind1 : findOpen t1 sector = none := by
            rw [findOpen, hino, hopen]
            exact hfind
          have hi2 := hi1.pushInode hfind1 hnone (by omega)
          refine Ends.change (Ends.bind (ends_onData _ _) fun _ t2 ht2 => ?_)
          obtain ⟨data, rfl⟩ := ht2
          exact ⟨hi2.withData data, hfiles, hdirs, hnext⟩

/-- The last opener is gone. -/
theorem Inv.dropInode (hi : Inv h dn t) (hp : h p = 1) (hd : dn p = 0) :
    Inv (drop h p) dn { t with
      openInodes := t.openInodes.erase p
      inodes := Function.update t.inodes p none } := by
  have hget : ∀ {q a}, Function.update t.inodes p none q = some a → q ≠ p ∧ t.inodes q = some a := by
    intro q a hq
    rcases eq_or_ne q p with rfl | hne
    · rw [Function.update_self] at hq
      cases hq
    · rw [Function.update_of_ne hne] at hq
      exact ⟨hne, hq⟩
  have hh : ∀ {q}, q ≠ p → drop h p q = h q := fun hne => Function.update_of_ne hne ..
  refine ⟨hi.nodup.erase p, fun q => ?_, fun {q r a b} hq hr hsec => ?_, fun {q a} hq => ?_,
    fun {q} hq => ?_, fun {q} hq => ?_⟩
  · rw [hi.nodup.mem_erase_iff, hi.listed q]
    rcases eq_or_ne q p with rfl | hne
    · simp
    · simp [hne]
  · exact hi.unique (hget hq).2 (hget hr).2 hsec
  · rw [hh (hget hq).1]
    exact hi.inode (hget hq).2
  · rcases eq_or_ne q p with rfl | hne
    · simp [drop, hp, hd]
    · rw [hh hne]
      exact hi.dead ((Function.update_of_ne hne ..).symm.trans hq)
  · show Function.update t.inodes p none q = none
    rcases eq_or_ne q p with rfl | hne
    · rw [Function.update_self]
    · rw [Function.update_of_ne hne]
      exact hi.fresh hq

theorem ends_releaseRemoved (p : ℕ) (ino : OpenInode) (t : Table δ) :
    Ends (releaseRemoved L p ino t) (fun _ t' => ∃ data, t' = { t with data }) Stops := by
  unfold releaseRemoved
  split
  · refine Ends.bind (ends_onData _ _) fun _ t1 ht1 => ?_
    obtain ⟨data, rfl⟩ := ht1
    refine (ends_onData _ _).mono (fun _ t2 ht2 => ?_) fun _ _ he => he
    obtain ⟨data', rfl⟩ := ht2
    exact ⟨data', rfl⟩
  · exact ⟨t.data, rfl⟩

/-- **`inode_close`** takes a handle away, and frees the inode with the last. -/
theorem inodeClose_inv (hi : Inv h dn t) (hp : 0 < h p) (hd : dn p ≤ h p - 1) :
    Ends (inodeClose L (some p) t)
      (fun _ t' => Inv (drop h p) dn t' ∧ SameHandles t t') Stops := by
  obtain ⟨ino, e⟩ := hi.alive hp
  obtain ⟨hcnt, -, hdn⟩ := hi.inode e
  rw [inodeClose, bind_of_ok (getInode_ok e)]
  refine Ends.change ?_
  split
  · next hlast =>
      have hone : h p = 1 := by omega
      have hdrop := hi.dropInode hone (by omega)
      unfold freeInode
      refine Ends.change (Ends.bind (ends_releaseRemoved p ino _) fun _ t1 ht1 => ?_)
      obtain ⟨data, rfl⟩ := ht1
      refine ⟨?_, rfl, rfl, le_rfl⟩
      simp only [Function.update_idem]
      exact hdrop.withData data
  · next hmore =>
      have hge : 1 ≤ h p - 1 := by omega
      refine ⟨hi.setInode e { ino with openCnt := ino.openCnt - 1 } rfl ?_ ?_ hdn
        (fun q hq => Function.update_of_ne hq ..) fun _ _ => rfl, rfl, rfl, le_rfl⟩
      · simp only [drop, Function.update_self]
        exact hge
      · simp only [drop, Function.update_self, hcnt]
        omega

/-- `inode_remove`. -/
theorem inodeRemove_inv (hi : Inv h dn t) (hp : 0 < h p) : Ends (inodeRemove p t)
    (fun _ t' => Inv h dn t' ∧ SameHandles t t') Stops := by
  obtain ⟨ino, e⟩ := hi.alive hp
  obtain ⟨hcnt, -, hdn⟩ := hi.inode e
  rw [inodeRemove, bind_of_ok (getInode_ok e)]
  exact ⟨hi.setInode e { ino with removed := true } rfl hp hcnt hdn (fun _ _ => rfl) fun _ _ => rfl,
    rfl, rfl, le_rfl⟩

/-- `inode_deny_write`. -/
theorem inodeDenyWrite_inv (hi : Inv h dn t) (hd : dn p < h p) : Ends (inodeDenyWrite p t)
    (fun _ t' => Inv h (bump dn p) t' ∧ SameHandles t t') Stops := by
  obtain ⟨ino, e⟩ := hi.alive (lt_of_le_of_lt (Nat.zero_le _) hd)
  obtain ⟨hcnt, hpos, hdn⟩ := hi.inode e
  have hassert : decide (ino.denyWriteCnt + 1 ≤ ino.openCnt) = true := by
    rw [decide_eq_true_eq, hcnt, hdn]
    exact_mod_cast hd
  rw [inodeDenyWrite, bind_of_ok (getInode_ok e), setInode, change_bind, hassert]
  refine ⟨hi.setInode e { ino with denyWriteCnt := ino.denyWriteCnt + 1 } rfl hpos hcnt ?_
    (fun _ _ => rfl) fun q hq => Function.update_of_ne hq .., rfl, rfl, le_rfl⟩
  simp [bump, hdn]

/-- `inode_allow_write`. -/
theorem inodeAllowWrite_inv (hi : Inv h dn t) (hd : 0 < dn p) (hle : dn p ≤ h p) :
    Ends (inodeAllowWrite p t)
      (fun _ t' => Inv h (drop dn p) t' ∧ SameHandles t t') Stops := by
  obtain ⟨ino, e⟩ := hi.alive (lt_of_lt_of_le hd hle)
  obtain ⟨hcnt, hpos, hdn⟩ := hi.inode e
  have hassert : decide (0 < ino.denyWriteCnt) = true := by
    rw [decide_eq_true_eq, hdn]
    exact_mod_cast hd
  have hassert' : decide (ino.denyWriteCnt ≤ ino.openCnt) = true := by
    rw [decide_eq_true_eq, hcnt, hdn]
    exact_mod_cast hle
  rw [inodeAllowWrite, bind_of_ok (getInode_ok e), hassert, hassert']
  refine ⟨hi.setInode e { ino with denyWriteCnt := ino.denyWriteCnt - 1 } rfl hpos hcnt ?_
    (fun _ _ => rfl) fun q hq => Function.update_of_ne hq .., rfl, rfl, le_rfl⟩
  simp only [drop, Function.update_self, hdn]
  omega

/-- `inode_write_at`. -/
theorem inodeWriteAt_inv (hi : Inv h dn t) (hp : 0 < h p) (buffer : List UInt8) (offset : ℤ) :
    Ends (inodeWriteAt L p buffer offset t)
      (fun _ t' => Inv h dn t' ∧ SameHandles t t') Stops := by
  obtain ⟨ino, e⟩ := hi.alive hp
  rw [inodeWriteAt, bind_of_ok (getInode_ok e)]
  split
  · exact ⟨hi, .refl t⟩
  · refine (ends_onData _ _).mono (fun _ t' ht => ?_) fun _ _ he => he
    obtain ⟨data, rfl⟩ := ht
    exact ⟨hi.withData data, rfl, rfl, le_rfl⟩

/-! ## Handles -/

/-- The files on an inode. -/
def filesOn (t : Table δ) (p : ℕ) : ℕ := tally t.files (fun f => f.inode == p) t.nextAddr

/-- The directories on an inode. -/
def dirsOn (t : Table δ) (p : ℕ) : ℕ := tally t.dirs (fun d => d.inode == p) t.nextAddr

/-- **The handles on an inode**: references held by callers, files and directories. -/
def handles (refs : List ℕ) (t : Table δ) (p : ℕ) : ℕ := refs.count p + filesOn t p + dirsOn t p

/-- The files on an inode that deny writes. -/
def deniers (t : Table δ) (p : ℕ) : ℕ :=
  tally t.files (fun f => f.inode == p && f.denyWrite) t.nextAddr

/-- There is no file and no directory at an address that is still to be allocated. -/
structure Fresh (t : Table δ) : Prop where
  files : ∀ a, t.nextAddr ≤ a → t.files a = none
  dirs : ∀ a, t.nextAddr ≤ a → t.dirs a = none

/-- The files and directories there are: those that the callers hold. -/
structure Cells (held : Held) (t : Table δ) : Prop where
  filesNodup : held.files.Nodup
  dirsNodup : held.dirs.Nodup
  file : ∀ f, t.files f ≠ none ↔ f ∈ held.files
  dir : ∀ d, t.dirs d ≠ none ↔ d ∈ held.dirs

/-- **The counters of the inodes are the numbers of handles and of denials**, and the files and
directories are those that the callers hold. -/
structure Accounted (held : Held) (t : Table δ) : Prop extends Fresh t, Cells held t where
  inv : Inv (handles held.refs t) (deniers t) t

variable {held : Held}

theorem handles_cons (p : ℕ) (refs : List ℕ) (t : Table δ) :
    handles (p :: refs) t = bump (handles refs t) p := by
  funext q
  rcases eq_or_ne q p with rfl | hne
  · simp only [handles, bump, Function.update_self, List.count_cons_self]
    omega
  · simp only [handles, bump, Function.update_of_ne hne, List.count_cons_of_ne hne.symm]

theorem handles_addRef (r : Option ℕ) (held : Held) (t : Table δ) :
    handles (held.addRef r).refs t = opened (handles held.refs t) r := by
  cases r with
  | none => rfl
  | some p => exact handles_cons p held.refs t

/-- The deniers are among the files. -/
theorem deniers_le (t : Table δ) (p : ℕ) : deniers t p ≤ filesOn t p :=
  tally_mono fun _ hf => (Bool.and_eq_true _ _ ▸ hf).1

theorem deniers_le_handles (refs : List ℕ) (t : Table δ) (p : ℕ) : deniers t p ≤ handles refs t p := by
  have := deniers_le t p
  unfold handles
  omega

/-- The functions on inodes leave the files and directories as they are. -/
theorem Fresh.same (hf : Fresh t) (hs : SameHandles t t') :
    (∀ refs, handles refs t' = handles refs t) ∧ deniers t' = deniers t := by
  constructor
  · intro refs
    funext q
    rw [handles, handles, filesOn, filesOn, dirsOn, dirsOn, hs.files, hs.dirs,
      tally_of_empty hf.files hs.next, tally_of_empty hf.dirs hs.next]
  · funext q
    rw [deniers, deniers, hs.files, tally_of_empty hf.files hs.next]

theorem Fresh.of_same (hf : Fresh t) (hs : SameHandles t t') : Fresh t' := by
  refine ⟨fun a hle => ?_, fun a hle => ?_⟩
  · rw [hs.files]
    exact hf.files a (hs.next.trans hle)
  · rw [hs.dirs]
    exact hf.dirs a (hs.next.trans hle)

theorem Cells.of_same (hc : Cells held t) (hs : SameHandles t t') : Cells held t' :=
  ⟨hc.filesNodup, hc.dirsNodup, fun f => hs.files ▸ hc.file f, fun d => hs.dirs ▸ hc.dir d⟩

/-- What the functions on inodes do, in terms of handles. -/
theorem Fresh.accounted (hf : Fresh t) (hc : Cells held t) (hs : SameHandles t t')
    (hi : Inv (handles held.refs t) (deniers t) t') : Accounted held t' := by
  obtain ⟨hh, hd⟩ := hf.same hs
  refine ⟨hf.of_same hs, hc.of_same hs, ?_⟩
  rw [hh, hd]
  exact hi

namespace Accounted

theorem file_lt (ha : Accounted held t) {file : OpenFile} (hf : t.files f = some file) :
    f < t.nextAddr := by
  by_contra hge
  rw [ha.files f (not_lt.mp hge)] at hf
  cases hf

theorem dir_lt (ha : Accounted held t) {dir : OpenDir} (hd : t.dirs d = some dir) :
    d < t.nextAddr := by
  by_contra hge
  rw [ha.dirs d (not_lt.mp hge)] at hd
  cases hd

/-- A file keeps its inode open. -/
theorem file_pos (ha : Accounted held t) {file : OpenFile} (hf : t.files f = some file) :
    0 < handles held.refs t file.inode := by
  have : 0 < filesOn t file.inode := tally_pos.mpr ⟨f, ha.file_lt hf, file, hf, by simp⟩
  unfold handles
  omega

theorem dir_pos (ha : Accounted held t) {dir : OpenDir} (hd : t.dirs d = some dir) :
    0 < handles held.refs t dir.inode := by
  have : 0 < dirsOn t dir.inode := tally_pos.mpr ⟨d, ha.dir_lt hd, dir, hd, by simp⟩
  unfold handles
  omega

theorem ref_pos {refs : List ℕ} (hp : p ∈ refs) : 0 < handles refs t p := by
  have := List.count_pos_iff.mpr hp
  unfold handles
  omega

/-- The callers get references, or give some back. -/
theorem withRefs (ha : Accounted held t) (refs : List ℕ) (hs : SameHandles t t')
    (hi : Inv (handles refs t) (deniers t) t') : Accounted { held with refs } t' :=
  Fresh.accounted ha.toFresh ⟨ha.filesNodup, ha.dirsNodup, ha.file, ha.dir⟩ hs hi

/-- `inode_reopen`. -/
theorem inodeReopen (ha : Accounted held t) (hp : 0 < handles held.refs t p) :
    Ends (OpenTable.inodeReopen p t)
      (fun _ t' => Accounted (held.addRef (some p)) t' ∧ SameHandles t t') Stops := by
  refine (inodeReopen_inv ha.inv hp).mono (fun _ t' ht => ⟨ha.withRefs _ ht.2 ?_, ht.2⟩) fun _ _ he => he
  have e := handles_cons p held.refs t
  exact e ▸ ht.1

/-- `inode_open`. -/
theorem inodeOpen (ha : Accounted held t) (sector : ℕ) : Ends (OpenTable.inodeOpen L sector t)
    (fun r t' => Accounted (held.addRef r) t' ∧ SameHandles t t') Stops := by
  refine (inodeOpen_inv ha.inv sector).mono (fun r t' ht => ⟨ha.withRefs _ ht.2 ?_, ht.2⟩) fun _ _ he => he
  have e := handles_addRef r held t
  exact e ▸ ht.1

/-- **`inode_close`** of a reference. -/
theorem inodeClose (ha : Accounted (held.addRef (some p)) t) :
    Ends (OpenTable.inodeClose L (some p) t) (fun _ t' => Accounted held t' ∧ SameHandles t t')
      Stops := by
  have hpos : 0 < handles (p :: held.refs) t p := ref_pos List.mem_cons_self
  have hle : deniers t p ≤ handles (p :: held.refs) t p - 1 := by
    have := deniers_le_handles held.refs t p
    rw [handles_cons]
    simp only [bump, Function.update_self]
    omega
  refine (inodeClose_inv ha.inv hpos hle).mono
    (fun _ t' ht => ⟨ha.withRefs held.refs ht.2 ?_, ht.2⟩) fun _ _ he => he
  have hi := ht.1
  rwa [handles_addRef, opened, drop_bump] at hi

/-- `inode_remove`. -/
theorem inodeRemove (ha : Accounted held t) (hp : 0 < handles held.refs t p) :
    Ends (OpenTable.inodeRemove p t) (fun _ t' => Accounted held t' ∧ SameHandles t t') Stops :=
  (inodeRemove_inv ha.inv hp).mono (fun _ _ ht => ⟨ha.withRefs held.refs ht.2 ht.1, ht.2⟩) fun _ _ he => he

/-- `inode_write_at`. -/
theorem inodeWriteAt (ha : Accounted held t) (hp : 0 < handles held.refs t p) (buffer : List UInt8)
    (offset : ℤ) : Ends (OpenTable.inodeWriteAt L p buffer offset t)
      (fun _ t' => Accounted held t' ∧ SameHandles t t') Stops :=
  (inodeWriteAt_inv ha.inv hp buffer offset).mono (fun _ _ ht => ⟨ha.withRefs held.refs ht.2 ht.1, ht.2⟩)
    fun _ _ he => he

/-- The data layer. -/
theorem onData (ha : Accounted held t) (c : DataCode δ α) : Ends (OpenTable.onData c t)
    (fun _ t' => Accounted held t' ∧ SameHandles t t') Stops := by
  refine (ends_onData c t).mono (fun _ t' ht => ?_) fun _ _ he => he
  obtain ⟨data, rfl⟩ := ht
  have hs : SameHandles t { t with data } := ⟨rfl, rfl, le_rfl⟩
  exact ⟨ha.withRefs held.refs hs (ha.inv.withData data), hs⟩

end Accounted

/-- A reference may be listed first. -/
theorem Accounted.refFirst (ha : Accounted held t) (hp : p ∈ held.refs) :
    Accounted ((held.dropRef p).addRef (some p)) t := by
  have e : handles (p :: held.refs.erase p) t = handles held.refs t := by
    funext q
    rw [handles, handles, (List.perm_cons_erase hp).count_eq]
  exact ha.withRefs _ (.refl t) (e ▸ ha.inv)

/-! ## Files -/

/-- The table with a file stored, or freed. -/
def Table.putFile (t : Table δ) (f : ℕ) (file : Option OpenFile) : Table δ :=
  { t with files := Function.update t.files f file }

/-- The table with a directory stored, or freed. -/
def Table.putDir (t : Table δ) (d : ℕ) (dir : Option OpenDir) : Table δ :=
  { t with dirs := Function.update t.dirs d dir }

theorem Inv.putFile (hi : Inv h dn t) (f : ℕ) (file : Option OpenFile) : Inv h dn (t.putFile f file) :=
  ⟨hi.nodup, hi.listed, hi.unique, hi.inode, hi.dead, hi.fresh⟩

theorem Inv.putDir (hi : Inv h dn t) (d : ℕ) (dir : Option OpenDir) : Inv h dn (t.putDir d dir) :=
  ⟨hi.nodup, hi.listed, hi.unique, hi.inode, hi.dead, hi.fresh⟩

/-- The handles after a file is stored. -/
theorem handles_putFile (refs : List ℕ) (hf : f < t.nextAddr) (file : Option OpenFile) (q : ℕ) :
    handles refs (t.putFile f file) q + ((t.files f).any fun x => x.inode == q).toNat =
      handles refs t q + (file.any fun x => x.inode == q).toNat := by
  have := tally_update (g := t.files) (P := fun x => x.inode == q) file hf
  have hfiles : filesOn (t.putFile f file) q =
      tally (Function.update t.files f file) (fun x => x.inode == q) t.nextAddr := rfl
  have hdirs : dirsOn (t.putFile f file) q = dirsOn t q := rfl
  rw [handles, handles, hfiles, hdirs, filesOn]
  omega

theorem deniers_putFile (hf : f < t.nextAddr) (file : Option OpenFile) (q : ℕ) :
    deniers (t.putFile f file) q +
        ((t.files f).any fun x => x.inode == q && x.denyWrite).toNat =
      deniers t q + (file.any fun x => x.inode == q && x.denyWrite).toNat :=
  tally_update file hf

theorem handles_putDir (refs : List ℕ) (hd : d < t.nextAddr) (dir : Option OpenDir) (q : ℕ) :
    handles refs (t.putDir d dir) q + ((t.dirs d).any fun x => x.inode == q).toNat =
      handles refs t q + (dir.any fun x => x.inode == q).toNat := by
  have := tally_update (g := t.dirs) (P := fun x => x.inode == q) dir hd
  have hdirs : dirsOn (t.putDir d dir) q =
      tally (Function.update t.dirs d dir) (fun x => x.inode == q) t.nextAddr := rfl
  have hfiles : filesOn (t.putDir d dir) q = filesOn t q := rfl
  rw [handles, handles, hfiles, hdirs, dirsOn]
  omega

theorem Fresh.putFile (ht : Fresh t) (hf : f < t.nextAddr) (file : Option OpenFile) :
    Fresh (t.putFile f file) := by
  refine ⟨fun a hle => ?_, ht.dirs⟩
  have hne : a ≠ f := fun e => absurd hf (not_lt.mpr (e ▸ hle))
  exact (Function.update_of_ne hne ..).trans (ht.files a hle)

/-- A file that is there is stored. -/
theorem Cells.putFile (hc : Cells held t) (hf : t.files f ≠ none) (file : OpenFile) :
    Cells held (t.putFile f (some file)) := by
  refine ⟨hc.filesNodup, hc.dirsNodup, fun g => ?_, hc.dir⟩
  show Function.update t.files f (some file) g ≠ none ↔ _
  rcases eq_or_ne g f with rfl | hne
  · rw [Function.update_self]
    exact iff_of_true (Option.some_ne_none file) ((hc.file g).mp hf)
  · rw [Function.update_of_ne hne]
    exact hc.file g

/-- There is one file more. -/
theorem Cells.addFile (hc : Cells held t) (hf : t.files f = none) (file : OpenFile) :
    Cells (held.addFile (some f)) (t.putFile f (some file)) := by
  have hnew : f ∉ held.files := fun hmem => (hc.file f).mpr hmem hf
  refine ⟨List.nodup_cons.mpr ⟨hnew, hc.filesNodup⟩, hc.dirsNodup, fun g => ?_, hc.dir⟩
  show Function.update t.files f (some file) g ≠ none ↔ g ∈ f :: held.files
  rw [List.mem_cons]
  rcases eq_or_ne g f with rfl | hne
  · rw [Function.update_self]
    exact iff_of_true (Option.some_ne_none file) (.inl rfl)
  · rw [Function.update_of_ne hne, or_iff_right hne]
    exact hc.file g

/-- There is one file less. -/
theorem Cells.dropFile (hc : Cells held t) (f : ℕ) : Cells (held.dropFile f) (t.putFile f none) := by
  refine ⟨hc.filesNodup.erase f, hc.dirsNodup, fun g => ?_, hc.dir⟩
  show Function.update t.files f none g ≠ none ↔ g ∈ held.files.erase f
  rw [hc.filesNodup.mem_erase_iff]
  rcases eq_or_ne g f with rfl | hne
  · rw [Function.update_self]
    exact iff_of_false (fun h => h rfl) fun h => h.1 rfl
  · rw [Function.update_of_ne hne, and_iff_right hne]
    exact hc.file g

/-- There is one directory more. -/
theorem Cells.addDir (hc : Cells held t) (hd : t.dirs d = none) (dir : OpenDir) :
    Cells (held.addDir (some d)) (t.putDir d (some dir)) := by
  have hnew : d ∉ held.dirs := fun hmem => (hc.dir d).mpr hmem hd
  refine ⟨hc.filesNodup, List.nodup_cons.mpr ⟨hnew, hc.dirsNodup⟩, hc.file, fun e => ?_⟩
  show Function.update t.dirs d (some dir) e ≠ none ↔ e ∈ d :: held.dirs
  rw [List.mem_cons]
  rcases eq_or_ne e d with rfl | hne
  · rw [Function.update_self]
    exact iff_of_true (Option.some_ne_none dir) (.inl rfl)
  · rw [Function.update_of_ne hne, or_iff_right hne]
    exact hc.dir e

/-- There is one directory less. -/
theorem Cells.dropDir (hc : Cells held t) (d : ℕ) : Cells (held.dropDir d) (t.putDir d none) := by
  refine ⟨hc.filesNodup, hc.dirsNodup.erase d, hc.file, fun e => ?_⟩
  show Function.update t.dirs d none e ≠ none ↔ e ∈ held.dirs.erase d
  rw [hc.dirsNodup.mem_erase_iff]
  rcases eq_or_ne e d with rfl | hne
  · rw [Function.update_self]
    exact iff_of_false (fun h => h rfl) fun h => h.1 rfl
  · rw [Function.update_of_ne hne, and_iff_right hne]
    exact hc.dir e

theorem Fresh.putDir (ht : Fresh t) (hd : d < t.nextAddr) (dir : Option OpenDir) :
    Fresh (t.putDir d dir) := by
  refine ⟨ht.files, fun a hle => ?_⟩
  have hne : a ≠ d := fun e => absurd hd (not_lt.mpr (e ▸ hle))
  exact (Function.update_of_ne hne ..).trans (ht.dirs a hle)

namespace Accounted

/-- A fresh address: the allocation adds nothing. -/
theorem malloc (ha : Accounted held t) : Ends (OpenTable.malloc t)
    (fun r t' => Accounted held t' ∧ SameHandles t t' ∧
      ∀ a ∈ r, a < t'.nextAddr ∧ t'.files a = none ∧ t'.dirs a = none) Stops := by
  refine (ends_malloc ha.inv).mono (fun r t' ht => ?_) fun _ _ he => he
  obtain ⟨hi, -, -, hfiles, hdirs, hnext, hr⟩ := ht
  have hs : SameHandles t t' := ⟨hfiles, hdirs, hnext⟩
  refine ⟨ha.withRefs held.refs hs hi, hs, fun a har => ?_⟩
  obtain ⟨rfl, hlt⟩ := hr a har
  refine ⟨by omega, ?_, ?_⟩
  · rw [hfiles]
    exact ha.files _ le_rfl
  · rw [hdirs]
    exact ha.dirs _ le_rfl

/-- A reference becomes a file. -/
theorem newFile (ha : Accounted (held.addRef (some p)) t) (hf : f < t.nextAddr)
    (hnone : t.files f = none) :
    Accounted (held.addFile (some f)) (t.putFile f (some ⟨p, 0, false⟩)) := by
  have hcells : Cells held t := ⟨ha.filesNodup, ha.dirsNodup, ha.file, ha.dir⟩
  refine ⟨ha.toFresh.putFile hf _, hcells.addFile hnone _, Inv.putFile ?_ f _⟩
  have hh : handles held.refs (t.putFile f (some ⟨p, 0, false⟩)) = handles (p :: held.refs) t := by
    funext q
    have := handles_putFile held.refs hf (some ⟨p, 0, false⟩) q
    rw [hnone] at this
    rw [handles_cons]
    rcases eq_or_ne p q with rfl | hne
    · simp only [bump, Function.update_self]
      simpa using this
    · have hb : (p == q) = false := beq_false_of_ne hne
      rw [bump, Function.update_of_ne hne.symm]
      simpa [hb] using this
  have hd : deniers (t.putFile f (some ⟨p, 0, false⟩)) = deniers t := by
    funext q
    have := deniers_putFile hf (some ⟨p, 0, false⟩) q
    rw [hnone] at this
    simpa using this
  show Inv (handles held.refs _) _ _
  rw [hh, hd]
  exact ha.inv

/-- A reference becomes a directory. -/
theorem newDir (ha : Accounted (held.addRef (some p)) t) (hd : d < t.nextAddr)
    (hnone : t.dirs d = none) : Accounted (held.addDir (some d)) (t.putDir d (some ⟨p, 0⟩)) := by
  have hcells : Cells held t := ⟨ha.filesNodup, ha.dirsNodup, ha.file, ha.dir⟩
  refine ⟨ha.toFresh.putDir hd _, hcells.addDir hnone _, Inv.putDir ?_ d _⟩
  have hh : handles held.refs (t.putDir d (some ⟨p, 0⟩)) = handles (p :: held.refs) t := by
    funext q
    have := handles_putDir held.refs hd (some ⟨p, 0⟩) q
    rw [hnone] at this
    rw [handles_cons]
    rcases eq_or_ne p q with rfl | hne
    · simp only [bump, Function.update_self]
      simpa using this
    · have hb : (p == q) = false := beq_false_of_ne hne
      rw [bump, Function.update_of_ne hne.symm]
      simpa [hb] using this
  have hdn : deniers (t.putDir d (some ⟨p, 0⟩)) = deniers t := rfl
  show Inv (handles held.refs _) _ _
  rw [hh, hdn]
  exact ha.inv

/-- **`file_open`** takes the reference over, also when it fails. -/
theorem fileOpen (inode : Option ℕ) (ha : Accounted (held.addRef inode) t) :
    Ends (OpenTable.fileOpen L inode t) (fun r t' => Accounted (held.addFile r) t') Stops := by
  unfold OpenTable.fileOpen
  refine Ends.bind ha.malloc fun r t1 ht => ?_
  obtain ⟨ha1, -, hr⟩ := ht
  cases inode with
  | none => exact ha1
  | some p =>
      cases r with
      | none => exact Ends.bind (inodeClose ha1) fun _ t2 ht2 => ht2.1
      | some f =>
          obtain ⟨hlt, hnone, -⟩ := hr f rfl
          exact ha1.newFile hlt hnone

/-- **`dir_open`** takes the reference over, also when it fails. -/
theorem dirOpen (inode : Option ℕ) (ha : Accounted (held.addRef inode) t) :
    Ends (OpenTable.dirOpen L inode t) (fun r t' => Accounted (held.addDir r) t') Stops := by
  unfold OpenTable.dirOpen
  refine Ends.bind ha.malloc fun r t1 ht => ?_
  obtain ⟨ha1, -, hr⟩ := ht
  cases inode with
  | none => exact ha1
  | some p =>
      cases r with
      | none => exact Ends.bind (inodeClose ha1) fun _ t2 ht2 => ht2.1
      | some d =>
          obtain ⟨hlt, -, hnone⟩ := hr d rfl
          exact ha1.newDir hlt hnone

/-- `file_reopen`. -/
theorem fileReopen (ha : Accounted held t) {file : OpenFile} (hf : t.files f = some file) :
    Ends (OpenTable.fileReopen L f t) (fun r t' => Accounted (held.addFile r) t') Stops := by
  rw [OpenTable.fileReopen, bind_of_ok (getFile_ok hf)]
  exact Ends.bind (ha.inodeReopen (ha.file_pos hf)) fun _ t1 ht => fileOpen (some file.inode) ht.1

/-- `dir_reopen`. -/
theorem dirReopen (ha : Accounted held t) {dir : OpenDir} (hd : t.dirs d = some dir) :
    Ends (OpenTable.dirReopen L d t) (fun r t' => Accounted (held.addDir r) t') Stops := by
  rw [OpenTable.dirReopen, bind_of_ok (getDir_ok hd)]
  exact Ends.bind (ha.inodeReopen (ha.dir_pos hd)) fun _ t1 ht => dirOpen (some dir.inode) ht.1

/-- A file whose inode does not change is as many handles as before. -/
theorem handles_same_inode (refs : List ℕ) {file : OpenFile} (hf : t.files f = some file)
    (hlt : f < t.nextAddr) (file' : OpenFile) (he : file'.inode = file.inode) :
    handles refs (t.putFile f (some file')) = handles refs t := by
  funext q
  have := handles_putFile refs hlt (some file') q
  rw [hf, Option.any_some, Option.any_some, he] at this
  omega

/-- The denials change by those of the file. -/
theorem deniers_flag {file : OpenFile} (hf : t.files f = some file) (hlt : f < t.nextAddr)
    (file' : OpenFile) (he : file'.inode = file.inode) (q : ℕ) :
    deniers (t.putFile f (some file')) q + (file.inode == q && file.denyWrite).toNat =
      deniers t q + (file.inode == q && file'.denyWrite).toNat := by
  have := deniers_putFile hlt (some file') q
  rwa [hf, Option.any_some, Option.any_some, he] at this

/-- The position of a file changes. -/
theorem setPos (ha : Accounted held t) {file : OpenFile} (hf : t.files f = some file) (pos : ℤ) :
    Accounted held (t.putFile f (some { file with pos })) := by
  have hlt := ha.file_lt hf
  have hopen : t.files f ≠ none := hf ▸ Option.some_ne_none file
  refine ⟨ha.toFresh.putFile hlt _, ha.toCells.putFile hopen _, Inv.putFile ?_ f _⟩
  have hd : deniers (t.putFile f (some { file with pos })) = deniers t := by
    funext q
    exact Nat.add_right_cancel (deniers_flag hf hlt { file with pos } rfl q)
  rw [handles_same_inode held.refs hf hlt { file with pos } rfl, hd]
  exact ha.inv

/-- A file that does not deny writes is a handle that does not count as a denial. -/
theorem deniers_lt (ha : Accounted held t) {file : OpenFile} (hf : t.files f = some file)
    (hdeny : file.denyWrite = false) : deniers t file.inode < handles held.refs t file.inode := by
  have hlt := ha.file_lt hf
  have hflag := deniers_flag hf hlt { file with denyWrite := true } rfl file.inode
  have hsame := congrFun (handles_same_inode held.refs hf hlt { file with denyWrite := true } rfl) file.inode
  have hle := deniers_le_handles held.refs (t.putFile f (some { file with denyWrite := true })) file.inode
  simp only [hdeny, beq_self_eq_true, Bool.true_and, Bool.toNat_false, Bool.toNat_true] at hflag
  omega

/-- What `file_deny_write` and `file_allow_write` leave: the flag is set, and nothing else
has changed. -/
structure Flagged (held : Held) (t : Table δ) (f : ℕ) (file : OpenFile) (flag : Bool)
    (t' : Table δ) : Prop where
  accounted : Accounted held t'
  file : t'.files f = some { file with denyWrite := flag }
  others : ∀ g, g ≠ f → t'.files g = t.files g
  dirs : t'.dirs = t.dirs

theorem Flagged.of_flag (ha : Accounted held t) {file : OpenFile} (hf : t.files f = some file) :
    Flagged held t f file file.denyWrite t :=
  ⟨ha, hf, fun _ _ => rfl, rfl⟩

theorem Flagged.of_inv (ha : Accounted held t) {file : OpenFile} (hf : t.files f = some file)
    {flag : Bool} (hs : SameHandles (t.putFile f (some { file with denyWrite := flag })) t')
    (hi : Inv (handles held.refs t) (deniers (t.putFile f (some { file with denyWrite := flag }))) t') :
    Flagged held t f file flag t' := by
  have hlt := ha.file_lt hf
  have hopen : t.files f ≠ none := hf ▸ Option.some_ne_none file
  refine ⟨(ha.toFresh.putFile hlt _).accounted (ha.toCells.putFile hopen _) hs ?_, ?_,
    fun g hg => ?_, hs.dirs⟩
  · rw [handles_same_inode held.refs hf hlt { file with denyWrite := flag } rfl]
    exact hi
  · rw [hs.files]
    exact Function.update_self ..
  · rw [hs.files]
    exact Function.update_of_ne hg ..

/-- **`file_deny_write`.** -/
theorem fileDenyWrite (ha : Accounted held t) {file : OpenFile} (hf : t.files f = some file) :
    Ends (OpenTable.fileDenyWrite f t) (fun _ t' => Flagged held t f file true t') Stops := by
  rw [OpenTable.fileDenyWrite, bind_of_ok (getFile_ok hf)]
  split
  · next hflag =>
      have hflag : file.denyWrite = false := by simpa using hflag
      have hd : deniers (t.putFile f (some { file with denyWrite := true })) =
          bump (deniers t) file.inode := by
        funext q
        have hq := deniers_flag hf (ha.file_lt hf) { file with denyWrite := true } rfl q
        rcases eq_or_ne file.inode q with rfl | hne
        · simpa [bump, hflag] using hq
        · have hb : (file.inode == q) = false := beq_false_of_ne hne
          rw [bump, Function.update_of_ne hne.symm]
          simpa [hb] using hq
      refine Ends.change ((inodeDenyWrite_inv (ha.inv.putFile f _) (ha.deniers_lt hf hflag)).mono
        (fun _ t' ht => ?_) fun _ _ he => he)
      exact Flagged.of_inv ha hf ht.2 (hd ▸ ht.1)
  · next hflag =>
      have hflag : file.denyWrite = true := by simpa using hflag
      have := Flagged.of_flag ha hf
      rwa [hflag] at this

/-- **`file_allow_write`.** -/
theorem fileAllowWrite (ha : Accounted held t) {file : OpenFile} (hf : t.files f = some file) :
    Ends (OpenTable.fileAllowWrite f t) (fun _ t' => Flagged held t f file false t') Stops := by
  rw [OpenTable.fileAllowWrite, bind_of_ok (getFile_ok hf)]
  have hlt := ha.file_lt hf
  split
  · next hflag =>
      have hpos : 0 < deniers t file.inode := tally_pos.mpr ⟨f, hlt, file, hf, by simp [hflag]⟩
      have hd : deniers (t.putFile f (some { file with denyWrite := false })) =
          drop (deniers t) file.inode := by
        funext q
        have hq := deniers_flag hf hlt { file with denyWrite := false } rfl q
        rcases eq_or_ne file.inode q with rfl | hne
        · rw [hflag] at hq
          simp only [beq_self_eq_true, Bool.and_true, Bool.and_false, Bool.toNat_true,
            Bool.toNat_false] at hq
          simp only [drop, Function.update_self]
          omega
        · have hb : (file.inode == q) = false := beq_false_of_ne hne
          rw [drop, Function.update_of_ne hne.symm]
          simpa [hb] using hq
      refine Ends.change ((inodeAllowWrite_inv (ha.inv.putFile f _) hpos
        (deniers_le_handles held.refs t _)).mono (fun _ t' ht => ?_) fun _ _ he => he)
      exact Flagged.of_inv ha hf ht.2 (hd ▸ ht.1)
  · next hflag =>
      have hflag : file.denyWrite = false := by simpa using hflag
      have := Flagged.of_flag ha hf
      rwa [hflag] at this

/-- A file that is freed was a handle. -/
theorem handles_freeFile (refs : List ℕ) {file : OpenFile} (hf : t.files f = some file)
    (hlt : f < t.nextAddr) :
    handles refs (t.putFile f none) = drop (handles refs t) file.inode := by
  funext q
  have hq := handles_putFile refs hlt none q
  rw [hf, Option.any_some, Option.any_none, Bool.toNat_false] at hq
  rcases eq_or_ne file.inode q with rfl | hne
  · simp only [beq_self_eq_true, Bool.toNat_true] at hq
    simp only [drop, Function.update_self]
    omega
  · have hb : (file.inode == q) = false := beq_false_of_ne hne
    rw [drop, Function.update_of_ne hne.symm]
    simpa [hb] using hq

theorem handles_freeDir (refs : List ℕ) {dir : OpenDir} (hd : t.dirs d = some dir)
    (hlt : d < t.nextAddr) :
    handles refs (t.putDir d none) = drop (handles refs t) dir.inode := by
  funext q
  have hq := handles_putDir refs hlt none q
  rw [hd, Option.any_some, Option.any_none, Bool.toNat_false] at hq
  rcases eq_or_ne dir.inode q with rfl | hne
  · simp only [beq_self_eq_true, Bool.toNat_true] at hq
    simp only [drop, Function.update_self]
    omega
  · have hb : (dir.inode == q) = false := beq_false_of_ne hne
    rw [drop, Function.update_of_ne hne.symm]
    simpa [hb] using hq

/-- **`file_close`.** -/
theorem fileClose (ha : Accounted held t) {file : OpenFile} (hf : t.files f = some file) :
    Ends (OpenTable.fileClose L (some f) t)
      (fun _ t' => Accounted (held.dropFile f) t' ∧ t'.files f = none) Stops := by
  unfold OpenTable.fileClose
  refine Ends.bind (ha.fileAllowWrite hf) fun _ t1 h1 => ?_
  have ha1 := h1.accounted
  rw [bind_of_ok (getFile_ok h1.file)]
  have hbelow := ha1.deniers_lt h1.file rfl
  refine Ends.bind (inodeClose_inv ha1.inv (ha1.file_pos h1.file) (by omega)) fun _ t2 h2 => ?_
  obtain ⟨hi2, hs⟩ := h2
  obtain ⟨hh, hd⟩ := ha1.toFresh.same hs
  have hf2 : t2.files f = some { file with denyWrite := false } := by
    rw [hs.files]
    exact h1.file
  have hlt2 : f < t2.nextAddr := lt_of_lt_of_le (ha1.file_lt h1.file) hs.next
  refine ⟨⟨(ha1.toFresh.of_same hs).putFile hlt2 none, (ha1.toCells.of_same hs).dropFile f, ?_⟩,
    Function.update_self ..⟩
  have hdn : deniers (t2.putFile f none) = deniers t2 := by
    funext q
    have hq := deniers_putFile hlt2 none q
    rw [hf2] at hq
    simpa using hq
  have hi3 : Inv (handles held.refs (t2.putFile f none)) (deniers (t2.putFile f none)) t2 := by
    rw [handles_freeFile held.refs hf2 hlt2, hdn, hh, hd]
    exact hi2
  exact hi3.putFile f none

/-- **`dir_close`.** -/
theorem dirClose (ha : Accounted held t) {dir : OpenDir} (hd : t.dirs d = some dir) :
    Ends (OpenTable.dirClose L (some d) t) (fun _ t' => Accounted (held.dropDir d) t') Stops := by
  rw [OpenTable.dirClose, bind_of_ok (getDir_ok hd)]
  have hbelow : deniers t dir.inode ≤ handles held.refs t dir.inode - 1 := by
    have h1 := deniers_le t dir.inode
    have h2 : 0 < dirsOn t dir.inode := tally_pos.mpr ⟨d, ha.dir_lt hd, dir, hd, by simp⟩
    unfold handles
    omega
  refine Ends.bind (inodeClose_inv ha.inv (ha.dir_pos hd) hbelow) fun _ t2 h2 => ?_
  obtain ⟨hi2, hs⟩ := h2
  obtain ⟨hh, hdn⟩ := ha.toFresh.same hs
  have hd2 : t2.dirs d = some dir := by
    rw [hs.dirs]
    exact hd
  have hlt2 : d < t2.nextAddr := lt_of_lt_of_le (ha.dir_lt hd) hs.next
  refine ⟨(ha.toFresh.of_same hs).putDir hlt2 none, (ha.toCells.of_same hs).dropDir d, ?_⟩
  have hi3 : Inv (handles held.refs (t2.putDir d none)) (deniers (t2.putDir d none)) t2 := by
    have e : deniers (t2.putDir d none) = deniers t2 := rfl
    rw [handles_freeDir held.refs hd2 hlt2, e, hh, hdn]
    exact hi2
  exact hi3.putDir d none

/-- `file_write`. -/
theorem fileWrite (ha : Accounted held t) {file : OpenFile} (hf : t.files f = some file)
    (buffer : List UInt8) :
    Ends (OpenTable.fileWrite L f buffer t) (fun _ t' => Accounted held t') Stops := by
  rw [OpenTable.fileWrite, bind_of_ok (getFile_ok hf)]
  refine Ends.bind (ha.inodeWriteAt (ha.file_pos hf) buffer file.pos) fun n t1 h1 => ?_
  have hf1 : t1.files f = some file := by
    rw [h1.2.files]
    exact hf
  exact h1.1.setPos hf1 _

/-! ## Directories and names -/

theorem dir_of_same (hs : SameHandles t t') {dir : OpenDir} (hd : t.dirs d = some dir) :
    t'.dirs d = some dir := by
  rw [hs.dirs]
  exact hd

/-- `dir_lookup`. -/
theorem dirLookup (ha : Accounted held t) {dir : OpenDir} (hd : t.dirs d = some dir) (name : CString) :
    Ends (OpenTable.dirLookup L d name t)
      (fun r t' => Accounted (held.addRef r) t' ∧ SameHandles t t') Stops := by
  rw [OpenTable.dirLookup, bind_of_ok (getDir_ok hd)]
  refine Ends.bind (ha.onData _) fun r t1 h1 => ?_
  cases r with
  | none => exact h1
  | some e =>
      exact (h1.1.inodeOpen e.1).mono (fun _ t2 h2 => ⟨h2.1, h1.2.trans h2.2⟩) fun _ _ he => he

/-- `dir_add`. -/
theorem dirAdd (ha : Accounted held t) {dir : OpenDir} (hd : t.dirs d = some dir) (name : CString)
    (sector : ℕ) : Ends (OpenTable.dirAdd L d name sector t)
      (fun _ t' => Accounted held t' ∧ SameHandles t t') Stops := by
  rw [OpenTable.dirAdd, bind_of_ok (getDir_ok hd)]
  refine Ends.ite (fun _ => ⟨ha, .refl t⟩) fun _ => ?_
  refine Ends.bind (ha.onData _) fun r t1 h1 => ?_
  cases r with
  | some e => exact h1
  | none =>
      refine Ends.bind (h1.1.onData _) fun e t2 h2 => ?_
      have hd2 := dir_of_same h2.2 (dir_of_same h1.2 hd)
      refine Ends.bind (h2.1.inodeWriteAt (h2.1.dir_pos hd2) e.1 e.2) fun n t3 h3 => ?_
      exact ⟨h3.1, (h1.2.trans h2.2).trans h3.2⟩

/-- The end of `dir_remove`. -/
theorem eraseEntry {q : ℕ} (ha : Accounted (held.addRef (some q)) t)
    (hp : 0 < handles (q :: held.refs) t p)
    (entry : List UInt8) (ofs : ℤ) : Ends (OpenTable.eraseEntry L p q entry ofs t)
      (fun _ t' => Accounted held t' ∧ SameHandles t t') Stops := by
  unfold OpenTable.eraseEntry
  refine Ends.bind (ha.inodeWriteAt hp entry ofs) fun n t1 h1 => ?_
  refine Ends.ite (fun _ => ?_) fun _ => ?_
  · refine Ends.bind (inodeClose h1.1) fun _ t2 h2 => ?_
    exact ⟨h2.1, h1.2.trans h2.2⟩
  · refine Ends.bind (h1.1.inodeRemove (ref_pos List.mem_cons_self)) fun _ t2 h2 => ?_
    refine Ends.bind (inodeClose h2.1) fun _ t3 h3 => ?_
    exact ⟨h3.1, (h1.2.trans h2.2).trans h3.2⟩

/-- **`dir_remove`** gives back what it opens, on every path. -/
theorem dirRemove (ha : Accounted held t) {dir : OpenDir} (hd : t.dirs d = some dir) (name : CString) :
    Ends (OpenTable.dirRemove L d name t)
      (fun _ t' => Accounted held t' ∧ SameHandles t t') Stops := by
  rw [OpenTable.dirRemove, bind_of_ok (getDir_ok hd)]
  refine Ends.bind (ha.onData _) fun r t1 h1 => ?_
  cases r with
  | none => exact h1
  | some e =>
      refine Ends.bind (h1.1.inodeOpen e.1) fun r t2 h2 => ?_
      have hs := h1.2.trans h2.2
      cases r with
      | none => exact ⟨h2.1, hs⟩
      | some q =>
          refine (eraseEntry h2.1 (h2.1.dir_pos (dir_of_same hs hd)) e.2.1 e.2.2).mono
            (fun _ t3 h3 => ⟨h3.1, hs.trans h3.2⟩) fun _ _ he => he

/-- `dir_open_root`. -/
theorem dirOpenRoot (ha : Accounted held t) : Ends (OpenTable.dirOpenRoot L t)
    (fun r t' => Accounted (held.addDir r) t') Stops := by
  unfold OpenTable.dirOpenRoot
  exact Ends.bind (ha.inodeOpen rootDirSector) fun r t1 h1 => dirOpen r h1.1

/-- A directory that the callers hold is there. -/
theorem dir_some (ha : Accounted held t) (hd : d ∈ held.dirs) : ∃ dir, t.dirs d = some dir :=
  Option.ne_none_iff_exists'.mp ((ha.dir d).mpr hd)

/-- A file that the callers hold is there. -/
theorem file_some (ha : Accounted held t) (hf : f ∈ held.files) : ∃ file, t.files f = some file :=
  Option.ne_none_iff_exists'.mp ((ha.file f).mpr hf)

/-- The directory that was opened last is closed. -/
theorem dirClose_added (ha : Accounted (held.addDir (some d)) t) :
    Ends (OpenTable.dirClose L (some d) t) (fun _ t' => Accounted held t') Stops := by
  obtain ⟨dir, hd⟩ := ha.dir_some (d := d) List.mem_cons_self
  refine (ha.dirClose hd).mono (fun _ t' h => ?_) fun _ _ he => he
  have e : (held.addDir (some d)).dropDir d = held := by
    rw [Held.dropDir, Held.addDir]
    show { held with dirs := (d :: held.dirs).erase d } = held
    rw [List.erase_cons_head]
  exact e ▸ h

/-- The middle of `filesys_create`. -/
theorem createIn (ha : Accounted held t) {dir : OpenDir} (hd : t.dirs d = some dir) (name : CString)
    (initialSize : ℤ) (isDir : Bool) : Ends (OpenTable.createIn L d name initialSize isDir t)
      (fun _ t' => Accounted held t' ∧ SameHandles t t') Stops := by
  unfold OpenTable.createIn
  refine Ends.bind (ha.onData _) fun r t1 h1 => ?_
  cases r with
  | none => exact h1
  | some sector =>
      refine Ends.bind (h1.1.onData _) fun b t2 h2 => ?_
      have hs := h1.2.trans h2.2
      refine Ends.ite (fun _ => ?_) fun _ => ⟨h2.1, hs⟩
      refine Ends.bind (h2.1.dirAdd (dir_of_same hs hd) name sector) fun b t3 h3 => ?_
      exact ⟨h3.1, hs.trans h3.2⟩

theorem releaseUnused (ha : Accounted held t) (success : Bool) (sector : ℕ) :
    Ends (OpenTable.releaseUnused L success sector t)
      (fun _ t' => Accounted held t' ∧ SameHandles t t') Stops := by
  unfold OpenTable.releaseUnused
  exact Ends.ite (fun _ => ha.onData _) fun _ => ⟨ha, .refl t⟩

/-- **`filesys_create`.** -/
theorem filesysCreate (ha : Accounted held t) (name : CString) (initialSize : ℤ) (isDir : Bool) :
    Ends (OpenTable.filesysCreate L name initialSize isDir t) (fun _ t' => Accounted held t')
      Stops := by
  unfold OpenTable.filesysCreate
  refine Ends.ite (fun _ => ha) fun _ => ?_
  refine Ends.bind ha.dirOpenRoot fun r t1 h1 => ?_
  cases r with
  | none => exact h1
  | some d =>
      obtain ⟨dir, hd⟩ := h1.dir_some (d := d) List.mem_cons_self
      refine Ends.bind (h1.createIn hd name initialSize isDir) fun b t2 h2 => ?_
      refine Ends.bind (h2.1.releaseUnused b.1 b.2) fun _ t3 h3 => ?_
      exact Ends.bind h3.1.dirClose_added fun _ t4 h4 => h4

/-- **`filesys_open`.** -/
theorem filesysOpen (ha : Accounted held t) (name : CString) :
    Ends (OpenTable.filesysOpen L name t) (fun r t' => Accounted (held.addFile r) t') Stops := by
  unfold OpenTable.filesysOpen
  refine Ends.bind ha.dirOpenRoot fun r t1 h1 => ?_
  cases r with
  | none => exact fileOpen none h1
  | some d =>
      obtain ⟨dir, hd⟩ := h1.dir_some (d := d) List.mem_cons_self
      refine Ends.bind (h1.dirLookup hd name) fun r t2 h2 => ?_
      have hlooked : Accounted ((held.addRef r).addDir (some d)) t2 := h2.1
      exact Ends.bind hlooked.dirClose_added fun _ t3 h3 => fileOpen r h3

/-- **`filesys_remove`.** -/
theorem filesysRemove (ha : Accounted held t) (name : CString) :
    Ends (OpenTable.filesysRemove L name t) (fun _ t' => Accounted held t') Stops := by
  unfold OpenTable.filesysRemove
  refine Ends.bind ha.dirOpenRoot fun r t1 h1 => ?_
  cases r with
  | none => exact h1
  | some d =>
      obtain ⟨dir, hd⟩ := h1.dir_some (d := d) List.mem_cons_self
      refine Ends.bind (h1.dirRemove hd name) fun b t2 h2 => ?_
      exact Ends.bind h2.1.dirClose_added fun _ t3 h3 => h3

end Accounted

end Pintos.OpenTable
