import Pintos.Vm.Load

/-!
# Who has which page

A page of the two pools is referred to from a thread (its own page, its command line),
from a page directory, a page table or a page table entry, or from a local variable of
the call that runs.  `Owned b L s` says that **every page has one owner**: no two
references in the state `s` name the same page, the pages of the local variables `L`
are named by no reference, and all of them are marked in the bitmap of their pool.
With `b` it says in addition that the frame table lists exactly the pages `get_frame`
has handed out and nobody has freed.

A call starts with some local pages and ends with others, so its specification reads
like an account: `get_frame` adds a page to `L`, `free_frame` takes one away,
`install_page` turns a local page into an entry.  A page that drops out of `L` without
being freed is lost, which harms nobody.  Most code touches no page at all; for it
there is one rule, `Owned.same`.
-/

namespace Pintos.Vm

open Lib

/-! ## References -/

/-- A place of the state that may name a page. -/
inductive Ref where
  | thread (t : ℕ)
  | name (t : ℕ)
  | pagedir (t : ℕ)
  | table (t i : ℕ)
  | entry (t i j : ℕ)
deriving DecidableEq

namespace Ref

/-- The pool its page is taken from. -/
def pool : Ref → PoolName
  | .entry _ _ _ => .user
  | _ => .kernel

/-- Its page is taken with `palloc_get_page`, not with `get_frame`. -/
def Plain : Ref → Prop
  | .thread _ => True
  | .name _ => False
  | .pagedir _ => True
  | .table _ _ => True
  | .entry _ _ _ => False

/-- It lies in the page directory of thread `t`. -/
def InDir (t : ℕ) : Ref → Prop
  | .thread _ => False
  | .name _ => False
  | .pagedir t' => t' = t
  | .table t' _ => t' = t
  | .entry t' _ _ => t' = t

end Ref

/-- The page directory of a thread. -/
def Kernel.dirAt (s : Kernel) (t : ℕ) : Option PageDir := (s.threads t).bind fun th => th.pagedir

/-- The page tables of a thread. -/
def Kernel.tableAt (s : Kernel) (t i : ℕ) : Option PageTable := (s.dirAt t).bind fun pd => pd.tables i

/-- The page a reference names. -/
def Kernel.refPage (s : Kernel) : Ref → Option ℕ
  | .thread t => (s.threads t).bind fun th => th.page
  | .name t => (s.threads t).bind fun th => th.fileName.map Prod.fst
  | .pagedir t => (s.dirAt t).map PageDir.page
  | .table t i => (s.tableAt t i).map PageTable.page
  | .entry t i j => (s.tableAt t i).bind fun pt => (pt.entries j).map Pte.kpage

/-- The pages of the references in `R`, with their pools. -/
def Kernel.pagesOf (s : Kernel) (R : List Ref) : List (PoolName × ℕ) :=
  R.filterMap fun r => (s.refPage r).map fun p => (r.pool, p)

/-- **Every page has one owner.**  `L` are the pages of local variables, with the pool
each is from. -/
structure Owned (b : Prop) (L : List (PoolName × ℕ)) (s : Kernel) : Prop where
  apart : Apart s.pools
  locking : s.locking = true
  inj : ∀ {r r' p}, s.refPage r = some p → s.refPage r' = some p → r = r'
  used : ∀ {r p}, s.refPage r = some p → Used (s.pools r.pool) p
  localUsed : ∀ {u p}, (u, p) ∈ L → Used (s.pools u) p
  localFree : ∀ {u p}, (u, p) ∈ L → ∀ r, s.refPage r ≠ some p
  localNodup : L.Nodup
  handedUsed : ∀ {p}, p ∈ s.handed → ∃ u, Used (s.pools u) p
  handedNodup : s.handed.Nodup
  plain : ∀ {r p}, r.Plain → s.refPage r = some p → p ∉ s.handed
  grants : ∀ g ∈ s.grants, g.mappers = []
  tids : ∀ t, s.nextTid ≤ t → s.threads t = none
  accurate : b → s.fifoList.map Frame.page = s.handed

variable {b c : Prop} {L : List (PoolName × ℕ)} {s s' : Kernel} {u : PoolName} {p q t : ℕ}

/-! ## States that agree on the pages -/

/-- The two states agree on what is written down about pages. -/
structure Books (s s' : Kernel) : Prop where
  pools : s'.pools = s.pools
  locking : s'.locking = s.locking
  handed : s'.handed = s.handed
  grants : s'.grants = s.grants
  fifoList : s'.fifoList = s.fifoList
  tids : (∀ t, s.nextTid ≤ t → s.threads t = none) → ∀ t, s'.nextTid ≤ t → s'.threads t = none

/-- The two states agree on all that `Owned` speaks of. -/
structure Same (s s' : Kernel) : Prop extends Books s s' where
  refs : ∀ r, s'.refPage r = s.refPage r

theorem Books.refl (s : Kernel) : Books s s := ⟨rfl, rfl, rfl, rfl, rfl, id⟩

theorem Books.trans {r : Kernel} (h : Books s s') (h' : Books s' r) : Books s r :=
  ⟨h'.pools.trans h.pools, h'.locking.trans h.locking, h'.handed.trans h.handed,
    h'.grants.trans h.grants, h'.fifoList.trans h.fifoList, fun ht => h'.tids (h.tids ht)⟩

theorem Same.refl (s : Kernel) : Same s s := ⟨.refl s, fun _ => rfl⟩

theorem Same.trans {r : Kernel} (h : Same s s') (h' : Same s' r) : Same s r :=
  ⟨h.toBooks.trans h'.toBooks, fun x => (h'.refs x).trans (h.refs x)⟩

theorem refPage_of_threads (h : s'.threads = s.threads) (r : Ref) : s'.refPage r = s.refPage r := by
  cases r <;> simp only [Kernel.refPage, Kernel.tableAt, Kernel.dirAt, h]

/-- The threads and what is written down about pages are as before. -/
theorem Same.of_threads (hthreads : s'.threads = s.threads) (htid : s'.nextTid = s.nextTid)
    (hpools : s'.pools = s.pools) (hlocking : s'.locking = s.locking)
    (hhanded : s'.handed = s.handed) (hgrants : s'.grants = s.grants)
    (hfifo : s'.fifoList = s.fifoList) : Same s s' := by
  refine ⟨⟨hpools, hlocking, hhanded, hgrants, hfifo, fun ht t hle => ?_⟩,
    refPage_of_threads hthreads⟩
  rw [hthreads]
  exact ht t (htid ▸ hle)

theorem Books.updateCurrent (f : Thread → Thread) : Books s (s.updateCurrent f) := by
  refine ⟨rfl, rfl, rfl, rfl, rfl, fun ht t hle => ?_⟩
  have h := ht t hle
  by_cases e : t = s.current
  · subst e
    simp [Kernel.updateCurrent, h]
  · simp [Kernel.updateCurrent, Function.update_of_ne e, h]

/-- The running thread changes in what is no page of its own. -/
theorem Same.updateCurrent {f : Thread → Thread} (hpage : ∀ th, (f th).page = th.page)
    (hname : ∀ th, (f th).fileName = th.fileName) (hdir : ∀ th, (f th).pagedir = th.pagedir) :
    Same s (s.updateCurrent f) := by
  have hbind : ∀ {β : Type} (g : Thread → Option β), (∀ th, g (f th) = g th) → ∀ t,
      ((s.updateCurrent f).threads t).bind g = (s.threads t).bind g := by
    intro β g hg t
    by_cases e : t = s.current
    · subst e
      simp only [Kernel.updateCurrent, Function.update_self]
      cases s.threads s.current with
      | none => rfl
      | some th => exact hg th
    · simp [Kernel.updateCurrent, Function.update_of_ne e]
  have hdirs : ∀ t, (s.updateCurrent f).dirAt t = s.dirAt t := hbind (fun th => th.pagedir) hdir
  refine ⟨.updateCurrent f, fun r => ?_⟩
  cases r with
  | thread t => exact hbind _ (fun th => by rw [hpage]) t
  | name t => exact hbind _ (fun th => by rw [hname]) t
  | pagedir t => simp only [Kernel.refPage, hdirs]
  | table t i => simp only [Kernel.refPage, Kernel.tableAt, hdirs]
  | entry t i j => simp only [Kernel.refPage, Kernel.tableAt, hdirs]

namespace Owned

/-- **What touches no page keeps the account.** -/
theorem same (h : Owned b L s) (hs : Same s s') : Owned b L s' where
  apart := by
    rw [hs.pools]
    exact h.apart
  locking := hs.locking.trans h.locking
  inj h1 h2 := h.inj (hs.refs _ ▸ h1) (hs.refs _ ▸ h2)
  used h1 := by
    rw [hs.pools]
    exact h.used (hs.refs _ ▸ h1)
  localUsed h1 := by
    rw [hs.pools]
    exact h.localUsed h1
  localFree h1 r := by
    rw [hs.refs]
    exact h.localFree h1 r
  localNodup := h.localNodup
  handedUsed h1 := by
    rw [hs.pools]
    exact h.handedUsed (hs.handed ▸ h1)
  handedNodup := by
    rw [hs.handed]
    exact h.handedNodup
  plain hr h1 := by
    rw [hs.handed]
    exact h.plain hr (hs.refs _ ▸ h1)
  grants g hg := h.grants g (hs.grants ▸ hg)
  tids := hs.tids h.tids
  accurate hb := by
    rw [hs.fifoList, hs.handed]
    exact h.accurate hb

theorem weaken (h : Owned b L s) (hc : c → b) : Owned c L s :=
  { h with accurate := fun hb => h.accurate (hc hb) }

/-- Local pages may be forgotten. -/
theorem forget (h : Owned b L s) {L' : List (PoolName × ℕ)} (hsub : L'.Sublist L) : Owned b L' s :=
  { h with
    localUsed := fun hp => h.localUsed (hsub.subset hp)
    localFree := fun hp => h.localFree (hsub.subset hp)
    localNodup := h.localNodup.sublist hsub }

theorem perm (h : Owned b L s) {L' : List (PoolName × ℕ)} (hp : L.Perm L') : Owned b L' s :=
  { h with
    localUsed := fun hm => h.localUsed (hp.mem_iff.mpr hm)
    localFree := fun hm => h.localFree (hp.mem_iff.mpr hm)
    localNodup := hp.nodup_iff.mp h.localNodup }

theorem tail (h : Owned b ((u, p) :: L) s) : Owned b L s := h.forget (List.sublist_cons_self _ _)

/-- **A local page becomes the page of a reference.**  Other references may be dropped. -/
theorem adopt (h : Owned b ((u, q) :: L) s) {r₀ : Ref} (hpool : r₀.pool = u)
    (hplain : r₀.Plain → q ∉ s.handed) (hb : Books s s')
    (hrefs : ∀ r p, s'.refPage r = some p → s.refPage r = some p ∨ r = r₀ ∧ p = q) :
    Owned b L s' := by
  have hq := h.localFree (List.mem_cons_self ..)
  have hnodup := List.nodup_cons.mp h.localNodup
  refine ⟨hb.pools ▸ h.apart, hb.locking.trans h.locking, fun {r r' p} h1 h2 => ?_, fun {r p} h1 => ?_,
    fun {v p} hp => ?_, fun {v p} hp r h1 => ?_, hnodup.2, fun {p} hp => ?_, hb.handed ▸ h.handedNodup,
    fun {r p} hr h1 => ?_, fun g hg => h.grants g (hb.grants ▸ hg), hb.tids h.tids, fun hc => ?_⟩
  · rcases hrefs r p h1 with h1 | ⟨rfl, rfl⟩ <;> rcases hrefs r' _ h2 with h2 | ⟨rfl, e⟩
    · exact h.inj h1 h2
    · exact absurd (e ▸ h1) (hq r)
    · exact absurd h2 (hq r')
    · rfl
  · rw [hb.pools]
    rcases hrefs r p h1 with h1 | ⟨rfl, rfl⟩
    · exact h.used h1
    · exact hpool ▸ h.localUsed (List.mem_cons_self ..)
  · rw [hb.pools]
    exact h.localUsed (List.mem_cons_of_mem _ hp)
  · rcases hrefs r p h1 with h1 | ⟨rfl, rfl⟩
    · exact h.localFree (List.mem_cons_of_mem _ hp) r h1
    · -- the page would be local twice
      have e := h.apart.pool_eq (h.localUsed (List.mem_cons_of_mem _ hp))
        (h.localUsed (List.mem_cons_self ..))
      exact hnodup.1 (e ▸ hp)
  · rw [hb.pools]
    exact h.handedUsed (hb.handed ▸ hp)
  · rw [hb.handed]
    rcases hrefs r p h1 with h1 | ⟨rfl, rfl⟩
    · exact h.plain hr h1
    · exact hplain hr
  · rw [hb.fifoList, hb.handed]
    exact h.accurate hc

/-- **References that are dropped leave their pages as local ones.** -/
theorem release (h : Owned b L s) {R : List Ref} (hR : R.Nodup) (hb : Books s s')
    (hrefs : ∀ r p, s'.refPage r = some p → s.refPage r = some p ∧ r ∉ R) :
    Owned b (s.pagesOf R ++ L) s' := by
  have hmem : ∀ {v p}, (v, p) ∈ s.pagesOf R → ∃ r ∈ R, s.refPage r = some p ∧ r.pool = v := by
    intro v p hp
    obtain ⟨r, hr, e⟩ := List.mem_filterMap.mp hp
    obtain ⟨p', hp', e⟩ := Option.map_eq_some_iff.mp e
    obtain ⟨rfl, rfl⟩ := Prod.mk.inj e
    exact ⟨r, hr, hp', rfl⟩
  refine ⟨hb.pools ▸ h.apart, hb.locking.trans h.locking,
    fun {r r' p} h1 h2 => h.inj (hrefs r p h1).1 (hrefs r' p h2).1,
    fun {r p} h1 => hb.pools ▸ h.used (hrefs r p h1).1, fun {v p} hp => ?_,
    fun {v p} hp r h1 => ?_, List.Nodup.append ?_ h.localNodup ?_,
    fun {p} hp => hb.pools ▸ h.handedUsed (hb.handed ▸ hp), hb.handed ▸ h.handedNodup,
    fun {r p} hr h1 => hb.handed ▸ h.plain hr (hrefs r p h1).1,
    fun g hg => h.grants g (hb.grants ▸ hg), hb.tids h.tids, fun hc => ?_⟩
  · rw [hb.pools]
    rcases List.mem_append.mp hp with hp | hp
    · obtain ⟨r, -, h1, rfl⟩ := hmem hp
      exact h.used h1
    · exact h.localUsed hp
  · obtain ⟨h1, hr⟩ := hrefs r p h1
    rcases List.mem_append.mp hp with hp | hp
    · obtain ⟨r', hr', h2, -⟩ := hmem hp
      exact hr (h.inj h1 h2 ▸ hr')
    · exact h.localFree hp r h1
  · refine List.Nodup.filterMap (fun r r' x h1 h2 => ?_) hR
    obtain ⟨p, hp, rfl⟩ := Option.map_eq_some_iff.mp h1
    obtain ⟨p', hp', e⟩ := Option.map_eq_some_iff.mp h2
    obtain ⟨-, rfl⟩ := Prod.mk.inj e
    exact h.inj hp hp'
  · rintro ⟨v, p⟩ h1 h2
    obtain ⟨r, -, h1, -⟩ := hmem h1
    exact h.localFree h2 r h1
  · rw [hb.fifoList, hb.handed]
    exact h.accurate hc

/-- The frame table may be compared anew. -/
theorem recount (h : Owned c L s) (hb : b → s.fifoList.map Frame.page = s.handed) : Owned b L s :=
  { h with accurate := hb }

end Owned

/-- What is left when a call stops: the local pages are lost, and after a panic nobody
looks at the frame table. -/
def Left (b : Prop) (e : Stop) (s : Kernel) : Prop := Owned (b ∧ e.GoesOn) [] s

theorem Owned.left (h : Owned b L s) (e : Stop) : Left b e s :=
  (h.forget (List.nil_sublist L)).weaken And.left

/-- A command that touches no page. -/
def Touchless {α : Type} (m : Code α) : Prop :=
  ∀ s, Ends (m s) (fun _ s' => Same s s') fun _ s' => Same s s'

/-- **The rule for code that touches no page.** -/
theorem Touchless.owned {α : Type} {m : Code α} (hm : Touchless m) (h : Owned b L s) :
    Ends (m s) (fun _ s' => Owned b L s') (Left b) :=
  (hm s).mono (fun _ _ hs => h.same hs) fun e _ hs => (h.same hs).left e

namespace Touchless

variable {α β : Type}

theorem pure (a : α) : Touchless (Pure.pure a : Code α) := fun s => Same.refl s

theorem stop (e : Stop) : Touchless (Lib.stop e : Code α) := fun s => Same.refl s

theorem fetch (f : Kernel → α) : Touchless (Lib.fetch f : Code α) := fun s => Same.refl s

theorem change {f : Kernel → Kernel} (hf : ∀ s, Same s (f s)) : Touchless (Lib.change f) := hf

theorem bind {m : Code α} {f : α → Code β} (hm : Touchless m) (hf : ∀ a, Touchless (f a)) :
    Touchless (m >>= f) := fun s =>
  (hm s).bind fun a s' hs => ((hf a s').mono (fun _ _ h => hs.trans h) fun _ _ h => hs.trans h)

theorem ite {p : Prop} [Decidable p] {m m' : Code α} (h : Touchless m) (h' : Touchless m') :
    Touchless (if p then m else m') := fun s => Ends.ite (fun _ => h s) fun _ => h' s

theorem forEach {body : α → Code Unit} (h : ∀ a, Touchless (body a)) :
    ∀ l, Touchless (Lib.forEach body l) := by
  intro l
  induction l with
  | nil => exact pure ()
  | cons a rest ih => exact bind (h a) fun _ => ih

theorem orStop (r : Except Fault α) : Touchless (Vm.orStop r) := by
  cases r with
  | ok a => exact pure a
  | error e => exact stop _

theorem assert (c : Bool) : Touchless (Vm.assert c) := ite (pure ()) (stop _)

theorem threadCurrent : Touchless Vm.threadCurrent := by
  refine bind (fetch _) fun o => ?_
  cases o with
  | none => exact stop _
  | some th => exact pure th

theorem malloc : Touchless Vm.malloc :=
  bind (fetch _) fun _ => bind (change fun _ => .of_threads rfl rfl rfl rfl rfl rfl rfl) fun _ => pure _

theorem lockAcquire (l : Lock) : Touchless (Vm.lockAcquire l) :=
  bind (fetch _) fun _ => bind (fetch _) fun _ => ite (pure ()) <| ite
    (bind (change fun _ => .of_threads rfl rfl rfl rfl rfl rfl rfl) fun _ => stop _)
    (change fun _ => .of_threads rfl rfl rfl rfl rfl rfl rfl)

theorem lockRelease (l : Lock) : Touchless (Vm.lockRelease l) :=
  bind (fetch _) fun _ => bind (fetch _) fun _ => ite (pure ()) <| bind (assert _) fun _ =>
    change fun _ => .of_threads rfl rfl rfl rfl rfl rfl rfl

theorem threadExit : Touchless Vm.threadExit :=
  bind (change fun _ => .updateCurrent (fun _ => rfl) (fun _ => rfl) fun _ => rfl) fun _ => stop _

theorem getFile {bad : Code Empty} (h : Touchless bad) (fd : ℕ) : Touchless (Vm.getFile bad fd) := by
  refine bind threadCurrent fun th => ite (bind h fun e => e.elim) ?_
  cases th.openFile (fd - 2) with
  | none => exact bind h fun e => e.elim
  | some file => exact pure file

theorem myClose {bad : Code Empty} (h : Touchless bad) (fd : ℕ) : Touchless (Vm.myClose bad fd) :=
  bind (getFile h fd) fun _ =>
    bind (change fun _ => .updateCurrent (fun _ => rfl) (fun _ => rfl) fun _ => rfl) fun _ =>
      bind (lockAcquire _) fun _ => lockRelease _

theorem exitStatus : ∀ fuel, Touchless (Vm.exitStatus fuel) := by
  intro fuel
  induction fuel with
  | zero => exact stop _
  | succ fuel ih =>
      refine bind (forEach (fun n => ?_) _) fun _ => threadExit
      exact bind threadCurrent fun th => ite (myClose ih n) (pure ())

theorem setSwapState (w : SwapState) : Touchless (Lib.change fun s => s.setSwapState w) :=
  change fun s =>
    have h : Same s { s with swap := w.swap, mem := w.mem } := .of_threads rfl rfl rfl rfl rfl rfl rfl
    h.trans (.updateCurrent (fun _ => rfl) (fun _ => rfl) fun _ => rfl)

theorem loadSwap (fuel uaddr : ℕ) (swapIndex : ℤ) :
    Touchless (Vm.loadSwap fuel uaddr swapIndex) := by
  refine bind (fetch _) fun _ => ite (stop _) <| bind (lockAcquire _) fun _ =>
    bind threadCurrent fun th => bind (fetch _) fun _ => bind (orStop _) fun _ =>
      bind (assert _) fun _ => ?_
  cases th.writeAddr uaddr with
  | none => exact bind (exitStatus fuel) fun e => e.elim
  | some dest =>
      exact bind (orStop _) fun w => bind (setSwapState w) fun _ => lockRelease _

theorem fileSeek (file : ℕ) (newPos : ℤ) : Touchless (Vm.fileSeek file newPos) :=
  bind (assert _) fun _ => change fun _ => .of_threads rfl rfl rfl rfl rfl rfl rfl

theorem fileRead (file addr size : ℕ) : Touchless (Vm.fileRead file addr size) :=
  bind (fetch _) fun _ => bind (change fun _ => .of_threads rfl rfl rfl rfl rfl rfl rfl) fun _ => pure _

theorem readHeader (file size : ℕ) : Touchless (Vm.readHeader file size) :=
  bind (fetch _) fun _ => bind (change fun _ => .of_threads rfl rfl rfl rfl rfl rfl rfl) fun _ => pure _

theorem filesysOpen (name : List UInt8) : Touchless (Vm.filesysOpen name) := by
  refine bind (fetch _) fun o => ?_
  cases o with
  | none => exact pure none
  | some image =>
      exact bind (fetch _) fun _ =>
        bind (change fun _ => .of_threads rfl rfl rfl rfl rfl rfl rfl) fun _ => pure _

theorem createSupPage (file : ℕ) (ofs : ℤ) (addr readBytes zeroBytes : ℕ) (writable : Bool) :
    Touchless (Vm.createSupPage file ofs addr readBytes zeroBytes writable) :=
  bind malloc fun _ => bind (assert _) fun _ =>
    change fun _ => .updateCurrent (fun _ => rfl) (fun _ => rfl) fun _ => rfl

theorem copyLine (page : ℕ) (cmdline : List UInt8) : Touchless (Vm.copyLine page cmdline) :=
  change fun _ => .of_threads rfl rfl rfl rfl rfl rfl rfl

theorem setExecFile (file : Option ℕ) : Touchless (Vm.setExecFile file) :=
  change fun _ => .updateCurrent (fun _ => rfl) (fun _ => rfl) fun _ => rfl

theorem userStore (fuel : ℕ) (store : ℕ × UInt8) : Touchless (Vm.userStore fuel store) := by
  refine bind threadCurrent fun th => ?_
  cases th.writeAddr store.1 with
  | none => exact bind (exitStatus fuel) fun e => e.elim
  | some dest => exact change fun _ => .of_threads rfl rfl rfl rfl rfl rfl rfl

end Touchless

end Pintos.Vm
