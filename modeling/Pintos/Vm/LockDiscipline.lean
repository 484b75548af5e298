import Pintos.Vm.FaultHandler

/-!
# The locks of the virtual memory code

`frame_lock`, `swap_lock` and `filesys_lock` are taken by hand, in functions that call one another.  A
lock that its holder takes again fails an assertion; a lock that is still held when the call returns is
never released.

`Obeys H m H'` says of a command, started by a thread that holds exactly the locks `H`, that it takes
no lock it holds, and holds exactly the locks `H'` when it returns.  The locks are kept as a stack, since
the code releases them in the opposite order.

Two of the five functions break the rule: `store_swap` ends with `lock_acquire` where it should
release, and `page_fault` calls `get_frame` with `frame_lock` in its hands.

* **`disciplined_iff`** — exactly when a call keeps to the rule.
-/

namespace Pintos.Vm

open Lib

/-! ## Events -/

/-- What happened to the locks since `s0`, and none was taken by its holder. -/
def Orderly (s0 s : Kernel) : Prop :=
  ∃ events, s.lockLog = s0.lockLog ++ events ∧ ∀ l, LockEvent.reacquired l ∉ events

/-- The running thread holds exactly the locks `H`. -/
structure Holding (s0 : Kernel) (H : List Lock) (s : Kernel) : Prop where
  locking : s.locking = true
  orderly : Orderly s0 s
  holds : ∀ l, s.holder l = some s.current ↔ l ∈ H

/-- From `H`, `m` takes no lock twice, and returns with `H'`. -/
def Obeys {α : Type} (H : List Lock) (m : Code α) (H' : List Lock) : Prop :=
  ∀ s0 s, Holding s0 H s → Ends (m s) (fun _ s' => Holding s0 H' s') fun _ s' => Orderly s0 s'

/-- Nothing happens to the locks. -/
structure Quiet (s s' : Kernel) : Prop where
  locking : s'.locking = s.locking
  lockLog : s'.lockLog = s.lockLog
  holder : s'.holder = s.holder
  current : s'.current = s.current

instance : Std.Refl Quiet := ⟨fun _ => ⟨rfl, rfl, rfl, rfl⟩⟩

instance : IsTrans Kernel Quiet :=
  ⟨fun _ _ _ h h' => ⟨h'.locking.trans h.locking, h'.lockLog.trans h.lockLog,
    h'.holder.trans h.holder, h'.current.trans h.current⟩⟩

section Rules

variable {α β : Type} {s0 s s' : Kernel} {H H' H'' : List Lock} {l : Lock}

theorem Orderly.refl (s : Kernel) : Orderly s s := ⟨[], (List.append_nil _).symm, fun _ => List.not_mem_nil⟩

/-- One more event. -/
theorem Orderly.log (h : Orderly s0 s) {e : LockEvent} (he : ∀ l, e ≠ .reacquired l)
    (hlog : s'.lockLog = s.lockLog ++ [e]) : Orderly s0 s' := by
  obtain ⟨events, hevents, hnone⟩ := h
  refine ⟨events ++ [e], by rw [hlog, hevents, List.append_assoc], fun l hl => ?_⟩
  rcases List.mem_append.mp hl with hl | hl
  · exact hnone l hl
  · exact he l (List.mem_singleton.mp hl).symm

theorem Quiet.orderly (h : Quiet s s') (hs : Orderly s0 s) : Orderly s0 s' := by
  rw [Orderly, h.lockLog]
  exact hs

theorem Quiet.holding (h : Quiet s s') (hs : Holding s0 H s) : Holding s0 H s' where
  locking := h.locking.trans hs.locking
  orderly := h.orderly hs.orderly
  holds l := by
    rw [h.holder, h.current]
    exact hs.holds l

namespace Obeys

theorem pure (a : α) : Obeys H (Pure.pure a) H := fun _ _ h => h

theorem stop (e : Stop) : Obeys H (Lib.stop e : Code α) H' := fun _ _ h => h.orderly

theorem fetch (f : Kernel → α) : Obeys H (Lib.fetch f) H := fun _ _ h => h

/-- **Code that leaves the locks alone.** -/
theorem of_quiet {m : Code α} (h : Moves Quiet m) : Obeys H m H := by
  intro s0 s hs
  have hq := h s
  cases hrun : m s with
  | ok a s' =>
      rw [hrun] at hq
      exact hq.holding hs
  | error e s' =>
      rw [hrun] at hq
      exact hq.orderly hs.orderly

/-- **Sequencing.** -/
theorem bind {m : Code α} {f : α → Code β} (h : Obeys H m H') (hf : ∀ a, Obeys H' (f a) H'') :
    Obeys H (m >>= f) H'' :=
  fun s0 s hs => Ends.bind (h s0 s hs) fun a s' hs' => hf a s0 s' hs'

theorem ite {c : Prop} [Decidable c] {m m' : Code α} (h : Obeys H m H') (h' : Obeys H m' H') :
    Obeys H (if c then m else m') H' := by
  split
  · exact h
  · exact h'

/-- Code that does not return, before anything. -/
theorem never {m : Code Empty} {f : Empty → Code β} (h : Obeys H m H) : Obeys H (m >>= f) H' :=
  bind h fun a => a.elim

/-- **A lock is taken** that the thread does not hold. -/
theorem acquire (h : l ∉ H) : Obeys H (lockAcquire l) (l :: H) := by
  intro s0 s hs
  rw [lockAcquire_free hs.locking fun he => h ((hs.holds l).mp he)]
  refine ⟨hs.locking, hs.orderly.log (by simp) rfl, fun l' => ?_⟩
  show Function.update s.holder l (some s.current) l' = some s.current ↔ _
  rw [Function.update_apply, List.mem_cons]
  split
  · next he => exact iff_of_true rfl (.inl he)
  · next he => rw [hs.holds l', or_iff_right he]

/-- **The lock taken last is released.** -/
theorem release (h : l ∉ H) : Obeys (l :: H) (lockRelease l) H := by
  intro s0 s hs
  have hheld : s.holder l = some s.current := (hs.holds l).mpr List.mem_cons_self
  have hrun : lockRelease l s = .ok () { s with
      holder := Function.update s.holder l none
      lockLog := s.lockLog ++ [.released l] } := by
    simp [lockRelease, hs.locking, hheld, Vm.assert]
  rw [hrun]
  refine ⟨hs.locking, hs.orderly.log (by simp) rfl, fun l' => ?_⟩
  show Function.update s.holder l none l' = some s.current ↔ _
  rw [Function.update_apply]
  split
  · next he =>
      subst he
      exact iff_of_false (by simp) h
  · next he => rw [hs.holds l', List.mem_cons, or_iff_right he]

end Obeys

end Rules

/-! ## Code without locks -/

namespace Quiet

variable {α : Type}

theorem assert (c : Bool) : Moves Quiet (Vm.assert c) := Moves.ite (Moves.pure ()) (Moves.stop _)

theorem orStop (r : Except Fault α) : Moves Quiet (Vm.orStop r) := by
  cases r with
  | ok a => exact Moves.pure a
  | error e => exact Moves.stop _

theorem threadCurrent : Moves Quiet Vm.threadCurrent := by
  refine Moves.bind (Moves.fetch _) fun th => ?_
  cases th with
  | none => exact Moves.stop _
  | some th => exact Moves.pure th

theorem malloc : Moves Quiet Vm.malloc :=
  Moves.bind (Moves.fetch _) fun _ => Moves.bind (Moves.change fun _ => ⟨rfl, rfl, rfl, rfl⟩) fun _ =>
    Moves.pure _

theorem pallocGetPage (flags : PallocFlags) : Moves Quiet (Vm.pallocGetPage flags) := by
  refine Moves.bind (Moves.fetch _) fun pool => ?_
  rcases bitmapScanAndFlip pool.usedMap 0 1 false with ⟨_ | idx, usedMap⟩
  · exact Moves.bind (assert _) fun _ => Moves.pure _
  · exact Moves.bind (Moves.change fun _ => ⟨rfl, rfl, rfl, rfl⟩) fun _ => Moves.pure _

theorem pallocFreePage (page : ℕ) : Moves Quiet (Vm.pallocFreePage page) := by
  have hpool : ∀ n, Moves Quiet (freeInPool n page) := fun n => by
    refine Moves.bind (Moves.fetch _) fun _ =>
      Moves.bind (Moves.change fun _ => ⟨rfl, rfl, rfl, rfl⟩) fun _ => ?_
    refine Moves.bind (orStop _) fun _ => Moves.bind (assert _) fun _ => ?_
    exact Moves.bind (orStop _) fun _ => Moves.change fun _ => ⟨rfl, rfl, rfl, rfl⟩
  refine Moves.bind (assert _) fun _ => Moves.ite (Moves.pure ()) ?_
  refine Moves.bind (Moves.fetch _) fun _ => Moves.bind (Moves.fetch _) fun _ => ?_
  exact Moves.ite (hpool _) (Moves.ite (hpool _) (Moves.stop _))

theorem freeUnless (used : Bool) (page : ℕ) : Moves Quiet (Vm.freeUnless used page) :=
  Moves.ite (Moves.pure ()) (Moves.bind (Moves.change fun _ => ⟨rfl, rfl, rfl, rfl⟩) fun _ =>
    pallocFreePage page)

theorem lookupPage (vaddr : ℕ) (create : Bool) : Moves Quiet (Vm.lookupPage vaddr create) := by
  refine Moves.bind threadCurrent fun th => ?_
  cases th.pagedir with
  | none => exact Moves.stop _
  | some pd =>
      refine Moves.bind (assert _) fun _ => ?_
      cases pd.tables (pdNo vaddr) with
      | some pt => exact Moves.pure _
      | none =>
          refine Moves.ite (Moves.bind (pallocGetPage _) fun found => ?_) (Moves.pure _)
          cases found with
          | none => exact Moves.pure _
          | some page => exact Moves.bind (Moves.change fun _ => ⟨rfl, rfl, rfl, rfl⟩) fun _ => Moves.pure _

theorem pagedirSetPage (upage kpage : ℕ) (writable : Bool) :
    Moves Quiet (Vm.pagedirSetPage upage kpage writable) := by
  refine Moves.bind (assert _) fun _ => Moves.bind (assert _) fun _ => ?_
  refine Moves.bind (assert _) fun _ => Moves.bind (assert _) fun _ => ?_
  refine Moves.bind (Moves.fetch _) fun _ => Moves.bind (assert _) fun _ => ?_
  refine Moves.bind (lookupPage _ _) fun found => ?_
  cases found with
  | none => exact Moves.pure _
  | some pt =>
      refine Moves.bind (assert _) fun _ => ?_
      exact Moves.bind (Moves.change fun _ => ⟨rfl, rfl, rfl, rfl⟩) fun _ => Moves.pure _

end Quiet

/-! ## Leaving -/

section Exit

variable {H : List Lock}

/-- One round of the loop of `exit_status`. -/
theorem obeys_closeNext (h : Lock.filesys ∉ H) {bad : Code Empty} (hbad : Obeys H bad H) (n : ℕ) :
    Obeys H (closeNext bad n) H := by
  have hget : Obeys H (getFile bad n) H := by
    refine Obeys.bind (Obeys.of_quiet Quiet.threadCurrent) fun th => Obeys.ite (Obeys.never hbad) ?_
    cases th.openFile (n - 2) with
    | none => exact Obeys.never hbad
    | some file => exact Obeys.pure file
  refine Obeys.bind (Obeys.of_quiet Quiet.threadCurrent) fun th => Obeys.ite ?_ (Obeys.pure ())
  refine Obeys.bind hget fun _ => ?_
  refine Obeys.bind (Obeys.of_quiet (Moves.change fun _ => ⟨rfl, rfl, rfl, rfl⟩)) fun _ => ?_
  exact Obeys.bind (Obeys.acquire h) fun _ => Obeys.release h

theorem obeys_forEach {α : Type} {body : α → Code Unit} (h : ∀ a, Obeys H (body a) H) :
    ∀ l, Obeys H (forEach body l) H
  | [] => Obeys.pure ()
  | a :: l => Obeys.bind (h a) fun _ => obeys_forEach h l

/-- **`exit_status`** closes files under `filesys_lock`, one at a time. -/
theorem obeys_exitStatus (h : Lock.filesys ∉ H) (fuel : ℕ) : Obeys H (exitStatus fuel) H := by
  induction fuel with
  | zero => exact Obeys.stop _
  | succ fuel ih =>
      refine Obeys.bind (obeys_forEach (fun n => obeys_closeNext h ih n) _) fun _ => ?_
      exact Obeys.bind (Obeys.of_quiet (Moves.change fun _ => ⟨rfl, rfl, rfl, rfl⟩)) fun _ => Obeys.stop _

end Exit

/-! ## `store_swap` and `load_swap` -/

section Swap

variable {s0 s s' : Kernel} {H : List Lock} {page : ℕ}

/-- A lock was taken by its holder. -/
theorem not_orderly {l : Lock} {more : List LockEvent} (h : s'.lockLog = s0.lockLog ++ more)
    (hl : .reacquired l ∈ more) : ¬ Orderly s0 s' := by
  rintro ⟨events, hevents, hnone⟩
  rw [h] at hevents
  exact hnone l (List.append_cancel_left hevents ▸ hl)

/-- `lock_init` is only called before anybody has the lock. -/
theorem obeys_ensureSwap (h : Lock.swap ∉ H) : Obeys H ensureSwap H := by
  refine Obeys.bind (Obeys.fetch _) fun _ => Obeys.ite (Obeys.pure ()) ?_
  refine Obeys.bind (Obeys.fetch _) fun _ => Obeys.bind (Obeys.of_quiet (Quiet.assert _)) fun _ => ?_
  refine Obeys.bind (Obeys.of_quiet Quiet.malloc) fun _ =>
    Obeys.bind (Obeys.of_quiet (Quiet.assert _)) fun _ => ?_
  refine Obeys.bind (Obeys.fetch _) fun s => Obeys.bind (Obeys.of_quiet (Quiet.orStop _)) fun swap => ?_
  intro s0 s hs
  refine ⟨hs.locking, hs.orderly, fun l => ?_⟩
  show Function.update s.holder .swap none l = some s.current ↔ _
  rw [Function.update_apply]
  split
  · next he =>
      subst he
      exact iff_of_false (by simp) h
  · next he => exact hs.holds l

/-- The start of `store_swap`. -/
theorem ensureSwap_ends (h : Lock.swap ∉ H) (hs : Holding s0 H s) :
    Ends (ensureSwap s) (fun _ s' => s.SwapReady ∧ s' = s.withSwap ∧ Holding s0 H s')
      fun _ s' => Orderly s0 s' :=
  ((obeys_ensureSwap h s0 s hs).and (ensureSwap_exact s)).mono (fun _ _ h => ⟨h.2.1, h.2.2, h.1⟩)
    fun _ _ h => h.1

/-- **A page that cannot be stored** stops `store_swap` before its last line. -/
theorem storeSwap_orderly (hswap : Lock.swap ∉ H) (hs : Holding s0 H s) (h : ¬ ∃ i, CanStore s page i) :
    Ends (storeSwap page s) (fun _ _ => False) fun _ s' => Orderly s0 s' := by
  obtain ⟨-, -, -, -, hcur, hthreads⟩ := withSwap_rest s
  unfold storeSwap
  refine (ensureSwap_ends hswap hs).bind fun _ s1 h1 => ?_
  obtain ⟨hready, rfl, hs1⟩ := h1
  have hfree : s.withSwap.holder .swap ≠ some s.withSwap.current := fun he => hswap ((hs1.holds _).mp he)
  have hs2 := Obeys.acquire hswap s0 _ hs1
  rw [lockAcquire_free hs1.locking hfree] at hs2
  rw [bind_of_ok (lockAcquire_free hs1.locking hfree)]
  refine ends_threadCurrent (fun th hth => ?_) hs2.orderly
  simp only [fetch_bind, id]
  refine ends_orStop (fun w hw => absurd ?_ h) fun _ => hs2.orderly
  obtain ⟨i, hi⟩ := storable_of_ok hw
  obtain ⟨hslot, hfits, e, he⟩ := storable_iff.mp hi
  exact ⟨i, hready, hslot, hfits, th, e, by rw [← hthreads, ← hcur]; exact hth, he⟩

/-- **A page that is stored**: the last line takes the lock a second time. -/
theorem storeSwap_breaks (hswap : Lock.swap ∉ H) (hs : Holding s0 H s) (h : ∃ i, CanStore s page i) :
    ∃ e s', storeSwap page s = .error e s' ∧ ¬ Orderly s0 s' := by
  obtain ⟨i, hready, hslot, hfits, th, entry, hth, hentry⟩ := h
  obtain ⟨-, -, -, -, hcur, hthreads⟩ := withSwap_rest s
  obtain ⟨_, s1, hrun, rfl⟩ := (ensureSwap_exact s).returns hready
  have hs1 := ensureSwap_ends hswap hs
  rw [hrun] at hs1
  obtain ⟨-, -, hs1⟩ := hs1
  have hfree : s.withSwap.holder .swap ≠ some s.withSwap.current := fun he => hswap ((hs1.holds _).mp he)
  set s2 : Kernel := { s.withSwap with
    holder := Function.update s.withSwap.holder .swap (some s.withSwap.current)
    lockLog := s.withSwap.lockLog ++ [.acquired .swap] } with hs2
  have hacquire : lockAcquire .swap s.withSwap = .ok () s2 := lockAcquire_free hs1.locking hfree
  have hth2 : s2.threads s2.current = some th := by
    show s.withSwap.threads s.withSwap.current = _
    rw [hthreads, hcur, hth]
  obtain ⟨dev, table, hstore, -⟩ := storeSlot_ok (storable_iff.mpr ⟨hslot, hfits, entry, hentry⟩)
  set s3 := s2.setSwapState ⟨{ s.withSwap.swap with
    role := some dev, swapBitmap := s.withSwap.swap.swapBitmap.setRange i 1 true }, s.withSwap.mem, table⟩ with hs3
  have hheld : s3.holder .swap = some s3.current := by
    show Function.update s.withSwap.holder .swap (some s.withSwap.current) .swap = some s.withSwap.current
    exact Function.update_self ..
  set s4 : Kernel := { s3 with lockLog := s3.lockLog ++ [.reacquired .swap] } with hs4
  have hstop : lockAcquire .swap s3 = .error .panicked s4 := lockAcquire_held hs1.locking hheld
  obtain ⟨events, hevents, -⟩ := hs1.orderly
  have hlog : s4.lockLog = s0.lockLog ++ (events ++ [.acquired .swap, .reacquired .swap]) := by
    show s.withSwap.lockLog ++ [.acquired .swap] ++ [.reacquired .swap] = _
    rw [hevents, List.append_assoc, List.append_assoc]
    rfl
  have hmem : LockEvent.reacquired .swap ∈ events ++ [.acquired .swap, .reacquired .swap] := by simp
  refine ⟨.panicked, s4, ?_, not_orderly hlog hmem⟩
  rw [storeSwap, bind_of_ok hrun, bind_of_ok hacquire, bind_of_ok (threadCurrent_run hth2), fetch_bind]
  simp only [id]
  rw [show s2.swapState th = s.withSwap.swapState th from rfl, hstore, bind_of_ok (orStop_run _)]
  simp only [change_bind]
  exact bind_of_error hstop

/-- **`load_swap`** releases its lock. -/
theorem obeys_loadSwap (hswap : Lock.swap ∉ H) (hfilesys : Lock.filesys ∉ H) (fuel uaddr : ℕ) (swapIndex : ℤ) :
    Obeys H (loadSwap fuel uaddr swapIndex) H := by
  refine Obeys.bind (Obeys.fetch _) fun _ => Obeys.ite (Obeys.stop _) ?_
  refine Obeys.bind (Obeys.acquire hswap) fun _ => Obeys.bind (Obeys.of_quiet Quiet.threadCurrent) fun th => ?_
  refine Obeys.bind (Obeys.fetch _) fun s => Obeys.bind (Obeys.of_quiet (Quiet.orStop _)) fun valid => ?_
  refine Obeys.bind (Obeys.of_quiet (Quiet.assert _)) fun _ => ?_
  cases th.writeAddr uaddr with
  | none =>
      have hexit : Lock.filesys ∉ Lock.swap :: H := by simpa using hfilesys
      exact Obeys.never (obeys_exitStatus hexit fuel)
  | some dest =>
      refine Obeys.bind (Obeys.of_quiet (Quiet.orStop _)) fun w => ?_
      refine Obeys.bind (Obeys.of_quiet (Moves.change fun _ => ⟨rfl, rfl, rfl, rfl⟩)) fun _ => ?_
      exact Obeys.release hswap

end Swap

/-! ## Frames -/

section Frames

variable {s0 s s' : Kernel} {H : List Lock} {flags : PallocFlags}

/-- The frame at the front of `fifo_list` can be stored. -/
def Kernel.Evicts (s : Kernel) : Prop := ∃ f rest i, s.fifoList = f :: rest ∧ CanStore s f.page i

/-- `get_frame` comes to store a page. -/
def Kernel.EvictsFor (s : Kernel) (flags : PallocFlags) : Prop :=
  s.Full flags.pool ∧ flags.assert = false ∧ s.Evicts

theorem evictFrame_orderly (hswap : Lock.swap ∉ H) (hs : Holding s0 H s) (h : ¬ s.Evicts) :
    Ends (evictFrame s) (fun _ _ => False) fun _ s' => Orderly s0 s' := by
  unfold evictFrame
  rw [fetch_bind]
  cases hfifo : s.fifoList with
  | nil => exact hs.orderly
  | cons f rest =>
      simp only [change_bind]
      have hpopped : Holding s0 H { s with fifoList := rest } := ⟨hs.locking, hs.orderly, hs.holds⟩
      have hstore : ¬ ∃ i, CanStore { s with fifoList := rest } f.page i := by
        rintro ⟨i, hi⟩
        exact h ⟨f, rest, i, hfifo, canStore_popped.mp hi⟩
      exact (storeSwap_orderly hswap hpopped hstore).bind fun _ _ h => h.elim

theorem evictFrame_breaks (hswap : Lock.swap ∉ H) (hs : Holding s0 H s) (h : s.Evicts) :
    ∃ e s', evictFrame s = .error e s' ∧ ¬ Orderly s0 s' := by
  obtain ⟨f, rest, i, hfifo, hi⟩ := h
  have hpopped : Holding s0 H { s with fifoList := rest } := ⟨hs.locking, hs.orderly, hs.holds⟩
  obtain ⟨e, s', hrun, hlog⟩ := storeSwap_breaks hswap hpopped ⟨i, canStore_popped.mpr hi⟩
  refine ⟨e, s', ?_, hlog⟩
  unfold evictFrame
  rw [fetch_bind, hfifo]
  simp only [change_bind]
  rw [bind_of_error hrun]

/-- The state in which `get_frame` has its lock. -/
def Kernel.withFrameLock (s : Kernel) : Kernel :=
  { s with
    holder := Function.update s.holder .frame (some s.current)
    lockLog := s.lockLog ++ [.acquired .frame] }

theorem evictsFor_withFrameLock : s.withFrameLock.EvictsFor flags ↔ s.EvictsFor flags := by
  have hstore : ∀ page i, CanStore s.withFrameLock page i ↔ CanStore s page i := fun page i =>
    ⟨fun h => ⟨h.ready, h.slot, h.fits, h.entry⟩, fun h => ⟨h.ready, h.slot, h.fits, h.entry⟩⟩
  simp only [Kernel.EvictsFor, Kernel.Evicts, hstore]
  exact Iff.rfl

theorem lockFrame_run (hframe : Lock.frame ∉ H) (hs : Holding s0 H s) :
    lockAcquire .frame s = .ok () s.withFrameLock ∧ Holding s0 (.frame :: H) s.withFrameLock := by
  have hrun : lockAcquire .frame s = .ok () s.withFrameLock :=
    lockAcquire_free hs.locking fun he => hframe ((hs.holds _).mp he)
  have hs1 := Obeys.acquire hframe s0 s hs
  rw [hrun] at hs1
  exact ⟨hrun, hs1⟩

/-- A page is found, or the kernel stops. -/
theorem findPage_orderly (hswap : Lock.swap ∉ H) (hs : Holding s0 H s) (h : ¬ s.EvictsFor flags) :
    Ends (findPage flags s) (fun _ s' => Holding s0 H s') fun _ s' => Orderly s0 s' := by
  have hpalloc : Ends (pallocGetPage flags s) (fun _ s' => Holding s0 H s') fun _ s' => Orderly s0 s' :=
    Obeys.of_quiet (Quiet.pallocGetPage flags) s0 s hs
  unfold findPage
  by_cases hfull : s.Full flags.pool
  · refine (hpalloc.and (pallocGetPage_full hfull)).mono (fun _ _ h => h) (fun _ _ h => h.1)
      |>.bind fun found s1 h1 => ?_
    obtain ⟨hs1, hassert, rfl, rfl⟩ := h1
    have hevict : ¬ s1.Evicts := fun he => h ⟨hfull, hassert, he⟩
    exact (evictFrame_orderly hswap hs1 hevict).bind fun _ _ h => h.elim
  · obtain ⟨idx, hscan⟩ := Option.ne_none_iff_exists'.mp hfull
    obtain ⟨page, s1, hrun, -⟩ := pallocGetPage_free hscan
    rw [hrun] at hpalloc
    rw [bind_of_ok hrun]
    exact hpalloc

theorem obeys_recordFrame (hfilesys : Lock.filesys ∉ H) (fuel : ℕ) (found : Option ℕ) :
    Obeys H (recordFrame fuel found) H := by
  cases found with
  | none => exact Obeys.pure ()
  | some page =>
      refine Obeys.bind (Obeys.of_quiet Quiet.malloc) fun _ => Obeys.ite ?_ ?_
      · exact Obeys.of_quiet (Moves.change fun _ => ⟨rfl, rfl, rfl, rfl⟩)
      · exact Obeys.never (obeys_exitStatus hfilesys fuel)

/-- **`get_frame`** that stores no page. -/
theorem getFrame_orderly (hfree : ∀ l, l ∉ H) (fuel : ℕ) (hs : Holding s0 H s) (h : ¬ s.EvictsFor flags) :
    Ends (getFrame fuel flags s) (fun _ s' => Holding s0 H s') fun _ s' => Orderly s0 s' := by
  obtain ⟨hrun, hs1⟩ := lockFrame_run (hfree _) hs
  have hother : ∀ l, l ≠ .frame → l ∉ Lock.frame :: H := fun l hl hm =>
    (List.mem_cons.mp hm).elim hl (hfree l)
  rw [getFrame, bind_of_ok hrun]
  have hfind := findPage_orderly (hother .swap (by simp)) hs1 (mt evictsFor_withFrameLock.mp h)
  refine hfind.bind fun found s2 hs2 => ?_
  refine (obeys_recordFrame (hother .filesys (by simp)) fuel found s0 s2 hs2).bind fun _ s3 hs3 => ?_
  exact (Obeys.release (hfree _) s0 s3 hs3).bind fun _ s4 hs4 => hs4

/-- **`get_frame` that stores a page.** -/
theorem getFrame_breaks (hfree : ∀ l, l ∉ H) (fuel : ℕ) (hs : Holding s0 H s) (h : s.EvictsFor flags) :
    ∃ e s', getFrame fuel flags s = .error e s' ∧ ¬ Orderly s0 s' := by
  obtain ⟨hrun, hs1⟩ := lockFrame_run (hfree _) hs
  obtain ⟨hfull, hassert, hevicts⟩ := evictsFor_withFrameLock.mpr h
  have hswap : Lock.swap ∉ Lock.frame :: H := by simpa using hfree .swap
  obtain ⟨found, s2, hpalloc, rfl, rfl⟩ := (pallocGetPage_full hfull).returns hassert
  obtain ⟨e, s', hevict, hlog⟩ := evictFrame_breaks hswap hs1 hevicts
  refine ⟨e, s', ?_, hlog⟩
  have hfind : findPage flags s.withFrameLock = .error e s' := by
    rw [findPage, bind_of_ok hpalloc]
    simp only []
    rw [bind_of_error hevict]
  rw [getFrame, bind_of_ok hrun, bind_of_error hfind]

end Frames

/-! ## Page faults -/

section Faults

variable {s0 s s' : Kernel} {info : FaultInfo} {spage : SupPage}

/-- After `get_frame`, the page is mapped under both locks and read under the third. -/
theorem faultInSwap_orderly (fuel : ℕ) (hs : Holding s0 [] s) (h : ¬ s.EvictsFor { user := true }) :
    Ends (faultInSwap fuel spage s) (fun _ s' => Holding s0 [] s') fun _ s' => Orderly s0 s' := by
  refine (getFrame_orderly (fun _ => List.not_mem_nil) fuel hs h).bind fun frame s1 hs1 => ?_
  have hrest : Obeys [] (do
      lockAcquire .filesys
      lockAcquire .frame
      let mapped ← pagedirSetPage spage.vAddr (frame.getD 0) spage.writable
      freeUnless mapped (frame.getD 0)
      lockRelease .frame
      lockRelease .filesys
      loadSwap fuel spage.vAddr spage.swapIndex) [] := by
    refine Obeys.bind (Obeys.acquire List.not_mem_nil) fun _ => ?_
    refine Obeys.bind (Obeys.acquire (by simp)) fun _ => ?_
    refine Obeys.bind (Obeys.of_quiet (Quiet.pagedirSetPage _ _ _)) fun mapped => ?_
    refine Obeys.bind (Obeys.of_quiet (Quiet.freeUnless _ _)) fun _ => ?_
    refine Obeys.bind (Obeys.release (by simp)) fun _ => ?_
    refine Obeys.bind (Obeys.release List.not_mem_nil) fun _ => ?_
    exact obeys_loadSwap List.not_mem_nil List.not_mem_nil fuel _ _
  exact hrest s0 s1 hs1

/-- A page of zeros needs a frame and no lock. -/
theorem faultAllZero_orderly (fuel upage : ℕ) (hs : Holding s0 [] s) (h : ¬ s.EvictsFor { user := true }) :
    Ends (faultAllZero fuel upage spage s) (fun _ s' => Holding s0 [] s') fun _ s' => Orderly s0 s' := by
  refine (getFrame_orderly (fun _ => List.not_mem_nil) fuel hs h).bind fun frame s1 hs1 => ?_
  have hrest : Obeys [] (do
      let th ← threadCurrent
      let table ← orStop (changePageLocation upage .inMemory spage.swapIndex th.supPageTable)
      change fun s => s.updateCurrent fun th => { th with supPageTable := table }) [] := by
    refine Obeys.bind (Obeys.of_quiet Quiet.threadCurrent) fun th => ?_
    refine Obeys.bind (Obeys.of_quiet (Quiet.orStop _)) fun table => ?_
    exact Obeys.of_quiet (Moves.change fun _ => ⟨rfl, rfl, rfl, rfl⟩)
  exact hrest s0 s1 hs1

/-- **A page on disk**: `get_frame` takes `frame_lock`, which the handler holds. -/
theorem faultInDisk_breaks (fuel : ℕ) (hs : Holding s0 [] s) :
    ∃ e s', faultInDisk fuel spage s = .error e s' ∧ ¬ Orderly s0 s' := by
  have hfilesys : s.holder .filesys ≠ some s.current := fun he => absurd ((hs.holds _).mp he) List.not_mem_nil
  set s1 : Kernel := { s with
    holder := Function.update s.holder .filesys (some s.current)
    lockLog := s.lockLog ++ [.acquired .filesys] } with hs1
  have hacquire : lockAcquire .filesys s = .ok () s1 := lockAcquire_free hs.locking hfilesys
  have h1 := Obeys.acquire (List.not_mem_nil : Lock.filesys ∉ []) s0 s hs
  rw [hacquire] at h1
  obtain ⟨hrun, h2⟩ := lockFrame_run (by simp) h1
  have hheld := (h2.holds .frame).mpr List.mem_cons_self
  have hframe := lockAcquire_held h2.locking hheld
  obtain ⟨events, hevents, -⟩ := h2.orderly
  have hmem : LockEvent.reacquired .frame ∈ events ++ [.reacquired .frame] := by simp
  refine ⟨.panicked, { s1.withFrameLock with
    lockLog := s1.withFrameLock.lockLog ++ [.reacquired .frame] }, ?_, not_orderly ?_ hmem⟩
  · have hget : getFrame fuel { user := true } s1.withFrameLock = .error .panicked _ := bind_of_error hframe
    rw [faultInDisk, bind_of_ok hacquire, bind_of_ok hrun, bind_of_error hget]
  · show s1.withFrameLock.lockLog ++ _ = _
    rw [hevents, List.append_assoc]

/-- The fault reads the supplemental record `spage`. -/
structure Reads (s : Kernel) (info : FaultInfo) (spage : SupPage) : Prop where
  kernel : info.user = false
  read : info.write = false
  below : info.addr < physBase
  absent : info.notPresent = true
  entry : entryOf s.records (info.addr / pgSize * pgSize) = some spage

/-- What `page_fault` does about that record. -/
def faultAt (fuel upage : ℕ) (spage : SupPage) : Code Unit :=
  match spage.pageLocation with
  | .inSwap => faultInSwap fuel spage
  | .inDisk => faultInDisk fuel spage
  | .allZero => faultAllZero fuel upage spage
  | .inMemory => pure ()

theorem pageFault_of_reads (fuel : ℕ) (h : Reads s info spage) :
    pageFault fuel info s = faultAt fuel (info.addr / pgSize * pgSize) spage s := by
  have hcond : (info.user || !isUserVaddr info.addr || info.write) = false := by
    simp [h.kernel, h.read, isUserVaddr, h.below]
  have hentry := h.entry
  cases hth : s.threads s.current with
  | none =>
      rw [Kernel.records, hth] at hentry
      cases hentry
  | some th =>
      have hfound : getSupPage th.supPageTable (info.addr / pgSize * pgSize) = .ok spage := by
        rw [Kernel.records, hth] at hentry
        have hfind : th.supPageTable.find? (·.vAddr = info.addr / pgSize * pgSize) = some spage := hentry
        rw [getSupPage, hfind]
      rw [pageFault, hcond]
      simp only [Bool.false_eq_true, if_false]
      rw [bind_of_ok (threadCurrent_run hth), hfound, bind_of_ok (orStop_run spage), if_pos h.absent]
      rfl

/-- Every other fault kills the thread or stops the kernel. -/
theorem pageFault_ends (fuel : ℕ) (hs : Holding s0 [] s) (h : ∀ spage, ¬ Reads s info spage) :
    Ends (pageFault fuel info s) (fun _ s' => Holding s0 [] s') fun _ s' => Orderly s0 s' := by
  unfold pageFault
  split
  · exact Obeys.never (obeys_exitStatus List.not_mem_nil fuel) s0 s hs
  · next hcond =>
      simp only [Bool.or_eq_true, not_or, Bool.not_eq_true, Bool.not_eq_false', isUserVaddr,
        decide_eq_true_eq] at hcond
      obtain ⟨⟨huser, hlow⟩, hwrite⟩ := hcond
      refine ends_threadCurrent (fun th hth => ?_) hs.orderly
      refine ends_orStop (fun spage hspage => ?_) fun _ => hs.orderly
      split
      · next hpresent =>
          refine absurd ⟨huser, hwrite, hlow, hpresent, ?_⟩ (h spage)
          rw [Kernel.records, hth]
          show th.supPageTable.find? _ = _
          rw [getSupPage] at hspage
          split at hspage
          · next hfind =>
              cases hspage
              exact hfind
          · cases hspage
      · exact hs.orderly

/-- Where a fault breaks the rule. -/
def Kernel.FaultBreaks (s : Kernel) (info : FaultInfo) : Prop :=
  ∃ spage, Reads s info spage ∧ (spage.pageLocation = .inDisk ∨
    spage.pageLocation ≠ .inMemory ∧ s.EvictsFor { user := true })

theorem pageFault_orderly (fuel : ℕ) (hs : Holding s0 [] s) (h : ¬ s.FaultBreaks info) :
    Ends (pageFault fuel info s) (fun _ s' => Holding s0 [] s') fun _ s' => Orderly s0 s' := by
  by_cases hreads : ∃ spage, Reads s info spage
  · obtain ⟨spage, hreads⟩ := hreads
    rw [pageFault_of_reads fuel hreads, faultAt]
    have hevicts : spage.pageLocation ≠ .inMemory → ¬ s.EvictsFor { user := true } := fun hloc he =>
      h ⟨spage, hreads, .inr ⟨hloc, he⟩⟩
    cases hloc : spage.pageLocation with
    | inSwap => exact faultInSwap_orderly fuel hs (hevicts (by simp [hloc]))
    | inDisk => exact absurd ⟨spage, hreads, .inl hloc⟩ h
    | allZero => exact faultAllZero_orderly fuel _ hs (hevicts (by simp [hloc]))
    | inMemory => exact hs
  · exact pageFault_ends fuel hs (not_exists.mp hreads)

theorem pageFault_breaks (fuel : ℕ) (hs : Holding s0 [] s) (h : s.FaultBreaks info) :
    ∃ e s', pageFault fuel info s = .error e s' ∧ ¬ Orderly s0 s' := by
  obtain ⟨spage, hreads, hbreaks⟩ := h
  rw [pageFault_of_reads fuel hreads, faultAt]
  have hframe := @getFrame_breaks s0 s [] { user := true } (fun _ => List.not_mem_nil) fuel hs
  cases hloc : spage.pageLocation with
  | inDisk => exact faultInDisk_breaks fuel hs
  | inSwap =>
      obtain ⟨e, s', hrun, hlog⟩ := hframe (hbreaks.resolve_left (by simp [hloc])).2
      exact ⟨e, s', bind_of_error hrun, hlog⟩
  | allZero =>
      obtain ⟨e, s', hrun, hlog⟩ := hframe (hbreaks.resolve_left (by simp [hloc])).2
      exact ⟨e, s', bind_of_error hrun, hlog⟩
  | inMemory =>
      rcases hbreaks with h | h
      · cases hloc.symm.trans h
      · exact absurd hloc h.1

end Faults

/-! ## The rule -/

/-- The entries into the virtual memory code. -/
inductive VmCall where
  | getFrame (flags : PallocFlags)
  | evictFrame
  | storeSwap (uaddr : ℕ)
  | loadSwap (uaddr : ℕ) (swapIndex : ℤ)
  | pageFault (info : FaultInfo)

/-- The call. -/
def VmCall.run (fuel : ℕ) : VmCall → Code Unit
  | getFrame flags => do
      let _ ← Vm.getFrame fuel flags
  | evictFrame => Vm.evictFrame
  | storeSwap uaddr => do
      let _ ← Vm.storeSwap uaddr
  | loadSwap uaddr swapIndex => Vm.loadSwap fuel uaddr swapIndex
  | pageFault info => Vm.pageFault fuel info

/-- No lock is taken by its holder, and if the call returns, no lock is left with the thread. -/
def Disciplined (s : Kernel) (r : EStateM.Result Stop Kernel Unit) : Prop :=
  Ends r (fun _ s' => Orderly s s' ∧ ∀ l, s'.holder l ≠ some s'.current) fun _ s' => Orderly s s'

/-- The calls that come to store a page, and the faults on a page that is on disk. -/
def VmCall.Breaks (s : Kernel) : VmCall → Prop
  | getFrame flags => s.EvictsFor flags
  | evictFrame => s.Evicts
  | storeSwap uaddr => ∃ i, CanStore s uaddr i
  | loadSwap _ _ => False
  | pageFault info => s.FaultBreaks info

section Rule

variable {s : Kernel} (call : VmCall)

/-- A call that keeps to the rule. -/
theorem VmCall.orderly (fuel : ℕ) (hs : Holding s [] s) (h : ¬ call.Breaks s) :
    Ends (call.run fuel s) (fun _ s' => Holding s [] s') fun _ s' => Orderly s s' := by
  have hfree : ∀ l : Lock, l ∉ [] := fun _ => List.not_mem_nil
  cases call with
  | getFrame flags => exact (getFrame_orderly hfree fuel hs h).bind fun _ _ hs' => hs'
  | evictFrame => exact (evictFrame_orderly (hfree _) hs h).mono (fun _ _ h => h.elim) fun _ _ h => h
  | storeSwap uaddr => exact (storeSwap_orderly (hfree _) hs h).bind fun _ _ h => h.elim
  | loadSwap uaddr swapIndex => exact obeys_loadSwap (hfree _) (hfree _) fuel uaddr swapIndex s s hs
  | pageFault info => exact pageFault_orderly fuel hs h

/-- A call that does not. -/
theorem VmCall.breaks (fuel : ℕ) (hs : Holding s [] s) (h : call.Breaks s) :
    ∃ e s', call.run fuel s = .error e s' ∧ ¬ Orderly s s' := by
  have hfree : ∀ l : Lock, l ∉ [] := fun _ => List.not_mem_nil
  cases call with
  | getFrame flags =>
      obtain ⟨e, s', hrun, hlog⟩ := getFrame_breaks hfree fuel hs h
      exact ⟨e, s', bind_of_error hrun, hlog⟩
  | evictFrame => exact evictFrame_breaks (hfree _) hs h
  | storeSwap uaddr =>
      obtain ⟨e, s', hrun, hlog⟩ := storeSwap_breaks (hfree _) hs h
      exact ⟨e, s', bind_of_error hrun, hlog⟩
  | loadSwap uaddr swapIndex => exact h.elim
  | pageFault info => exact pageFault_breaks fuel hs h

/-- **The lock discipline.**  Called without locks, a function of the virtual memory code takes no
lock twice and keeps none, unless it comes to store a page or deals with a page on disk. -/
theorem disciplined_iff (fuel : ℕ) (hl : s.locking = true) (hfree : ∀ l, s.holder l ≠ some s.current) :
    Disciplined s (call.run fuel s) ↔ ¬ call.Breaks s := by
  have hs : Holding s [] s := ⟨hl, .refl s, fun l => iff_of_false (hfree l) List.not_mem_nil⟩
  constructor
  · intro h hbreaks
    obtain ⟨e, s', hrun, hlog⟩ := call.breaks fuel hs hbreaks
    rw [Disciplined, hrun] at h
    exact hlog h
  · intro h
    refine (call.orderly fuel hs h).mono (fun _ s' hs' => ⟨hs'.orderly, fun l he => ?_⟩) fun _ _ h => h
    exact absurd ((hs'.holds l).mp he) List.not_mem_nil

end Rule

/-- A full user pool, in a kernel with its locks. -/
theorem fullKernel_disciplined :
    Disciplined { fullKernel with locking := true }
      ((VmCall.getFrame { user := true }).run 1 { fullKernel with locking := true }) ↔
      ¬ (VmCall.getFrame { user := true }).Breaks { fullKernel with locking := true } :=
  disciplined_iff (.getFrame { user := true }) 1 rfl fun _ => by simp [fullKernel, smallKernel]

end Pintos.Vm
