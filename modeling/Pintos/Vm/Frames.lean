import Pintos.Vm.Ownership

/-!
# The accounts of the memory functions

For every function that takes, frees or maps a page, what it does to the local pages of
`Pintos.Vm.Owned`.  The last section runs these through `load`, `process_execute`,
`process_exit` and the page fault handler, and ends with `Owned.step`: **no call of any
thread gives a page a second owner**.

Eviction never gets far: `store_swap` takes `swap_lock` a second time in its last line
and stops there (`storeSwap_stops`), so `evict_frame` frees no page, and `get_frame`
returns only pages that `palloc_get_page` had free.
-/

namespace Pintos.Vm

open Lib

variable {b : Prop} {L : List (PoolName × ℕ)} {s s' : Kernel} {u : PoolName} {p q : ℕ}

/-! ## Single pages -/

/-- The page directory maps a page only through one of its entries. -/
theorem exists_entry_of_mem_mappers {t : ℕ} (h : t ∈ s.mappers p) :
    ∃ i j, s.refPage (.entry t i j) = some p := by
  obtain ⟨-, h⟩ := List.mem_filter.mp h
  obtain ⟨th, hth, h⟩ := (Option.any_eq_true _ _).mp h
  obtain ⟨pd, hpd, h⟩ := (Option.any_eq_true _ _).mp h
  obtain ⟨i, -, h⟩ := List.any_eq_true.mp h
  obtain ⟨pt, hpt, h⟩ := (Option.any_eq_true _ _).mp h
  obtain ⟨j, -, h⟩ := List.any_eq_true.mp h
  obtain ⟨pte, hpte, h⟩ := (Option.any_eq_true _ _).mp h
  refine ⟨i, j, ?_⟩
  simp only [Kernel.refPage, Kernel.tableAt, Kernel.dirAt, hth, hpd, hpt, hpte, Option.bind_some,
    Option.map_some]
  rw [of_decide_eq_true h]

/-- The local pages after an allocation. -/
def gain (u : PoolName) (r : Option ℕ) (L : List (PoolName × ℕ)) : List (PoolName × ℕ) :=
  match r with
  | none => L
  | some p => (u, p) :: L

/-- A page that is marked stays marked when another one is marked too. -/
theorem Used.mark {n v : PoolName} {idx : ℕ} (h : Used (s.pools v) p) :
    Used ((s.setUsed n ((s.pools n).usedMap.setRange idx 1 true)).pools v) p := by
  obtain ⟨i, hi, hbit, rfl⟩ := h
  by_cases e : v = n
  · subst e
    refine ⟨i, ?_, ?_, ?_⟩
    · simpa [Kernel.setUsed] using hi
    · simp only [Kernel.setUsed, Function.update_self, Bitmap.setRange_bits]
      split
      · rfl
      · exact hbit
    · simp [Kernel.setUsed]
  · refine ⟨i, ?_, ?_, ?_⟩
    · simpa [Kernel.setUsed, Function.update_of_ne e] using hi
    · simpa [Kernel.setUsed, Function.update_of_ne e] using hbit
    · simp [Kernel.setUsed, Function.update_of_ne e]

/-- Setting bits moves no pool. -/
theorem Apart.setUsed (h : Apart s.pools) (n : PoolName) (idx : ℕ) (value : Bool) :
    Apart (s.setUsed n ((s.pools n).usedMap.setRange idx 1 value)).pools := by
  have hbase : ∀ v, ((s.setUsed n ((s.pools n).usedMap.setRange idx 1 value)).pools v).base =
      (s.pools v).base := by
    intro v
    by_cases e : v = n
    · subst e
      simp [Kernel.setUsed]
    · simp [Kernel.setUsed, Function.update_of_ne e]
  have hcnt : ∀ v, ((s.setUsed n ((s.pools n).usedMap.setRange idx 1 value)).pools v).usedMap.bitCnt =
      (s.pools v).usedMap.bitCnt := by
    intro v
    by_cases e : v = n
    · subst e
      simp [Kernel.setUsed]
    · simp [Kernel.setUsed, Function.update_of_ne e]
  refine ⟨fun v => ?_, fun v => ?_, fun i hi j => ?_⟩
  · rw [hbase]
    exact h.aligned v
  · rw [hbase]
    exact h.positive v
  · rw [hcnt] at hi
    rw [hbase, hbase]
    exact h.disjoint i hi j

/-- **A free page that is marked becomes a local page.** -/
theorem Owned.mark (h : Owned b L s) {n : PoolName} {idx : ℕ} {m : Memory}
    (hidx : idx < (s.pools n).usedMap.bitCnt) (hfree : (s.pools n).usedMap.bits idx = false)
    (hp : p = (s.pools n).base + pgSize * idx) :
    p ∉ s.handed ∧
    Owned b ((n, p) :: L) { s.setUsed n ((s.pools n).usedMap.setRange idx 1 true) with
      grants := ⟨p, s.mappers p⟩ :: s.grants
      mem := m } := by
  -- nothing that is marked is this page
  have hnew : ∀ v, ¬ Used (s.pools v) p := by
    intro v hv
    obtain ⟨j, hj, hbit, e⟩ := hv
    have hv' : v = n := by
      cases v <;> cases n
      · rfl
      · exact absurd (e.symm.trans hp) (h.apart.disjoint j hj idx)
      · exact absurd (hp.symm.trans e) (h.apart.disjoint idx hidx j)
      · rfl
    subst hv'
    have hji : j = idx := by
      have := hp.symm.trans e
      simp only [pgSize] at this
      omega
    rw [hji, hfree] at hbit
    cases hbit
  have href : ∀ r, s.refPage r ≠ some p := fun r hr => hnew _ (h.used hr)
  have hhanded : p ∉ s.handed := fun hm => (h.handedUsed hm).elim hnew
  refine ⟨hhanded, h.apart.setUsed n idx true, h.locking, h.inj, fun hr => (h.used hr).mark, fun {v q} hm => ?_,
    fun {v q} hm r => ?_, List.nodup_cons.mpr ⟨fun hm => hnew n (h.localUsed hm), h.localNodup⟩,
    fun hm => (h.handedUsed hm).imp fun _ => Used.mark, h.handedNodup, h.plain, fun g hg => ?_,
    h.tids, h.accurate⟩
  · rcases List.mem_cons.mp hm with e | hm
    · obtain ⟨rfl, rfl⟩ := Prod.mk.inj e
      refine ⟨idx, ?_, ?_, ?_⟩
      · simpa [Kernel.setUsed] using hidx
      · simp [Kernel.setUsed, Bitmap.setRange_bits]
      · simpa [Kernel.setUsed] using hp
    · exact (h.localUsed hm).mark
  · rcases List.mem_cons.mp hm with e | hm
    · rw [(Prod.mk.inj e).2]
      exact href r
    · exact h.localFree hm r
  · rcases List.mem_cons.mp hg with rfl | hg
    · refine List.eq_nil_iff_forall_not_mem.mpr fun t ht => ?_
      obtain ⟨i, j, hr⟩ := exists_entry_of_mem_mappers ht
      exact href _ hr
    · exact h.grants g hg

/-- `palloc_get_page` takes a page nobody has. -/
theorem pallocGetPage_spec (h : Owned b L s) (flags : PallocFlags) :
    Ends (pallocGetPage flags s) (fun r s' => Owned b (gain flags.pool r L) s' ∧
      s'.threads = s.threads ∧ s'.current = s.current ∧ ∀ p, r = some p → p ∉ s'.handed) (Left b) := by
  unfold pallocGetPage
  simp only [fetch_bind]
  cases hscan : bitmapScanAndFlip (s.pools flags.pool).usedMap 0 1 false with
  | mk found map =>
      cases found with
      | none =>
          exact ends_assert (fun _ => ⟨h, rfl, rfl, fun _ e => by cases e⟩) (h.left _)
      | some idx =>
          obtain ⟨hidx, hfree, rfl⟩ := scanAndFlip_some hscan
          obtain ⟨h1, h2⟩ := h.mark hidx hfree rfl
          exact ⟨h2, rfl, rfl, fun p e => Option.some.inj e ▸ h1⟩

/-- A page other than the one whose mark is cleared stays marked. -/
theorem Used.clear {n v : PoolName} {idx : ℕ} (h : Used (s.pools v) q)
    (hne : q ≠ (s.pools n).base + pgSize * idx) :
    Used ((s.setUsed n ((s.pools n).usedMap.setRange idx 1 false)).pools v) q := by
  obtain ⟨i, hi, hbit, rfl⟩ := h
  by_cases e : v = n
  · subst e
    refine ⟨i, ?_, ?_, ?_⟩
    · simpa [Kernel.setUsed] using hi
    · simp only [Kernel.setUsed, Function.update_self, Bitmap.setRange_bits]
      split
      · next hi' =>
          have e : i = idx := by omega
          exact absurd (by rw [e]) hne
      · exact hbit
    · simp [Kernel.setUsed]
  · refine ⟨i, ?_, ?_, ?_⟩
    · simpa [Kernel.setUsed, Function.update_of_ne e] using hi
    · simpa [Kernel.setUsed, Function.update_of_ne e] using hbit
    · simp [Kernel.setUsed, Function.update_of_ne e]

/-- **A local page whose mark is cleared is gone.** -/
theorem Owned.clear (h : Owned b ((u, p) :: L) s) {idx : ℕ}
    (hp : p = (s.pools u).base + pgSize * idx) :
    Owned False L { s.setUsed u ((s.pools u).usedMap.setRange idx 1 false) with
      handed := s.handed.erase p } := by
  have hnodup := List.nodup_cons.mp h.localNodup
  have hfree := h.localFree (List.mem_cons_self ..)
  have hkeep : ∀ {v q}, Used (s.pools v) q → q ≠ p →
      Used ((s.setUsed u ((s.pools u).usedMap.setRange idx 1 false)).pools v) q :=
    fun hq hne => hq.clear (hp ▸ hne)
  refine ⟨h.apart.setUsed u idx false, h.locking, h.inj, fun {r q} hr => hkeep (h.used hr) ?_,
    fun {v q} hm => hkeep (h.localUsed (List.mem_cons_of_mem _ hm)) ?_,
    fun hm => h.localFree (List.mem_cons_of_mem _ hm), hnodup.2, fun {q} hm => ?_,
    h.handedNodup.erase p, fun hr hq hm => h.plain hr hq (List.mem_of_mem_erase hm), h.grants,
    h.tids, False.elim⟩
  · rintro rfl
    exact hfree r hr
  · rintro rfl
    have e := h.apart.pool_eq (h.localUsed (List.mem_cons_of_mem _ hm))
      (h.localUsed (List.mem_cons_self ..))
    exact hnodup.1 (e ▸ hm)
  · obtain ⟨hne, hm⟩ := h.handedNodup.mem_erase_iff.mp hm
    exact (h.handedUsed hm).imp fun _ hq => hkeep hq hne

theorem freeInPool_spec (h : Owned b ((u, p) :: L) s) :
    Ends (freeInPool u p s) (fun _ s' => Owned False L s' ∧ s'.threads = s.threads ∧
      s'.current = s.current ∧ s'.fifoList = s.fifoList ∧ s'.handed = s.handed.erase p)
      fun e s' => Left b e s' ∧ ¬ e.GoesOn := by
  obtain ⟨idx, hidx, hbit, hp⟩ := h.localUsed (List.mem_cons_self ..)
  have hno : p / pgSize - (s.pools u).base / pgSize = idx := by
    rw [hp, page_div]
    omega
  unfold freeInPool
  simp only [fetch_bind, change_bind, hno]
  have hmem : Same s { s with mem := fillPage s.mem p 0xcc } :=
    .of_threads rfl rfl rfl rfl rfl rfl rfl
  have hall : bitmapAll (s.pools u).usedMap idx 1 = .ok true := by
    have hcontains : bitmapContains (s.pools u).usedMap idx 1 false = .ok false := by
      rw [bitmapContains, if_pos (by omega)]
      simp [Bitmap.runHas, hbit]
    simp [bitmapAll, hcontains]
  have hset : bitmapSetMultiple (s.pools u).usedMap idx 1 false =
      .ok ((s.pools u).usedMap.setRange idx 1 false) := if_pos (by omega)
  rw [hall, hset]
  exact ⟨(h.same hmem).clear hp, rfl, rfl, rfl, rfl⟩

/-- `palloc_free_page` takes a local page away. -/
theorem pallocFreePage_spec (h : Owned b ((u, p) :: L) s) :
    Ends (pallocFreePage p s) (fun _ s' => Owned False L s' ∧ s'.threads = s.threads ∧
      s'.current = s.current ∧ s'.fifoList = s.fifoList ∧ s'.handed = s.handed.erase p)
      fun e s' => Left b e s' ∧ ¬ e.GoesOn := by
  have hu := h.localUsed (List.mem_cons_self ..)
  have hiff := pageFromPool_iff h.apart hu
  unfold pallocFreePage
  refine ends_assert (fun _ => ?_) ⟨h.left _, id⟩
  rw [if_neg (h.apart.page_pos hu).ne']
  simp only [fetch_bind]
  cases u with
  | kernel =>
      rw [if_pos ((hiff .kernel).mpr rfl)]
      exact freeInPool_spec h
  | user =>
      rw [if_neg (fun hk => by cases (hiff .kernel).mp hk), if_pos ((hiff .user).mpr rfl)]
      exact freeInPool_spec h

/-- Freeing a page the frame table does not list. -/
theorem pallocFreePage_plain (h : Owned b ((u, p) :: L) s) (hp : b → p ∉ s.handed) :
    Ends (pallocFreePage p s) (fun _ s' => Owned b L s' ∧ s'.handed = s.handed.erase p ∧
      s'.threads = s.threads ∧ s'.current = s.current) (Left b) := by
  refine (pallocFreePage_spec h).mono (fun _ s' hs => ?_) fun _ _ hs => hs.1
  obtain ⟨h1, h2, h3, h4, h5⟩ := hs
  refine ⟨h1.recount fun hb => ?_, h5, h2, h3⟩
  rw [h4, h5, List.erase_of_not_mem (hp hb)]
  exact h.accurate hb

/-! ## Frames -/

theorem not_goesOn_ofFault (e : Fault) : ¬ (Stop.ofFault e).GoesOn := by
  cases e <;> exact id

theorem ensureSwap_spec (s : Kernel) :
    Ends (ensureSwap s) (fun _ s' => Same s s') fun e s' => Same s s' ∧ ¬ e.GoesOn := by
  unfold ensureSwap
  simp only [fetch_bind]
  refine Ends.ite (fun _ => Same.refl s) fun _ => ?_
  refine ends_assert (fun _ => ?_) ⟨.refl s, id⟩
  -- the heap is asked once, whatever it answers
  have hs : Same s { s with mallocs := s.mallocs + 1 } := .of_threads rfl rfl rfl rfl rfl rfl rfl
  refine ends_malloc (ends_assert (fun _ => ?_) ⟨hs, id⟩)
  refine ends_orStop (fun w _ => ?_) fun e => ⟨hs, not_goesOn_ofFault e⟩
  exact hs.trans (.of_threads rfl rfl rfl rfl rfl rfl rfl)

/-- `lock_acquire` of a lock the thread holds. -/
theorem lockAcquire_held {l : Lock} (hl : s.locking = true) (h : s.holder l = some s.current) :
    lockAcquire l s = .error .panicked { s with lockLog := s.lockLog ++ [.reacquired l] } := by
  simp [lockAcquire, hl, h]

/-- `lock_acquire` of any other lock. -/
theorem lockAcquire_free {l : Lock} (hl : s.locking = true) (h : s.holder l ≠ some s.current) :
    lockAcquire l s = .ok () { s with
      holder := Function.update s.holder l (some s.current)
      lockLog := s.lockLog ++ [.acquired l] } := by
  simp [lockAcquire, hl, h]

/-- **`store_swap` never returns**: its last line takes the lock it holds. -/
theorem storeSwap_stops (hl : s.locking = true) (uaddr : ℕ) :
    Ends (storeSwap uaddr s) (fun _ _ => False) fun e s' => Same s s' ∧ ¬ e.GoesOn := by
  unfold storeSwap
  refine (ensureSwap_spec s).bind fun _ s1 h1 => ?_
  have hl1 : s1.locking = true := h1.locking.trans hl
  by_cases hheld : s1.holder .swap = some s1.current
  · rw [bind_of_error (lockAcquire_held hl1 hheld)]
    exact ⟨h1.trans (.of_threads rfl rfl rfl rfl rfl rfl rfl), id⟩
  · rw [bind_of_ok (lockAcquire_free hl1 hheld)]
    have h2 : Same s { s1 with
        holder := Function.update s1.holder .swap (some s1.current)
        lockLog := s1.lockLog ++ [.acquired .swap] } :=
      h1.trans (.of_threads rfl rfl rfl rfl rfl rfl rfl)
    refine ends_threadCurrent (fun th _ => ?_) ⟨h2, id⟩
    simp only [fetch_bind]
    refine ends_orStop (fun w _ => ?_) fun e => ⟨h2, not_goesOn_ofFault e⟩
    have h3 := h2.trans (Touchless.setSwapState w.2 _)
    have hheld3 := lockAcquire_held (l := .swap) (h3.locking.trans hl)
      (by simp [Kernel.setSwapState, Kernel.updateCurrent])
    simp only [change_bind]
    rw [bind_of_error hheld3]
    exact ⟨h3.trans (.of_threads rfl rfl rfl rfl rfl rfl rfl), id⟩

/-- `evict_frame` never returns either. -/
theorem evictFrame_stops (h : Owned b L s) :
    Ends (evictFrame s) (fun _ _ => False) (Left b) := by
  unfold evictFrame
  simp only [fetch_bind]
  cases hfifo : s.fifoList with
  | nil => exact h.left _
  | cons f rest =>
      -- the entry is gone already, which matters to nobody after the panic
      have h1 : Owned False [] { s with fifoList := rest } :=
        { h.forget (List.nil_sublist L) with
          accurate := False.elim
          inj := h.inj
          used := h.used
          plain := h.plain }
      simp only [change_bind]
      refine ((storeSwap_stops h1.locking f.page).bind fun _ _ => False.elim).mono (fun _ _ => id) ?_
      intro e s' hs
      exact (h1.same hs.1).weaken fun hc => hs.2 hc.2

theorem findPage_spec (h : Owned b L s) (flags : PallocFlags) :
    Ends (findPage flags s) (fun r s' => Owned b (gain flags.pool r L) s' ∧
      ∀ p, r = some p → p ∉ s'.handed) (Left b) := by
  unfold findPage
  refine (pallocGetPage_spec h flags).bind fun r s1 h1 => ?_
  cases r with
  | some page => exact ⟨h1.1, h1.2.2.2⟩
  | none => exact (evictFrame_stops h1.1).bind fun _ _ => False.elim

/-- A local page that is handed out. -/
theorem Owned.hand (h : Owned b ((u, p) :: L) s) (hp : p ∉ s.handed) (t : ℕ) :
    Owned b ((u, p) :: L) { s with
      fifoList := s.fifoList ++ [⟨p, t⟩]
      handed := s.handed ++ [p] } := by
  refine ⟨h.apart, h.locking, h.inj, h.used, h.localUsed, h.localFree, h.localNodup, fun {q} hq => ?_, ?_,
    fun {r q} hr hq hm => ?_, h.grants, h.tids, fun hb => ?_⟩
  · rcases List.mem_append.mp hq with hq | hq
    · exact h.handedUsed hq
    · rw [List.mem_singleton.mp hq]
      exact ⟨u, h.localUsed (List.mem_cons_self ..)⟩
  · refine List.Nodup.append h.handedNodup (List.nodup_singleton p) fun q h1 h2 => ?_
    exact hp (List.mem_singleton.mp h2 ▸ h1)
  · rcases List.mem_append.mp hm with hm | hm
    · exact h.plain hr hq hm
    · exact h.localFree (List.mem_cons_self ..) r (List.mem_singleton.mp hm ▸ hq)
  · simp [h.accurate hb]

theorem recordFrame_spec {r : Option ℕ} (h : Owned b (gain u r L) s)
    (hp : ∀ p, r = some p → p ∉ s.handed) (fuel : ℕ) :
    Ends (recordFrame fuel r s) (fun _ s' => Owned b (gain u r L) s') (Left b) := by
  cases r with
  | none => exact h
  | some p =>
      have hs : Same s { s with mallocs := s.mallocs + 1 } := .of_threads rfl rfl rfl rfl rfl rfl rfl
      refine ends_malloc (Ends.ite (fun _ => ?_) fun _ => ?_)
      · exact (h.same hs).hand (hp p rfl) s.current
      · exact ((Touchless.exitStatus fuel).owned (h.same hs)).bind fun e => e.elim

/-- `get_frame` takes a page nobody has. -/
theorem getFrame_spec (h : Owned b L s) (fuel : ℕ) (flags : PallocFlags) :
    Ends (getFrame fuel flags s) (fun r s' => Owned b (gain flags.pool r L) s') (Left b) := by
  unfold getFrame
  refine ((Touchless.lockAcquire _).owned h).bind fun _ s1 h1 => ?_
  refine (findPage_spec h1 flags).bind fun r s2 h2 => ?_
  refine (recordFrame_spec h2.1 h2.2 fuel).bind fun _ s3 h3 => ?_
  refine ((Touchless.lockRelease _).owned h3).bind fun _ s4 h4 => ?_
  exact h4

/-- The first entry for a page goes where the page goes. -/
theorem map_page_eraseP (l : List Frame) (p : ℕ) :
    (l.eraseP fun f => f.page = p).map Frame.page = (l.map Frame.page).erase p := by
  induction l with
  | nil => rfl
  | cons f rest ih =>
      by_cases e : f.page = p
      · simp [e]
      · simp [e, ih]

/-- `free_frame` takes a local page away, and the frame table forgets it. -/
theorem freeFrame_spec (h : Owned b ((u, p) :: L) s) :
    Ends (freeFrame p s) (fun _ s' => Owned b L s') (Left b) := by
  unfold freeFrame
  simp only [change_bind]
  have h1 : Owned False ((u, p) :: L) { s with
      fifoList := s.fifoList.eraseP fun f => f.page = p } :=
    { h with
      accurate := False.elim
      inj := h.inj
      used := h.used
      plain := h.plain }
  refine (pallocFreePage_spec h1).mono (fun _ s' hs => ?_) fun e s' hs => ?_
  · obtain ⟨h2, -, -, h4, h5⟩ := hs
    refine h2.recount fun hb => ?_
    rw [h4, h5, ← h.accurate hb]
    exact map_page_eraseP s.fifoList p
  · exact Owned.weaken hs.1 fun hc => absurd hc.2 hs.2

/-! ## Page directories -/

theorem threads_updateCurrent_self (f : Thread → Thread) :
    (s.updateCurrent f).threads s.current = (s.threads s.current).map f :=
  Function.update_self ..

theorem threads_updateCurrent_of_ne {f : Thread → Thread} {t : ℕ} (h : t ≠ s.current) :
    (s.updateCurrent f).threads t = s.threads t := Function.update_of_ne h ..

/-- Outside the directory of the running thread nothing refers to other pages than before. -/
theorem refPage_outside {f : Thread → Thread} {r : Ref}
    (h : (s.updateCurrent f).refPage r = some p) (hpage : ∀ th, (f th).page = th.page)
    (hname : ∀ th, (f th).fileName = th.fileName) (hr : ¬ r.InDir s.current) :
    s.refPage r = some p := by
  rw [← h]
  have hsame : ∀ {β : Type} {g : Thread → Option β} (t : ℕ), (∀ th, g (f th) = g th) →
      ((s.updateCurrent f).threads t).bind g = (s.threads t).bind g := by
    intro β g t hg
    by_cases ht : t = s.current
    · subst ht
      rw [threads_updateCurrent_self]
      cases s.threads s.current with
      | none => rfl
      | some th => exact hg th
    · rw [threads_updateCurrent_of_ne ht]
  have hdir : ∀ {t}, t ≠ s.current → (s.updateCurrent f).dirAt t = s.dirAt t := by
    intro t ht
    rw [Kernel.dirAt, threads_updateCurrent_of_ne ht, Kernel.dirAt]
  cases r with
  | thread t => exact (hsame t fun th => by rw [hpage]).symm
  | name t => exact (hsame t fun th => by rw [hname]).symm
  | pagedir t => simp only [Kernel.refPage, hdir hr]
  | table t i => simp only [Kernel.refPage, Kernel.tableAt, hdir hr]
  | entry t i j => simp only [Kernel.refPage, Kernel.tableAt, hdir hr]

/-- The kernel with the page directory of the running thread replaced. -/
def Kernel.setDir (s : Kernel) (d : Option PageDir) : Kernel :=
  s.updateCurrent fun th => { th with pagedir := d }

/-- What the new directory refers to. -/
theorem dirAt_setDir {d : Option PageDir} {pd : PageDir}
    (h : (s.setDir d).dirAt s.current = some pd) : d = some pd := by
  rw [Kernel.dirAt, Kernel.setDir, threads_updateCurrent_self] at h
  cases hth : s.threads s.current with
  | none => simp [hth] at h
  | some th => simpa [hth] using h

/-- Without a directory there is nothing in it. -/
theorem refPage_setDir_none {r : Ref} (hr : r.InDir s.current) :
    (s.setDir none).refPage r = none := by
  have hdir : (s.setDir none).dirAt s.current = none := by
    by_contra h
    obtain ⟨pd, hpd⟩ := Option.ne_none_iff_exists'.mp h
    cases dirAt_setDir hpd
  cases r with
  | thread t => exact hr.elim
  | name t => exact hr.elim
  | pagedir t =>
      cases hr
      rw [Kernel.refPage, hdir]
      rfl
  | table t i =>
      cases hr
      rw [Kernel.refPage, Kernel.tableAt, hdir]
      rfl
  | entry t i j =>
      cases hr
      rw [Kernel.refPage, Kernel.tableAt, hdir]
      rfl

theorem dirAt_setTable_self (i : ℕ) (pt : PageTable) :
    (s.setTable i pt).dirAt s.current = (s.dirAt s.current).map fun pd => pd.setTable i pt := by
  rw [Kernel.dirAt, Kernel.setTable, threads_updateCurrent_self, Kernel.dirAt]
  cases s.threads s.current with
  | none => rfl
  | some th => rfl

theorem dirAt_setTable_of_ne {t : ℕ} (h : t ≠ s.current) (i : ℕ) (pt : PageTable) :
    (s.setTable i pt).dirAt t = s.dirAt t := by
  rw [Kernel.dirAt, Kernel.setTable, threads_updateCurrent_of_ne h, Kernel.dirAt]

theorem tableAt_setTable_self {i : ℕ} {pt : PageTable} (h : s.dirAt s.current ≠ none) :
    (s.setTable i pt).tableAt s.current i = some pt := by
  obtain ⟨pd, hpd⟩ := Option.ne_none_iff_exists'.mp h
  simp [Kernel.tableAt, dirAt_setTable_self, hpd, PageDir.setTable]

/-- The tables after one was replaced. -/
theorem tableAt_setTable {t i k : ℕ} {pt pt' : PageTable}
    (h : (s.setTable i pt).tableAt t k = some pt') :
    s.tableAt t k = some pt' ∨ t = s.current ∧ k = i ∧ pt' = pt := by
  by_cases ht : t = s.current
  · subst ht
    rw [Kernel.tableAt, dirAt_setTable_self] at h
    cases hpd : s.dirAt s.current with
    | none => simp [hpd] at h
    | some pd =>
        simp only [hpd, Option.map_some, Option.bind_some, PageDir.setTable] at h
        by_cases hk : k = i
        · subst hk
          rw [Function.update_self] at h
          exact .inr ⟨rfl, rfl, (Option.some.inj h).symm⟩
        · rw [Function.update_of_ne hk] at h
          left
          rw [Kernel.tableAt, hpd]
          exact h
  · rw [Kernel.tableAt, dirAt_setTable_of_ne ht] at h
    exact .inl h

/-- **What a new page table refers to**: besides the old references there is the page of
the table, and there are its entries. -/
theorem refPage_setTable {i : ℕ} {pt : PageTable} {r : Ref}
    (h : (s.setTable i pt).refPage r = some p) :
    s.refPage r = some p ∨ (r = .table s.current i ∧ p = pt.page) ∨
      ∃ j, r = .entry s.current i j ∧ (pt.entries j).map Pte.kpage = some p := by
  cases r with
  | thread t => exact .inl (refPage_outside h (fun _ => rfl) (fun _ => rfl) id)
  | name t => exact .inl (refPage_outside h (fun _ => rfl) (fun _ => rfl) id)
  | pagedir t =>
      left
      by_cases ht : t = s.current
      · subst ht
        simp only [Kernel.refPage, dirAt_setTable_self, Option.map_map] at h
        exact h
      · simpa only [Kernel.refPage, dirAt_setTable_of_ne ht] using h
  | table t k =>
      obtain ⟨pt', hpt, e⟩ := Option.map_eq_some_iff.mp h
      rcases tableAt_setTable hpt with hpt | ⟨rfl, rfl, rfl⟩
      · left
        rw [Kernel.refPage, hpt, Option.map_some, e]
      · exact .inr (.inl ⟨rfl, e.symm⟩)
  | entry t k j =>
      obtain ⟨pt', hpt, e⟩ := Option.bind_eq_some_iff.mp h
      rcases tableAt_setTable hpt with hpt | ⟨rfl, rfl, rfl⟩
      · left
        rw [Kernel.refPage, hpt]
        exact e
      · exact .inr (.inr ⟨j, rfl, e⟩)

/-- A new, empty page table. -/
theorem Owned.newTable (h : Owned b ((.kernel, p) :: L) s) (hp : p ∉ s.handed) (i : ℕ) :
    Owned b L (s.setTable i ⟨p, fun _ => none⟩) := by
  refine h.adopt (show (Ref.table s.current i).pool = _ from rfl) (fun _ => hp) (.updateCurrent _)
    fun r q hr => ?_
  rcases refPage_setTable hr with hr | ⟨rfl, rfl⟩ | ⟨j, -, e⟩
  · exact .inl hr
  · exact .inr ⟨rfl, rfl⟩
  · cases e

/-- A new entry in a page table. -/
theorem Owned.newEntry (h : Owned b ((.user, p) :: L) s) {i : ℕ} {pt : PageTable}
    (hpt : s.tableAt s.current i = some pt) (j : ℕ) (writable : Bool) :
    Owned b L (s.setTable i (pt.setEntry j ⟨p, writable⟩)) := by
  refine h.adopt (show (Ref.entry s.current i j).pool = _ from rfl) False.elim (.updateCurrent _)
    fun r q hr => ?_
  rcases refPage_setTable hr with hr | ⟨rfl, rfl⟩ | ⟨k, rfl, e⟩
  · exact .inl hr
  · left
    rw [Kernel.refPage, hpt]
    rfl
  · by_cases hk : k = j
    · subst hk
      simp only [PageTable.setEntry, Function.update_self, Option.map_some, Option.some.injEq] at e
      exact .inr ⟨rfl, e.symm⟩
    · simp only [PageTable.setEntry, Function.update_of_ne hk] at e
      left
      rw [Kernel.refPage, hpt]
      exact e

/-- `lookup_page` may add a page table. -/
theorem lookupPage_spec (h : Owned b L s) (vaddr : ℕ) (create : Bool) :
    Ends (lookupPage vaddr create s) (fun r s' => Owned b L s' ∧
      ∀ pt, r = some pt → s'.tableAt s'.current (pdNo vaddr) = some pt) (Left b) := by
  unfold lookupPage
  refine ends_threadCurrent (fun th hth => ?_) (h.left _)
  cases hpd : th.pagedir with
  | none => exact h.left _
  | some pd =>
      have hdir : s.dirAt s.current = some pd := by
        rw [Kernel.dirAt, hth]
        exact hpd
      refine ends_assert (fun _ => ?_) (h.left _)
      cases hpt : pd.tables (pdNo vaddr) with
      | some pt =>
          refine ⟨h, fun pt' e => ?_⟩
          rw [Kernel.tableAt, hdir, Option.bind_some, hpt, e]
      | none =>
          refine Ends.ite (fun _ => ?_) fun _ => ⟨h, fun _ e => by cases e⟩
          refine (pallocGetPage_spec h { zero := true }).bind fun r s1 h1 => ?_
          obtain ⟨h1, hthreads, hcur, hnew⟩ := h1
          cases r with
          | none => exact ⟨h1, fun _ e => by cases e⟩
          | some page =>
              refine ⟨Owned.newTable h1 (hnew page rfl) _, fun pt e => ?_⟩
              have hdir1 : s1.dirAt s1.current ≠ none := by
                rw [Kernel.dirAt, hthreads, hcur, ← Kernel.dirAt, hdir]
                exact Option.some_ne_none pd
              rw [← Option.some.inj e]
              exact tableAt_setTable_self hdir1

/-- The local pages after an attempt to map one of them. -/
def spend (done : Bool) (u : PoolName) (p : ℕ) (L : List (PoolName × ℕ)) : List (PoolName × ℕ) :=
  if done then L else (u, p) :: L

/-- `pagedir_set_page` maps a local page. -/
theorem pagedirSetPage_spec (h : Owned b ((.user, p) :: L) s) (upage : ℕ) (writable : Bool) :
    Ends (pagedirSetPage upage p writable s) (fun done s' => Owned b (spend done .user p L) s')
      (Left b) := by
  unfold pagedirSetPage
  refine ends_assert (fun _ => ?_) (h.left _)
  refine ends_assert (fun _ => ?_) (h.left _)
  refine ends_assert (fun _ => ?_) (h.left _)
  refine ends_assert (fun _ => ?_) (h.left _)
  rw [fetch_bind]
  refine ends_assert (fun _ => ?_) (h.left _)
  refine (lookupPage_spec h upage true).bind fun r s1 h1 => ?_
  cases r with
  | none => exact h1.1
  | some pt =>
      refine ends_assert (fun _ => ?_) (h1.1.left _)
      exact Owned.newEntry h1.1 (h1.2 pt rfl) _ _

/-- There is no page at the null pointer. -/
theorem pagedirSetPage_null (h : Owned b L s) (upage : ℕ) (writable : Bool) :
    Ends (pagedirSetPage upage 0 writable s) (fun _ _ => False) (Left b) := by
  unfold pagedirSetPage
  refine ends_assert (fun _ => ?_) (h.left _)
  refine ends_assert (fun _ => ?_) (h.left _)
  refine ends_assert (fun _ => ?_) (h.left _)
  exact ends_assert (fun hc => absurd hc (by decide)) (h.left _)

theorem pagedirGetPage_spec (h : Owned b L s) (uaddr : ℕ) :
    Ends (pagedirGetPage uaddr s) (fun _ s' => Owned b L s') (Left b) := by
  unfold pagedirGetPage
  refine ends_assert (fun _ => ?_) (h.left _)
  refine (lookupPage_spec h uaddr false).bind fun r s1 h1 => ?_
  cases r with
  | none => exact h1.1
  | some pt => exact h1.1

theorem installPage_spec (h : Owned b ((.user, p) :: L) s) (upage : ℕ) (writable : Bool) :
    Ends (installPage upage p writable s) (fun done s' => Owned b (spend done .user p L) s')
      (Left b) := by
  unfold installPage
  refine (pagedirGetPage_spec h upage).bind fun r s1 h1 => ?_
  cases r with
  | some page => exact h1
  | none => exact pagedirSetPage_spec h1 upage writable

/-- `pagedir_create` gives the running thread an empty directory. -/
theorem pagedirCreate_spec (h : Owned b L s) :
    Ends (pagedirCreate s) (fun _ s' => Owned b L s') (Left b) := by
  unfold pagedirCreate
  refine (pallocGetPage_spec h {}).bind fun r s1 h1 => ?_
  obtain ⟨h1, -, -, hnew⟩ := h1
  cases r with
  | none => exact h1
  | some page =>
      refine Owned.adopt h1 (show (Ref.pagedir s1.current).pool = _ from rfl)
        (fun _ => hnew page rfl) (.updateCurrent _) fun r p hr => ?_
      by_cases hin : r.InDir s1.current
      · -- the new directory is empty
        have htable : ∀ i, (s1.setDir (some ⟨page, fun _ => none⟩)).tableAt s1.current i = none := by
          intro i
          rw [Kernel.tableAt]
          cases hd : (s1.setDir (some ⟨page, fun _ => none⟩)).dirAt s1.current with
          | none => rfl
          | some pd =>
              cases dirAt_setDir hd
              rfl
        cases r with
        | thread t => exact hin.elim
        | name t => exact hin.elim
        | pagedir t =>
            cases hin
            obtain ⟨pd, hpd, rfl⟩ := Option.map_eq_some_iff.mp hr
            cases dirAt_setDir hpd
            exact .inr ⟨rfl, rfl⟩
        | table t i =>
            cases hin
            obtain ⟨pt, hpt, -⟩ := Option.map_eq_some_iff.mp hr
            cases (htable i).symm.trans hpt
        | entry t i j =>
            cases hin
            obtain ⟨pt, hpt, -⟩ := Option.bind_eq_some_iff.mp hr
            cases (htable i).symm.trans hpt
      · exact .inl (refPage_outside hr (fun _ => rfl) (fun _ => rfl) hin)

/-! ## Loading -/

theorem loadPages_spec (fuel file : ℕ) (ofs : ℤ) (writable : Bool) :
    ∀ {n upage readBytes zeroBytes : ℕ} {s : Kernel}, Owned b L s →
      Ends (loadPages fuel file ofs writable n upage readBytes zeroBytes s)
        (fun _ s' => Owned b L s') (Left b) := by
  intro n
  induction n with
  | zero =>
      intro upage readBytes zeroBytes s h
      exact h
  | succ n ih =>
      intro upage readBytes zeroBytes s h
      refine Ends.ite (fun _ => h) fun _ => ?_
      refine (getFrame_spec h fuel { user := true }).bind fun r s1 h1 => ?_
      cases r with
      | none => exact h1
      | some kpage =>
          refine ((Touchless.createSupPage _ _ _ _ _ _).owned h1).bind fun _ s2 h2 => ?_
          refine ((Touchless.fileRead _ _ _).owned h2).bind fun got s3 h3 => ?_
          refine Ends.ite (fun _ => ?_) fun _ => ?_
          · exact (freeFrame_spec h3).bind fun _ _ h4 => h4
          · refine (Ends.bind ((Touchless.change fun _ => ?_).owned h3)) fun _ s4 h4 => ?_
            · exact .of_threads rfl rfl rfl rfl rfl rfl rfl
            refine (installPage_spec h4 upage writable).bind fun done s5 h5 => ?_
            cases done with
            | true => exact ih h5
            | false => exact (freeFrame_spec h5).bind fun _ _ h6 => h6

theorem loadPhdr_spec (h : Owned b L s) (fuel file : ℕ) (phdr : Phdr) :
    Ends (loadPhdr fuel file phdr s) (fun _ s' => Owned b L s') (Left b) := by
  unfold loadPhdr
  rw [fetch_bind]
  refine Ends.ite (fun _ => ?_) fun _ => h
  unfold loadSegment
  refine ends_assert (fun _ => ?_) (h.left _)
  refine ends_assert (fun _ => ?_) (h.left _)
  refine ends_assert (fun _ => ?_) (h.left _)
  exact ((Touchless.fileSeek _ _).owned h).bind fun _ _ h1 => loadPages_spec fuel file _ _ h1

theorem loadPhdrs_spec (fuel file : ℕ) :
    ∀ {n : ℕ} {fileOfs : ℤ} {s : Kernel}, Owned b L s →
      Ends (loadPhdrs fuel file n fileOfs s) (fun _ s' => Owned b L s') (Left b) := by
  intro n
  induction n with
  | zero =>
      intro fileOfs s h
      exact h
  | succ n ih =>
      intro fileOfs s h
      unfold loadPhdrs
      rw [fetch_bind]
      refine Ends.ite (fun _ => h) fun _ => ?_
      refine ((Touchless.fileSeek _ _).owned h).bind fun _ s1 h1 => ?_
      refine ((Touchless.readHeader _ _).owned h1).bind fun r s2 h2 => ?_
      cases r with
      | none => exact h2
      | some pos =>
          refine Ends.ite (fun _ => h2) fun _ => Ends.ite (fun _ => ?_) fun _ => ih h2
          refine (loadPhdr_spec h2 fuel file _).bind fun loaded s3 h3 => ?_
          exact Ends.ite (fun _ => ih h3) fun _ => h3

theorem getFrameOrDie_spec (h : Owned b L s) (fuel : ℕ) (flags : PallocFlags) :
    Ends (getFrameOrDie fuel flags s) (fun _ s' => Owned b L s') (Left b) := by
  unfold getFrameOrDie
  refine (getFrame_spec h fuel flags).bind fun r s1 h1 => ?_
  cases r with
  | some page => exact h1.tail
  | none => exact ((Touchless.exitStatus fuel).owned h1).bind fun e => e.elim

theorem getFrameOrPanic_spec (h : Owned b L s) (fuel : ℕ) (flags : PallocFlags) :
    Ends (getFrameOrPanic fuel flags s) (fun _ s' => Owned b L s') (Left b) := by
  unfold getFrameOrPanic
  refine (getFrame_spec h fuel flags).bind fun r s1 h1 => ?_
  cases r with
  | some page => exact h1.tail
  | none => exact h1.left _

theorem setupStack_spec (h : Owned b L s) (fuel : ℕ) (cmdline : List UInt8) :
    Ends (setupStack fuel cmdline s) (fun _ s' => Owned b L s') (Left b) := by
  unfold setupStack
  refine (getFrameOrDie_spec h fuel {}).bind fun _ s1 h1 => ?_
  refine Ends.ite (fun _ => h1.left _) fun _ => ?_
  have hspare : Ends (forEach (fun _ : ℕ => do
      let _ ← getFrame fuel { user := true, zero := true })
      (List.range ((tokens cmdline).length / 5 - 1)) s1) (fun _ s' => Owned b L s') (Left b) := by
    refine Ends.forEach (I := fun _ s' => Owned b L s') (fun _ _ s2 h2 => ?_) h1
    refine (getFrame_spec h2 fuel { user := true, zero := true }).bind fun r s3 h3 => ?_
    cases r with
    | none => exact h3
    | some page => exact h3.tail
  refine hspare.bind fun _ s2 h2 => ?_
  refine (getFrame_spec h2 fuel { user := true, zero := true }).bind fun r s3 h3 => ?_
  cases r with
  | none => exact h3
  | some kpage =>
      refine (installPage_spec h3 _ true).bind fun done s4 h4 => ?_
      cases done with
      | true =>
          exact ((Touchless.forEach (fun store => .userStore fuel store) _).owned h4).bind
            fun _ _ h5 => h5
      | false => exact (freeFrame_spec h4).bind fun _ _ h5 => h5

theorem loadImage_spec (h : Owned b L s) (fuel file : ℕ) (cmdline : List UInt8) :
    Ends (loadImage fuel file cmdline s) (fun _ s' => Owned b L s') (Left b) := by
  unfold loadImage
  rw [fetch_bind]
  refine ((Touchless.readHeader _ _).owned h).bind fun r s1 h1 => ?_
  cases r with
  | none => exact h1
  | some pos =>
      refine Ends.ite (fun _ => ?_) fun _ => h1
      refine (loadPhdrs_spec fuel file h1).bind fun loaded s2 h2 => ?_
      refine Ends.ite (fun _ => ?_) fun _ => h2
      refine (getFrameOrPanic_spec h2 fuel {}).bind fun copy s3 h3 => ?_
      exact ((Touchless.copyLine _ _).owned h3).bind fun _ _ h4 => setupStack_spec h4 fuel cmdline

/-- **Loading a program gives no page a second owner**, whether it succeeds or not. -/
theorem load_spec (h : Owned b L s) (fuel : ℕ) (cmdline : List UInt8) :
    Ends (load fuel cmdline s) (fun _ s' => Owned b L s') (Left b) := by
  unfold load
  refine (pagedirCreate_spec h).bind fun created s1 h1 => ?_
  refine Ends.ite (fun _ => ?_) fun _ => ((Touchless.setExecFile _).owned h1).bind fun _ _ h2 => h2
  refine (getFrameOrPanic_spec h1 fuel {}).bind fun copy s2 h2 => ?_
  refine ((Touchless.copyLine _ _).owned h2).bind fun _ s3 h3 => ?_
  cases (tokens cmdline).head? with
  | none => exact h3.left _
  | some name =>
      refine ((Touchless.filesysOpen name).owned h3).bind fun r s4 h4 => ?_
      cases r with
      | none => exact ((Touchless.setExecFile _).owned h4).bind fun _ _ h5 => h5
      | some file =>
          refine (loadImage_spec h4 fuel file cmdline).bind fun success s5 h5 => ?_
          exact ((Touchless.setExecFile _).owned h5).bind fun _ _ h6 => h6

end Pintos.Vm
