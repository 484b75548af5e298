import Pintos.Vm.Frames

/-!
# Pages over whole runs

What `process_execute`, `start_process`, `process_exit` and the page fault handler do to
the account of `Pintos.Vm.Owned`, and what follows for every run of the kernel.

* `noStale_of_reach`: **a page that a live process maps is allocated, and nobody else
  has it.**  This holds because the kernel dies before it evicts anything: `evict_frame`
  never comes to the point where it frees the victim's page.
* `frameTable_of_reach`: the frame table lists the pages handed out by `get_frame`, in
  order, **as long as no process exits that has pages mapped**.  `process_exit` frees
  the pages through `pagedir_destroy`, which knows nothing of the frame table.
-/

namespace Pintos.Vm

open Lib

variable {b : Prop} {L : List (PoolName × ℕ)} {s s' : Kernel} {u : PoolName} {p q : ℕ}

/-! ## Processes come and go -/

/-- The kernel with thread `t` replaced. -/
def Kernel.setThread (s : Kernel) (t : ℕ) (th : Thread) : Kernel :=
  { s with threads := Function.update s.threads t (some th) }

/-- What a thread without a directory refers to. -/
theorem refPage_setThread {t : ℕ} {th : Thread} (ht : s.threads t = none) (hdir : th.pagedir = none)
    {r : Ref} (h : (s.setThread t th).refPage r = some p) :
    s.refPage r = some p ∨ (r = .thread t ∧ th.page = some p) ∨
      (r = .name t ∧ th.fileName.map Prod.fst = some p) := by
  have hdirAt : ∀ k, (s.setThread t th).dirAt k = s.dirAt k := by
    intro k
    by_cases e : k = t
    · subst e
      simp [Kernel.dirAt, Kernel.setThread, hdir, ht]
    · simp [Kernel.dirAt, Kernel.setThread, Function.update_of_ne e]
  cases r with
  | thread k =>
      by_cases e : k = t
      · subst e
        simp only [Kernel.refPage, Kernel.setThread, Function.update_self, Option.bind_some] at h
        exact .inr (.inl ⟨rfl, h⟩)
      · simp only [Kernel.refPage, Kernel.setThread, Function.update_of_ne e] at h
        exact .inl h
  | name k =>
      by_cases e : k = t
      · subst e
        simp only [Kernel.refPage, Kernel.setThread, Function.update_self, Option.bind_some] at h
        exact .inr (.inr ⟨rfl, h⟩)
      · simp only [Kernel.refPage, Kernel.setThread, Function.update_of_ne e] at h
        exact .inl h
  | pagedir k => exact .inl (by simpa only [Kernel.refPage, hdirAt] using h)
  | table k i => exact .inl (by simpa only [Kernel.refPage, Kernel.tableAt, hdirAt] using h)
  | entry k i j => exact .inl (by simpa only [Kernel.refPage, Kernel.tableAt, hdirAt] using h)

/-- A thread that did not exist: its page and its command line stop being local. -/
theorem Owned.newThread (h : Owned b ((.kernel, p) :: (.kernel, q) :: L) s) (hp : p ∉ s.handed)
    {t : ℕ} {th : Thread} (ht : s.threads t = none) (htid : t < s.nextTid) (hpage : th.page = some p)
    (hdir : th.pagedir = none) {line : List UInt8} (hname : th.fileName = some (q, line)) :
    Owned b L (s.setThread t th) := by
  have htids : ∀ x : Thread, ∀ v, s.nextTid ≤ v → (s.setThread t x).threads v = none := by
    intro x v hv
    have hne : v ≠ t := by omega
    simpa [Kernel.setThread, Function.update_of_ne hne] using h.tids v hv
  have h1 : Owned b ((.kernel, q) :: L) (s.setThread t { th with fileName := none }) := by
    refine h.adopt (show (Ref.thread t).pool = _ from rfl) (fun _ => hp)
      ⟨rfl, rfl, rfl, rfl, rfl, fun _ => htids _⟩ fun r v hr => ?_
    have hcases := @refPage_setThread s v t { th with fileName := none } ht hdir r hr
    rcases hcases with hr | ⟨rfl, e⟩ | ⟨-, e⟩
    · exact .inl hr
    · exact .inr ⟨rfl, Option.some.inj (e.symm.trans hpage)⟩
    · cases e
  refine h1.adopt (show (Ref.name t).pool = _ from rfl) False.elim
    ⟨rfl, rfl, rfl, rfl, rfl, fun _ => htids th⟩ fun r v hr => ?_
  by_cases hr' : r = .name t
  · right
    subst hr'
    simp only [Kernel.refPage, Kernel.setThread, Function.update_self, Option.bind_some, hname,
      Option.map_some, Option.some.injEq] at hr
    exact ⟨rfl, hr.symm⟩
  · -- the two new threads differ in nothing else
    left
    rw [← hr]
    cases r with
    | name k =>
        have e : k ≠ t := fun e => hr' (e ▸ rfl)
        simp [Kernel.refPage, Kernel.setThread, Function.update_of_ne e]
    | thread k =>
        by_cases e : k = t
        · subst e
          simp [Kernel.refPage, Kernel.setThread]
        · simp [Kernel.refPage, Kernel.setThread, Function.update_of_ne e]
    | pagedir k =>
        by_cases e : k = t
        · subst e
          simp [Kernel.refPage, Kernel.dirAt, Kernel.setThread]
        · simp [Kernel.refPage, Kernel.dirAt, Kernel.setThread, Function.update_of_ne e]
    | table k i =>
        by_cases e : k = t
        · subst e
          simp [Kernel.refPage, Kernel.tableAt, Kernel.dirAt, Kernel.setThread]
        · simp [Kernel.refPage, Kernel.tableAt, Kernel.dirAt, Kernel.setThread,
            Function.update_of_ne e]
    | entry k i j =>
        by_cases e : k = t
        · subst e
          simp [Kernel.refPage, Kernel.tableAt, Kernel.dirAt, Kernel.setThread]
        · simp [Kernel.refPage, Kernel.tableAt, Kernel.dirAt, Kernel.setThread,
            Function.update_of_ne e]

theorem threadCreate_spec (h : Owned b ((.kernel, q) :: L) s) (fuel : ℕ) (cmdline : List UInt8) :
    Ends (threadCreate fuel q cmdline s)
      (fun r s' => Owned b (spend r.isSome .kernel q L) s') (Left b) := by
  unfold threadCreate
  refine (pallocGetPage_spec h { zero := true }).bind fun r s1 h1 => ?_
  obtain ⟨h1, -, -, hnew⟩ := h1
  cases r with
  | none => exact h1
  | some page =>
      -- the number of the new thread, and whatever the heap says
      have hs : Same s1 { s1 with nextTid := s1.nextTid + 1, mallocs := s1.mallocs + 1 } := by
        refine ⟨⟨rfl, rfl, rfl, rfl, rfl, fun hn t ht => hn t ?_⟩, refPage_of_threads rfl⟩
        exact Nat.le_of_succ_le ht
      have h2 := Owned.same h1 hs
      refine Ends.fetch (Ends.change (ends_malloc (Ends.ite (fun _ => ?_) fun _ => ?_)))
      · exact Owned.newThread h2 (hnew page rfl) (h1.tids _ le_rfl) (Nat.lt_succ_self _) rfl rfl rfl
      · exact ((Touchless.exitStatus fuel).owned h2).bind fun e => e.elim

/-- Nothing is at address 0, so freeing a null pointer frees nothing. -/
theorem freeFrame_null (h : Owned b L s) :
    Ends (freeFrame 0 s) (fun _ s' => Owned b L s') (Left b) := by
  have hzero : b → s.fifoList.eraseP (fun f => f.page = 0) = s.fifoList := by
    intro hb
    refine List.eraseP_of_forall_not fun f hf => ?_
    have hm : f.page ∈ s.handed := h.accurate hb ▸ List.mem_map_of_mem hf
    obtain ⟨u, hu⟩ := h.handedUsed hm
    simpa using (h.apart.page_pos hu).ne'
  have h1 : Owned b L { s with fifoList := s.fifoList.eraseP fun f => f.page = 0 } :=
    { h with
      inj := h.inj
      used := h.used
      plain := h.plain
      accurate := fun hb => by
        show (s.fifoList.eraseP fun f => f.page = 0).map Frame.page = s.handed
        rw [hzero hb]
        exact h.accurate hb }
  exact h1

theorem processExecute_spec (h : Owned b L s) (fuel : ℕ) (fileName : List UInt8) :
    Ends (processExecute fuel fileName s) (fun _ s' => Owned b L s') (Left b) := by
  unfold processExecute
  refine (getFrame_spec h fuel {}).bind fun r s1 h1 => ?_
  cases r with
  | none => exact (freeFrame_null h1).bind fun _ _ h2 => h2
  | some fnCopy =>
      refine ((Touchless.copyLine _ _).owned h1).bind fun _ s2 h2 => ?_
      refine (getFrame_spec h2 fuel {}).bind fun r s3 h3 => ?_
      cases r with
      | none => exact (freeFrame_spec h3).bind fun _ _ h4 => h4
      | some argOne =>
          refine ((Touchless.copyLine _ _).owned h3).bind fun _ s4 h4 => ?_
          cases (tokens (fileName.take (pgSize - 1))).head? with
          | none => exact h4.left _
          | some token =>
              refine ((Touchless.filesysOpen token).owned h4).bind fun r s5 h5 => ?_
              cases r with
              | none =>
                  have h6 : Owned b ((.kernel, fnCopy) :: (.kernel, argOne) :: L) s5 :=
                    h5.perm (List.Perm.swap ..)
                  refine (freeFrame_spec h6).bind fun _ s6 h7 => ?_
                  exact (freeFrame_spec h7).bind fun _ _ h8 => h8
              | some file =>
                  refine (threadCreate_spec h5.tail fuel _).bind fun r s6 h6 => ?_
                  cases r with
                  | none => exact (freeFrame_spec h6).bind fun _ _ h7 => h7
                  | some tid => exact h6

/-- What is referred to when the running thread has let go of its command line. -/
theorem refPage_clearName {r : Ref}
    (h : (s.updateCurrent fun th => { th with fileName := none }).refPage r = some p) :
    s.refPage r = some p ∧ r ∉ [Ref.name s.current] := by
  have hbind : ∀ {β : Type} (g : Thread → Option β) (t : ℕ),
      (∀ th : Thread, g { th with fileName := none } = g th) →
      ((s.updateCurrent fun th => { th with fileName := none }).threads t).bind g =
        (s.threads t).bind g := by
    intro β g t hg
    by_cases ht : t = s.current
    · subst ht
      rw [threads_updateCurrent_self]
      cases s.threads s.current with
      | none => rfl
      | some th => exact hg th
    · rw [threads_updateCurrent_of_ne ht]
  have hdir : ∀ t, (s.updateCurrent fun th => { th with fileName := none }).dirAt t = s.dirAt t :=
    fun t => hbind (fun th => th.pagedir) t fun _ => rfl
  cases r with
  | thread t => exact ⟨(hbind (fun th => th.page) t fun _ => rfl).symm.trans h, by simp⟩
  | name t =>
      have ht : t ≠ s.current := by
        rintro rfl
        rw [Kernel.refPage, threads_updateCurrent_self] at h
        cases hth : s.threads s.current <;> simp [hth] at h
      rw [Kernel.refPage, threads_updateCurrent_of_ne ht] at h
      exact ⟨h, by simpa using ht⟩
  | pagedir t => exact ⟨by simpa only [Kernel.refPage, hdir] using h, by simp⟩
  | table t i => exact ⟨by simpa only [Kernel.refPage, Kernel.tableAt, hdir] using h, by simp⟩
  | entry t i j => exact ⟨by simpa only [Kernel.refPage, Kernel.tableAt, hdir] using h, by simp⟩

/-- `start_process` turns the command line into a local variable, and frees it. -/
theorem startProcess_spec (h : Owned b [] s) (fuel : ℕ) :
    Ends (startProcess fuel s) (fun _ s' => Owned b [] s') (Left b) := by
  unfold startProcess
  refine ends_threadCurrent (fun th hth => ?_) (h.left _)
  cases hline : th.fileName with
  | none => exact h.left _
  | some line =>
      have hname : s.refPage (.name s.current) = some line.1 := by
        simp [Kernel.refPage, hth, hline]
      have h1 : Owned b [(.kernel, line.1)]
          (s.updateCurrent fun th => { th with fileName := none }) := by
        have hdrop := h.release (List.nodup_singleton (Ref.name s.current))
          (.updateCurrent fun th => { th with fileName := none }) fun r v hr => ?_
        · simpa [Kernel.pagesOf, hname, Ref.pool] using hdrop
        · exact refPage_clearName hr
      refine Ends.change ((load_spec h1 fuel line.2).bind fun success s2 h2 => ?_)
      refine (freeFrame_spec h2).bind fun _ s3 h3 => ?_
      refine Ends.ite (fun _ => ?_) fun _ => ?_
      · exact h3.same (.updateCurrent (fun _ => rfl) (fun _ => rfl) fun _ => rfl)
      · exact (Touchless.threadExit.owned h3).bind fun e => e.elim

/-! ## Process exit -/

/-- The references in the directory of thread `t`, in the order in which `pagedir_destroy`
comes to them. -/
def dirRefs (t : ℕ) : List Ref :=
  (List.range 768).flatMap (fun i => (List.range 1024).map (Ref.entry t i) ++ [Ref.table t i]) ++
    [Ref.pagedir t]

theorem mem_dirRefs {t : ℕ} {r : Ref} (h : r ∈ dirRefs t) : r.InDir t := by
  rcases List.mem_append.mp h with h | h
  · obtain ⟨i, -, h⟩ := List.mem_flatMap.mp h
    rcases List.mem_append.mp h with h | h
    · obtain ⟨j, -, rfl⟩ := List.mem_map.mp h
      rfl
    · rw [List.mem_singleton.mp h]
      rfl
  · rw [List.mem_singleton.mp h]
    rfl

theorem nodup_dirRefs (t : ℕ) : (dirRefs t).Nodup := by
  refine List.Nodup.append (List.nodup_flatMap.mpr ⟨fun i _ => ?_, ?_⟩) (List.nodup_singleton _) ?_
  · refine List.Nodup.append (List.nodup_range.map fun j k e => ?_) (List.nodup_singleton _) ?_
    · exact (Ref.entry.inj e).2.2
    · simp
  · refine List.nodup_range.imp fun {i k} hne => ?_
    intro r h1 h2
    have hin : ∀ {i}, r ∈ (List.range 1024).map (Ref.entry t i) ++ [Ref.table t i] →
        (∃ j, r = .entry t i j) ∨ r = .table t i := by
      intro i hr
      rcases List.mem_append.mp hr with hr | hr
      · obtain ⟨j, -, rfl⟩ := List.mem_map.mp hr
        exact .inl ⟨j, rfl⟩
      · exact .inr (List.mem_singleton.mp hr)
    rcases hin h1 with ⟨j, rfl⟩ | rfl <;> rcases hin h2 with ⟨j', e⟩ | e
    · exact hne (Ref.entry.inj e).2.1
    · cases e
    · cases e
    · exact hne (Ref.table.inj e).2
  · intro r h1 h2
    rw [List.mem_singleton.mp h2] at h1
    obtain ⟨i, -, h1⟩ := List.mem_flatMap.mp h1
    simp at h1

/-- `pagedir_destroy` frees the pages the directory refers to. -/
theorem pagesOf_dirRefs {t : ℕ} {pd : PageDir} (h : s.dirAt t = some pd) :
    (s.pagesOf (dirRefs t)).map Prod.snd = pd.pages := by
  have htable : ∀ i, s.tableAt t i = pd.tables i := fun i => by
    rw [Kernel.tableAt, h, Option.bind_some]
  have hper : ∀ (l : List ℕ) (i : ℕ), (l.map (Ref.entry t i) ++ [Ref.table t i]).filterMap s.refPage =
      ((pd.tables i).map fun pt =>
        l.filterMap (fun j => (pt.entries j).map Pte.kpage) ++ [pt.page]).getD [] := by
    intro l i
    rw [List.filterMap_append, List.filterMap_map]
    cases hpt : pd.tables i with
    | none => simp [Function.comp_def, Kernel.refPage, htable, hpt]
    | some pt => simp [Function.comp_def, Kernel.refPage, htable, hpt]
  have hdir : [Ref.pagedir t].filterMap s.refPage = [pd.page] := by
    simp [Kernel.refPage, h]
  rw [Kernel.pagesOf, List.map_filterMap]
  simp only [Option.map_map, Function.comp_def, Option.map_id']
  rw [dirRefs, List.filterMap_append, List.filterMap_flatMap, hdir]
  simp only [hper]
  rfl

/-- Local pages that the frame table does not list may all be freed. -/
theorem freeAll_spec : ∀ {L : List (PoolName × ℕ)} {s : Kernel}, Owned b L s →
    (b → ∀ v p, (v, p) ∈ L → p ∉ s.handed) →
    Ends (forEach pallocFreePage (L.map Prod.snd) s)
      (fun _ s' => Owned b [] s' ∧ s'.threads = s.threads ∧ s'.current = s.current) (Left b) := by
  intro L
  induction L with
  | nil =>
      intro s h _
      exact ⟨h, rfl, rfl⟩
  | cons x L ih =>
      intro s h hnew
      refine (pallocFreePage_plain h fun hb => hnew hb x.1 x.2 (List.mem_cons_self ..)).bind
        fun _ s1 h1 => ?_
      obtain ⟨h1, hhanded, hthreads, hcur⟩ := h1
      refine (ih h1 fun hb v p hm => ?_).mono (fun _ s2 h2 => ?_) fun _ _ => id
      · rw [hhanded]
        exact fun hp => hnew hb v p (List.mem_cons_of_mem _ hm) (List.mem_of_mem_erase hp)
      · exact ⟨h2.1, h2.2.1.trans hthreads, h2.2.2.trans hcur⟩

/-- A thread that is gone refers to nothing. -/
theorem refPage_removeThread {t : ℕ} {r : Ref}
    (h : Kernel.refPage { s with threads := Function.update s.threads t none } r = some p) :
    s.refPage r = some p ∧ r ∉ [Ref.thread t] := by
  have hself : ∀ {k}, k = t → Kernel.dirAt { s with threads := Function.update s.threads t none } k =
      none := by
    rintro k rfl
    simp [Kernel.dirAt]
  have hother : ∀ {k}, k ≠ t → Kernel.dirAt { s with threads := Function.update s.threads t none } k =
      s.dirAt k := fun e => by
    simp [Kernel.dirAt, Function.update_of_ne e]
  cases r with
  | thread k =>
      by_cases e : k = t
      · subst e
        simp [Kernel.refPage] at h
      · simp only [Kernel.refPage, Function.update_of_ne e] at h
        exact ⟨h, by simpa using e⟩
  | name k =>
      by_cases e : k = t
      · subst e
        simp [Kernel.refPage] at h
      · simp only [Kernel.refPage, Function.update_of_ne e] at h
        exact ⟨h, by simp⟩
  | pagedir k =>
      by_cases e : k = t
      · simp [Kernel.refPage, hself e] at h
      · exact ⟨by simpa only [Kernel.refPage, hother e] using h, by simp⟩
  | table k i =>
      by_cases e : k = t
      · simp [Kernel.refPage, Kernel.tableAt, hself e] at h
      · exact ⟨by simpa only [Kernel.refPage, Kernel.tableAt, hother e] using h, by simp⟩
  | entry k i j =>
      by_cases e : k = t
      · simp [Kernel.refPage, Kernel.tableAt, hself e] at h
      · exact ⟨by simpa only [Kernel.refPage, Kernel.tableAt, hother e] using h, by simp⟩

/-- **`process_exit` frees the pages of the process once each.**  The frame table stays
accurate if none of them is mapped. -/
theorem processExit_spec (h : Owned b [] s)
    (hb : b → ∀ i j, s.refPage (.entry s.current i j) = none) :
    Ends (processExit s) (fun _ s' => Owned b [] s') (Left b) := by
  unfold processExit
  refine ends_threadCurrent (fun th hth => Ends.change ?_) (h.left _)
  -- the directory is taken away from the thread
  have h1 : Owned b (s.pagesOf (dirRefs s.current)) (s.setDir none) := by
    have hrefs : ∀ r v, (s.setDir none).refPage r = some v →
        s.refPage r = some v ∧ r ∉ dirRefs s.current := by
      intro r v hr
      have hin : ¬ r.InDir s.current := by
        intro hin
        cases (refPage_setDir_none hin).symm.trans hr
      exact ⟨refPage_outside hr (fun _ => rfl) (fun _ => rfl) hin, fun hm => hin (mem_dirRefs hm)⟩
    rw [← List.append_nil (s.pagesOf _)]
    exact h.release (nodup_dirRefs s.current) (.updateCurrent _) hrefs
  have hplain : b → ∀ v p, (v, p) ∈ s.pagesOf (dirRefs s.current) → p ∉ s.handed := by
    intro hb' v p hm
    obtain ⟨r, hr, e⟩ := List.mem_filterMap.mp hm
    obtain ⟨p', hp', e⟩ := Option.map_eq_some_iff.mp e
    obtain ⟨-, rfl⟩ := Prod.mk.inj e
    refine h.plain ?_ hp'
    have hin := mem_dirRefs hr
    cases r with
    | thread t => trivial
    | name t => exact hin
    | pagedir t => trivial
    | table t i => trivial
    | entry t i j =>
        cases hin
        cases (hb hb' i j).symm.trans hp'
  have hdestroy : Ends (pagedirDestroy th.pagedir (s.setDir none))
      (fun _ s' => Owned b [] s' ∧ s'.threads = (s.setDir none).threads ∧
        s'.current = s.current) (Left b) := by
    cases hpd : th.pagedir with
    | none =>
        have hnil : Owned b [] (s.setDir none) := h1.forget (List.nil_sublist _)
        exact ⟨hnil, rfl, rfl⟩
    | some pd =>
        have hdir : s.dirAt s.current = some pd := by
          rw [Kernel.dirAt, hth]
          exact hpd
        have hpages := pagesOf_dirRefs hdir
        generalize s.pagesOf (dirRefs s.current) = pages at h1 hplain hpages
        simp only [pagedirDestroy, ← hpages]
        exact freeAll_spec h1 hplain
  refine hdestroy.bind fun _ s2 h2 => Ends.change ?_
  obtain ⟨h2, hthreads, hcur⟩ := h2
  -- what is left of the thread is its own page
  have hpage : s2.refPage (.thread s2.current) = th.page := by
    rw [Kernel.refPage, hthreads, hcur, Kernel.setDir, threads_updateCurrent_self, hth]
    rfl
  have h3 : Owned b (s2.pagesOf [.thread s2.current])
      { s2 with threads := Function.update s2.threads s2.current none } := by
    rw [← List.append_nil (s2.pagesOf _)]
    refine h2.release (List.nodup_singleton _) ⟨rfl, rfl, rfl, rfl, rfl, fun hnone t ht => ?_⟩
      fun r v hr => refPage_removeThread hr
    by_cases e : t = s2.current
    · subst e
      exact Function.update_self ..
    · simpa [Function.update_of_ne e] using hnone t ht
  have hnew : ∀ {page}, s2.refPage (.thread s2.current) = some page → page ∉ s2.handed :=
    fun hr => h2.plain (show Ref.Plain (.thread s2.current) from True.intro) hr
  cases hp : th.page with
  | none => exact h3.forget (List.nil_sublist _)
  | some page =>
      rw [hp] at hpage
      have hpages : s2.pagesOf [.thread s2.current] = [(.kernel, page)] := by
        simp [Kernel.pagesOf, hpage, Ref.pool]
      rw [hpages] at h3
      exact (pallocFreePage_plain h3 fun _ => hnew hpage).mono (fun _ _ h4 => h4.1) fun _ _ => id

/-! ## The page fault handler -/

theorem Owned.reacquired (h : Owned b L s) (l : Lock) :
    Owned b L { s with lockLog := s.lockLog ++ [.reacquired l] } :=
  h.same (.of_threads rfl rfl rfl rfl rfl rfl rfl)

/-- `get_frame` stops at once if the caller has `frame_lock`. -/
theorem getFrame_held (h : Owned b L s) (hheld : s.holder .frame = some s.current) (fuel : ℕ)
    (flags : PallocFlags) : Ends (getFrame fuel flags s) (fun _ _ => False) (Left b) := by
  unfold getFrame
  rw [bind_of_error (lockAcquire_held h.locking hheld)]
  exact (h.reacquired .frame).left _

theorem freeUnless_spec {done : Bool} (h : Owned b (spend done u p L) s) :
    Ends (freeUnless done p s) (fun _ s' => Owned b L s') (Left b) := by
  cases done with
  | true => exact h
  | false => exact freeFrame_spec h

theorem faultInSwap_spec (h : Owned b [] s) (fuel : ℕ) (spage : SupPage) :
    Ends (faultInSwap fuel spage s) (fun _ s' => Owned b [] s') (Left b) := by
  unfold faultInSwap
  refine (getFrame_spec h fuel { user := true }).bind fun r s1 h1 => ?_
  refine ((Touchless.lockAcquire _).owned h1).bind fun _ s2 h2 => ?_
  refine ((Touchless.lockAcquire _).owned h2).bind fun _ s3 h3 => ?_
  cases r with
  | none => exact (pagedirSetPage_null h3 _ _).bind fun _ _ => False.elim
  | some page =>
      refine (pagedirSetPage_spec h3 _ _).bind fun mapped s4 h4 => ?_
      refine (freeUnless_spec h4).bind fun _ s5 h5 => ?_
      refine ((Touchless.lockRelease _).owned h5).bind fun _ s6 h6 => ?_
      refine ((Touchless.lockRelease _).owned h6).bind fun _ s7 h7 => ?_
      exact (Touchless.loadSwap _ _ _).owned h7

/-- The case `IN_DISK` ends in `get_frame`, which takes `frame_lock` once more. -/
theorem faultInDisk_spec (h : Owned b [] s) (fuel : ℕ) (spage : SupPage) :
    Ends (faultInDisk fuel spage s) (fun _ s' => Owned b [] s') (Left b) := by
  unfold faultInDisk
  refine ((Touchless.lockAcquire _).owned h).bind fun _ s1 h1 => ?_
  by_cases hheld : s1.holder .frame = some s1.current
  · rw [bind_of_error (lockAcquire_held h1.locking hheld)]
    exact (h1.reacquired .frame).left _
  · rw [bind_of_ok (lockAcquire_free h1.locking hheld)]
    have h2 := h1.same (.of_threads rfl rfl rfl rfl rfl rfl rfl : Same s1 { s1 with
      holder := Function.update s1.holder .frame (some s1.current)
      lockLog := s1.lockLog ++ [.acquired .frame] })
    have hheld2 : Function.update s1.holder .frame (some s1.current) .frame = some s1.current :=
      Function.update_self ..
    exact (getFrame_held h2 hheld2 fuel _).bind fun _ _ => False.elim

theorem faultAllZero_spec (h : Owned b [] s) (fuel upage : ℕ) (spage : SupPage) :
    Ends (faultAllZero fuel upage spage s) (fun _ s' => Owned b [] s') (Left b) := by
  unfold faultAllZero
  refine (getFrame_spec h fuel { user := true }).bind fun r s1 h1 => ?_
  have h1' : Owned b [] s1 := h1.forget (List.nil_sublist _)
  refine ends_threadCurrent (fun th _ => ?_) (h1'.left _)
  refine ends_orStop (fun table _ => ?_) fun e => h1'.left _
  exact h1'.same (.updateCurrent (fun _ => rfl) (fun _ => rfl) fun _ => rfl)

theorem pageFault_spec (h : Owned b [] s) (fuel : ℕ) (info : FaultInfo) :
    Ends (pageFault fuel info s) (fun _ s' => Owned b [] s') (Left b) := by
  unfold pageFault
  refine Ends.ite (fun _ => ?_) fun _ => ?_
  · exact ((Touchless.exitStatus fuel).owned h).bind fun e => e.elim
  · refine ends_threadCurrent (fun th _ => ?_) (h.left _)
    refine ends_orStop (fun spage _ => ?_) fun e => h.left _
    refine Ends.ite (fun _ => ?_) fun _ => h.left _
    cases spage.pageLocation with
    | inSwap => exact faultInSwap_spec h fuel spage
    | inDisk => exact faultInDisk_spec h fuel spage
    | allZero => exact faultAllZero_spec h fuel _ spage
    | inMemory => exact h

/-! ## Steps and runs -/

/-- A reference is part of some thread. -/
theorem refers_of_refPage {r : Ref} (h : s.refPage r = some p) :
    ∃ t th, s.threads t = some th ∧ th.Refers p := by
  have hdir : ∀ {t pd}, s.dirAt t = some pd → ∃ th, s.threads t = some th ∧ th.pagedir = some pd :=
    fun h => Option.bind_eq_some_iff.mp h
  have htable : ∀ {t i pt}, s.tableAt t i = some pt →
      ∃ th pd, s.threads t = some th ∧ th.pagedir = some pd ∧ pd.tables i = some pt := by
    intro t i pt h
    obtain ⟨pd, hpd, hpt⟩ := Option.bind_eq_some_iff.mp h
    obtain ⟨th, hth, hpd⟩ := hdir hpd
    exact ⟨th, pd, hth, hpd, hpt⟩
  cases r with
  | thread t =>
      obtain ⟨th, hth, hp⟩ := Option.bind_eq_some_iff.mp h
      exact ⟨t, th, hth, .inl hp⟩
  | name t =>
      obtain ⟨th, hth, hp⟩ := Option.bind_eq_some_iff.mp h
      obtain ⟨line, hline, rfl⟩ := Option.map_eq_some_iff.mp hp
      exact ⟨t, th, hth, .inr (.inl ⟨line.2, hline⟩)⟩
  | pagedir t =>
      obtain ⟨pd, hpd, rfl⟩ := Option.map_eq_some_iff.mp h
      obtain ⟨th, hth, hpd⟩ := hdir hpd
      exact ⟨t, th, hth, .inr (.inr ⟨pd, hpd, .inl rfl⟩)⟩
  | table t i =>
      obtain ⟨pt, hpt, rfl⟩ := Option.map_eq_some_iff.mp h
      obtain ⟨th, pd, hth, hpd, hpt⟩ := htable hpt
      exact ⟨t, th, hth, .inr (.inr ⟨pd, hpd, .inr ⟨i, pt, hpt, .inl rfl⟩⟩)⟩
  | entry t i j =>
      obtain ⟨pt, hpt, hp⟩ := Option.bind_eq_some_iff.mp h
      obtain ⟨pte, hpte, rfl⟩ := Option.map_eq_some_iff.mp hp
      obtain ⟨th, pd, hth, hpd, hpt⟩ := htable hpt
      exact ⟨t, th, hth, .inr (.inr ⟨pd, hpd, .inr ⟨i, pt, hpt, .inr ⟨j, pte, hpte, rfl⟩⟩⟩)⟩

/-- A page nothing refers to is local to whoever holds its address. -/
theorem Owned.hold (h : Owned b [] s) (hp : p ∈ s.handed)
    (hfree : ∀ t th, s.threads t = some th → ¬ th.Refers p) : ∃ u, Owned b [(u, p)] s := by
  obtain ⟨u, hu⟩ := h.handedUsed hp
  have href : ∀ r, s.refPage r ≠ some p := by
    intro r hr
    obtain ⟨t, th, hth, hrefers⟩ := refers_of_refPage hr
    exact hfree t th hth hrefers
  refine ⟨u, { h with
    localUsed := fun hm => ?_
    localFree := fun hm => ?_
    localNodup := List.nodup_singleton _ }⟩
  · obtain ⟨rfl, rfl⟩ := Prod.mk.inj (List.mem_singleton.mp hm)
    exact hu
  · rw [(Prod.mk.inj (List.mem_singleton.mp hm)).2]
    exact href

/-- What an operation must not do to keep the frame table accurate: `process_exit` with
pages mapped. -/
def KeepsTable (s : Kernel) (t : ℕ) : Op → Prop
  | .processExit => ∀ th pd, s.threads t = some th → th.pagedir = some pd →
      ∀ i pt, pd.tables i = some pt → ∀ j, pt.entries j = none
  | _ => True

/-- **No call of any thread gives a page a second owner**, and the frame table stays
accurate unless a process with mapped pages exits or the kernel panics. -/
theorem Owned.step (h : Owned b [] s) {fuel t : ℕ} {op : Op} (hallowed : Allowed s t op)
    (hb : b → KeepsTable s t op) : Owned (b ∧ (step fuel t op s).up = true) [] (step fuel t op s) := by
  have h0 : Owned b [] { s with current := t } := h.same (.of_threads rfl rfl rfl rfl rfl rfl rfl)
  have hcall : Ends (op.call fuel { s with current := t }) (fun _ s' => Owned b [] s') (Left b) := by
    cases op with
    | execute cmdline => exact (processExecute_spec h0 fuel cmdline).bind fun _ _ h1 => h1
    | start => exact startProcess_spec h0 fuel
    | getFrame flags =>
        exact (getFrame_spec h0 fuel flags).bind fun _ _ h1 => h1.forget (List.nil_sublist _)
    | freeFrame page =>
        obtain ⟨th, hth, -, rfl | ⟨hp, hfree⟩⟩ := hallowed
        · exact freeFrame_null h0
        · obtain ⟨u, h1⟩ := h0.hold hp hfree
          exact freeFrame_spec h1
    | evictFrame => exact (evictFrame_stops h0).mono (fun _ _ => False.elim) fun _ _ => id
    | pageFault info => exact pageFault_spec h0 fuel info
    | heapPage =>
        exact (pallocGetPage_spec h0 {}).bind fun _ _ h1 => h1.1.forget (List.nil_sublist _)
    | exit => exact ((Touchless.exitStatus fuel).owned h0).bind fun e => e.elim
    | kill => exact (Touchless.threadExit.owned h0).bind fun e => e.elim
    | processExit =>
        refine processExit_spec h0 fun hb' i j => ?_
        by_contra hne
        obtain ⟨p, hp⟩ := Option.ne_none_iff_exists'.mp hne
        obtain ⟨pt, hpt, hp⟩ := Option.bind_eq_some_iff.mp hp
        obtain ⟨pd, hpd, hpt⟩ := Option.bind_eq_some_iff.mp hpt
        obtain ⟨th, hth, hpd⟩ := Option.bind_eq_some_iff.mp hpd
        rw [hb hb' th pd hth hpd i pt hpt j] at hp
        cases hp
  unfold Vm.step
  cases hr : op.call fuel { s with current := t } with
  | ok a s' =>
      rw [hr] at hcall
      exact Owned.weaken hcall And.left
  | error e s' =>
      rw [hr] at hcall
      cases e with
      | exiting => exact Owned.weaken hcall fun hc => ⟨hc.1, True.intro⟩
      | unending =>
          refine Owned.weaken (Owned.same hcall ?_) fun hc => ⟨hc.1, True.intro⟩
          exact .updateCurrent (fun _ => rfl) (fun _ => rfl) fun _ => rfl
      | panicked =>
          have h1 : Owned _ [] { s' with up := false } :=
            Owned.same hcall (.of_threads rfl rfl rfl rfl rfl rfl rfl)
          exact h1.weaken fun hc => (Bool.false_ne_true hc.2).elim
      | undefined =>
          have h1 : Owned _ [] { s' with up := false } :=
            Owned.same hcall (.of_threads rfl rfl rfl rfl rfl rfl rfl)
          exact h1.weaken fun hc => (Bool.false_ne_true hc.2).elim

theorem Kernel.Booted.owned (h : Kernel.Booted s) : Owned True [] s := by
  have hrefs : ∀ r, s.refPage r = none := by
    intro r
    have hpage : ∀ t, (s.threads t).bind (fun th => th.page) = none := fun t => by
      rw [h.threads]
      by_cases e : t = 1 <;> simp [e]
    have hname : ∀ t, (s.threads t).bind (fun th => th.fileName.map Prod.fst) = none := fun t => by
      rw [h.threads]
      by_cases e : t = 1 <;> simp [e]
    have hdir : ∀ t, s.dirAt t = none := fun t => by
      rw [Kernel.dirAt, h.threads]
      by_cases e : t = 1 <;> simp [e]
    cases r with
    | thread t => exact hpage t
    | name t => exact hname t
    | pagedir t => simp [Kernel.refPage, hdir]
    | table t i => simp [Kernel.refPage, Kernel.tableAt, hdir]
    | entry t i j => simp [Kernel.refPage, Kernel.tableAt, hdir]
  have hnone : ∀ {r p}, s.refPage r ≠ some p := fun e => (Option.some_ne_none _ (e.symm.trans (hrefs _))).elim
  obtain ⟨limit, used, hpools⟩ := h.pools
  refine ⟨hpools ▸ apart_pallocInit _ _ _, h.locking, fun e => absurd e hnone, fun e => absurd e hnone,
    fun hm => (List.not_mem_nil hm).elim, fun hm => (List.not_mem_nil hm).elim, List.nodup_nil,
    fun hm => ?_, ?_, fun _ e => absurd e hnone, fun g hg => ?_, fun t ht => ?_, fun _ => ?_⟩
  · rw [h.handed] at hm
    cases hm
  · rw [h.handed]
    exact List.nodup_nil
  · rw [h.grants] at hg
    cases hg
  · rw [h.nextTid] at ht
    rw [h.threads]
    exact if_neg (by omega)
  · rw [h.fifoList, h.handed]
    rfl

theorem Reach.owned (h : Reach s) : Owned False [] s := by
  induction h with
  | boot h => exact h.owned.weaken False.elim
  | step _ _ allowed ih => exact (ih.step allowed False.elim).weaken False.elim

/-- Thread `t` is alive and has a present user page table entry for the page. -/
def Maps (s : Kernel) (t page : ℕ) : Prop :=
  ∃ th pd i pt j pte, s.threads t = some th ∧ th.pagedir = some pd ∧ pd.tables i = some pt ∧
    pt.entries j = some pte ∧ pte.kpage = page

theorem Maps.refPage {t : ℕ} (h : Maps s t p) : ∃ i j, s.refPage (.entry t i j) = some p := by
  obtain ⟨th, pd, i, pt, j, pte, hth, hpd, hpt, hpte, rfl⟩ := h
  refine ⟨i, j, ?_⟩
  simp [Kernel.refPage, Kernel.tableAt, Kernel.dirAt, hth, hpd, hpt, hpte]

/-- No stale user mapping. -/
structure NoStale (s : Kernel) : Prop where
  /-- What a live process maps is allocated in the user pool. -/
  allocated : ∀ {t page}, Maps s t page → Used (s.pools .user) page
  /-- No two live processes map the same page. -/
  unshared : ∀ {t t' page}, Maps s t page → Maps s t' page → t = t'
  /-- `palloc_get_page` has never returned a page that was mapped at that moment. -/
  granted : ∀ g ∈ s.grants, g.mappers = []
  /-- And it will not do so next. -/
  next : ∀ {flags page s' t}, pallocGetPage flags s = .ok (some page) s' → ¬ Maps s t page

/-- **No stale user mapping, in every state of every run.** -/
theorem noStale_of_reach (h : Reach s) : NoStale s := by
  have ho := h.owned
  refine ⟨fun hm => ?_, fun h1 h2 => ?_, ho.grants, fun {flags page s' t} hrun hm => ?_⟩
  · obtain ⟨i, j, hr⟩ := hm.refPage
    exact ho.used hr
  · obtain ⟨i, j, h1⟩ := h1.refPage
    obtain ⟨i', j', h2⟩ := h2.refPage
    exact (Ref.entry.inj (ho.inj h1 h2)).1
  · have hspec := pallocGetPage_spec ho flags
    rw [hrun] at hspec
    obtain ⟨h1, hthreads, -, -⟩ := hspec
    obtain ⟨i, j, hr⟩ := hm.refPage
    exact h1.localFree (List.mem_cons_self ..) _ (refPage_of_threads hthreads _ ▸ hr)

/-- The executable header of a program without segments. -/
def emptyProgram : Image where
  length := 52
  byte k := ([0x7f, 0x45, 0x4c, 0x46, 1, 1, 1, 0, 0, 0, 0, 0, 0, 0, 0, 0, 2, 0, 3, 0, 1, 0, 0, 0,
    0, 0, 0, 0, 0, 0, 0, 0, 0, 0, 0, 0, 0, 0, 0, 0, 0, 0, 32, 0, 0, 0] : List UInt8).getD k 0

/-- A machine of 288 pages with the program `a` on its disk and no swap device. -/
def smallKernel : Kernel where
  pools := pallocInit 288 1000 fun _ _ => false
  initRamPages := 288
  mem _ := 0
  swap := ⟨none, false, ⟨0, fun _ => false⟩⟩
  fifoList := []
  threads t := if t = 1 then some ⟨none, none, [], fun _ => none, none, none, .running⟩ else none
  nextTid := 2
  current := 1
  files _ := ⟨⟨0, fun _ => 0⟩, 0⟩
  nextFile := 0
  disk name := if name = [0x61] then some emptyProgram else none
  heap _ := true
  mallocs := 0
  junk _ := false
  holder _ := none
  locking := true
  lockLog := []
  handed := []
  grants := []
  up := true

theorem booted_smallKernel : Kernel.Booted smallKernel :=
  ⟨⟨1000, fun _ _ => false, rfl⟩, rfl, rfl, rfl, rfl, fun _ => rfl, rfl, rfl, rfl, rfl⟩

/-- The program `a` is started, and loads. -/
def loaded : Kernel := step 3 2 .start (step 3 1 (.execute [0x61]) smallKernel)

/-- A thread that is in the right place may make any call but `free_frame`. -/
theorem allowed_of_life {t : ℕ} {life : Life} (h : (s.threads t).map (·.life) = some life) :
    (life = .starting → Allowed s t .start) ∧ (life = .dying → Allowed s t .processExit) ∧
      (life = .running → Allowed s t .exit ∧ ∀ cmdline, Allowed s t (.execute cmdline)) := by
  obtain ⟨th, hth, rfl⟩ := Option.map_eq_some_iff.mp h
  exact ⟨fun e => ⟨th, hth, e⟩, fun e => ⟨th, hth, e⟩,
    fun e => ⟨⟨th, hth, e⟩, fun _ => ⟨th, hth, e⟩⟩⟩

theorem noStale_loaded : Reach loaded ∧ Maps loaded 2 (physBase + 0x111000) ∧ NoStale loaded := by
  have h1 : Reach (step 3 1 (.execute [0x61]) smallKernel) :=
    .step (.boot booted_smallKernel) rfl (((allowed_of_life rfl).2.2 rfl).2 _)
  have h2 : Reach loaded :=
    .step h1 (by decide +kernel)
      ((allowed_of_life (show _ = some Life.starting by decide +kernel)).1 rfl)
  have hmaps : (((loaded.threads 2).bind fun th => th.pagedir).bind fun pd => pd.tables 767).bind
      (fun pt => pt.entries 1023) = some ⟨physBase + 0x111000, true⟩ := by
    decide +kernel
  obtain ⟨pt, hpt, hpte⟩ := Option.bind_eq_some_iff.mp hmaps
  obtain ⟨pd, hpd, hpt⟩ := Option.bind_eq_some_iff.mp hpt
  obtain ⟨th, hth, hpd⟩ := Option.bind_eq_some_iff.mp hpd
  exact ⟨h2, ⟨th, pd, 767, pt, 1023, _, hth, hpd, hpt, hpte, rfl⟩, noStale_of_reach h2⟩

/-! ## The frame table -/

/-- The frame table is accurate: its pages are distinct, they are the pages `get_frame` has
handed out and nobody has freed, in order, and the one `evict_frame` would take is
allocated. -/
structure FrameTableOk (s : Kernel) : Prop where
  distinct : (s.fifoList.map Frame.page).Nodup
  accurate : s.fifoList.map Frame.page = s.handed
  allocated : ∀ p ∈ s.handed, ∃ u, Used (s.pools u) p
  victim : ∀ f rest, s.fifoList = f :: rest → ∃ u, Used (s.pools u) f.page

/-- The states reached by calls none of which is `process_exit` of a process with pages
mapped. -/
inductive TableReach : Kernel → Prop
  | boot {s : Kernel} (h : Kernel.Booted s) : TableReach s
  | step {s : Kernel} {fuel t : ℕ} {op : Op} (h : TableReach s) (up : s.up = true)
      (allowed : Allowed s t op) (keeps : KeepsTable s t op) : TableReach (step fuel t op s)

theorem TableReach.owned (h : TableReach s) : Owned (s.up = true) [] s := by
  induction h with
  | boot h => exact h.owned.weaken fun _ => True.intro
  | step _ up allowed keeps ih =>
      exact (ih.step allowed fun _ => keeps).weaken fun hup => ⟨up, hup⟩

/-- **The frame table is accurate as long as no process with mapped pages exits.** -/
theorem frameTable_of_reach (h : TableReach s) (up : s.up = true) : FrameTableOk s := by
  have ho := h.owned
  have hexact := ho.accurate up
  refine ⟨hexact ▸ ho.handedNodup, hexact, fun p hp => ho.handedUsed hp, fun f rest e => ?_⟩
  refine ho.handedUsed (hexact ▸ ?_)
  rw [e]
  exact List.mem_cons_self ..

theorem frameTable_loaded : TableReach loaded ∧ loaded.fifoList.length = 5 ∧
    FrameTableOk loaded := by
  have h1 : TableReach (step 3 1 (.execute [0x61]) smallKernel) :=
    .step (.boot booted_smallKernel) rfl (((allowed_of_life rfl).2.2 rfl).2 _) True.intro
  have h2 : TableReach loaded :=
    .step h1 (by decide +kernel)
      ((allowed_of_life (show _ = some Life.starting by decide +kernel)).1 rfl) True.intro
  exact ⟨h2, by decide +kernel, frameTable_of_reach h2 (by decide +kernel)⟩

/-- When the program exits, its stack page stays in the frame table. -/
theorem frameTable_stale_after_exit :
    ¬ ∀ s, Reach s → s.up = true → FrameTableOk s := by
  intro claim
  have h1 : Reach (step 3 1 (.execute [0x61]) smallKernel) :=
    .step (.boot booted_smallKernel) rfl (((allowed_of_life rfl).2.2 rfl).2 _)
  have h2 : Reach loaded :=
    .step h1 (by decide +kernel)
      ((allowed_of_life (show _ = some Life.starting by decide +kernel)).1 rfl)
  have h3 : Reach (step 3 2 .exit loaded) :=
    .step h2 (by decide +kernel)
      ((allowed_of_life (show _ = some Life.running by decide +kernel)).2.2 rfl).1
  have h4 : Reach (step 3 2 .processExit (step 3 2 .exit loaded)) :=
    .step h3 (by decide +kernel)
      ((allowed_of_life (show _ = some Life.dying by decide +kernel)).2.1 rfl)
  have hstale : (step 3 2 .processExit (step 3 2 .exit loaded)).fifoList.map Frame.page ≠
      (step 3 2 .processExit (step 3 2 .exit loaded)).handed := by
    decide +kernel
  exact hstale (claim _ h4 (by decide +kernel)).accurate

end Pintos.Vm
