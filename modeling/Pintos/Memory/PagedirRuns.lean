import Pintos.Memory.PagedirMap
import Pintos.Memory.MallocSafety

/-!
# The life of a page directory

From `pagedir_create` to `pagedir_destroy`.  Between the two, calls on the directory and
steps of other code come in any order; `Tracked` carries along the map the directory is
to stand for.  **`pagedir_of_run` says that it does stand for it**, that every answer is
the answer of the map, and that the directory can be destroyed at any time.

`pagedir_destroy` frees the kernel page of every user page that is mapped.  A kernel page
mapped at two user pages would be freed twice, which `palloc_free_page` does not survive
(`destroy_fails_on_alias`).
-/

namespace Pintos.Memory

open Lib Vm

variable {ram pd : ℕ} {m m0 m' : Machine} {M : PageMap} {L : List ℕ}

/-! ## Freeing pages one after the other -/

/-- The pages in `L` have been freed since `m0`, and nothing else has happened. -/
structure Freed (ram : ℕ) (m0 : Machine) (L : List ℕ) (m : Machine) : Prop where
  laid : Laid ram m.pools
  log : m.freed = m0.freed ++ L
  used : ∀ u q, Used (m.pools u) q ↔ Used (m0.pools u) q ∧ q ∉ L
  word : ∀ a, (∀ q ∈ L, ¬ inPage q a) → m.word a = m0.word a
  init : m.initPageDir = m0.initPageDir

/-- `palloc_free_page` of a page that is still there. -/
theorem Freed.free (h : Freed ram m0 L m) {u : PoolName} {q : ℕ} (hq : Used (m0.pools u) q)
    (hnot : q ∉ L) (hlaid : Laid ram m0.pools) :
    ∃ m', pallocFreePage q m = .ok () m' ∧ Freed ram m0 (L ++ [q]) m' := by
  have hused : Used (m.pools u) q := (h.used u q).mpr ⟨hq, hnot⟩
  have hpage : ∀ p ∈ pagesFrom q 1, Used (m.pools u) p := by
    intro p hp
    rw [pagesFrom_one, List.mem_singleton] at hp
    rwa [hp]
  obtain ⟨pools, hfree, hlaid', hused'⟩ := pallocFreeMultiple_used h.laid Nat.one_pos hpage
  refine ⟨{ m with
    pools := pools
    freed := m.freed ++ [q]
    word := fun a => if inPage q a then 0xcccccccc else m.word a }, ?_, ?_⟩
  · simp only [pallocFreePage, fetch_bind, hfree]
    rfl
  · refine ⟨hlaid', ?_, fun v p => ?_, fun a ha => ?_, h.init⟩
    · show m.freed ++ [q] = _
      rw [h.log, List.append_assoc]
    · rw [hused', h.used, pagesFrom_one, List.mem_singleton, List.mem_append, List.mem_singleton]
      constructor
      · rintro ⟨⟨hp, hpL⟩, hne⟩
        refine ⟨hp, ?_⟩
        rintro (hp' | rfl)
        · exact hpL hp'
        · exact hne ⟨hlaid.pool_eq hp hq, rfl⟩
      · rintro ⟨hp, hpL⟩
        exact ⟨⟨hp, fun h' => hpL (.inl h')⟩, fun h' => hpL (.inr h'.2)⟩
    · have hout : ¬ inPage q a := ha q (by simp)
      show (if inPage q a then _ else m.word a) = _
      rw [if_neg hout]
      exact h.word a fun p hp => ha p (by simp [hp])

/-! ## The loops of `pagedir_destroy` -/

/-- The kernel pages mapped by the entries `js` of the page table `i`. -/
def kpages (M : PageMap) (i : ℕ) (js : List ℕ) : List ℕ :=
  js.filterMap fun j => (M (entryCnt * i + j)).map Prod.fst

/-- The pages of the page table `i`, in the order in which they are freed. -/
def tablePages (m : Machine) (pd : ℕ) (M : PageMap) (i : ℕ) : List ℕ :=
  if m.word (pd + 4 * i) = 0 then []
  else kpages M i (List.range entryCnt) ++ [m.word (pd + 4 * i) - 7 + physBase]

/-- All pages of the directory. -/
def dirPages (m : Machine) (pd : ℕ) (M : PageMap) : List ℕ :=
  (List.range userTables).flatMap (tablePages m pd M) ++ [pd]

theorem tablePages_of_table {i pt : ℕ} (ht : TableAt m pd i pt) :
    tablePages m pd M i = kpages M i (List.range entryCnt) ++ [pt] := by
  have hpt : m.word (pd + 4 * i) - 7 + physBase = pt := by
    have h1 := ht.1
    rw [ht.2, pdeOf, Nat.add_sub_cancel, Nat.sub_add_cancel h1]
  rw [tablePages, if_neg ht.ne_zero, hpt]

/-- The number of a page in its table. -/
theorem entry_index {i j : ℕ} (hj : j < entryCnt) :
    (entryCnt * i + j) / entryCnt = i ∧ (entryCnt * i + j) % entryCnt = j := by
  constructor
  · rw [Nat.mul_add_div (by decide), Nat.div_eq_of_lt hj, Nat.add_zero]
  · rw [Nat.mul_add_mod, Nat.mod_eq_of_lt hj]

/-- The inner loop frees the pages that the table maps. -/
theorem destroyEntries_ok (h : Rep ram pd M m0) {i pt : ℕ} (hi : i < userTables)
    (ht : TableAt m0 pd i pt) : ∀ (js L : List ℕ) (m : Machine), Freed ram m0 L m →
      (∀ j ∈ js, j < entryCnt) → (∀ q ∈ L, q % pgSize = 0 ∧ q ≠ pt) → (L ++ kpages M i js).Nodup →
      ∃ m', forEach (destroyEntry pt) js m = .ok () m' ∧ Freed ram m0 (L ++ kpages M i js) m' := by
  have hpt := (h.table hi ht).1
  have hptal := h.laid.page_aligned hpt
  intro js
  induction js with
  | nil =>
      intro L m hf _ _ _
      exact ⟨m, rfl, by simpa [kpages] using hf⟩
  | cons j js ih =>
      intro L m hf hjs hL hnodup
      have hj := hjs j List.mem_cons_self
      obtain ⟨hdiv, hmod⟩ := entry_index (i := i) hj
      have hword : m.word (pt + 4 * j) = m0.word (pt + 4 * j) := by
        refine hf.word _ fun q hq hin => (hL q hq).2 ?_
        exact inPage_unique (hL q hq).1 hptal hin (inPage_entry pt hj)
      have hentry : EntryIs (m.word (pt + 4 * j)) (M (entryCnt * i + j)) := by
        have := h.entries (n := entryCnt * i + j) (hdiv.symm ▸ hi) (hdiv.symm ▸ ht)
        rwa [hmod, ← hword] at this
      have hodd := Rep.even_iff hentry fun k b e => ⟨ram, h.kpage (h.mapped e)⟩
      rw [forEach]
      cases hM : M (entryCnt * i + j) with
      | none =>
          have hskip : destroyEntry pt j m = .ok () m := by
            simp only [destroyEntry, fetch_bind]
            rw [if_neg (by simpa using hodd.mpr hM)]
            rfl
          have hk : kpages M i (j :: js) = kpages M i js := by
            simp [kpages, hM]
          rw [bind_of_ok hskip, hk]
          exact ih L m hf (fun k hk => hjs k (List.mem_cons_of_mem _ hk)) hL (hk ▸ hnodup)
      | some e =>
          have hused := h.mapped (k := e.1) (w := e.2) hM
          have hk : kpages M i (j :: js) = e.1 :: kpages M i js := by
            simp [kpages, hM]
          rw [hk] at hnodup ⊢
          have hnew : e.1 ∉ L := fun hm =>
            (List.nodup_append.mp hnodup).2.2 e.1 hm e.1 List.mem_cons_self rfl
          obtain ⟨m1, hfree, hf1⟩ := hf.free hused hnew h.laid
          have hne : m.word (pt + 4 * j) &&& pteP ≠ 0 := fun heven => by
            have := hodd.mp heven
            rw [hM] at this
            cases this
          have hget : pteGetPage (m.word (pt + 4 * j)) m = .ok e.1 m := by
            rw [hM] at hentry
            rw [show m.word (pt + 4 * j) = pteOf e.1 e.2 from hentry]
            exact pteGetPage_ok (h.kpage hused) h.ram_le e.2
          have hround : destroyEntry pt j m = .ok () m1 := by
            simp only [destroyEntry, fetch_bind]
            rw [if_pos hne, bind_of_ok hget, hfree]
          rw [bind_of_ok hround]
          have hL1 : ∀ q ∈ L ++ [e.1], q % pgSize = 0 ∧ q ≠ pt := by
            intro q hq
            rcases List.mem_append.mp hq with hq | hq
            · exact hL q hq
            · rw [List.mem_singleton.mp hq]
              refine ⟨h.laid.page_aligned hused, fun e' => ?_⟩
              cases h.laid.pool_eq (e' ▸ hused) hpt
          have hassoc : L ++ e.1 :: kpages M i js = (L ++ [e.1]) ++ kpages M i js := by
            simp
          rw [hassoc] at hnodup ⊢
          exact ih _ m1 hf1 (fun k hk => hjs k (List.mem_cons_of_mem _ hk)) hL1 hnodup

/-- The pages a table brings are allocated, and none of them is the directory. -/
theorem mem_tablePages (h : Rep ram pd M m) {i q : ℕ} (hi : i < userTables) :
    q ∈ tablePages m pd M i ↔
      (∃ j < entryCnt, ∃ w, M (entryCnt * i + j) = some (q, w)) ∨ TableAt m pd i q := by
  rcases h.tables hi with hz | ⟨pt, ht, -⟩
  · have hnone : ∀ j < entryCnt, M (entryCnt * i + j) = none := by
      intro j hj
      have hdiv := (entry_index (i := i) hj).1
      exact h.missing (hdiv.symm ▸ hi) (hdiv.symm ▸ hz)
    rw [tablePages, if_pos hz]
    constructor
    · intro hq
      cases hq
    · rintro (⟨j, hj, w, e⟩ | ht)
      · rw [hnone j hj] at e
        cases e
      · exact absurd hz ht.ne_zero
  · rw [tablePages_of_table ht, List.mem_append, List.mem_singleton, kpages, List.mem_filterMap]
    refine or_congr ?_ ⟨fun e => e ▸ ht, fun ht' => ht'.unique ht⟩
    simp

theorem tablePages_spec (h : Rep ram pd M m) {i q : ℕ} (hi : i < userTables)
    (hq : q ∈ tablePages m pd M i) : q % pgSize = 0 ∧ q ≠ pd := by
  rcases (mem_tablePages h hi).mp hq with ⟨j, -, w, e⟩ | ht
  · have hused := h.mapped e
    refine ⟨h.laid.page_aligned hused, fun e' => ?_⟩
    cases h.laid.pool_eq (e' ▸ hused) h.pdUsed
  · obtain ⟨hused, hne, -⟩ := h.table hi ht
    exact ⟨h.laid.page_aligned hused, hne⟩

/-- One round of the outer loop. -/
theorem destroyTable_ok (h : Rep ram pd M m0) {i : ℕ} (hi : i < userTables)
    (hf : Freed ram m0 L m) (hL : ∀ q ∈ L, q % pgSize = 0 ∧ q ≠ pd)
    (hnodup : (L ++ tablePages m0 pd M i).Nodup) :
    ∃ m', destroyTable pd i m = .ok () m' ∧ Freed ram m0 (L ++ tablePages m0 pd M i) m' := by
  have hlt : i < entryCnt := lt_of_lt_of_le hi (by decide)
  have hword : m.word (pd + 4 * i) = m0.word (pd + 4 * i) := by
    refine hf.word _ fun q hq hin => (hL q hq).2 ?_
    exact inPage_unique (hL q hq).1 (h.laid.page_aligned h.pdUsed) hin (inPage_entry pd hlt)
  rcases h.tables_cases hi with hz | ⟨pt, ht, hused, hkp, -⟩
  · refine ⟨m, ?_, ?_⟩
    · simp only [destroyTable, fetch_bind]
      rw [hword, hz, if_neg (by simp)]
      rfl
    · rw [tablePages, if_pos hz, List.append_nil]
      exact hf
  · rw [tablePages_of_table ht, ← List.append_assoc] at hnodup ⊢
    obtain ⟨hfirst, -, hlast⟩ := List.nodup_append.mp hnodup
    have hptL : ∀ q ∈ L ++ kpages M i (List.range entryCnt), q ≠ pt := fun q hq =>
      hlast q hq pt (List.mem_singleton_self pt)
    obtain ⟨m1, hrun, hf1⟩ := destroyEntries_ok h hi ht (List.range entryCnt) L m hf
      (fun j hj => List.mem_range.mp hj)
      (fun q hq => ⟨(hL q hq).1, hptL q (List.mem_append_left _ hq)⟩) hfirst
    obtain ⟨m2, hfree, hf2⟩ := hf1.free hused (fun hm => hptL pt hm rfl) h.laid
    refine ⟨m2, ?_, hf2⟩
    have hodd : pdeOf pt &&& pteP ≠ 0 := by
      rw [and_pteP]
      have h1 := hkp.aligned
      have h2 := hkp.lower
      simp only [pdeOf, pgSize, physBase] at *
      omega
    simp only [destroyTable, fetch_bind]
    rw [hword, ht.2, if_pos hodd, bind_of_ok (pdeGetPt_ok hkp h.ram_le), bind_of_ok hrun, hfree]

/-- The outer loop frees the pages of one table after the other. -/
theorem destroyTables_ok (h : Rep ram pd M m0) : ∀ (is L : List ℕ) (m : Machine),
    Freed ram m0 L m → (∀ i ∈ is, i < userTables) → (∀ q ∈ L, q % pgSize = 0 ∧ q ≠ pd) →
      (L ++ is.flatMap (tablePages m0 pd M)).Nodup →
      ∃ m', forEach (destroyTable pd) is m = .ok () m' ∧
        Freed ram m0 (L ++ is.flatMap (tablePages m0 pd M)) m' := by
  intro is
  induction is with
  | nil =>
      intro L m hf _ _ _
      exact ⟨m, rfl, by simpa using hf⟩
  | cons i is ih =>
      intro L m hf his hL hnodup
      have hi := his i List.mem_cons_self
      rw [List.flatMap_cons, ← List.append_assoc] at hnodup ⊢
      obtain ⟨m1, hround, hf1⟩ := destroyTable_ok h hi hf hL (List.nodup_append.mp hnodup).1
      rw [forEach, bind_of_ok hround]
      refine ih _ m1 hf1 (fun j hj => his j (List.mem_cons_of_mem _ hj)) (fun q hq => ?_) hnodup
      rcases List.mem_append.mp hq with hq | hq
      · exact hL q hq
      · exact tablePages_spec h hi hq

/-! ## Every page once -/

/-- No kernel page is mapped at two user pages. -/
def Unaliased (M : PageMap) : Prop :=
  ∀ n n' k w w', M n = some (k, w) → M n' = some (k, w') → n = n'

/-- The pages that belong to the directory: itself, its page tables and what it maps. -/
def Owned (pd : ℕ) (M : PageMap) (m : Machine) (q : ℕ) : Prop :=
  q = pd ∨ (∃ i < userTables, TableAt m pd i q) ∨ ∃ n w, M n = some (q, w)

theorem mem_dirPages (h : Rep ram pd M m) {q : ℕ} :
    q ∈ dirPages m pd M ↔ Owned pd M m q := by
  rw [dirPages, List.mem_append, List.mem_singleton, List.mem_flatMap, or_comm]
  refine or_congr_right ?_
  constructor
  · rintro ⟨i, hi, hq⟩
    have hi := List.mem_range.mp hi
    rcases (mem_tablePages h hi).mp hq with ⟨j, -, w, e⟩ | ht
    · exact .inr ⟨_, w, e⟩
    · exact .inl ⟨i, hi, ht⟩
  · rintro (⟨i, hi, ht⟩ | ⟨n, w, e⟩)
    · exact ⟨i, List.mem_range.mpr hi, (mem_tablePages h hi).mpr (.inr ht)⟩
    · have hi : n / entryCnt < userTables := by
        by_contra hout
        rw [h.outside (not_lt.mp hout)] at e
        cases e
      refine ⟨n / entryCnt, List.mem_range.mpr hi, (mem_tablePages h hi).mpr (.inl ?_)⟩
      refine ⟨n % entryCnt, Nat.mod_lt _ (by decide), w, ?_⟩
      rwa [Nat.div_add_mod]

/-- A page is in the list of one table, and there once. -/
theorem nodup_tables (h : Rep ram pd M m) (hM : Unaliased M) :
    ((List.range userTables).flatMap (tablePages m pd M)).Nodup := by
  have hpool : ∀ {n q w i}, M n = some (q, w) → i < userTables → TableAt m pd i q → False := by
    intro n q w i e hi ht
    cases h.laid.pool_eq (h.mapped e) (h.table hi ht).1
  refine List.nodup_flatMap.mpr ⟨fun i hi => ?_, ?_⟩
  · have hi := List.mem_range.mp hi
    rcases h.tables hi with hz | ⟨pt, ht, -⟩
    · rw [tablePages, if_pos hz]
      exact List.nodup_nil
    · rw [tablePages_of_table ht]
      refine List.nodup_append.mpr ⟨?_, List.nodup_singleton pt, fun q hq q' hq' e => ?_⟩
      · refine List.Nodup.filterMap (fun j j' k hk hk' => ?_) List.nodup_range
        obtain ⟨⟨k1, w⟩, e, rfl⟩ := Option.mem_map.mp hk
        obtain ⟨⟨k2, w'⟩, e', rfl⟩ := Option.mem_map.mp hk'
        have := hM _ _ _ w w' e e'
        omega
      · rw [List.mem_singleton.mp hq'] at e
        obtain ⟨j, -, hj⟩ := List.mem_filterMap.mp hq
        obtain ⟨⟨k, w⟩, hk, rfl⟩ := Option.map_eq_some_iff.mp hj
        have e : k = pt := e
        exact hpool hk hi (e ▸ ht)
  · refine List.nodup_range.imp_of_mem fun {i i'} hi hi' hne q hq hq' => ?_
    have hi := List.mem_range.mp hi
    have hi' := List.mem_range.mp hi'
    rcases (mem_tablePages h hi).mp hq with ⟨j, hj, w, e⟩ | ht <;>
      rcases (mem_tablePages h hi').mp hq' with ⟨j', hj', w', e'⟩ | ht'
    · have hindex := hM _ _ _ w w' e e'
      have hdiv := (entry_index (i := i) hj).1
      rw [hindex, (entry_index hj').1] at hdiv
      exact hne hdiv.symm
    · exact hpool e hi' ht'
    · exact hpool e' hi ht
    · exact hne (h.inj hi hi' ht ht')

/-- **`pagedir_destroy` frees the pages of the directory**, each of them once. -/
theorem destroy_spec (h : Rep ram pd M m) (hM : Unaliased M) :
    (dirPages m pd M).Nodup ∧
      ∃ m', pagedirDestroy pd m = .ok () m' ∧ Freed ram m (dirPages m pd M) m' := by
  have htables := nodup_tables h hM
  have hpd : ∀ q ∈ (List.range userTables).flatMap (tablePages m pd M), q ≠ pd := by
    intro q hq
    obtain ⟨i, hi, hq⟩ := List.mem_flatMap.mp hq
    exact (tablePages_spec h (List.mem_range.mp hi) hq).2
  have hstart : Freed ram m [] m := ⟨h.laid, by simp, by simp, fun _ _ => rfl, rfl⟩
  have hloop := destroyTables_ok h (List.range userTables) [] m hstart
    (fun i hi => List.mem_range.mp hi) fun q hq => absurd hq List.not_mem_nil
  rw [List.nil_append] at hloop
  obtain ⟨m1, hrun, hf1⟩ := hloop htables
  obtain ⟨m2, hfree, hf2⟩ := hf1.free h.pdUsed (fun hm => hpd pd hm rfl) h.laid
  refine ⟨?_, m2, ?_, hf2⟩
  · refine List.nodup_append.mpr ⟨htables, List.nodup_singleton pd, fun q hq q' hq' => ?_⟩
    rw [List.mem_singleton.mp hq']
    exact hpd q hq
  · have hassert : dirAssert (decide (pd ≠ m.initPageDir)) m = .ok () m := by
      rw [decide_eq_true h.pd_ne_init]
      rfl
    have hno : pdNo physBase = userTables := by decide
    unfold pagedirDestroy
    rw [if_neg h.pd_ne_zero, fetch_bind, bind_of_ok hassert, hno, bind_of_ok hrun, hfree]

/-! ## Making a directory -/

/-- After `paging_init`: the first directory maps no user page, and what it refers to is
allocated. -/
structure Ready (ram : ℕ) (m : Machine) : Prop where
  laid : Laid ram m.pools
  ram_le : ram ≤ 2 ^ 18
  ram_eq : m.initRamPages = ram
  shared : ∀ q, Shared m q → Used (m.pools .kernel) q
  userHalf : ∀ i < userTables, m.word (m.initPageDir + 4 * i) = 0

/-- The machine with a copy of the first directory at `pd`. -/
def Machine.withCopy (m : Machine) (pd : ℕ) (pools : PoolName → Pool) : Machine :=
  { m with
    pools := pools
    word := fun a => if inPage pd a then m.word (m.initPageDir + (a - pd)) else m.word a }

/-- What `pagedir_create` does. -/
theorem pagedirCreate_some (hcreate : pagedirCreate m = .ok (some pd) m') :
    ∃ pools, pallocGetMultiple m.pools .kernel 1 = some (pd, pools) ∧ m' = m.withCopy pd pools := by
  unfold pagedirCreate at hcreate
  cases hget : pallocGetMultiple m.pools .kernel 1 with
  | none =>
      have hpage : pallocGetPage {} m = .ok none m := by
        simp [pallocGetPage, PallocFlags.pool, hget, dirAssert]
      rw [bind_of_ok hpage] at hcreate
      cases hcreate
  | some r =>
      obtain ⟨page, pools⟩ := r
      have hpage : pallocGetPage {} m = .ok (some page) { m with pools } := by
        simp only [pallocGetPage, PallocFlags.pool, fetch_bind, Bool.false_eq_true, if_false, hget]
        rfl
      rw [bind_of_ok hpage] at hcreate
      simp only [change_bind, pure_run, EStateM.Result.ok.injEq, Option.some.injEq] at hcreate
      obtain ⟨rfl, rfl⟩ := hcreate
      exact ⟨pools, rfl, rfl⟩

/-- **A new directory maps nothing.** -/
theorem Rep.create (h : Ready ram m) (hcreate : pagedirCreate m = .ok (some pd) m') :
    Rep ram pd (fun _ => none) m' := by
  obtain ⟨pools, hget, rfl⟩ := pagedirCreate_some hcreate
  obtain ⟨-, hlaid, hfree, hused⟩ := pallocGetMultiple_some h.laid hget
  have hpd : Used (pools .kernel) pd := (hused .kernel pd).mpr (.inr (by simp))
  have hnew : ∀ {q}, Used (m.pools .kernel) q → q ≠ pd := by
    rintro q hq rfl
    exact hfree q (by simp) .kernel hq
  have hinitUsed := h.shared m.initPageDir (.inl rfl)
  have hpdWord : ∀ {i}, i < entryCnt →
      (m.withCopy pd pools).word (pd + 4 * i) = m.word (m.initPageDir + 4 * i) := by
    intro i hi
    simp only [Machine.withCopy, if_pos (inPage_entry pd hi), Nat.add_sub_cancel_left]
  have hinitWord : ∀ {i}, i < entryCnt →
      (m.withCopy pd pools).word (m.initPageDir + 4 * i) = m.word (m.initPageDir + 4 * i) := by
    intro i hi
    refine if_neg fun hin => hnew hinitUsed ?_
    exact inPage_unique (h.laid.page_aligned hinitUsed) (hlaid.page_aligned hpd)
      (inPage_entry _ hi) hin
  have hshared : ∀ {q}, Shared (m.withCopy pd pools) q → Shared m q := by
    rintro q (rfl | ⟨i, hi, hlt, ht⟩)
    · exact .inl rfl
    · exact .inr ⟨i, hi, hlt, ht.1, (hinitWord hlt).symm.trans ht.2⟩
  have hzero : ∀ {i}, i < userTables → (m.withCopy pd pools).word (pd + 4 * i) = 0 := by
    intro i hi
    rw [hpdWord (lt_of_lt_of_le hi (by decide))]
    exact h.userHalf i hi
  refine ⟨hlaid, h.ram_le, h.ram_eq, hpd, fun {q} hq => ?_, fun hi => .inl (hzero hi),
    fun hi _ ht _ => absurd (hzero hi) ht.ne_zero, fun _ _ => rfl,
    fun hn ht => absurd (hzero hn) ht.ne_zero, fun _ => rfl, fun e => absurd e (by simp),
    fun {i} _ hlt => ?_⟩
  · have hq := h.shared q (hshared hq)
    exact ⟨(hused .kernel q).mpr (.inl hq), hnew hq⟩
  · exact (hpdWord hlt).trans (hinitWord hlt).symm

/-! ## Other code -/

/-- A page that holds entries: the directory, one of its page tables or the first
directory. -/
def Holds (pd : ℕ) (m : Machine) (q : ℕ) : Prop :=
  q = pd ∨ (∃ i < userTables, TableAt m pd i q) ∨ q = m.initPageDir

/-- **The directory does not change** as long as its entries and the marks of its pages do
not. -/
theorem Rep.frame (h : Rep ram pd M m) (hlaid : Laid ram m'.pools)
    (hram : m'.initRamPages = m.initRamPages) (hinit : m'.initPageDir = m.initPageDir)
    (hword : ∀ q i, Holds pd m q → i < entryCnt → m'.word (q + 4 * i) = m.word (q + 4 * i))
    (hused : ∀ u q, Used (m.pools u) q → Owned pd M m q ∨ Shared m q → Used (m'.pools u) q) :
    Rep ram pd M m' := by
  have hlow : ∀ {i}, i < userTables → i < entryCnt := fun hi => lt_of_lt_of_le hi (by decide)
  have hpdWord : ∀ {i}, i < entryCnt → m'.word (pd + 4 * i) = m.word (pd + 4 * i) := fun hi =>
    hword pd _ (.inl rfl) hi
  have hinitWord : ∀ {i}, i < entryCnt →
      m'.word (m'.initPageDir + 4 * i) = m.word (m.initPageDir + 4 * i) := fun hi =>
    hinit ▸ hword m.initPageDir _ (.inr (.inr rfl)) hi
  have htable : ∀ {i q}, i < userTables → (TableAt m' pd i q ↔ TableAt m pd i q) := fun hi =>
    and_congr_right fun _ => by rw [hpdWord (hlow hi)]
  have hshared : ∀ {q}, Shared m' q ↔ Shared m q := by
    intro q
    refine or_congr (by rw [hinit]) ?_
    refine exists_congr fun i => and_congr_right fun _ => and_congr_right fun hi => ?_
    exact and_congr_right fun _ => by rw [hinitWord hi]
  refine ⟨hlaid, h.ram_le, hram.trans h.ram_eq, hused _ _ h.pdUsed (.inl (.inl rfl)),
    fun {q} hq => ?_, fun {i} hi => ?_,
    fun hi hj h1 h2 => h.inj hi hj ((htable hi).mp h1) ((htable hj).mp h2),
    fun hn hz => h.missing hn ((hpdWord (hlow hn)).symm.trans hz), fun {n pt} hn ht => ?_, h.outside,
    fun {n k w} e => hused _ _ (h.mapped e) (.inl (.inr (.inr ⟨n, w, e⟩))),
    fun hi hlt => (hpdWord hlt).trans ((h.kernelHalf hi hlt).trans (hinitWord hlt).symm)⟩
  · have hq := hshared.mp hq
    exact ⟨hused _ _ (h.shared hq).1 (.inr hq), (h.shared hq).2⟩
  · rcases h.tables hi with hz | ⟨pt, ht, hpt, hne, hns⟩
    · exact .inl ((hpdWord (hlow hi)).trans hz)
    · exact .inr ⟨pt, (htable hi).mpr ht, hused _ _ hpt (.inl (.inr (.inl ⟨_, hi, ht⟩))), hne,
        mt hshared.mp hns⟩
  · have ht := (htable hn).mp ht
    rw [hword pt _ (.inr (.inl ⟨_, hn, ht⟩)) (Nat.mod_lt _ (by decide))]
    exact h.entries hn ht

/-- A page that holds entries is allocated. -/
theorem Rep.holds_used (h : Rep ram pd M m) {q : ℕ} (hq : Holds pd m q) :
    Used (m.pools .kernel) q := by
  rcases hq with rfl | ⟨i, hi, ht⟩ | rfl
  · exact h.pdUsed
  · exact (h.table hi ht).1
  · exact (h.shared (.inl rfl)).1

/-- Other code takes a page. -/
theorem Rep.otherGet (h : Rep ram pd M m) {flags : PallocFlags} (hassert : flags.assert = false) :
    ∃ r m', pallocGetPage flags m = .ok r m' ∧ Rep ram pd M m' := by
  unfold pallocGetPage
  rw [fetch_bind]
  cases hget : pallocGetMultiple m.pools flags.pool 1 with
  | none => exact ⟨none, m, by simp [hassert, dirAssert], h⟩
  | some r =>
      obtain ⟨page, pools⟩ := r
      obtain ⟨-, hlaid, hfree, hused⟩ := pallocGetMultiple_some h.laid hget
      have hkeep : ∀ u q, Used (m.pools u) q → Used (pools u) q := fun u q hq =>
        (hused u q).mpr (.inl hq)
      have hpage : Used (pools flags.pool) page := (hused _ page).mpr (.inr (by simp))
      simp only [change_bind]
      cases flags.zero with
      | false =>
          exact ⟨some page, { m with pools }, rfl,
            h.frame hlaid rfl rfl (fun _ _ _ _ => rfl) fun u q hq _ => hkeep u q hq⟩
      | true =>
          refine ⟨some page, _, rfl, h.frame hlaid rfl rfl (fun q i hq hi => if_neg fun hin => ?_)
            fun u q hq _ => hkeep u q hq⟩
          have hq := h.holds_used hq
          have e := inPage_unique (h.laid.page_aligned hq) (hlaid.page_aligned hpage)
            (inPage_entry q hi) hin
          exact hfree page (by simp) .kernel (e ▸ hq)

/-- Other code frees a page of its own. -/
theorem Rep.otherFree (h : Rep ram pd M m) {u : PoolName} {page : ℕ} (hu : Used (m.pools u) page)
    (hown : ¬ Owned pd M m page) (hshared : ¬ Shared m page) :
    ∃ m', pallocFreePage page m = .ok () m' ∧ Rep ram pd M m' := by
  have hstart : Freed ram m [] m := ⟨h.laid, by simp, by simp, fun _ _ => rfl, rfl⟩
  obtain ⟨m', hfree, hf⟩ := hstart.free hu List.not_mem_nil h.laid
  have hram : m'.initRamPages = m.initRamPages := by
    unfold pallocFreePage at hfree
    rw [fetch_bind] at hfree
    cases hpools : pallocFreeMultiple m.pools page 1 with
    | none =>
        rw [hpools] at hfree
        cases hfree
    | some pools =>
        rw [hpools] at hfree
        cases hfree
        rfl
  refine ⟨m', hfree, h.frame hf.laid hram hf.init (fun q i hq hi => hf.word _ ?_) ?_⟩
  · intro p hp hin
    rw [List.nil_append, List.mem_singleton] at hp
    subst hp
    have e := inPage_unique (h.laid.page_aligned hu) (h.laid.page_aligned (h.holds_used hq)) hin
      (inPage_entry q hi)
    rcases hq with rfl | ht | rfl
    · exact hown (.inl e)
    · exact hown (.inr (.inl (e ▸ ht)))
    · exact hshared (.inl e)
  · intro v q hq hkept
    refine (hf.used v q).mpr ⟨hq, ?_⟩
    rw [List.nil_append, List.mem_singleton]
    rintro rfl
    exact hkept.elim hown hshared

/-- Other code stores a word. -/
theorem Rep.otherStore (h : Rep ram pd M m) {addr : ℕ} (value : ℕ)
    (hout : ∀ q, Holds pd m q → ¬ inPage q addr) :
    ∃ m', store addr value m = .ok () m' ∧ Rep ram pd M m' := by
  refine ⟨_, rfl, h.frame h.laid rfl rfl (fun q i hq hi => ?_) fun u q hq _ => hq⟩
  refine Function.update_of_ne (fun e => hout q hq ?_) ..
  exact e ▸ inPage_entry q hi

/-! ## Runs -/

/-- A directory in use: the machine, the map the calls so far have made, and whether the
kernel has not panicked. -/
structure Tracked where
  machine : Machine
  map : PageMap
  up : Bool

/-- A step: a call on the directory, or other code. -/
inductive DirOp where
  | setPage (upage kpage : ℕ) (writable : Bool)
  | clearPage (upage : ℕ)
  | getPage (uaddr : ℕ)
  | otherGet (flags : PallocFlags)
  | otherFree (page : ℕ)
  | otherStore (addr value : ℕ)

namespace Tracked

/-- The state after a call, with the map as its answer says. -/
def ended {α : Type} (t : Tracked) (map : α → PageMap) : EStateM.Result DirPanic Machine α → Tracked
  | .ok a m => { t with machine := m, map := map a }
  | .error _ m => { t with machine := m, up := false }

/-- The state after a step. -/
def after (pd : ℕ) (t : Tracked) : DirOp → Tracked
  | .setPage upage kpage writable =>
      t.ended (fun added =>
          if added then Function.update t.map (upage / pgSize) (some (kpage, writable)) else t.map)
        (pagedirSetPage pd upage kpage writable t.machine)
  | .clearPage upage =>
      t.ended (fun _ => Function.update t.map (upage / pgSize) none)
        (pagedirClearPage pd upage t.machine)
  | .getPage uaddr => t.ended (fun _ => t.map) (pagedirGetPage pd uaddr t.machine)
  | .otherGet flags => t.ended (fun _ => t.map) (pallocGetPage flags t.machine)
  | .otherFree page => t.ended (fun _ => t.map) (pallocFreePage page t.machine)
  | .otherStore addr value => t.ended (fun _ => t.map) (store addr value t.machine)

/-- The steps that may come.  A kernel page is one of the user pool; a page is not mapped
while it is mapped already.  Other code leaves the pages of the directory alone, except
that it may write to the pages mapped. -/
def Allowed (pd : ℕ) (t : Tracked) : DirOp → Prop
  | .setPage upage kpage _ => upage % pgSize = 0 ∧ upage < physBase ∧
      Used (t.machine.pools .user) kpage ∧ t.map (upage / pgSize) = none
  | .clearPage upage => upage % pgSize = 0 ∧ upage < physBase
  | .getPage uaddr => uaddr < physBase
  | .otherGet flags => flags.assert = false
  | .otherFree page => (∃ u, Used (t.machine.pools u) page) ∧ ¬ Owned pd t.map t.machine page ∧
      ¬ Shared t.machine page
  | .otherStore addr _ => ∀ q, Holds pd t.machine q → ¬ inPage q addr

/-- The answers of the calls.  Every page that a call takes is a page table of the
directory. -/
def Answers (pd : ℕ) (t : Tracked) : DirOp → Prop
  | .setPage upage kpage writable =>
      (∃ m', pagedirSetPage pd upage kpage writable t.machine = .ok true m' ∧
        ∀ u q, Used (m'.pools u) q →
          Used (t.machine.pools u) q ∨ TableAt m' pd (pdNo upage) q) ∨
      (pagedirSetPage pd upage kpage writable t.machine = .ok false t.machine ∧
        t.machine.word (pd + 4 * pdNo upage) = 0 ∧
        pallocGetMultiple t.machine.pools .kernel 1 = none)
  | .clearPage upage => ∃ m', pagedirClearPage pd upage t.machine = .ok () m'
  | _ => True

/-- The directory in a state: it stands for the map, every look-up is a look-up in the map,
and it can be destroyed. -/
structure Sound (ram pd : ℕ) (t : Tracked) : Prop where
  up : t.up = true
  rep : Rep ram pd t.map t.machine
  get : ∀ uaddr < physBase, pagedirGetPage pd uaddr t.machine =
    .ok ((t.map (uaddr / pgSize)).map fun e => e.1 + uaddr % pgSize) t.machine
  /-- `pagedir_destroy` frees the pages of the directory, each once and no others. -/
  destroy : Unaliased t.map → ∃ m' L, pagedirDestroy pd t.machine = .ok () m' ∧
    m'.freed = t.machine.freed ++ L ∧ L.Nodup ∧ (∀ q, q ∈ L ↔ Owned pd t.map t.machine q) ∧
    (∀ q, Shared t.machine q → q ∉ L) ∧
    ∀ u q, Used (m'.pools u) q ↔ Used (t.machine.pools u) q ∧ q ∉ L

end Tracked

/-- Nothing that belongs to the directory is shared. -/
theorem Rep.not_shared (h : Rep ram pd M m) {q : ℕ} (hq : Owned pd M m q) : ¬ Shared m q := by
  rcases hq with rfl | ⟨i, hi, ht⟩ | ⟨n, w, e⟩
  · exact fun hs => (h.shared hs).2 rfl
  · exact (h.table hi ht).2.2
  · intro hs
    cases h.laid.pool_eq (h.mapped e) (h.shared hs).1

theorem Tracked.sound_of_rep {t : Tracked} (hup : t.up = true) (h : Rep ram pd t.map t.machine) :
    t.Sound ram pd where
  up := hup
  rep := h
  get uaddr hlt := h.getPage_spec hlt
  destroy hM := by
    obtain ⟨hnodup, m', hrun, hf⟩ := destroy_spec h hM
    refine ⟨m', dirPages t.machine pd t.map, hrun, hf.log, hnodup, fun q => mem_dirPages h,
      fun q hs hq => ?_, hf.used⟩
    exact h.not_shared ((mem_dirPages h).mp hq) hs

theorem Tracked.Sound.ended {α : Type} {t : Tracked} (h : t.Sound ram pd) {map : α → PageMap}
    {r : EStateM.Result DirPanic Machine α} {a : α} (e : r = .ok a m')
    (hrep : Rep ram pd (map a) m') : (t.ended map r).Sound ram pd := by
  rw [e]
  exact sound_of_rep h.up hrep

/-- **A step keeps the directory sound**, and its answer is right. -/
theorem Tracked.Sound.step {t : Tracked} (h : t.Sound ram pd) (op : DirOp) (hop : t.Allowed pd op) :
    (t.after pd op).Sound ram pd ∧ t.Answers pd op := by
  cases op with
  | setPage upage kpage writable =>
      obtain ⟨hal, hlt, hk, hfree⟩ := hop
      rcases h.rep.setPage_spec hal hlt hk hfree writable with ⟨m', e, hrep, hused⟩ | ⟨e, hz, hget⟩
      · exact ⟨h.ended e hrep, .inl ⟨m', e, hused⟩⟩
      · exact ⟨h.ended e h.rep, .inr ⟨e, hz, hget⟩⟩
  | clearPage upage =>
      obtain ⟨m', e, hrep⟩ := h.rep.clearPage_spec hop.1 hop.2
      exact ⟨h.ended e hrep, m', e⟩
  | getPage uaddr => exact ⟨h.ended (h.rep.getPage_spec hop) h.rep, trivial⟩
  | otherGet flags =>
      obtain ⟨r, m', e, hrep⟩ := h.rep.otherGet hop
      exact ⟨h.ended e hrep, trivial⟩
  | otherFree page =>
      obtain ⟨⟨u, hu⟩, hown, hshared⟩ := hop
      obtain ⟨m', e, hrep⟩ := h.rep.otherFree hu hown hshared
      exact ⟨h.ended e hrep, trivial⟩
  | otherStore addr value =>
      obtain ⟨m', e, hrep⟩ := h.rep.otherStore value hop
      have hsound : (t.ended (fun _ : Unit => t.map) (store addr value t.machine)).Sound ram pd :=
        h.ended e hrep
      exact ⟨hsound, trivial⟩

/-- The state `pagedir_create` leaves, with the empty map. -/
def Tracked.new (m : Machine) : Tracked := ⟨m, fun _ => none, true⟩

/-- **A page directory is a finite map**, through every sequence of calls, and
`pagedir_destroy` frees its pages as long as no kernel page is mapped twice. -/
theorem pagedir_of_run (hready : Ready ram m0) (hcreate : pagedirCreate m0 = .ok (some pd) m)
    (ops : List DirOp) (allowed : Along (Tracked.after pd) (Tracked.Allowed pd) (.new m) ops) :
    Always (Tracked.after pd) (Tracked.Sound ram pd) (.new m) ops ∧
      Along (Tracked.after pd) (Tracked.Answers pd) (.new m) ops := by
  have hnew : (Tracked.new m).Sound ram pd := Tracked.sound_of_rep rfl (Rep.create hready hcreate)
  have hsound : Always (Tracked.after pd) (Tracked.Sound ram pd) (.new m) ops :=
    Always.of_along (fun t op h hop => (h.step op hop).1) ops _ hnew allowed
  exact ⟨hsound, Along.of_always_before (fun t op h hop => (h.step op hop).2) ops _ hsound allowed⟩

/-! ## A small machine -/

/-- The pages taken at first: two of the kernel pool and one of the user pool. -/
def smallUsed : PoolName → ℕ → Bool
  | .kernel, i => i < 2
  | .user, i => i < 1

/-- A machine with 4 MB, the first directory in the first page of the kernel pool and one
page table of the kernel in the second. -/
def smallMachine : Machine where
  word := fun a => if a = 0xC0101000 + 4 * 768 then pdeOf 0xC0102000 else 0
  pools := pallocInit 1024 1024 smallUsed
  initPageDir := 0xC0101000
  initRamPages := 1024
  freed := []

theorem smallUsed_kernel {i : ℕ} (hi : i < 2) :
    Used (pallocInit 1024 1024 smallUsed .kernel) (0xC0101000 + pgSize * i) := by
  have hbase : (pallocInit 1024 1024 smallUsed .kernel).base = 0xC0101000 := by decide +kernel
  refine ⟨i, lt_of_lt_of_le hi (by decide), decide_eq_true hi, ?_⟩
  rw [hbase]

theorem smallMachine_ready : Ready 1024 smallMachine where
  laid := laid_pallocInit smallUsed (by decide) (by unfold initPoolFits; decide)
    (by unfold initPoolFits; decide)
  ram_le := by decide
  ram_eq := rfl
  shared q hq := by
    rcases hq with hq | ⟨i, hi, -, hpt, hword⟩
    · rw [hq]
      exact smallUsed_kernel (i := 0) (by decide)
    · have hq : q = 0xC0101000 + pgSize * 1 := by
        simp only [smallMachine, pdeOf, physBase, userTables, pgSize] at *
        split at hword <;> omega
      rw [hq]
      exact smallUsed_kernel (by decide)
  userHalf i hi := by
    simp only [smallMachine, userTables] at *
    rw [if_neg (by omega)]

/-- The page `pagedir_create` takes there. -/
def smallPd : ℕ := 0xC0103000

/-- The machine `pagedir_create` leaves. -/
def smallCreated : Machine := final (pagedirCreate smallMachine)

theorem smallMachine_create : pagedirCreate smallMachine = .ok (some smallPd) smallCreated := rfl

theorem pagedir_of_small_run :
    Along (Tracked.after smallPd) (Tracked.Allowed smallPd) (.new smallCreated)
        [.setPage 0x1000 0xC0281000 true, .getPage 0x1234, .otherGet { zero := true },
          .clearPage 0x1000] ∧
      Always (Tracked.after smallPd) (Tracked.Sound 1024 smallPd) (.new smallCreated)
        [.setPage 0x1000 0xC0281000 true, .getPage 0x1234, .otherGet { zero := true },
          .clearPage 0x1000] := by
  have allowed : Along (Tracked.after smallPd) (Tracked.Allowed smallPd) (.new smallCreated)
      [.setPage 0x1000 0xC0281000 true, .getPage 0x1234, .otherGet { zero := true },
        .clearPage 0x1000] := by
    refine ⟨⟨by decide, by decide, ⟨0, ?_, ?_, ?_⟩, rfl⟩, ?_, rfl, ⟨by decide, by decide⟩, trivial⟩
    · decide +kernel
    · decide +kernel
    · decide +kernel
    · show 0x1234 < physBase
      decide
  exact ⟨allowed, (pagedir_of_run smallMachine_ready smallMachine_create _ allowed).1⟩

/-- A kernel page mapped at two user pages. -/
def aliasRun : List DirOp := [.setPage 0x1000 0xC0281000 true, .setPage 0x2000 0xC0281000 true]

/-- The call returned. -/
def returned : EStateM.Result DirPanic Machine Unit → Bool
  | .ok _ _ => true
  | .error _ _ => false

/-- **A page mapped twice cannot be freed twice**: `pagedir_destroy` panics. -/
theorem destroy_fails_on_alias : ¬ ∀ (ram : ℕ) (m0 m : Machine) (pd : ℕ) (ops : List DirOp),
    Ready ram m0 → pagedirCreate m0 = .ok (some pd) m →
      Along (Tracked.after pd) (Tracked.Allowed pd) (.new m) ops →
      ∃ m', pagedirDestroy pd (ops.foldl (Tracked.after pd) (.new m)).machine = .ok () m' := by
  intro h
  have allowed : Along (Tracked.after smallPd) (Tracked.Allowed smallPd) (.new smallCreated)
      aliasRun := by
    refine ⟨⟨by decide, by decide, ⟨0, ?_, ?_, ?_⟩, rfl⟩,
      ⟨by decide, by decide, ⟨0, ?_, ?_, ?_⟩, ?_⟩, trivial⟩
    all_goals decide +kernel
  obtain ⟨m', e⟩ := h 1024 smallMachine smallCreated smallPd aliasRun smallMachine_ready
    smallMachine_create allowed
  have hpanic : returned (pagedirDestroy smallPd
      (aliasRun.foldl (Tracked.after smallPd) (.new smallCreated)).machine) = false := by
    decide +kernel
  rw [e] at hpanic
  cases hpanic

end Pintos.Memory
