import Pintos.Memory.Malloc

/-!
# The arenas of the kernel heap

`HeapInv` ties the addresses, the counters and the free lists together.  The arena of a
block is found from its address alone, so **all blocks of an arena lie in its page**
(`pgRoundDown_of_mem_blocks`), and no two arenas share a page.  A free list is then the
blocks of the arenas of its descriptor without the live ones, and the counter of an
arena is the number of its blocks on the list.

Inside a call there may be one arena with no live block: a new one, or one whose last
block is being freed.  The parameter `x` of `HeapInv` names it.  The changes a call makes
are three: an arena is added (`addArena`), the live blocks of one small arena change
(`setLive`), an arena without live blocks is given back (`dropArena`).
-/

namespace Pintos.Memory

open Lib Vm

variable {ram : ℕ} {h : Heap} {x : Option ℕ} {a b d size : ℕ} {D : Desc}

/-! ## Addresses -/

/-- What `malloc_init` makes of the descriptors. -/
theorem desc_bounds (hD : descs[d]? = some D) :
    16 ≤ D.blockSize ∧ 0 < D.blocksPerArena ∧
      arenaSize + D.blocksPerArena * D.blockSize ≤ pgSize := by
  have hmem : D ∈ descs := List.mem_of_getElem? hD
  have hall : ∀ D ∈ descs, 16 ≤ D.blockSize ∧ 0 < D.blocksPerArena ∧
      arenaSize + D.blocksPerArena * D.blockSize ≤ pgSize := by
    decide
  exact hall D hmem

/-- The blocks of a small arena. -/
def blocks (a : ℕ) (D : Desc) : List ℕ := (List.range D.blocksPerArena).map (blockAt a D)

theorem mem_blocks : b ∈ blocks a D ↔ ∃ i < D.blocksPerArena, b = blockAt a D i := by
  simp [blocks, eq_comm]

/-- Where a block of an arena lies. -/
theorem block_bounds (hD : descs[d]? = some D) (hb : b ∈ blocks a D) :
    a + arenaSize ≤ b ∧ b + D.blockSize ≤ a + pgSize := by
  obtain ⟨-, -, hfit⟩ := desc_bounds hD
  obtain ⟨i, hi, rfl⟩ := mem_blocks.mp hb
  have hmul : (i + 1) * D.blockSize ≤ D.blocksPerArena * D.blockSize :=
    Nat.mul_le_mul_right _ hi
  rw [Nat.add_mul, Nat.one_mul] at hmul
  simp only [blockAt]
  omega

theorem blockAt_inj (hD : descs[d]? = some D) {i j : ℕ} (e : blockAt a D i = blockAt a D j) :
    i = j := by
  obtain ⟨hsize, -, -⟩ := desc_bounds hD
  have : i * D.blockSize = j * D.blockSize := by
    simp only [blockAt] at e
    omega
  exact Nat.eq_of_mul_eq_mul_right (by omega) this

theorem nodup_blocks (hD : descs[d]? = some D) : (blocks a D).Nodup :=
  List.nodup_range.map fun _ _ e => blockAt_inj hD e

/-- Two different blocks of one arena do not overlap. -/
theorem blocks_apart {b' : ℕ} (hb : b ∈ blocks a D) (hb' : b' ∈ blocks a D) (hne : b ≠ b') :
    b + D.blockSize ≤ b' ∨ b' + D.blockSize ≤ b := by
  obtain ⟨i, -, rfl⟩ := mem_blocks.mp hb
  obtain ⟨j, -, rfl⟩ := mem_blocks.mp hb'
  rcases Nat.lt_trichotomy i j with hij | rfl | hij
  · left
    have := Nat.mul_le_mul_right D.blockSize (Nat.succ_le_of_lt hij)
    rw [Nat.succ_mul] at this
    simp only [blockAt]
    omega
  · exact absurd rfl hne
  · right
    have := Nat.mul_le_mul_right D.blockSize (Nat.succ_le_of_lt hij)
    rw [Nat.succ_mul] at this
    simp only [blockAt]
    omega

/-- An address in the page `a` rounds down to `a`. -/
theorem pgRoundDown_eq (ha : a % pgSize = 0) (h1 : a ≤ b) (h2 : b < a + pgSize) :
    pgRoundDown b = a := by
  simp only [pgRoundDown, pgSize] at *
  omega

/-- **The arena of a block is found from its address.** -/
theorem pgRoundDown_of_mem_blocks (ha : a % pgSize = 0) (hD : descs[d]? = some D)
    (hb : b ∈ blocks a D) : pgRoundDown b = a := by
  obtain ⟨h1, h2⟩ := block_bounds hD hb
  obtain ⟨hsize, -, -⟩ := desc_bounds hD
  exact pgRoundDown_eq ha (by omega) (by omega)

/-! ## The invariant -/

/-- The number of pages of an arena. -/
def Arena.pages (A : Arena) : ℕ :=
  match A.desc with
  | some _ => 1
  | none => A.freeCnt

/-- The block at `b` is one of the arena, with room for `size` bytes. -/
def Fits (a : ℕ) (A : Arena) (b size : ℕ) : Prop :=
  match A.desc with
  | some d => ∃ D, descs[d]? = some D ∧ b ∈ blocks a D ∧ size ≤ D.blockSize
  | none => b = a + arenaSize ∧ arenaSize + size ≤ pgSize * A.freeCnt

theorem Fits.pgRoundDown_eq {A : Arena} (hb : Fits a A b size) (ha : a % pgSize = 0) :
    pgRoundDown b = a := by
  obtain ⟨desc, n⟩ := A
  cases desc with
  | some d =>
      obtain ⟨D, hD, hb, -⟩ := hb
      exact pgRoundDown_of_mem_blocks ha hD hb
  | none =>
      obtain ⟨rfl, -⟩ := hb
      exact Memory.pgRoundDown_eq ha (by omega) (by simp [arenaSize, pgSize])

/-- `block_to_arena` finds the arena of every block. -/
theorem blockToArena_ok {A : Arena} (hal : a % pgSize = 0) (hpos : a ≠ 0)
    (ha : h.arenas a = some A) (hb : Fits a A b size) : blockToArena b h = .ok (a, A) h := by
  have hround := hb.pgRoundDown_eq hal
  obtain ⟨desc, n⟩ := A
  cases desc with
  | none =>
      obtain ⟨rfl, -⟩ := hb
      have hofs : pgOfs (a + arenaSize) = arenaSize := by
        simp only [pgOfs, pgSize, arenaSize] at *
        omega
      simp [blockToArena, hround, hpos, ha, assert, assertSome, hofs]
  | some d =>
      obtain ⟨D, hD, hb, -⟩ := hb
      obtain ⟨h1, h2⟩ := block_bounds hD hb
      obtain ⟨hsize, -, -⟩ := desc_bounds hD
      obtain ⟨i, -, hbi⟩ := mem_blocks.mp hb
      have hofs : pgOfs b - arenaSize = i * D.blockSize := by
        rw [hbi] at h1 h2 ⊢
        simp only [pgOfs, pgSize, arenaSize, blockAt] at *
        omega
      simp [blockToArena, hround, hpos, ha, assert, assertSome, hD, hofs]

theorem arenaToBlock_ok {A : Arena} (hpos : a ≠ 0) (ha : h.arenas a = some A)
    (hdesc : A.desc = some d) (hD : descs[d]? = some D) {i : ℕ} (hlt : i < D.blocksPerArena) :
    arenaToBlock a i h = .ok (blockAt a D i) h := by
  simp [arenaToBlock, hpos, ha, hdesc, hD, hlt, assert, assertSome]

/-- The addresses of the live blocks. -/
def Heap.liveAddrs (h : Heap) : List ℕ := h.live.map Prod.fst

/-- The heap is in order, but for the arena `x`, which may be without live blocks. -/
structure HeapInv (ram : ℕ) (x : Option ℕ) (h : Heap) : Prop where
  laid : Laid ram h.pools
  small : ∀ {a d n}, h.arenas a = some ⟨some d, n⟩ → ∃ D, descs[d]? = some D ∧
    n = (h.freeList d).countP fun b => pgRoundDown b = a
  big : ∀ {a n}, h.arenas a = some ⟨none, n⟩ → 0 < n
  held : ∀ q, q ∈ h.held ↔ ∃ a A, h.arenas a = some A ∧ q ∈ pagesFrom a A.pages
  used : ∀ q, Used (h.pools .kernel) q ↔ q ∈ h.held ∨ q ∈ h.taken
  own : ∀ q ∈ h.held, q ∉ h.taken
  apart : ∀ {a A a' A' q}, h.arenas a = some A → h.arenas a' = some A' →
    q ∈ pagesFrom a A.pages → q ∈ pagesFrom a' A'.pages → a = a'
  free : ∀ d b, b ∈ h.freeList d ↔ ∃ a n D, h.arenas a = some ⟨some d, n⟩ ∧
    descs[d]? = some D ∧ b ∈ blocks a D ∧ b ∉ h.liveAddrs
  nodup : ∀ d, (h.freeList d).Nodup
  live : ∀ {b size}, (b, size) ∈ h.live → ∃ a A, h.arenas a = some A ∧ Fits a A b size
  liveNodup : h.liveAddrs.Nodup
  busy : ∀ {a A}, h.arenas a = some A → x ≠ some a → ∃ b ∈ h.liveAddrs, pgRoundDown b = a
  up : h.up = true

namespace HeapInv

/-- Every arena has a first page. -/
theorem pages_pos (hi : HeapInv ram x h) {A : Arena} (ha : h.arenas a = some A) : 0 < A.pages := by
  obtain ⟨desc, n⟩ := A
  cases desc with
  | some d => exact Nat.one_pos
  | none => exact hi.big ha

theorem first_page (hi : HeapInv ram x h) {A : Arena} (ha : h.arenas a = some A) :
    a ∈ pagesFrom a A.pages :=
  mem_pagesFrom.mpr ⟨0, hi.pages_pos ha, by simp⟩

theorem mem_held (hi : HeapInv ram x h) {A : Arena} (ha : h.arenas a = some A) : a ∈ h.held :=
  (hi.held a).mpr ⟨a, A, ha, hi.first_page ha⟩

theorem marked (hi : HeapInv ram x h) {q : ℕ} (hq : q ∈ h.held) : Used (h.pools .kernel) q :=
  (hi.used q).mpr (.inl hq)

theorem aligned (hi : HeapInv ram x h) {A : Arena} (ha : h.arenas a = some A) : a % pgSize = 0 :=
  hi.laid.page_aligned (hi.marked (hi.mem_held ha))

theorem pos (hi : HeapInv ram x h) {A : Arena} (ha : h.arenas a = some A) : a ≠ 0 :=
  (hi.laid.page_pos (hi.marked (hi.mem_held ha))).ne'

/-- A block of an arena, found from its address. -/
theorem pgRoundDown_of_fits (hi : HeapInv ram x h) {A : Arena} (ha : h.arenas a = some A)
    (hb : Fits a A b size) : pgRoundDown b = a :=
  hb.pgRoundDown_eq (hi.aligned ha)

/-- The free blocks of an arena are those that are not live. -/
theorem perm_blocks (hi : HeapInv ram x h) {n : ℕ} (ha : h.arenas a = some ⟨some d, n⟩)
    (hD : descs[d]? = some D) :
    ((h.freeList d).filter fun b => pgRoundDown b = a).Perm
      ((blocks a D).filter fun b => b ∉ h.liveAddrs) := by
  refine (List.perm_ext_iff_of_nodup ((hi.nodup d).filter _) ((nodup_blocks hD).filter _)).mpr
    fun b => ?_
  simp only [List.mem_filter, decide_eq_true_eq, hi.free]
  constructor
  · rintro ⟨⟨a', n', D', ha', hD', hb, hlive⟩, e⟩
    obtain rfl : D' = D := Option.some.inj (hD'.symm.trans hD)
    obtain rfl : a' = a := by
      rw [← e, pgRoundDown_of_mem_blocks (hi.aligned ha') hD hb]
    exact ⟨hb, hlive⟩
  · rintro ⟨hb, hlive⟩
    exact ⟨⟨a, n, D, ha, hD, hb, hlive⟩, pgRoundDown_of_mem_blocks (hi.aligned ha) hD hb⟩

/-- The counter of an arena is the number of its blocks that are not live. -/
theorem freeCnt_eq (hi : HeapInv ram x h) {n : ℕ} (ha : h.arenas a = some ⟨some d, n⟩)
    (hD : descs[d]? = some D) : n = (blocks a D).countP fun b => b ∉ h.liveAddrs := by
  obtain ⟨-, -, hn⟩ := hi.small ha
  rw [hn, List.countP_eq_length_filter, List.countP_eq_length_filter]
  exact (hi.perm_blocks ha hD).length_eq

/-- The arena is all free if and only if none of its blocks is live. -/
theorem freeCnt_eq_all (hi : HeapInv ram x h) {n : ℕ} (ha : h.arenas a = some ⟨some d, n⟩)
    (hD : descs[d]? = some D) :
    n ≤ D.blocksPerArena ∧ (n = D.blocksPerArena ↔ ∀ b ∈ blocks a D, b ∉ h.liveAddrs) := by
  have hlen : (blocks a D).length = D.blocksPerArena := by
    simp [blocks]
  rw [hi.freeCnt_eq ha hD, ← hlen]
  refine ⟨List.countP_le_length, ?_⟩
  rw [List.countP_eq_length]
  simp

end HeapInv

/-! ## The two loops over the blocks of an arena -/

/-- The heap with one free list replaced. -/
def Heap.withFreeList (h : Heap) (d : ℕ) (l : List ℕ) : Heap :=
  { h with freeList := Function.update h.freeList d l }

/-- The heap with an arena of `cnt` new pages. -/
def Heap.withArena (h : Heap) (pools : PoolName → Pool) (a : ℕ) (A : Arena) (cnt : ℕ) : Heap :=
  { h with
    pools := pools
    arenas := Function.update h.arenas a (some A)
    held := h.held ++ pagesFrom a cnt }

theorem Heap.withFreeList_self {l : List ℕ} (hl : h.freeList d = l) : h.withFreeList d l = h := by
  subst hl
  simp [Heap.withFreeList]

section Loops

variable {A : Arena} (hpos : a ≠ 0) (ha : h.arenas a = some A) (hdesc : A.desc = some d)
  (hD : descs[d]? = some D)

include hpos ha hdesc hD

/-- The loop of `malloc` appends the blocks of the new arena to the free list. -/
theorem pushBlocks_ok : ∀ (is : List ℕ), (∀ i ∈ is, i < D.blocksPerArena) → ∀ l : List ℕ,
    forEach (pushBlock a d) is (h.withFreeList d l) =
      .ok () (h.withFreeList d (l ++ is.map (blockAt a D))) := by
  intro is
  induction is with
  | nil =>
      intro _ l
      simp [forEach]
  | cons i is ih =>
      intro hlt l
      have hround : pushBlock a d i (h.withFreeList d l) =
          .ok () (h.withFreeList d (l ++ [blockAt a D i])) := by
        have hblock : arenaToBlock a i (h.withFreeList d l) = .ok _ _ :=
          arenaToBlock_ok (h := h.withFreeList d l) hpos ha hdesc hD
            (hlt i List.mem_cons_self)
        unfold pushBlock
        rw [bind_of_ok hblock]
        simp [setFreeList, Heap.withFreeList]
      rw [forEach, bind_of_ok hround, ih (fun j hj => hlt j (List.mem_cons_of_mem _ hj))]
      simp

/-- The loop of `free` takes the blocks of the arena off the free list. -/
theorem removeBlocks_ok : ∀ (is : List ℕ), is.Nodup → (∀ i ∈ is, i < D.blocksPerArena) →
    ∀ l : List ℕ, l.Nodup → (∀ i ∈ is, blockAt a D i ∈ l) →
      forEach (removeBlock a d) is (h.withFreeList d l) =
        .ok () (h.withFreeList d (l.diff (is.map (blockAt a D)))) := by
  intro is
  induction is with
  | nil =>
      intro _ _ l _ _
      simp [forEach]
  | cons i is ih =>
      intro hnd hlt l hl hmem
      obtain ⟨hi, hnd⟩ := List.nodup_cons.mp hnd
      have hround : removeBlock a d i (h.withFreeList d l) =
          .ok () (h.withFreeList d (l.erase (blockAt a D i))) := by
        have hblock : arenaToBlock a i (h.withFreeList d l) = .ok _ _ :=
          arenaToBlock_ok (h := h.withFreeList d l) hpos ha hdesc hD
            (hlt i List.mem_cons_self)
        unfold removeBlock
        rw [bind_of_ok hblock]
        simp [setFreeList, Heap.withFreeList, assert, hmem i List.mem_cons_self]
      rw [forEach, bind_of_ok hround,
        ih hnd (fun j hj => hlt j (List.mem_cons_of_mem _ hj)) _ (hl.erase _) fun j hj => ?_]
      · simp [List.diff_cons]
      · refine (hl.mem_erase_iff).mpr ⟨fun e => ?_, hmem j (List.mem_cons_of_mem _ hj)⟩
        exact hi (blockAt_inj hD e ▸ hj)

end Loops

/-! ## Taking a block -/

/-- Two lists without repetitions have the same number of elements with a property if they
have the same ones. -/
theorem countP_congr_of_nodup {l l' : List ℕ} (hl : l.Nodup) (hl' : l'.Nodup) {p : ℕ → Bool}
    (hmem : ∀ b, p b = true → (b ∈ l ↔ b ∈ l')) : l.countP p = l'.countP p := by
  rw [List.countP_eq_length_filter, List.countP_eq_length_filter]
  refine ((List.perm_ext_iff_of_nodup (hl.filter _) (hl'.filter _)).mpr fun b => ?_).length_eq
  simp only [List.mem_filter]
  constructor
  · rintro ⟨hb, hp⟩
    exact ⟨(hmem b hp).mp hb, hp⟩
  · rintro ⟨hb, hp⟩
    exact ⟨(hmem b hp).mpr hb, hp⟩

theorem nodup_update {f : ℕ → List ℕ} {l : List ℕ} (hl : l.Nodup) (hf : ∀ d, (f d).Nodup)
    {d' : ℕ} : (Function.update f d l d').Nodup := by
  rcases eq_or_ne d' d with rfl | hne
  · rwa [Function.update_self]
  · rw [Function.update_of_ne hne]
    exact hf d'

namespace HeapInv

/-- Pages that are not marked are not the heap's. -/
theorem fresh (hi : HeapInv ram x h) {cnt : ℕ}
    (hfree : ∀ q ∈ pagesFrom a cnt, ∀ u, ¬ Used (h.pools u) q) {q : ℕ} (hq : q ∈ pagesFrom a cnt)
    {a' : ℕ} {A' : Arena} (ha' : h.arenas a' = some A') : q ∉ pagesFrom a' A'.pages := by
  intro hq'
  exact hfree q hq .kernel (hi.marked ((hi.held q).mpr ⟨a', A', ha', hq'⟩))

/-- **An arena is added.**  It has no live block yet. -/
theorem addArena (hi : HeapInv ram none h) {cnt : ℕ} {pools : PoolName → Pool} {A : Arena}
    {l : ℕ → List ℕ} (hpages : A.pages = cnt)
    (hget : pallocGetMultiple h.pools .kernel cnt = some (a, pools))
    (hsmall : ∀ d, A.desc = some d → ∃ D, A.freeCnt = D.blocksPerArena ∧ descs[d]? = some D ∧
      l d = blocks a D)
    (hlist : ∀ d b, b ∈ l d ↔ b ∈ h.freeList d ∨ ∃ D, A = ⟨some d, D.blocksPerArena⟩ ∧
      descs[d]? = some D ∧ b ∈ blocks a D)
    (hlnodup : ∀ d, (l d).Nodup) :
    HeapInv ram (some a) { h with
      pools := pools
      arenas := Function.update h.arenas a (some A)
      freeList := l
      held := h.held ++ pagesFrom a cnt } := by
  obtain ⟨hcnt, hlaid, hfree, hused⟩ := pallocGetMultiple_some hi.laid hget
  have hself : a ∈ pagesFrom a cnt := mem_pagesFrom.mpr ⟨0, hcnt, by simp⟩
  have hal : a % pgSize = 0 :=
    hlaid.page_aligned ((hused .kernel a).mpr (.inr ⟨rfl, hself⟩))
  have hnew : h.arenas a = none := by
    by_contra hne
    obtain ⟨A', hA'⟩ := Option.ne_none_iff_exists'.mp hne
    exact hi.fresh hfree hself hA' (hi.first_page hA')
  -- the arenas now: the new one, and those there were
  have harenas : ∀ {a' A'}, Function.update h.arenas a (some A) a' = some A' ↔
      a' = a ∧ A = A' ∨ h.arenas a' = some A' := by
    intro a' A'
    rcases eq_or_ne a' a with rfl | hne
    · simp [hnew]
    · simp [hne]
  -- no block of the new arena is live
  have hdead : ∀ {b}, b ∈ h.liveAddrs → pgRoundDown b ≠ a := by
    intro b hb e
    obtain ⟨entry, hentry, rfl⟩ := List.mem_map.mp hb
    obtain ⟨a', A', hA', hfit⟩ := hi.live (b := entry.1) hentry
    rw [hi.pgRoundDown_of_fits hA' hfit] at e
    rw [e, hnew] at hA'
    cases hA'
  refine ⟨hlaid, fun {a' d n} ha' => ?_, fun {a' n} ha' => ?_, fun q => ?_, fun q => ?_,
    fun q hq => ?_, fun {a1 A1 a2 A2 q} h1 h2 hq1 hq2 => ?_, fun d b => ?_, ?_,
    fun {b size} hb => ?_, hi.liveNodup, fun {a' A'} ha' hne => ?_, hi.up⟩
  · rcases harenas.mp ha' with ⟨rfl, rfl⟩ | ha'
    · -- all its blocks are on the list
      obtain ⟨D, rfl, hD, hl⟩ := hsmall d rfl
      refine ⟨D, hD, ?_⟩
      rw [List.countP_eq_length.mpr]
      · simp [hl, blocks]
      · intro b hb
        have hb : b ∈ blocks a' D := hl ▸ hb
        simpa using pgRoundDown_of_mem_blocks hal hD hb
    · obtain ⟨D, hD, hn⟩ := hi.small ha'
      refine ⟨D, hD, hn.trans (countP_congr_of_nodup (hi.nodup d) (hlnodup d) fun b hp => ?_)⟩
      rw [hlist]
      constructor
      · exact .inl
      · rintro (hb | ⟨D', -, hD', hb⟩)
        · exact hb
        · have hround := pgRoundDown_of_mem_blocks hal hD' hb
          have : a' = a := (of_decide_eq_true hp).symm.trans hround
          rw [this, hnew] at ha'
          cases ha'
  · rcases harenas.mp ha' with ⟨rfl, rfl⟩ | ha'
    · have hn : n = cnt := hpages
      exact hn ▸ hcnt
    · exact hi.big ha'
  · rw [List.mem_append, hi.held]
    constructor
    · rintro (⟨a', A', hA', hq⟩ | hq)
      · exact ⟨a', A', harenas.mpr (.inr hA'), hq⟩
      · exact ⟨a, A, harenas.mpr (.inl ⟨rfl, rfl⟩), hpages ▸ hq⟩
    · rintro ⟨a', A', hA', hq⟩
      rcases harenas.mp hA' with ⟨rfl, rfl⟩ | hA'
      · exact .inr (hpages ▸ hq)
      · exact .inl ⟨a', A', hA', hq⟩
  · rw [hused, hi.used, List.mem_append, and_iff_right rfl, or_right_comm]
  · rcases List.mem_append.mp hq with hq | hq
    · exact hi.own q hq
    · exact fun hother => hfree q hq .kernel ((hi.used q).mpr (.inr hother))
  · rcases harenas.mp h1 with ⟨e1, rfl⟩ | h1' <;> rcases harenas.mp h2 with ⟨e2, rfl⟩ | h2'
    · exact e1.trans e2.symm
    · subst e1
      exact absurd hq2 (hi.fresh hfree (hpages ▸ hq1) h2')
    · subst e2
      exact absurd hq1 (hi.fresh hfree (hpages ▸ hq2) h1')
    · exact hi.apart h1' h2' hq1 hq2
  · rw [hlist, hi.free]
    constructor
    · rintro (⟨a', n, D, hA', hD, hb, hlive⟩ | ⟨D, rfl, hD, hb⟩)
      · exact ⟨a', n, D, harenas.mpr (.inr hA'), hD, hb, hlive⟩
      · exact ⟨a, _, D, harenas.mpr (.inl ⟨rfl, rfl⟩), hD, hb, fun hm =>
          hdead hm (pgRoundDown_of_mem_blocks hal hD hb)⟩
    · rintro ⟨a', n, D, hA', hD, hb, hlive⟩
      rcases harenas.mp hA' with ⟨rfl, rfl⟩ | hA'
      · obtain ⟨D', hn, hD', -⟩ := hsmall d rfl
        rw [hD'] at hD
        cases hD
        exact .inr ⟨D, congrArg (Arena.mk (some d)) hn, hD', hb⟩
      · exact .inl ⟨a', n, D, hA', hD, hb, hlive⟩
  · exact hlnodup
  · obtain ⟨a', A', hA', hfit⟩ := hi.live hb
    exact ⟨a', A', harenas.mpr (.inr hA'), hfit⟩
  · rcases harenas.mp ha' with ⟨rfl, -⟩ | ha'
    · exact absurd rfl hne
    · exact hi.busy ha' (by simp)

/-- **The live blocks of one small arena change**, and with them its counter and the free
list.  `L` are the live blocks afterwards. -/
theorem setLive (hi : HeapInv ram x h) {y : Option ℕ} {n n' : ℕ} {l : List ℕ} {L : List (ℕ × ℕ)}
    (ha : h.arenas a = some ⟨some d, n⟩) (hD : descs[d]? = some D)
    (hn' : n' = l.countP fun b => pgRoundDown b = a) (hl : l.Nodup)
    (hlist : ∀ b, b ∈ l ↔ if b ∈ blocks a D then b ∉ L.map Prod.fst else b ∈ h.freeList d)
    (hL : ∀ b size, (b, size) ∈ L → (b, size) ∈ h.live ∨ b ∈ blocks a D ∧ size ≤ D.blockSize)
    (hLnodup : (L.map Prod.fst).Nodup)
    (hsame : ∀ b, b ∉ blocks a D → (b ∈ L.map Prod.fst ↔ b ∈ h.liveAddrs))
    (hx : ∀ a', x = some a' → a' = a)
    (hy : y ≠ some a → ∃ b ∈ L.map Prod.fst, pgRoundDown b = a) :
    HeapInv ram y { h with
      arenas := Function.update h.arenas a (some ⟨some d, n'⟩)
      freeList := Function.update h.freeList d l
      live := L } := by
  have hal := hi.aligned ha
  have harenas : ∀ {a' A'}, Function.update h.arenas a (some ⟨some d, n'⟩) a' = some A' ↔
      a' = a ∧ ⟨some d, n'⟩ = A' ∨ a' ≠ a ∧ h.arenas a' = some A' := by
    intro a' A'
    rcases eq_or_ne a' a with rfl | hne
    · simp
    · simp [hne]
  -- the arenas lie where they lay
  have hplaces : ∀ {a' q}, (∃ A', Function.update h.arenas a (some ⟨some d, n'⟩) a' = some A' ∧
      q ∈ pagesFrom a' A'.pages) ↔ ∃ A', h.arenas a' = some A' ∧ q ∈ pagesFrom a' A'.pages := by
    intro a' q
    constructor
    · rintro ⟨A', hA', hq⟩
      rcases harenas.mp hA' with ⟨rfl, rfl⟩ | ⟨-, hA'⟩
      · exact ⟨_, ha, hq⟩
      · exact ⟨A', hA', hq⟩
    · rintro ⟨A', hA', hq⟩
      rcases eq_or_ne a' a with rfl | hne
      · rw [ha] at hA'
        cases hA'
        exact ⟨_, harenas.mpr (.inl ⟨rfl, rfl⟩), hq⟩
      · exact ⟨A', harenas.mpr (.inr ⟨hne, hA'⟩), hq⟩
  -- a block of another arena is not one of this
  have hforeign : ∀ {a' d' b : ℕ} {D' : Desc}, a' ≠ a → a' % pgSize = 0 → descs[d']? = some D' →
      b ∈ blocks a' D' → b ∉ blocks a D := by
    intro a' d' b D' hne hal' hD' hb hb'
    exact hne ((pgRoundDown_of_mem_blocks hal' hD' hb).symm.trans
      (pgRoundDown_of_mem_blocks hal hD hb'))
  have hupdate : ∀ d' b, b ∉ blocks a D →
      (b ∈ Function.update h.freeList d l d' ↔ b ∈ h.freeList d') := by
    intro d' b hb
    rcases eq_or_ne d' d with rfl | hne
    · rw [Function.update_self, hlist, if_neg hb]
    · rw [Function.update_of_ne hne]
  have hnodup : ∀ d', (Function.update h.freeList d l d').Nodup := fun d' => nodup_update hl hi.nodup
  refine ⟨hi.laid, fun {a' d' k} ha' => ?_, fun {a' k} ha' => ?_, fun q => ?_, hi.used,
    hi.own, fun {a1 A1 a2 A2 q} h1 h2 hq1 hq2 => ?_, fun d' b => ?_, hnodup, fun {b size} hb => ?_,
    hLnodup, fun {a' A'} ha' hne => ?_, hi.up⟩
  · rcases harenas.mp ha' with ⟨rfl, e⟩ | ⟨hne, ha'⟩
    · cases e
      refine ⟨D, hD, hn'.trans ?_⟩
      show _ = (Function.update h.freeList d l d).countP _
      rw [Function.update_self]
    · obtain ⟨D', hD', hk⟩ := hi.small ha'
      refine ⟨D', hD', hk.trans (countP_congr_of_nodup (hi.nodup d') (hnodup d') fun b hp => ?_)⟩
      refine (hupdate d' b fun hb => hne ?_).symm
      exact (of_decide_eq_true hp).symm.trans (pgRoundDown_of_mem_blocks hal hD hb)
  · rcases harenas.mp ha' with ⟨-, e⟩ | ⟨-, ha'⟩
    · cases e
    · exact hi.big ha'
  · rw [hi.held]
    exact exists_congr fun a' => hplaces.symm
  · obtain ⟨A1', h1', hq1'⟩ := hplaces.mp ⟨A1, h1, hq1⟩
    obtain ⟨A2', h2', hq2'⟩ := hplaces.mp ⟨A2, h2, hq2⟩
    exact hi.apart h1' h2' hq1' hq2'
  · by_cases hb : b ∈ blocks a D
    · -- a block of this arena
      constructor
      · intro hmem
        change b ∈ Function.update h.freeList d l d' at hmem
        rcases eq_or_ne d' d with rfl | hd
        · rw [Function.update_self, hlist, if_pos hb] at hmem
          exact ⟨a, n', D, harenas.mpr (.inl ⟨rfl, rfl⟩), hD, hb, hmem⟩
        · rw [Function.update_of_ne hd, hi.free] at hmem
          obtain ⟨a', k, D', ha', hD', hb', -⟩ := hmem
          rcases eq_or_ne a' a with rfl | hne
          · rw [ha] at ha'
            cases ha'
            exact absurd rfl hd
          · exact absurd hb (hforeign hne (hi.aligned ha') hD' hb')
      · rintro ⟨a', k, D', ha', hD', hb', hlive⟩
        rcases harenas.mp ha' with ⟨rfl, e⟩ | ⟨hne, ha'⟩
        · cases e
          show b ∈ Function.update h.freeList d l d
          rw [Function.update_self, hlist, if_pos hb]
          exact hlive
        · exact absurd hb (hforeign hne (hi.aligned ha') hD' hb')
    · -- a block of another arena
      show b ∈ Function.update h.freeList d l d' ↔ _
      rw [hupdate d' b hb, hi.free]
      constructor
      · rintro ⟨a', k, D', ha', hD', hb', hlive⟩
        have hne : a' ≠ a := by
          rintro rfl
          rw [ha] at ha'
          cases ha'
          rw [hD] at hD'
          cases hD'
          exact hb hb'
        exact ⟨a', k, D', harenas.mpr (.inr ⟨hne, ha'⟩), hD', hb', mt (hsame b hb).mp hlive⟩
      · rintro ⟨a', k, D', ha', hD', hb', hlive⟩
        rcases harenas.mp ha' with ⟨rfl, e⟩ | ⟨-, ha'⟩
        · cases e
          rw [hD] at hD'
          cases hD'
          exact absurd hb' hb
        · exact ⟨a', k, D', ha', hD', hb', mt (hsame b hb).mpr hlive⟩
  · rcases hL b size hb with hb | ⟨hb, hsize⟩
    · obtain ⟨a', A', hA', hfit⟩ := hi.live hb
      rcases eq_or_ne a' a with rfl | hne
      · rw [ha] at hA'
        cases hA'
        exact ⟨a', _, harenas.mpr (.inl ⟨rfl, rfl⟩), hfit⟩
      · exact ⟨a', A', harenas.mpr (.inr ⟨hne, hA'⟩), hfit⟩
    · exact ⟨a, _, harenas.mpr (.inl ⟨rfl, rfl⟩), D, hD, hb, hsize⟩
  · rcases harenas.mp ha' with ⟨rfl, -⟩ | ⟨hne', ha'⟩
    · exact hy hne
    · obtain ⟨b, hb, hround⟩ := hi.busy ha' fun e => hne' (hx a' e)
      refine ⟨b, (hsame b fun hb' => hne' ?_).mpr hb, hround⟩
      exact hround.symm.trans (pgRoundDown_of_mem_blocks hal hD hb')

/-- **An arena without live blocks is given back.** -/
theorem dropArena (hi : HeapInv ram (some a) h) {A : Arena} (ha : h.arenas a = some A)
    {pools : PoolName → Pool} {l : ℕ → List ℕ} (hlaid : Laid ram pools)
    (hused : ∀ u q, Used (pools u) q ↔
      Used (h.pools u) q ∧ ¬ (u = .kernel ∧ q ∈ pagesFrom a A.pages))
    (hlist : ∀ d b, b ∈ l d ↔ b ∈ h.freeList d ∧ pgRoundDown b ≠ a) (hlnodup : ∀ d, (l d).Nodup)
    (hdead : ∀ b ∈ h.liveAddrs, pgRoundDown b ≠ a) :
    HeapInv ram none { h with
      pools := pools
      arenas := Function.update h.arenas a none
      freeList := l
      held := h.held.filter fun q => q ∉ pagesFrom a A.pages } := by
  have harenas : ∀ {a' A'}, Function.update h.arenas a none a' = some A' ↔
      a' ≠ a ∧ h.arenas a' = some A' := by
    intro a' A'
    rcases eq_or_ne a' a with rfl | hne
    · simp
    · simp [hne]
  refine ⟨hlaid, fun {a' d n} ha' => ?_, fun ha' => hi.big (harenas.mp ha').2, fun q => ?_,
    fun q => ?_, fun q hq => hi.own q (List.mem_filter.mp hq).1,
    fun h1 h2 => hi.apart (harenas.mp h1).2 (harenas.mp h2).2, fun d b => ?_, hlnodup,
    fun {b size} hb => ?_, hi.liveNodup, fun {a' A'} ha' _ => ?_, hi.up⟩
  · obtain ⟨hne, ha'⟩ := harenas.mp ha'
    obtain ⟨D, hD, hn⟩ := hi.small ha'
    refine ⟨D, hD, hn.trans (countP_congr_of_nodup (hi.nodup d) (hlnodup d) fun b hp => ?_)⟩
    rw [hlist, of_decide_eq_true hp]
    simp [hne]
  · simp only [List.mem_filter, decide_eq_true_eq, hi.held]
    constructor
    · rintro ⟨⟨a', A', hA', hq⟩, hnot⟩
      refine ⟨a', A', harenas.mpr ⟨?_, hA'⟩, hq⟩
      rintro rfl
      rw [ha] at hA'
      cases hA'
      exact hnot hq
    · rintro ⟨a', A', hA', hq⟩
      obtain ⟨hne, hA'⟩ := harenas.mp hA'
      exact ⟨⟨a', A', hA', hq⟩, fun hq' => hne (hi.apart hA' ha hq hq')⟩
  · -- the pages of the arena were the heap's, and no others are given back
    rw [hused, hi.used, and_iff_right rfl]
    simp only [List.mem_filter, decide_eq_true_eq]
    constructor
    · rintro ⟨hq | hq, hnot⟩
      · exact .inl ⟨hq, hnot⟩
      · exact .inr hq
    · rintro (⟨hq, hnot⟩ | hq)
      · exact ⟨.inl hq, hnot⟩
      · exact ⟨.inr hq, fun hq' => hi.own q ((hi.held q).mpr ⟨a, A, ha, hq'⟩) hq⟩
  · rw [hlist, hi.free]
    constructor
    · rintro ⟨⟨a', n, D, hA', hD, hb, hlive⟩, hne⟩
      refine ⟨a', n, D, harenas.mpr ⟨?_, hA'⟩, hD, hb, hlive⟩
      rintro rfl
      exact hne (pgRoundDown_of_mem_blocks (hi.aligned hA') hD hb)
    · rintro ⟨a', n, D, hA', hD, hb, hlive⟩
      obtain ⟨hne, hA'⟩ := harenas.mp hA'
      refine ⟨⟨a', n, D, hA', hD, hb, hlive⟩, ?_⟩
      rw [pgRoundDown_of_mem_blocks (hi.aligned hA') hD hb]
      exact hne
  · obtain ⟨a', A', hA', hfit⟩ := hi.live hb
    refine ⟨a', A', harenas.mpr ⟨?_, hA'⟩, hfit⟩
    rintro rfl
    exact hdead b (List.mem_map_of_mem hb) (hi.pgRoundDown_of_fits hA' hfit)
  · obtain ⟨hne, ha'⟩ := harenas.mp ha'
    exact hi.busy ha' fun e => hne (Option.some.inj e).symm

end HeapInv

end Pintos.Memory
