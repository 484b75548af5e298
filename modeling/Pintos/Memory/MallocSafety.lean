import Pintos.Memory.Arenas

/-!
# The blocks of the kernel heap

`malloc` and `free` run through the changes of `Pintos.Memory.Arenas`, and no sequence of
calls leaves the invariant.  **`heapSafe_of_run` says what that means for the callers**:
live blocks never overlap, a free list never holds a live block, and the pages of an
arena go back to the page allocator with its last live block.
-/

namespace Pintos.Memory

open Lib Vm

variable {ram : ℕ} {h : Heap} {x : Option ℕ} {a b d size : ℕ} {D : Desc}

/-! ## Sizes -/

/-- `block_size`: the number of bytes of a block. -/
def Heap.blockSize (h : Heap) (b : ℕ) : ℕ :=
  match h.arenas (pgRoundDown b) with
  | some ⟨some d, _⟩ => ((descs[d]?).map Desc.blockSize).getD 0
  | some ⟨none, n⟩ => pgSize * n - pgOfs b
  | none => 0

/-- The size that a block `malloc` returns has room for: what was asked for, unless
`size + sizeof *a` has wrapped around. -/
def granted (size : ℕ) : ℕ := if size + arenaSize < 2 ^ 32 then size else 0

/-- The number of bytes of a block that was asked for with `size`: a block of a descriptor, or all
the pages of a big one. -/
def GrantedSize (size c : ℕ) : Prop :=
  (size ≤ c ∧ c < pgSize) ∨ (0 < bigPages size ∧ c + arenaSize = pgSize * bigPages size)

/-- The pages of a big block have room for it. -/
theorem granted_room (hpages : 0 < bigPages size) :
    arenaSize + granted size ≤ pgSize * bigPages size := by
  unfold granted
  split
  case isTrue h =>
      simp only [bigPages, arenaSize, pgSize] at *
      omega
  case isFalse h =>
      simp only [bigPages, arenaSize, pgSize] at *
      omega

/-- A block has the size asked for exactly when `size + sizeof *a` does not wrap around. -/
theorem GrantedSize.le_iff {c : ℕ} (hc : GrantedSize size c) (hsize : size < 2 ^ 32) :
    size ≤ c ↔ size + arenaSize < 2 ^ 32 := by
  rcases hc with ⟨hle, hlt⟩ | ⟨hpages, hc⟩
  · simp only [arenaSize, pgSize] at *
    omega
  · simp only [bigPages, arenaSize, pgSize] at *
    omega

/-- No block reaches `2^32` bytes. -/
theorem GrantedSize.lt {c : ℕ} (hc : GrantedSize size c) : c + arenaSize < 2 ^ 32 := by
  rcases hc with ⟨-, hlt⟩ | ⟨-, hc⟩
  · simp only [arenaSize, pgSize] at *
    omega
  · simp only [bigPages, arenaSize, pgSize] at *
    omega

/-! ## `malloc` -/

variable {E : Panic → Heap → Prop}

/-- A live block is added to an arena that has none. -/
theorem HeapInv.addBig (hi : HeapInv ram (some a) h) {n : ℕ} (ha : h.arenas a = some ⟨none, n⟩)
    (hroom : arenaSize + size ≤ pgSize * n) (hdead : ∀ b ∈ h.liveAddrs, pgRoundDown b ≠ a) :
    HeapInv ram none (h.addLive size (some (a + arenaSize))) := by
  have hfit : Fits a ⟨none, n⟩ (a + arenaSize) size := ⟨rfl, hroom⟩
  have hround := hi.pgRoundDown_of_fits ha hfit
  refine ⟨hi.laid, hi.small, hi.big, hi.held, hi.used, hi.own, hi.apart, fun d b => ?_,
    hi.nodup,
    fun {b size'} hb => ?_, ?_, fun {a' A'} ha' _ => ?_, hi.up⟩
  · refine (hi.free d b).trans ?_
    refine exists_congr fun a' => exists_congr fun k => exists_congr fun D => ?_
    refine and_congr_right fun ha' => and_congr_right fun hD => and_congr_right fun hb => ?_
    -- the new block is in no small arena
    have hne : b ≠ a + arenaSize := by
      rintro rfl
      have := pgRoundDown_of_mem_blocks (hi.aligned ha') hD hb
      rw [hround] at this
      rw [← this, ha] at ha'
      cases ha'
    simp [Heap.addLive, Heap.liveAddrs, hne]
  · rcases List.mem_cons.mp hb with e | hb
    · cases e
      exact ⟨a, _, ha, hfit⟩
    · exact hi.live hb
  · refine List.nodup_cons.mpr ⟨fun hm => ?_, hi.liveNodup⟩
    exact hdead _ hm hround
  · rcases eq_or_ne a' a with rfl | hne
    · exact ⟨_, List.mem_cons_self, hround⟩
    · obtain ⟨b, hb, e⟩ := hi.busy ha' fun e => hne (Option.some.inj e).symm
      exact ⟨b, List.mem_cons_of_mem _ hb, e⟩

/-- The pages the allocator returns are in no arena, so no live block is in them. -/
theorem HeapInv.dead_of_get (hi : HeapInv ram none h) {cnt : ℕ} {pools : PoolName → Pool}
    (hget : pallocGetMultiple h.pools .kernel cnt = some (a, pools)) :
    ∀ b ∈ h.liveAddrs, pgRoundDown b ≠ a := by
  obtain ⟨hcnt, -, hfree, -⟩ := pallocGetMultiple_some hi.laid hget
  intro b hb e
  obtain ⟨entry, hentry, rfl⟩ := List.mem_map.mp hb
  obtain ⟨a', A', hA', hfit⟩ := hi.live (b := entry.1) hentry
  rw [hi.pgRoundDown_of_fits hA' hfit] at e
  subst e
  exact hi.fresh hfree (mem_pagesFrom.mpr ⟨0, hcnt, by simp⟩) hA' (hi.first_page hA')

/-- A request too big for the descriptors gets pages of its own. -/
theorem mallocBig_ok (hi : HeapInv ram none h) :
    Ends (mallocBig size h) (fun r h' => HeapInv ram none (h'.addLive (granted size) r) ∧
      ∀ b ∈ r, 0 < bigPages size ∧ h'.blockSize b + arenaSize = pgSize * bigPages size) E := by
  have hroom : 0 < bigPages size → arenaSize + granted size ≤ pgSize * bigPages size := granted_room
  unfold mallocBig takePages
  generalize bigPages size = cnt at *
  cases hget : pallocGetMultiple h.pools .kernel cnt with
  | none => simpa [Ends, hget, Heap.addLive] using hi
  | some r =>
      obtain ⟨hcnt, -, -, -⟩ := pallocGetMultiple_some hi.laid hget
      have hnew := hi.addArena (A := ⟨none, cnt⟩) (l := h.freeList) rfl hget
        (fun d e => by cases e) (fun d b => by simp) hi.nodup
      have hself : Function.update h.arenas r.1 (some ⟨none, cnt⟩) r.1 = some ⟨none, cnt⟩ :=
        Function.update_self ..
      have hfits : Fits r.1 ⟨none, cnt⟩ (r.1 + arenaSize) (granted size) := ⟨rfl, hroom hcnt⟩
      have hround := hnew.pgRoundDown_of_fits hself hfits
      have hofs : pgOfs (r.1 + arenaSize) = arenaSize := by
        have := hnew.aligned hself
        simp only [pgOfs, arenaSize, pgSize] at *
        omega
      simp only [bind_assoc, fetch_bind, hget]
      refine ⟨hnew.addBig hself (hroom hcnt) (hi.dead_of_get hget), fun b hb => ⟨hcnt, ?_⟩⟩
      obtain rfl : r.1 + arenaSize = b := Option.some.inj hb
      simp only [Heap.blockSize]
      rw [hround, hself]
      show pgSize * cnt - pgOfs (r.1 + arenaSize) + arenaSize = pgSize * cnt
      rw [hofs]
      have := hroom hcnt
      omega

/-- The first block of a free list becomes live. -/
theorem HeapInv.pop (hi : HeapInv ram x h) {rest : List ℕ} (hl : h.freeList d = b :: rest)
    (hx : ∀ a, x = some a → a = pgRoundDown b) (hD : descs[d]? = some D)
    (hsize : size ≤ D.blockSize) :
    ∃ n, h.arenas (pgRoundDown b) = some ⟨some d, n⟩ ∧
      Fits (pgRoundDown b) ⟨some d, n⟩ b size ∧
      HeapInv ram none { h with
        arenas := Function.update h.arenas (pgRoundDown b) (some ⟨some d, n - 1⟩)
        freeList := Function.update h.freeList d rest
        live := (b, size) :: h.live } := by
  have hb : b ∈ h.freeList d := hl ▸ List.mem_cons_self
  obtain ⟨a, n, D', ha, hD', hblock, hdead⟩ := (hi.free d b).mp hb
  rw [hD] at hD'
  cases hD'
  have hround := pgRoundDown_of_mem_blocks (hi.aligned ha) hD hblock
  rw [hround] at hx ⊢
  have hnodup := hi.nodup d
  rw [hl] at hnodup
  obtain ⟨hnot, hrest⟩ := List.nodup_cons.mp hnodup
  obtain ⟨-, -, hn⟩ := hi.small ha
  refine ⟨n, ha, ⟨D, hD, hblock, hsize⟩, ?_⟩
  refine hi.setLive ha hD ?_ hrest (fun c => ?_) (fun c s hc => ?_) ?_ (fun c hc => ?_) hx
    fun _ => ⟨b, List.mem_cons_self, hround⟩
  · rw [hn, hl, List.countP_cons, hround]
    simp
  · have hfree := hi.free d c
    rw [hl, List.mem_cons] at hfree
    split
    · next hc =>
        have hc' : c = b ∨ c ∈ rest ↔ c ∉ h.liveAddrs := by
          rw [hfree]
          constructor
          · rintro ⟨_, _, _, _, _, _, hlive⟩
            exact hlive
          · exact fun hlive => ⟨a, n, D, ha, hD, hc, hlive⟩
        rcases eq_or_ne c b with rfl | hne
        · simpa using hnot
        · simpa [hne, Heap.liveAddrs] using hc'
    · next hc =>
        have hne : c ≠ b := by
          rintro rfl
          exact hc hblock
        simp [hl, hne]
  · rcases List.mem_cons.mp hc with e | hc
    · cases e
      exact .inr ⟨hblock, hsize⟩
    · exact .inl hc
  · exact List.nodup_cons.mpr ⟨hdead, hi.liveNodup⟩
  · have hne : c ≠ b := by
      rintro rfl
      exact hc hblock
    simp [Heap.liveAddrs, hne]

/-- A free list that is not empty gives its first block. -/
theorem popBlock_ok (hi : HeapInv ram x h) {rest : List ℕ} (hl : h.freeList d = b :: rest)
    (hx : ∀ a, x = some a → a = pgRoundDown b) (hD : descs[d]? = some D)
    (hsize : size ≤ D.blockSize) :
    Ends (popBlock d h) (fun r h' => HeapInv ram none (h'.addLive size (some r)) ∧
      h'.blockSize r = D.blockSize) E := by
  obtain ⟨n, ha, hfit, hpop⟩ := hi.pop hl hx hD hsize
  unfold popBlock
  simp only [fetch_bind, hl, setFreeList, change_bind]
  have harena : blockToArena b { h with freeList := Function.update h.freeList d rest } =
      .ok (pgRoundDown b, ⟨some d, n⟩) { h with freeList := Function.update h.freeList d rest } :=
    blockToArena_ok (hi.aligned ha) (hi.pos ha) ha hfit
  rw [bind_of_ok harena]
  refine ⟨hpop, ?_⟩
  show Heap.blockSize { h with
    arenas := Function.update h.arenas (pgRoundDown b) (some ⟨some d, n - 1⟩)
    freeList := Function.update h.freeList d rest } b = D.blockSize
  simp [Heap.blockSize, hD]

theorem blocks_ne_nil (hD : descs[d]? = some D) : blocks a D ≠ [] := by
  obtain ⟨-, hpos, -⟩ := desc_bounds hD
  intro e
  have := congrArg List.length e
  simp [blocks] at this
  omega

/-- The free lists after an empty one has been filled. -/
theorem mem_update_blocks (hD : descs[d]? = some D) (hl : h.freeList d = []) {d' : ℕ} :
    b ∈ Function.update h.freeList d (blocks a D) d' ↔ b ∈ h.freeList d' ∨
      ∃ D', (⟨some d, D.blocksPerArena⟩ : Arena) = ⟨some d', D'.blocksPerArena⟩ ∧
        descs[d']? = some D' ∧ b ∈ blocks a D' := by
  rcases eq_or_ne d' d with rfl | hne
  · rw [Function.update_self, hl]
    constructor
    · exact fun hb => .inr ⟨D, rfl, hD, hb⟩
    · rintro (hb | ⟨D', -, hD', hb⟩)
      · cases hb
      · rw [hD] at hD'
        cases hD'
        exact hb
  · rw [Function.update_of_ne hne]
    constructor
    · exact .inl
    · rintro (hb | ⟨D', e, -, -⟩)
      · exact hb
      · exact absurd (Option.some.inj (Arena.mk.inj e).1).symm hne

/-- A new arena is made if the free list is empty. -/
theorem refill_ok (hi : HeapInv ram none h) (hD : descs[d]? = some D) :
    Ends (refill d D h) (fun r h' => if r then
      ∃ x b rest, HeapInv ram x h' ∧ h'.freeList d = b :: rest ∧
        ∀ a, x = some a → a = pgRoundDown b
      else HeapInv ram none h') E := by
  unfold refill takePages
  simp only [fetch_bind]
  cases hl : h.freeList d with
  | cons b rest => exact ⟨none, b, rest, hi, hl, fun a e => by cases e⟩
  | nil =>
      cases hget : pallocGetMultiple h.pools .kernel 1 with
      | none => simpa [Ends, hget] using hi
      | some r =>
          obtain ⟨a, pools⟩ := r
          obtain ⟨-, hlaid, -, hused⟩ := pallocGetMultiple_some hi.laid hget
          have hmarked : Used (pools .kernel) a := (hused .kernel a).mpr (.inr (by simp))
          have hnew := hi.addArena (A := ⟨some d, D.blocksPerArena⟩)
            (l := Function.update h.freeList d (blocks a D)) rfl hget
            (fun d' e => by cases e; exact ⟨D, rfl, hD, by simp⟩)
            (fun d' b => mem_update_blocks hD hl) (fun d' => nodup_update (nodup_blocks hD) hi.nodup)
          -- the loop runs on the new arena and the empty list
          have hself : (h.withArena pools a ⟨some d, D.blocksPerArena⟩ 1).withFreeList d [] =
              h.withArena pools a ⟨some d, D.blocksPerArena⟩ 1 := Heap.withFreeList_self hl
          have hloop := pushBlocks_ok (A := ⟨some d, D.blocksPerArena⟩)
            (h := h.withArena pools a ⟨some d, D.blocksPerArena⟩ 1) (hlaid.page_pos hmarked).ne'
            (by simp [Heap.withArena]) rfl hD (List.range D.blocksPerArena)
            (fun i => List.mem_range.mp) []
          rw [hself, List.nil_append] at hloop
          simp only [List.isEmpty_nil, if_true, bind_assoc, fetch_bind, hget, change_bind,
            pure_bind_run, setArena]
          change Ends ((forEach (pushBlock a d) (List.range D.blocksPerArena) >>= fun _ => pure true)
            (h.withArena pools a ⟨some d, D.blocksPerArena⟩ 1)) _ _
          rw [bind_of_ok hloop]
          obtain ⟨b, rest, hb⟩ := List.exists_cons_of_ne_nil (blocks_ne_nil (a := a) hD)
          refine ⟨some a, b, rest, hnew, ?_, fun a' e => ?_⟩
          · show Function.update h.freeList d _ d = _
            rw [Function.update_self]
            exact hb
          · cases e
            exact (pgRoundDown_of_mem_blocks (hlaid.page_aligned hmarked) hD
              (hb ▸ List.mem_cons_self)).symm

/-- `malloc` keeps the heap in order, however much is asked for. -/
theorem malloc_grants (hi : HeapInv ram none h) :
    Ends (malloc size h) (fun r h' => HeapInv ram none (h'.addLive (granted size) r) ∧
      ∀ b ∈ r, GrantedSize size (h'.blockSize b)) E := by
  unfold malloc
  refine Ends.ite (fun _ => ⟨hi, by simp⟩) fun _ => ?_
  cases hfind : descs.findIdx? fun desc => size ≤ desc.blockSize with
  | none =>
      exact (mallocBig_ok hi).mono (fun r h' hr => ⟨hr.1, fun b hb => .inr (hr.2 b hb)⟩)
        fun _ _ he => he
  | some d =>
      obtain ⟨hlt, hsize, -⟩ := List.findIdx?_eq_some_iff_getElem.mp hfind
      have hsize := of_decide_eq_true hsize
      have hD : descs[d]? = some descs[d] := List.getElem?_eq_getElem hlt
      have hsmall : ∀ D ∈ descs, D.blockSize < pgSize := by decide
      have hpage := hsmall _ (List.getElem_mem hlt)
      have hgranted : granted size = size := by
        simp only [granted, arenaSize, pgSize] at *
        exact if_pos (by omega)
      simp only [hD, assertSome, pure_bind_run]
      refine (refill_ok hi hD).bind fun r h1 h1ok => ?_
      cases r with
      | false => exact ⟨h1ok, by simp⟩
      | true =>
          obtain ⟨x, b, rest, hi1, hl, hx⟩ := h1ok
          rw [hgranted]
          refine (popBlock_ok hi1 hl hx hD hsize).bind fun b h2 h2ok => ⟨h2ok.1, ?_⟩
          rintro _ ⟨⟩
          rw [h2ok.2]
          exact .inl ⟨hsize, hpage⟩

/-- **`malloc` keeps the heap in order.** -/
theorem malloc_ok (hi : HeapInv ram none h) (hfits : size + arenaSize + (pgSize - 1) < 2 ^ 32) :
    Ends (malloc size h) (fun r h' => HeapInv ram none (h'.addLive size r)) E := by
  have hgranted : granted size = size := if_pos (by omega)
  refine (malloc_grants hi).mono (fun r h' hr => ?_) fun _ _ he => he
  rw [← hgranted]
  exact hr.1

/-! ## `free` -/

/-- A live block and its arena. -/
theorem HeapInv.arena_of_live (hi : HeapInv ram x h) (hb : b ∈ h.liveAddrs) :
    ∃ a A size, h.arenas a = some A ∧ Fits a A b size := by
  obtain ⟨entry, hentry, rfl⟩ := List.mem_map.mp hb
  obtain ⟨a, A, hA, hfit⟩ := hi.live (b := entry.1) hentry
  exact ⟨a, A, entry.2, hA, hfit⟩

theorem mem_dropLive {c : ℕ} : c ∈ (h.dropLive b).liveAddrs ↔ c ∈ h.liveAddrs ∧ c ≠ b := by
  simp only [Heap.dropLive, Heap.liveAddrs, List.mem_map, List.mem_filter, decide_eq_true_eq]
  constructor
  · rintro ⟨e, ⟨he, hne⟩, rfl⟩
    exact ⟨⟨e, he, rfl⟩, hne⟩
  · rintro ⟨⟨e, he, rfl⟩, hne⟩
    exact ⟨e, ⟨he, hne⟩, rfl⟩

/-- A block of a small arena goes back to the free list. -/
theorem HeapInv.push (hi : HeapInv ram none h) {n : ℕ} (ha : h.arenas a = some ⟨some d, n⟩)
    (hD : descs[d]? = some D) (hb : b ∈ blocks a D) (hlive : b ∈ h.liveAddrs) {y : Option ℕ}
    (hy : y ≠ some a → ∃ c ∈ (h.dropLive b).liveAddrs, pgRoundDown c = a) :
    HeapInv ram y (Heap.dropLive { h with
      arenas := Function.update h.arenas a (some ⟨some d, n + 1⟩)
      freeList := Function.update h.freeList d (b :: h.freeList d) } b) := by
  have hround := pgRoundDown_of_mem_blocks (hi.aligned ha) hD hb
  have hnot : b ∉ h.freeList d := by
    intro hm
    obtain ⟨_, _, _, _, _, _, hdead⟩ := (hi.free d b).mp hm
    exact hdead hlive
  obtain ⟨-, -, hn⟩ := hi.small ha
  refine hi.setLive ha hD ?_ (List.nodup_cons.mpr ⟨hnot, hi.nodup d⟩) (fun c => ?_)
    (fun c s hc => .inl (List.mem_of_mem_filter hc)) ?_ (fun c hc => ?_) (fun a' e => by cases e) hy
  · rw [hn, List.countP_cons, hround]
    simp
  · have hmem : c ∈ (h.dropLive b).liveAddrs ↔ c ∈ h.liveAddrs ∧ c ≠ b := mem_dropLive
    split
    · next hc =>
        have hfree : c ∈ h.freeList d ↔ c ∉ h.liveAddrs := by
          rw [hi.free]
          constructor
          · rintro ⟨_, _, _, _, _, _, hdead⟩
            exact hdead
          · exact fun hdead => ⟨a, n, D, ha, hD, hc, hdead⟩
        show c ∈ b :: h.freeList d ↔ c ∉ (h.dropLive b).liveAddrs
        rw [hmem, List.mem_cons, hfree, not_and_or, not_not, or_comm]
    · next hc =>
        have hne : c ≠ b := by
          rintro rfl
          exact hc hb
        simp [hne]
  · exact hi.liveNodup.sublist (List.filter_sublist.map _)
  · have hne : c ≠ b := by
      rintro rfl
      exact hc hb
    show c ∈ (h.dropLive b).liveAddrs ↔ _
    rw [mem_dropLive]
    simp [hne]

theorem givePages_eq {cnt : ℕ} {pools : PoolName → Pool}
    (hfree : pallocFreeMultiple h.pools a cnt = some pools) :
    givePages a cnt h = .ok () { h with
      pools := pools
      arenas := Function.update h.arenas a none
      held := h.held.filter fun q => q ∉ pagesFrom a cnt } := by
  simp [givePages, hfree, assertSome, setArena]

/-- The page allocator takes the pages of an arena back. -/
theorem HeapInv.pallocFree (hi : HeapInv ram x h) {A : Arena} (ha : h.arenas a = some A) :
    ∃ pools, pallocFreeMultiple h.pools a A.pages = some pools ∧ Laid ram pools ∧
      ∀ u q, Used (pools u) q ↔ Used (h.pools u) q ∧ ¬ (u = .kernel ∧ q ∈ pagesFrom a A.pages) :=
  pallocFreeMultiple_used hi.laid (hi.pages_pos ha) fun q hq =>
    hi.marked ((hi.held q).mpr ⟨a, A, ha, hq⟩)

/-- The free blocks of an arena, once it has no live ones. -/
theorem HeapInv.blocks_subset (hi : HeapInv ram x h) {n : ℕ} (ha : h.arenas a = some ⟨some d, n⟩)
    (hD : descs[d]? = some D) (hdead : ∀ b ∈ blocks a D, b ∉ h.liveAddrs) :
    ∀ b ∈ blocks a D, b ∈ h.freeList d :=
  fun b hb => (hi.free d b).mpr ⟨a, n, D, ha, hD, hb, hdead b hb⟩

/-- A block that is live lies in the blocks of its arena. -/
theorem HeapInv.mem_blocks_of_live (hi : HeapInv ram x h) {n : ℕ}
    (ha : h.arenas a = some ⟨some d, n⟩) (hD : descs[d]? = some D) (hb : b ∈ h.liveAddrs)
    (hround : pgRoundDown b = a) : b ∈ blocks a D := by
  obtain ⟨a', A', size, hA', hfit⟩ := hi.arena_of_live hb
  rw [hi.pgRoundDown_of_fits hA' hfit] at hround
  subst hround
  rw [ha] at hA'
  cases hA'
  obtain ⟨D', hD', hb', -⟩ := hfit
  rw [hD] at hD'
  cases hD'
  exact hb'

/-- An arena all of whose blocks are free is given back, and its blocks leave the list. -/
theorem HeapInv.dropSmall (hi : HeapInv ram (some a) h) {n : ℕ}
    (ha : h.arenas a = some ⟨some d, n⟩) (hD : descs[d]? = some D)
    (hdead : ∀ b ∈ blocks a D, b ∉ h.liveAddrs) :
    ∃ pools, pallocFreeMultiple h.pools a 1 = some pools ∧ HeapInv ram none { h with
      pools := pools
      arenas := Function.update h.arenas a none
      freeList := Function.update h.freeList d ((h.freeList d).diff (blocks a D))
      held := h.held.filter fun q => q ∉ pagesFrom a 1 } := by
  obtain ⟨pools, hfree, hlaid, hused⟩ := hi.pallocFree ha
  refine ⟨pools, hfree, hi.dropArena ha hlaid hused (fun d' b => ?_)
    (fun d' => nodup_update (hi.nodup d).diff hi.nodup) fun b hb hround => ?_⟩
  · rcases eq_or_ne d' d with rfl | hne
    · rw [Function.update_self, (hi.nodup d').mem_sdiff_iff]
      refine and_congr_right fun hb => not_congr ?_
      constructor
      · exact pgRoundDown_of_mem_blocks (hi.aligned ha) hD
      · intro hround
        obtain ⟨a', k, D', hA', hD', hb', -⟩ := (hi.free d' b).mp hb
        rw [hD] at hD'
        cases hD'
        rwa [← hround, pgRoundDown_of_mem_blocks (hi.aligned hA') hD hb']
    · rw [Function.update_of_ne hne]
      refine (and_iff_left_of_imp fun hb hround => ?_).symm
      obtain ⟨a', k, D', hA', hD', hb', -⟩ := (hi.free d' b).mp hb
      rw [pgRoundDown_of_mem_blocks (hi.aligned hA') hD' hb'] at hround
      rw [hround, ha] at hA'
      exact hne (Option.some.inj (Arena.mk.inj (Option.some.inj hA')).1).symm
  · exact hdead b (hi.mem_blocks_of_live ha hD hb hround) hb

/-- The heap with a block of a small arena put back on its free list. -/
def Heap.withBlock (h : Heap) (a d n b : ℕ) : Heap :=
  { h with
    arenas := Function.update h.arenas a (some ⟨some d, n⟩)
    freeList := Function.update h.freeList d (b :: h.freeList d) }

theorem Heap.withBlock_arenas {n : ℕ} : (h.withBlock a d n b).arenas a = some ⟨some d, n⟩ :=
  Function.update_self ..

/-- The part of `free` for a block of a descriptor. -/
theorem freeSmall_ok (hi : HeapInv ram none h) {n : ℕ} (ha : h.arenas a = some ⟨some d, n⟩)
    (hD : descs[d]? = some D) (hb : b ∈ blocks a D) (hlive : b ∈ h.liveAddrs) :
    Ends (freeSmall b a d ⟨some d, n⟩ h) (fun _ h' => HeapInv ram none (h'.dropLive b)) E := by
  have hpush : HeapInv ram (some a) ((h.withBlock a d (n + 1) b).dropLive b) :=
    hi.push ha hD hb hlive fun hne => absurd rfl hne
  have ha' : ((h.withBlock a d (n + 1) b).dropLive b).arenas a = some ⟨some d, n + 1⟩ :=
    Heap.withBlock_arenas (b := b)
  obtain ⟨hle, hall⟩ := hpush.freeCnt_eq_all ha' hD
  unfold freeSmall
  simp only [hD, assertSome, pure_bind_run, fetch_bind, setFreeList, setArena, change_bind]
  refine Ends.ite (fun hge => ?_) fun hlt => ?_
  · -- the arena is given back
    have heq : n + 1 = D.blocksPerArena := le_antisymm hle hge
    obtain ⟨pools, hfree, hdrop⟩ := hpush.dropSmall ha' hD (hall.mp heq)
    have hsub := hpush.blocks_subset ha' hD (hall.mp heq)
    have hself : (h.withBlock a d (n + 1) b).withFreeList d ((h.withBlock a d (n + 1) b).freeList d) =
        h.withBlock a d (n + 1) b := Heap.withFreeList_self rfl
    have hloop := removeBlocks_ok (h := h.withBlock a d (n + 1) b) (A := ⟨some d, n + 1⟩)
      (hpush.pos ha') Heap.withBlock_arenas rfl hD
      (List.range D.blocksPerArena) List.nodup_range (fun i => List.mem_range.mp)
      ((h.withBlock a d (n + 1) b).freeList d) (hpush.nodup d)
      fun i hi => hsub _ (mem_blocks.mpr ⟨i, List.mem_range.mp hi, rfl⟩)
    rw [hself] at hloop
    have hassert : assert (n + 1 = D.blocksPerArena) (h.withBlock a d (n + 1) b) =
        .ok () (h.withBlock a d (n + 1) b) := by
      simp [assert, heq]
    change Ends ((assert (n + 1 = D.blocksPerArena) >>= fun _ =>
      forEach (removeBlock a d) (List.range D.blocksPerArena) >>= fun _ => givePages a 1)
      (h.withBlock a d (n + 1) b)) _ _
    have hgive := givePages_eq (h := (h.withBlock a d (n + 1) b).withFreeList d
      (((h.withBlock a d (n + 1) b).freeList d).diff (blocks a D))) hfree
    rw [bind_of_ok hassert, bind_of_ok hloop]
    exact (congrArg (fun r => Ends r _ E) hgive).mpr hdrop
  · -- another block of the arena is live
    refine hi.push ha hD hb hlive fun _ => ?_
    have hsome : ¬ ∀ c ∈ blocks a D, c ∉ ((h.withBlock a d (n + 1) b).dropLive b).liveAddrs :=
      fun hdead => hlt (hall.mpr hdead).ge
    push Not at hsome
    obtain ⟨c, hc, hclive⟩ := hsome
    exact ⟨c, hclive, pgRoundDown_of_mem_blocks (hi.aligned ha) hD hc⟩

/-- A big block stops being live, and its arena is left without live blocks. -/
theorem HeapInv.forgetBig (hi : HeapInv ram none h) {n : ℕ} (ha : h.arenas a = some ⟨none, n⟩) :
    HeapInv ram (some a) (h.dropLive (a + arenaSize)) := by
  have hround : pgRoundDown (a + arenaSize) = a :=
    pgRoundDown_eq (hi.aligned ha) (by omega) (by simp [arenaSize, pgSize])
  refine ⟨hi.laid, hi.small, hi.big, hi.held, hi.used, hi.own, hi.apart, fun d b => ?_,
    hi.nodup,
    fun hb => hi.live (List.mem_of_mem_filter hb),
    hi.liveNodup.sublist (List.filter_sublist.map _), fun {a' A'} ha' hne => ?_, hi.up⟩
  · refine (hi.free d b).trans ?_
    refine exists_congr fun a' => exists_congr fun k => exists_congr fun D => ?_
    refine and_congr_right fun ha' => and_congr_right fun hD => and_congr_right fun hb => ?_
    -- the block is in no small arena
    have hne : b ≠ a + arenaSize := by
      rintro rfl
      have := pgRoundDown_of_mem_blocks (hi.aligned ha') hD hb
      rw [hround] at this
      rw [← this, ha] at ha'
      cases ha'
    rw [mem_dropLive]
    simp [hne]
  · obtain ⟨b, hb, e⟩ := hi.busy ha' (by simp)
    refine ⟨b, mem_dropLive.mpr ⟨hb, ?_⟩, e⟩
    rintro rfl
    rw [hround] at e
    exact hne (congrArg some e)

/-- The arena of a big block is given back with it. -/
theorem HeapInv.dropBig (hi : HeapInv ram none h) {n : ℕ} (ha : h.arenas a = some ⟨none, n⟩) :
    ∃ pools, pallocFreeMultiple h.pools a n = some pools ∧ HeapInv ram none (Heap.dropLive { h with
      pools := pools
      arenas := Function.update h.arenas a none
      held := h.held.filter fun q => q ∉ pagesFrom a n } (a + arenaSize)) := by
  obtain ⟨pools, hfree, hlaid, hused⟩ := hi.pallocFree ha
  refine ⟨pools, hfree, (hi.forgetBig ha).dropArena ha hlaid hused (fun d b => ?_) hi.nodup
    fun b hb hround => ?_⟩
  · refine (and_iff_left_of_imp fun hb hround => ?_).symm
    obtain ⟨a', k, D, hA', hD, hb', -⟩ := (hi.free d b).mp hb
    rw [pgRoundDown_of_mem_blocks (hi.aligned hA') hD hb'] at hround
    rw [hround, ha] at hA'
    cases hA'
  · obtain ⟨hb, hne⟩ := mem_dropLive.mp hb
    obtain ⟨a', A', size, hA', hfit⟩ := hi.arena_of_live hb
    rw [hi.pgRoundDown_of_fits hA' hfit] at hround
    subst hround
    rw [ha] at hA'
    cases hA'
    exact hne hfit.1

/-- **`free` keeps the heap in order.** -/
theorem free_ok (hi : HeapInv ram none h) (hb : b = 0 ∨ b ∈ h.liveAddrs) :
    Ends (free b h) (fun _ h' => HeapInv ram none (h'.dropLive b)) E := by
  have hpos : ∀ {c}, c ∈ h.liveAddrs → c ≠ 0 := by
    rintro c hc rfl
    obtain ⟨a, A, size, hA, hfit⟩ := hi.arena_of_live hc
    have := hi.pgRoundDown_of_fits hA hfit
    exact hi.pos hA (by simpa [pgRoundDown] using this.symm)
  unfold free
  refine Ends.ite (fun hnull => ?_) fun hne => ?_
  · -- a null pointer
    subst hnull
    have hsame : h.dropLive 0 = h := by
      have : h.live.filter (fun e => e.1 ≠ 0) = h.live :=
        List.filter_eq_self.mpr fun e he => by simpa using hpos (List.mem_map_of_mem he)
      simp only [Heap.dropLive]
      rw [this]
    show HeapInv ram none (h.dropLive 0)
    rw [hsame]
    exact hi
  · have hlive := hb.resolve_left hne
    obtain ⟨a, A, size, ha, hfit⟩ := hi.arena_of_live hlive
    rw [bind_of_ok (blockToArena_ok (hi.aligned ha) (hi.pos ha) ha hfit)]
    obtain ⟨desc, n⟩ := A
    cases desc with
    | some d =>
        obtain ⟨D, hD, hblock, -⟩ := hfit
        exact freeSmall_ok hi ha hD hblock hlive
    | none =>
        obtain ⟨rfl, -⟩ := hfit
        obtain ⟨pools, hfree, hdrop⟩ := hi.dropBig ha
        show Ends (givePages a n h) _ _
        rw [givePages_eq hfree]
        exact hdrop

/-! ## Whole runs -/

theorem HeapInv.init {pools : PoolName → Pool} (hlaid : Laid ram pools) :
    HeapInv ram none (mallocInit pools) where
  laid := hlaid
  small e := by cases e
  big e := by cases e
  held q := by simp [mallocInit]
  used q := by simp [mallocInit, mem_usedPages]
  own q hq := by cases hq
  apart e := by cases e
  free d b := by simp [mallocInit]
  nodup d := List.nodup_nil
  live hb := by cases hb
  liveNodup := List.nodup_nil
  busy e := by cases e
  up := rfl

/-- What other code does with pages of its own does not touch the heap. -/
theorem HeapInv.otherPages (hi : HeapInv ram x h) {pools : PoolName → Pool} (hlaid : Laid ram pools)
    (n : PoolName) (taken : List ℕ)
    (hused : ∀ q, Used (pools .kernel) q ↔ q ∈ h.held ∨ q ∈ (h.otherPages n pools taken).taken)
    (hown : ∀ q ∈ h.held, q ∉ (h.otherPages n pools taken).taken) :
    HeapInv ram x (h.otherPages n pools taken) := by
  cases n with
  | kernel =>
      exact ⟨hlaid, hi.small, hi.big, hi.held, hused, hown, hi.apart, hi.free, hi.nodup, hi.live,
        hi.liveNodup, hi.busy, hi.up⟩
  | user =>
      exact ⟨hlaid, hi.small, hi.big, hi.held, hused, hown, hi.apart, hi.free, hi.nodup, hi.live,
        hi.liveNodup, hi.busy, hi.up⟩

/-- **Every step keeps the heap in order.** -/
theorem HeapInv.step (hi : HeapInv ram none h) (op : Op) (allowed : Allowed h op) :
    HeapInv ram none (after h op) := by
  cases op with
  | malloc size =>
      have hok : Ends (malloc size h) _ fun _ _ => False := malloc_ok hi allowed
      rw [after]
      cases e : malloc size h with
      | ok r h' =>
          rw [e] at hok
          exact hok
      | error x h' =>
          rw [e] at hok
          exact hok.elim
  | free p =>
      have hok : Ends (Memory.free p h) _ fun _ _ => False := free_ok hi allowed
      rw [after]
      cases e : Memory.free p h with
      | ok r h' =>
          rw [e] at hok
          exact hok
      | error x h' =>
          rw [e] at hok
          exact hok.elim
  | otherGet n pageCnt =>
      rw [after]
      cases e : pallocGetMultiple h.pools n pageCnt with
      | none => exact hi
      | some r =>
          obtain ⟨-, hlaid, hfree, hused⟩ := pallocGetMultiple_some hi.laid e
          -- a page of a block is in use, so that it is not handed out
          refine hi.otherPages hlaid n _ (fun q => ?_) fun q hq => ?_
          · rw [hused, hi.used]
            cases n with
            | kernel => simp [Heap.otherPages, or_assoc]
            | user => simp [Heap.otherPages]
          · cases n with
            | kernel =>
                rintro hmem
                rcases List.mem_append.mp hmem with hmem | hmem
                · exact hi.own q hq hmem
                · exact hfree q hmem .kernel (hi.marked hq)
            | user => exact hi.own q hq
  | otherFree n page pageCnt =>
      obtain ⟨hcnt, hpages⟩ := allowed
      obtain ⟨pools, hfree, hlaid, hused⟩ :=
        pallocFreeMultiple_used hi.laid hcnt fun q hq => (hpages q hq).1
      rw [after, hfree]
      refine hi.otherPages hlaid n _ (fun q => ?_) fun q hq => ?_
      · rw [hused, hi.used]
        cases n with
        | kernel =>
            simp only [Heap.otherPages, List.mem_filter, decide_eq_true_eq, true_and]
            constructor
            · rintro ⟨hq | hq, hnot⟩
              · exact .inl hq
              · exact .inr ⟨hq, hnot⟩
            · rintro (hq | ⟨hq, hnot⟩)
              · exact ⟨.inl hq, fun hq' => (hpages q hq').2 hq⟩
              · exact ⟨.inr hq, hnot⟩
        | user => simp [Heap.otherPages]
      · cases n with
        | kernel => exact fun hmem => hi.own q hq (List.mem_filter.mp hmem).1
        | user => exact hi.own q hq

/-- What the heap promises. -/
structure HeapSafe (h : Heap) : Prop where
  /-- Live blocks do not overlap. -/
  disjoint : h.live.Pairwise fun e e' =>
    e.1 + h.blockSize e.1 ≤ e'.1 ∨ e'.1 + h.blockSize e'.1 ≤ e.1
  /-- A live block is large enough, and lies in one arena past its header. -/
  inside : ∀ b size, (b, size) ∈ h.live → size ≤ h.blockSize b ∧
    ∃ a A, h.arenas a = some A ∧ a + arenaSize ≤ b ∧ b + h.blockSize b ≤ a + pgSize * A.pages
  /-- A free list holds the blocks of the arenas of its descriptor that are not live. -/
  free : ∀ d b, b ∈ h.freeList d ↔ ∃ a n D, h.arenas a = some ⟨some d, n⟩ ∧
    descs[d]? = some D ∧ b ∈ blocks a D ∧ b ∉ h.liveAddrs
  /-- Each of them once. -/
  once : ∀ d, (h.freeList d).Nodup
  /-- The counter of an arena. -/
  freeCnt : ∀ a d n, h.arenas a = some ⟨some d, n⟩ →
    n = (h.freeList d).countP fun b => pgRoundDown b = a
  /-- The heap keeps the pages of the arenas that have a live block, and no others. -/
  pages : ∀ q, q ∈ h.held ↔ ∃ a A, h.arenas a = some A ∧ q ∈ pagesFrom a A.pages ∧
    ∃ b ∈ h.liveAddrs, pgRoundDown b = a
  /-- The page allocator has marked them and the pages that other code has, and no others. -/
  allocated : ∀ q, Used (h.pools .kernel) q ↔ q ∈ h.held ∨ q ∈ h.taken
  /-- The heap has no page of other code. -/
  own : ∀ q ∈ h.held, q ∉ h.taken
  /-- The assertions of `block_to_arena` hold of a live block. -/
  arena : ∀ b ∈ h.liveAddrs, ∃ r, blockToArena b h = .ok r h
  up : h.up = true

/-- The size of a block, from its arena. -/
theorem HeapInv.blockSize_of_fits (hi : HeapInv ram x h) {A : Arena} (ha : h.arenas a = some A)
    (hb : Fits a A b size) : size ≤ h.blockSize b ∧ a + arenaSize ≤ b ∧
      b + h.blockSize b ≤ a + pgSize * A.pages := by
  have hround := hi.pgRoundDown_of_fits ha hb
  have hal := hi.aligned ha
  obtain ⟨desc, n⟩ := A
  cases desc with
  | some d =>
      obtain ⟨D, hD, hb, hsize⟩ := hb
      have hbounds := block_bounds hD hb
      have hbs : h.blockSize b = D.blockSize := by
        simp [Heap.blockSize, hround, ha, hD]
      rw [hbs]
      exact ⟨hsize, hbounds.1, hbounds.2⟩
  | none =>
      obtain ⟨rfl, hsize⟩ := hb
      have hbs : h.blockSize (a + arenaSize) = pgSize * n - arenaSize := by
        simp only [Heap.blockSize, hround, ha, pgOfs]
        simp only [pgSize, arenaSize] at *
        omega
      have hsize : arenaSize + size ≤ pgSize * n := hsize
      rw [hbs]
      show _ ∧ _ ∧ a + arenaSize + (pgSize * n - arenaSize) ≤ a + pgSize * n
      omega

/-- Two pages apart. -/
theorem pagesFrom_apart {a' cnt cnt' : ℕ} (ha : a % pgSize = 0) (ha' : a' % pgSize = 0)
    (hpos : 0 < cnt) (hpos' : 0 < cnt') (hdisj : ∀ q ∈ pagesFrom a cnt, q ∉ pagesFrom a' cnt') :
    a + pgSize * cnt ≤ a' ∨ a' + pgSize * cnt' ≤ a := by
  by_contra hover
  push Not at hover
  rcases le_total a a' with hle | hle
  · refine hdisj a' (mem_pagesFrom.mpr ⟨(a' - a) / pgSize, ?_, ?_⟩)
      (mem_pagesFrom.mpr ⟨0, hpos', by simp⟩)
    · rw [Nat.div_lt_iff_lt_mul (by decide)]
      rw [Nat.mul_comm]
      omega
    · simp only [pgSize] at *
      omega
  · refine hdisj a (mem_pagesFrom.mpr ⟨0, hpos, by simp⟩)
      (mem_pagesFrom.mpr ⟨(a - a') / pgSize, ?_, ?_⟩)
    · rw [Nat.div_lt_iff_lt_mul (by decide)]
      rw [Nat.mul_comm]
      omega
    · simp only [pgSize] at *
      omega

/-- Two live blocks do not overlap. -/
theorem HeapInv.disjoint (hi : HeapInv ram none h) {b b' s s' : ℕ} (hb : (b, s) ∈ h.live)
    (hb' : (b', s') ∈ h.live) (hne : b ≠ b') :
    b + h.blockSize b ≤ b' ∨ b' + h.blockSize b' ≤ b := by
  obtain ⟨a, A, hA, hfit⟩ := hi.live hb
  obtain ⟨a', A', hA', hfit'⟩ := hi.live hb'
  obtain ⟨-, h1, h2⟩ := hi.blockSize_of_fits hA hfit
  obtain ⟨-, h1', h2'⟩ := hi.blockSize_of_fits hA' hfit'
  rcases eq_or_ne a a' with rfl | hna
  · -- two blocks of one arena, which is small
    rw [hA] at hA'
    cases hA'
    obtain ⟨desc, n⟩ := A
    cases desc with
    | none => exact absurd (hfit.1.trans hfit'.1.symm) hne
    | some d =>
        obtain ⟨D, hD, hm, -⟩ := id hfit
        obtain ⟨D', hD', hm', -⟩ := id hfit'
        rw [hD] at hD'
        cases hD'
        have hsize : ∀ {c}, c ∈ blocks a D → h.blockSize c = D.blockSize := by
          intro c hc
          simp [Heap.blockSize, pgRoundDown_of_mem_blocks (hi.aligned hA) hD hc, hA, hD]
        rw [hsize hm, hsize hm']
        exact blocks_apart hm hm' hne
  · have hdisj : ∀ q ∈ pagesFrom a A.pages, q ∉ pagesFrom a' A'.pages := fun q hq hq' =>
      hna (hi.apart hA hA' hq hq')
    rcases pagesFrom_apart (hi.aligned hA) (hi.aligned hA') (hi.pages_pos hA) (hi.pages_pos hA')
      hdisj with h | h
    · left
      omega
    · right
      omega

theorem HeapInv.safe (hi : HeapInv ram none h) : HeapSafe h where
  disjoint := by
    have hne : h.live.Pairwise fun e e' => e.1 ≠ e'.1 := List.pairwise_map.mp hi.liveNodup
    exact hne.imp_of_mem fun he he' h' => hi.disjoint he he' h'
  inside b size hb := by
    obtain ⟨a, A, hA, hfit⟩ := hi.live hb
    obtain ⟨h1, h2, h3⟩ := hi.blockSize_of_fits hA hfit
    exact ⟨h1, a, A, hA, h2, h3⟩
  free := hi.free
  once := hi.nodup
  freeCnt a d n ha := by
    obtain ⟨-, -, hn⟩ := hi.small ha
    exact hn
  pages q := by
    rw [hi.held]
    refine exists_congr fun a => exists_congr fun A => and_congr_right fun ha => ?_
    exact (and_iff_left (hi.busy ha (by simp))).symm
  allocated := hi.used
  own := hi.own
  arena b hb := by
    obtain ⟨a, A, size, hA, hfit⟩ := hi.arena_of_live hb
    exact ⟨_, blockToArena_ok (hi.aligned hA) (hi.pos hA) hA hfit⟩
  up := hi.up

/-- **The heap is safe after every sequence of calls.** -/
theorem heapSafe_of_run {pools : PoolName → Pool} (hlaid : Laid ram pools) (ops : List Op)
    (allowed : Along after Allowed (mallocInit pools) ops) :
    Always after HeapSafe (mallocInit pools) ops := by
  have hinv : Always after (HeapInv ram none) (mallocInit pools) ops :=
    Always.of_along (fun h op hi hop => hi.step op hop) ops _ (HeapInv.init hlaid) allowed
  exact Always.mono (fun h hi => hi.safe) ops _ hinv

/-- The pools of a machine with 4 MB, with nothing allocated. -/
def smallPools : PoolName → Pool := pallocInit 1024 1024 fun _ _ => false

theorem heapSafe_of_small_run :
    Along after Allowed (mallocInit smallPools)
        [.malloc 20, .malloc 5000, .otherGet .kernel 2, .free 0xC010100C] ∧
      Always after HeapSafe (mallocInit smallPools)
        [.malloc 20, .malloc 5000, .otherGet .kernel 2, .free 0xC010100C] := by
  have hlaid : Laid 1024 smallPools :=
    laid_pallocInit _ (by decide) (by unfold initPoolFits; decide) (by unfold initPoolFits; decide)
  have allowed : Along after Allowed (mallocInit smallPools)
      [.malloc 20, .malloc 5000, .otherGet .kernel 2, .free 0xC010100C] :=
    ⟨show 20 + arenaSize + (pgSize - 1) < 2 ^ 32 by decide,
      show 5000 + arenaSize + (pgSize - 1) < 2 ^ 32 by decide, trivial, .inr (by decide +kernel),
      trivial⟩
  exact ⟨allowed, heapSafe_of_run hlaid _ allowed⟩

end Pintos.Memory
