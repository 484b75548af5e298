import Pintos.Userprog.Pages
import Pintos.Vm.Processes

/-!
# What the supplemental records say

`load_segment` of `vm_PintOS/userprog/process.c` makes a record for every page, and `page_fault`
looks the record of a page up under its user virtual address.  `create_sup_page` is given the
kernel address of the frame, so **no record is found where it is looked for**.

`SameRecords` relates states with the same page directory and the same addresses in the records of the
running thread; what finds and frees frames is of that kind.

* **`loadPages_records`** — the records and the mappings that the loop makes.
* **`loadSegment_not_described`** — no page of a segment is described by its record.
-/

namespace Pintos.Vm

open Lib

/-! ## Records and mappings of the running thread -/

/-- The supplemental records of the running thread. -/
def Kernel.records (s : Kernel) : List SupPage :=
  ((s.threads s.current).map fun th => th.supPageTable).getD []

/-- The addresses in the records. -/
def Kernel.vAddrs (s : Kernel) : List ℕ := s.records.map (·.vAddr)

/-- The entry of the page directory of the running thread for a user address. -/
def Kernel.mapping (s : Kernel) (a : ℕ) : Option Pte :=
  (s.dirAt s.current).bind fun pd => pd.entry a

/-- The running thread has the same page directory and records for the same addresses. -/
structure SameRecords (s s' : Kernel) : Prop where
  alive : s.threads s.current ≠ none → s'.threads s'.current ≠ none
  dir : s'.dirAt s'.current = s.dirAt s.current
  vAddrs : s'.vAddrs = s.vAddrs

namespace SameRecords

variable {α β : Type} {s s' : Kernel}

instance : Std.Refl SameRecords := ⟨fun _ => ⟨id, rfl, rfl⟩⟩

instance : IsTrans Kernel SameRecords :=
  ⟨fun _ _ _ h h' => ⟨fun hs => h'.alive (h.alive hs), h'.dir.trans h.dir, h'.vAddrs.trans h.vAddrs⟩⟩

theorem mapping_eq (h : SameRecords s s') (a : ℕ) : s'.mapping a = s.mapping a := by
  rw [Kernel.mapping, h.dir, Kernel.mapping]

/-- Nothing changes about threads. -/
theorem of_threads (hthreads : s'.threads = s.threads) (hcurrent : s'.current = s.current) :
    SameRecords s s' := by
  refine ⟨?_, ?_, ?_⟩
  · rw [hthreads, hcurrent]
    exact id
  · rw [Kernel.dirAt, Kernel.dirAt, hthreads, hcurrent]
  · rw [Kernel.vAddrs, Kernel.vAddrs, Kernel.records, Kernel.records, hthreads, hcurrent]

/-- The running thread changes, but not its page directory and the addresses in its records. -/
theorem updateCurrent {f : Thread → Thread} (hdir : ∀ th, (f th).pagedir = th.pagedir)
    (htable : ∀ th, s.threads s.current = some th →
      (f th).supPageTable.map (·.vAddr) = th.supPageTable.map (·.vAddr)) :
    SameRecords s (s.updateCurrent f) := by
  have hself : (s.updateCurrent f).threads (s.updateCurrent f).current = (s.threads s.current).map f :=
    threads_updateCurrent_self f
  refine ⟨?_, ?_, ?_⟩
  · rw [hself]
    intro h
    simpa using h
  · rw [Kernel.dirAt, Kernel.dirAt, hself]
    cases s.threads s.current with
    | none => rfl
    | some th => exact hdir th
  · rw [Kernel.vAddrs, Kernel.vAddrs, Kernel.records, Kernel.records, hself]
    cases hth : s.threads s.current with
    | none => rfl
    | some th => exact htable th hth

end SameRecords

/-! ## Frames come and go -/

section Idle

theorem forEach_moves {α : Type} {body : α → Code Unit} (h : ∀ a, Moves SameRecords (body a)) :
    ∀ l, Moves SameRecords (forEach body l) := by
  intro l
  induction l with
  | nil => exact Moves.pure ()
  | cons a rest ih => exact Moves.bind (h a) fun _ => ih

theorem assert_moves (c : Bool) : Moves SameRecords (assert c) :=
  Moves.ite (Moves.pure ()) (Moves.stop _)

theorem orStop_moves {α : Type} (r : Except Fault α) : Moves SameRecords (orStop r) := by
  cases r with
  | ok a => exact Moves.pure a
  | error e => exact Moves.stop _

theorem threadCurrent_moves : Moves SameRecords threadCurrent := by
  refine Moves.bind (Moves.fetch _) fun th => ?_
  cases th with
  | none => exact Moves.stop _
  | some th => exact Moves.pure th

theorem malloc_moves : Moves SameRecords malloc :=
  Moves.bind (Moves.fetch _) fun _ =>
    Moves.bind (Moves.change fun _ => .of_threads rfl rfl) fun _ => Moves.pure _

theorem lockAcquire_moves (l : Lock) : Moves SameRecords (lockAcquire l) := by
  refine Moves.bind (Moves.fetch _) fun _ => Moves.bind (Moves.fetch _) fun _ => ?_
  refine Moves.ite (Moves.pure ()) (Moves.ite ?_ (Moves.change fun _ => .of_threads rfl rfl))
  exact Moves.bind (Moves.change fun _ => .of_threads rfl rfl) fun _ => Moves.stop _

theorem lockRelease_moves (l : Lock) : Moves SameRecords (lockRelease l) := by
  refine Moves.bind (Moves.fetch _) fun _ => Moves.bind (Moves.fetch _) fun _ => ?_
  refine Moves.ite (Moves.pure ()) ?_
  exact Moves.bind (assert_moves _) fun _ => Moves.change fun _ => .of_threads rfl rfl

theorem exitStatus_moves (fuel : ℕ) : Moves SameRecords (exitStatus fuel) := by
  induction fuel with
  | zero => exact Moves.stop _
  | succ fuel ih =>
      have hget : ∀ fd, Moves SameRecords (getFile (exitStatus fuel) fd) := fun fd => by
        refine Moves.bind threadCurrent_moves fun th => Moves.ite (Moves.bind ih fun e => e.elim) ?_
        cases th.openFile (fd - 2) with
        | none => exact Moves.bind ih fun e => e.elim
        | some file => exact Moves.pure file
      have hclose : ∀ fd, Moves SameRecords (myClose (exitStatus fuel) fd) := fun fd => by
        refine Moves.bind (hget fd) fun _ => Moves.bind (Moves.change fun _ => ?_) fun _ => ?_
        · exact .updateCurrent (fun _ => rfl) fun _ _ => rfl
        · exact Moves.bind (lockAcquire_moves _) fun _ => lockRelease_moves _
      have hnext : ∀ n, Moves SameRecords (closeNext (exitStatus fuel) n) := fun n =>
        Moves.bind threadCurrent_moves fun _ => Moves.ite (hclose n) (Moves.pure ())
      refine Moves.bind (forEach_moves hnext _) fun _ => Moves.bind (Moves.change fun _ => ?_) fun _ => ?_
      · exact .updateCurrent (fun _ => rfl) fun _ _ => rfl
      · exact Moves.stop _

theorem pallocGetPage_moves (flags : PallocFlags) : Moves SameRecords (pallocGetPage flags) := by
  refine Moves.bind (Moves.fetch _) fun pool => ?_
  rcases bitmapScanAndFlip pool.usedMap 0 1 false with ⟨_ | idx, usedMap⟩
  · exact Moves.bind (assert_moves _) fun _ => Moves.pure _
  · exact Moves.bind (Moves.change fun _ => .of_threads rfl rfl) fun _ => Moves.pure _

theorem pallocFreePage_moves (page : ℕ) : Moves SameRecords (pallocFreePage page) := by
  have hfree : ∀ n, Moves SameRecords (freeInPool n page) := fun n => by
    refine Moves.bind (Moves.fetch _) fun _ => Moves.bind (Moves.change fun _ => .of_threads rfl rfl) fun _ => ?_
    refine Moves.bind (orStop_moves _) fun _ => Moves.bind (assert_moves _) fun _ => ?_
    exact Moves.bind (orStop_moves _) fun _ => Moves.change fun _ => .of_threads rfl rfl
  refine Moves.bind (assert_moves _) fun _ => Moves.ite (Moves.pure ()) ?_
  refine Moves.bind (Moves.fetch _) fun _ => Moves.bind (Moves.fetch _) fun _ => ?_
  exact Moves.ite (hfree _) (Moves.ite (hfree _) (Moves.stop _))

/-- A record may change its location, but not its address. -/
theorem changePageLocation_vAddrs {addr : ℕ} {t : Location} {idx : ℤ} : ∀ {table table' : List SupPage},
    changePageLocation addr t idx table = .ok table' → table'.map (·.vAddr) = table.map (·.vAddr) := by
  intro table
  induction table with
  | nil =>
      intro table' h
      cases h
  | cons page rest ih =>
      intro table' h
      rw [changePageLocation] at h
      split at h
      · cases h
        rfl
      · cases hrest : changePageLocation addr t idx rest with
        | error e =>
            rw [hrest] at h
            cases h
        | ok rest' =>
            rw [hrest] at h
            cases h
            rw [List.map_cons, List.map_cons, ih hrest]

theorem storeSlot_vAddrs {w : SwapState} {uaddr : ℕ} {r : ℤ × SwapState} (h : storeSlot w uaddr = .ok r) :
    r.2.table.map (·.vAddr) = w.table.map (·.vAddr) := by
  unfold storeSlot at h
  cases hdev : w.swap.device with
  | error e => simp [hdev] at h
  | ok dev =>
      rw [hdev, ok_bind] at h
      generalize bitmapScanAndFlip w.swap.swapBitmap 0 1 false = found at h
      obtain ⟨dev', hwrite, h⟩ := bind_eq_ok.mp h
      obtain ⟨table, htable, h⟩ := bind_eq_ok.mp h
      cases h
      exact changePageLocation_vAddrs htable

theorem storeSwap_moves (uaddr : ℕ) : Moves SameRecords (storeSwap uaddr) := by
  have hready : Moves SameRecords ensureSwap := by
    refine Moves.bind (Moves.fetch _) fun _ => Moves.ite (Moves.pure ()) ?_
    refine Moves.bind (Moves.fetch _) fun _ => Moves.bind (assert_moves _) fun _ => ?_
    refine Moves.bind malloc_moves fun _ => Moves.bind (assert_moves _) fun _ => ?_
    refine Moves.bind (Moves.fetch _) fun _ => Moves.bind (orStop_moves _) fun _ => ?_
    exact Moves.change fun _ => .of_threads rfl rfl
  refine Moves.bind hready fun _ => Moves.bind (lockAcquire_moves _) fun _ s => ?_
  cases hth : s.threads s.current with
  | none =>
      have hstop : threadCurrent s = .error .undefined s := by simp [threadCurrent, hth]
      rw [bind_of_error hstop]
      exact refl_of SameRecords s
  | some th =>
      have hok : threadCurrent s = .ok th s := by simp [threadCurrent, hth]
      rw [bind_of_ok hok, fetch_bind]
      cases hslot : storeSlot (Kernel.swapState s th) uaddr with
      | error e =>
          rw [show id s = s from rfl, hslot]
          exact refl_of SameRecords s
      | ok r =>
          -- the table that is put back is the one that was read, with a location changed
          rw [show id s = s from rfl, hslot]
          have htable : r.2.table.map (·.vAddr) = th.supPageTable.map (·.vAddr) := storeSlot_vAddrs hslot
          have hset : SameRecords s (s.setSwapState r.2) := by
            set s1 : Kernel := { s with swap := r.2.swap, mem := r.2.mem } with hs1
            have hmem : SameRecords s s1 := .of_threads rfl rfl
            have hcur : SameRecords s1 (s1.updateCurrent fun th => { th with supPageTable := r.2.table }) := by
              refine .updateCurrent (fun _ => rfl) fun th' hth' => ?_
              cases hth.symm.trans hth'
              exact htable
            exact trans_of SameRecords hmem hcur
          refine trans_of SameRecords hset ?_
          exact Moves.bind (lockAcquire_moves _) (fun _ => Moves.pure _) (s.setSwapState r.2)

theorem evictFrame_moves : Moves SameRecords evictFrame := by
  refine Moves.bind (Moves.fetch _) fun l => ?_
  cases l with
  | nil => exact Moves.stop _
  | cons f rest =>
      refine Moves.bind (Moves.change fun _ => .of_threads rfl rfl) fun _ => ?_
      exact Moves.bind (storeSwap_moves _) fun _ => pallocFreePage_moves _

theorem getFrame_moves (fuel : ℕ) (flags : PallocFlags) : Moves SameRecords (getFrame fuel flags) := by
  have hfind : Moves SameRecords (findPage flags) := by
    refine Moves.bind (pallocGetPage_moves _) fun page => ?_
    cases page with
    | some page => exact Moves.pure _
    | none => exact Moves.bind evictFrame_moves fun _ => pallocGetPage_moves _
  have hrecord : ∀ page, Moves SameRecords (recordFrame fuel page) := fun page => by
    cases page with
    | none => exact Moves.pure ()
    | some page =>
        refine Moves.bind malloc_moves fun _ => Moves.ite (Moves.change fun _ => .of_threads rfl rfl) ?_
        exact Moves.bind (exitStatus_moves fuel) fun e => e.elim
  refine Moves.bind (lockAcquire_moves _) fun _ => Moves.bind hfind fun page => ?_
  exact Moves.bind (hrecord page) fun _ => Moves.bind (lockRelease_moves _) fun _ => Moves.pure _

theorem freeFrame_moves (page : ℕ) : Moves SameRecords (freeFrame page) :=
  Moves.bind (Moves.change fun _ => .of_threads rfl rfl) fun _ => pallocFreePage_moves page

theorem fileRead_moves (file addr size : ℕ) : Moves SameRecords (fileRead file addr size) :=
  Moves.bind (Moves.fetch _) fun _ =>
    Moves.bind (Moves.change fun _ => .of_threads rfl rfl) fun _ => Moves.pure _

theorem fileSeek_moves (file : ℕ) (newPos : ℤ) : Moves SameRecords (fileSeek file newPos) :=
  Moves.bind (assert_moves _) fun _ => Moves.change fun _ => .of_threads rfl rfl

end Idle

/-! ## Pages are mapped -/

section Mapping

variable {s s' : Kernel} {upage kpage a : ℕ} {writable : Bool}

/-- `create_sup_page` makes a record for its address. -/
theorem createSupPage_records (file : ℕ) (ofs : ℤ) (addr readBytes zeroBytes : ℕ)
    (hs : s.threads s.current ≠ none) :
    Ends (createSupPage file ofs addr readBytes zeroBytes writable s)
      (fun _ s' => s'.threads s'.current ≠ none ∧ s'.dirAt s'.current = s.dirAt s.current ∧
        s'.vAddrs = s.vAddrs ++ [addr]) fun _ _ => True := by
  refine ends_malloc (ends_assert (fun _ => ?_) trivial)
  obtain ⟨th, hth⟩ := Option.ne_none_iff_exists'.mp hs
  set s1 : Kernel := { s with mallocs := s.mallocs + 1 } with hs1
  have hself : ∀ f, (s1.updateCurrent f).threads (s1.updateCurrent f).current = some (f th) := fun f => by
    have h := threads_updateCurrent_self (s := s1) f
    rw [show s1.threads s1.current = some th from hth] at h
    exact h
  refine ⟨?_, ?_, ?_⟩
  · rw [hself]
    exact Option.some_ne_none _
  · rw [Kernel.dirAt, hself, Kernel.dirAt, hth]
    rfl
  · rw [Kernel.vAddrs, Kernel.vAddrs, Kernel.records, Kernel.records, hself, hth]
    simp [addSupPage, newSupPage]

/-- A page table is put into the page directory of the running thread. -/
theorem records_setTable (s : Kernel) (i : ℕ) (pt : PageTable) :
    (s.threads s.current ≠ none → (s.setTable i pt).threads (s.setTable i pt).current ≠ none) ∧
      (s.setTable i pt).vAddrs = s.vAddrs := by
  have hself : (s.setTable i pt).threads (s.setTable i pt).current =
      (s.threads s.current).map fun th => { th with pagedir := th.pagedir.map fun pd => pd.setTable i pt } :=
    threads_updateCurrent_self _
  refine ⟨fun h => ?_, ?_⟩
  · rw [hself]
    simpa using h
  · rw [Kernel.vAddrs, Kernel.vAddrs, Kernel.records, Kernel.records, hself]
    cases s.threads s.current <;> rfl

/-- What is known once a page table has been looked up: the mappings are the same, and the table is the
one in the page directory. -/
theorem lookupPage_mapping (vaddr : ℕ) (create : Bool) (hs : s.threads s.current ≠ none) :
    Ends (lookupPage vaddr create s) (fun found s' => s'.threads s'.current ≠ none ∧ s'.vAddrs = s.vAddrs ∧
      (∀ a, s'.mapping a = s.mapping a) ∧ ∀ pt, found = some pt → ∃ pd, s'.dirAt s'.current = some pd ∧
        pd.tables (pdNo vaddr) = some pt) fun _ _ => True := by
  refine ends_threadCurrent (fun th hth => ?_) trivial
  cases hdir : th.pagedir with
  | none => exact trivial
  | some pd =>
      have hpd : s.dirAt s.current = some pd := by rw [Kernel.dirAt, hth]; exact hdir
      refine ends_assert (fun _ => ?_) trivial
      cases hpt : pd.tables (pdNo vaddr) with
      | some pt =>
          refine ⟨hs, rfl, fun _ => rfl, fun pt' h => ?_⟩
          cases h
          exact ⟨pd, hpd, hpt⟩
      | none =>
          refine Ends.ite (fun _ => ?_) fun _ => ⟨hs, rfl, fun _ => rfl, fun _ h => by cases h⟩
          have hsame := pallocGetPage_moves { zero := true } s
          cases hget : pallocGetPage { zero := true } s with
          | error e s1 =>
              rw [bind_of_error hget]
              exact trivial
          | ok found s1 =>
              rw [hget] at hsame
              rw [bind_of_ok hget]
              cases found with
              | none => exact ⟨hsame.alive hs, hsame.vAddrs, hsame.mapping_eq, fun _ h => by cases h⟩
              | some page =>
                  have hpd1 : s1.dirAt s1.current = some pd := hsame.dir.trans hpd
                  have hset := records_setTable s1 (pdNo vaddr) ⟨page, fun _ => none⟩
                  have hdir2 : (s1.setTable (pdNo vaddr) ⟨page, fun _ => none⟩).dirAt s1.current =
                      some (pd.setTable (pdNo vaddr) ⟨page, fun _ => none⟩) := by
                    rw [dirAt_setTable_self, hpd1]
                    rfl
                  refine ⟨hset.1 (hsame.alive hs), hset.2.trans hsame.vAddrs, fun a => ?_, fun pt h => ?_⟩
                  · show ((s1.setTable (pdNo vaddr) ⟨page, fun _ => none⟩).dirAt s1.current).bind _ = _
                    rw [hdir2, Kernel.mapping, hpd]
                    simp only [Option.bind_some, PageDir.entry, PageDir.setTable]
                    by_cases hno : pdNo a = pdNo vaddr
                    · rw [hno, Function.update_self, hpt]
                      rfl
                    · rw [Function.update_of_ne hno]
                  · cases h
                    exact ⟨_, hdir2, Function.update_self ..⟩

/-- **A page is mapped**, in user memory, to a frame in kernel memory. -/
theorem installPage_mapping (hs : s.threads s.current ≠ none) :
    Ends (installPage upage kpage writable s) (fun b s' => s'.threads s'.current ≠ none ∧ s'.vAddrs = s.vAddrs ∧
      ∀ a, s'.mapping a = s.mapping a ∨
        b = true ∧ a / pgSize = upage / pgSize ∧ upage < physBase ∧ physBase ≤ kpage) fun _ _ => True := by
  have hget : Ends (pagedirGetPage upage s) (fun _ s' => s'.threads s'.current ≠ none ∧
      s'.vAddrs = s.vAddrs ∧ ∀ a, s'.mapping a = s.mapping a) fun _ _ => True := by
    refine ends_assert (fun _ => ?_) trivial
    refine Ends.bind (lookupPage_mapping upage false hs) fun found s1 ⟨h1, h2, h3, _⟩ => ?_
    cases found <;> exact ⟨h1, h2, h3⟩
  refine Ends.bind hget fun found s1 ⟨h1, h2, h3⟩ => ?_
  cases found with
  | some page => exact ⟨h1, h2, fun a => .inl (h3 a)⟩
  | none =>
      refine ends_assert (fun _ => ?_) trivial
      refine ends_assert (fun _ => ?_) trivial
      refine ends_assert (fun hlow => ?_) trivial
      refine ends_assert (fun hk => ?_) trivial
      rw [fetch_bind]
      refine ends_assert (fun _ => ?_) trivial
      refine Ends.bind (lookupPage_mapping upage true h1) fun found s2 ⟨h4, h5, h6, h7⟩ => ?_
      cases found with
      | none => exact ⟨h4, h5.trans h2, fun a => .inl ((h6 a).trans (h3 a))⟩
      | some pt =>
          obtain ⟨pd, hpd, hpt⟩ := h7 pt rfl
          refine ends_assert (fun _ => ?_) trivial
          have hset := records_setTable s2 (pdNo upage) (pt.setEntry (ptNo upage) ⟨kpage, writable⟩)
          refine ⟨hset.1 h4, hset.2.trans (h5.trans h2), fun a => ?_⟩
          have hentry : (s2.setTable (pdNo upage) (pt.setEntry (ptNo upage) ⟨kpage, writable⟩)).mapping a =
              if a / pgSize = upage / pgSize then some ⟨kpage, writable⟩ else s2.mapping a := by
            show ((s2.setTable _ _).dirAt s2.current).bind _ = _
            rw [dirAt_setTable_self, hpd]
            show (pd.setTable _ _).entry a = _
            rw [Userprog.entry_setTable fun j => by rw [hpt]; rfl, Kernel.mapping, hpd]
            rfl
          by_cases hpage : a / pgSize = upage / pgSize
          · exact .inr ⟨rfl, hpage, by simpa [isUserVaddr] using hlow, by simpa using hk⟩
          · left
            show (s2.setTable _ _).mapping a = _
            rw [hentry, if_neg hpage, h6, h3]

end Mapping

/-! ## The loop -/

section Loop

variable {s s' : Kernel} {a : ℕ}

/-- The address is in the page number `i` from `upage` on, which is a page of the user, and the record
number `i` is for a frame in kernel memory. -/
def RecordedAt (upage a : ℕ) (kpages : List ℕ) : Prop :=
  ∃ i kpage, kpages[i]? = some kpage ∧ a / pgSize = upage / pgSize + i ∧
    upage + pgSize * i < physBase ∧ physBase ≤ kpage

theorem ends_sameRecords {α : Type} {m : Code α} (h : Moves SameRecords m) (s : Kernel) :
    Ends (m s) (fun _ s' => SameRecords s s') fun _ _ => True :=
  (h.ends s).mono (fun _ _ => id) fun _ _ _ => trivial

/-- **The loop of `load_segment`**: every page gets a record, and what is mapped has its record at the same
place in the table as the page in the segment. -/
theorem loadPages_records (fuel file : ℕ) (ofs : ℤ) (writable : Bool) :
    ∀ {n upage readBytes zeroBytes : ℕ} {s : Kernel}, s.threads s.current ≠ none →
      Ends (loadPages fuel file ofs writable n upage readBytes zeroBytes s)
        (fun _ s' => ∃ kpages, s'.vAddrs = s.vAddrs ++ kpages ∧
          ∀ a, s'.mapping a = s.mapping a ∨ RecordedAt upage a kpages) fun _ _ => True := by
  have hnil : ∀ s : Kernel, s.vAddrs = s.vAddrs ++ [] := fun s => (List.append_nil _).symm
  intro n
  induction n with
  | zero => exact fun _ => ⟨[], hnil _, fun _ => .inl rfl⟩
  | succ n ih =>
      intro upage readBytes zeroBytes s hs
      refine Ends.ite (fun _ => ⟨[], hnil _, fun _ => .inl rfl⟩) fun _ => ?_
      refine Ends.bind (ends_sameRecords (getFrame_moves fuel _) s) fun found s1 h1 => ?_
      cases found with
      | none => exact ⟨[], h1.vAddrs.trans (hnil _), fun a => .inl (h1.mapping_eq a)⟩
      | some kpage =>
          refine Ends.bind (createSupPage_records _ _ _ _ _ (h1.alive hs)) fun _ s2 ⟨h2, hdir2, hv2⟩ => ?_
          have hmap2 : ∀ a, s2.mapping a = s.mapping a := fun a => by
            rw [Kernel.mapping, hdir2, ← h1.mapping_eq]
            rfl
          have hv : s2.vAddrs = s.vAddrs ++ [kpage] := hv2.trans (by rw [h1.vAddrs])
          refine Ends.bind (ends_sameRecords (fileRead_moves _ _ _) s2) fun got s3 h3 => ?_
          have hfree : ∀ s4 : Kernel, s4.vAddrs = s.vAddrs ++ [kpage] → (∀ a, s4.mapping a = s.mapping a) →
              Ends ((freeFrame kpage >>= fun _ => pure false) s4)
                (fun _ s' => ∃ kpages, s'.vAddrs = s.vAddrs ++ kpages ∧
                  ∀ a, s'.mapping a = s.mapping a ∨ RecordedAt upage a kpages) fun _ _ => True :=
            fun s4 hv4 hmap4 => Ends.bind (ends_sameRecords (freeFrame_moves kpage) s4) fun _ s5 h5 =>
              ⟨[kpage], h5.vAddrs.trans hv4, fun a => .inl ((h5.mapping_eq a).trans (hmap4 a))⟩
          refine Ends.ite (fun _ => ?_) fun _ => ?_
          · exact hfree s3 (h3.vAddrs.trans hv) fun a => (h3.mapping_eq a).trans (hmap2 a)
          · rw [change_bind]
            set rest := pgSize - min readBytes pgSize
            set s4 : Kernel := { s3 with
              mem := copyBytes s3.mem (kpage + min readBytes pgSize) rest fun _ => 0 } with hs4
            have h4 : SameRecords s3 s4 := .of_threads rfl rfl
            refine Ends.bind (installPage_mapping (h4.alive (h3.alive h2))) fun b s5 ⟨h5, hv5, hmap5⟩ => ?_
            have hv5' : s5.vAddrs = s.vAddrs ++ [kpage] :=
              hv5.trans (h4.vAddrs.trans (h3.vAddrs.trans hv))
            have hmap4 : ∀ a, s4.mapping a = s.mapping a := fun a =>
              (h4.mapping_eq a).trans ((h3.mapping_eq a).trans (hmap2 a))
            cases b with
            | false =>
                refine hfree s5 hv5' fun a => ?_
                rcases hmap5 a with h | ⟨h, -⟩
                · exact h.trans (hmap4 a)
                · cases h
            | true =>
                refine (ih h5).mono (fun _ s6 h6 => ?_) fun _ _ _ => trivial
                obtain ⟨kpages, hv6, hmap6⟩ := h6
                refine ⟨kpage :: kpages, ?_, fun a => ?_⟩
                · rw [hv6, hv5', List.append_assoc]
                  rfl
                · rcases hmap6 a with h | ⟨i, kp, hi, hpage, hlow, hk⟩
                  · rcases hmap5 a with h' | ⟨-, hpage, hlow, hk⟩
                    · exact .inl (h.trans (h'.trans (hmap4 a)))
                    · exact .inr ⟨0, kpage, rfl, hpage, hlow, hk⟩
                  · refine .inr ⟨i + 1, kp, hi, ?_, by rw [Nat.mul_succ]; omega, hk⟩
                    have hnext : (upage + pgSize) / pgSize = upage / pgSize + 1 :=
                      Nat.add_div_right _ (by decide)
                    omega

/-- The record that was made for the page of `a` is found under the address of the page, and the bytes it
speaks of are the bytes of the page. -/
def Described (s s' : Kernel) (upage a : ℕ) : Prop :=
  ∃ spage pte, s'.records[s.records.length + (a / pgSize - upage / pgSize)]? = some spage ∧
    getSupPage s'.records (a / pgSize * pgSize) = .ok spage ∧ s'.mapping a = some pte ∧
    spage.readBytes + spage.zeroBytes = pgSize ∧
    (∀ j < spage.readBytes, s'.mem (pte.kpage + j) =
      (s'.files spage.file).image.byte (spage.offset.toNat + j)) ∧
    ∀ j, spage.readBytes ≤ j → j < pgSize → s'.mem (pte.kpage + j) = 0

/-- **No page that `load_segment` maps is described by its record.** -/
theorem loadSegment_not_described {fuel file ofs upage readBytes zeroBytes : ℕ} {writable b : Bool}
    (hs : s.threads s.current ≠ none)
    (hrun : loadSegment fuel file ofs upage readBytes zeroBytes writable s = .ok b s')
    (hbefore : s.mapping a = none) (hafter : s'.mapping a ≠ none) : ¬ Described s s' upage a := by
  rintro ⟨spage, pte, hrecord, hfound, -⟩
  have hends : Ends (loadSegment fuel file ofs upage readBytes zeroBytes writable s)
      (fun _ s' => ∃ kpages, s'.vAddrs = s.vAddrs ++ kpages ∧
        ∀ a, s'.mapping a = s.mapping a ∨ RecordedAt upage a kpages) fun _ _ => True := by
    refine ends_assert (fun _ => ?_) trivial
    refine ends_assert (fun _ => ?_) trivial
    refine ends_assert (fun _ => ?_) trivial
    refine Ends.bind (ends_sameRecords (fileSeek_moves _ _) s) fun _ s1 h1 => ?_
    refine (loadPages_records _ _ _ _ (h1.alive hs)).mono (fun _ s2 h2 => ?_) fun _ _ _ => trivial
    obtain ⟨kpages, hv, hmap⟩ := h2
    exact ⟨kpages, by rw [hv, h1.vAddrs], fun a => (hmap a).imp (fun h => h.trans (h1.mapping_eq a)) id⟩
  rw [hrun] at hends
  obtain ⟨kpages, hv, hmap⟩ := hends
  rcases hmap a with h | ⟨i, kpage, hi, hpage, hlow, hk⟩
  · exact hafter (h.trans hbefore)
  · -- the record is for a frame of the kernel, the page is one of the user
    have hindex : a / pgSize - upage / pgSize = i := by omega
    have hkernel : spage.vAddr = kpage := by
      have h := congrArg (Option.map (·.vAddr)) hrecord
      rw [← List.getElem?_map, hindex] at h
      change s'.vAddrs[s.records.length + i]? = some spage.vAddr at h
      have hlen : s.vAddrs.length = s.records.length := List.length_map ..
      rw [hv, ← hlen, List.getElem?_append_right (Nat.le_add_right _ _), Nat.add_sub_cancel_left, hi] at h
      exact (Option.some.inj h).symm
    have huser : spage.vAddr = a / pgSize * pgSize := by
      rw [getSupPage] at hfound
      cases hfind : s'.records.find? (·.vAddr = a / pgSize * pgSize) with
      | none =>
          rw [hfind] at hfound
          cases hfound
      | some page =>
          rw [hfind] at hfound
          cases hfound
          simpa using List.find?_some hfind
    have hbase : physBase = pgSize * 786432 := rfl
    have hdiv : upage / pgSize + i < 786432 := by
      have h : (upage + pgSize * i) / pgSize < 786432 :=
        Nat.div_lt_of_lt_mul (hbase ▸ hlow)
      rwa [Nat.add_mul_div_left _ _ (by decide)] at h
    have hmul : a / pgSize * pgSize < physBase := by
      rw [hpage, hbase, Nat.mul_comm]
      exact Nat.mul_lt_mul_of_pos_left hdiv (by decide)
    omega

end Loop

/-! ## A segment of one page -/

/-- A program of five bytes is about to be loaded. -/
def segmentKernel : Kernel :=
  { smallKernel with
    threads := fun t => if t = 1 then
      some ⟨none, some ⟨physBase + 0x110000, fun _ => none⟩, [], fun _ => none, none, none, .starting⟩ else none
    files := fun _ => ⟨⟨5, fun i => UInt8.ofNat i⟩, 0⟩ }

/-- The page of the segment. -/
def segmentPage : ℕ := 0x08048000

/-- Whether a call returned true. -/
def trueReturned (r : EStateM.Result Stop Kernel Bool) : Bool :=
  match r with
  | .ok b _ => b
  | .error _ _ => false

theorem eq_ok_of_trueReturned {r : EStateM.Result Stop Kernel Bool} (h : trueReturned r = true) :
    r = .ok true (final r) := by
  cases r with
  | ok b s =>
      obtain rfl : b = true := h
      rfl
  | error e s => cases h

/-- The page is loaded. -/
theorem segmentPage_loaded : ∃ s', loadSegment 1 0 0 segmentPage 5 4091 true segmentKernel = .ok true s' ∧
    segmentKernel.mapping segmentPage = none ∧ s'.mapping segmentPage ≠ none :=
  ⟨_, eq_ok_of_trueReturned (by decide +kernel), by decide +kernel, by decide +kernel⟩

theorem segmentPage_not_described : ∃ s', loadSegment 1 0 0 segmentPage 5 4091 true segmentKernel = .ok true s' ∧
    ¬ Described segmentKernel s' segmentPage segmentPage := by
  obtain ⟨s', hrun, hbefore, hafter⟩ := segmentPage_loaded
  exact ⟨s', hrun, loadSegment_not_described (by decide) hrun hbefore hafter⟩

/-- **The record of a loaded page is not found under its address.** -/
theorem segmentPage_not_found : ¬ ∀ (s s' : Kernel) (fuel file ofs upage readBytes zeroBytes a : ℕ)
    (writable : Bool), s.threads s.current ≠ none →
      loadSegment fuel file ofs upage readBytes zeroBytes writable s = .ok true s' →
        s.mapping a = none → s'.mapping a ≠ none → Described s s' upage a := by
  intro h
  obtain ⟨s', hrun, hbefore, hafter⟩ := segmentPage_loaded
  obtain ⟨spage, pte, -, hfound, -⟩ := h _ _ _ _ _ _ _ _ _ _ (by decide) hrun hbefore hafter
  have hmissing : ((final (loadSegment 1 0 0 segmentPage 5 4091 true segmentKernel)).records.find?
      (·.vAddr = segmentPage / pgSize * pgSize)).isNone = true := by
    decide +kernel
  rw [hrun] at hmissing
  have hnone : s'.records.find? (·.vAddr = segmentPage / pgSize * pgSize) = none :=
    Option.isNone_iff_eq_none.mp hmissing
  rw [getSupPage, hnone] at hfound
  cases hfound

end Pintos.Vm
