import Mathlib.Data.Fintype.Basic
import Mathlib.Data.List.Range
import Mathlib.Logic.Relation
import Mathlib.Order.WellFounded
import Mathlib.Order.RelClasses
import Mathlib.Data.Finset.Lattice.Fold
import Pintos.Lib.Block
import Pintos.Lib.Command

/-!
# Partition tables

`partition_scan` of `devices/partition.c` in `fs_PintOS`.  A partition table has four entries; an
extended partition has a table of its own, at a sector its entry names, and may have further ones
below it.  Every other entry that is not empty is a partition, and is handed to `found_partition`.

`read_partition_table` is called for the sector of each of these tables, and every time it reads
sector 0.

The tables that `malloc` can provide for at the same time bound the recursion: the next call
panics.  What is only printed is left out.

* **`holds_exists`** — a chain of tables that is well founded has a list of partitions.
* **`readPartitionTable_root`** — what is found as the code reads it.
* **`scan_never_returns`** — the scan does not end if an extended partition is in the first half of
  the device.
* **`scans_iff`** — which devices are scanned as their tables say.
-/

namespace Pintos.Devices

open Lib Block

/-! ## The functions of `partition.c` -/

/-- `struct partition_table_entry`, as far as it is read. -/
structure PartitionTableEntry where
  type : UInt8
  offset : UInt32
  size : UInt32
deriving DecidableEq, Repr

/-- `struct partition_table`, as far as it is read. -/
structure PartitionTable where
  partitions : Fin 4 → PartitionTableEntry
  signature : UInt16

/-- A number of 32 bits in a sector. -/
def sectorWord (b : Block 512) (i : ℕ) : UInt32 :=
  UInt32.ofNat ((byteAt b i).toNat + 256 * (byteAt b (i + 1)).toNat
    + 65536 * (byteAt b (i + 2)).toNat + 16777216 * (byteAt b (i + 3)).toNat)

/-- A sector as a partition table. -/
def partitionTable (b : Block 512) : PartitionTable where
  partitions i :=
    { type := byteAt b (446 + 16 * i + 4)
      offset := sectorWord b (446 + 16 * i + 8)
      size := sectorWord b (446 + 16 * i + 12) }
  signature := UInt16.ofNat ((byteAt b 510).toNat + 256 * (byteAt b 511).toNat)

/-- A block device. -/
structure BlockDevice where
  size : UInt32
  sector : UInt32 → Block 512

/-- `enum block_type`, as far as it is used. -/
inductive BlockType where
  | kernel
  | filesys
  | scratch
  | swap
  | foreign
deriving DecidableEq, Repr

/-- The arguments of a call of `found_partition`, but for the number. -/
structure Partition where
  type : UInt8
  start : UInt32
  size : UInt32
deriving DecidableEq, Repr

/-- A block device that has been registered for a partition. -/
structure RegisteredPartition where
  type : BlockType
  start : UInt32
  size : UInt32
  partNr : ℕ
deriving DecidableEq, Repr

/-- `PANIC`, for want of memory. -/
inductive ScanStop where
  | noTable
  | noDescriptor
deriving DecidableEq, Repr

/-- The calls of `found_partition`, with their numbers, and what came of them.  `descriptors` are
the partition descriptors that `malloc` can still provide. -/
structure ScanState where
  partNr : ℕ
  calls : List (Partition × ℕ)
  registered : List RegisteredPartition
  descriptors : ℕ

abbrev ScanM := EStateM ScanStop ScanState

namespace PartitionTableEntry

/-- The entry is empty. -/
def IsEmpty (e : PartitionTableEntry) : Prop := e.size = 0 ∨ e.type = 0

/-- The entry is for an extended partition. -/
def IsExtended (e : PartitionTableEntry) : Prop :=
  e.type = 0x05 ∨ e.type = 0x0f ∨ e.type = 0x85 ∨ e.type = 0xc5

instance (e : PartitionTableEntry) : Decidable e.IsEmpty := inferInstanceAs (Decidable (_ ∨ _))

instance (e : PartitionTableEntry) : Decidable e.IsExtended := inferInstanceAs (Decidable (_ ∨ _))

/-- Where the table of an extended partition is, and the sector that its own offsets count from.
`n` is the same for the table the entry is in. -/
def next (e : PartitionTableEntry) (n : UInt32 × UInt32) : UInt32 × UInt32 :=
  if n.1 = 0 then (e.offset, e.offset) else (e.offset + n.2, n.2)

/-- The partition of an entry in the table at `sector`. -/
def partition (e : PartitionTableEntry) (sector : UInt32) : Partition :=
  ⟨e.type, e.offset + sector, e.size⟩

end PartitionTableEntry

/-- The kind of block device for a type of partition. -/
def blockType (partType : UInt8) : BlockType :=
  if partType = 0x20 then .kernel
  else if partType = 0x21 then .filesys
  else if partType = 0x22 then .scratch
  else if partType = 0x23 then .swap
  else .foreign

/-- `malloc (sizeof *p)` and `block_register`, of `found_partition`. -/
def registerPartition (p : Partition) (partNr : ℕ) : ScanM Unit := fun s =>
  match s.descriptors with
  | 0 => .error .noDescriptor s
  | d + 1 =>
      .ok () { s with
        descriptors := d
        registered := s.registered ++ [⟨blockType p.type, p.start, p.size, partNr⟩] }

/-- `found_partition`. -/
def foundPartition (D : BlockDevice) (p : Partition) (partNr : ℕ) : ScanM Unit := do
  change fun s => { s with calls := s.calls ++ [(p, partNr)] }
  if D.size ≤ p.start then
    pure ()
  else if p.start + p.size < p.start ∨ D.size < p.start + p.size then
    pure ()
  else
    registerPartition p partNr

/-- The branch of `read_partition_table` for a partition that is not extended. -/
def countPartition (D : BlockDevice) (e : PartitionTableEntry) (sector : UInt32) : ScanM Unit := do
  change fun s => { s with partNr := s.partNr + 1 }
  let partNr ← fetch ScanState.partNr
  foundPartition D (e.partition sector) partNr

/-- `read_partition_table`.  `n` is `sector` and `primary_extended_sector`. -/
def readPartitionTable (D : BlockDevice) : ℕ → UInt32 × UInt32 → ScanM Unit
  | 0, n => if D.size ≤ n.1 then pure () else stop .noTable
  | tables + 1, n =>
      if D.size ≤ n.1 then
        pure ()
      else
        -- `block_read (block, 0, pt)`
        let pt := partitionTable (D.sector 0)
        if pt.signature ≠ 0xaa55 then
          pure ()
        else
          forM (List.ofFn pt.partitions) fun e => do
            if e.IsEmpty then
              pure ()
            else if e.IsExtended then
              readPartitionTable D tables (e.next n)
            else
              countPartition D e n.1

/-- `partition_scan`.  In the beginning nothing has been found. -/
def partitionScan (D : BlockDevice) (tables descriptors : ℕ) : EStateM.Result ScanStop ScanState Unit :=
  readPartitionTable D tables (0, 0) ⟨0, [], [], descriptors⟩

/-! ## What the tables say -/

/-- The entries of the table in a sector, if it is one, without the empty ones. -/
def BlockDevice.entries (D : BlockDevice) (sector : UInt32) : List PartitionTableEntry :=
  let pt := partitionTable (D.sector sector)
  if pt.signature = 0xaa55 then (List.ofFn pt.partitions).filter fun e => ¬ e.IsEmpty else []

/-- The partitions of a table and of the tables below it, as deep as `depth`. -/
def BlockDevice.partitions (D : BlockDevice) : ℕ → UInt32 × UInt32 → List Partition
  | 0, _ => []
  | depth + 1, n => (D.entries n.1).flatMap fun e =>
      if e.IsExtended then D.partitions depth (e.next n) else [e.partition n.1]

/-- All partitions of a table and of the tables below it. -/
def BlockDevice.HoldsAt (D : BlockDevice) (n : UInt32 × UInt32) (ps : List Partition) : Prop :=
  ∃ depth, ∀ d ≥ depth, D.partitions d n = ps

/-- The partitions of the device. -/
def BlockDevice.Holds (D : BlockDevice) (ps : List Partition) : Prop := D.HoldsAt (0, 0) ps

/-- The table `n'` is named in the table `n`. -/
def BlockDevice.Below (D : BlockDevice) (n n' : UInt32 × UInt32) : Prop :=
  ∃ e ∈ D.entries n.1, e.IsExtended ∧ e.next n = n'

/-- Every table is inside the device, and none is reachable from itself. -/
structure BlockDevice.WellFounded (D : BlockDevice) : Prop where
  inside : ∀ n, Relation.ReflTransGen D.Below (0, 0) n → n.1 < D.size
  acyclic : ∀ n, Relation.ReflTransGen D.Below (0, 0) n → ¬ Relation.TransGen D.Below n n

variable {D : BlockDevice} {n n' : UInt32 × UInt32} {ps qs : List Partition}

theorem BlockDevice.HoldsAt.unique (h : D.HoldsAt n ps) (h' : D.HoldsAt n qs) : ps = qs := by
  obtain ⟨k, hk⟩ := h
  obtain ⟨k', hk'⟩ := h'
  exact (hk (max k k') (le_max_left _ _)).symm.trans (hk' (max k k') (le_max_right _ _))

/-- What holds of every entry of a list from some depth on, holds of all from some depth on. -/
theorem eventually_list {α : Type} {Q : α → ℕ → Prop} {l : List α}
    (h : ∀ x ∈ l, ∃ k, ∀ d ≥ k, Q x d) : ∃ k, ∀ d ≥ k, ∀ x ∈ l, Q x d := by
  induction l with
  | nil => exact ⟨0, fun d _ x hx => by cases hx⟩
  | cons y l ih =>
      obtain ⟨k, hk⟩ := h y List.mem_cons_self
      obtain ⟨k', hk'⟩ := ih fun x hx => h x (List.mem_cons_of_mem _ hx)
      refine ⟨max k k', fun d hd x hx => ?_⟩
      rcases List.mem_cons.mp hx with rfl | hx
      · exact hk d ((le_max_left _ _).trans hd)
      · exact hk' d ((le_max_right _ _).trans hd) x hx

/-- A table has partitions if the tables it names have. -/
theorem holdsAt_of_below (h : ∀ n', D.Below n n' → ∃ ps, D.HoldsAt n' ps) : ∃ ps, D.HoldsAt n ps := by
  have hentry : ∀ e ∈ D.entries n.1, ∃ ps, e.IsExtended → D.HoldsAt (e.next n) ps := by
    intro e he
    by_cases hx : e.IsExtended
    · obtain ⟨ps, hps⟩ := h _ ⟨e, he, hx, rfl⟩
      exact ⟨ps, fun _ => hps⟩
    · exact ⟨[], fun hx' => absurd hx' hx⟩
  choose! f hf using hentry
  have hall : ∀ e ∈ D.entries n.1, ∃ k, ∀ d ≥ k, e.IsExtended → D.partitions d (e.next n) = f e := by
    intro e he
    by_cases hx : e.IsExtended
    · obtain ⟨k, hk⟩ := hf e he hx
      exact ⟨k, fun d hd _ => hk d hd⟩
    · exact ⟨0, fun d _ hx' => absurd hx' hx⟩
  obtain ⟨k, hk⟩ := eventually_list hall
  refine ⟨(D.entries n.1).flatMap fun e => if e.IsExtended then f e else [e.partition n.1], k + 1,
    fun d hd => ?_⟩
  obtain ⟨d, rfl⟩ : ∃ d', d = d' + 1 := ⟨d - 1, by omega⟩
  rw [BlockDevice.partitions]
  refine List.flatMap_congr fun e he => ?_
  split_ifs with hx
  · exact hk d (by omega) e he hx
  · rfl

theorem finite_uint32 : Finite UInt32 :=
  Finite.of_injective UInt32.toFin fun _ _ h => UInt32.toFin_inj.mp h

/-- **A chain of tables that is well founded has a list of partitions.** -/
theorem holds_exists (wf : D.WellFounded) : ∃ ps, D.Holds ps := by
  have hfin := finite_uint32
  let Reached := { n : UInt32 × UInt32 // Relation.ReflTransGen D.Below (0, 0) n }
  let r : Reached → Reached → Prop := fun a b => Relation.TransGen D.Below b.1 a.1
  have htrans : IsTrans Reached r := ⟨fun a b c hab hbc => hbc.trans hab⟩
  have hirrefl : Std.Irrefl r := ⟨fun a h => wf.acyclic a.1 a.2 h⟩
  have hwf : WellFounded r := Finite.wellFounded_of_trans_of_irrefl r
  have hreached : ∀ a : Reached, ∃ ps, D.HoldsAt a.1 ps := by
    intro a
    induction a using hwf.induction with
    | _ a ih =>
        refine holdsAt_of_below fun n' hn' => ?_
        exact ih ⟨n', a.2.tail hn'⟩ (.single hn')
  exact hreached ⟨(0, 0), .refl⟩

/-! ## Runs that return -/

/-- The partitions `ps` have been found, and counted on from the last one.  What has been registered
lies inside the device. -/
structure Ran (D : BlockDevice) (s s' : ScanState) (ps : List Partition) : Prop where
  partNr : s'.partNr = s.partNr + ps.length
  calls : s'.calls = s.calls ++ ps.zipIdx (s.partNr + 1)
  registered : ∀ p ∈ s'.registered, p ∈ s.registered ∨ p.start.toNat + p.size.toNat ≤ D.size.toNat
  descriptors : s.descriptors ≤ s'.descriptors + ps.length

/-- With enough memory for their descriptors, `m` finds the partitions `ps`. -/
def Finds (D : BlockDevice) (m : ScanM Unit) (ps : List Partition) : Prop :=
  ∀ s : ScanState, ps.length ≤ s.descriptors → ∃ s', m s = .ok () s' ∧ Ran D s s' ps

theorem Ran.refl (s : ScanState) : Ran D s s [] where
  partNr := rfl
  calls := by simp
  registered _ hp := .inl hp
  descriptors := le_rfl

theorem Ran.trans {s s' s'' : ScanState} (h : Ran D s s' ps) (h' : Ran D s' s'' qs) :
    Ran D s s'' (ps ++ qs) where
  partNr := by rw [h'.partNr, h.partNr, List.length_append, Nat.add_assoc]
  calls := by
    rw [h'.calls, h.calls, h.partNr, List.zipIdx_append, List.append_assoc, Nat.add_right_comm]
  registered p hp := by
    rcases h'.registered p hp with hp | hp
    · exact h.registered p hp
    · exact .inr hp
  descriptors := by
    have := h.descriptors
    have := h'.descriptors
    rw [List.length_append]
    omega

section Finds

variable {α : Type} {m m' : ScanM Unit} {f : α → ScanM Unit} {g : α → List Partition} {l : List α}

theorem finds_pure : Finds D (pure ()) [] := fun s _ => ⟨s, rfl, .refl s⟩

theorem Finds.bind (h : Finds D m ps) (h' : Finds D m' qs) : Finds D (m >>= fun _ => m') (ps ++ qs) := by
  intro s hs
  rw [List.length_append] at hs
  obtain ⟨s1, hrun, ran⟩ := h s (by omega)
  obtain ⟨s2, hrun', ran'⟩ := h' s1 (by have := ran.descriptors; omega)
  exact ⟨s2, (bind_of_ok hrun).trans hrun', ran.trans ran'⟩

/-- A loop finds what its rounds find. -/
theorem finds_forM (h : ∀ x ∈ l, Finds D (f x) (g x)) : Finds D (forM l f) (l.flatMap g) := by
  induction l with
  | nil => exact finds_pure
  | cons x l ih =>
      rw [List.forM_cons, List.flatMap_cons]
      exact (h x List.mem_cons_self).bind (ih fun y hy => h y (List.mem_cons_of_mem _ hy))

end Finds

/-- What is registered has been tested to lie inside the device. -/
theorem inside_of_tests {p : Partition} (hstart : ¬ D.size ≤ p.start)
    (hend : ¬ (p.start + p.size < p.start ∨ D.size < p.start + p.size)) :
    p.start.toNat + p.size.toNat ≤ D.size.toNat := by
  rw [not_or, UInt32.lt_iff_toNat_lt, UInt32.lt_iff_toNat_lt, UInt32.toNat_add] at hend
  rw [UInt32.le_iff_toNat_le] at hstart
  have := p.start.toNat_lt
  have := p.size.toNat_lt
  omega

theorem finds_countPartition (e : PartitionTableEntry) (sector : UInt32) :
    Finds D (countPartition D e sector) [e.partition sector] := by
  intro s hs
  have hcount : countPartition D e sector s =
      foundPartition D (e.partition sector) (s.partNr + 1) { s with partNr := s.partNr + 1 } := rfl
  rw [hcount]
  generalize e.partition sector = p at hs ⊢
  let s1 : ScanState := { s with partNr := s.partNr + 1, calls := s.calls ++ [(p, s.partNr + 1)] }
  have hrun : foundPartition D p (s.partNr + 1) { s with partNr := s.partNr + 1 } =
      (if D.size ≤ p.start then pure ()
        else if p.start + p.size < p.start ∨ D.size < p.start + p.size then pure ()
        else registerPartition p (s.partNr + 1) : ScanM Unit) s1 := rfl
  have hran : Ran D s s1 [p] :=
    ⟨rfl, rfl, fun _ hp => .inl hp, Nat.le_succ _⟩
  rw [hrun]
  split_ifs with hstart hend
  · exact ⟨s1, rfl, hran⟩
  · exact ⟨s1, rfl, hran⟩
  · obtain ⟨d, hd⟩ : ∃ d, s.descriptors = d + 1 := ⟨s.descriptors - 1, by simp at hs; omega⟩
    refine ⟨{ s1 with
        descriptors := d
        registered := s1.registered ++ [⟨blockType p.type, p.start, p.size, s.partNr + 1⟩] }, ?_,
      hran.partNr, hran.calls, fun q hq => ?_, hd.le⟩
    · simp only [registerPartition, s1, hd]
    · rcases List.mem_append.mp hq with hq | hq
      · exact .inl hq
      · rw [List.mem_singleton.mp hq]
        exact .inr (inside_of_tests hstart hend)

/-! ## The table that is read -/

theorem forM_skip {α : Type} {P : α → Prop} [DecidablePred P] {f : α → ScanM Unit} (l : List α)
    (s : ScanState) :
    forM l (fun x => if P x then pure () else f x) s = forM (l.filter fun x => ¬ P x) f s := by
  induction l generalizing s with
  | nil => rfl
  | cons x l ih =>
      rw [List.forM_cons]
      by_cases hx : P x
      · rw [if_pos hx, List.filter_cons_of_neg (by simpa using hx)]
        exact ih s
      · rw [if_neg hx, List.filter_cons_of_pos (by simpa using hx), List.forM_cons]
        cases hf : f x s with
        | ok a s' => rw [bind_of_ok hf, bind_of_ok hf, ih s']
        | error e s' => rw [bind_of_error hf, bind_of_error hf]

/-- What is done for an entry of the table. -/
def visit (D : BlockDevice) (tables : ℕ) (n : UInt32 × UInt32) (e : PartitionTableEntry) : ScanM Unit :=
  if e.IsExtended then readPartitionTable D tables (e.next n) else countPartition D e n.1

/-- Whatever table is asked for, the entries are those of sector 0. -/
theorem readPartitionTable_succ {tables : ℕ} (hn : n.1 < D.size) :
    readPartitionTable D (tables + 1) n = forM (D.entries 0) (visit D tables n) := by
  funext s
  rw [readPartitionTable, if_neg (UInt32.not_le.mpr hn), BlockDevice.entries]
  by_cases hsig : (partitionTable (D.sector 0)).signature = 0xaa55
  · simp only [hsig, ne_eq, not_true_eq_false, if_false, if_true]
    exact forM_skip _ s
  · simp only [ne_eq, hsig, not_false_eq_true, if_true, if_false]
    rfl

theorem readPartitionTable_pastEnd {tables : ℕ} (hn : D.size ≤ n.1) :
    readPartitionTable D tables n = pure () := by
  cases tables <;> rw [readPartitionTable, if_pos hn]

/-- The partitions of the master boot record, counted from the sector `o`. -/
def BlockDevice.rereadAt (D : BlockDevice) (o : UInt32) : List Partition :=
  (D.entries 0).flatMap fun e => if e.IsExtended then [] else [e.partition o]

/-- The partitions of the master boot record, and for each of its extended partitions the same ones
over again. -/
def BlockDevice.reread (D : BlockDevice) : List Partition :=
  (D.entries 0).flatMap fun e => if e.IsExtended then D.rereadAt e.offset else [e.partition 0]

/-- The extended partitions of the master boot record, counted from one of them, begin behind the end
of the device. -/
def BlockDevice.PastEnd (D : BlockDevice) : Prop :=
  ∀ e ∈ D.entries 0, e.IsExtended → ∀ e' ∈ D.entries 0, e'.IsExtended → D.size ≤ e'.offset + e.offset

/-- Where the extended partitions of the master boot record have their tables. -/
theorem BlockDevice.WellFounded.extended (wf : D.WellFounded) {e : PartitionTableEntry}
    (he : e ∈ D.entries 0) (hx : e.IsExtended) : e.offset ≠ 0 ∧ e.offset < D.size := by
  have hbelow : D.Below (0, 0) (e.offset, e.offset) := ⟨e, he, hx, if_pos rfl⟩
  refine ⟨fun h0 => ?_, wf.inside _ (.single hbelow)⟩
  rw [h0] at hbelow
  exact wf.acyclic _ .refl (.single hbelow)

/-- The table of an extended partition of the master boot record. -/
theorem readPartitionTable_extended {tables : ℕ} {o : UInt32} (ho : o ≠ 0) (hlt : o < D.size)
    (hend : ∀ e ∈ D.entries 0, e.IsExtended → D.size ≤ e.offset + o) :
    Finds D (readPartitionTable D (tables + 1) (o, o)) (D.rereadAt o) := by
  rw [readPartitionTable_succ hlt]
  refine finds_forM fun e he => ?_
  rw [visit]
  split_ifs with hx
  · have hnext : e.next (o, o) = (e.offset + o, o) := if_neg ho
    rw [hnext, readPartitionTable_pastEnd (hend e he hx)]
    exact finds_pure
  · exact finds_countPartition e o

/-- **What is found** if the recursion ends. -/
theorem readPartitionTable_root (wf : D.WellFounded) (hend : D.PastEnd) {tables : ℕ} :
    Finds D (readPartitionTable D (tables + 2) (0, 0)) D.reread := by
  rw [readPartitionTable_succ (wf.inside _ .refl)]
  refine finds_forM fun e he => ?_
  rw [visit]
  split_ifs with hx
  · obtain ⟨h0, hlt⟩ := wf.extended he hx
    have hnext : e.next (0, 0) = (e.offset, e.offset) := if_pos rfl
    rw [hnext]
    exact readPartitionTable_extended h0 hlt (hend e he hx)
  · exact finds_countPartition e 0

/-! ## Runs that do not return -/

/-- If a loop returns, all its rounds have. -/
theorem forM_returned {α : Type} {f : α → ScanM Unit} {l : List α} {s s' : ScanState}
    (h : forM l f s = .ok () s') : ∀ x ∈ l, ∃ s1 s2, f x s1 = .ok () s2 := by
  induction l generalizing s with
  | nil => exact fun x hx => by cases hx
  | cons y l ih =>
      rw [List.forM_cons] at h
      cases hf : f y s with
      | ok a s1 =>
          rw [bind_of_ok hf] at h
          intro x hx
          rcases List.mem_cons.mp hx with rfl | hx
          · exact ⟨s, s1, hf⟩
          · exact ih h x hx
      | error e s1 =>
          rw [bind_of_error hf] at h
          cases h

/-- A set of tables, each of which is followed by one of the set. -/
theorem never_returns {X : Set (UInt32 × UInt32)}
    (hX : ∀ n ∈ X, n.1 < D.size ∧ ∃ e ∈ D.entries 0, e.IsExtended ∧ e.next n ∈ X) {tables : ℕ}
    {s s' : ScanState} (hn : n ∈ X) : readPartitionTable D tables n s ≠ .ok () s' := by
  induction tables generalizing n s s' with
  | zero =>
      rw [readPartitionTable, if_neg (UInt32.not_le.mpr (hX n hn).1)]
      exact fun h => by cases h
  | succ tables ih =>
      obtain ⟨hlt, e, he, hx, hnext⟩ := hX n hn
      rw [readPartitionTable_succ hlt]
      intro h
      obtain ⟨s1, s2, hrun⟩ := forM_returned h e he
      rw [visit, if_pos hx] at hrun
      exact ih hnext hrun

/-- **The scan does not end** if an extended partition, counted from one, begins inside the device. -/
theorem scan_never_returns (wf : D.WellFounded) (hend : ¬ D.PastEnd) {tables : ℕ} {s s' : ScanState} :
    readPartitionTable D tables (0, 0) s ≠ .ok () s' := by
  simp only [BlockDevice.PastEnd, not_forall, exists_prop, UInt32.not_le] at hend
  obtain ⟨e, he, hx, e', he', hx', hlt⟩ := hend
  obtain ⟨h0, hin⟩ := wf.extended he hx
  -- the table of `e`, and the one that `e'` seems to name in it
  have hX : ∀ n ∈ ({(0, 0), (e.offset, e.offset), (e'.offset + e.offset, e.offset)} :
      Set (UInt32 × UInt32)), n.1 < D.size ∧ ∃ x ∈ D.entries 0, x.IsExtended ∧ x.next n ∈
        ({(0, 0), (e.offset, e.offset), (e'.offset + e.offset, e.offset)} : Set (UInt32 × UInt32)) := by
    rintro n (rfl | rfl | rfl)
    · exact ⟨wf.inside _ .refl, e, he, hx, .inr (.inl (if_pos rfl))⟩
    · exact ⟨hin, e', he', hx', .inr (.inr (if_neg h0))⟩
    · by_cases hzero : e'.offset + e.offset = 0
      · exact ⟨hlt, e, he, hx, .inr (.inl (if_pos hzero))⟩
      · exact ⟨hlt, e', he', hx', .inr (.inr (if_neg hzero))⟩
  exact never_returns hX (.inl rfl)

/-! ## Scans -/

/-- With enough memory, the scan ends, and has called `found_partition` for the partitions of the
device in order, with the numbers from 1 on; what has been registered lies inside the device. -/
def BlockDevice.Scans (D : BlockDevice) : Prop :=
  ∃ k, ∀ tables ≥ k, ∀ descriptors ≥ k, ∃ s', partitionScan D tables descriptors = .ok () s' ∧
    D.Holds (s'.calls.map Prod.fst) ∧
    s'.calls.map Prod.snd = List.range' 1 s'.calls.length ∧
    ∀ p ∈ s'.registered, p.start.toNat + p.size.toNat ≤ D.size.toNat

/-- What a scan from the start leaves. -/
theorem Ran.scanned {descriptors : ℕ} {s' : ScanState} (h : Ran D ⟨0, [], [], descriptors⟩ s' ps) :
    s'.calls.map Prod.fst = ps ∧ s'.calls.map Prod.snd = List.range' 1 s'.calls.length ∧
      ∀ p ∈ s'.registered, p.start.toNat + p.size.toNat ≤ D.size.toNat := by
  have hcalls : s'.calls = ps.zipIdx 1 := h.calls
  refine ⟨?_, ?_, fun p hp => ?_⟩
  · rw [hcalls, List.zipIdx_map_fst]
  · rw [hcalls, List.zipIdx_map_snd, List.length_zipIdx]
  · exact (h.registered p hp).resolve_left List.not_mem_nil

/-- **Which devices are scanned as their tables say.** -/
theorem scans_iff (wf : D.WellFounded) : D.Scans ↔ D.PastEnd ∧ D.Holds D.reread := by
  constructor
  · rintro ⟨k, hscan⟩
    have hend : D.PastEnd := by
      by_contra hend
      obtain ⟨s', hrun, -⟩ := hscan k le_rfl k le_rfl
      exact scan_never_returns wf hend hrun
    obtain ⟨s', hrun, hholds, -⟩ := hscan (k + 2) (by omega) (max k D.reread.length) (le_max_left _ _)
    obtain ⟨s'', hrun', ran⟩ := readPartitionTable_root wf hend
      ⟨0, [], [], max k D.reread.length⟩ (le_max_right _ _)
    have hs : s' = s'' := by
      have := hrun.symm.trans hrun'
      injection this
    subst hs
    rw [ran.scanned.1] at hholds
    exact ⟨hend, hholds⟩
  · rintro ⟨hend, hholds⟩
    refine ⟨max 2 D.reread.length, fun tables ht descriptors hd => ?_⟩
    obtain ⟨t, rfl⟩ : ∃ t, tables = t + 2 := ⟨tables - 2, by omega⟩
    obtain ⟨s', hrun, ran⟩ := readPartitionTable_root wf hend ⟨0, [], [], descriptors⟩
      ((le_max_right _ _).trans hd)
    obtain ⟨hcalls, hnumbers, hinside⟩ := ran.scanned
    exact ⟨s', hrun, by rwa [hcalls], hnumbers, hinside⟩

/-! ## Two devices -/

/-- A sector with the bytes given, and the signature of a partition table. -/
def tableSector (bytes : List (ℕ × UInt8)) : Block 512 :=
  ofFn fun i => (((510, 0x55) :: (511, 0xaa) :: bytes).lookup i).getD 0

/-- A partition, and an extended partition from sector 5 on with one partition in it.  The table in
sector 5 happens to name what the master boot record names. -/
def matchingDevice : BlockDevice where
  size := 10
  sector s :=
    if s = 0 then tableSector [(450, 0x83), (454, 1), (458, 2), (466, 0x05), (470, 5), (474, 5)]
    else if s = 5 then tableSector [(450, 0x83), (454, 1), (458, 2)]
    else zeros

/-- An extended partition from sector 1 on, with one partition in it. -/
def extendedDevice : BlockDevice where
  size := 10
  sector s :=
    if s = 0 then tableSector [(450, 0x05), (454, 1), (458, 9)]
    else if s = 1 then tableSector [(450, 0x83), (454, 1), (458, 2)]
    else zeros

theorem entries_zeros {s : UInt32} (h : D.sector s = zeros) : D.entries s = [] := by
  rw [BlockDevice.entries, h]
  exact if_neg (by decide)

/-- A device is well founded if its master boot record names one table, and that table none. -/
theorem wellFounded_of_below {o : UInt32} (h0 : o ≠ 0) (hlt : o < D.size)
    (h : ∀ n n', D.Below n n' → n.1 = 0 ∧ n' = (o, o)) : D.WellFounded := by
  constructor
  · intro n hn
    rcases Relation.ReflTransGen.cases_tail hn with rfl | ⟨m, -, hm⟩
    · rw [UInt32.lt_iff_toNat_lt] at hlt ⊢
      exact (Nat.zero_le _).trans_lt hlt
    · rwa [(h m n hm).2]
  · intro n _ hn
    obtain ⟨m, -, hm⟩ := Relation.TransGen.tail'_iff.mp hn
    obtain ⟨m', hm', -⟩ := Relation.TransGen.head'_iff.mp hn
    have hzero := (h n m' hm').1
    rw [(h m n hm).2] at hzero
    exact h0 hzero

theorem matchingDevice_entries_zero :
    matchingDevice.entries 0 = [⟨0x83, 1, 2⟩, ⟨0x05, 5, 5⟩] := by
  decide +kernel

theorem matchingDevice_entries_five : matchingDevice.entries 5 = [⟨0x83, 1, 2⟩] := by
  decide +kernel

theorem matchingDevice_below (n n' : UInt32 × UInt32) (h : matchingDevice.Below n n') :
    n.1 = 0 ∧ n' = (5, 5) := by
  obtain ⟨e, he, hx, rfl⟩ := h
  by_cases h0 : n.1 = 0
  · rw [h0, matchingDevice_entries_zero] at he
    rcases List.mem_cons.mp he with rfl | he
    · exact absurd hx (by decide)
    · rw [List.mem_singleton.mp he]
      exact ⟨h0, if_pos h0⟩
  by_cases h5 : n.1 = 5
  · rw [h5, matchingDevice_entries_five] at he
    rw [List.mem_singleton.mp he] at hx
    exact absurd hx (by decide)
  · rw [entries_zeros ((if_neg h0).trans (if_neg h5))] at he
    cases he

/-- The table that is read instead says the same, and the scan ends. -/
theorem scans_matching : matchingDevice.WellFounded ∧ matchingDevice.Scans := by
  have wf : matchingDevice.WellFounded :=
    wellFounded_of_below (by decide) (by decide) matchingDevice_below
  refine ⟨wf, (scans_iff wf).mpr ⟨fun e he hx e' he' hx' => ?_, 2, fun d hd => ?_⟩⟩
  · rw [matchingDevice_entries_zero] at he he'
    rcases List.mem_cons.mp he with rfl | he
    · exact absurd hx (by decide)
    rcases List.mem_cons.mp he' with rfl | he'
    · exact absurd hx' (by decide)
    rw [List.mem_singleton.mp he, List.mem_singleton.mp he']
    decide
  · obtain ⟨d, rfl⟩ : ∃ d', d = d' + 2 := ⟨d - 2, by omega⟩
    have hfive : matchingDevice.partitions (d + 1) (5, 5) = [⟨0x83, 6, 2⟩] := by
      rw [BlockDevice.partitions, matchingDevice_entries_five]
      rfl
    have hread : matchingDevice.reread = [⟨0x83, 1, 2⟩, ⟨0x83, 6, 2⟩] := by decide +kernel
    rw [hread, BlockDevice.partitions, matchingDevice_entries_zero]
    show [⟨0x83, 1, 2⟩] ++ (matchingDevice.partitions (d + 1) (5, 5) ++ []) = _
    rw [hfive]
    rfl

theorem extendedDevice_below (n n' : UInt32 × UInt32) (h : extendedDevice.Below n n') :
    n.1 = 0 ∧ n' = (1, 1) := by
  obtain ⟨e, he, hx, rfl⟩ := h
  by_cases h0 : n.1 = 0
  · rw [h0, show extendedDevice.entries 0 = [⟨0x05, 1, 9⟩] by decide +kernel] at he
    rw [List.mem_singleton.mp he]
    exact ⟨h0, if_pos h0⟩
  by_cases h1 : n.1 = 1
  · rw [h1, show extendedDevice.entries 1 = [⟨0x83, 1, 2⟩] by decide +kernel] at he
    rw [List.mem_singleton.mp he] at hx
    exact absurd hx (by decide)
  · rw [entries_zeros ((if_neg h0).trans (if_neg h1))] at he
    cases he

theorem extendedDevice_wellFounded : extendedDevice.WellFounded :=
  wellFounded_of_below (by decide) (by decide) extendedDevice_below

/-- **The scan of a device with an extended partition runs on for ever**, or as long as there is
memory. -/
theorem extendedDevice_not_scanned : extendedDevice.WellFounded ∧ ¬ extendedDevice.Scans := by
  refine ⟨extendedDevice_wellFounded, ?_⟩
  rintro ⟨k, hscan⟩
  obtain ⟨s', hrun, -⟩ := hscan k le_rfl k le_rfl
  refine scan_never_returns extendedDevice_wellFounded (fun hend => ?_) hrun
  have he : (⟨0x05, 1, 9⟩ : PartitionTableEntry) ∈ extendedDevice.entries 0 := by decide +kernel
  have := hend _ he (by decide) _ he (by decide)
  exact absurd this (by decide)

end Pintos.Devices
