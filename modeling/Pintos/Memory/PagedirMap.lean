import Pintos.Memory.Pagedir
import Pintos.Lib.Bits

/-!
# A page directory is a finite map

`Rep ram pd M m` says that the words of the directory `pd` and of its page tables stand
for the map `M` from the numbers of user pages to kernel pages and their writability.
**Every call is an operation on the map** (`setPage_spec`, `clearPage_spec`,
`getPage_spec`), or fails because there is no page for a page table and changes nothing.

The upper quarter of the directory is a copy of the kernel's; `Shared` are the pages it
refers to.  No call touches them.
-/

namespace Pintos.Memory

open Lib Vm

variable {ram pd : ℕ} {m m' : Machine}

/-! ## Entries as numbers -/

theorem and_pteAddr {w : ℕ} (h : w < 2 ^ 32) : w &&& pteAddr = w / pgSize * pgSize :=
  and_field (k := 12) (n := 20) h

theorem and_pteP (w : ℕ) : w &&& pteP = w % 2 := Nat.and_one_is_mod w

theorem and_notP {w : ℕ} (h : w < 2 ^ 32) : w &&& 0xfffffffe = w / 2 * 2 :=
  and_field (k := 1) (n := 31) h

theorem ptNo_eq (va : ℕ) : ptNo va = va / pgSize % entryCnt := and_field_shiftRight va 12 10

theorem pdNo_eq (va : ℕ) : pdNo va = va / pgSize / entryCnt := by
  rw [pdNo, Nat.shiftRight_eq_div_pow, Nat.div_div_eq_div_mul]
  rfl

/-- The entry `pde_create` makes. -/
def pdeOf (pt : ℕ) : ℕ := pt - physBase + 7

/-- The entry `pte_create_user` makes. -/
def pteOf (kpage : ℕ) (writable : Bool) : ℕ := kpage - physBase + if writable then 7 else 5

/-- A page of the memory the kernel maps. -/
structure KPage (ram p : ℕ) : Prop where
  aligned : p % pgSize = 0
  lower : physBase ≤ p
  upper : p + pgSize ≤ physBase + pgSize * ram

theorem KPage.of_used {pools : PoolName → Pool} (hlaid : Laid ram pools) {n : PoolName} {p : ℕ}
    (h : Used (pools n) p) : KPage ram p := by
  have haligned := hlaid.page_aligned h
  obtain ⟨i, hi, -, rfl⟩ := h
  have hlower := hlaid.lower n
  have hupper := hlaid.upper n
  have hmul : pgSize * (i + 1) ≤ pgSize * (pools n).usedMap.bitCnt := Nat.mul_le_mul_left _ hi
  rw [Nat.mul_add, Nat.mul_one] at hmul
  exact ⟨haligned, by omega, by omega⟩

section Entries

variable {p : ℕ} (hp : KPage ram p) (hram : ram ≤ 2 ^ 18)

include hp

theorem vtop_ok : vtop p m = .ok (p - physBase) m := by
  simp [vtop, dirAssert, hp.lower]

/-- Flags below the frame number. -/
theorem or_flags_eq {f : ℕ} (hf : f < pgSize) : (p - physBase) ||| f = p - physBase + f := by
  refine or_flags (k := 12) ?_ hf
  have h1 := hp.aligned
  have h2 := hp.lower
  simp only [pgSize, physBase] at *
  omega

theorem pdeCreate_ok : pdeCreate p m = .ok (pdeOf p) m := by
  have hflags : (p - physBase) ||| pteU ||| pteP ||| pteW = pdeOf p := by
    rw [Nat.or_assoc, Nat.or_assoc]
    exact or_flags_eq hp (by decide)
  simp only [pdeCreate, hp.aligned, decide_true, dirAssert, if_true, pure_bind_run]
  rw [bind_of_ok (vtop_ok hp), hflags]
  rfl

theorem pteCreateUser_ok (writable : Bool) :
    pteCreateUser p writable m = .ok (pteOf p writable) m := by
  have hflags : (p - physBase) ||| pteP ||| (if writable then pteW else 0) ||| pteU =
      pteOf p writable := by
    rw [Nat.or_assoc, Nat.or_assoc]
    cases writable with
    | true => exact or_flags_eq hp (by decide)
    | false => exact or_flags_eq hp (by decide)
  have hkernel : pteCreateKernel p writable m =
      .ok ((p - physBase) ||| pteP ||| (if writable then pteW else 0)) m := by
    simp only [pteCreateKernel, hp.aligned, decide_true, dirAssert, if_true, pure_bind_run]
    rw [bind_of_ok (vtop_ok hp)]
    rfl
  unfold pteCreateUser
  rw [bind_of_ok hkernel, pure_run, hflags]

include hram

/-- The frame of an entry. -/
theorem ptov_entry {f : ℕ} (hf : f < pgSize) :
    ptov ((p - physBase + f) &&& pteAddr) m = .ok p m := by
  have h1 := hp.aligned
  have h2 := hp.lower
  have h3 := hp.upper
  have hlt : p - physBase + f < 2 ^ 32 := by
    simp only [pgSize, physBase] at *
    omega
  have hframe : (p - physBase + f) / pgSize * pgSize = p - physBase := by
    simp only [pgSize, physBase] at *
    omega
  have hlow : p - physBase < physBase := by
    simp only [pgSize, physBase] at *
    omega
  rw [and_pteAddr hlt, hframe]
  simp [ptov, dirAssert, hlow, Nat.sub_add_cancel h2]

theorem pdeGetPt_ok : pdeGetPt (pdeOf p) m = .ok p m := by
  have hodd : pdeOf p &&& pteP ≠ 0 := by
    rw [and_pteP]
    have h1 := hp.aligned
    have h2 := hp.lower
    simp only [pdeOf, pgSize, physBase] at *
    omega
  have hassert : dirAssert (pdeOf p &&& pteP ≠ 0) m = .ok () m := by
    simp [dirAssert, hodd]
  rw [pdeGetPt, bind_of_ok hassert, pdeOf, ptov_entry hp hram (by decide)]

theorem pteGetPage_ok (writable : Bool) : pteGetPage (pteOf p writable) m = .ok p m := by
  cases writable with
  | true => rw [pteGetPage, pteOf, if_pos rfl, ptov_entry hp hram (by decide)]
  | false => rw [pteGetPage, pteOf, if_neg Bool.false_ne_true, ptov_entry hp hram (by decide)]

end Entries

/-- Two pages have no address in common. -/
theorem inPage_unique {p q a : ℕ} (hp : p % pgSize = 0) (hq : q % pgSize = 0) (h : inPage p a)
    (h' : inPage q a) : p = q := by
  simp only [inPage, pgSize] at *
  omega

theorem inPage_entry (p : ℕ) {i : ℕ} (hi : i < entryCnt) : inPage p (p + 4 * i) := by
  simp only [inPage, pgSize, entryCnt] at *
  omega

/-! ## The map -/

/-- What a page directory stands for: the kernel page and the writability of a user page,
by its number. -/
abbrev PageMap : Type := ℕ → Option (ℕ × Bool)

/-- The number of page tables for user pages. -/
def userTables : ℕ := 768

/-- The entry `i` of the directory refers to the page table `pt`. -/
def TableAt (m : Machine) (pd i pt : ℕ) : Prop :=
  physBase ≤ pt ∧ m.word (pd + 4 * i) = pdeOf pt

/-- The entry determines the page table. -/
theorem TableAt.unique {i pt pt' : ℕ} (h : TableAt m pd i pt) (h' : TableAt m pd i pt') :
    pt = pt' := by
  have e := h.2.symm.trans h'.2
  have h1 := h.1
  have h2 := h'.1
  simp only [pdeOf] at e
  omega

theorem TableAt.ne_zero {i pt : ℕ} (h : TableAt m pd i pt) : m.word (pd + 4 * i) ≠ 0 := by
  rw [h.2]
  exact Nat.succ_ne_zero _

/-- The word of a page table entry.  In an entry that is not present, the other bits do not
matter. -/
def EntryIs (w : ℕ) : Option (ℕ × Bool) → Prop
  | none => w % 2 = 0 ∧ w < 2 ^ 32
  | some e => w = pteOf e.1 e.2

/-- The pages all page directories refer to: the first one, and the page tables of the
kernel. -/
def Shared (m : Machine) (q : ℕ) : Prop :=
  q = m.initPageDir ∨ ∃ i, userTables ≤ i ∧ i < entryCnt ∧ TableAt m m.initPageDir i q

/-- **The directory `pd` stands for the map `M`.** -/
structure Rep (ram pd : ℕ) (M : PageMap) (m : Machine) : Prop where
  laid : Laid ram m.pools
  ram_le : ram ≤ 2 ^ 18
  ram_eq : m.initRamPages = ram
  pdUsed : Used (m.pools .kernel) pd
  shared : ∀ {q}, Shared m q → Used (m.pools .kernel) q ∧ q ≠ pd
  tables : ∀ {i}, i < userTables → m.word (pd + 4 * i) = 0 ∨
    ∃ pt, TableAt m pd i pt ∧ Used (m.pools .kernel) pt ∧ pt ≠ pd ∧ ¬ Shared m pt
  inj : ∀ {i j pt}, i < userTables → j < userTables → TableAt m pd i pt → TableAt m pd j pt → i = j
  missing : ∀ {n}, n / entryCnt < userTables → m.word (pd + 4 * (n / entryCnt)) = 0 → M n = none
  entries : ∀ {n pt}, n / entryCnt < userTables → TableAt m pd (n / entryCnt) pt →
    EntryIs (m.word (pt + 4 * (n % entryCnt))) (M n)
  outside : ∀ {n}, userTables ≤ n / entryCnt → M n = none
  mapped : ∀ {n k w}, M n = some (k, w) → Used (m.pools .user) k
  kernelHalf : ∀ {i}, userTables ≤ i → i < entryCnt →
    m.word (pd + 4 * i) = m.word (m.initPageDir + 4 * i)

namespace Rep

variable {M : PageMap} {i n pt : ℕ}

theorem kpage (h : Rep ram pd M m) {u : PoolName} {q : ℕ} (hq : Used (m.pools u) q) : KPage ram q :=
  KPage.of_used h.laid hq

/-- The page table an entry refers to. -/
theorem table (h : Rep ram pd M m) (hi : i < userTables) (ht : TableAt m pd i pt) :
    Used (m.pools .kernel) pt ∧ pt ≠ pd ∧ ¬ Shared m pt := by
  rcases h.tables hi with hz | ⟨pt', ht', hpt'⟩
  · exact absurd hz ht.ne_zero
  · rw [ht.unique ht']
    exact hpt'

/-- A page table is missing, or it is there. -/
theorem tables_cases (h : Rep ram pd M m) (hi : i < userTables) :
    m.word (pd + 4 * i) = 0 ∨ ∃ pt, TableAt m pd i pt ∧ Used (m.pools .kernel) pt ∧ KPage ram pt ∧
      pt ≠ pd ∧ ¬ Shared m pt := by
  rcases h.tables hi with hz | ⟨pt, ht, hused, hne, hshared⟩
  · exact .inl hz
  · exact .inr ⟨pt, ht, hused, h.kpage hused, hne, hshared⟩

theorem pd_ne_init (h : Rep ram pd M m) : pd ≠ m.initPageDir := fun e => (h.shared (.inl rfl)).2 e.symm

theorem pd_ne_zero (h : Rep ram pd M m) : pd ≠ 0 := (h.laid.page_pos h.pdUsed).ne'

theorem pdNo_lt {va : ℕ} (hva : va < physBase) : pdNo va < userTables := by
  rw [pdNo_eq]
  simp only [physBase, pgSize, entryCnt, userTables] at *
  omega

/-- The entry of a user address in the map. -/
theorem missing_addr (h : Rep ram pd M m) {va : ℕ} (hva : va < physBase)
    (hz : m.word (pd + 4 * pdNo va) = 0) : M (va / pgSize) = none := by
  have hlt := pdNo_lt hva
  rw [pdNo_eq] at hz hlt
  exact h.missing hlt hz

theorem entries_addr (h : Rep ram pd M m) {va : ℕ} (hva : va < physBase)
    (ht : TableAt m pd (pdNo va) pt) :
    EntryIs (m.word (pt + 4 * ptNo va)) (M (va / pgSize)) := by
  have hlt := pdNo_lt hva
  rw [pdNo_eq] at ht hlt
  rw [ptNo_eq]
  exact h.entries hlt ht

/-! ### `lookup_page` -/

theorem lookup_missing (h : Rep ram pd M m) {va : ℕ} (hz : m.word (pd + 4 * pdNo va) = 0) :
    lookupPage pd va false m = .ok none m := by
  simp [lookupPage, dirAssert, h.pd_ne_zero, hz]

theorem lookup_table (h : Rep ram pd M m) {va : ℕ} (hva : va < physBase)
    (ht : TableAt m pd (pdNo va) pt) (hpt : KPage ram pt) (create : Bool) :
    lookupPage pd va create m = .ok (some (pt + 4 * ptNo va)) m := by
  have hget : pdeGetPt (m.word (pd + 4 * pdNo va)) m = .ok pt m := by
    rw [ht.2]
    exact pdeGetPt_ok hpt h.ram_le
  have hcreate : (!create || decide (va < physBase)) = true := by
    simp [hva]
  unfold lookupPage
  simp only [dirAssert, h.pd_ne_zero, ne_eq, not_false_eq_true, decide_true, if_true, pure_bind_run,
    hcreate, fetch_bind]
  rw [if_neg ht.ne_zero]
  simp only [fetch_bind]
  rw [bind_of_ok hget]
  rfl

theorem lookup_full (h : Rep ram pd M m) {va : ℕ} (hva : va < physBase)
    (hz : m.word (pd + 4 * pdNo va) = 0) (hget : pallocGetMultiple m.pools .kernel 1 = none) :
    lookupPage pd va true m = .ok none m := by
  simp [lookupPage, pallocGetPage, PallocFlags.pool, dirAssert, h.pd_ne_zero, hz, hva, hget]

end Rep

/-- The machine with a new page table `pt`, all zeros, in entry `i` of the directory. -/
def Machine.withTable (m : Machine) (pd i pt : ℕ) (pools : PoolName → Pool) : Machine :=
  { m with
    pools := pools
    word := Function.update (fun a => if inPage pt a then 0 else m.word a) (pd + 4 * i) (pdeOf pt) }

namespace Rep

variable {M : PageMap} {i n pt : ℕ} {pools : PoolName → Pool}

theorem lookup_create (h : Rep ram pd M m) {va : ℕ} (hva : va < physBase)
    (hz : m.word (pd + 4 * pdNo va) = 0)
    (hget : pallocGetMultiple m.pools .kernel 1 = some (pt, pools)) (hpt : KPage ram pt) :
    lookupPage pd va true m =
      .ok (some (pt + 4 * ptNo va)) (m.withTable pd (pdNo va) pt pools) := by
  have hpage : pallocGetPage { zero := true } m =
      .ok (some pt) { m with pools := pools, word := fun a => if inPage pt a then 0 else m.word a } := by
    simp only [pallocGetPage, PallocFlags.pool, fetch_bind, Bool.false_eq_true, if_false, hget]
    rfl
  unfold lookupPage
  simp only [dirAssert, h.pd_ne_zero, ne_eq, not_false_eq_true, decide_true, if_true, pure_bind_run,
    hva, Bool.or_true, fetch_bind, hz]
  rw [bind_of_ok hpage]
  show ((pdeCreate pt >>= fun w => _) _ : EStateM.Result _ _ _) = _
  rw [bind_of_ok (pdeCreate_ok hpt)]
  simp only [store, change_bind, fetch_bind, Function.update_self]
  rw [bind_of_ok (pdeGetPt_ok hpt h.ram_le)]
  rfl

/-- Pages that are marked do not contain a new one. -/
theorem not_inPage (h : Rep ram pd M m)
    (hget : pallocGetMultiple m.pools .kernel 1 = some (pt, pools)) {u : PoolName} {q a : ℕ}
    (hq : Used (m.pools u) q) (ha : inPage q a) : ¬ inPage pt a := by
  obtain ⟨-, hlaid, hfree, hused⟩ := pallocGetMultiple_some h.laid hget
  have hpt : Used (pools .kernel) pt := (hused .kernel pt).mpr (.inr (by simp))
  intro hpa
  have e := inPage_unique (h.laid.page_aligned hq) (hlaid.page_aligned hpt) ha hpa
  subst e
  exact hfree q (by simp) u hq

/-- **A new page table leaves the map as it is.** -/
theorem newTable (h : Rep ram pd M m) (hi : i < userTables) (hz : m.word (pd + 4 * i) = 0)
    (hget : pallocGetMultiple m.pools .kernel 1 = some (pt, pools)) :
    Rep ram pd M (m.withTable pd i pt pools) ∧ TableAt (m.withTable pd i pt pools) pd i pt ∧
      KPage ram pt := by
  obtain ⟨-, hlaid, hfree, hused⟩ := pallocGetMultiple_some h.laid hget
  have hptUsed : Used (pools .kernel) pt := (hused .kernel pt).mpr (.inr (by simp))
  have hpt : KPage ram pt := KPage.of_used hlaid hptUsed
  have hkeep : ∀ {u q}, Used (m.pools u) q → Used (pools u) q := fun {u q} hq =>
    (hused u q).mpr (.inl hq)
  have hnew : ∀ {u q}, Used (m.pools u) q → q ≠ pt := by
    rintro u q hq rfl
    exact hfree q (by simp) u hq
  -- the words of the other pages are what they were
  have hword : ∀ {u q j}, Used (m.pools u) q → j < entryCnt → (q = pd → j ≠ i) →
      (m.withTable pd i pt pools).word (q + 4 * j) = m.word (q + 4 * j) := by
    intro u q j hq hj hne
    have haddr : q + 4 * j ≠ pd + 4 * i := by
      intro e
      have hin : inPage pd (q + 4 * j) := e ▸ inPage_entry pd (lt_of_lt_of_le hi (by decide))
      have hqpd := inPage_unique (h.laid.page_aligned hq) (h.laid.page_aligned h.pdUsed)
        (inPage_entry q hj) hin
      exact hne hqpd (by omega)
    have hout := h.not_inPage hget hq (inPage_entry q hj)
    simp only [Machine.withTable, Function.update_of_ne haddr, if_neg hout]
  have hzero : ∀ {j}, j < entryCnt → (m.withTable pd i pt pools).word (pt + 4 * j) = 0 := by
    intro j hj
    have haddr : pt + 4 * j ≠ pd + 4 * i := by
      intro e
      have hin : inPage pd (pt + 4 * j) := e ▸ inPage_entry pd (lt_of_lt_of_le hi (by decide))
      exact h.not_inPage hget h.pdUsed hin (inPage_entry pt hj)
    simp only [Machine.withTable, Function.update_of_ne haddr, if_pos (inPage_entry pt hj)]
  have hself : TableAt (m.withTable pd i pt pools) pd i pt :=
    ⟨hpt.lower, by simp [Machine.withTable]⟩
  have htable : ∀ {j q}, j < userTables → j ≠ i →
      (TableAt (m.withTable pd i pt pools) pd j q ↔ TableAt m pd j q) := by
    intro j q hj hne
    rw [TableAt, TableAt, hword h.pdUsed (lt_of_lt_of_le hj (by decide)) fun _ => hne]
  have hinit : ∀ {j}, j < entryCnt →
      (m.withTable pd i pt pools).word (m.initPageDir + 4 * j) = m.word (m.initPageDir + 4 * j) := by
    intro j hj
    exact hword (h.shared (.inl rfl)).1 hj fun e => absurd e (h.shared (.inl rfl)).2
  have hshared : ∀ {q}, Shared (m.withTable pd i pt pools) q ↔ Shared m q := by
    intro q
    refine or_congr_right (exists_congr fun j => and_congr_right fun _ => and_congr_right fun hj => ?_)
    exact and_congr_right fun _ => by rw [← hinit hj]; rfl
  refine ⟨⟨hlaid, h.ram_le, h.ram_eq, hkeep h.pdUsed, fun {q} hq => ?_, fun {j} hj => ?_,
    fun {j k q} hj hk h1 h2 => ?_, fun {n} hn hz' => ?_, fun {n q} hn ht => ?_, h.outside,
    fun e => hkeep (h.mapped e), fun {j} hj hlt => ?_⟩, hself, hpt⟩
  · obtain ⟨hq1, hq2⟩ := h.shared (hshared.mp hq)
    exact ⟨hkeep hq1, hq2⟩
  · rcases eq_or_ne j i with rfl | hne
    · exact .inr ⟨pt, hself, hptUsed, (hnew h.pdUsed).symm, fun hq =>
        hnew (h.shared (hshared.mp hq)).1 rfl⟩
    · rcases h.tables hj with hz' | ⟨q, ht, hq, hqpd, hqs⟩
      · left
        rw [hword h.pdUsed (lt_of_lt_of_le hj (by decide)) fun _ => hne]
        exact hz'
      · exact .inr ⟨q, (htable hj hne).mpr ht, hkeep hq, hqpd, mt hshared.mp hqs⟩
  · rcases eq_or_ne j i with e1 | hji <;> rcases eq_or_ne k i with e2 | hki
    · exact e1.trans e2.symm
    · have ht := (htable hk hki).mp h2
      rw [e1] at h1
      rw [h1.unique hself] at ht
      exact absurd rfl (hnew (h.table hk ht).1)
    · have ht := (htable hj hji).mp h1
      rw [e2] at h2
      rw [h2.unique hself] at ht
      exact absurd rfl (hnew (h.table hj ht).1)
    · exact h.inj hj hk ((htable hj hji).mp h1) ((htable hk hki).mp h2)
  · rcases eq_or_ne (n / entryCnt) i with e | hne
    · rw [e] at hz'
      exact absurd hz' hself.ne_zero
    · rw [hword h.pdUsed (lt_of_lt_of_le hn (by decide)) fun _ => hne] at hz'
      exact h.missing hn hz'
  · have hlt : n % entryCnt < entryCnt := Nat.mod_lt _ (by decide)
    rcases eq_or_ne (n / entryCnt) i with e | hne
    · rw [e] at ht
      rw [ht.unique hself, hzero hlt, h.missing hn (e ▸ hz)]
      exact ⟨rfl, by decide⟩
    · have ht' := (htable hn hne).mp ht
      obtain ⟨hq, hqpd, -⟩ := h.table hn ht'
      rw [hword hq hlt fun e => absurd e hqpd]
      exact h.entries hn ht'
  · show _ = (m.withTable pd i pt pools).word (m.initPageDir + 4 * j)
    rw [hinit hlt, hword h.pdUsed hlt fun _ => by omega]
    exact h.kernelHalf hj hlt

/-- **A word of a page table is stored**, and one entry of the map changes. -/
theorem setEntry (h : Rep ram pd M m) (hn : n / entryCnt < userTables)
    (ht : TableAt m pd (n / entryCnt) pt) {w : ℕ} {e : Option (ℕ × Bool)} (hw : EntryIs w e)
    (he : ∀ k b, e = some (k, b) → Used (m.pools .user) k) :
    Rep ram pd (Function.update M n e)
      { m with word := Function.update m.word (pt + 4 * (n % entryCnt)) w } := by
  obtain ⟨hpt, hptpd, hptShared⟩ := h.table hn ht
  have hlt : n % entryCnt < entryCnt := Nat.mod_lt _ (by decide)
  have hal := h.laid.page_aligned hpt
  have hword : ∀ {u q j}, Used (m.pools u) q → j < entryCnt → (q = pt → j ≠ n % entryCnt) →
      Function.update m.word (pt + 4 * (n % entryCnt)) w (q + 4 * j) = m.word (q + 4 * j) := by
    intro u q j hq hj hne
    refine Function.update_of_ne (fun e => ?_) ..
    have hin : inPage pt (q + 4 * j) := e ▸ inPage_entry pt hlt
    have hqpt := inPage_unique (h.laid.page_aligned hq) hal (inPage_entry q hj) hin
    exact hne hqpt (by omega)
  have hpdWord : ∀ {j}, j < entryCnt →
      Function.update m.word (pt + 4 * (n % entryCnt)) w (pd + 4 * j) = m.word (pd + 4 * j) :=
    fun hj => hword h.pdUsed hj fun e => absurd e.symm hptpd
  have hinit : ∀ {j}, j < entryCnt →
      Function.update m.word (pt + 4 * (n % entryCnt)) w (m.initPageDir + 4 * j) =
        m.word (m.initPageDir + 4 * j) :=
    fun hj => hword (h.shared (.inl rfl)).1 hj fun e => absurd (.inl e.symm) hptShared
  have hlow : ∀ {j}, j < userTables → j < entryCnt := fun hj => lt_of_lt_of_le hj (by decide)
  have htable : ∀ {j q}, j < userTables →
      (TableAt { m with word := Function.update m.word (pt + 4 * (n % entryCnt)) w } pd j q ↔
        TableAt m pd j q) := fun hj => and_congr_right fun _ => by rw [← hpdWord (hlow hj)]
  have hshared : ∀ {q},
      Shared { m with word := Function.update m.word (pt + 4 * (n % entryCnt)) w } q ↔
        Shared m q := by
    intro q
    refine or_congr_right (exists_congr fun j => and_congr_right fun _ => and_congr_right fun hj => ?_)
    exact and_congr_right fun _ => by rw [← hinit hj]
  refine ⟨h.laid, h.ram_le, h.ram_eq, h.pdUsed, fun hq => h.shared (hshared.mp hq),
    fun {j} hj => ?_, fun hj hk h1 h2 => h.inj hj hk ((htable hj).mp h1) ((htable hk).mp h2),
    fun {k} hk hz => ?_, fun {k q} hk htk => ?_, fun {k} hk => ?_, fun {k p b} hk => ?_,
    fun {j} hj hlt => ?_⟩
  · rcases h.tables hj with hz | ⟨q, htq, hq, hqpd, hqs⟩
    · left
      exact (hpdWord (hlow hj)).trans hz
    · exact .inr ⟨q, (htable hj).mpr htq, hq, hqpd, mt hshared.mp hqs⟩
  · have hz' : m.word (pd + 4 * (k / entryCnt)) = 0 := (hpdWord (hlow hk)).symm.trans hz
    have hne : k ≠ n := by
      rintro rfl
      exact ht.ne_zero hz'
    rw [Function.update_of_ne hne]
    exact h.missing hk hz'
  · have htk' := (htable hk).mp htk
    rcases eq_or_ne k n with rfl | hne
    · rw [htk'.unique ht, Function.update_self]
      simpa using hw
    · rw [Function.update_of_ne hne]
      have hsame : m.word (q + 4 * (k % entryCnt)) =
          Function.update m.word (pt + 4 * (n % entryCnt)) w (q + 4 * (k % entryCnt)) := by
        refine (hword (h.table hk htk').1 (Nat.mod_lt _ (by decide)) fun e => ?_).symm
        intro hmod
        subst e
        have hdiv := h.inj hk hn htk' ht
        rw [← Nat.div_add_mod k entryCnt, ← Nat.div_add_mod n entryCnt, hmod, hdiv] at hne
        exact hne rfl
      have hentry := h.entries hk htk'
      rw [hsame] at hentry
      exact hentry
  · have hne : k ≠ n := by
      rintro rfl
      omega
    rw [Function.update_of_ne hne]
    exact h.outside hk
  · rcases eq_or_ne k n with rfl | hne
    · rw [Function.update_self] at hk
      exact he p b hk
    · rw [Function.update_of_ne hne] at hk
      exact h.mapped hk
  · exact (hpdWord hlt).trans ((h.kernelHalf hj hlt).trans (hinit hlt).symm)

/-! ### The calls -/

theorem even_iff {w : ℕ} {e : Option (ℕ × Bool)} (h : EntryIs w e)
    (hk : ∀ k b, e = some (k, b) → ∃ ram, KPage ram k) : w &&& pteP = 0 ↔ e = none := by
  rw [and_pteP]
  cases e with
  | none => simpa using h.1
  | some e =>
      obtain ⟨ram, hp⟩ := hk e.1 e.2 rfl
      have h1 := hp.aligned
      have h2 := hp.lower
      have hw : w = pteOf e.1 e.2 := h
      simp only [reduceCtorEq, iff_false]
      rw [hw, pteOf]
      simp only [pgSize, physBase] at *
      split <;> omega

/-- The end of `pagedir_set_page`, once the table is there. -/
theorem storeEntry (h : Rep ram pd M m) {upage kpage : ℕ} (hlt : upage < physBase)
    (ht : TableAt m pd (pdNo upage) pt) (hk : Used (m.pools .user) kpage)
    (hfree : M (upage / pgSize) = none) (writable : Bool) :
    Rep ram pd (Function.update M (upage / pgSize) (some (kpage, writable)))
        { m with word := Function.update m.word (pt + 4 * ptNo upage) (pteOf kpage writable) } ∧
      m.word (pt + 4 * ptNo upage) &&& pteP = 0 := by
  have hentry := h.entries_addr hlt ht
  rw [hfree] at hentry
  refine ⟨?_, (even_iff hentry fun k b e => by cases e).mpr rfl⟩
  have hn := pdNo_lt hlt
  rw [pdNo_eq] at hn ht
  rw [ptNo_eq]
  exact h.setEntry hn ht rfl fun k b e => by cases e; exact hk

theorem setFound_ok {pte kpage : ℕ} (heven : m.word pte &&& pteP = 0) (hk : KPage ram kpage)
    (writable : Bool) : setFound kpage writable (some pte) m =
      .ok true { m with word := Function.update m.word pte (pteOf kpage writable) } := by
  unfold setFound
  simp only [fetch_bind, heven, dirAssert, decide_true, if_true, pure_bind_run]
  rw [bind_of_ok (pteCreateUser_ok hk writable)]
  rfl

/-- The assertions of `pagedir_set_page` hold, and the rest is `lookup_page` and a store. -/
theorem setPage_eq (h : Rep ram pd M m) {upage kpage : ℕ} (hal : upage % pgSize = 0)
    (hlt : upage < physBase) (hk : Used (m.pools .user) kpage) (writable : Bool) {r : Option ℕ}
    (hlookup : lookupPage pd upage true m = .ok r m') :
    pagedirSetPage pd upage kpage writable m = setFound kpage writable r m' := by
  have hkp := h.kpage hk
  have hram : (kpage - physBase) >>> 12 < m.initRamPages := by
    have h1 := hkp.lower
    have h2 := hkp.upper
    rw [Nat.shiftRight_eq_div_pow, h.ram_eq]
    simp only [pgSize, physBase] at *
    omega
  have hv : vtop kpage m = .ok (kpage - physBase) m := vtop_ok hkp
  generalize kpage - physBase = paddr at hv hram
  have hassert : ∀ {c : Bool}, c = true → dirAssert c m = .ok () m := fun hc => by
    rw [hc]
    rfl
  unfold pagedirSetPage
  rw [bind_of_ok (hassert (decide_eq_true hal)), bind_of_ok (hassert (decide_eq_true hkp.aligned)),
    bind_of_ok (hassert (decide_eq_true hlt)), bind_of_ok hv, fetch_bind,
    bind_of_ok (hassert (decide_eq_true hram)), fetch_bind,
    bind_of_ok (hassert (decide_eq_true h.pd_ne_init)), bind_of_ok hlookup]

/-- A store into a page table leaves the entries of the directory alone. -/
theorem tableAt_store (h : Rep ram pd M m) (hi : i < userTables) (ht : TableAt m pd i pt) {j : ℕ}
    (hj : j < entryCnt) (w : ℕ) :
    TableAt { m with word := Function.update m.word (pt + 4 * j) w } pd i pt := by
  refine ⟨ht.1, (Function.update_of_ne (fun e => (h.table hi ht).2.1 ?_) ..).trans ht.2⟩
  have hin : inPage pt (pd + 4 * i) := e ▸ inPage_entry pt hj
  exact inPage_unique (h.laid.page_aligned (h.table hi ht).1) (h.laid.page_aligned h.pdUsed) hin
    (inPage_entry pd (lt_of_lt_of_le hi (by decide)))

theorem ptNo_lt (va : ℕ) : ptNo va < entryCnt := by
  rw [ptNo_eq]
  exact Nat.mod_lt _ (by decide)

/-- **`pagedir_set_page` of an unmapped page adds one entry**, and the only page it may take
is a page table; or it fails for want of a page table and changes nothing. -/
theorem setPage_spec (h : Rep ram pd M m) {upage kpage : ℕ} (hal : upage % pgSize = 0)
    (hlt : upage < physBase) (hk : Used (m.pools .user) kpage)
    (hfree : M (upage / pgSize) = none) (writable : Bool) :
    (∃ m', pagedirSetPage pd upage kpage writable m = .ok true m' ∧
      Rep ram pd (Function.update M (upage / pgSize) (some (kpage, writable))) m' ∧
      ∀ u q, Used (m'.pools u) q → Used (m.pools u) q ∨ TableAt m' pd (pdNo upage) q) ∨
    (pagedirSetPage pd upage kpage writable m = .ok false m ∧
      m.word (pd + 4 * pdNo upage) = 0 ∧ pallocGetMultiple m.pools .kernel 1 = none) := by
  have hkp := h.kpage hk
  rcases h.tables_cases (pdNo_lt hlt) with hz | ⟨pt, ht, -, hpt, -⟩
  · cases hget : pallocGetMultiple m.pools .kernel 1 with
    | none => exact .inr ⟨h.setPage_eq hal hlt hk writable (h.lookup_full hlt hz hget), hz, rfl⟩
    | some r =>
        obtain ⟨h1, ht, hpt⟩ := h.newTable (pdNo_lt hlt) hz hget
        obtain ⟨-, -, -, hused⟩ := pallocGetMultiple_some h.laid hget
        have hk1 : Used (r.2 .user) kpage := (hused .user kpage).mpr (.inl hk)
        obtain ⟨h2, heven⟩ := h1.storeEntry hlt ht hk1 hfree writable
        refine .inl ⟨_, ?_, h2, fun u q hq => ?_⟩
        · rw [h.setPage_eq hal hlt hk writable (h.lookup_create hlt hz hget hpt)]
          exact setFound_ok heven (h1.kpage hk1) writable
        · rcases (hused u q).mp hq with hq | ⟨-, hq⟩
          · exact .inl hq
          · rw [pagesFrom_one, List.mem_singleton] at hq
            right
            rw [hq]
            exact h1.tableAt_store (pdNo_lt hlt) ht (ptNo_lt upage) _
  · obtain ⟨h2, heven⟩ := h.storeEntry hlt ht hk hfree writable
    refine .inl ⟨_, ?_, h2, fun u q hq => .inl hq⟩
    rw [h.setPage_eq hal hlt hk writable (h.lookup_table hlt ht hpt true)]
    exact setFound_ok heven hkp writable

/-- The present bit of an entry says whether the page is mapped. -/
theorem even_addr (h : Rep ram pd M m) {va : ℕ} (hlt : va < physBase)
    (ht : TableAt m pd (pdNo va) pt) :
    m.word (pt + 4 * ptNo va) &&& pteP = 0 ↔ M (va / pgSize) = none :=
  even_iff (h.entries_addr hlt ht) fun _ _ e => ⟨ram, h.kpage (h.mapped e)⟩

/-- A word of a page table has 32 bits. -/
theorem entry_lt (h : Rep ram pd M m) {va : ℕ} (hlt : va < physBase)
    (ht : TableAt m pd (pdNo va) pt) : m.word (pt + 4 * ptNo va) < 2 ^ 32 := by
  have hentry := h.entries_addr hlt ht
  cases hM : M (va / pgSize) with
  | none =>
      rw [hM] at hentry
      exact hentry.2
  | some e =>
      rw [hM] at hentry
      have hk := h.kpage (h.mapped (k := e.1) (w := e.2) hM)
      have hw : m.word (pt + 4 * ptNo va) = pteOf e.1 e.2 := hentry
      have h1 := hk.lower
      have h2 := hk.upper
      have h3 := h.ram_le
      rw [hw, pteOf]
      simp only [pgSize, physBase] at *
      split <;> omega

/-- **`pagedir_clear_page` removes one entry.** -/
theorem clearPage_spec (h : Rep ram pd M m) {upage : ℕ} (hal : upage % pgSize = 0)
    (hlt : upage < physBase) :
    ∃ m', pagedirClearPage pd upage m = .ok () m' ∧
      Rep ram pd (Function.update M (upage / pgSize) none) m' := by
  have hassert : ∀ {c : Bool}, c = true → dirAssert c m = .ok () m := fun hc => by
    rw [hc]
    rfl
  have hsame : M (upage / pgSize) = none → Rep ram pd (Function.update M (upage / pgSize) none) m := by
    intro hM
    rw [← hM, Function.update_eq_self]
    exact h
  unfold pagedirClearPage
  rw [bind_of_ok (hassert (decide_eq_true hal)), bind_of_ok (hassert (decide_eq_true hlt))]
  rcases h.tables_cases (pdNo_lt hlt) with hz | ⟨pt, ht, -, hpt, -⟩
  · rw [bind_of_ok (h.lookup_missing hz)]
    exact ⟨m, rfl, hsame (h.missing_addr hlt hz)⟩
  · rw [bind_of_ok (h.lookup_table hlt ht hpt false)]
    simp only [fetch_bind]
    split
    · next hodd =>
        refine ⟨_, rfl, ?_⟩
        have hn := pdNo_lt hlt
        have hw := h.entry_lt hlt ht
        rw [and_notP hw]
        rw [pdNo_eq] at hn ht
        rw [ptNo_eq] at hw ⊢
        refine h.setEntry hn ht ⟨Nat.mul_mod_left _ 2, ?_⟩ fun k b e => by cases e
        exact lt_of_le_of_lt (Nat.div_mul_le_self _ 2) hw
    · next heven =>
        exact ⟨m, rfl, hsame ((h.even_addr hlt ht).mp (by simpa using heven))⟩

/-- **`pagedir_get_page` looks the address up in the map.** -/
theorem getPage_spec (h : Rep ram pd M m) {uaddr : ℕ} (hlt : uaddr < physBase) :
    pagedirGetPage pd uaddr m =
      .ok ((M (uaddr / pgSize)).map fun e => e.1 + uaddr % pgSize) m := by
  have hassert : dirAssert (decide (uaddr < physBase)) m = .ok () m := by
    rw [decide_eq_true hlt]
    rfl
  unfold pagedirGetPage
  rw [bind_of_ok hassert]
  rcases h.tables_cases (pdNo_lt hlt) with hz | ⟨pt, ht, -, hpt, -⟩
  · rw [bind_of_ok (h.lookup_missing hz), h.missing_addr hlt hz]
    rfl
  · rw [bind_of_ok (h.lookup_table hlt ht hpt false)]
    simp only [fetch_bind]
    cases hM : M (uaddr / pgSize) with
    | none =>
        have heven := (h.even_addr hlt ht).mpr hM
        rw [if_neg (by simpa using heven)]
        rfl
    | some e =>
        have hodd : m.word (pt + 4 * ptNo uaddr) &&& pteP ≠ 0 := fun heven => by
          have := (h.even_addr hlt ht).mp heven
          rw [hM] at this
          cases this
        have hentry := h.entries_addr hlt ht
        rw [hM] at hentry
        have hget : pteGetPage (m.word (pt + 4 * ptNo uaddr)) m = .ok e.1 m := by
          rw [show m.word (pt + 4 * ptNo uaddr) = pteOf e.1 e.2 from hentry]
          exact pteGetPage_ok (h.kpage (h.mapped (k := e.1) (w := e.2) hM)) h.ram_le e.2
        rw [if_pos hodd, bind_of_ok hget]
        rfl

end Rep

end Pintos.Memory
