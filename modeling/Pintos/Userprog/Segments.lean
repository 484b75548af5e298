import Pintos.Userprog.Load
import Pintos.Userprog.PageDemand

/-!
# Segments of an executable

A program header that `validate_segment` accepts has fields so small that nothing `load` and
`load_segment` compute from them wraps around, and the pages of the segment lie between the first
page and the kernel.  It is loaded exactly if the file has its bytes and pages can be mapped to its
addresses, and then it is the part of the file the header speaks of, and zeros.

* **`segmentArgs_exact`** — the arguments of `load_segment`.
* **`loadPages_run`** — the loop ends, when it returns true, and what it leaves then.
* **`loadSegment_correct`** — both, for every accepted header.
-/

namespace Pintos.Userprog

open Lib
open Vm (Memory PageDir PageTable Pte Image PallocFlags pgSize physBase isUserVaddr pdNo ptNo fillPage
  copyBytes Phdr phdrAt headerOk validateSegment)

/-! ## The numbers -/

/-- The fields of a program header have 32 bits. -/
structure Fits (phdr : Phdr) : Prop where
  offset : phdr.offset < 2 ^ 32
  vaddr : phdr.vaddr < 2 ^ 32
  filesz : phdr.filesz < 2 ^ 32
  memsz : phdr.memsz < 2 ^ 32

/-- Where a segment lies, for a header that was accepted. -/
structure Placed (phdr : Phdr) (image : Image) : Prop where
  sameOffset : phdr.offset % pgSize = phdr.vaddr % pgSize
  inFile : phdr.offset ≤ image.length
  filesz : phdr.filesz ≤ phdr.memsz
  memsz : 0 < phdr.memsz
  low : pgSize ≤ phdr.vaddr
  high : phdr.vaddr + phdr.memsz < physBase

theorem validateSegment_placed {phdr : Phdr} {image : Image} (fits : Fits phdr)
    (h : validateSegment phdr image = true) : Placed phdr image := by
  have hbase : physBase = 3221225472 := rfl
  obtain ⟨-, hv, -, hm⟩ := fits
  simp only [validateSegment, isUserVaddr, Bool.and_eq_true, decide_eq_true_eq] at h
  obtain ⟨⟨⟨⟨⟨⟨⟨h1, h2⟩, h3⟩, h4⟩, h5⟩, h6⟩, h7⟩, h8⟩ := h
  refine ⟨h1, h2, h3, Nat.pos_of_ne_zero h4, h8, ?_⟩
  -- a sum that wraps around is below its first term
  rcases Nat.lt_or_ge (phdr.vaddr + phdr.memsz) (2 ^ 32) with hlt | hge
  · rwa [Nat.mod_eq_of_lt hlt] at h6
  · have hwrap : (phdr.vaddr + phdr.memsz) % 2 ^ 32 = phdr.vaddr + phdr.memsz - 2 ^ 32 := by omega
    omega

theorem ofInt32_natCast {x : ℕ} (h : x < 2 ^ 32) : ofInt32 (x : ℤ) = x := by
  unfold ofInt32
  omega

/-- Up to the next multiple of the size of a page. -/
def pageUp (x : ℕ) : ℕ := (x + (pgSize - 1)) / pgSize * pgSize

theorem pageUp_bounds (x : ℕ) : x ≤ pageUp x ∧ pageUp x < x + pgSize ∧ pageUp x % pgSize = 0 := by
  have hpage : pgSize = 4096 := rfl
  unfold pageUp
  rw [hpage]
  omega

theorem roundUp_exact {x : ℕ} (hlt : x < physBase) : roundUp x = pageUp x := by
  have hpage : pgSize = 4096 := rfl
  have hbase : physBase = 3221225472 := rfl
  have h1 : ofInt32 ((x : ℤ) + (pgSize : ℤ)) = x + pgSize := by
    rw [← Nat.cast_add]
    exact ofInt32_natCast (by omega)
  have h2 : ofInt32 (((x + pgSize : ℕ) : ℤ) - 1) = x + (pgSize - 1) := by
    have hcast : ((x + pgSize : ℕ) : ℤ) - 1 = ((x + (pgSize - 1) : ℕ) : ℤ) := by omega
    rw [hcast]
    exact ofInt32_natCast (by omega)
  have hbounds := pageUp_bounds x
  rw [roundUp, h1, h2, ← pageUp]
  exact ofInt32_natCast (by omega)

/-- **The arguments of `load_segment`**, without wrapping. -/
structure Exact (phdr : Phdr) (args : SegmentArgs) : Prop where
  ofs : args.ofs = (phdr.offset - phdr.offset % pgSize : ℕ)
  upage : args.upage = phdr.vaddr - phdr.vaddr % pgSize
  readBytes : args.readBytes = if 0 < phdr.filesz then phdr.vaddr % pgSize + phdr.filesz else 0
  total : args.readBytes + args.zeroBytes = pageUp (phdr.vaddr % pgSize + phdr.memsz)
  writable : args.writable = phdr.flags.testBit 1

theorem segmentArgs_exact {phdr : Phdr} {image : Image} (placed : Placed phdr image)
    (hlen : image.length < 2 ^ 31) : Exact phdr (segmentArgs phdr) := by
  have hpage : pgSize = 4096 := rfl
  have hbase : physBase = 3221225472 := rfl
  obtain ⟨h1, h2, h3, h4, h5, h6⟩ := placed
  have hmod : phdr.vaddr % pgSize < pgSize := Nat.mod_lt _ (by decide)
  have hle : phdr.vaddr % pgSize ≤ phdr.vaddr := Nat.mod_le _ _
  have hsum : ∀ m : ℕ, m ≤ phdr.memsz →
      ofInt32 (((phdr.vaddr % pgSize : ℕ) : ℤ) + (m : ℤ)) = phdr.vaddr % pgSize + m := fun m hm => by
    rw [← Nat.cast_add]
    exact ofInt32_natCast (by omega)
  have hwhole : roundUp (ofInt32 (((phdr.vaddr % pgSize : ℕ) : ℤ) + (phdr.memsz : ℤ))) =
      pageUp (phdr.vaddr % pgSize + phdr.memsz) := by
    rw [hsum _ le_rfl]
    exact roundUp_exact (by omega)
  have hbounds := pageUp_bounds (phdr.vaddr % pgSize + phdr.memsz)
  have hread : (segmentArgs phdr).readBytes =
      if 0 < phdr.filesz then phdr.vaddr % pgSize + phdr.filesz else 0 := by
    show (if 0 < phdr.filesz then ofInt32 _ else 0) = _
    rw [hsum _ h3]
  refine ⟨wrap32_of_range (by omega) (by omega), rfl, hread, ?_, rfl⟩
  have hzero : (segmentArgs phdr).zeroBytes =
      if 0 < phdr.filesz then
        ofInt32 ((pageUp (phdr.vaddr % pgSize + phdr.memsz) : ℤ) - (segmentArgs phdr).readBytes)
      else pageUp (phdr.vaddr % pgSize + phdr.memsz) := by
    rw [← hwhole]
    rfl
  rw [hzero, hread]
  by_cases hfile : 0 < phdr.filesz
  · rw [if_pos hfile, if_pos hfile, ← Nat.cast_sub (by omega), ofInt32_natCast (by omega)]
    omega
  · rw [if_neg hfile, if_neg hfile, Nat.zero_add]

/-! ## The counters of the loop -/

namespace Counters

variable {c : Counters} {m : ℕ}

/-- There are `m` pages to come, below the kernel. -/
structure Left (c : Counters) (m : ℕ) : Prop where
  total : c.readBytes + c.zeroBytes = m * pgSize
  aligned : c.upage % pgSize = 0
  high : c.upage + m * pgSize ≤ physBase

theorem pageReadBytes_le (c : Counters) : c.pageReadBytes ≤ c.readBytes ∧ c.pageReadBytes ≤ pgSize := by
  unfold pageReadBytes
  split <;> omega

/-- Both counters can be reduced by the bytes of a page. -/
theorem Left.pageZeroBytes_le (h : Left c (m + 1)) : c.pageZeroBytes ≤ c.zeroBytes := by
  have hpage : pgSize = 4096 := rfl
  have htotal := h.total
  rw [hpage] at htotal
  unfold pageZeroBytes pageReadBytes
  split <;> omega

/-- **No wrapping**: the end of the body computes what it says. -/
theorem Left.advance_eq (h : Left c (m + 1)) : c.advance =
    ⟨c.upage + pgSize, c.readBytes - c.pageReadBytes, c.zeroBytes - c.pageZeroBytes⟩ := by
  have hpage : pgSize = 4096 := rfl
  have hbase : physBase = 3221225472 := rfl
  have hread := (pageReadBytes_le c).1
  have hzero := h.pageZeroBytes_le
  have htotal := h.total
  have hhigh := h.high
  rw [hpage] at htotal hhigh
  rw [advance, ← Nat.cast_add, ofInt32_natCast (by omega), ← Nat.cast_sub hread,
    ofInt32_natCast (by omega), ← Nat.cast_sub hzero, ofInt32_natCast (by omega)]

theorem Left.advanced (h : Left c (m + 1)) : Left c.advance m := by
  have hpage : pgSize = 4096 := rfl
  have hread := pageReadBytes_le c
  have hzero := h.pageZeroBytes_le
  have hsplit : c.pageReadBytes + c.pageZeroBytes = pgSize := by
    unfold pageZeroBytes
    omega
  obtain ⟨h1, h2, h3⟩ := h
  rw [hpage] at h1 h2 h3 hsplit
  rw [Left.advance_eq ⟨h1, h2, h3⟩]
  refine ⟨?_, ?_, ?_⟩
  · show c.readBytes - c.pageReadBytes + (c.zeroBytes - c.pageZeroBytes) = m * pgSize
    rw [hpage]
    omega
  · show (c.upage + pgSize) % pgSize = 0
    rw [hpage]
    omega
  · show c.upage + pgSize + m * pgSize ≤ physBase
    rw [hpage]
    omega

/-- The counters reach zero together. -/
theorem Left.done_iff (h : Left c m) : c.done = true ↔ m = 0 := by
  have hpage : pgSize = 4096 := rfl
  have htotal := h.total
  rw [hpage] at htotal
  simp only [done, Bool.and_eq_true, decide_eq_true_eq]
  omega

/-- The counters in every round. -/
theorem Left.iterate (h : Left c m) : ∀ i ≤ m, Left (advance^[i] c) (m - i) ∧
    (advance^[i] c).upage = c.upage + i * pgSize := by
  intro i
  induction i with
  | zero => exact fun _ => ⟨h, by simp⟩
  | succ i ih =>
      intro hi
      obtain ⟨hleft, hup⟩ := ih (by omega)
      obtain ⟨r, hr⟩ : ∃ r, m - i = r + 1 := ⟨m - i - 1, by omega⟩
      rw [hr] at hleft
      rw [Function.iterate_succ_apply', show m - (i + 1) = r by omega]
      refine ⟨hleft.advanced, ?_⟩
      rw [hleft.advance_eq, hup, Nat.succ_mul]
      exact Nat.add_assoc _ _ _

end Counters

/-! ## What is loaded -/

section Loaded

variable {k k' k'' : Kernel} {file upage m : ℕ} {writable : Bool} {f : OpenFile} {c : Counters}
  {image : Image}

/-- `m` pages from `upage` on. -/
def pagesFrom (upage m : ℕ) : List ℕ := (List.range m).map fun i => upage + i * pgSize

theorem pagesFrom_succ (upage m : ℕ) : pagesFrom upage (m + 1) = [upage] ++ pagesFrom (upage + pgSize) m := by
  rw [pagesFrom, List.range_succ_eq_map, List.map_cons, List.map_map, Nat.zero_mul, Nat.add_zero]
  refine congrArg (upage :: ·) (List.map_congr_left fun i _ => ?_)
  show upage + (i + 1) * pgSize = upage + pgSize + i * pgSize
  rw [Nat.succ_mul]
  omega

theorem nodup_pagesFrom (upage m : ℕ) : (pagesFrom upage m).Nodup := by
  refine List.nodup_range.map fun i j h => ?_
  exact Nat.eq_of_mul_eq_mul_right (show 0 < pgSize by decide) (Nat.add_left_cancel h)

theorem pagesFrom_one (upage : ℕ) : pagesFrom upage 1 = [upage] := pagesFrom_succ upage 0

theorem aligned_of_mem_pagesFrom {a : ℕ} (hu : upage % pgSize = 0) (h : a ∈ pagesFrom upage m) :
    a % pgSize = 0 := by
  obtain ⟨i, -, rfl⟩ := List.mem_map.mp h
  rw [Nat.add_mul_mod_self_right]
  exact hu

/-- The file has these bytes. -/
def Holds (image : Image) (pos size : ℕ) : Prop := size = 0 ∨ pos + size ≤ image.length

instance (image : Image) (pos size : ℕ) : Decidable (Holds image pos size) :=
  inferInstanceAs (Decidable (size = 0 ∨ pos + size ≤ image.length))

theorem min_eq_iff_holds {pos size : ℕ} : min size (image.length - pos) = size ↔ Holds image pos size := by
  unfold Holds
  omega

/-- The bytes of a page, and those behind it. -/
theorem Counters.holds_iff (c : Counters) {pos : ℕ} : Holds image pos c.readBytes ↔
    Holds image pos c.pageReadBytes ∧
      Holds image (pos + c.pageReadBytes) (c.readBytes - c.pageReadBytes) := by
  have hpage : 0 < pgSize := by decide
  unfold Holds pageReadBytes
  split <;> omega

/-- `m` pages from `upage` on were mapped, and hold `content`. -/
structure PagesLoaded (k k' : Kernel) (upage m : ℕ) (writable : Bool) (content : ℕ → UInt8) : Prop where
  mapped : Mapped k k' (pagesFrom upage m)
  others : ∀ a, a < upage ∨ upage + m * pgSize ≤ a → k'.entryAt a = k.entryAt a
  page : ∀ j < m * pgSize, ∃ kpage ∈ k'.used, isRamPage k'.initRamPages kpage = true ∧
    k'.entryAt (upage + j) = some ⟨kpage, writable⟩ ∧ k'.mem (kpage + (upage + j) % pgSize) = content j
  kept : Stable k k'

theorem PagesLoaded.nil (k : Kernel) (content : ℕ → UInt8) : PagesLoaded k k upage 0 writable content :=
  ⟨Mapped.nil k, fun _ _ => rfl, fun j hj => absurd hj (by simp), Stable.refl k⟩

/-- A page, and the ones behind it. -/
theorem PagesLoaded.append {content content' : ℕ → UInt8} (h : PagesLoaded k k' upage 1 writable content)
    (h' : PagesLoaded k' k'' (upage + pgSize) m writable content') :
    PagesLoaded k k'' upage (m + 1) writable
      (fun j => if j < pgSize then content j else content' (j - pgSize)) := by
  have hsucc : (m + 1) * pgSize = pgSize + m * pgSize := by rw [Nat.succ_mul, Nat.add_comm]
  refine ⟨?_, fun a ha => ?_, fun j hj => ?_, h.kept.trans h'.kept⟩
  · rw [pagesFrom_succ, ← pagesFrom_one]
    exact h.mapped.append h'.mapped
  · rw [hsucc] at ha
    rw [h'.others a (by omega), h.others a (by omega)]
  · rw [hsucc] at hj
    by_cases hlt : j < pgSize
    · obtain ⟨kpage, hused, hram, hentry, hmem⟩ := h.page j (by omega)
      have huse : k'.InUse (kpage + (upage + j) % pgSize) :=
        .inr ⟨kpage, hused, hram, Nat.le_add_right _ _,
          Nat.add_lt_add_left (Nat.mod_lt _ (by decide)) _⟩
      refine ⟨kpage, h'.kept.used hused, by rwa [h'.kept.ram], ?_, ?_⟩
      · rw [h'.others _ (by omega), hentry]
      · rw [h'.kept.mem _ huse, hmem, if_pos hlt]
    · obtain ⟨kpage, hused, hram, hentry, hmem⟩ := h'.page (j - pgSize) (by omega)
      rw [show upage + pgSize + (j - pgSize) = upage + j by omega] at hentry hmem
      exact ⟨kpage, hused, hram, hentry, by rw [hmem, if_neg hlt]⟩

theorem fileRead_run (hf : k.files file = some f) (addr size : ℕ) :
    fileRead file addr size k = .ok (min size ((k.image f.inode).length - f.pos))
      (Kernel.setFile { k with
          mem := copyBytes k.mem addr (min size ((k.image f.inode).length - f.pos))
            (fun i => (k.image f.inode).byte (f.pos + i)) } file
        { f with pos := f.pos + min size ((k.image f.inode).length - f.pos) }) := by
  have hget : getFile file k = .ok f k := by
    rw [getFile, fetch_bind, hf]
    rfl
  rw [fileRead, bind_of_ok hget]
  rfl

/-- The kernel after the page `kpage` was taken and `file_read` has read its part of the file into
it. -/
def Kernel.withRead (k : Kernel) (file kpage : ℕ) (f : OpenFile) (c : Counters) : Kernel :=
  Kernel.setFile { k.afterGet { user := true } with
      mem := copyBytes k.mem kpage (min c.pageReadBytes ((k.image f.inode).length - f.pos))
        (fun i => (k.image f.inode).byte (f.pos + i)) } file
    { f with pos := f.pos + min c.pageReadBytes ((k.image f.inode).length - f.pos) }

/-- The kernel after the rest of the page has been filled with zeros. -/
def Kernel.withPage (k : Kernel) (file kpage : ℕ) (f : OpenFile) (c : Counters) : Kernel :=
  { k.withRead file kpage f c with
    mem := copyBytes (k.withRead file kpage f c).mem (kpage + c.pageReadBytes) c.pageZeroBytes fun _ => 0 }

section Page

variable {kpage : ℕ}

theorem fileRead_withRead (hfound : k.found = some kpage) (hf : k.files file = some f) (c : Counters) :
    fileRead file kpage c.pageReadBytes (k.afterGet { user := true }) =
      .ok (min c.pageReadBytes ((k.image f.inode).length - f.pos)) (k.withRead file kpage f c) := by
  have hgrown := grown_afterGet k { user := true }
  have hf1 : (k.afterGet { user := true }).files file = some f := by rwa [hgrown.rest]
  have himage : (k.afterGet { user := true }).image = k.image := by rw [hgrown.rest]
  have hmem : (k.afterGet { user := true }).mem = k.mem := mem_afterGet_of_some hfound
  rw [fileRead_run hf1, Kernel.withRead, hmem]
  simp only [himage]

theorem mem_used_afterGet (hfound : k.found = some kpage) :
    kpage ∈ (k.afterGet { user := true }).used := by
  rw [used_afterGet_of_some hfound]
  exact List.mem_cons_self

theorem ram_afterGet (hfound : k.found = some kpage) :
    isRamPage (k.afterGet { user := true }).initRamPages kpage = true := by
  rw [(grown_afterGet k _).initRamPages_eq]
  exact (Kernel.found_some hfound).1

/-- The file is read into a page that nobody uses. -/
theorem stable_withRead (hfound : k.found = some kpage) (hf : k.files file = some f) (c : Counters) :
    Stable k (k.withRead file kpage f c) := by
  have hsize := c.pageReadBytes_le.2
  have hf1 : (k.afterGet { user := true }).files file = some f := by rwa [(grown_afterGet k _).rest]
  have hwrite : ∀ a, k.InUse a →
      copyBytes k.mem kpage (min c.pageReadBytes ((k.image f.inode).length - f.pos))
        (fun i => (k.image f.inode).byte (f.pos + i)) a = (k.afterGet { user := true }).mem a :=
    fun a ha => by
      have haway := not_inPage_of_inUse hfound ha
      unfold InPage at haway
      rw [mem_afterGet_of_some hfound]
      exact if_neg (by omega)
  exact (((Stable.refl k).afterGet { user := true }).write hwrite).seek hf1

theorem stable_withPage (hfound : k.found = some kpage) (hf : k.files file = some f) (c : Counters) :
    Stable k (k.withPage file kpage f c) := by
  have hsize := c.pageReadBytes_le.2
  refine (stable_withRead hfound hf c).write fun a ha => if_neg ?_
  have haway := not_inPage_of_inUse hfound ha
  unfold InPage Counters.pageZeroBytes at *
  omega

/-- The bytes of the page, when the file has them. -/
theorem withPage_mem (holds : Holds (k.image f.inode) f.pos c.pageReadBytes) {j : ℕ} (hj : j < pgSize) :
    (k.withPage file kpage f c).mem (kpage + j) =
      if j < c.pageReadBytes then (k.image f.inode).byte (f.pos + j) else 0 := by
  have hmin := min_eq_iff_holds.mpr holds
  have hsplit : c.pageReadBytes + c.pageZeroBytes = pgSize := by
    have := c.pageReadBytes_le.2
    unfold Counters.pageZeroBytes
    omega
  show (if kpage + c.pageReadBytes ≤ kpage + j ∧ kpage + j < kpage + c.pageReadBytes + c.pageZeroBytes
    then 0 else if kpage ≤ kpage + j ∧ kpage + j < kpage +
      min c.pageReadBytes ((k.image f.inode).length - f.pos)
        then (k.image f.inode).byte (f.pos + (kpage + j - kpage)) else k.mem (kpage + j)) = _
  by_cases hlt : j < c.pageReadBytes
  · rw [if_neg (by omega), if_pos (by omega), if_pos hlt, Nat.add_sub_cancel_left]
  · rw [if_pos (by omega), if_neg hlt]

/-- With too short a file the page is given back. -/
theorem loadPage_short (hfound : k.found = some kpage) (hf : k.files file = some f)
    (short : ¬ Holds (k.image f.inode) f.pos c.pageReadBytes) :
    loadPage file writable c k = .ok false ((k.withRead file kpage f c).freed kpage) := by
  have hgot := fun h => short (min_eq_iff_holds.mp h)
  have hfree : pallocFreePage kpage (k.withRead file kpage f c) = _ :=
    pallocFreePage_run (ram_afterGet hfound) (mem_used_afterGet hfound)
  rw [loadPage, bind_of_ok (pallocGetPage_run _ _), hfound]
  show (fileRead file kpage c.pageReadBytes >>= fun got => _) (k.afterGet { user := true }) = _
  rw [bind_of_ok (fileRead_withRead hfound hf c), if_pos hgot, bind_of_ok hfree]
  rfl

/-- With the bytes of the page it remains to map it. -/
theorem loadPage_whole (hfound : k.found = some kpage) (hf : k.files file = some f)
    (holds : Holds (k.image f.inode) f.pos c.pageReadBytes) :
    loadPage file writable c k = (do
      if ← installPage c.upage kpage writable then return true
      else do
        pallocFreePage kpage
        return false : Code Bool) (k.withPage file kpage f c) := by
  rw [loadPage, bind_of_ok (pallocGetPage_run _ _), hfound]
  show (fileRead file kpage c.pageReadBytes >>= fun got => _) (k.afterGet { user := true }) = _
  rw [bind_of_ok (fileRead_withRead hfound hf c), if_neg (not_not_intro (min_eq_iff_holds.mpr holds)),
    change_bind]
  rfl

/-- The page that was filled is mapped. -/
theorem Installed.pagesLoaded (hfound : k.found = some kpage) (aligned : c.upage % pgSize = 0)
    (holds : Holds (k.image f.inode) f.pos c.pageReadBytes)
    (hinst : Installed (k.withPage file kpage f c) k' c.upage kpage writable)
    (hmapped : Mapped k k' [c.upage]) (kept : Stable k k') :
    PagesLoaded k k' c.upage 1 writable
      (fun j => if j < c.pageReadBytes then (k.image f.inode).byte (f.pos + j) else 0) := by
  have hpage : pgSize = 4096 := rfl
  have hused : kpage ∈ (k.withPage file kpage f c).used := mem_used_afterGet hfound
  have hram : isRamPage (k.withPage file kpage f c).initRamPages kpage = true := ram_afterGet hfound
  have hentries : ∀ a, (k.withPage file kpage f c).entryAt a = k.entryAt a := fun a => by
    show (k.afterGet { user := true }).entryAt a = k.entryAt a
    rw [Kernel.entryAt, Kernel.entryAt, pagedir_afterGet]
  refine ⟨pagesFrom_one _ ▸ hmapped, fun a ha => ?_, fun j hj => ?_, kept⟩
  · have hne : a / pgSize ≠ c.upage / pgSize := by
      rw [hpage] at aligned ha ⊢
      omega
    rw [hinst.entryAt, if_neg hne, hentries]
  · rw [Nat.one_mul] at hj
    obtain ⟨hmod, hdiv⟩ : (c.upage + j) % pgSize = j ∧ (c.upage + j) / pgSize = c.upage / pgSize := by
      rw [hpage] at aligned hj ⊢
      omega
    have huse : (k.withPage file kpage f c).InUse (kpage + j) :=
      .inr ⟨kpage, hused, hram, Nat.le_add_right _ _, Nat.add_lt_add_left hj _⟩
    refine ⟨kpage, hinst.grown.used hused, by rwa [hinst.grown.initRamPages_eq], ?_, ?_⟩
    · rw [hinst.entryAt, if_pos hdiv]
    · rw [hmod, hinst.grown.mem _ huse, withPage_mem holds hj]

end Page

/-- **The body of the loop** returns, and leaves alone what is in use.  It returns true exactly if the
file has the bytes of the page and a page can be mapped, and then it was loaded. -/
theorem loadPage_run (hdir : k.pagedir ≠ none) (hf : k.files file = some f)
    (aligned : c.upage % pgSize = 0) (low : c.upage < physBase) (pos : pgSize ≤ c.upage) :
    ∃ b k', loadPage file writable c k = .ok b k' ∧ Stable k k' ∧
      (b = true ↔ Holds (k.image f.inode) f.pos c.pageReadBytes ∧ k.CanMap [c.upage]) ∧ (b = true →
      PagesLoaded k k' c.upage 1 writable
        (fun j => if j < c.pageReadBytes then (k.image f.inode).byte (f.pos + j) else 0) ∧
      k'.files file = some { f with pos := f.pos + c.pageReadBytes }) := by
  cases hfound : k.found with
  | none =>
      refine ⟨false, k.afterGet { user := true }, ?_, (Stable.refl k).afterGet _,
        iff_of_false Bool.false_ne_true fun h => ?_, fun h => by cases h⟩
      · rw [loadPage, bind_of_ok (pallocGetPage_run _ _), hfound]
        rfl
      · exact (canMap_singleton_iff.mp h.2).2.1 hfound
  | some kpage =>
      have hfree := (Kernel.found_some hfound).2
      have haway := fun a (ha : k.InUse a) => not_inPage_of_inUse hfound ha
      by_cases holds : Holds (k.image f.inode) f.pos c.pageReadBytes
      · set k3 := k.withPage file kpage f c with hk3
        have hdir3 : k3.pagedir = k.pagedir := pagedir_afterGet k _
        have hdirs : k3.pagedir ≠ none := by rwa [hdir3]
        have hram : isRamPage k3.initRamPages kpage = true := ram_afterGet hfound
        have hused : kpage ∈ k3.used := mem_used_afterGet hfound
        obtain ⟨b, k4, hrun, hgrown, hinst⟩ : ∃ b k', installPage c.upage kpage writable k3 = .ok b k' ∧
            Grown k3 k' ∧ ((b = true ∧ Installed k3 k' c.upage kpage writable) ∨
              b = false ∧ k'.pagedir = k3.pagedir) :=
          installPage_cases hdirs aligned low hram
        have hstable : Stable k k4 := (stable_withPage hfound hf c).installed hfree hdirs aligned low pos hram
          hgrown hrun (hinst.imp_right And.right)
        -- taking the page has left to `install_page` one page fewer, and the same tables
        have hasked : Asked 1 k k3 := ((Asked.refl k).afterGet { user := true }).of_same rfl rfl rfl rfl
        obtain ⟨hiff, hdemand⟩ := installPage_demand (k := k3) hdirs aligned low hram hrun
        have hcan : k.CanMap [c.upage] ↔ _ := hasked.canMap_iff hdir3 (hfound ▸ Option.some_ne_none kpage)
        rw [← hcan] at hiff
        rw [loadPage_whole hfound hf holds, bind_of_ok hrun]
        rcases hinst with ⟨rfl, hinstalled⟩ | ⟨rfl, -⟩
        · obtain ⟨htable, htables⟩ := hdemand rfl
          have hmapped := hasked.mapped hdir3 aligned hused hram hinstalled htable htables
          refine ⟨true, k4, rfl, hstable, iff_of_true rfl ⟨holds, hiff.mp rfl⟩,
            fun _ => ⟨hinstalled.pagesLoaded hfound aligned holds hmapped hstable, ?_⟩⟩
          rw [hgrown.rest]
          show Function.update _ file _ file = _
          rw [Function.update_self, min_eq_iff_holds.mpr holds]
        · have hram4 : isRamPage k4.initRamPages kpage = true := by rwa [hgrown.initRamPages_eq]
          refine ⟨false, k4.freed kpage, ?_, hstable.freed hfree haway,
            iff_of_false Bool.false_ne_true fun h => Bool.false_ne_true (hiff.mpr h.2), fun h => by cases h⟩
          rw [if_neg Bool.false_ne_true, bind_of_ok (pallocFreePage_run hram4 (hgrown.used hused))]
          rfl
      · exact ⟨false, _, loadPage_short hfound hf holds, (stable_withRead hfound hf c).freed hfree haway,
          iff_of_false Bool.false_ne_true fun h => holds h.1, fun h => by cases h⟩

/-- The content of a page, and that of the ones behind it. -/
theorem Counters.content_eq (c : Counters) (image : Image) (pos : ℕ) :
    (fun j => if j < pgSize then if j < c.pageReadBytes then image.byte (pos + j) else 0
      else if j - pgSize < c.readBytes - c.pageReadBytes then
        image.byte (pos + c.pageReadBytes + (j - pgSize)) else 0) =
      fun j => if j < c.readBytes then image.byte (pos + j) else 0 := by
  funext j
  unfold Counters.pageReadBytes
  by_cases hlast : c.readBytes < pgSize
  · -- the last page with bytes of the file: behind it there are none
    rw [if_pos hlast, Nat.sub_self]
    by_cases hj : j < pgSize
    · rw [if_pos hj]
    · rw [if_neg hj, if_neg (by omega), if_neg (by omega)]
  · rw [if_neg hlast]
    by_cases hj : j < pgSize
    · rw [if_pos hj, if_pos hj, if_pos (by omega)]
    · rw [if_neg hj, show pos + pgSize + (j - pgSize) = pos + j by omega]
      by_cases hr : j < c.readBytes
      · rw [if_pos (by omega), if_pos hr]
      · rw [if_neg (by omega), if_neg hr]

/-- **The loop of `load_segment`** returns after the pages it is to load, and leaves alone what is in
use.  It returns true exactly if the file has the bytes and the pages can be mapped. -/
theorem loadPages_run (file : ℕ) (writable : Bool) : ∀ (m fuel : ℕ) (c : Counters) (k : Kernel)
    (f : OpenFile), c.Left m → m ≤ fuel → pgSize ≤ c.upage → k.pagedir ≠ none → k.files file = some f →
    ∃ b k', loadPages file writable fuel c k = .ok b k' ∧ Stable k k' ∧
      (b = true ↔ Holds (k.image f.inode) f.pos c.readBytes ∧ k.CanMap (pagesFrom c.upage m)) ∧ (b = true →
      PagesLoaded k k' c.upage m writable
        (fun j => if j < c.readBytes then (k.image f.inode).byte (f.pos + j) else 0)) := by
  intro m
  induction m with
  | zero =>
      intro fuel c k f left _ _ _ _
      have hdone := left.done_iff.mpr rfl
      have htotal := left.total
      refine ⟨true, k, ?_, Stable.refl k, iff_of_true rfl ⟨.inl (by omega), canMap_nil k⟩,
        fun _ => PagesLoaded.nil k _⟩
      cases fuel <;> rw [loadPages, if_pos hdone] <;> rfl
  | succ m ih =>
      intro fuel c k f left hfuel hpos hdir hf
      obtain ⟨n, rfl⟩ : ∃ n, fuel = n + 1 := ⟨fuel - 1, by omega⟩
      have hpage : pgSize = 4096 := rfl
      have hnot : ¬ c.done = true := fun h => Nat.succ_ne_zero m (left.done_iff.mp h)
      have hlow : c.upage < physBase := by
        have := left.high
        rw [hpage] at this
        omega
      rw [loadPages, if_neg hnot]
      obtain ⟨b, k1, hrun, hstable, hiff, hloaded⟩ : ∃ b k', loadPage file writable c k = .ok b k' ∧
          Stable k k' ∧ (b = true ↔ _) ∧ (b = true → _) :=
        loadPage_run hdir hf left.aligned hlow hpos
      rw [bind_of_ok hrun, c.holds_iff, pagesFrom_succ]
      cases b with
      | false =>
          refine ⟨false, k1, rfl, hstable, iff_of_false Bool.false_ne_true fun h => ?_, fun h => by cases h⟩
          exact Bool.false_ne_true (hiff.mpr ⟨h.1.1, h.2.left⟩)
      | true =>
          obtain ⟨hfirst, hf1⟩ := hloaded rfl
          have hpos' : pgSize ≤ c.advance.upage := by
            rw [left.advance_eq]
            exact le_trans hpos (Nat.le_add_right _ _)
          obtain ⟨b, k2, hrun2, hstable2, hiff2, hrest⟩ := ih n c.advance k1 _ left.advanced (by omega) hpos'
            (hstable.dir hdir) hf1
          have haligned := left.advanced.aligned
          refine ⟨b, k2, hrun2, hstable.trans hstable2, ?_, fun hb => ?_⟩
          · have hmapped : Mapped k k1 [c.upage] := pagesFrom_one c.upage ▸ hfirst.mapped
            have hafter : k.CanMap ([c.upage] ++ pagesFrom (c.upage + pgSize) m) ↔
                k.CanMap [c.upage] ∧ k1.CanMap (pagesFrom (c.upage + pgSize) m) := by
              refine hmapped.canMap_append fun a ha => aligned_of_mem_pagesFrom ?_ ha
              rw [left.advance_eq] at haligned
              exact haligned
            rw [left.advance_eq, hfirst.kept.image] at hiff2
            obtain ⟨hholds, hcan⟩ := hiff.mp rfl
            rw [hiff2, hafter, and_iff_right hholds, and_iff_right hcan]
          have hrest := hrest hb
          rw [left.advance_eq, hfirst.kept.image] at hrest
          have hboth := hfirst.append hrest
          rwa [c.content_eq] at hboth

end Loaded

/-! ## A segment -/

/-- Nothing that is computed for the header has more than 32 bits. -/
structure NoWrap (phdr : Phdr) (args : SegmentArgs) : Prop where
  stop : phdr.vaddr + phdr.memsz < 2 ^ 32
  read : phdr.vaddr % pgSize + phdr.filesz < 2 ^ 32
  round : phdr.vaddr % pgSize + phdr.memsz + pgSize < 2 ^ 32
  whole : pageUp (phdr.vaddr % pgSize + phdr.memsz) < 2 ^ 32
  zero : args.readBytes ≤ pageUp (phdr.vaddr % pgSize + phdr.memsz)
  total : args.readBytes + args.zeroBytes < 2 ^ 32
  offset : phdr.offset - phdr.offset % pgSize < 2 ^ 31

/-- A round of the loop: there is a page to load, between the first one and the kernel, and the end of
the body does not wrap around. -/
structure Counters.Round (c : Counters) : Prop where
  notDone : c.done = false
  low : pgSize ≤ c.upage
  high : c.upage + pgSize ≤ physBase
  read : c.pageReadBytes ≤ c.readBytes
  zero : c.pageZeroBytes ≤ c.zeroBytes

/-- The counters `load_segment` starts with. -/
def SegmentArgs.counters (args : SegmentArgs) : Counters := ⟨args.upage, args.readBytes, args.zeroBytes⟩

/-- The pages of a segment. -/
def SegmentArgs.pages (args : SegmentArgs) : ℕ := (args.readBytes + args.zeroBytes) / pgSize

section Segment

variable {k : Kernel} {file : ℕ} {f : OpenFile} {phdr : Phdr} {image : Image}

/-- The segment lies between the first page and the kernel. -/
theorem Placed.left (placed : Placed phdr image) (exact : Exact phdr (segmentArgs phdr)) :
    (segmentArgs phdr).counters.Left (segmentArgs phdr).pages ∧ pgSize ≤ (segmentArgs phdr).upage := by
  have hpage : pgSize = 4096 := rfl
  have hbase : physBase = 3221225472 := rfl
  obtain ⟨h1, h2, h3, h4, h5, h6⟩ := placed
  have hbounds := pageUp_bounds (phdr.vaddr % pgSize + phdr.memsz)
  have hup := exact.upage
  have htotal := exact.total
  rw [hpage] at hbounds hup h5
  have hmul : (segmentArgs phdr).pages * pgSize =
      (segmentArgs phdr).readBytes + (segmentArgs phdr).zeroBytes := by
    rw [SegmentArgs.pages, hpage, htotal]
    exact Nat.div_mul_cancel (Nat.dvd_of_mod_eq_zero hbounds.2.2)
  refine ⟨⟨hmul.symm, ?_, ?_⟩, ?_⟩
  · show (segmentArgs phdr).upage % pgSize = 0
    rw [hup, hpage]
    omega
  · show (segmentArgs phdr).upage + (segmentArgs phdr).pages * pgSize ≤ physBase
    rw [hmul, htotal, hup, hbase, hpage]
    omega
  · rw [hup, hpage]
    omega

theorem Placed.noWrap (placed : Placed phdr image) (hlen : image.length < 2 ^ 31)
    (exact : Exact phdr (segmentArgs phdr)) : NoWrap phdr (segmentArgs phdr) := by
  have hpage : pgSize = 4096 := rfl
  have hbase : physBase = 3221225472 := rfl
  obtain ⟨h1, h2, h3, h4, h5, h6⟩ := placed
  have hbounds := pageUp_bounds (phdr.vaddr % pgSize + phdr.memsz)
  have hmod : phdr.vaddr % pgSize < pgSize := Nat.mod_lt _ (by decide)
  have hle : phdr.vaddr % pgSize ≤ phdr.vaddr := Nat.mod_le _ _
  have hread := exact.readBytes
  have htotal := exact.total
  refine ⟨by omega, by omega, by omega, by omega, ?_, by omega, by omega⟩
  rw [hread]
  split <;> omega

/-- What `load` and `load_segment` compute for a header, without memory. -/
structure SegmentNumbers (phdr : Phdr) : Prop where
  exact : Exact phdr (segmentArgs phdr)
  noWrap : NoWrap phdr (segmentArgs phdr)
  sumAligned : ofInt32 ((segmentArgs phdr).readBytes + (segmentArgs phdr).zeroBytes) % pgSize = 0
  upageAligned : (segmentArgs phdr).upage % pgSize = 0
  ofsAligned : (segmentArgs phdr).ofs % pgSize = 0
  rounds : ∀ i < (segmentArgs phdr).pages,
    (Counters.advance^[i] (segmentArgs phdr).counters).Round
  ends : (Counters.advance^[(segmentArgs phdr).pages] (segmentArgs phdr).counters).done = true

theorem Placed.numbers (placed : Placed phdr image) (hlen : image.length < 2 ^ 31) :
    SegmentNumbers phdr := by
  have hpage : pgSize = 4096 := rfl
  have exact := segmentArgs_exact placed hlen
  have noWrap := placed.noWrap hlen exact
  obtain ⟨left, hlow⟩ := placed.left exact
  refine ⟨exact, noWrap, ?_, left.aligned, ?_, fun i hi => ?_, ?_⟩
  · rw [← Nat.cast_add, ofInt32_natCast noWrap.total, exact.total]
    exact (pageUp_bounds _).2.2
  · rw [exact.ofs, hpage]
    omega
  · obtain ⟨hleft, hup⟩ := left.iterate i hi.le
    obtain ⟨r, hr⟩ : ∃ r, (segmentArgs phdr).pages - i = r + 1 := ⟨(segmentArgs phdr).pages - i - 1, by omega⟩
    rw [hr] at hleft
    refine ⟨?_, ?_, ?_, (Counters.pageReadBytes_le _).1, hleft.pageZeroBytes_le⟩
    · exact Bool.eq_false_iff.mpr fun h => Nat.succ_ne_zero r (hleft.done_iff.mp h)
    · rw [hup]
      exact le_trans hlow (Nat.le_add_right _ _)
    · have := hleft.high
      rw [Nat.succ_mul] at this
      omega
  · obtain ⟨hleft, -⟩ := left.iterate _ le_rfl
    rw [Nat.sub_self] at hleft
    exact hleft.done_iff.mpr rfl

/-- The addresses of the pages of a segment. -/
def segmentPages (phdr : Phdr) : List ℕ :=
  pagesFrom (phdr.vaddr - phdr.vaddr % pgSize) (pageUp (phdr.vaddr % pgSize + phdr.memsz) / pgSize)

theorem Exact.segmentPages (exact : Exact phdr (segmentArgs phdr)) :
    pagesFrom (segmentArgs phdr).upage (segmentArgs phdr).pages = segmentPages phdr := by
  rw [Userprog.segmentPages, SegmentArgs.pages, exact.total, exact.upage]

/-- The bytes that are read are those of the header, and what is before them in their page. -/
theorem Placed.holds_iff (placed : Placed phdr image) (exact : Exact phdr (segmentArgs phdr)) :
    Holds image (segmentArgs phdr).ofs.toNat (segmentArgs phdr).readBytes ↔
      Holds image phdr.offset phdr.filesz := by
  have hsame := placed.sameOffset
  have hle : phdr.offset % pgSize ≤ phdr.offset := Nat.mod_le _ _
  rw [exact.ofs, exact.readBytes, Int.toNat_natCast]
  unfold Holds
  split <;> omega

/-- A segment in memory: its pages are mapped, and no others, and the process reads there the part of
the file and zeros. -/
structure SegmentLoaded (k k' : Kernel) (phdr : Phdr) (image : Image) : Prop where
  mapped : ∀ a, (segmentArgs phdr).upage ≤ a →
    a < (segmentArgs phdr).upage + (segmentArgs phdr).pages * pgSize →
    ∃ kpage, k'.entryAt a = some ⟨kpage, (segmentArgs phdr).writable⟩
  others : ∀ a, a < (segmentArgs phdr).upage ∨
    (segmentArgs phdr).upage + (segmentArgs phdr).pages * pgSize ≤ a → k'.entryAt a = k.entryAt a
  fromFile : ∀ v, phdr.vaddr ≤ v → v < phdr.vaddr + phdr.filesz →
    k'.locate v false ≠ none ∧ k'.userMem v = image.byte (phdr.offset + (v - phdr.vaddr))
  zeros : ∀ v, phdr.vaddr + phdr.filesz ≤ v → v < phdr.vaddr + phdr.memsz →
    k'.locate v false ≠ none ∧ k'.userMem v = 0

/-- **A segment is loaded** exactly if the file has its bytes and pages can be mapped to its
addresses. -/
theorem loadSegment_run (placed : Placed phdr (k.image f.inode)) (hlen : (k.image f.inode).length < 2 ^ 31)
    (hf : k.files file = some f) (hdir : k.pagedir ≠ none) {fuel : ℕ}
    (hfuel : (segmentArgs phdr).pages ≤ fuel) :
    ∃ b k', loadSegment fuel file (segmentArgs phdr) k = .ok b k' ∧
      (b = true ↔ Holds (k.image f.inode) phdr.offset phdr.filesz ∧ k.CanMap (segmentPages phdr)) ∧
      (b = true → Mapped k k' (segmentPages phdr) ∧ SegmentLoaded k k' phdr (k.image f.inode)) := by
  have hpage : pgSize = 4096 := rfl
  have hbase : physBase = 3221225472 := rfl
  have numbers := placed.numbers hlen
  have hholds := placed.holds_iff numbers.exact
  have hpages := numbers.exact.segmentPages
  obtain ⟨left, hlow⟩ := placed.left numbers.exact
  have hofs := numbers.exact.ofs
  have hread := numbers.exact.readBytes
  have hup := numbers.exact.upage
  have htotal := numbers.exact.total
  have hbounds := pageUp_bounds (phdr.vaddr % pgSize + phdr.memsz)
  obtain ⟨h1, h2, h3, h4, h5, h6⟩ := placed
  have hmod : phdr.vaddr % pgSize < pgSize := Nat.mod_lt _ (by decide)
  have hle : phdr.vaddr % pgSize ≤ phdr.vaddr := Nat.mod_le _ _
  have hle' : phdr.offset % pgSize ≤ phdr.offset := Nat.mod_le _ _
  set args := segmentArgs phdr with hargs
  set k1 : Kernel := k.setFile file { f with pos := args.ofs.toNat } with hk1
  have hasked : Asked 0 k k1 := (Asked.refl k).of_same rfl rfl rfl rfl
  have hseek : fileSeek file args.ofs k = .ok () k1 := by
    have hget : getFile file k = .ok f k := by
      rw [getFile, fetch_bind, hf]
      rfl
    rw [fileSeek, bind_of_ok hget, bind_of_ok (assert_run (by simp; omega))]
    rfl
  have hf1 : k1.files file = some { f with pos := args.ofs.toNat } := Function.update_self ..
  obtain ⟨b, k', hrun, -, hiff, hloaded⟩ := loadPages_run file args.writable args.pages fuel args.counters k1 _
    left hfuel hlow hdir hf1
  refine ⟨b, k', ?_, ?_, fun hb => ?_⟩
  · rw [loadSegment, bind_of_ok (assert_run (by simpa using numbers.sumAligned)),
      bind_of_ok (assert_run (by simpa using numbers.upageAligned)),
      bind_of_ok (assert_run (by simpa using numbers.ofsAligned)), bind_of_ok hseek]
    exact hrun
  · rw [← hholds, ← hpages, ← hasked.canMap_congr rfl]
    exact hiff
  have hloaded := hloaded hb
  have hmul : args.pages * pgSize = args.readBytes + args.zeroBytes := left.total.symm
  -- what the process reads at an address of the segment
  have hbyte : ∀ v, phdr.vaddr ≤ v → v < phdr.vaddr + phdr.memsz → k'.locate v false ≠ none ∧
      k'.userMem v = if v - args.upage < args.readBytes then
        (k.image f.inode).byte (args.ofs.toNat + (v - args.upage)) else 0 := fun v hv hv' => by
    obtain ⟨kpage, -, -, hentry, hmem⟩ := hloaded.page (v - args.upage) (by omega)
    have hadd : args.counters.upage + (v - args.upage) = v := by
      show args.upage + (v - args.upage) = v
      omega
    rw [hadd] at hentry hmem
    obtain ⟨hlocate, hmem'⟩ := userMem_run hentry (by omega)
    exact ⟨by rw [hlocate]; exact Option.some_ne_none _, hmem'.trans hmem⟩
  refine ⟨?_, fun a ha ha' => ?_, fun a ha => hloaded.others a ha, fun v hv hv' => ?_, fun v hv hv' => ?_⟩
  · rw [← hpages]
    exact (hasked.mapped_nil rfl).append hloaded.mapped
  · rw [← hargs] at ha ha'
    obtain ⟨kpage, -, -, hentry, -⟩ := hloaded.page (a - args.upage) (by omega)
    have hadd : args.counters.upage + (a - args.upage) = a := by
      show args.upage + (a - args.upage) = a
      omega
    rw [hadd] at hentry
    exact ⟨kpage, hentry⟩
  · obtain ⟨hlocate, hmem⟩ := hbyte v hv (by omega)
    refine ⟨hlocate, ?_⟩
    rw [hmem, hread, if_pos (show 0 < phdr.filesz by omega), if_pos (by omega)]
    congr 1
    omega
  · obtain ⟨hlocate, hmem⟩ := hbyte v (by omega) hv'
    refine ⟨hlocate, ?_⟩
    rw [hmem, hread, if_neg]
    split <;> omega

/-- **Loading a segment**: for every header that is accepted the numbers are right, and `load_segment`
returns after the pages of the segment.  It returns true exactly if the file has the bytes, nothing is
mapped to the pages and the allocator finds all that it is asked for, and then the segment is in
memory. -/
theorem loadSegment_correct (fits : Fits phdr) (valid : validateSegment phdr (k.image f.inode) = true)
    (hlen : (k.image f.inode).length < 2 ^ 31) (hf : k.files file = some f) (hdir : k.pagedir ≠ none) :
    SegmentNumbers phdr ∧ ∀ fuel, (segmentArgs phdr).pages ≤ fuel →
      ∃ b k', loadSegment fuel file (segmentArgs phdr) k = .ok b k' ∧
        (b = true ↔ Holds (k.image f.inode) phdr.offset phdr.filesz ∧
          (∀ a ∈ segmentPages phdr, k.entryAt a = none) ∧
          ∀ j < k.demand (segmentPages phdr), k.page j ≠ none) ∧
        (b = true → SegmentLoaded k k' phdr (k.image f.inode)) := by
  have placed := validateSegment_placed fits valid
  refine ⟨placed.numbers hlen, fun fuel hfuel => ?_⟩
  obtain ⟨b, k', hrun, hiff, hloaded⟩ := loadSegment_run placed hlen hf hdir hfuel
  refine ⟨b, k', hrun, ?_, fun hb => (hloaded hb).2⟩
  rw [hiff]
  refine and_congr_right fun _ => ⟨fun h => ⟨h.free, h.pages⟩, fun h => ⟨h.1, ?_, h.2⟩⟩
  exact nodup_pagesFrom _ _

end Segment

/-! ## A segment of two pages -/

/-- The header of a segment with five bytes of the file, and zeros up to the second page. -/
def twoPageSegment : Phdr := ⟨1, 0, 0x08048000, 5, 4100, 5⟩

/-- A kernel with free pages and an open file. -/
def oneFileKernel : Kernel where
  mem _ := 0
  initRamPages := 1024
  answers n := some (physBase + 0x101000 + pgSize * n)
  asked := 0
  used := []
  heap _ := true
  mallocs := 0
  rootDir _ := none
  image _ := ⟨64, fun i => UInt8.ofNat i⟩
  openCnt _ := 1
  denyWriteCnt _ := 0
  files file := if file = 0 then some ⟨0, 0, false⟩ else none
  nextFile := 1
  pagedir := some ⟨physBase + 0x110000, fun _ => none⟩
  execFile := none
  esp := 0
  userStores := []

/-- The segment is loaded, and loaded right. -/
theorem twoPageSegment_correct : SegmentNumbers twoPageSegment ∧
    ∃ k', loadSegment 2 0 (segmentArgs twoPageSegment) oneFileKernel = .ok true k' ∧
      SegmentLoaded oneFileKernel k' twoPageSegment (oneFileKernel.image 0) := by
  obtain ⟨numbers, hrun⟩ := loadSegment_correct
    (show Fits twoPageSegment from ⟨by decide, by decide, by decide, by decide⟩) (by decide +kernel)
    (by decide) (show oneFileKernel.files 0 = some ⟨0, 0, false⟩ from rfl) (Option.some_ne_none _)
  obtain ⟨b, k', hload, hiff, hloaded⟩ := hrun 2 (by decide +kernel)
  have hb : b = true := hiff.mpr ⟨by decide, fun a _ => rfl, by decide +kernel⟩
  exact ⟨numbers, k', hb ▸ hload, hloaded hb⟩

end Pintos.Userprog
