import Pintos.Lib.Invariants
import Pintos.Userprog.Segments

/-!
# Which programs are loaded

`load` reads the headers of the executable and maps its segments between two uses of the command
line, so what was in memory before must still be there.  Whether it comes through depends on the
headers, on the bytes the file has and on the pages that are found.

* **`steady_loadProgram`** — what is in use stays as it is, and nothing is mapped to the first page.
* **`loadProgram_run`** — the program is loaded exactly if its headers are accepted (`Accepted`) and
  pages can be mapped to the addresses of its segments (`programPages`).
* **`loadProgram_isolated`** — no executable reaches what is in use.
-/

namespace Pintos.Userprog

open Lib
open Vm
  (Memory PageDir PageTable Pte Image PallocFlags pgSize physBase isUserVaddr pdNo ptNo fillPage
  copyBytes Phdr phdrAt headerOk validateSegment)

/-! ## What is in use -/

section Steady

variable {k0 : Kernel} {file : ℕ}

/-- A page that is not among those in use in `k0`. -/
structure NewPage (k0 : Kernel) (page : ℕ) : Prop where
  ram : isRamPage k0.initRamPages page = true
  free : page ∉ k0.used
  away : ∀ a, k0.InUse a → ¬ InPage page a

theorem preserves_assert {I : Kernel → Prop} (c : Bool) :
    Preserves I (assert c) fun _ => c = true := by
  intro k hk
  rw [assert]
  split
  · next h => exact ⟨hk, h⟩
  · exact trivial

theorem steady_pallocGetPage (flags : PallocFlags) :
    Preserves (Stable k0) (pallocGetPage flags) fun found => ∀ p, found = some p →
      NewPage k0 p := by
  intro k hk
  rw [pallocGetPage_run]
  refine ⟨hk.afterGet flags, fun p hp => ⟨?_, ?_, fun a ha => ?_⟩⟩
  · exact hk.ram ▸ (Kernel.found_some hp).1
  · exact fun hm => (Kernel.found_some hp).2 (hk.used hm)
  · exact not_inPage_of_inUse hp (hk.inUse ha)

theorem steady_pallocFreePage {page : ℕ} (h : NewPage k0 page) :
    Preserves (Stable k0) (pallocFreePage page) fun _ => True := by
  refine Preserves.bind (preserves_assert _) fun _ _ =>
    Preserves.ite (fun _ => Preserves.pure trivial) fun _ => ?_
  refine Preserves.bind (Preserves.fetch (Q := fun _ => True) fun _ _ => trivial) fun taken _ => ?_
  refine Preserves.bind (preserves_assert _) fun _ _ => Preserves.change fun k hk => ?_
  exact hk.freed h.free h.away

/-- A file that is followed is there. -/
theorem getFile_ok {k k' : Kernel} {f : OpenFile} (h : getFile file k = .ok f k') :
    k' = k ∧ k.files file = some f := by
  rw [getFile, fetch_bind] at h
  cases hf : k.files file with
  | none =>
      rw [hf] at h
      cases h
  | some f' =>
      rw [hf] at h
      cases h
      exact ⟨rfl, rfl⟩

/-- Code that follows a file first. -/
theorem steady_getFile {α : Type} {next : OpenFile → Code α} {Q : α → Prop}
    (h : ∀ k f, Stable k0 k → k.files file = some f →
      Ends (next f k) (fun a k' => Stable k0 k' ∧ Q a) fun _ _ => True) :
    Preserves (Stable k0) (getFile file >>= next) Q := by
  intro k hk
  cases hrun : getFile file k with
  | ok f k' =>
      obtain ⟨rfl, hf⟩ := getFile_ok hrun
      rw [bind_of_ok hrun]
      exact h _ f hk hf
  | error e k' =>
      rw [bind_of_error hrun]
      trivial

theorem steady_fileSeek (newPos : ℤ) :
    Preserves (Stable k0) (fileSeek file newPos) fun _ => True := by
  refine steady_getFile fun k f hk hf => ?_
  by_cases hpos : 0 ≤ newPos
  · rw [bind_of_ok (assert_run (by simpa using hpos))]
    exact ⟨hk.seek hf, trivial⟩
  · rw [assert, if_neg (by simpa using hpos)]
    trivial

theorem steady_fileLength : Preserves (Stable k0) (fileLength file) fun _ => True :=
  steady_getFile fun _ _ hk _ => ⟨hk, trivial⟩

theorem steady_imageOf : Preserves (Stable k0) (imageOf file) fun _ => True :=
  steady_getFile fun _ _ hk _ => ⟨hk, trivial⟩

theorem steady_readHeader (size : ℕ) : Preserves (Stable k0) (readHeader file size) fun _ => True :=
  steady_getFile fun _ _ hk hf => ⟨hk.seek hf, trivial⟩

/-- **A file is read into a new page.** -/
theorem steady_fileRead {kpage size : ℕ} (h : NewPage k0 kpage) (hsize : size ≤ pgSize) :
    Preserves (Stable k0) (fileRead file kpage size) fun _ => True := by
  refine steady_getFile fun k f hk hf => ⟨?_, trivial⟩
  have hwrite : Stable k0 { k with
      mem := copyBytes k.mem kpage (min size ((k.image f.inode).length - f.pos))
        fun i => (k.image f.inode).byte (f.pos + i) } :=
    hk.write fun a ha => if_neg fun hin => h.away a ha ⟨hin.1, by omega⟩
  exact hwrite.seek hf

/-- **A new page is mapped**, to an address that the code asserts to be a user address. -/
theorem steady_installPage {kpage upage : ℕ} (h : NewPage k0 kpage) (hdir : k0.pagedir ≠ none)
    (aligned : upage % pgSize = 0) (pos : pgSize ≤ upage) (writable : Bool) :
    Preserves (Stable k0) (installPage upage kpage writable) fun _ => upage < physBase := by
  intro k hk
  by_cases hlow : upage < physBase
  · have hram : isRamPage k.initRamPages kpage = true := hk.ram ▸ h.ram
    obtain ⟨b, k', hrun, hgrown, hinst⟩ : ∃ b k', installPage upage kpage writable k = .ok b k' ∧
        Grown k k' ∧ ((b = true ∧ Installed k k' upage kpage writable) ∨
          b = false ∧ k'.pagedir = k.pagedir) :=
      installPage_cases (hk.dir hdir) aligned hlow hram
    rw [hrun]
    refine ⟨hk.installed h.free (hk.dir hdir) aligned hlow pos hram hgrown hrun ?_, hlow⟩
    exact hinst.imp id fun h => h.2
  · have hstop : installPage upage kpage writable k = .error .assertFailed k := by
      have hget : pagedirGetPage upage k = .error .assertFailed k := by
        rw [pagedirGetPage, assert, if_neg (by simpa [isUserVaddr] using hlow)]
        rfl
      rw [installPage, bind_of_error hget]
    rw [hstop]
    trivial

/-! ## The segments -/

/-- Where the next page of a segment goes. -/
def Counters.Placed (c : Counters) : Prop := c.upage % pgSize = 0 ∧ pgSize ≤ c.upage

theorem Counters.Placed.advance {c : Counters} (h : c.Placed) (low : c.upage < physBase) :
    c.advance.Placed := by
  obtain ⟨haligned, hpos⟩ := h
  have hbase : physBase = 3221225472 := rfl
  have hpage : pgSize = 4096 := rfl
  have hnext : c.advance.upage = c.upage + pgSize := by
    show ofInt32 ((c.upage + pgSize : ℕ) : ℤ) = _
    exact ofInt32_natCast (by omega)
  rw [Placed, hnext]
  rw [hpage] at haligned hpos ⊢
  omega

theorem steady_loadPage (hdir : k0.pagedir ≠ none) (writable : Bool) {c : Counters} (placed : c.Placed) :
    Preserves (Stable k0) (loadPage file writable c) fun loaded =>
      loaded = true → c.upage < physBase := by
  have hread : c.pageReadBytes ≤ pgSize := (Counters.pageReadBytes_le c).2
  refine Preserves.bind (steady_pallocGetPage _) fun found hnew => ?_
  cases found with
  | none => exact Preserves.pure (by simp)
  | some kpage =>
      have hpage := hnew kpage rfl
      refine Preserves.bind (steady_fileRead hpage hread) fun got _ =>
        Preserves.ite (fun _ => ?_) fun _ => ?_
      · exact Preserves.bind (steady_pallocFreePage hpage) fun _ _ => Preserves.pure (by simp)
      · refine Preserves.bind (Preserves.change fun k hk => hk.write fun a ha => if_neg fun hin =>
        ?_) fun _ _ => ?_
        · have hsize : c.pageZeroBytes = pgSize - c.pageReadBytes := rfl
          exact hpage.away a ha ⟨by omega, by omega⟩
        refine Preserves.bind (steady_installPage hpage hdir placed.1 placed.2 writable)
          fun installed hlow => ?_
        refine Preserves.ite (fun _ => Preserves.pure fun _ => hlow) fun _ => ?_
        exact Preserves.bind (steady_pallocFreePage hpage) fun _ _ => Preserves.pure (by simp)

theorem steady_loadPages (hdir : k0.pagedir ≠ none) (writable : Bool) : ∀ (n : ℕ) (c : Counters),
    c.Placed →
    Preserves (Stable k0) (loadPages file writable n c) fun _ => True := by
  intro n
  induction n with
  | zero => exact fun _ _ => Preserves.ite (fun _ => Preserves.pure trivial) fun _ =>
      Preserves.stop _
  | succ n ih =>
      intro c placed
      refine Preserves.ite (fun _ => Preserves.pure trivial) fun _ => ?_
      refine Preserves.bind (steady_loadPage hdir writable placed) fun loaded hlow => ?_
      exact Preserves.ite (fun h => ih _ (placed.advance (hlow h))) fun _ => Preserves.pure trivial

theorem steady_loadSegment (hdir : k0.pagedir ≠ none) (fuel : ℕ) {args : SegmentArgs}
    (pos : pgSize ≤ args.upage) :
    Preserves (Stable k0) (loadSegment fuel file args) fun _ => True := by
  refine Preserves.bind (preserves_assert _) fun _ _ =>
    Preserves.bind (preserves_assert _) fun _ haligned => ?_
  refine Preserves.bind (preserves_assert _) fun _ _ =>
    Preserves.bind (steady_fileSeek _) fun _ _ => ?_
  exact steady_loadPages hdir _ _ _ ⟨by simpa using haligned, pos⟩

/-- `validate_segment` does not let a segment begin in the first page. -/
theorem validateSegment_pos {phdr : Phdr} {image : Image} (h : validateSegment phdr image = true) :
    pgSize ≤ (segmentArgs phdr).upage := by
  have hpage : pgSize = 4096 := rfl
  have hpos : pgSize ≤ phdr.vaddr := by
    simp only [validateSegment, Bool.and_eq_true, decide_eq_true_eq] at h
    omega
  show pgSize ≤ phdr.vaddr - phdr.vaddr % pgSize
  rw [hpage] at hpos ⊢
  omega

theorem steady_loadPhdrs (hdir : k0.pagedir ≠ none) (fuel : ℕ) : ∀ (n : ℕ) (fileOfs : ℤ),
    Preserves (Stable k0) (loadPhdrs fuel file n fileOfs) fun _ => True := by
  intro n
  induction n with
  | zero => exact fun _ => Preserves.pure trivial
  | succ n ih =>
      intro fileOfs
      refine Preserves.bind steady_fileLength fun length _ =>
        Preserves.ite (fun _ => Preserves.pure trivial) fun _ => ?_
      refine Preserves.bind (steady_fileSeek _) fun _ _ =>
        Preserves.bind (steady_readHeader _) fun header _ => ?_
      cases header with
      | none => exact Preserves.pure trivial
      | some pos =>
          refine Preserves.bind steady_imageOf fun image _ =>
            Preserves.ite (fun _ => Preserves.pure trivial) fun _ => ?_
          refine Preserves.ite (fun _ => ?_) fun _ => ih _
          have hphdr : Preserves (Stable k0) (loadPhdr fuel file (phdrAt image pos)) fun _ =>
            True := by
            refine Preserves.bind steady_imageOf fun image' _ => ?_
            refine Preserves.ite (fun hvalid => ?_) fun _ => Preserves.pure trivial
            exact steady_loadSegment hdir fuel (validateSegment_pos hvalid)
          exact Preserves.bind hphdr fun loaded _ => Preserves.ite (fun _ => ih _) fun _ =>
            Preserves.pure trivial

/-- **Loading a program** leaves alone what is in use. -/
theorem steady_loadProgram (hdir : k0.pagedir ≠ none) (fuel : ℕ) :
    Preserves (Stable k0) (loadProgram fuel file) fun _ => True := by
  refine Preserves.bind (steady_readHeader _) fun header _ => ?_
  cases header with
  | none => exact Preserves.pure trivial
  | some pos =>
      refine Preserves.bind steady_imageOf fun image _ => Preserves.ite (fun _ => ?_) fun _ =>
        Preserves.pure trivial
      exact steady_loadPhdrs hdir fuel _ _

end Steady

/-! ## Which headers are accepted -/

/-- The program header at this position is in the file and does no harm: a segment that is to be loaded
is valid, and the file has its bytes. -/
structure PhdrOk (image : Image) (ofs : ℤ) : Prop where
  first : 0 ≤ ofs
  last : ofs + 32 ≤ image.length
  type : ¬ ((phdrAt image ofs.toNat).type = 2 ∨ (phdrAt image ofs.toNat).type = 3 ∨
    (phdrAt image ofs.toNat).type = 5)
  segment : (phdrAt image ofs.toNat).type = 1 → validateSegment (phdrAt image ofs.toNat) image = true ∧
    Holds image (phdrAt image ofs.toNat).offset (phdrAt image ofs.toNat).filesz

/-- The pages of a program header. -/
def phdrPages (image : Image) (ofs : ℤ) : List ℕ :=
  if (phdrAt image ofs.toNat).type = 1 then segmentPages (phdrAt image ofs.toNat) else []

/-- The pages of `n` program headers. -/
def phdrsPages (image : Image) (n : ℕ) (ofs : ℤ) : List ℕ :=
  (List.range n).flatMap fun i : ℕ => phdrPages image (ofs + 32 * (i : ℤ))

/-- The executable header is in the file and accepted, and so are the program headers. -/
structure Accepted (image : Image) : Prop where
  length : 52 ≤ image.length
  header : headerOk image = true
  phdrs : ∀ i < image.half 44, PhdrOk image (wrap32 (image.word 28) + 32 * (i : ℕ))

/-- The pages of an executable. -/
def programPages (image : Image) : List ℕ := phdrsPages image (image.half 44) (wrap32 (image.word 28))

section Program

variable {k k' : Kernel} {file fuel : ℕ} {f : OpenFile} {image : Image} {ofs : ℤ}

theorem half_lt (image : Image) (p : ℕ) : image.half p < 65536 := by
  have h0 := (image.byte p).toNat_lt
  have h1 := (image.byte (p + 1)).toNat_lt
  unfold Vm.Image.half
  omega

theorem word_lt (image : Image) (p : ℕ) : image.word p < 2 ^ 32 := by
  have h0 := half_lt image p
  have h1 := half_lt image (p + 2)
  unfold Vm.Image.word
  omega

theorem fits_phdrAt (image : Image) (p : ℕ) : Fits (phdrAt image p) :=
  ⟨word_lt _ _, word_lt _ _, word_lt _ _, word_lt _ _⟩

theorem phdrsPages_succ (image : Image) (n : ℕ) (ofs : ℤ) :
    phdrsPages image (n + 1) ofs = phdrPages image ofs ++ phdrsPages image n (ofs + 32) := by
  rw [phdrsPages, List.range_succ_eq_map, List.flatMap_cons, List.flatMap_map, phdrsPages]
  congr 1
  · simp
  · refine congrArg (List.flatMap · (List.range n)) (funext fun i => ?_)
    congr 1
    push_cast
    ring

theorem forall_phdrOk_succ {n : ℕ} : (∀ i < n + 1, PhdrOk image (ofs + 32 * (i : ℕ))) ↔
    PhdrOk image ofs ∧ ∀ i < n, PhdrOk image (ofs + 32 + 32 * (i : ℕ)) := by
  have hnext : ∀ i : ℕ, ofs + 32 * ((i + 1 : ℕ) : ℤ) = ofs + 32 + 32 * i := fun i => by
    push_cast
    ring
  constructor
  · intro h
    refine ⟨by simpa using h 0 (by omega), fun i hi => ?_⟩
    rw [← hnext]
    exact h (i + 1) (by omega)
  · rintro ⟨h0, h⟩ i hi
    cases i with
    | zero => simpa using h0
    | succ i =>
        rw [hnext]
        exact h i (by omega)

theorem aligned_of_mem_phdrsPages {n a : ℕ} (h : a ∈ phdrsPages image n ofs) : a % pgSize = 0 := by
  obtain ⟨i, -, hi⟩ := List.mem_flatMap.mp h
  rw [phdrPages] at hi
  split at hi
  · refine aligned_of_mem_pagesFrom ?_ hi
    have hpage : pgSize = 4096 := rfl
    rw [hpage]
    omega
  · cases hi

/-- Headers are read: only the position in the file changes. -/
structure Read (k k' : Kernel) (file inode : ℕ) : Prop where
  asked : Asked 0 k k'
  pagedir : k'.pagedir = k.pagedir
  image : k'.image = k.image
  file : ∃ f, k'.files file = some f ∧ f.inode = inode

theorem getFile_run (hf : k.files file = some f) : getFile file k = .ok f k := by
  rw [getFile, fetch_bind, hf]
  rfl

theorem imageOf_run (hf : k.files file = some f) : imageOf file k = .ok (k.image f.inode) k := by
  rw [imageOf, bind_of_ok (getFile_run hf)]
  rfl

theorem readHeader_run (hf : k.files file = some f) (size : ℕ) : ∃ k',
    readHeader file size k =
      .ok (if min size ((k.image f.inode).length - f.pos) = size then some f.pos else none) k' ∧
      Read k k' file f.inode := by
  refine ⟨_, by rw [readHeader, bind_of_ok (getFile_run hf)]; rfl, ?_⟩
  exact ⟨(Asked.refl k).of_same rfl rfl rfl rfl, rfl, rfl, _, Function.update_self .., rfl⟩

/-- A program header is read. -/
theorem seekHeader_run (hf : k.files file = some f) (h0 : 0 ≤ ofs) {α : Type}
    (next : Option ℕ → Code α) : ∃ k',
    (fileSeek file ofs >>= fun _ => readHeader file 32 >>= next) k =
      next (if ofs + 32 ≤ ((k.image f.inode).length : ℤ) then some ofs.toNat else none) k' ∧
      Read k k' file f.inode := by
  set k1 : Kernel := k.setFile file { f with pos := ofs.toNat } with hk1
  have hseek : fileSeek file ofs k = .ok () k1 := by
    rw [fileSeek, bind_of_ok (getFile_run hf), bind_of_ok (assert_run (by simpa using h0))]
    rfl
  have hf1 : k1.files file = some { f with pos := ofs.toNat } := Function.update_self ..
  obtain ⟨k2, hread, hsame⟩ := readHeader_run hf1 32
  refine ⟨k2, ?_, ?_⟩
  · rw [bind_of_ok hseek, bind_of_ok hread]
    have hiff : min 32 ((k.image f.inode).length - ofs.toNat) = 32 ↔
        ofs + 32 ≤ ((k.image f.inode).length : ℤ) := by omega
    exact congrArg (fun header => next header k2) (if_congr hiff rfl rfl)
  · have hasked : Asked 0 k k1 := (Asked.refl k).of_same rfl rfl rfl rfl
    exact ⟨hasked.trans hsame.asked, hsame.pagedir, hsame.image, hsame.file⟩

/-- **A segment**, once its header was read. -/
theorem loadPhdr_run {inode p : ℕ} (hfuel : physBase / pgSize ≤ fuel) (hlen : (k.image inode).length < 2 ^ 31)
    (hf : k.files file = some f) (hinode : f.inode = inode) (hdir : k.pagedir ≠ none) :
    ∃ b k', loadPhdr fuel file (phdrAt (k.image inode) p) k = .ok b k' ∧ Stable k k' ∧
      (b = true ↔ (validateSegment (phdrAt (k.image inode) p) (k.image inode) = true ∧
        Holds (k.image inode) (phdrAt (k.image inode) p).offset (phdrAt (k.image inode) p).filesz) ∧
        k.CanMap (segmentPages (phdrAt (k.image inode) p))) ∧
      (b = true → Mapped k k' (segmentPages (phdrAt (k.image inode) p))) := by
  subst hinode
  set phdr := phdrAt (k.image f.inode) p with hphdr
  by_cases hvalid : validateSegment phdr (k.image f.inode) = true
  · have placed := validateSegment_placed (fits_phdrAt _ _) hvalid
    obtain ⟨left, -⟩ := placed.left (placed.numbers hlen).exact
    have hpages : (segmentArgs phdr).pages ≤ fuel := by
      refine le_trans ?_ hfuel
      exact (Nat.le_div_iff_mul_le (by decide)).mpr (le_trans (Nat.le_add_left _ _) left.high)
    obtain ⟨b, k', hrun, hiff, hmapped⟩ := loadSegment_run placed hlen hf hdir hpages
    have hload : loadPhdr fuel file phdr k = .ok b k' := by
      rw [loadPhdr, bind_of_ok (imageOf_run hf), if_pos hvalid]
      exact hrun
    have hsteady : Preserves (Stable k) (loadSegment fuel file (segmentArgs phdr)) fun _ => True :=
      steady_loadSegment hdir fuel (validateSegment_pos hvalid)
    refine ⟨b, k', hload, (hsteady.of_ok (.refl k) hrun).1, ?_, fun hb => (hmapped hb).1⟩
    rw [hiff, and_iff_right hvalid]
  · refine ⟨false, k, ?_, Stable.refl k, iff_of_false Bool.false_ne_true fun h => hvalid h.1.1,
      fun h => by cases h⟩
    rw [loadPhdr, bind_of_ok (imageOf_run hf), if_neg hvalid]
    rfl

/-- The loop over the program headers, once the next one was read. -/
def nextPhdr (fuel file n : ℕ) (ofs : ℤ) : Option ℕ → Code Bool
  | none => pure false
  | some pos => do
      let image ← imageOf file
      let phdr := phdrAt image pos
      if phdr.type = 2 ∨ phdr.type = 3 ∨ phdr.type = 5 then return false
      else if phdr.type = 1 then do
        let loaded ← loadPhdr fuel file phdr
        if loaded then loadPhdrs fuel file n (ofs + 32) else return false
      else loadPhdrs fuel file n (ofs + 32)

theorem loadPhdrs_succ (fuel file n : ℕ) (ofs : ℤ) : loadPhdrs fuel file (n + 1) ofs =
    (fileLength file >>= fun length => if ofs < 0 ∨ (length : ℤ) < ofs then pure false
      else fileSeek file ofs >>= fun _ => readHeader file 32 >>= nextPhdr fuel file n ofs) := by
  rw [loadPhdrs]
  refine congrArg (fileLength file >>= ·) (funext fun length => ?_)
  split
  · rfl
  · refine congrArg (fileSeek file ofs >>= ·) (funext fun _ => ?_)
    refine congrArg (readHeader file 32 >>= ·) (funext fun header => ?_)
    cases header <;> rfl

/-- **One round of the loop** over the program headers: it ends there and `load` returns false, or it
goes on behind the pages of the segment. -/
theorem loadPhdrs_round {f : OpenFile} (hfuel : physBase / pgSize ≤ fuel) (hlen : image.length < 2 ^ 31)
    (n : ℕ) (ofs : ℤ) (hf : k.files file = some f) (himage : k.image f.inode = image)
    (hdir : k.pagedir ≠ none) :
    (¬ (PhdrOk image ofs ∧ k.CanMap (phdrPages image ofs)) ∧
      ∃ k', loadPhdrs fuel file (n + 1) ofs k = .ok false k') ∨
    (PhdrOk image ofs ∧ k.CanMap (phdrPages image ofs)) ∧
      ∃ k' f', loadPhdrs fuel file (n + 1) ofs k = loadPhdrs fuel file n (ofs + 32) k' ∧
        Mapped k k' (phdrPages image ofs) ∧ k'.files file = some f' ∧ f'.inode = f.inode ∧
        k'.image f.inode = image ∧ k'.pagedir ≠ none := by
  have hlength : fileLength file k = .ok image.length k := by
    rw [fileLength, bind_of_ok (getFile_run hf), ← himage]
    rfl
  by_cases hout : ofs < 0 ∨ (image.length : ℤ) < ofs
  · refine .inl ⟨fun h => ?_, k, ?_⟩
    · have h0 := h.1.first
      have h1 := h.1.last
      omega
    · rw [loadPhdrs_succ, bind_of_ok hlength, if_pos hout]
      rfl
  obtain ⟨k1, hread, hsame⟩ := seekHeader_run hf (by omega : 0 ≤ ofs) (nextPhdr fuel file n ofs)
  have hrun : loadPhdrs fuel file (n + 1) ofs k = nextPhdr fuel file n ofs
      (if ofs + 32 ≤ ((k.image f.inode).length : ℤ) then some ofs.toNat else none) k1 := by
    rw [loadPhdrs_succ, bind_of_ok hlength, if_neg hout]
    exact hread
  obtain ⟨f1, hf1, hinode1⟩ := hsame.file
  have himage1 : k1.image f.inode = image := by rw [hsame.image, himage]
  have hcan1 : ∀ as, k1.CanMap as ↔ k.CanMap as := fun as => hsame.asked.canMap_congr hsame.pagedir
  have hmapped1 := hsame.asked.mapped_nil hsame.pagedir
  rw [himage] at hrun
  by_cases hlast : ofs + 32 ≤ (image.length : ℤ)
  swap
  · rw [if_neg hlast] at hrun
    exact .inl ⟨fun h => hlast h.1.last, k1, hrun⟩
  rw [if_pos hlast] at hrun
  have himageOf : imageOf file k1 = .ok image k1 := by
    rw [imageOf_run hf1, hinode1, himage1]
  rw [nextPhdr, bind_of_ok himageOf] at hrun
  by_cases hbad : (phdrAt image ofs.toNat).type = 2 ∨ (phdrAt image ofs.toNat).type = 3 ∨
      (phdrAt image ofs.toNat).type = 5
  · rw [if_pos hbad] at hrun
    exact .inl ⟨fun h => h.1.type hbad, k1, hrun⟩
  rw [if_neg hbad] at hrun
  have hdir1 : k1.pagedir ≠ none := hsame.pagedir ▸ hdir
  by_cases hload : (phdrAt image ofs.toNat).type = 1
  · have hpages : phdrPages image ofs = segmentPages (phdrAt image ofs.toNat) := if_pos hload
    obtain ⟨b, k2, hrun2, hstable, hiff, hmapped⟩ := loadPhdr_run (p := ofs.toNat) hfuel
      (himage1.symm ▸ hlen) hf1 hinode1 hdir1
    rw [himage1, hcan1, ← hpages] at hiff
    rw [himage1, ← hpages] at hmapped
    rw [himage1] at hrun2
    rw [if_pos hload, bind_of_ok hrun2] at hrun
    have hphdr : PhdrOk image ofs ↔ validateSegment (phdrAt image ofs.toNat) image = true ∧
        Holds image (phdrAt image ofs.toNat).offset (phdrAt image ofs.toNat).filesz :=
      ⟨fun h => h.segment hload, fun h => ⟨by omega, hlast, hbad, fun _ => h⟩⟩
    rw [← hphdr] at hiff
    cases b with
    | false => exact .inl ⟨fun h => Bool.false_ne_true (hiff.mpr h), k2, hrun⟩
    | true =>
        obtain ⟨pos2, hf2⟩ := hstable.files file f1 hf1
        exact .inr ⟨hiff.mp rfl, k2, _, hrun, hmapped1.append (hmapped rfl), hf2, hinode1,
          by rw [hstable.image, himage1], hstable.dir hdir1⟩
  · -- a header of another type is passed over
    have hpages : phdrPages image ofs = [] := if_neg hload
    have hok : PhdrOk image ofs := ⟨by omega, hlast, hbad, fun h => absurd h hload⟩
    rw [if_neg hload] at hrun
    exact .inr ⟨⟨hok, hpages ▸ canMap_nil k⟩, k1, f1, hrun, hpages ▸ hmapped1, hf1, hinode1, himage1, hdir1⟩

/-- **The loop over the program headers.** -/
theorem loadPhdrs_run {inode : ℕ} (hfuel : physBase / pgSize ≤ fuel) (hlen : image.length < 2 ^ 31) :
    ∀ (n : ℕ) (ofs : ℤ) (k : Kernel) (f : OpenFile), k.files file = some f → f.inode = inode →
      k.image inode = image → k.pagedir ≠ none →
      ∃ b k', loadPhdrs fuel file n ofs k = .ok b k' ∧
        (b = true ↔ (∀ i < n, PhdrOk image (ofs + 32 * (i : ℕ))) ∧ k.CanMap (phdrsPages image n ofs)) ∧
        (b = true → Mapped k k' (phdrsPages image n ofs)) := by
  intro n
  induction n with
  | zero =>
      intro ofs k f _ _ _ _
      exact ⟨true, k, rfl, iff_of_true rfl ⟨fun i hi => absurd hi (Nat.not_lt_zero i), canMap_nil k⟩,
        fun _ => Mapped.nil k⟩
  | succ n ih =>
      intro ofs k f hf hinode himage hdir
      subst hinode
      rw [forall_phdrOk_succ, phdrsPages_succ]
      rcases loadPhdrs_round hfuel hlen n ofs hf himage hdir with ⟨hbad, k1, hrun⟩ |
        ⟨⟨hok, hcan⟩, k1, f1, hrun, hmapped, hf1, hinode1, himage1, hdir1⟩
      · refine ⟨false, k1, hrun, iff_of_false Bool.false_ne_true fun h => ?_, fun h => by cases h⟩
        exact hbad ⟨h.1.1, h.2.left⟩
      · obtain ⟨b, k2, hrun2, hiff, hmapped2⟩ := ih (ofs + 32) k1 f1 hf1 hinode1 himage1 hdir1
        refine ⟨b, k2, hrun.trans hrun2, ?_, fun hb => hmapped.append (hmapped2 hb)⟩
        rw [hiff, hmapped.canMap_append fun a => aligned_of_mem_phdrsPages, and_iff_right hcan,
          and_iff_right hok]

/-- **Which programs are loaded.** -/
theorem loadProgram_run {inode : ℕ} (hfuel : physBase / pgSize ≤ fuel)
    (hlen : (k.image inode).length < 2 ^ 31) (hf : k.files file = some ⟨inode, 0, false⟩)
    (hdir : k.pagedir ≠ none) :
    ∃ b k', loadProgram fuel file k = .ok b k' ∧
      (b = true ↔ Accepted (k.image inode) ∧ k.CanMap (programPages (k.image inode))) ∧
      (b = true → Mapped k k' (programPages (k.image inode))) := by
  obtain ⟨k1, hread, hsame⟩ := readHeader_run hf 52
  have hpos : min 52 ((k.image inode).length - 0) = 52 ↔ 52 ≤ (k.image inode).length := by omega
  obtain ⟨f1, hf1, hinode1⟩ := hsame.file
  have hcan1 : ∀ as, k1.CanMap as ↔ k.CanMap as := fun as =>
    hsame.asked.canMap_congr hsame.pagedir
  have hmapped1 := hsame.asked.mapped_nil hsame.pagedir
  have himage : imageOf file k1 = .ok (k.image inode) k1 := by
    rw [imageOf_run hf1, hinode1, hsame.image]
  -- a file without a whole header
  by_cases hshort : 52 ≤ (k.image inode).length
  swap
  · refine ⟨false, k1, ?_, iff_of_false Bool.false_ne_true fun h => hshort h.1.length, fun h => by cases h⟩
    rw [loadProgram, bind_of_ok hread]
    simp only []
    rw [if_neg fun h => hshort (hpos.mp h)]
    rfl
  have hstart : loadProgram fuel file k = (if headerOk (k.image inode) then
      loadPhdrs fuel file ((k.image inode).half 44) (wrap32 ((k.image inode).word 28))
        else return false : Code Bool) k1 := by
    rw [loadProgram, bind_of_ok hread]
    simp only []
    rw [if_pos (hpos.mpr hshort)]
    simp only []
    rw [bind_of_ok himage]
  by_cases hheader : headerOk (k.image inode) = true
  · obtain ⟨b, k2, hrun, hiff, hmapped⟩ := loadPhdrs_run hfuel hlen
      ((k.image inode).half 44) (wrap32 ((k.image inode).word 28)) k1 f1 hf1 hinode1 (by rw [hsame.image])
      (hsame.pagedir ▸ hdir)
    refine ⟨b, k2, ?_, ?_, fun hb => hmapped1.append (hmapped hb)⟩
    · rw [hstart, if_pos hheader]
      exact hrun
    · rw [hiff, hcan1]
      exact and_congr_left fun _ => ⟨fun h => ⟨hshort, hheader, h⟩, fun h => h.phdrs⟩
  · refine ⟨false, k1, ?_, iff_of_false Bool.false_ne_true fun h => hheader h.1.header, fun h => by cases h⟩
    rw [hstart, if_neg hheader]
    rfl

end Program

/-! ## Isolation -/

/-- **No executable reaches what is in use.**  Whatever the bytes of the file are, the memory that is
in use keeps its contents, pages that are in use are not mapped, and neither is the first page. -/
theorem loadProgram_isolated {k k' : Kernel} {fuel file : ℕ} {loaded : Bool} (hdir : k.pagedir ≠ none)
    (hrun : loadProgram fuel file k = .ok loaded k') :
    (∀ a, k.InUse a → k'.mem a = k.mem a) ∧
      (∀ page ∈ k.used, page ∈ k'.used ∧ (k'.Maps page → k.Maps page)) ∧
      (k.entryAt 0 = none → k'.entryAt 0 = none) := by
  have hsteady : Preserves (Stable k) (loadProgram fuel file) fun _ => True :=
    steady_loadProgram hdir fuel
  obtain ⟨hstable, -⟩ := hsteady.of_ok (.refl k) hrun
  exact ⟨hstable.mem, fun page hp => ⟨hstable.used hp, hstable.maps page hp⟩, hstable.null⟩

/-- An executable with one segment: the two headers themselves, and zeros up to the second page. -/
def smallProgram : Image where
  length := 84
  byte i :=
    [0x7f, 0x45, 0x4c, 0x46, 1, 1, 1, 0, 0, 0, 0, 0, 0, 0, 0, 0,
      2, 0, 3, 0, 1, 0, 0, 0, 0x54, 0x80, 0x04, 0x08, 52, 0, 0, 0,
      0, 0, 0, 0, 0, 0, 0, 0, 52, 0, 32, 0, 1, 0, 0, 0, 0, 0, 0, 0,
      1, 0, 0, 0, 0, 0, 0, 0, 0, 0x80, 0x04, 0x08, 0, 0x80, 0x04, 0x08,
      84, 0, 0, 0, 0x04, 0x10, 0, 0, 6, 0, 0, 0, 0, 0x10, 0, 0].getD i 0

/-- A kernel in which it is the file 0, with a page directory, free pages and one page in use. -/
def smallProgramKernel : Kernel where
  mem a := if a = physBase + 0x100000 then 0x61 else 0
  initRamPages := 1024
  answers n := some (physBase + 0x101000 + pgSize * n)
  asked := 0
  used := [physBase + 0x100000]
  heap _ := true
  mallocs := 0
  rootDir _ := none
  image _ := smallProgram
  openCnt _ := 0
  denyWriteCnt _ := 0
  files file := if file = 0 then some ⟨0, 0, false⟩ else none
  nextFile := 1
  pagedir := some ⟨physBase + 0x110000, fun _ => none⟩
  execFile := none
  esp := 0
  userStores := []

theorem smallProgram_accepted : Accepted smallProgram where
  length := by decide
  header := by decide +kernel
  phdrs i hi := by
    obtain rfl : i = 0 := by
      have : smallProgram.half 44 = 1 := by decide +kernel
      omega
    exact ⟨by decide +kernel, by decide +kernel, by decide +kernel, fun _ => by decide +kernel⟩

/-- Its two pages and their page table are taken, and the page in use keeps its contents and is not
mapped. -/
theorem smallProgram_isolated : ∃ k', loadProgram (physBase / pgSize) 0 smallProgramKernel = .ok true k' ∧
    k'.used.length = 4 ∧ k'.mem (physBase + 0x100000) = 0x61 ∧ ¬ k'.Maps (physBase + 0x100000) := by
  obtain ⟨b, k', hrun, hiff, hmapped⟩ := loadProgram_run le_rfl (by decide)
    (show smallProgramKernel.files 0 = some ⟨0, 0, false⟩ from rfl) (Option.some_ne_none _)
  have hb : b = true := by
    refine hiff.mpr ⟨smallProgram_accepted, fun _ _ => rfl, ?_, ?_⟩
    · decide +kernel
    · decide +kernel
  subst hb
  obtain ⟨hmem, hpages, -⟩ := loadProgram_isolated (Option.some_ne_none _) hrun
  refine ⟨k', hrun, ?_, ?_, fun hm => ?_⟩
  · rw [(hmapped rfl).asked.used]
    decide +kernel
  · refine (hmem _ (.inr ⟨physBase + 0x100000, List.mem_cons_self, ?_, ?_⟩)).trans ?_
    · decide +kernel
    · exact ⟨le_rfl, by decide⟩
    · rfl
  · obtain ⟨pd, hpd, hm⟩ := (hpages _ List.mem_cons_self).2 hm
    cases hpd
    rcases mem_dirPages.mp hm with h | ⟨_, _, _, h, _⟩
    · exact absurd h (by decide)
    · cases h

/-! ## What is in memory -/

/-- The states differ in memory alone. -/
def SameButMemory (k k' : Kernel) : Prop := ∃ mem, k' = { k with mem }

theorem found_sameButMemory {k k' : Kernel} (h : SameButMemory k k') : k'.found = k.found := by
  obtain ⟨mem, rfl⟩ := h
  rfl

theorem afterGet_sameButMemory {k k' : Kernel} (h : SameButMemory k k') (flags : PallocFlags) :
    SameButMemory (k.afterGet flags) (k'.afterGet flags) := by
  have hfound := found_sameButMemory h
  obtain ⟨mem, rfl⟩ := h
  rw [Kernel.afterGet, Kernel.afterGet, hfound]
  cases k.found with
  | none => exact ⟨mem, rfl⟩
  | some page => exact ⟨_, rfl⟩

end Pintos.Userprog
