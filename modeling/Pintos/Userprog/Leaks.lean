import Pintos.Userprog.ArgumentPassing
import Pintos.Userprog.ExecuteCases
import Pintos.Userprog.Frame

/-!
# What is left of a process

`process_execute` copies the command line to two pages.  The first one is handed over to the child,
which gives it back; the second one is cut up for the name of the executable, and **nobody gives it
back once the executable is open**.  So a page is lost with every call that comes that far, whatever
becomes of the child.

`Kept page k` says that a page is taken and that no page directory has it, and `Keeps page m Q` that
a command leaves it so.  What `load` maps or gives back it has taken itself, and a page that is found
is not one that is taken; so every function on the way keeps the page.

* **`execute_leaves_nothing_iff`** — when everything is as it was.
-/

namespace Pintos.Userprog

open Lib Strings
open Vm (Memory PageDir PageTable Pte Image PallocFlags pgSize physBase isUserVaddr pdNo ptNo fillPage
  copyBytes Phdr phdrAt headerOk validateSegment)

/-! ## Commands that leave the pages alone -/

/-- The same pages are taken, and the page directory is the same. -/
structure SamePages (k k' : Kernel) : Prop where
  used : k'.used = k.used
  pagedir : k'.pagedir = k.pagedir

namespace SamePages

instance : Std.Refl SamePages := ⟨fun _ => ⟨rfl, rfl⟩⟩

instance : IsTrans Kernel SamePages :=
  ⟨fun _ _ _ h h' => ⟨h'.used.trans h.used, h'.pagedir.trans h.pagedir⟩⟩

end SamePages

section Idle

variable {α : Type}

theorem pages_assert (c : Bool) : Moves SamePages (assert c) :=
  Moves.ite (Moves.pure ()) (Moves.stop _)

/-- What only writes to memory. -/
theorem pages_of_stackOnly {m : Code α} (h : Moves StackOnly m) : Moves SamePages m :=
  h.mono fun _ _ hs => ⟨by rw [hs.rest], by rw [hs.rest]⟩

theorem pages_onMemory (m : StringCode α) : Moves SamePages (onMemory m) :=
  pages_of_stackOnly (moves_onMemory m)

theorem pages_malloc : Moves SamePages malloc :=
  Moves.bind (Moves.fetch _) fun _ => Moves.bind (Moves.change fun _ => ⟨rfl, rfl⟩) fun _ => Moves.pure _

theorem pages_nameAt (fuel p : ℕ) : Moves SamePages (nameAt fuel p) :=
  Moves.ite (Moves.pure _) (Moves.bind (pages_onMemory _) fun _ =>
    Moves.bind (Moves.fetch _) fun _ => Moves.pure _)

theorem pages_inodeClose (inode : ℕ) : Moves SamePages (inodeClose inode) :=
  Moves.change fun _ => ⟨rfl, rfl⟩

theorem pages_getFile (file : ℕ) : Moves SamePages (getFile file) :=
  Moves.bind (Moves.fetch _) fun f => by
    cases f with
    | none => exact Moves.stop _
    | some f => exact Moves.pure f

theorem pages_dirLookup (name : Option (List UInt8)) : Moves SamePages (dirLookup name) := by
  cases name with
  | none => exact Moves.stop _
  | some name =>
      refine Moves.bind (Moves.fetch _) fun inode => ?_
      cases inode with
      | none => exact Moves.pure _
      | some inode =>
          refine Moves.bind pages_malloc fun found => Moves.ite ?_ (Moves.pure _)
          exact Moves.bind (Moves.change fun _ => ⟨rfl, rfl⟩) fun _ => Moves.pure _

theorem pages_fileOpen (inode : Option ℕ) : Moves SamePages (fileOpen inode) := by
  refine Moves.bind pages_malloc fun block => ?_
  cases inode with
  | none => exact Moves.pure _
  | some inode =>
      refine Moves.ite ?_ (Moves.bind (pages_inodeClose inode) fun _ => Moves.pure _)
      exact Moves.bind (Moves.fetch _) fun _ => Moves.bind (Moves.change fun _ => ⟨rfl, rfl⟩) fun _ =>
        Moves.pure _

theorem pages_filesysOpen (name : Option (List UInt8)) : Moves SamePages (filesysOpen name) := by
  have hroot : Moves SamePages dirOpenRoot :=
    Moves.bind pages_malloc fun _ => Moves.bind pages_malloc fun _ => Moves.pure _
  refine Moves.bind hroot fun root => Moves.ite ?_ (pages_fileOpen none)
  exact Moves.bind (pages_dirLookup name) fun inode => pages_fileOpen inode

theorem pages_fileLength (file : ℕ) : Moves SamePages (fileLength file) :=
  Moves.bind (pages_getFile file) fun _ => Moves.fetch _

theorem pages_fileSeek (file : ℕ) (newPos : ℤ) : Moves SamePages (fileSeek file newPos) :=
  Moves.bind (pages_getFile file) fun _ => Moves.bind (pages_assert _) fun _ =>
    Moves.change fun _ => ⟨rfl, rfl⟩

theorem pages_fileRead (file addr size : ℕ) : Moves SamePages (fileRead file addr size) :=
  Moves.bind (pages_getFile file) fun _ => Moves.bind (Moves.fetch _) fun _ =>
    Moves.bind (Moves.change fun _ => ⟨rfl, rfl⟩) fun _ => Moves.pure _

theorem pages_readHeader (file size : ℕ) : Moves SamePages (readHeader file size) :=
  Moves.bind (pages_getFile file) fun _ => Moves.bind (Moves.fetch _) fun _ =>
    Moves.bind (Moves.change fun _ => ⟨rfl, rfl⟩) fun _ => Moves.pure _

theorem pages_imageOf (file : ℕ) : Moves SamePages (imageOf file) :=
  Moves.bind (pages_getFile file) fun _ => Moves.fetch _

theorem pages_fileDenyWrite (file : ℕ) : Moves SamePages (fileDenyWrite file) := by
  refine Moves.bind (pages_getFile file) fun f => Moves.ite (Moves.pure ()) ?_
  exact Moves.bind (Moves.change fun _ => ⟨rfl, rfl⟩) fun _ => Moves.bind (Moves.fetch _) fun _ =>
    pages_assert _

theorem pages_fileClose (file : Option ℕ) : Moves SamePages (fileClose file) := by
  cases file with
  | none => exact Moves.pure ()
  | some file =>
      have hallow : Moves SamePages (fileAllowWrite file) := by
        refine Moves.bind (pages_getFile file) fun f => Moves.ite ?_ (Moves.pure ())
        refine Moves.bind (Moves.fetch _) fun _ => Moves.bind (pages_assert _) fun _ => ?_
        refine Moves.bind (Moves.fetch _) fun _ => Moves.bind (pages_assert _) fun _ => ?_
        exact Moves.change fun _ => ⟨rfl, rfl⟩
      refine Moves.bind hallow fun _ => Moves.bind (pages_getFile file) fun f => ?_
      exact Moves.bind (pages_inodeClose _) fun _ => Moves.change fun _ => ⟨rfl, rfl⟩

theorem pages_finishLoad (file : Option ℕ) (success : Bool) : Moves SamePages (finishLoad file success) := by
  cases file with
  | none => exact Moves.bind (Moves.change fun _ => ⟨rfl, rfl⟩) fun _ => Moves.pure _
  | some file =>
      refine Moves.bind (pages_fileDenyWrite file) fun _ => ?_
      exact Moves.bind (Moves.change fun _ => ⟨rfl, rfl⟩) fun _ => Moves.pure _

end Idle

/-! ## The stack -/

section Pushes

theorem pages_collectArgs (fuel args : ℕ) : ∀ n token savePtr counter,
    Moves SamePages (collectArgs fuel args n token savePtr counter) := by
  intro n
  induction n with
  | zero => exact fun _ _ _ => Moves.stop _
  | succ n ih =>
      intro token savePtr counter
      refine Moves.ite (Moves.pure _) (Moves.ite (Moves.pure _) ?_)
      refine Moves.bind (pages_of_stackOnly (moves_storeWord _ _)) fun _ => ?_
      exact Moves.bind (pages_onMemory _) fun _ => ih _ _ _

theorem pages_pushArguments (fuel args counter : ℕ) :
    Moves SamePages (pushArguments fuel args counter) := by
  obtain ⟨rest, hrest, hmoves⟩ := pushArguments_eq fuel args counter
  rw [hrest]
  exact pages_of_stackOnly (Moves.bind (moves_stackStore _ _) fun _ => hmoves)

end Pushes

/-! ## A page that is kept -/

/-- The page is taken, and no page directory has it. -/
structure Kept (page : ℕ) (k : Kernel) : Prop where
  used : page ∈ k.used
  unmapped : ¬ k.Maps page

/-- Where `m` returns, the page is still kept, and the result is as `Q` says. -/
def Keeps {α : Type} (page : ℕ) (m : Code α) (Q : α → Prop) : Prop :=
  ∀ k, Kept page k → Ends (m k) (fun a k' => Kept page k' ∧ Q a) fun _ _ => True

namespace Keeps

variable {α β : Type} {page : ℕ} {m m' : Code α} {f : α → Code β} {Q : α → Prop} {R : β → Prop}

theorem pure {a : α} (h : Q a) : Keeps page (Pure.pure a) Q := fun _ hk => ⟨hk, h⟩

theorem stop (e : Stop) : Keeps page (Lib.stop e) Q := fun _ _ => trivial

theorem fetch {f : Kernel → α} (h : ∀ k, Kept page k → Q (f k)) : Keeps page (Lib.fetch f) Q :=
  fun k hk => ⟨hk, h k hk⟩

theorem change {f : Kernel → Kernel} (h : ∀ k, Kept page k → Kept page (f k)) :
    Keeps page (Lib.change f) fun _ => True :=
  fun k hk => ⟨h k hk, trivial⟩

theorem bind (h : Keeps page m Q) (hf : ∀ a, Q a → Keeps page (f a) R) : Keeps page (m >>= f) R :=
  fun k hk => Ends.bind (h k hk) fun a k' ha => hf a ha.2 k' ha.1

theorem ite {c : Prop} [Decidable c] (h : Keeps page m Q) (h' : Keeps page m' Q) :
    Keeps page (if c then m else m') Q := by
  split
  · exact h
  · exact h'

theorem assert (c : Bool) : Keeps page (assert c) fun _ => c = true := by
  intro k hk
  rw [Userprog.assert]
  split
  · next h => exact ⟨hk, h⟩
  · exact trivial

/-- **Commands that leave all pages alone** keep the page. -/
theorem of_moves (h : Moves SamePages m) : Keeps page m fun _ => True := by
  intro k hk
  have hsame := h k
  cases e : m k with
  | ok a k' =>
      rw [e] at hsame
      exact ⟨⟨hsame.used ▸ hk.used, fun hm => hk.unmapped ((maps_congr hsame.pagedir).mp hm)⟩, trivial⟩
  | error x k' => exact trivial

/-- Run after a command whose result does not matter. -/
theorem after (h : Moves SamePages m) (hf : ∀ a, Keeps page (f a) R) : Keeps page (m >>= f) R :=
  bind (of_moves h) fun a _ => hf a

end Keeps

section Functions

variable {page : ℕ}

/-- **A page that is found** is another one. -/
theorem keeps_pallocGetPage (flags : PallocFlags) :
    Keeps page (pallocGetPage flags) fun found => ∀ p, found = some p → p ≠ page := by
  intro k hk
  rw [pallocGetPage_run]
  refine ⟨⟨(grown_afterGet k flags).used hk.used, fun hm => ?_⟩, fun p hp => ?_⟩
  · exact hk.unmapped ((maps_congr (pagedir_afterGet k flags)).mp hm)
  · rintro rfl
    exact (Kernel.found_some hp).2 hk.used

/-- **Another page is given back.** -/
theorem keeps_pallocFreePage {p : ℕ} (hne : p ≠ page) : Keeps page (pallocFreePage p) fun _ => True := by
  refine Keeps.bind (Keeps.assert _) fun _ _ => Keeps.ite (Keeps.pure trivial) ?_
  refine Keeps.after (Moves.fetch _) fun taken => Keeps.bind (Keeps.assert _) fun _ _ => ?_
  exact Keeps.change fun k hk => ⟨(List.mem_erase_of_ne hne.symm).mpr hk.used, hk.unmapped⟩

theorem keeps_forEach {l : List ℕ} (h : ∀ p ∈ l, p ≠ page) :
    Keeps page (forEach pallocFreePage l) fun _ => True := by
  induction l with
  | nil => exact Keeps.pure trivial
  | cons p l ih =>
      refine Keeps.bind (keeps_pallocFreePage (h p List.mem_cons_self)) fun _ _ => ?_
      exact ih fun q hq => h q (List.mem_cons_of_mem _ hq)

/-- A page table without the page is put into the page directory. -/
theorem keeps_setTable {i : ℕ} {pt : PageTable} (h : page ∉ pt.pages) :
    Keeps page (change fun k => k.setTable i pt) fun _ => True :=
  Keeps.change fun _ hk => ⟨hk.used, fun hm => (maps_setTable hm).elim hk.unmapped h⟩

theorem keeps_pagedirCreate : Keeps page pagedirCreate fun _ => True := by
  refine Keeps.bind (keeps_pallocGetPage _) fun found hfound => ?_
  cases found with
  | none => exact Keeps.pure trivial
  | some p =>
      refine Keeps.bind (Keeps.change fun k hk => ⟨hk.used, ?_⟩) fun _ _ => Keeps.pure trivial
      rintro ⟨pd, hpd, hm⟩
      cases hpd
      rcases mem_dirPages.mp hm with rfl | ⟨_, _, _, h, _⟩
      · exact hfound _ rfl rfl
      · cases h

/-- **A page table** that is looked up for a user address does not have the page. -/
theorem keeps_lookupPage {vaddr : ℕ} (hlow : vaddr < physBase) (create : Bool) :
    Keeps page (lookupPage vaddr create) fun found => ∀ pt, found = some pt → page ∉ pt.pages := by
  have hno : pdNo vaddr < 768 := by
    have hbase : physBase = 3221225472 := rfl
    rw [pdNo]
    omega
  refine Keeps.bind (Keeps.fetch (Q := fun dir => ∀ pd, dir = some pd → page ∉ pd.pages) fun k hk pd hpd hm =>
    hk.unmapped ⟨pd, hpd, hm⟩) fun dir hdir => ?_
  cases dir with
  | none => exact Keeps.stop _
  | some pd =>
      refine Keeps.bind (Keeps.assert _) fun _ _ => ?_
      cases hpt : pd.tables (pdNo vaddr) with
      | some pt =>
          refine Keeps.pure fun pt' h hm => ?_
          cases h
          exact hdir pd rfl (mem_dirPages.mpr (.inr ⟨_, hno, pt, hpt, hm⟩))
      | none =>
          refine Keeps.ite ?_ (Keeps.pure fun _ h => by cases h)
          refine Keeps.bind (keeps_pallocGetPage _) fun found hfound => ?_
          cases found with
          | none => exact Keeps.pure fun _ h => by cases h
          | some p =>
              have hnew : page ∉ PageTable.pages ⟨p, fun _ => none⟩ := fun hm => by
                rcases mem_tablePages.mp hm with h | ⟨_, _, _, h, _⟩
                · exact hfound p rfl h.symm
                · cases h
              refine Keeps.bind (keeps_setTable hnew) fun _ _ => Keeps.pure fun pt h => ?_
              cases h
              exact hnew

theorem keeps_pagedirSetPage {kpage : ℕ} (hne : kpage ≠ page) (upage : ℕ) (writable : Bool) :
    Keeps page (pagedirSetPage upage kpage writable) fun _ => True := by
  refine Keeps.bind (Keeps.assert _) fun _ _ => Keeps.bind (Keeps.assert _) fun _ _ => ?_
  refine Keeps.bind (Keeps.assert _) fun _ hlow => Keeps.bind (Keeps.assert _) fun _ _ => ?_
  refine Keeps.after (Moves.fetch _) fun _ => Keeps.bind (Keeps.assert _) fun _ _ => ?_
  refine Keeps.bind (keeps_lookupPage (by simpa [isUserVaddr] using hlow) true) fun found hfound => ?_
  cases found with
  | none => exact Keeps.pure trivial
  | some pt =>
      refine Keeps.bind (Keeps.assert _) fun _ _ => ?_
      refine Keeps.bind (keeps_setTable fun hm => ?_) fun _ _ => Keeps.pure trivial
      rcases mem_setEntry hm with h | h
      · exact hfound pt rfl h
      · exact hne h.symm

/-- **Another page is mapped.** -/
theorem keeps_installPage {kpage : ℕ} (hne : kpage ≠ page) (upage : ℕ) (writable : Bool) :
    Keeps page (installPage upage kpage writable) fun _ => True := by
  have hget : Keeps page (pagedirGetPage upage) fun _ => True := by
    refine Keeps.bind (Keeps.assert _) fun _ hlow => ?_
    refine Keeps.bind (keeps_lookupPage (by simpa [isUserVaddr] using hlow) false) fun found _ => ?_
    cases found with
    | none => exact Keeps.pure trivial
    | some pt => exact Keeps.pure trivial
  refine Keeps.bind hget fun found _ => ?_
  cases found with
  | some _ => exact Keeps.pure trivial
  | none => exact keeps_pagedirSetPage hne upage writable

theorem keeps_pagedirDestroy {dir : Option PageDir} (h : ∀ pd, dir = some pd → page ∉ pd.pages) :
    Keeps page (pagedirDestroy dir) fun _ => True := by
  cases dir with
  | none => exact Keeps.pure trivial
  | some pd =>
      have hpages : ∀ p ∈ pd.pages, p ≠ page := by
        rintro p hp rfl
        exact h pd rfl hp
      rw [pagedirDestroy]
      generalize pd.pages = pages at hpages ⊢
      exact keeps_forEach hpages

/-! ## Loading -/

theorem keeps_loadPage (file : ℕ) (writable : Bool) (c : Counters) :
    Keeps page (loadPage file writable c) fun _ => True := by
  refine Keeps.bind (keeps_pallocGetPage _) fun found hfound => ?_
  cases found with
  | none => exact Keeps.pure trivial
  | some kpage =>
      have hfree : Keeps page (pallocFreePage kpage) fun _ => True := keeps_pallocFreePage (hfound kpage rfl)
      refine Keeps.after (pages_fileRead _ _ _) fun got => Keeps.ite ?_ ?_
      · exact Keeps.bind hfree fun _ _ => Keeps.pure trivial
      · refine Keeps.after (Moves.change fun _ => ⟨rfl, rfl⟩) fun _ => ?_
        refine Keeps.bind (keeps_installPage (hfound kpage rfl) _ _) fun installed _ => ?_
        exact Keeps.ite (Keeps.pure trivial) (Keeps.bind hfree fun _ _ => Keeps.pure trivial)

theorem keeps_loadPages (file : ℕ) (writable : Bool) : ∀ n c,
    Keeps page (loadPages file writable n c) fun _ => True := by
  intro n
  induction n with
  | zero => exact fun _ => Keeps.ite (Keeps.pure trivial) (Keeps.stop _)
  | succ n ih =>
      intro c
      refine Keeps.ite (Keeps.pure trivial) (Keeps.bind (keeps_loadPage file writable c) fun loaded _ => ?_)
      exact Keeps.ite (ih _) (Keeps.pure trivial)

theorem keeps_loadSegment (fuel file : ℕ) (args : SegmentArgs) :
    Keeps page (loadSegment fuel file args) fun _ => True := by
  refine Keeps.bind (Keeps.assert _) fun _ _ => Keeps.bind (Keeps.assert _) fun _ _ => ?_
  refine Keeps.bind (Keeps.assert _) fun _ _ => Keeps.after (pages_fileSeek _ _) fun _ => ?_
  exact keeps_loadPages _ _ _ _

theorem keeps_loadPhdrs (fuel file : ℕ) : ∀ n fileOfs,
    Keeps page (loadPhdrs fuel file n fileOfs) fun _ => True := by
  intro n
  induction n with
  | zero => exact fun _ => Keeps.pure trivial
  | succ n ih =>
      intro fileOfs
      refine Keeps.after (pages_fileLength file) fun length => Keeps.ite (Keeps.pure trivial) ?_
      refine Keeps.after (pages_fileSeek _ _) fun _ => Keeps.after (pages_readHeader _ _) fun header => ?_
      cases header with
      | none => exact Keeps.pure trivial
      | some pos =>
          refine Keeps.after (pages_imageOf file) fun image => Keeps.ite (Keeps.pure trivial) ?_
          refine Keeps.ite ?_ (ih _)
          have hphdr : Keeps page (loadPhdr fuel file (phdrAt image pos)) fun _ => True := by
            refine Keeps.after (pages_imageOf file) fun image => Keeps.ite ?_ (Keeps.pure trivial)
            exact keeps_loadSegment _ _ _
          exact Keeps.bind hphdr fun loaded _ => Keeps.ite (ih _) (Keeps.pure trivial)

theorem keeps_loadProgram (fuel file : ℕ) : Keeps page (loadProgram fuel file) fun _ => True := by
  refine Keeps.after (pages_readHeader _ _) fun header => ?_
  cases header with
  | none => exact Keeps.pure trivial
  | some pos =>
      refine Keeps.after (pages_imageOf file) fun image => Keeps.ite ?_ (Keeps.pure trivial)
      exact keeps_loadPhdrs _ _ _ _

theorem keeps_loadFile (fuel fileName : ℕ) : Keeps page (loadFile fuel fileName) fun _ => True := by
  refine Keeps.bind (keeps_pallocGetPage _) fun fnCopy _ => Keeps.after (pages_onMemory _) fun _ => ?_
  refine Keeps.after (pages_onMemory _) fun cut => Keeps.after (pages_nameAt _ _) fun name => ?_
  refine Keeps.after (pages_filesysOpen name) fun file => ?_
  cases file with
  | none => exact Keeps.pure trivial
  | some file => exact Keeps.bind (keeps_loadProgram fuel file) fun loaded _ => Keeps.pure trivial

theorem keeps_setupStack (fuel cmdLine : ℕ) : Keeps page (setupStack fuel cmdLine) fun _ => True := by
  refine Keeps.bind (keeps_pallocGetPage _) fun args _ => Keeps.after (pages_onMemory _) fun cut => ?_
  refine Keeps.after (pages_collectArgs _ _ _ _ _ _) fun counter => ?_
  cases counter with
  | none => exact Keeps.pure trivial
  | some counter =>
      refine Keeps.bind (keeps_pallocGetPage _) fun found hfound => ?_
      cases found with
      | none => exact Keeps.pure trivial
      | some kpage =>
          refine Keeps.bind (keeps_installPage (hfound kpage rfl) _ _) fun success _ => Keeps.ite ?_ ?_
          · refine Keeps.after (Moves.change fun _ => ⟨rfl, rfl⟩) fun _ => ?_
            refine Keeps.after (pages_pushArguments _ _ _) fun myEsp => ?_
            exact Keeps.after (Moves.change fun _ => ⟨rfl, rfl⟩) fun _ => Keeps.pure trivial
          · refine Keeps.bind (keeps_pallocFreePage (hfound kpage rfl)) fun _ _ => Keeps.pure trivial

/-- **`load`** keeps the page. -/
theorem keeps_load (fuel fileName : ℕ) : Keeps page (load fuel fileName) fun _ => True := by
  have hend : ∀ file success, Keeps page (finishLoad file success) fun _ => True := fun file success =>
    Keeps.of_moves (pages_finishLoad file success)
  refine Keeps.bind keeps_pagedirCreate fun created _ => Keeps.ite ?_ (hend _ _)
  refine Keeps.bind (keeps_loadFile fuel fileName) fun result _ => Keeps.ite ?_ (hend _ _)
  have hstack : Keeps page (loadStack fuel fileName) fun _ => True :=
    Keeps.bind (keeps_pallocGetPage _) fun _ _ => Keeps.after (pages_onMemory _) fun _ =>
      keeps_setupStack _ _
  exact Keeps.bind hstack fun success _ => hend _ _

/-- **The end of a process** keeps the page. -/
theorem keeps_threadExit {thread : ℕ} (hne : thread ≠ page) : Keeps page (threadExit thread) fun _ => True := by
  have hexit : Keeps page processExit fun _ => True := by
    refine Keeps.after (Moves.fetch _) fun file => Keeps.after (pages_fileClose file) fun _ => ?_
    refine Keeps.bind (Keeps.fetch (Q := fun dir => ∀ pd, dir = some pd → page ∉ pd.pages)
      fun k hk pd hpd hm => hk.unmapped ⟨pd, hpd, hm⟩) fun dir hdir => ?_
    refine Keeps.bind (Keeps.change fun k hk => ⟨hk.used, not_maps_of_none rfl page⟩) fun _ _ => ?_
    exact keeps_pagedirDestroy hdir
  exact Keeps.bind hexit fun _ _ => keeps_pallocFreePage hne

end Functions

/-! ## The page that is lost -/

section Lost

variable {k k' : Kernel} {fuel : ℕ} {fileName : List UInt8} {user : Code Unit}

/-- What comes after the page of the thread was made. -/
theorem execute_of_refused (h : processExecute fuel fileName k = .ok none k') :
    execute fuel fileName user k = .ok () k' := by
  have hspawn : spawn fuel fileName k = .ok .refused k' := by
    rw [spawn, bind_of_ok h]
    rfl
  rw [execute, bind_of_ok hspawn]
  rfl

/-- The child, up to its end. -/
theorem execute_of_thread {fnCopy thread : ℕ}
    (h : processExecute fuel fileName k = .ok (some (fnCopy, thread)) k') :
    execute fuel fileName user k = (startProcess fuel fnCopy >>= fun success =>
      if success then user >>= fun _ => threadExit thread else threadExit thread) k'.newThread := by
  rw [execute, spawn]
  cases hstart : startProcess fuel fnCopy k'.newThread with
  | ok success k1 =>
      have hspawn : spawn fuel fileName k = .ok (if success then .started thread else .failed thread) k1 := by
        rw [spawn, bind_of_ok h]
        simp only []
        rw [change_bind, bind_of_ok hstart]
        rfl
      rw [spawn] at hspawn
      rw [bind_of_ok hspawn, bind_of_ok hstart]
      cases success <;> rfl
  | error e k1 =>
      have hspawn : spawn fuel fileName k = .error e k1 := by
        rw [spawn, bind_of_ok h]
        simp only []
        rw [change_bind, bind_of_error hstart]
      rw [spawn] at hspawn
      rw [bind_of_error hspawn, bind_of_error hstart]

/-- **The second copy of the command line** is still taken when the process is gone. -/
theorem execute_keeps {fnCopy argOne inode : ℕ} {mem : Memory} (huser : ∀ page, Keeps page user fun _ => True)
    (hfn : k.found = some fnCopy) (harg : (k.afterGet {}).found = some argOne)
    (hopened : processExecute fuel fileName k = executeThread fnCopy (k.opened mem inode))
    (hrun : execute fuel fileName user k = .ok () k') : argOne ∈ k'.used := by
  obtain ⟨hramFn, -⟩ := Kernel.found_some hfn
  have hused1 : (k.afterGet {}).used = fnCopy :: k.used := used_afterGet_of_some hfn
  have hused : (k.opened mem inode).used = argOne :: fnCopy :: k.used := by
    show ((k.afterGet {}).afterGet {}).used = _
    rw [used_afterGet_of_some harg, hused1]
  have hram : (k.opened mem inode).initRamPages = k.initRamPages :=
    ((grown_afterGet k {}).trans (grown_afterGet (k.afterGet {}) {})).initRamPages_eq
  have hne : fnCopy ≠ argOne := fun e => (Kernel.found_some harg).2 (by rw [hused1, e]; exact List.mem_cons_self)
  have htaken : argOne ∈ (k.opened mem inode).used := by
    rw [hused]
    exact List.mem_cons_self
  have hcases := executeThread_cases (k := k.opened mem inode) (hram ▸ hramFn)
    (by rw [hused]; exact List.mem_cons_of_mem _ List.mem_cons_self)
  rcases hcases with ⟨hnone, hthread⟩ | ⟨-, -, k1, hthread⟩ | ⟨thread, hfound, -, hthread⟩
  · -- no page for the thread: one copy is given back
    cases (execute_of_refused (hopened.trans hthread)).symm.trans hrun
    rw [Kernel.freed]
    exact (List.mem_erase_of_ne hne.symm).mpr ((grown_afterGet _ _).used htaken)
  · have hspawn : spawn fuel fileName k = .error .kernelBug k1 := by
      rw [spawn, bind_of_error (hopened.trans hthread)]
    have h : execute fuel fileName user k = .error .kernelBug k1 := by
      rw [execute, bind_of_error hspawn]
    cases h.symm.trans hrun
  · -- the child gives back its own copy, its pages and the page of its thread
    rw [execute_of_thread (hopened.trans hthread)] at hrun
    have hthreadNe : thread ≠ argOne := fun e => (Kernel.found_some hfound).2 (e ▸ htaken)
    have hstart : Keeps argOne (startProcess fuel fnCopy) fun _ => True :=
      Keeps.bind (keeps_load fuel fnCopy) fun _ _ =>
        Keeps.bind (keeps_pallocFreePage hne) fun _ _ => Keeps.pure trivial
    have hexit : Keeps argOne (threadExit thread) fun _ => True := keeps_threadExit hthreadNe
    have hlife := Keeps.bind hstart fun success _ =>
      Keeps.ite (c := success = true) (Keeps.bind (huser argOne) fun _ _ => hexit) hexit
    have hkept : Kept argOne (Kernel.newThread { (k.opened mem inode).afterGet { zero := true } with
        mallocs := (k.opened mem inode).mallocs + 1 }) :=
      ⟨(grown_afterGet _ { zero := true }).used htaken, not_maps_of_none rfl argOne⟩
    have hends := hlife _ hkept
    rw [hrun] at hends
    exact hends.1.used

/-- **What is left of `process_execute`**: nothing, exactly when it returns before the executable is
open.  After that the second copy of the command line is never given back. -/
theorem execute_leaves_nothing_iff (hf : pgSize ≤ fuel) (hz : 0 ∉ fileName)
    (huser : ∀ page, Keeps page user fun _ => True) (hrun : execute fuel fileName user k = .ok () k') :
    NothingLeft k k' ↔ k.Refuses fileName := by
  constructor
  · intro hnothing
    by_contra hrefuses
    rcases processExecute_opened hf hz hrefuses with ⟨-, k1, hstop⟩ |
      ⟨fnCopy, argOne, inode, mem, name, -, -, hfn, harg, -, hopened⟩
    · have hspawn : spawn fuel fileName k = .error .assertFailed k1 := by
        rw [spawn, bind_of_error hstop]
      have h : execute fuel fileName user k = .error .assertFailed k1 := by
        rw [execute, bind_of_error hspawn]
      cases h.symm.trans hrun
    · have hlost : argOne ∉ k.used := fun h =>
        (Kernel.found_some harg).2 ((grown_afterGet k {}).used h)
      exact hlost ((hnothing.pages argOne).mp (execute_keeps huser hfn harg hopened hrun))
  · intro hrefuses
    obtain ⟨k1, hrefused, hnothing⟩ := processExecute_refused hf hz hrefuses
    cases (execute_of_refused hrefused).symm.trans hrun
    exact hnothing

end Lost

/-! ## A call that loses a page -/

/-- A kernel with two free pages, and a file `a`. -/
def twoPagesKernel : Kernel where
  mem _ := 0
  initRamPages := 1024
  answers n := if n < 2 then some (physBase + 0x101000 + pgSize * n) else none
  asked := 0
  used := []
  heap _ := true
  mallocs := 0
  rootDir name := if name = [0x61] then some 0 else none
  image _ := ⟨0, fun _ => 0⟩
  openCnt _ := 0
  denyWriteCnt _ := 0
  files _ := none
  nextFile := 0
  pagedir := none
  execFile := none
  esp := 0
  userStores := []

theorem twoPagesKernel_opens : ¬ twoPagesKernel.Refuses [0x61] := by
  rintro (h | h | h | ⟨name, hname, h⟩)
  · exact absurd h (by decide +kernel)
  · exact absurd h (by decide +kernel)
  · exact absurd h (by decide)
  · cases hname.symm.trans (show command [0x61] = some [0x61] by decide)
    exact absurd h (by decide)

/-- There is no page for the thread, and one of the two pages is not given back. -/
theorem twoPagesKernel_run : ∃ k', execute pgSize [0x61] (pure ()) twoPagesKernel = .ok () k' ∧
    ∃ page ∈ k'.used, page ∉ twoPagesKernel.used := by
  rcases processExecute_opened (k := twoPagesKernel) le_rfl (by decide) twoPagesKernel_opens with ⟨h, -⟩ |
    ⟨fnCopy, argOne, inode, mem, name, -, -, hfn, harg, -, hopened⟩
  · exact absurd h (by decide)
  · have hnone : (twoPagesKernel.opened mem inode).found = none := by
      show ((twoPagesKernel.afterGet {}).afterGet {}).found = none
      decide +kernel
    obtain ⟨hramFn, -⟩ := Kernel.found_some hfn
    have hused : (twoPagesKernel.opened mem inode).used = [argOne, fnCopy] := by
      show ((twoPagesKernel.afterGet {}).afterGet {}).used = _
      rw [used_afterGet_of_some harg, used_afterGet_of_some hfn]
      rfl
    have hram : (twoPagesKernel.opened mem inode).initRamPages = twoPagesKernel.initRamPages :=
      ((grown_afterGet twoPagesKernel {}).trans (grown_afterGet (twoPagesKernel.afterGet {}) {})).initRamPages_eq
    rcases executeThread_cases (k := twoPagesKernel.opened mem inode) (hram ▸ hramFn)
      (by rw [hused]; simp) with ⟨-, hthread⟩ | ⟨h, -⟩ | ⟨thread, h, -⟩
    · have hrun : execute pgSize [0x61] (pure ()) twoPagesKernel = _ :=
        execute_of_refused (hopened.trans hthread)
      exact ⟨_, hrun, argOne, execute_keeps (fun _ => Keeps.pure trivial) hfn harg hopened hrun,
        List.not_mem_nil⟩
    · exact absurd hnone h
    · cases hnone.symm.trans h

theorem execute_leaves_nothing_iff_small : ∃ k', execute pgSize [0x61] (pure ()) twoPagesKernel = .ok () k' ∧
    (NothingLeft twoPagesKernel k' ↔ twoPagesKernel.Refuses [0x61]) := by
  obtain ⟨k', hrun, -⟩ := twoPagesKernel_run
  exact ⟨k', hrun, execute_leaves_nothing_iff le_rfl (by decide) (fun _ => Keeps.pure trivial) hrun⟩

/-- **A page is lost**, for a command line of one character. -/
theorem execute_leaks : ¬ ∀ (fuel : ℕ) (fileName : List UInt8) (user : Code Unit) (k k' : Kernel),
    pgSize ≤ fuel → 0 ∉ fileName → (∀ page, Keeps page user fun _ => True) →
      execute fuel fileName user k = .ok () k' → NothingLeft k k' := by
  intro h
  obtain ⟨k', hrun, page, hlost, hfree⟩ := twoPagesKernel_run
  have hnothing := h _ _ _ _ _ le_rfl (by decide) (fun _ => Keeps.pure trivial) hrun
  exact hfree ((hnothing.pages page).mp hlost)

end Pintos.Userprog
