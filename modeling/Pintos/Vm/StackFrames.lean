import Pintos.Vm.FaultHandler

/-!
# The frames of a new stack

`setup_stack` of `vm_PintOS/userprog/process.c` asks `get_frame` for a page for the array `args`, for
pages that are meant for a longer stack, and for the page of the stack.  Only the last one is mapped.
**The page of `args` is neither mapped nor freed**, whatever the command line is.

* **`getFrame_new`** — a frame is a new one, and it is in the list of what was handed out.
* **`setupStack_loses_frame`** — the page of `args`, when `setup_stack` has returned true.
-/

namespace Pintos.Vm

open Lib

variable {b : Prop} {L : List (PoolName × ℕ)} {s s' : Kernel} {fuel : ℕ} {cmdline : List UInt8}

/-! ## What was handed out -/

theorem handed_of_touchless {α : Type} {m : Code α} (h : Touchless m) (s : Kernel) :
    Ends (m s) (fun _ s' => s'.handed = s.handed) fun _ s' => s'.handed = s.handed :=
  (h s).mono (fun _ _ hs => hs.handed) fun _ _ hs => hs.handed

/-- After a command that does not return there is nothing to show. -/
theorem ends_never {β : Type} (m : Code Empty) (f : Empty → Code β) (s : Kernel) {Q : β → Kernel → Prop} :
    Ends ((m >>= f) s) Q fun _ _ => True := by
  cases e : m s with
  | ok a s' => exact a.elim
  | error x s' =>
      rw [bind_of_error e]
      exact trivial

theorem recordFrame_handed (fuel : ℕ) (r : Option ℕ) (s : Kernel) :
    Ends (recordFrame fuel r s) (fun _ s' => s'.handed = s.handed ++ r.toList) fun _ _ => True := by
  cases r with
  | none => exact (List.append_nil _).symm
  | some page =>
      exact ends_malloc (Ends.ite (fun _ => rfl) fun _ => ends_never _ _ _)

/-- **A frame is a new one**, and what was handed out before still is. -/
theorem getFrame_new (h : Owned b L s) (fuel : ℕ) (flags : PallocFlags) :
    Ends (getFrame fuel flags s) (fun r s' => Owned b (gain flags.pool r L) s' ∧
      s'.handed = s.handed ++ r.toList ∧ ∀ p, r = some p → p ∉ s.handed) fun _ _ => True := by
  have hany : ∀ {E : Stop → Kernel → Prop} (e : Stop) (s' : Kernel), E e s' → True := fun _ _ _ => trivial
  unfold getFrame
  have hlock := ((Touchless.lockAcquire .frame).owned h).and
    (handed_of_touchless (Touchless.lockAcquire .frame) s)
  refine Ends.bind (hlock.mono (fun _ _ => id) hany) fun _ s1 h1 => ?_
  obtain ⟨h1, he1⟩ := h1
  have hfind : Ends (findPage flags s1) (fun r s2 => Owned b (gain flags.pool r L) s2 ∧
      s2.handed = s.handed ∧ ∀ p, r = some p → p ∉ s.handed) fun _ _ => True := by
    unfold findPage
    have hget := (pallocGetPage_spec h1 flags).and ((Aside.pallocGetPage flags).ends s1)
    refine Ends.bind (hget.mono (fun _ _ => id) hany) fun r s2 h2 => ?_
    obtain ⟨⟨h2, -, -, hnew⟩, he2⟩ := h2
    have he : s2.handed = s.handed := he2.handed.trans he1
    cases r with
    | some page => exact ⟨h2, he, he ▸ hnew⟩
    | none =>
        exact Ends.bind ((evictFrame_stops h2).mono (fun _ _ => id) hany) fun _ _ => False.elim
  refine hfind.bind fun r s2 h2 => ?_
  obtain ⟨h2, he2, hnew⟩ := h2
  have hrecord := (recordFrame_spec h2 (fun p hp => he2 ▸ hnew p hp) fuel).and (recordFrame_handed fuel r s2)
  refine Ends.bind (hrecord.mono (fun _ _ => id) hany) fun _ s3 h3 => ?_
  have hrelease := ((Touchless.lockRelease .frame).owned h3.1).and
    (handed_of_touchless (Touchless.lockRelease .frame) s3)
  refine Ends.bind (hrelease.mono (fun _ _ => id) hany) fun _ s4 h4 => ?_
  exact ⟨h4.1, by rw [h4.2, h3.2, he2], hnew⟩

/-! ## The stack -/

/-- **The page of `args`** is handed out, and when `setup_stack` has returned true it is still allocated,
but not mapped. -/
theorem setupStack_loses_frame (h : Owned b L s) (hrun : setupStack fuel cmdline s = .ok true s') :
    ∃ page, page ∈ s'.handed ∧ page ∉ s.handed ∧ ∀ t, ¬ Maps s' t page := by
  have hany : ∀ {E : Stop → Kernel → Prop} (e : Stop) (s' : Kernel), E e s' → True := fun _ _ _ => trivial
  have hends : Ends (setupStack fuel cmdline s) (fun done s' => done = true →
      ∃ page, page ∈ s'.handed ∧ page ∉ s.handed ∧ ∀ t, ¬ Maps s' t page) fun _ _ => True := by
    have hargs : Ends (getFrameOrDie fuel {} s) (fun page s1 => Owned b ((.kernel, page) :: L) s1 ∧
        page ∈ s1.handed ∧ page ∉ s.handed) fun _ _ => True := by
      refine (getFrame_new h fuel {}).bind fun r s1 h1 => ?_
      cases r with
      | some page =>
          refine ⟨h1.1, ?_, h1.2.2 page rfl⟩
          rw [h1.2.1]
          exact List.mem_append_right _ List.mem_cons_self
      | none => exact ends_never _ _ _
    refine hargs.bind fun page s1 h1 => ?_
    obtain ⟨h1, hin, hnew⟩ := h1
    refine Ends.ite (fun _ => trivial) fun _ => ?_
    let I : Kernel → Prop := fun s2 => Owned b ((.kernel, page) :: L) s2 ∧ page ∈ s2.handed
    have hspare : Ends (forEach (fun _ : ℕ => do
        let _ ← getFrame fuel { user := true, zero := true })
        (List.range ((tokens cmdline).length / 5 - 1)) s1) (fun _ => I) fun _ _ => True := by
      refine Ends.forEach (I := fun _ => I) (fun _ _ s2 h2 => ?_) ⟨h1, hin⟩
      refine (getFrame_new h2.1 fuel { user := true, zero := true }).bind fun r s3 h3 => ?_
      have hstill : page ∈ s3.handed := by
        rw [h3.2.1]
        exact List.mem_append_left _ h2.2
      cases r with
      | none => exact ⟨h3.1, hstill⟩
      | some q => exact ⟨h3.1.tail, hstill⟩
    refine hspare.bind fun _ s2 h2 => ?_
    refine (getFrame_new h2.1 fuel { user := true, zero := true }).bind fun r s3 h3 => ?_
    cases r with
    | none => exact fun h => by cases h
    | some kpage =>
        have hstill : page ∈ s3.handed := by
          rw [h3.2.1]
          exact List.mem_append_left _ h2.2
        have hinstall := (installPage_spec h3.1 (physBase - pgSize) true).and
          ((Aside.installPage (physBase - pgSize) kpage true).ends s3)
        refine Ends.bind (hinstall.mono (fun _ _ => id) hany) fun done s4 h4 => ?_
        cases done with
        | false =>
            refine Ends.bind (Q := fun _ _ => True) ?_ fun _ _ _ h => by cases h
            cases freeFrame kpage s4 <;> exact trivial
        | true =>
            have hstores : Touchless (forEach (userStore fuel) (stackStores (tokens cmdline))) :=
              Touchless.forEach (fun store => .userStore fuel store) _
            have hstored := (hstores.owned h4.1).and (handed_of_touchless hstores s4)
            refine Ends.bind (hstored.mono (fun _ _ => id) hany) fun _ s5 h5 _ => ?_
            refine ⟨page, ?_, hnew, fun t hm => ?_⟩
            · rw [h5.2, h4.2.handed]
              exact hstill
            · obtain ⟨i, j, href⟩ := hm.refPage
              exact h5.1.localFree List.mem_cons_self _ href
  rw [hrun] at hends
  exact hends rfl

/-- A byte of the memory of the running process. -/
def Kernel.userByte (s : Kernel) (a : ℕ) : Option UInt8 :=
  (s.mapping a).map fun pte => s.mem (pte.kpage + a % pgSize)

/-- The stack pointer that `setup_stack` leaves: the number of arguments is stored last, and then the
pointer goes down by four. -/
def stackPointer (args : List (List UInt8)) : ℕ := (((stackStores args).getLast?).map (·.1)).getD 0 - 4

/-- The word above the stack pointer is the number of words of the command line, and every frame that was
handed out by `get_frame` meanwhile, and not freed, is mapped. -/
structure StackOk (s s' : Kernel) (cmdline : List UInt8) : Prop where
  argc : ∀ k < 4, s'.userByte (stackPointer (tokens cmdline) + 4 + k) =
    some (UInt8.ofNat ((tokens cmdline).length / 256 ^ k))
  frames : ∀ page ∈ s'.handed, page ∉ s.handed → Maps s' s'.current page

/-- **A frame is lost by every call of `setup_stack` that returns true.** -/
theorem setupStack_not_ok (h : Owned b L s) (hrun : setupStack fuel cmdline s = .ok true s') :
    ¬ StackOk s s' cmdline := by
  intro hok
  obtain ⟨page, hin, hnew, hunmapped⟩ := setupStack_loses_frame h hrun
  exact hunmapped _ (hok.frames page hin hnew)

/-! ## A process with an argument -/

/-- The kernel in which a program gets its stack. -/
def stackKernel : Kernel := final (pagedirCreate smallKernel)

/-- The command line `ab c`. -/
def twoWords : List UInt8 := [0x61, 0x62, 0x20, 0x63]

theorem stackKernel_owned : Owned True [] stackKernel := by
  have hspec := pagedirCreate_spec booted_smallKernel.owned
  rw [eq_ok_of_trueReturned (show trueReturned (pagedirCreate smallKernel) = true by decide +kernel)] at hspec
  exact hspec

theorem stackKernel_run :
    setupStack 1 twoWords stackKernel = .ok true (final (setupStack 1 twoWords stackKernel)) :=
  eq_ok_of_trueReturned (by decide +kernel)

theorem stackKernel_not_ok : tokens twoWords = [[0x61, 0x62], [0x63]] ∧
    ¬ StackOk stackKernel (final (setupStack 1 twoWords stackKernel)) twoWords :=
  ⟨by decide +kernel, setupStack_not_ok stackKernel_owned stackKernel_run⟩

/-- **The page of `args` is lost**, for a command line of two words. -/
theorem stackKernel_loses_frame : ¬ ∀ (s s' : Kernel) (fuel : ℕ) (cmdline : List UInt8), Owned True [] s →
    setupStack fuel cmdline s = .ok true s' → StackOk s s' cmdline := by
  intro h
  have hok := h _ _ _ _ stackKernel_owned stackKernel_run
  obtain ⟨page, hin, hnew, hunmapped⟩ := setupStack_loses_frame stackKernel_owned stackKernel_run
  exact hunmapped _ (hok.frames page hin hnew)

end Pintos.Vm
