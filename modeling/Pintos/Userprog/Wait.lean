import Mathlib.Tactic
import Pintos.Lib.Runs

/-!
# The wait protocol

`thread_create`, the end of a thread and `process_wait` of `fs_PintOS`, in any interleaving.

A parent learns the status of a child through a record on the heap that neither frees: the child
writes its status there and ups `sema_dead`, the parent has the record in its `children_list` until
it waits for the child.  A step is what a thread does between two points where another thread may
run, so that the tests of the loop in `sema_down` are steps of their own.

* Memory for threads and records does not run out, and the identifiers of `allocate_tid` do not
  overflow.
* `History` is not in the source: it says what has happened so far.

* **`Ok`** — the invariant, with one lemma per step.
* **`processWait_protocol`** — what `process_wait` guarantees in every reachable state.
-/

namespace Pintos.Userprog.Wait

/-- `struct child_info`, with the semaphore `sema_dead`. -/
structure ChildInfo where
  tid : ℤ
  exitStatus : ℤ
  value : ℕ
  waiters : List ℤ
deriving DecidableEq, Repr

/-- Where a thread is. -/
inductive Mode where
  | running
  /-- In `thread_create`, after `allocate_tid`. -/
  | creating (tid : ℤ)
  /-- In `thread_create`, after `thread_unblock`. -/
  | created (tid : ℤ)
  /-- In `process_wait`, before a test of `sema_dead`. -/
  | waiting (childTid : ℤ) (info : ℕ)
  /-- In `process_wait`, blocked on `sema_dead`. -/
  | blocked (childTid : ℤ) (info : ℕ)
  /-- In `process_wait`, after `sema_down`. -/
  | collecting (childTid : ℤ) (info : ℕ)
  /-- In `thread_exit`, before `sema_up`. -/
  | exiting
  /-- In `thread_exit`, after `sema_up`. -/
  | dying
deriving DecidableEq, Repr

/-- How a thread has ended: with the `exit` system call, or otherwise. -/
inductive Way where
  | exit (arg : ℤ)
  | died
deriving DecidableEq, Repr

/-- The status that goes with it. -/
def Way.status : Way → ℤ
  | .exit arg => if arg < -1 then -1 else arg
  | .died => -1

/-- What has happened so far. -/
structure History where
  /-- The thread that created a thread. -/
  creator : ℤ → Option ℤ
  /-- How a thread has ended. -/
  way : ℤ → Option Way
  /-- The thread has announced its end. -/
  terminated : ℤ → Bool
  /-- The thread that created it has called `process_wait` for it. -/
  waited : ℤ → Bool
  /-- Its `sema_dead` has been downed. -/
  taken : ℤ → Bool
  /-- What calls of `process_wait` for it have returned after they had waited. -/
  returned : ℤ → List ℤ

/-- The threads, by their identifiers, and the records, by their addresses. -/
structure Kernel where
  nextTid : ℤ
  /-- The threads that there are, and where they are. -/
  mode : ℤ → Option Mode
  myInfo : ℤ → Option ℕ
  childrenList : ℤ → List ℕ
  infos : ℕ → Option ChildInfo
  history : History

/-! ## The code -/

/-- The thread goes on. -/
def Kernel.goOn (k : Kernel) (p : ℤ) (mode : Mode) : Kernel :=
  { k with mode := Function.update k.mode p (some mode) }

/-- A record is written. -/
def Kernel.setInfo (k : Kernel) (a : ℕ) (info : ChildInfo) : Kernel :=
  { k with infos := Function.update k.infos a (some info) }

/-- `allocate_tid`, in `thread_create`. -/
def allocate (p : ℤ) (k : Kernel) : Option Kernel :=
  if k.mode p = some .running ∧ k.nextTid < 2 ^ 31 then
    some { k.goOn p (.creating k.nextTid) with nextTid := k.nextTid + 1 }
  else none

/-- The child `tid` of `p`, with its record at `a`, is there. -/
def Kernel.addChild (k : Kernel) (p tid : ℤ) (a : ℕ) : Kernel :=
  { k with
    mode := Function.update (Function.update k.mode tid (some .running)) p (some (.created tid))
    myInfo := Function.update k.myInfo tid (some a)
    childrenList :=
      Function.update (Function.update k.childrenList tid []) p (k.childrenList p ++ [a])
    infos := Function.update k.infos a (some ⟨tid, -1, 0, []⟩)
    history.creator := Function.update k.history.creator tid (some p) }

/-- The rest of `thread_create`, where `a` is the address that `malloc` gives. -/
def publish (p : ℤ) (a : ℕ) (k : Kernel) : Option Kernel :=
  match k.mode p, k.infos a with
  | some (.creating tid), none => some (k.addChild p tid a)
  | _, _ => none

/-- `thread_create` returns. -/
def createReturns (p : ℤ) (k : Kernel) : Option Kernel :=
  match k.mode p with
  | some (.created _) => some (k.goOn p .running)
  | _ => none

/-- The thread is in `thread_exit`. -/
def Kernel.leave (k : Kernel) (p : ℤ) (way : Way) : Kernel :=
  { k.goOn p .exiting with history.way := Function.update k.history.way p (some way) }

/-- `my_exit` and `exit_status`, up to `thread_exit`. -/
def myExit (p : ℤ) (arg : ℤ) (k : Kernel) : Option Kernel :=
  match k.mode p, k.myInfo p with
  | some .running, some a => (k.infos a).map fun info =>
      (k.setInfo a { info with exitStatus := if arg < -1 then -1 else arg }).leave p (.exit arg)
  | _, _ => none

/-- `thread_exit` of a thread that has not called `exit`. -/
def die (p : ℤ) (k : Kernel) : Option Kernel :=
  if k.mode p = some .running then some (k.leave p .died) else none

/-- `thread_unblock` of the first thread that waits, if there is one: where the threads are. -/
def unblockFirst (mode : ℤ → Option Mode) : List ℤ → ℤ → Option Mode
  | [] => mode
  | w :: _ => match mode w with
    | some (.blocked childTid a) => Function.update mode w (some (.waiting childTid a))
    | _ => mode

/-- `sema_up (&cur->my_info->sema_dead)`, in `process_exit`. -/
def announce (p : ℤ) (k : Kernel) : Option Kernel :=
  match k.mode p, k.myInfo p with
  | some .exiting, some a => (k.infos a).map fun info =>
      { k with
        mode := Function.update (unblockFirst k.mode info.waiters) p (some .dying)
        infos := Function.update k.infos a (some { info with
          value := info.value + 1, waiters := info.waiters.tail })
        history.terminated := Function.update k.history.terminated p true }
  | _, _ => none

/-- The page of a thread is freed. -/
def free (p : ℤ) (k : Kernel) : Option Kernel :=
  if k.mode p = some .dying then some { k with mode := Function.update k.mode p none } else none

/-- The call is noted, if it is for a child. -/
def History.ask (h : History) (p childTid : ℤ) : History :=
  if h.creator childTid = some p then { h with waited := Function.update h.waited childTid true }
  else h

/-- `process_wait`, up to `sema_down`: the value, if it returns. -/
def processWait (p childTid : ℤ) (k : Kernel) : Option (Option ℤ × Kernel) :=
  if k.mode p = some .running then
    match (k.childrenList p).find? fun a => (k.infos a).any fun info => info.tid = childTid with
    | none => some (some (-1), { k with history := k.history.ask p childTid })
    | some a => some (none, { k.goOn p (.waiting childTid a) with
        childrenList := Function.update k.childrenList p ((k.childrenList p).erase a)
        history := k.history.ask p childTid })
  else none

/-- One test of the loop in `sema_down`. -/
def semaDown (p : ℤ) (k : Kernel) : Option Kernel :=
  match k.mode p with
  | some (.waiting childTid a) => (k.infos a).map fun info =>
      if info.value = 0 then
        (k.setInfo a { info with waiters := info.waiters ++ [p] }).goOn p (.blocked childTid a)
      else
        { (k.setInfo a { info with value := info.value - 1 }).goOn p (.collecting childTid a) with
          history.taken := Function.update k.history.taken childTid true }
  | _ => none

/-- The end of `process_wait`: the value returned. -/
def collect (p : ℤ) (k : Kernel) : Option (ℤ × Kernel) :=
  match k.mode p with
  | some (.collecting childTid a) => (k.infos a).map fun info =>
      (info.exitStatus, { k.goOn p .running with
        history.returned := Function.update k.history.returned childTid
          (k.history.returned childTid ++ [info.exitStatus]) })
  | _ => none

/-- A step of a thread. -/
inductive Step (k : Kernel) : Kernel → Prop
  | allocate {k' : Kernel} (p : ℤ) (h : allocate p k = some k') : Step k k'
  | publish {k' : Kernel} (p : ℤ) (a : ℕ) (h : publish p a k = some k') : Step k k'
  | createReturns {k' : Kernel} (p : ℤ) (h : createReturns p k = some k') : Step k k'
  | myExit {k' : Kernel} (p arg : ℤ) (h : myExit p arg k = some k') : Step k k'
  | die {k' : Kernel} (p : ℤ) (h : die p k = some k') : Step k k'
  | announce {k' : Kernel} (p : ℤ) (h : announce p k = some k') : Step k k'
  | free {k' : Kernel} (p : ℤ) (h : free p k = some k') : Step k k'
  | processWait {k' : Kernel} {r : Option ℤ} (p childTid : ℤ)
      (h : processWait p childTid k = some (r, k')) : Step k k'
  | semaDown {k' : Kernel} (p : ℤ) (h : semaDown p k = some k') : Step k k'
  | collect {k' : Kernel} {v : ℤ} (p : ℤ) (h : collect p k = some (v, k')) : Step k k'

/-- The kernel before any thread has been created: the initial thread runs, and it has no record. -/
def start : Kernel where
  nextTid := 2
  mode t := if t = 1 then some .running else none
  myInfo _ := none
  childrenList _ := []
  infos _ := none
  history := ⟨fun _ => none, fun _ => none, fun _ => false, fun _ => false, fun _ => false,
    fun _ => []⟩

/-- The states of a run. -/
def Reachable (k : Kernel) : Prop := Lib.Reaches Step start k

/-! ## The invariant -/

/-- There has never been such a thread. -/
structure Kernel.Unknown (k : Kernel) (t : ℤ) : Prop where
  absent : k.mode t = none
  orphan : k.history.creator t = none
  childless : ∀ c, k.history.creator c ≠ some t

/-- Identifiers that have not been given out, and those of threads that are being made. -/
structure Births (k : Kernel) : Prop where
  unborn : ∀ t, k.nextTid ≤ t → k.Unknown t
  creating : ∀ p t, k.mode p = some (.creating t) → t < k.nextTid ∧ k.Unknown t
  creatingOne : ∀ p q t, k.mode p = some (.creating t) → k.mode q = some (.creating t) → p = q

/-- The record of a child. -/
def Kernel.Info (k : Kernel) (a : ℕ) (tid : ℤ) : Prop := (k.infos a).map ChildInfo.tid = some tid

/-- **Each child has one record**, in the list of its parent until the parent has waited. -/
structure Records (k : Kernel) : Prop where
  infoOf : ∀ a t, k.Info a t → k.history.creator t ≠ none
  infoOne : ∀ a b t, k.Info a t → k.Info b t → a = b
  infoOfChild : ∀ t, k.history.creator t ≠ none → ∃ a, k.Info a t
  mine : ∀ t a, k.mode t ≠ none → k.myInfo t = some a → k.Info a t
  nodup : ∀ p, k.mode p ≠ none → (k.childrenList p).Nodup
  list : ∀ p, k.mode p ≠ none → ∀ a, a ∈ k.childrenList p ↔
    ∃ t, k.Info a t ∧ k.history.creator t = some p ∧ k.history.waited t = false

/-- **What a record says.** -/
structure Status (k : Kernel) : Prop where
  status : ∀ a info, k.infos a = some info →
    info.exitStatus = (k.history.way info.tid).elim (-1) Way.status
  value : ∀ a info, k.infos a = some info → info.value =
    if k.history.terminated info.tid = true ∧ k.history.taken info.tid = false then 1 else 0

/-- The ends of threads. -/
structure Deaths (k : Kernel) : Prop where
  ended : ∀ t, k.history.terminated t = true → k.history.way t ≠ none
  exiting : ∀ t, k.mode t = some .exiting →
    k.history.terminated t = false ∧ k.history.way t ≠ none
  alive : ∀ t m, k.mode t = some m → m ≠ .exiting → m ≠ .dying → k.history.way t = none
  dying : ∀ t, k.mode t = some .dying → k.history.terminated t = true
  blank : ∀ t, k.history.creator t = none → k.history.waited t = false ∧
    k.history.terminated t = false ∧ (k.mode t = none → k.history.way t = none)

/-- **The calls of `process_wait`**: at most one for a child gets past the list, and it is blocked
only as long as the child has not announced its end. -/
structure Calls (k : Kernel) : Prop where
  waiting : ∀ p t a, (k.mode p = some (.waiting t a) ∨ k.mode p = some (.blocked t a)) →
    k.Info a t ∧ k.history.creator t = some p ∧ k.history.waited t = true ∧
      k.history.taken t = false
  blocked : ∀ p t a, k.mode p = some (.blocked t a) → k.history.terminated t = false ∧
    ∀ info, k.infos a = some info → info.waiters = [p]
  waiters : ∀ a info, k.infos a = some info → ∀ w ∈ info.waiters,
    k.mode w = some (.blocked info.tid a)
  collecting : ∀ p t a, k.mode p = some (.collecting t a) → k.Info a t ∧
    k.history.creator t = some p ∧ k.history.taken t = true ∧ k.history.returned t = []
  taken : ∀ t, k.history.taken t = true → k.history.terminated t = true ∧ k.history.waited t = true
  returned : ∀ t v, v ∈ k.history.returned t → k.history.taken t = true ∧
    ∃ way, k.history.way t = some way ∧ v = way.status
  once : ∀ t, (k.history.returned t).length ≤ 1

/-- **The invariant.** -/
structure Ok (k : Kernel) : Prop where
  births : Births k
  records : Records k
  status : Status k
  deaths : Deaths k
  calls : Calls k

section

variable {k k' : Kernel} {p : ℤ}

@[grind =] theorem goOn_mode (k : Kernel) (p q : ℤ) (m : Mode) :
    (k.goOn p m).mode q = if q = p then some m else k.mode q := Function.update_apply _ _ _ _

@[simp, grind =] theorem goOn_history (k : Kernel) (p : ℤ) (m : Mode) :
    (k.goOn p m).history = k.history := rfl

@[simp, grind =] theorem goOn_infos (k : Kernel) (p : ℤ) (m : Mode) (a : ℕ) :
    (k.goOn p m).infos a = k.infos a := rfl

@[grind =] theorem setInfo_infos (k : Kernel) (a b : ℕ) (info : ChildInfo) :
    (k.setInfo a info).infos b = if b = a then some info else k.infos b :=
      Function.update_apply _ _ _ _

@[simp, grind =] theorem setInfo_mode (k : Kernel) (a : ℕ) (info : ChildInfo) (p : ℤ) :
    (k.setInfo a info).mode p = k.mode p := rfl

@[simp, grind =] theorem setInfo_history (k : Kernel) (a : ℕ) (info : ChildInfo) :
    (k.setInfo a info).history = k.history := rfl

/-! ## What a step leaves alone -/

theorem Births.frame (h : Births k) (hnext : k'.nextTid = k.nextTid)
    (hcreator : k'.history.creator = k.history.creator)
    (hmode : ∀ q, k'.mode q = k.mode q ∨ k.mode q ≠ none ∧ ∀ t, k'.mode q ≠ some (.creating t)) :
    Births k' := by
  have hunknown : ∀ t, k.Unknown t → k'.Unknown t := by
    rintro t ⟨habsent, horphan, hchildless⟩
    refine ⟨?_, hcreator ▸ horphan, hcreator ▸ hchildless⟩
    have := hmode t
    grind
  refine ⟨fun t ht => ?_, fun q t hq => ?_, fun q r t hq hr => ?_⟩
  · exact hunknown t (h.unborn t (hnext ▸ ht))
  · have hold : k.mode q = some (.creating t) := by
      have := hmode q
      grind
    exact ⟨hnext ▸ (h.creating q t hold).1, hunknown t (h.creating q t hold).2⟩
  · have := h.creatingOne q r t
    have := hmode q
    have := hmode r
    grind

theorem Records.frame (h : Records k) (hinfo : ∀ a t, k'.Info a t ↔ k.Info a t)
    (hcreator : k'.history.creator = k.history.creator)
    (hwaited : k'.history.waited = k.history.waited) (hmine : k'.myInfo = k.myInfo)
    (hlist : k'.childrenList = k.childrenList) (hmode : ∀ q, k'.mode q ≠ none → k.mode q ≠ none) :
    Records k' := by
  refine ⟨?_, ?_, ?_, ?_, ?_, ?_⟩
  · simp only [hinfo, hcreator]
    exact h.infoOf
  · simp only [hinfo]
    exact h.infoOne
  · simp only [hinfo, hcreator]
    exact h.infoOfChild
  · simp only [hinfo, hmine]
    exact fun t a ht => h.mine t a (hmode t ht)
  · simp only [hlist]
    exact fun q hq => h.nodup q (hmode q hq)
  · simp only [hinfo, hcreator, hwaited, hlist]
    exact fun q hq => h.list q (hmode q hq)

theorem Status.frame (h : Status k) (hinfos : k'.infos = k.infos)
    (hway : k'.history.way = k.history.way)
    (hterminated : k'.history.terminated = k.history.terminated)
    (htaken : k'.history.taken = k.history.taken) : Status k' := by
  refine ⟨?_, ?_⟩
  · rw [hinfos, hway]
    exact h.status
  · rw [hinfos, hterminated, htaken]
    exact h.value

/-- The thread has not begun to end. -/
def Mode.Alive (m : Mode) : Prop := m ≠ .exiting ∧ m ≠ .dying

theorem Deaths.frame (h : Deaths k) (hcreator : k'.history.creator = k.history.creator)
    (hwaited : k'.history.waited = k.history.waited) (hway : k'.history.way = k.history.way)
    (hterminated : k'.history.terminated = k.history.terminated)
    (hmode : ∀ q, k'.mode q = k.mode q ∨
      (∃ m, k.mode q = some m ∧ m.Alive) ∧ ∃ m, k'.mode q = some m ∧ m.Alive) : Deaths k' := by
  refine ⟨?_, fun t ht => ?_, fun t m ht => ?_, fun t ht => ?_, fun t ht => ?_⟩
  · rw [hterminated, hway]
    exact h.ended
  · have := h.exiting t
    have := hmode t
    grind [Mode.Alive]
  · have := h.alive t
    have := hmode t
    grind [Mode.Alive]
  · have := h.dying t
    have := hmode t
    grind [Mode.Alive]
  · have := h.blank t
    have := hmode t
    grind

/-- The thread is not in the part of `process_wait` that may block. -/
def Mode.Free (m : Mode) : Prop :=
  ∀ t a, m ≠ .waiting t a ∧ m ≠ .blocked t a ∧ m ≠ .collecting t a

theorem Calls.frame (h : Calls k) (hinfo : ∀ a t, k'.Info a t ↔ k.Info a t)
    (hinfos : ∀ a info', k'.infos a = some info' → ∃ info, k.infos a = some info ∧
      info.tid = info'.tid ∧ info.waiters = info'.waiters)
    (hcreator : k'.history.creator = k.history.creator)
    (hwaited : k'.history.waited = k.history.waited)
    (hterminated : k'.history.terminated = k.history.terminated)
    (htaken : k'.history.taken = k.history.taken)
    (hreturned : k'.history.returned = k.history.returned)
    (hway : ∀ t, k.history.way t ≠ none → k'.history.way t = k.history.way t)
    (hmode : ∀ q, k'.mode q = k.mode q ∨
      (∃ m, k.mode q = some m ∧ m.Free) ∧ ∀ m, k'.mode q = some m → m.Free) : Calls k' := by
  refine ⟨fun q t a hq => ?_, fun q t a hq => ?_, fun a info ha w hw => ?_, fun q t a hq => ?_,
    ?_, ?_, ?_⟩
  · have := h.waiting q t a
    have := hmode q
    grind [Mode.Free]
  · have := h.blocked q t a
    have := hmode q
    have := hinfos a
    grind [Mode.Free]
  · have := h.waiters a
    have := hmode w
    have := hinfos a
    grind [Mode.Free]
  · have := h.collecting q t a
    have := hmode q
    grind [Mode.Free]
  · rw [htaken, hterminated, hwaited]
    exact h.taken
  · rw [htaken, hreturned]
    exact fun t v hv => by
      have := h.returned t v hv
      have := hway t
      grind
  · rw [hreturned]
    exact h.once

/-! ## The steps -/

theorem Ok.allocate (h : Ok k) (hrun : allocate p k = some k') : Ok k' := by
  unfold Wait.allocate at hrun
  split at hrun
  · next hmode =>
      cases hrun
      have hfresh := h.births.unborn k.nextTid le_rfl
      have hunknown : ∀ t, k.Unknown t →
          Kernel.Unknown { k.goOn p (.creating k.nextTid) with nextTid := k.nextTid + 1 } t := by
        rintro t ⟨habsent, horphan, hchildless⟩
        refine ⟨?_, horphan, hchildless⟩
        grind
      refine ⟨⟨fun t ht => ?_, fun q t hq => ?_, fun q r t hq hr => ?_⟩,
        h.records.frame (fun _ _ => Iff.rfl) rfl rfl rfl rfl fun q => ?_,
        h.status.frame rfl rfl rfl rfl, h.deaths.frame rfl rfl rfl rfl fun q => ?_,
        h.calls.frame (fun _ _ => Iff.rfl) (fun a info ha => ⟨info, ha, rfl, rfl⟩)
          rfl rfl rfl rfl rfl
          (fun _ _ => rfl) fun q => ?_⟩
      · exact hunknown t (h.births.unborn t (Int.le_of_lt ht))
      · have := h.births.creating q t
        grind
      · have := h.births.creating q t
        have := h.births.creating r t
        have := h.births.creatingOne q r t
        grind
      · grind
      · grind [Mode.Alive]
      · grind [Mode.Free]
  · cases hrun

section Child

variable {tid : ℤ} {a : ℕ}

@[grind =] theorem addChild_mode (k : Kernel) (p tid q : ℤ) (a : ℕ) : (k.addChild p tid a).mode q =
    if q = p then some (.created tid) else if q = tid then some .running else k.mode q := by
  show Function.update (Function.update k.mode tid _) p _ q = _
  rw [Function.update_apply, Function.update_apply]

@[grind =] theorem addChild_creator (k : Kernel) (p tid t : ℤ) (a : ℕ) :
    (k.addChild p tid a).history.creator t = if t = tid then some p else k.history.creator t :=
  Function.update_apply _ _ _ _

@[grind =] theorem addChild_infos (k : Kernel) (p tid : ℤ) (a b : ℕ) :
    (k.addChild p tid a).infos b = if b = a then some ⟨tid, -1, 0, []⟩ else k.infos b :=
  Function.update_apply _ _ _ _

@[simp, grind =] theorem addChild_way (k : Kernel) (p tid : ℤ) (a : ℕ) :
    (k.addChild p tid a).history.way = k.history.way := rfl

@[simp, grind =] theorem addChild_terminated (k : Kernel) (p tid : ℤ) (a : ℕ) :
    (k.addChild p tid a).history.terminated = k.history.terminated := rfl

@[simp, grind =] theorem addChild_waited (k : Kernel) (p tid : ℤ) (a : ℕ) :
    (k.addChild p tid a).history.waited = k.history.waited := rfl

@[simp, grind =] theorem addChild_taken (k : Kernel) (p tid : ℤ) (a : ℕ) :
    (k.addChild p tid a).history.taken = k.history.taken := rfl

@[simp, grind =] theorem addChild_returned (k : Kernel) (p tid : ℤ) (a : ℕ) :
    (k.addChild p tid a).history.returned = k.history.returned := rfl

/-- The records after the birth of a child. -/
theorem addChild_info (p tid : ℤ) (hnew : k.infos a = none) (b : ℕ) (t : ℤ) :
    (k.addChild p tid a).Info b t ↔ k.Info b t ∨ b = a ∧ t = tid := by
  grind [Kernel.Info]

theorem Kernel.Unknown.ne (hu : k.Unknown tid) (hmode : k.mode p ≠ none) : p ≠ tid := by
  rintro rfl
  exact hmode hu.absent

theorem Records.info_ne (h : Records k) (hu : k.Unknown tid) {b : ℕ} {t : ℤ} (hb : k.Info b t) :
    t ≠ tid := by
  rintro rfl
  exact h.infoOf b t hb hu.orphan

theorem Births.addChild (h : Births k) (hmode : k.mode p = some (.creating tid)) :
    Births (k.addChild p tid a) := by
  have hp : ∀ t, k.Unknown t → t ≠ p := fun t ht => (ht.ne (p := p) (by grind)).symm
  have hunknown : ∀ t, k.Unknown t → t ≠ tid → (k.addChild p tid a).Unknown t := by
    intro t ht htid
    have := hp t ht
    obtain ⟨habsent, horphan, hchildless⟩ := ht
    refine ⟨by grind, by grind, fun c hc => ?_⟩
    have := hchildless c
    grind
  refine ⟨fun t ht => ?_, fun q t hq => ?_, fun q r t hq hr => ?_⟩
  · have := (h.creating p tid hmode).1
    exact hunknown t (h.unborn t ht) (by rintro rfl; exact absurd ht (not_le.mpr this))
  · have hold : k.mode q = some (.creating t) ∧ q ≠ p := by grind
    have hcreating := h.creating q t hold.1
    refine ⟨hcreating.1, hunknown t hcreating.2 ?_⟩
    rintro rfl
    exact hold.2 (h.creatingOne q p t hold.1 hmode)
  · have := h.creatingOne q r t
    grind

theorem Records.addChild (h : Records k) (hu : k.Unknown tid) (hnew : k.infos a = none)
    (hmode : k.mode p ≠ none) (hwaited : k.history.waited tid = false) :
    Records (k.addChild p tid a) := by
  have hpt := hu.ne hmode
  have hinfo := addChild_info p tid hnew
  have hnot : ∀ t, ¬ k.Info a t := by
    intro t ht
    rw [Kernel.Info, hnew] at ht
    cases ht
  refine ⟨fun b t hb => ?_, fun b c t hb hc => ?_, fun t ht => ?_, fun t b ht hb => ?_,
    fun q hq => ?_,
    fun q hq b => ?_⟩
  · have := h.infoOf b t
    grind
  · have := h.infoOne b c t
    have := h.info_ne hu (b := b) (t := t)
    have := h.info_ne hu (b := c) (t := t)
    grind
  · by_cases htid : t = tid
    · exact ⟨a, (hinfo a t).mpr (.inr ⟨rfl, htid⟩)⟩
    · obtain ⟨b, hb⟩ := h.infoOfChild t (by grind)
      exact ⟨b, (hinfo b t).mpr (.inl hb)⟩
  · rw [hinfo]
    replace hb : Function.update k.myInfo tid (some a) t = some b := hb
    have := h.mine t b
    grind [Function.update_apply]
  · show (Function.update (Function.update k.childrenList tid []) p
      (k.childrenList p ++ [a]) q).Nodup
    have hfresh : a ∉ k.childrenList p := by
      intro ha
      obtain ⟨t, ht, -⟩ := (h.list p hmode a).mp ha
      exact hnot t ht
    have := h.nodup q
    grind [Function.update_apply]
  · have hlist : (∃ t, (k.addChild p tid a).Info b t ∧
        (k.addChild p tid a).history.creator t = some q ∧ k.history.waited t = false) ↔
          (∃ t, k.Info b t ∧ k.history.creator t = some q ∧ k.history.waited t = false) ∨
            b = a ∧ q = p := by
      constructor
      · rintro ⟨t, ht, hcreator, hw⟩
        rcases (hinfo b t).mp ht with hold | ⟨hb, rfl⟩
        · refine .inl ⟨t, hold, ?_, hw⟩
          have := h.info_ne hu hold
          grind
        · exact .inr (by grind)
      · rintro (⟨t, ht, hcreator, hw⟩ | ⟨rfl, rfl⟩)
        · refine ⟨t, (hinfo b t).mpr (.inl ht), ?_, hw⟩
          have := h.info_ne hu ht
          grind
        · exact ⟨tid, (hinfo b tid).mpr (.inr ⟨rfl, rfl⟩), by grind, hwaited⟩
    refine Iff.trans ?_ hlist.symm
    show b ∈ Function.update (Function.update k.childrenList tid []) p (k.childrenList p ++ [a]) q ↔
      _
    have hold := h.list q
    have hchildless := hu.childless
    grind [Function.update_apply]

theorem Status.addChild (h : Status k) (hway : k.history.way tid = none)
    (hterminated : k.history.terminated tid = false) : Status (k.addChild p tid a) := by
  refine ⟨fun b info hb => ?_, fun b info hb => ?_⟩
  · show info.exitStatus = (k.history.way info.tid).elim (-1) Way.status
    have := h.status b info
    grind
  · show info.value =
      if k.history.terminated info.tid = true ∧ k.history.taken info.tid = false then 1 else 0
    have := h.value b info
    grind

theorem Deaths.addChild (h : Deaths k) (hmode : k.mode p = some (.creating tid))
    (hway : k.history.way tid = none) : Deaths (k.addChild p tid a) := by
  have hp := h.alive p _ hmode (by simp) (by simp)
  refine ⟨h.ended, fun t ht => ?_, fun t m ht hexit hdie => ?_, fun t ht => ?_, fun t ht => ?_⟩
  · have := h.exiting t
    grind
  · show k.history.way t = none
    have := h.alive t m
    grind
  · have := h.dying t
    grind
  · have := h.blank t
    grind

theorem Calls.addChild (h : Calls k) (hrec : Records k) (hu : k.Unknown tid)
    (hnew : k.infos a = none)
    (hmode : k.mode p = some (.creating tid)) : Calls (k.addChild p tid a) := by
  have hinfo := addChild_info p tid hnew
  have hother : ∀ b t, k.Info b t → t ≠ tid ∧ b ≠ a := by
    refine fun b t hb => ⟨hrec.info_ne hu hb, ?_⟩
    rintro rfl
    rw [Kernel.Info, hnew] at hb
    cases hb
  have habsent := hu.absent
  refine ⟨fun q t b hq => ?_, fun q t b hq => ?_, fun b info hb w hw => ?_, fun q t b hq => ?_,
    h.taken, h.returned, h.once⟩
  · have := h.waiting q t b
    grind
  · have := h.blocked q t b
    have := h.waiting q t b
    grind
  · have := h.waiters b info
    grind
  · have := h.collecting q t b
    grind

end Child

theorem Ok.publish {a : ℕ} (h : Ok k) (hrun : publish p a k = some k') : Ok k' := by
  unfold Wait.publish at hrun
  split at hrun
  · next tid hmode hnew =>
      cases hrun
      have hu := (h.births.creating p tid hmode).2
      obtain ⟨hwaited, hterminated, hway⟩ := h.deaths.blank tid hu.orphan
      exact ⟨h.births.addChild hmode, h.records.addChild hu hnew (by rw [hmode]; simp) hwaited,
        h.status.addChild (hway hu.absent) hterminated, h.deaths.addChild hmode (hway hu.absent),
        h.calls.addChild h.records hu hnew hmode⟩
  · cases hrun

/-- **A thread goes on** in a way that does not matter to the protocol. -/
theorem Ok.goOn (h : Ok k) {m m' : Mode} (hp : k.mode p = some m) (halive : m.Alive)
    (halive' : m'.Alive)
    (hfree : m.Free) (hfree' : m'.Free) (hnot : ∀ t, m' ≠ .creating t) : Ok (k.goOn p m') :=
  ⟨h.births.frame rfl rfl (by grind),
    h.records.frame (fun _ _ => Iff.rfl) rfl rfl rfl rfl (by grind),
    h.status.frame rfl rfl rfl rfl, h.deaths.frame rfl rfl rfl rfl (by grind),
    h.calls.frame (fun _ _ => Iff.rfl) (fun a info ha => ⟨info, ha, rfl, rfl⟩) rfl rfl rfl rfl rfl
      (fun _ _ => rfl) (by grind)⟩

theorem Ok.createReturns (h : Ok k) (hrun : createReturns p k = some k') : Ok k' := by
  unfold Wait.createReturns at hrun
  split at hrun
  · next hmode =>
      cases hrun
      exact h.goOn hmode (by simp [Mode.Alive]) (by simp [Mode.Alive]) (by simp [Mode.Free])
        (by simp [Mode.Free]) (by simp)
  · cases hrun

theorem Ok.free (h : Ok k) (hrun : free p k = some k') : Ok k' := by
  unfold Wait.free at hrun
  split at hrun
  · next hmode =>
      cases hrun
      have hother : ∀ q, q ≠ p → Function.update k.mode p none q = k.mode q := fun q hq =>
        Function.update_of_ne hq _ _
      have hself : Function.update k.mode p none p = none := Function.update_self _ _ _
      refine ⟨h.births.frame rfl rfl fun q => ?_,
        h.records.frame (fun _ _ => Iff.rfl) rfl rfl rfl rfl fun q => ?_,
        h.status.frame rfl rfl rfl rfl,
        ⟨h.deaths.ended, fun t ht => ?_, fun t m ht => ?_, fun t ht => ?_, fun t ht => ?_⟩,
        h.calls.frame (fun _ _ => Iff.rfl) (fun a info ha => ⟨info, ha, rfl, rfl⟩)
          rfl rfl rfl rfl rfl
          (fun _ _ => rfl) fun q => ?_⟩
      · grind
      · grind
      · have := h.deaths.exiting t
        grind
      · have := h.deaths.alive t m
        grind
      · have := h.deaths.dying t
        grind
      · have := h.deaths.blank t
        have := h.deaths.dying t
        grind
      · grind [Mode.Free]
  · cases hrun

@[grind =] theorem leave_mode (k : Kernel) (p q : ℤ) (way : Way) :
    (k.leave p way).mode q = if q = p then some .exiting else k.mode q := goOn_mode k p q _

@[grind =] theorem leave_way (k : Kernel) (p t : ℤ) (way : Way) :
    (k.leave p way).history.way t = if t = p then some way else k.history.way t :=
  Function.update_apply _ _ _ _

/-- **A thread begins to end**; the record may be written. -/
theorem Ok.leave (h : Ok k) (way : Way) (hp : k.mode p = some .running)
    {infos : ℕ → Option ChildInfo}
    (hinfos : ∀ a info', infos a = some info' → ∃ info, k.infos a = some info ∧
      info.tid = info'.tid ∧ info.value = info'.value ∧ info.waiters = info'.waiters ∧
        info'.exitStatus = if info.tid = p then way.status else info.exitStatus)
    (hinfo : ∀ a t, Kernel.Info { k with infos := infos } a t ↔ k.Info a t) :
    Ok (Kernel.leave { k with infos := infos } p way) := by
  have hway := h.deaths.alive p _ hp (by simp) (by simp)
  refine ⟨h.births.frame rfl rfl fun q => ?_, h.records.frame hinfo rfl rfl rfl rfl fun q => ?_,
    ⟨fun a info' ha => ?_, fun a info' ha => ?_⟩,
    ⟨fun t ht => ?_, fun t ht => ?_, fun t m ht => ?_, fun t ht => ?_, fun t ht => ?_⟩,
    h.calls.frame hinfo (fun a info' ha => ?_) rfl rfl rfl rfl rfl (fun t ht => ?_) fun q => ?_⟩
  · grind
  · grind
  · obtain ⟨info, hold, htid, -, -, hstatus⟩ := hinfos a info' ha
    have := h.status.status a info hold
    grind
  · obtain ⟨info, hold, htid, hvalue, -⟩ := hinfos a info' ha
    have := h.status.value a info hold
    rw [hvalue, htid] at this
    exact this
  · have := h.deaths.ended t ht
    grind
  · have := h.deaths.exiting t
    have := h.deaths.ended t
    refine ⟨?_, by grind⟩
    show k.history.terminated t = false
    grind
  · have := h.deaths.alive t m
    grind
  · have := h.deaths.dying t
    exact this (by grind)
  · obtain ⟨hw, ht, hnone⟩ := h.deaths.blank t ht
    exact ⟨hw, ht, by grind⟩
  · obtain ⟨info, hold, htid, -, hwaiters, -⟩ := hinfos a info' ha
    exact ⟨info, hold, htid, hwaiters⟩
  · grind
  · grind [Mode.Free]

theorem Ok.die (h : Ok k) (hrun : die p k = some k') : Ok k' := by
  unfold Wait.die at hrun
  split at hrun
  · next hmode =>
      cases hrun
      refine h.leave .died hmode (fun a info ha => ⟨info, ha, rfl, rfl, rfl, ?_⟩) fun _ _ => Iff.rfl
      have hway := h.deaths.alive p _ hmode (by simp) (by simp)
      have hstatus := h.status.status a info ha
      split
      · next htid =>
          rw [hstatus, htid, hway]
          rfl
      · rfl
  · cases hrun

theorem Ok.myExit {arg : ℤ} (h : Ok k) (hrun : myExit p arg k = some k') : Ok k' := by
  unfold Wait.myExit at hrun
  split at hrun
  · next a hmode hmine =>
      obtain ⟨info, hinfo, rfl⟩ := Option.map_eq_some_iff.mp hrun
      have hp : k.Info a p := h.records.mine p a (by rw [hmode]; simp) hmine
      have htid : info.tid = p := by
        rw [Kernel.Info, hinfo] at hp
        exact Option.some.inj hp
      have hone : ∀ b, k.Info b p → b = a := fun b hb => h.records.infoOne b a p hb hp
      refine h.leave (.exit arg) hmode (fun b info' hb => ?_) fun b t => ?_
      · by_cases hba : b = a
        · refine ⟨info, hba ▸ hinfo, ?_⟩
          have hb : info' = { info with exitStatus := if arg < -1 then -1 else arg } := by grind
          rw [hb]
          exact ⟨rfl, rfl, rfl, (if_pos htid).symm⟩
        · rw [Function.update_of_ne hba] at hb
          refine ⟨info', hb, rfl, rfl, rfl, (if_neg fun htid' => hba (hone b ?_)).symm⟩
          rw [Kernel.Info, hb, ← htid']
          rfl
      · grind [Kernel.Info]
  · cases hrun

/-! ## `sema_up` -/

/-- **Those blocked on the record are unblocked.** -/
theorem unblockFirst_mode (h : Calls k) {a : ℕ} {info : ChildInfo} (hinfo : k.infos a = some info)
    (q : ℤ) :
    unblockFirst k.mode info.waiters q =
      if k.mode q = some (.blocked info.tid a) then some (.waiting info.tid a) else k.mode q := by
  have hq : k.mode q = some (.blocked info.tid a) → info.waiters = [q] := fun hq =>
    (h.blocked q _ a hq).2 info hinfo
  cases hw : info.waiters with
  | nil =>
      rw [unblockFirst]
      grind
  | cons w ws =>
      have hwait := h.waiters a info hinfo w (by rw [hw]; exact List.mem_cons_self)
      rw [unblockFirst, hwait]
      grind

theorem Ok.announce (h : Ok k) (hrun : announce p k = some k') : Ok k' := by
  unfold Wait.announce at hrun
  split at hrun
  · next a hmode hmine =>
      obtain ⟨info, hinfo, rfl⟩ := Option.map_eq_some_iff.mp hrun
      have hp : k.Info a p := h.records.mine p a (by rw [hmode]; simp) hmine
      obtain rfl : info.tid = p := by
        rw [Kernel.Info, hinfo] at hp
        exact Option.some.inj hp
      have hone : ∀ b, k.Info b info.tid → b = a := fun b hb => h.records.infoOne b a _ hb hp
      have hunblock := unblockFirst_mode h.calls hinfo
      have hnotyet := h.deaths.exiting _ hmode
      have htaken : k.history.taken info.tid = false := by
        have := h.calls.taken info.tid
        grind
      have hlast : ∀ w ∈ info.waiters, info.waiters = [w] := fun w hw =>
        (h.calls.blocked w _ a (h.calls.waiters a info hinfo w hw)).2 info hinfo
      have hcreator := h.records.infoOf a _ hp
      have htid : ∀ b info', k.infos b = some info' → b ≠ a → info'.tid ≠ info.tid := by
        intro b info' hb hba ht
        exact hba (hone b (by rw [Kernel.Info, hb, ← ht]; rfl))
      have hkeep : ∀ b t, (Function.update k.infos a (some { info with
          value := info.value + 1, waiters := info.waiters.tail }) b).map ChildInfo.tid = some t ↔
            k.Info b t := by
        intro b t
        grind [Kernel.Info]
      refine ⟨h.births.frame rfl rfl fun q => ?_, h.records.frame hkeep rfl rfl rfl rfl fun q => ?_,
        ⟨fun b info' hb => ?_, fun b info' hb => ?_⟩,
        ⟨fun t ht => ?_, fun t ht => ?_, fun t m ht => ?_, fun t ht => ?_, fun t ht => ?_⟩,
        ⟨fun q t b hq => ?_, fun q t b hq => ?_, fun b info' hb w hw => ?_, fun q t b hq => ?_,
          fun t ht => ?_,
          h.calls.returned, h.calls.once⟩⟩
      · grind
      · grind
      · have := h.status.status b info'
        have := h.status.status a info hinfo
        grind
      · have := h.status.value b info'
        have := h.status.value a info hinfo
        have := htid b info'
        grind
      · have := h.deaths.ended t
        grind
      · have := h.deaths.exiting t
        grind
      · have := h.deaths.alive t
        grind
      · have := h.deaths.dying t
        grind
      · have := h.deaths.blank t
        grind
      · obtain ⟨hold, hrest⟩ := h.calls.waiting q t b (by grind)
        exact ⟨(hkeep b t).mpr hold, hrest⟩
      · have hold : k.mode q = some (.blocked t b) ∧ ¬ (t = info.tid ∧ b = a) := by grind
        have hne : t ≠ info.tid := by
          rintro rfl
          exact hold.2 ⟨rfl, hone b (h.calls.waiting q _ b (.inr hold.1)).1⟩
        have hba : b ≠ a := by
          rintro rfl
          have ht := (h.calls.waiting q t b (.inr hold.1)).1
          rw [Kernel.Info, hinfo] at ht
          exact hne (Option.some.inj ht).symm
        obtain ⟨hlive, hwaiters⟩ := h.calls.blocked q t b hold.1
        exact ⟨by grind, fun info' hb =>
          hwaiters info' ((Function.update_of_ne hba _ k.infos).symm.trans hb)⟩
      · by_cases hba : b = a
        · subst hba
          obtain rfl := Option.some.inj ((Function.update_self b _ k.infos).symm.trans hb)
          have hw' : w ∈ info.waiters := List.mem_of_mem_tail hw
          rw [show info.waiters.tail = [] by rw [hlast w hw']; rfl] at hw
          cases hw
        · have hold := (Function.update_of_ne hba _ k.infos).symm.trans hb
          have := h.calls.waiters b info' hold w hw
          grind
      · obtain ⟨hold, hrest⟩ := h.calls.collecting q t b (by grind)
        exact ⟨(hkeep b t).mpr hold, hrest⟩
      · have := h.calls.taken t ht
        grind
  · cases hrun

/-! ## `process_wait` -/

/-- What the search looks for. -/
theorem any_tid_iff (k : Kernel) (a : ℕ) (t : ℤ) :
    (k.infos a).any (fun info => decide (info.tid = t)) = true ↔ k.Info a t := by
  cases hinfo : k.infos a with
  | none => simp [Kernel.Info, hinfo]
  | some info => simp [Kernel.Info, hinfo]

/-- **The search finds the child**, if the thread has not waited for it. -/
theorem find_eq_some (h : Ok k) (hp : k.mode p ≠ none) {t : ℤ} {a : ℕ} (ha : k.Info a t)
    (hcreator : k.history.creator t = some p) (hwaited : k.history.waited t = false) :
    ((k.childrenList p).find? fun a => (k.infos a).any fun info => info.tid = t) = some a := by
  have hmem : a ∈ k.childrenList p := (h.records.list p hp a).mpr ⟨t, ha, hcreator, hwaited⟩
  cases hfind : (k.childrenList p).find? fun a => (k.infos a).any fun info => info.tid = t with
  | none => exact absurd ((any_tid_iff k a t).mpr ha) (List.find?_eq_none.mp hfind a hmem)
  | some b =>
      have hfound : (k.infos b).any (fun info => decide (info.tid = t)) = true :=
        List.find?_some (p := fun a => (k.infos a).any fun info => decide (info.tid = t)) hfind
      have hb := (any_tid_iff k b t).mp hfound
      rw [h.records.infoOne b a t hb ha]

/-- **It finds nothing** otherwise. -/
theorem find_eq_none (h : Ok k) (hp : k.mode p ≠ none) {t : ℤ}
    (hnot : k.history.creator t ≠ some p ∨ k.history.waited t = true) :
    ((k.childrenList p).find? fun a => (k.infos a).any fun info => info.tid = t) = none := by
  refine List.find?_eq_none.mpr fun a ha => ?_
  rw [any_tid_iff]
  obtain ⟨t', ht', hcreator, hwaited⟩ := (h.records.list p hp a).mp ha
  intro ht
  obtain rfl : t' = t := by
    rw [Kernel.Info, ht] at ht'
    exact (Option.some.inj ht').symm
  rcases hnot with hnot | hnot
  · exact hnot hcreator
  · rw [hwaited] at hnot
    cases hnot

/-- **A call for anything but a child, or for a child a second time, returns at once.** -/
theorem processWait_refused (h : Ok k) (hp : k.mode p = some .running) {t : ℤ}
    (hnot : k.history.creator t ≠ some p ∨ k.history.waited t = true) :
    processWait p t k = some (some (-1), k) := by
  have hask : k.history.ask p t = k.history := by
    rw [History.ask]
    split
    · next hcreator =>
        have hwaited : k.history.waited t = true := hnot.resolve_left (not_not_intro hcreator)
        rw [← hwaited, Function.update_eq_self]
    · rfl
  rw [processWait, if_pos hp, find_eq_none h (by rw [hp]; simp) hnot, hask]

/-- **The first call for a child goes on to `sema_down`.** -/
theorem processWait_child (h : Ok k) (hp : k.mode p = some .running) {t : ℤ}
    (hcreator : k.history.creator t = some p) (hwaited : k.history.waited t = false) :
    ∃ a, k.Info a t ∧ processWait p t k = some (none, { k.goOn p (.waiting t a) with
      childrenList := Function.update k.childrenList p ((k.childrenList p).erase a)
      history.waited := Function.update k.history.waited t true }) := by
  obtain ⟨a, ha⟩ := h.records.infoOfChild t (by rw [hcreator]; simp)
  refine ⟨a, ha, ?_⟩
  rw [processWait, if_pos hp, find_eq_some h (by rw [hp]; simp) ha hcreator hwaited, History.ask,
    if_pos hcreator]
  rfl

/-- The invariant, once a call has gone on to `sema_down`. -/
theorem Ok.wait (h : Ok k) (hp : k.mode p = some .running) {t : ℤ} {a : ℕ} (ha : k.Info a t)
    (hcreator : k.history.creator t = some p) (hwaited : k.history.waited t = false) :
    Ok { k.goOn p (.waiting t a) with
      childrenList := Function.update k.childrenList p ((k.childrenList p).erase a)
      history.waited := Function.update k.history.waited t true } := by
  have htaken : k.history.taken t = false := by
    have := h.calls.taken t
    grind
  have hnew : ∀ s, Function.update k.history.waited t true s =
      if s = t then true else k.history.waited s := fun s => Function.update_apply _ _ _ _
  refine ⟨h.births.frame rfl rfl fun q => ?_,
    ⟨h.records.infoOf, h.records.infoOne, h.records.infoOfChild, fun s b hs => ?_, fun q hq => ?_,
      fun q hq b => ?_⟩,
    h.status.frame rfl rfl rfl rfl,
    ⟨h.deaths.ended, fun s hs => ?_, fun s m hs => ?_, fun s hs => ?_, fun s hs => ?_⟩,
    ⟨fun q s b hq => ?_, fun q s b hq => ?_, fun b info hb w hw => ?_, fun q s b hq => ?_,
      fun s hs => ?_,
      h.calls.returned, h.calls.once⟩⟩
  · grind
  · exact h.records.mine s b (by grind)
  · show (Function.update k.childrenList p ((k.childrenList p).erase a) q).Nodup
    have := h.records.nodup q
    grind [Function.update_apply, List.Nodup.erase]
  · show b ∈ Function.update k.childrenList p ((k.childrenList p).erase a) q ↔
      ∃ s, k.Info b s ∧ k.history.creator s = some q ∧
        Function.update k.history.waited t true s = false
    have hnodup := h.records.nodup q (by grind)
    have hlist := h.records.list q (by grind) b
    have htid : ∀ s, k.Info a s → s = t := by
      intro s hs
      rw [Kernel.Info, ha] at hs
      exact (Option.some.inj hs).symm
    by_cases hqp : q = p
    · subst hqp
      rw [Function.update_self, hnodup.mem_erase_iff, hlist]
      constructor
      · rintro ⟨hba, s, hs, hcreator, hw⟩
        refine ⟨s, hs, hcreator, ?_⟩
        have : s ≠ t := fun hst => hba (h.records.infoOne b a t (hst ▸ hs) ha)
        grind
      · rintro ⟨s, hs, hcreator, hw⟩
        have hst : s ≠ t := by grind
        refine ⟨?_, s, hs, hcreator, by grind⟩
        rintro rfl
        exact hst (htid s hs)
    · rw [Function.update_of_ne hqp, hlist]
      have hold : ∀ s, k.history.creator s = some q →
          Function.update k.history.waited t true s = k.history.waited s := by
        intro s hs
        exact Function.update_of_ne (by grind) _ _
      refine exists_congr fun s => and_congr_right fun _ => and_congr_right fun hs => ?_
      rw [hold s hs]
  · have := h.deaths.exiting s
    grind
  · have := h.deaths.alive s
    grind
  · have := h.deaths.dying s
    grind
  · have := h.deaths.blank s
    grind
  · have hold := h.calls.waiting q s b
    have hself : q = p → s = t ∧ b = a := by grind
    by_cases hqp : q = p
    · obtain ⟨rfl, rfl⟩ := hself hqp
      exact ⟨ha, by grind, by grind, htaken⟩
    · obtain ⟨hinfo, hcreator', hwaited', htaken'⟩ := hold (by grind)
      exact ⟨hinfo, hcreator', by grind, htaken'⟩
  · exact h.calls.blocked q s b (by grind)
  · have := h.calls.waiters b info hb w hw
    grind
  · obtain ⟨hinfo, hrest⟩ := h.calls.collecting q s b (by grind)
    exact ⟨hinfo, hrest⟩
  · have := h.calls.taken s hs
    grind

theorem Ok.processWait {t : ℤ} {r : Option ℤ} (h : Ok k) (hrun : processWait p t k = some (r, k')) :
    Ok k' := by
  have hp : k.mode p = some .running := by
    unfold Wait.processWait at hrun
    split at hrun
    · assumption
    · cases hrun
  by_cases hchild : k.history.creator t = some p ∧ k.history.waited t = false
  · obtain ⟨a, ha, hcall⟩ := processWait_child h hp hchild.1 hchild.2
    rw [hcall] at hrun
    cases hrun
    exact h.wait hp ha hchild.1 hchild.2
  · have hnot : k.history.creator t ≠ some p ∨ k.history.waited t = true := by grind
    rw [processWait_refused h hp hnot] at hrun
    cases hrun
    exact h

/-! ## `sema_down` -/

section Down

variable {t : ℤ} {a : ℕ}

/-- The record of the child that is waited for. -/
theorem Ok.waitingInfo (h : Ok k) (hp : k.mode p = some (.waiting t a)) : ∃ info,
    k.infos a = some info ∧ info.tid = t ∧ info.waiters = [] ∧
      info.value = if k.history.terminated t = true then 1 else 0 := by
  obtain ⟨hinfo, hcreator, hwaited, htaken⟩ := h.calls.waiting p t a (.inl hp)
  obtain ⟨info, ha, rfl⟩ := Option.map_eq_some_iff.mp hinfo
  refine ⟨info, ha, rfl, List.eq_nil_iff_forall_not_mem.mpr fun w hw => ?_, ?_⟩
  · have hblocked := h.calls.waiters a info ha w hw
    have := (h.calls.waiting w _ a (.inr hblocked)).2.1
    grind
  · rw [h.status.value a info ha, htaken]
    simp

/-- **Before the child has announced its end, the thread is blocked.** -/
theorem semaDown_blocks (h : Ok k) (hp : k.mode p = some (.waiting t a))
    (ht : k.history.terminated t = false) : ∃ info, k.infos a = some info ∧
      semaDown p k = some ((k.setInfo a { info with waiters := [p] }).goOn p (.blocked t a)) := by
  obtain ⟨info, ha, htid, hwaiters, hvalue⟩ := h.waitingInfo hp
  refine ⟨info, ha, ?_⟩
  rw [semaDown, hp]
  show (k.infos a).map _ = _
  rw [ha, Option.map_some, if_pos (by rw [hvalue, ht]; rfl), hwaiters]
  rfl

/-- **After it has, the thread goes on.** -/
theorem semaDown_passes (h : Ok k) (hp : k.mode p = some (.waiting t a))
    (ht : k.history.terminated t = true) : ∃ info, k.infos a = some info ∧ info.tid = t ∧
      semaDown p k = some { (k.setInfo a { info with value := 0 }).goOn p (.collecting t a) with
        history.taken := Function.update k.history.taken t true } := by
  obtain ⟨info, ha, htid, hwaiters, hvalue⟩ := h.waitingInfo hp
  rw [ht, if_pos rfl] at hvalue
  refine ⟨info, ha, htid, ?_⟩
  rw [semaDown, hp]
  show (k.infos a).map _ = _
  rw [ha, Option.map_some, if_neg (by omega), hvalue]

end Down

/-- The parent blocks. -/
theorem Ok.semaDown_blocks (h : Ok k) (hrun : semaDown p k = some k') (hp : k.mode p = some (.waiting t a))
    (ht : k.history.terminated t = false) : Ok k' := by
  obtain ⟨hinfo, hcreator, hwaited, htaken⟩ := h.calls.waiting p t a (.inl hp)
  obtain ⟨info, ha, hdown⟩ := Wait.semaDown_blocks h hp ht
  rw [hdown] at hrun
  cases hrun
  have htid : info.tid = t := by
    rw [Kernel.Info, ha] at hinfo
    exact Option.some.inj hinfo
  have hkeep : ∀ b s, (k.setInfo a { info with waiters := [p] }).Info b s ↔ k.Info b s := by
    intro b s
    grind [Kernel.Info]
  refine ⟨h.births.frame rfl rfl fun q => ?_, h.records.frame hkeep rfl rfl rfl rfl fun q => ?_,
    ⟨fun b info' hb => ?_, fun b info' hb => ?_⟩, h.deaths.frame rfl rfl rfl rfl fun q => ?_,
    ⟨fun q s b hq => ?_, fun q s b hq => ?_, fun b info' hb w hw => ?_, fun q s b hq => ?_,
      h.calls.taken, h.calls.returned, h.calls.once⟩⟩
  · grind
  · grind
  · have := h.status.status b info'
    have := h.status.status a info ha
    grind
  · have := h.status.value b info'
    have := h.status.value a info ha
    grind
  · grind [Mode.Alive]
  · have hold := h.calls.waiting q s b
    have hself : q = p → s = t ∧ b = a := by grind
    by_cases hqp : q = p
    · obtain ⟨rfl, rfl⟩ := hself hqp
      exact ⟨(hkeep b s).mpr hinfo, by grind, hwaited, htaken⟩
    · obtain ⟨hinfo, hrest⟩ := hold (by grind)
      exact ⟨(hkeep b s).mpr hinfo, hrest⟩
  · by_cases hqp : q = p
    · have hself : s = t ∧ b = a := by grind
      obtain ⟨rfl, rfl⟩ := hself
      exact ⟨ht, by grind⟩
    · obtain ⟨hlive, hwaiters⟩ := h.calls.blocked q s b (by grind)
      refine ⟨hlive, fun info' hb => ?_⟩
      have hs := (h.calls.waiting q s b (.inr (by grind))).2.1
      have hsinfo := (h.calls.waiting q s b (.inr (by grind))).1
      have hba : b ≠ a := by
        rintro rfl
        rw [Kernel.Info, hinfo] at hsinfo
        grind
      exact hwaiters info' (by grind)
  · have := h.calls.waiters b info'
    grind
  · obtain ⟨hinfo, hrest⟩ := h.calls.collecting q s b (by grind)
    exact ⟨(hkeep b s).mpr hinfo, hrest⟩

/-- The parent takes what the child has put up. -/
theorem Ok.semaDown_passes (h : Ok k) (hrun : semaDown p k = some k') (hp : k.mode p = some (.waiting t a))
    (ht : k.history.terminated t = true) : Ok k' := by
  obtain ⟨hinfo, hcreator, hwaited, htaken⟩ := h.calls.waiting p t a (.inl hp)
  have hone : ∀ b, k.Info b t → b = a := fun b hb => h.records.infoOne b a t hb hinfo
  obtain ⟨info, ha, htid, hdown⟩ := Wait.semaDown_passes h hp ht
  rw [hdown] at hrun
  cases hrun
  have hkeep : ∀ b s, (k.setInfo a { info with value := 0 }).Info b s ↔ k.Info b s := by
    intro b s
    grind [Kernel.Info]
  have hnew : ∀ s, Function.update k.history.taken t true s =
      if s = t then true else k.history.taken s := fun s => Function.update_apply _ _ _ _
  -- the info belongs to one child, and its creator is the only one to wait
  have hothers : ∀ b info', k.infos b = some info' → b ≠ a → info'.tid ≠ t := by
    intro b info' hb hba hs
    exact hba (hone b (by rw [Kernel.Info, hb, ← hs]; rfl))
  have hsole : ∀ q b, k.mode q = some (.waiting t b) ∨ k.mode q = some (.blocked t b) →
      q = p := by
    intro q b hq
    have := (h.calls.waiting q t b hq).2.1
    grind
  refine ⟨h.births.frame rfl rfl fun q => ?_, h.records.frame hkeep rfl rfl rfl rfl fun q => ?_,
    ⟨fun b info' hb => ?_, fun b info' hb => ?_⟩, h.deaths.frame rfl rfl rfl rfl fun q => ?_,
    ⟨fun q s b hq => ?_, fun q s b hq => ?_, fun b info' hb w hw => ?_, fun q s b hq => ?_,
      fun s hs => ?_,
      fun s v hv => ?_, h.calls.once⟩⟩
  · grind
  · grind
  · have := h.status.status b info'
    have := h.status.status a info ha
    grind
  · have := h.status.value b info'
    have := hothers b info'
    grind
  · grind [Mode.Alive]
  · have hold : k.mode q = some (.waiting s b) ∨ k.mode q = some (.blocked s b) := by grind
    have hst : s ≠ t := by
      rintro rfl
      have := hsole q b hold
      grind
    obtain ⟨hinfo, hcreator, hwaited, htaken⟩ := h.calls.waiting q s b hold
    exact ⟨(hkeep b s).mpr hinfo, hcreator, hwaited, by grind⟩
  · have hold : k.mode q = some (.blocked s b) := by grind
    obtain ⟨hlive, hwaiters⟩ := h.calls.blocked q s b hold
    have hsinfo := (h.calls.waiting q s b (.inr hold)).1
    have hba : b ≠ a := by
      rintro rfl
      rw [Kernel.Info, hinfo] at hsinfo
      grind
    exact ⟨hlive, fun info' hb => hwaiters info' (by grind)⟩
  · have := h.calls.waiters b info'
    have := h.calls.waiters a info ha
    grind
  · by_cases hqp : q = p
    · have hself : s = t ∧ b = a := by grind
      obtain ⟨rfl, rfl⟩ := hself
      refine ⟨(hkeep b s).mpr hinfo, by grind, by grind, ?_⟩
      refine List.eq_nil_iff_forall_not_mem.mpr fun v hv => ?_
      have := (h.calls.returned s v hv).1
      grind
    · obtain ⟨hinfo, hcreator, htaken, hreturned⟩ := h.calls.collecting q s b (by grind)
      exact ⟨(hkeep b s).mpr hinfo, hcreator, by grind, hreturned⟩
  · have := h.calls.taken s
    grind
  · obtain ⟨htaken, hway⟩ := h.calls.returned s v hv
    exact ⟨by grind, hway⟩

theorem Ok.semaDown (h : Ok k) (hrun : semaDown p k = some k') : Ok k' := by
  obtain ⟨t, a, hp⟩ : ∃ t a, k.mode p = some (.waiting t a) := by
    unfold Wait.semaDown at hrun
    split at hrun
    · next t a hp => exact ⟨t, a, hp⟩
    · cases hrun
  cases ht : k.history.terminated t with
  | false => exact h.semaDown_blocks hrun hp ht
  | true => exact h.semaDown_passes hrun hp ht

/-- **The value is the status** that the child has recorded. -/
theorem collect_eq (h : Ok k) {t : ℤ} {a : ℕ} (hp : k.mode p = some (.collecting t a)) :
    ∃ way, k.history.way t = some way ∧ collect p k = some (way.status, { k.goOn p .running with
      history.returned := Function.update k.history.returned t [way.status] }) := by
  obtain ⟨hinfo, hcreator, htaken, hreturned⟩ := h.calls.collecting p t a hp
  obtain ⟨info, ha, rfl⟩ := Option.map_eq_some_iff.mp hinfo
  have hended := h.deaths.ended _ (h.calls.taken _ htaken).1
  obtain ⟨way, hway⟩ := Option.ne_none_iff_exists'.mp hended
  have hstatus := h.status.status a info ha
  rw [hway] at hstatus
  refine ⟨way, hway, ?_⟩
  rw [collect, hp]
  show (k.infos a).map _ = _
  rw [ha, Option.map_some, hstatus, hreturned]
  rfl

theorem Ok.collect {v : ℤ} (h : Ok k) (hrun : collect p k = some (v, k')) : Ok k' := by
  obtain ⟨t, a, hp⟩ : ∃ t a, k.mode p = some (.collecting t a) := by
    unfold Wait.collect at hrun
    split at hrun
    · next t a hp => exact ⟨t, a, hp⟩
    · cases hrun
  obtain ⟨way, hway, hcollect⟩ := collect_eq h hp
  obtain ⟨hinfo, hcreator, htaken, hreturned⟩ := h.calls.collecting p t a hp
  rw [hcollect] at hrun
  cases hrun
  have hsole : ∀ q b, k.mode q = some (.collecting t b) → q = p := by
    intro q b hq
    have := (h.calls.collecting q t b hq).2.1
    grind
  refine ⟨h.births.frame rfl rfl fun q => ?_,
    h.records.frame (fun _ _ => Iff.rfl) rfl rfl rfl rfl fun q => ?_,
      h.status.frame rfl rfl rfl rfl,
    h.deaths.frame rfl rfl rfl rfl fun q => ?_,
    ⟨fun q s b hq => ?_, fun q s b hq => ?_, fun b info' hb w hw => ?_, fun q s b hq => ?_,
      h.calls.taken,
      fun s v hv => ?_, fun s => ?_⟩⟩
  · grind
  · grind
  · grind [Mode.Alive]
  · exact h.calls.waiting q s b (by grind)
  · exact h.calls.blocked q s b (by grind)
  · have := h.calls.waiters b info' hb w hw
    grind
  · have hold : k.mode q = some (.collecting s b) ∧ q ≠ p := by grind
    have hst : s ≠ t := by
      rintro rfl
      exact hold.2 (hsole q b hold.1)
    obtain ⟨hinfo, hcreator, htaken, hreturned⟩ := h.calls.collecting q s b hold.1
    exact ⟨hinfo, hcreator, htaken, (Function.update_of_ne hst _ _).trans hreturned⟩
  · by_cases hst : s = t
    · subst hst
      have hv : v ∈ [way.status] := by
        rwa [← Function.update_self s [way.status] k.history.returned]
      exact ⟨htaken, way, hway, List.mem_singleton.mp hv⟩
    · have hv : v ∈ k.history.returned s := by
        rwa [← Function.update_of_ne hst [way.status] k.history.returned]
      exact h.calls.returned s v hv
  · show (Function.update k.history.returned t [way.status] s).length ≤ 1
    have := h.calls.once s
    grind [Function.update_apply]

/-! ## Whole runs -/

theorem Ok.start : Ok start := by
  have hmode : ∀ t m, Wait.start.mode t = some m → t = 1 ∧ m = .running := by
    intro t m hm
    replace hm : (if t = 1 then some Mode.running else none) = some m := hm
    grind
  have hinfo : ∀ a t, ¬ Wait.start.Info a t := fun a t ha => (by cases ha)
  refine ⟨⟨fun t ht => ⟨?_, rfl, fun c hc => (by cases hc)⟩, fun p t hp => ?_, fun p q t hp => ?_⟩,
    ⟨fun a t ha => absurd ha (hinfo a t), fun a b t ha => absurd ha (hinfo a t),
      fun t ht => absurd rfl ht,
      fun t a _ ha => (by cases ha), fun p _ => List.nodup_nil, fun p _ a => ?_⟩,
    ⟨fun a info ha => (by cases ha), fun a info ha => (by cases ha)⟩,
    ⟨fun t ht => (by cases ht), fun t ht => ?_, fun t m _ _ _ => rfl, fun t ht => ?_,
      fun t _ => ⟨rfl, rfl, fun _ => rfl⟩⟩,
    ⟨fun p t a hp => ?_, fun p t a hp => ?_, fun a info ha => (by cases ha), fun p t a hp => ?_,
      fun t ht => (by cases ht), fun t v hv => (by cases hv), fun t => Nat.zero_le 1⟩⟩
  · exact if_neg (by rintro rfl; exact absurd ht (by decide))
  · have := hmode p _ hp
    grind
  · have := hmode p _ hp
    grind
  · exact ⟨fun ha => (by cases ha), fun ⟨t, ht, _⟩ => absurd ht (hinfo a t)⟩
  · have := hmode t _ ht
    grind
  · have := hmode t _ ht
    grind
  · have := hmode p
    grind
  · have := hmode p _ hp
    grind
  · have := hmode p _ hp
    grind

theorem Ok.step (h : Ok k) (hstep : Step k k') : Ok k' := by
  cases hstep with
  | allocate p hrun => exact h.allocate hrun
  | publish p a hrun => exact h.publish hrun
  | createReturns p hrun => exact h.createReturns hrun
  | myExit p arg hrun => exact h.myExit hrun
  | die p hrun => exact h.die hrun
  | announce p hrun => exact h.announce hrun
  | free p hrun => exact h.free hrun
  | processWait p t hrun => exact h.processWait hrun
  | semaDown p hrun => exact h.semaDown hrun
  | collect p hrun => exact h.collect hrun

/-- **The invariant holds in every reachable state.** -/
theorem Reachable.ok (h : Reachable k) : Ok k :=
  have hstep : ∀ k k', Step k k' → Ok k → Ok k' := fun _ _ hstep hk => hk.step hstep
  Lib.Reaches.induct hstep h Ok.start

/-- What `process_wait` guarantees. -/
structure Protocol (k : Kernel) : Prop where
  /-- For a thread that the caller did not create, or has waited for, it returns -1 without
  blocking. -/
  refused : ∀ p t, k.mode p = some .running →
    (k.history.creator t ≠ some p ∨ k.history.waited t = true) →
      processWait p t k = some (some (-1), k)
  /-- For any other it does not return before the semaphore has been downed. -/
  child : ∀ p t, k.mode p = some .running → k.history.creator t = some p →
    k.history.waited t = false → ∃ a k', processWait p t k = some (none, k') ∧
      k'.mode p = some (.waiting t a)
  /-- The semaphore lets it pass if and only if the child has terminated. -/
  down : ∀ p t a, k.mode p = some (.waiting t a) → ∃ k', semaDown p k = some k' ∧
    if k.history.terminated t = true then k'.mode p = some (.collecting t a)
    else k'.mode p = some (.blocked t a)
  /-- What it returns is the status of a child that has terminated, and no call has returned it. -/
  returns : ∀ p t a, k.mode p = some (.collecting t a) → k.history.creator t = some p ∧
    k.history.terminated t = true ∧ k.history.returned t = [] ∧
      ∃ way, k.history.way t = some way ∧ ∃ k', collect p k = some (way.status, k')
  /-- What has been returned for a child is its status, once. -/
  delivered : ∀ t, k.history.returned t = [] ∨ ∃ way, k.history.way t = some way ∧
    k.history.terminated t = true ∧ k.history.returned t = [way.status]
  /-- No thread is blocked for a child that has terminated. -/
  awake : ∀ p t a, k.mode p = some (.blocked t a) → k.history.terminated t = false

/-- **The wait protocol** holds in every state of every run. -/
theorem processWait_protocol (h : Reachable k) : Protocol k := by
  have hk := h.ok
  refine ⟨fun p t hp hnot => processWait_refused hk hp hnot, fun p t hp hcreator hwaited => ?_,
    fun p t a hp => ?_, fun p t a hp => ?_, fun t => ?_,
    fun p t a hp => (hk.calls.blocked p t a hp).1⟩
  · obtain ⟨a, -, hcall⟩ := processWait_child hk hp hcreator hwaited
    exact ⟨a, _, hcall, by grind⟩
  · cases ht : k.history.terminated t with
    | false =>
        obtain ⟨info, -, hdown⟩ := semaDown_blocks hk hp ht
        exact ⟨_, hdown, by grind⟩
    | true =>
        obtain ⟨info, -, -, hdown⟩ := semaDown_passes hk hp ht
        exact ⟨_, hdown, by grind⟩
  · obtain ⟨-, hcreator, htaken, hreturned⟩ := hk.calls.collecting p t a hp
    obtain ⟨way, hway, hcollect⟩ := collect_eq hk hp
    exact ⟨hcreator, (hk.calls.taken t htaken).1, hreturned, way, hway, _, hcollect⟩
  · rcases hreturned : k.history.returned t with _ | ⟨v, vs⟩
    · exact .inl rfl
    · obtain ⟨htaken, way, hway, rfl⟩ :=
        hk.calls.returned t v (by rw [hreturned]; exact List.mem_cons_self)
      have honce := hk.calls.once t
      rw [hreturned, List.length_cons] at honce
      obtain rfl : vs = [] := List.length_eq_zero_iff.mp (by omega)
      exact .inr ⟨way, hway, (hk.calls.taken t htaken).1, rfl⟩

/-- The initial thread creates a thread and waits for it, which blocks; the child calls `exit (7)`, and
the parent collects the status. -/
def oneChild : Option Kernel := do
  let k ← allocate 1 start
  let k ← publish 1 0 k
  let k ← createReturns 1 k
  let (_, k) ← processWait 1 2 k
  let k ← semaDown 1 k
  let k ← myExit 2 7 k
  let k ← announce 2 k
  let k ← semaDown 1 k
  let (_, k) ← collect 1 k
  return k

theorem reachable_oneChild (h : oneChild = some k) : Reachable k := by
  simp only [oneChild, Option.bind_eq_bind, Option.bind_eq_some_iff, Option.pure_def] at h
  obtain ⟨k1, h1, k2, h2, k3, h3, ⟨r, k4⟩, h4, k5, h5, k6, h6, k7, h7, k8, h8, ⟨v, k9⟩, h9, hk⟩ := h
  cases hk
  have hborn : Reachable k3 :=
    .tail (.tail (.tail .refl (.allocate 1 h1)) (.publish 1 0 h2)) (.createReturns 1 h3)
  have hasked : Reachable k5 := .tail (.tail hborn (.processWait 1 2 h4)) (.semaDown 1 h5)
  have hended : Reachable k7 := .tail (.tail hasked (.myExit 2 7 h6)) (.announce 2 h7)
  exact .tail (.tail hended (.semaDown 1 h8)) (.collect 1 h9)

/-- The protocol holds at the end, when the parent has the status. -/
theorem processWait_protocol_oneChild : ∃ k, oneChild = some k ∧ k.history.returned 2 = [7] ∧
    k.mode 1 = some .running ∧ Protocol k := by
  have hrun : oneChild.map (fun k => (k.history.returned 2, k.mode 1)) = some ([7], some .running) := by
    decide +kernel
  obtain ⟨k, hk, e⟩ := Option.map_eq_some_iff.mp hrun
  exact ⟨k, hk, congrArg Prod.fst e, congrArg Prod.snd e,
    processWait_protocol (reachable_oneChild hk)⟩

end

end Pintos.Userprog.Wait
