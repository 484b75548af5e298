import Mathlib.Data.Nat.Fib.Basic
import Mathlib.Tactic

/-!
# Fibonacci numbers by processes

`Project0/fib.c`: every call of `doFib` is a process of its own, which forks one child for each of the two
smaller numbers, waits for both and passes the sum to its parent as its exit status.  A process is a node
of a tree and its children are those it has not reaped; one step of the system is one step of any process
of the tree, so that a run is any interleaving.  A status has eight bits, and `waitpid (-1, ..)` reaps any
child that has exited.

* **`printed_of_run`** — for every number that `main` accepts, whatever the order in which the processes
  run, none of them gets stuck, all of them are gone after the same number of steps, and what has been
  printed then is the number.

`fork` succeeds and no signal is sent; `main` up to the call of `doFib` is the bound on its argument.
-/

namespace Pintos.Shell.Fib

/-! ## Processes -/

/-- `MAX`. -/
def maxArg : ℕ := 13

/-- Where a process is in `doFib`. -/
inductive Pc where
  /-- At the start. -/
  | enter (n : ℕ)
  /-- Between the two calls of `Fork`. -/
  | forked (n : ℕ)
  /-- In the first loop. -/
  | waiting (sum : ℕ)
  /-- In the second loop. -/
  | again (sum sum2 : ℕ)
  | exited (status : ℕ)
deriving DecidableEq, Repr

/-- A process and the children it has not reaped; `first` is `getpid () == first_pid`. -/
inductive Proc where
  | node (first : Bool) (pc : Pc) (children : List Proc)

/-- `WEXITSTATUS`. -/
def exitStatus (status : ℕ) : ℕ := status % 256

/-- A new child, which calls `doFib (n, ..)`. -/
def child (n : ℕ) : Proc := .node false (.enter n) []

/-- The first process. -/
def start (n : ℕ) : Proc := .node true (.enter n) []

/-- One step of one process, and the numbers it prints. -/
inductive Step : Proc → List ℕ → Proc → Prop where
  | exitZero {f cs} : Step (.node f (.enter 0) cs) [] (.node f (.exited 0) cs)
  | exitOne {f cs} : Step (.node f (.enter 1) cs) [] (.node f (.exited 1) cs)
  | fork {f cs} (n : ℕ) : Step (.node f (.enter (n + 2)) cs) []
      (.node f (.forked (n + 2)) (child (n + 1) :: cs))
  | forkSecond {f cs} (n : ℕ) : Step (.node f (.forked (n + 2)) cs) []
      (.node f (.waiting 0) (child n :: cs))
  /-- `waitpid` returns the status of a child. -/
  | reap {f l r gs} (sum status : ℕ) :
      Step (.node f (.waiting sum) (l ++ .node false (.exited status) gs :: r)) []
        (.node f (.waiting (sum + exitStatus status)) (l ++ r))
  /-- `waitpid` finds no child. -/
  | reaped {f} (sum : ℕ) : Step (.node f (.waiting sum) []) [] (.node f (.again sum 0) [])
  | reapAgain {f l r gs} (sum sum2 status : ℕ) :
      Step (.node f (.again sum sum2) (l ++ .node false (.exited status) gs :: r)) []
        (.node f (.again sum (sum2 + exitStatus status)) (l ++ r))
  | print (sum sum2 : ℕ) :
      Step (.node true (.again sum sum2) []) [sum + sum2] (.node true (.exited 0) [])
  | exitTotal (sum sum2 : ℕ) :
      Step (.node false (.again sum sum2) []) [] (.node false (.exited (sum + sum2)) [])
  /-- A child runs. -/
  | inside {f pc l r c c' out} : Step c out c' → Step (.node f pc (l ++ c :: r)) out (.node f pc (l ++ c' :: r))

/-- A run of `k` steps, and what is printed in it. -/
inductive Run : Proc → ℕ → List ℕ → Proc → Prop where
  | nil (p : Proc) : Run p 0 [] p
  | snoc {p p' p'' : Proc} {k : ℕ} {out out' : List ℕ} : Run p k out p' → Step p' out' p'' →
      Run p (k + 1) (out ++ out') p''

/-! ## What a process has before it -/

/-- The value a process passes to `exit`, or prints. -/
def total : ℕ → ℕ
  | 0 => 0
  | 1 => 1
  | n + 2 => exitStatus (total (n + 1)) + exitStatus (total n)

/-- The steps of a process and its descendants. -/
def steps : ℕ → ℕ
  | 0 => 1
  | 1 => 1
  | n + 2 => steps (n + 1) + steps n + 6

/-- A child: what it will exit with, the steps before it, and itself. -/
structure Job where
  value : ℕ
  left : ℕ
  proc : Proc

/-- The status a parent will read. -/
def Job.status (j : Job) : ℕ := exitStatus j.value

/-- The steps of a child, and the one of its parent that reaps it. -/
def Job.cost (j : Job) : ℕ := j.left + 1

/-- The process will come to the value, with its descendants, after so many steps: the invariant. -/
inductive Ready : Bool → ℕ → ℕ → Proc → Prop where
  | enter (first : Bool) (n : ℕ) : Ready first (total n) (steps n) (.node first (.enter n) [])
  | forked (first : Bool) (n k : ℕ) (c : Proc) : Ready false (total (n + 1)) k c →
      Ready first (total (n + 2)) (k + steps n + 5) (.node first (.forked (n + 2)) [c])
  | waiting (first : Bool) (sum : ℕ) (jobs : List Job) :
      (∀ j ∈ jobs, Ready false j.value j.left j.proc) →
      Ready first (sum + (jobs.map Job.status).sum) ((jobs.map Job.cost).sum + 2)
        (.node first (.waiting sum) (jobs.map Job.proc))
  | again (first : Bool) (sum : ℕ) : Ready first sum 1 (.node first (.again sum 0) [])
  | exited (first : Bool) (value status : ℕ) : (first = false → status = value) →
      Ready first value 0 (.node first (.exited status) [])

/-- The process is at the start. -/
def Proc.AtStart : Proc → Prop
  | .node _ (.enter _) _ => True
  | _ => False

instance (p : Proc) : Decidable p.AtStart :=
  match p with
  | .node _ (.enter _) _ => isTrue trivial
  | .node _ (.forked _) _ => isFalse id
  | .node _ (.waiting _) _ => isFalse id
  | .node _ (.again _ _) _ => isFalse id
  | .node _ (.exited _) _ => isFalse id

/-- What the last but `k` step of a process prints. -/
def printedBy (first : Bool) (value k : ℕ) (p : Proc) : List ℕ :=
  if first = true ∧ k = 0 ∧ ¬ p.AtStart then [value] else []

/-! ## One step -/

section Steps

variable {f : Bool} {value k : ℕ} {p : Proc}

theorem steps_pos (n : ℕ) : 0 < steps n := by
  fun_cases steps n <;> omega

/-- A process that is done has exited. -/
theorem Ready.done (h : Ready f value 0 p) : ∃ status, p = .node f (.exited status) [] ∧
    (f = false → status = value) := by
  generalize hk : 0 = k at h
  cases h with
  | enter f n => exact absurd hk (steps_pos n).ne
  | forked f n k c hc => omega
  | waiting f sum jobs hjobs => omega
  | again f sum => omega
  | exited f value status hs => exact ⟨status, rfl, hs⟩

/-- Children one of which is singled out. -/
theorem jobs_split {jobs : List Job} {l r : List Proc} {c : Proc} (h : jobs.map Job.proc = l ++ c :: r) :
    ∃ before j after, jobs = before ++ j :: after ∧ before.map Job.proc = l ∧ j.proc = c ∧
      after.map Job.proc = r := by
  obtain ⟨before, rest, rfl, hl, hrest⟩ := List.map_eq_append_iff.mp h
  obtain ⟨j, after, rfl, hj, hr⟩ := List.map_eq_cons_iff.mp hrest
  exact ⟨before, j, after, rfl, hl, hj, hr⟩

theorem singleton_split {l r : List Proc} {c d : Proc} (h : [c] = l ++ d :: r) : l = [] ∧ d = c ∧ r = [] := by
  cases l with
  | nil => simpa [eq_comm] using h
  | cons e l => simp at h

/-- The rest of the children, once one of them has been reaped or has run. -/
theorem Ready.others {before after : List Job} {j : Job}
    (hjobs : ∀ i ∈ before ++ j :: after, Ready false i.value i.left i.proc) :
    ∀ i ∈ before ++ after, Ready false i.value i.left i.proc := by
  intro i hi
  apply hjobs
  rcases List.mem_append.mp hi with h | h
  · exact List.mem_append_left _ h
  · exact List.mem_append_right _ (List.mem_cons_of_mem j h)

/-- A step of a parent that waits: it reaps a child, goes on, or a child runs. -/
theorem waiting_step {sum : ℕ} {jobs : List Job} {out : List ℕ} {p' : Proc}
    (hjobs : ∀ j ∈ jobs, Ready false j.value j.left j.proc)
    (hrun : ∀ j ∈ jobs, ∀ {out p'}, Step j.proc out p' →
      ∃ k', j.left = k' + 1 ∧ Ready false j.value k' p' ∧ out = [])
    (hs : Step (.node f (.waiting sum) (jobs.map Job.proc)) out p') :
    ∃ k', (jobs.map Job.cost).sum + 2 = k' + 1 ∧ k' ≠ 0 ∧
      Ready f (sum + (jobs.map Job.status).sum) k' p' ∧ ¬ p'.AtStart ∧ out = [] := by
  generalize hcs : jobs.map Job.proc = cs at hs
  cases hs with
  | reap sum status =>
      obtain ⟨before, ⟨value, left, proc⟩, after, rfl, rfl, hproc, rfl⟩ := jobs_split hcs
      have hready : Ready false value left proc := hjobs ⟨value, left, proc⟩ (by simp)
      rw [show proc = _ from hproc] at hready
      cases hready with
      | exited f value status hs =>
          obtain rfl := hs rfl
          have hnext := Ready.waiting f (sum + exitStatus status) (before ++ after) (.others hjobs)
          refine ⟨((before ++ after).map Job.cost).sum + 2, ?_, ?_, ?_, id, rfl⟩
          · simp [Job.cost]
            omega
          · omega
          · convert hnext using 1
            · simp [Job.status]
              omega
            · rw [List.map_append]
  | reaped sum =>
      obtain rfl := List.map_eq_nil_iff.mp hcs
      exact ⟨1, rfl, one_ne_zero, .again f sum, id, rfl⟩
  | @inside f pc l r c c' out hc =>
      obtain ⟨before, j, after, rfl, rfl, rfl, rfl⟩ := jobs_split hcs
      obtain ⟨k', hk', hready, rfl⟩ := hrun j (by simp) hc
      have hothers := Ready.others hjobs
      have hnext := Ready.waiting f sum (before ++ ⟨j.value, k', c'⟩ :: after) fun i hi => by
        rcases List.mem_append.mp hi with h | h
        · exact hothers i (List.mem_append_left _ h)
        · rcases List.mem_cons.mp h with rfl | h
          · exact hready
          · exact hothers i (List.mem_append_right _ h)
      refine ⟨((before ++ ⟨j.value, k', c'⟩ :: after).map Job.cost).sum + 2, ?_, by omega, ?_, id, rfl⟩
      · simp [Job.cost, hk']
        omega
      · convert hnext using 1
        · simp [Job.status]
        · rw [List.map_append, List.map_cons]

/-- **A step takes one from the steps that are left**, and only the last one of the first process
prints. -/
theorem Ready.step (h : Ready f value k p) : ∀ {out p'}, Step p out p' →
    ∃ k', k = k' + 1 ∧ Ready f value k' p' ∧ ¬ p'.AtStart ∧ out = printedBy f value k' p := by
  induction h with
  | enter f n =>
      intro out p' hs
      generalize hcs : ([] : List Proc) = cs at hs
      cases hs with
      | exitZero => exact ⟨0, rfl, hcs ▸ .exited f 0 0 fun _ => rfl, id, by simp [printedBy, Proc.AtStart]⟩
      | exitOne => exact ⟨0, rfl, hcs ▸ .exited f 1 1 fun _ => rfl, id, by simp [printedBy, Proc.AtStart]⟩
      | fork n =>
          subst hcs
          refine ⟨steps (n + 1) + steps n + 5, rfl, ?_, id, by simp [printedBy]⟩
          exact .forked f n (steps (n + 1)) (child (n + 1)) (.enter false (n + 1))
      | inside hc => simp at hcs
  | forked f n k c hready ih =>
      intro out p' hs
      generalize hcs : [c] = cs at hs
      cases hs with
      | forkSecond n =>
          subst hcs
          have hjobs : ∀ j ∈ [Job.mk (total n) (steps n) (child n), Job.mk (total (n + 1)) k c],
              Ready false j.value j.left j.proc := by
            simpa using ⟨.enter false n, hready⟩
          have hnext := Ready.waiting f 0 _ hjobs
          refine ⟨k + steps n + 4, rfl, ?_, id, by simp [printedBy]⟩
          convert hnext using 1
          · simp only [Job.status, total, List.map_cons, List.map_nil, List.sum_cons, List.sum_nil]
            omega
          · simp [Job.cost]
            omega
          · rfl
      | inside hc =>
          obtain ⟨rfl, rfl, rfl⟩ := singleton_split hcs
          obtain ⟨k', rfl, hready', -, rfl⟩ := ih hc
          exact ⟨k' + steps n + 5, by omega, .forked f n k' _ hready', id, by simp [printedBy]⟩
  | waiting f sum jobs hjobs ih =>
      intro out p' hs
      have hrun : ∀ j ∈ jobs, ∀ {out p'}, Step j.proc out p' →
          ∃ k', j.left = k' + 1 ∧ Ready false j.value k' p' ∧ out = [] := by
        intro j hj out p' hs
        obtain ⟨k', hk', hready, -, hout⟩ := ih j hj hs
        exact ⟨k', hk', hready, by simpa [printedBy] using hout⟩
      obtain ⟨k', hk', hne, hready, hstart, hout⟩ := waiting_step hjobs hrun hs
      exact ⟨k', hk', hready, hstart, by simpa [printedBy, hne] using hout⟩
  | again f sum =>
      intro out p' hs
      generalize hcs : ([] : List Proc) = cs at hs
      cases hs with
      | reapAgain sum sum2 status => simp at hcs
      | print sum sum2 =>
          exact ⟨0, rfl, .exited true sum 0 nofun, id, by simp [printedBy, Proc.AtStart]⟩
      | exitTotal sum sum2 =>
          exact ⟨0, rfl, .exited false sum sum fun _ => rfl, id, by simp [printedBy]⟩
      | inside hc => simp at hcs
  | exited f value status hs =>
      intro out p' hs
      generalize hcs : ([] : List Proc) = cs at hs
      cases hs with
      | inside hc => simp at hcs

/-- **A process that is not done can go on**, or one of its descendants can. -/
theorem Ready.progress (h : Ready f value k p) : k ≠ 0 → ∃ out p', Step p out p' := by
  induction h with
  | enter f n =>
      intro _
      fun_cases steps n with
      | case1 => exact ⟨_, _, .exitZero⟩
      | case2 => exact ⟨_, _, .exitOne⟩
      | case3 n => exact ⟨_, _, .fork n⟩
  | forked f n k c hready ih => exact fun _ => ⟨_, _, .forkSecond n⟩
  | waiting f sum jobs hjobs ih =>
      intro _
      cases jobs with
      | nil => exact ⟨_, _, .reaped sum⟩
      | cons j jobs =>
          have hj : j ∈ j :: jobs := List.mem_cons_self ..
          by_cases hleft : j.left = 0
          · have hready := hjobs j hj
            rw [hleft] at hready
            obtain ⟨status, hproc, -⟩ := hready.done
            rw [List.map_cons, hproc]
            exact ⟨_, _, .reap (l := []) sum status⟩
          · obtain ⟨out, p', hs⟩ := ih j hj hleft
            exact ⟨_, _, .inside (l := []) hs⟩
  | again f sum =>
      intro _
      cases f with
      | true => exact ⟨_, _, .print sum 0⟩
      | false => exact ⟨_, _, .exitTotal sum 0⟩
  | exited f value status hs => exact fun h => absurd rfl h

end Steps

/-! ## Runs -/

/-- What the first process prints. -/
def printed (n : ℕ) : List ℕ := if n < 2 then [] else [total n]

/-- The number of the statuses is the Fibonacci number, up to the number before the first one that does
not fit into eight bits: `main` is stricter than it would have to be. -/
theorem total_eq_fib {n : ℕ} (hn : n ≤ maxArg + 1) : total n = Nat.fib n := by
  unfold maxArg at hn
  interval_cases n <;> decide

/-- What has been printed once `left` steps are left. -/
def printedAt (n left : ℕ) : List ℕ := if left = 0 then printed n else []

/-- **A run of `k` steps.** -/
theorem Run.ready {n k : ℕ} {out : List ℕ} {p : Proc} (h : Run (start n) k out p) :
    ∃ left, k + left = steps n ∧ Ready true (total n) left p ∧ out = printedAt n left ∧
      (p = start n ∧ k = 0 ∨ ¬ p.AtStart ∧ k ≠ 0) := by
  induction h with
  | nil =>
      refine ⟨steps n, by omega, .enter true n, ?_, .inl ⟨rfl, rfl⟩⟩
      rw [printedAt, if_neg (steps_pos n).ne']
  | @snoc p p' k out out' h hs ih =>
      obtain ⟨left, hleft, hready, rfl, hstart⟩ := ih
      obtain ⟨left', rfl, hready', hnot, rfl⟩ := hready.step hs
      refine ⟨left', by omega, hready', ?_, .inr ⟨hnot, by omega⟩⟩
      rw [printedAt, if_neg (by omega), List.nil_append, printedBy, printedAt]
      rcases hstart with ⟨rfl, rfl⟩ | ⟨hnot', hk⟩
      · -- the first process does not print in its first step
        have hatStart : (start n).AtStart := trivial
        rw [if_neg (by simp [hatStart])]
        split
        · next hzero =>
            have hn : n < 2 := by
              by_contra hge
              obtain ⟨m, rfl⟩ := Nat.exists_eq_add_of_le' (not_lt.mp hge)
              simp only [steps] at hleft
              omega
            rw [printed, if_pos hn]
        · rfl
      · by_cases hzero : left' = 0
        · have hn : ¬ n < 2 := by
            intro hlt
            have hone : steps n = 1 := by interval_cases n <;> rfl
            omega
          rw [if_pos ⟨rfl, hzero, hnot'⟩, if_pos hzero, printed, if_neg hn]
        · rw [if_neg (by simp [hzero]), if_neg hzero]

/-- **`fib`**: for every number that `main` accepts and in every order in which the processes run, no run
is longer than `steps n`; before that nothing is printed and some process can go on; and after that no
process is left but the first one, which has exited, and `doFib` has printed the Fibonacci number, or
nothing for the two numbers for which it exits at once. -/
theorem printed_of_run {n k : ℕ} {out : List ℕ} {p : Proc} (hn : n ≤ maxArg) (h : Run (start n) k out p) :
    k ≤ steps n ∧ (k < steps n → out = [] ∧ ∃ out' p', Step p out' p') ∧
      (k = steps n → out = (if n < 2 then [] else [Nat.fib n]) ∧
        ∃ status, p = .node true (.exited status) []) := by
  obtain ⟨left, hleft, hready, rfl, -⟩ := h.ready
  refine ⟨by omega, fun hk => ⟨?_, hready.progress (by omega)⟩, fun hk => ⟨?_, ?_⟩⟩
  · rw [printedAt, if_neg (by omega)]
  · rw [printedAt, if_pos (by omega), printed, total_eq_fib (by omega)]
  · obtain rfl : left = 0 := by omega
    obtain ⟨status, hp, -⟩ := hready.done
    exact ⟨status, hp⟩

/-- The second child runs first, and is reaped first. -/
theorem printed_of_two : Run (start 2) 8 [1] (.node true (.exited 0) []) ∧ 8 ≤ steps 2 := by
  have h2 : Run (start 2) 2 [] (.node true (.waiting 0) [child 0, child 1]) :=
    .snoc (.snoc (.nil _) (.fork 0)) (.forkSecond 0)
  have h3 : Run (start 2) 3 [] (.node true (.waiting 0) [.node false (.exited 0) [], child 1]) :=
    h2.snoc (.inside (l := []) .exitZero)
  have h4 : Run (start 2) 4 [] (.node true (.waiting 0) [child 1]) := h3.snoc (.reap (l := []) 0 0)
  have h5 : Run (start 2) 5 [] (.node true (.waiting 0) [.node false (.exited 1) []]) :=
    h4.snoc (.inside (l := []) .exitOne)
  have h6 : Run (start 2) 6 [] (.node true (.waiting 1) []) := h5.snoc (.reap (l := []) 0 1)
  have hrun : Run (start 2) 8 [1] (.node true (.exited 0) []) :=
    (h6.snoc (.reaped 1)).snoc (.print 1 0)
  exact ⟨hrun, (printed_of_run (by decide) hrun).1⟩

end Pintos.Shell.Fib
