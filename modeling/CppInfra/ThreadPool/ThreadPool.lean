import CppInfra.ThreadPool.BlockingQueue
import Mathlib.Algebra.BigOperators.Group.Finset.Basic
import Mathlib.Algebra.Order.Group.Multiset
import Mathlib.Data.Fintype.Basic

set_option autoImplicit false

namespace CppInfra.ThreadPool

open Transition BlockingQueue

-- Where a thread stands in `Worker`: about to call `Pop`, inside its `wait`, in `task()`, or behind the loop.
inductive Worker (Task : Type) where
  | looking
  | blocked
  | running (task : Task)
  | left
  deriving DecidableEq

def Worker.popped {Task : Type} : Outcome Task → Worker Task
  | .waits => .blocked
  | .returns (some task) => .running task
  | .returns none => .left

-- `posted` and `executed` list the tasks of the `Post` calls and of the calls `task()` that came back.
structure Pool (threadNum : Nat) (Task : Type) where
  taskQueue : BlockingQueue Task (Fin threadNum)
  workers : Fin threadNum → Worker Task
  destroying : Bool
  posted : List Task
  executed : List Task

namespace Pool

inductive Event (threadNum : Nat) (Task : Type) where
  | post (task : Task) (choice : Option (Fin threadNum))
  | postFrom (worker : Fin threadNum) (task : Task) (choice : Option (Fin threadNum))
  | pop (worker : Fin threadNum)
  | resume (worker : Fin threadNum)
  | wakeUp (worker : Fin threadNum)
  | finish (worker : Fin threadNum)
  | destroy
  | cancel

variable {threadNum : Nat} {Task : Type}

def create (threadNum : Nat) (Task : Type) : Pool threadNum Task :=
  { taskQueue := .create false
    workers := fun _ => .looking
    destroying := false
    posted := []
    executed := [] }

def push (s : Pool threadNum Task) (task : Task) (choice : Option (Fin threadNum)) :
    Option (Pool threadNum Task) := do
  let taskQueue ← s.taskQueue.push task choice
  some { s with taskQueue := taskQueue, posted := s.posted ++ [task] }

def popReturns (s : Pool threadNum Task) (worker : Fin threadNum)
    (result : BlockingQueue Task (Fin threadNum) × Outcome Task) : Pool threadNum Task :=
  { s with taskQueue := result.1, workers := Function.update s.workers worker (.popped result.2) }

-- Nobody but a running task posts once the destructor has started.
def step (s : Pool threadNum Task) : Event threadNum Task → Option (Pool threadNum Task)
  | .post task choice => if s.destroying then none else s.push task choice
  | .postFrom worker task choice =>
      match s.workers worker with
      | .running _ => s.push task choice
      | _ => none
  | .pop worker =>
      match s.workers worker with
      | .looking => (s.taskQueue.pop worker).map (s.popReturns worker)
      | _ => none
  | .resume worker =>
      match s.workers worker with
      | .blocked => (s.taskQueue.resume worker).map (s.popReturns worker)
      | _ => none
  | .wakeUp worker => (s.taskQueue.wakeUp worker).map fun taskQueue => { s with taskQueue := taskQueue }
  | .finish worker =>
      match s.workers worker with
      | .running task =>
          some { s with
            workers := Function.update s.workers worker .looking
            executed := s.executed ++ [task] }
      | _ => none
  | .destroy => if s.destroying then none else some { s with destroying := true }
  | .cancel => if s.destroying then some { s with taskQueue := s.taskQueue.cancel } else none

def load : Worker Task → Multiset Task
  | .running task => {task}
  | _ => 0

def held (workers : Fin threadNum → Worker Task) : Multiset Task := Finset.univ.sum fun worker => load (workers worker)

theorem held_update (workers : Fin threadNum → Worker Task) (worker : Fin threadNum) (next : Worker Task) :
    held (Function.update workers worker next) + load (workers worker) = held workers + load next := by
  have split := Finset.add_sum_erase Finset.univ (fun other => load (workers other)) (Finset.mem_univ worker)
  have splitNext := Finset.add_sum_erase Finset.univ (fun other => load (Function.update workers worker next other))
    (Finset.mem_univ worker)
  have same : (Finset.univ.erase worker).sum (fun other => load (Function.update workers worker next other)) =
      (Finset.univ.erase worker).sum fun other => load (workers other) := by
    apply Finset.sum_congr rfl
    intro other member
    rw [Function.update_of_ne (Finset.ne_of_mem_erase member)]
  rw [held, held, ← split, ← splitNext, same, Function.update_self]
  ac_rfl

structure Inv (s : Pool threadNum Task) : Prop where
  tasks : (s.posted : Multiset Task) = s.executed + held s.workers + s.taskQueue.queue
  leaves : ∀ worker, s.workers worker = .left → s.taskQueue.nonblock = true
  destroyed : s.taskQueue.nonblock = true → s.destroying = true
  served : s.taskQueue.queue ≠ [] → ∃ worker, s.workers worker ≠ .left

theorem create_inv : Inv (create threadNum Task) where
  tasks := by simp [create, BlockingQueue.create, held, load]
  leaves worker left := by cases left
  destroyed cancelled := by cases cancelled
  served elements := absurd rfl elements

theorem Inv.push {s t : Pool threadNum Task} (inv : Inv s) {task : Task} {choice : Option (Fin threadNum)}
    (somebody : ∃ worker, s.workers worker ≠ .left) (pushed : s.push task choice = some t) : Inv t := by
  obtain ⟨taskQueue, queued, rest⟩ := Option.bind_eq_some_iff.mp pushed
  obtain rfl := Option.some.inj rest
  obtain ⟨notEmpty, -, rfl⟩ := push_spec queued
  refine ⟨?_, inv.leaves, inv.destroyed, fun _ => somebody⟩
  have tasks := inv.tasks
  simp only [← Multiset.coe_add, tasks]
  ac_rfl

theorem Inv.moved {s : Pool threadNum Task} (inv : Inv s) {worker : Fin threadNum} {next : Worker Task}
    {taskQueue : BlockingQueue Task (Fin threadNum)} {executed : List Task}
    (tasks : (s.posted : Multiset Task) =
      executed + held (Function.update s.workers worker next) + taskQueue.queue)
    (nonblock : taskQueue.nonblock = s.taskQueue.nonblock)
    (leaving : next = .left → taskQueue.nonblock = true ∧ taskQueue.queue = []) :
    Inv { s with
      taskQueue := taskQueue
      workers := Function.update s.workers worker next
      executed := executed } := by
  refine ⟨tasks, ?_, ?_, ?_⟩
  · intro other left
    by_cases same : other = worker
    · subst same
      simp only [Function.update_self] at left
      exact (leaving left).1
    · simp only [Function.update_of_ne same] at left
      exact nonblock.trans (inv.leaves other left)
  · intro cancelled
    exact inv.destroyed (nonblock.symm.trans cancelled)
  · intro elements
    refine ⟨worker, ?_⟩
    intro left
    simp only [Function.update_self] at left
    exact elements (leaving left).2

theorem Inv.popReturns {s : Pool threadNum Task} (inv : Inv s) {worker : Fin threadNum}
    (idle : load (s.workers worker) = 0) {taskQueue : BlockingQueue Task (Fin threadNum)}
    (queue : taskQueue.queue = s.taskQueue.queue) (nonblock : taskQueue.nonblock = s.taskQueue.nonblock) :
    Inv (s.popReturns worker (taskQueue.popLocked worker)) := by
  have tasks := inv.tasks
  rw [← queue] at tasks
  have moved := fun next => held_update s.workers worker next
  simp only [idle, add_zero] at moved
  obtain ⟨task, rest, content, result⟩ | ⟨content, mode, result⟩ | ⟨content, mode, result⟩ :=
    popLocked_cases taskQueue worker
  · rw [result]
    apply inv.moved
    · simp only [Worker.popped, moved, load]
      rw [tasks, content, ← Multiset.cons_coe, ← Multiset.singleton_add]
      ac_rfl
    · exact nonblock
    · exact fun left => by cases left
  · rw [result]
    apply inv.moved
    · simp only [Worker.popped, moved, load, add_zero]
      exact tasks
    · exact nonblock
    · exact fun _ => ⟨mode, content⟩
  · rw [result]
    apply inv.moved
    · simp only [Worker.popped, moved, load, add_zero]
      exact tasks
    · exact nonblock
    · exact fun left => by cases left

theorem step_inv (atLeastOne : 1 ≤ threadNum) {s t : Pool threadNum Task} {event : Event threadNum Task}
    (inv : Inv s) (taken : step s event = some t) : Inv t := by
  cases event with
  | post task choice =>
      simp only [step] at taken
      split at taken
      · cases taken
      · rename_i alive
        refine inv.push ⟨⟨0, atLeastOne⟩, ?_⟩ taken
        intro left
        exact alive (inv.destroyed (inv.leaves _ left))
  | postFrom worker task choice =>
      simp only [step] at taken
      split at taken
      · rename_i at_
        exact inv.push ⟨worker, by simp [at_]⟩ taken
      · cases taken
  | pop worker =>
      simp only [step] at taken
      split at taken
      · rename_i at_
        obtain ⟨result, popped, rfl⟩ := Option.map_eq_some_iff.mp taken
        rw [BlockingQueue.pop] at popped
        split at popped
        · cases popped
        · obtain rfl := Option.some.inj popped
          exact inv.popReturns (by rw [at_]; rfl) rfl rfl
      · cases taken
  | resume worker =>
      simp only [step] at taken
      split at taken
      · rename_i at_
        obtain ⟨result, resumed, rfl⟩ := Option.map_eq_some_iff.mp taken
        obtain ⟨notEmpty, -, rfl⟩ := resume_spec resumed
        exact inv.popReturns (by rw [at_]; rfl) rfl rfl
      · cases taken
  | wakeUp worker =>
      obtain ⟨taskQueue, woke, rfl⟩ := Option.map_eq_some_iff.mp taken
      obtain ⟨notEmpty, -, rfl⟩ := wakeUp_spec woke
      exact ⟨inv.tasks, inv.leaves, inv.destroyed, inv.served⟩
  | finish worker =>
      simp only [step] at taken
      split at taken
      · rename_i task at_
        obtain rfl := Option.some.inj taken
        apply inv.moved
        · have moved := held_update s.workers worker .looking
          rw [at_] at moved
          simp only [load, add_zero] at moved
          rw [inv.tasks, ← moved, ← Multiset.coe_add, Multiset.coe_singleton]
          ac_rfl
        · rfl
        · exact fun left => by cases left
      · cases taken
  | destroy =>
      simp only [step] at taken
      split at taken
      · cases taken
      · obtain rfl := Option.some.inj taken
        exact ⟨inv.tasks, inv.leaves, fun _ => rfl, inv.served⟩
  | cancel =>
      simp only [step] at taken
      split at taken
      · rename_i destroying
        obtain rfl := Option.some.inj taken
        exact ⟨inv.tasks, fun _ _ => rfl, fun _ => destroying, inv.served⟩
      · cases taken

theorem popReturns_leaves {s : Pool threadNum Task} {worker other : Fin threadNum}
    {taskQueue : BlockingQueue Task (Fin threadNum)} (before : s.workers other ≠ .left)
    (after : (s.popReturns worker (taskQueue.popLocked worker)).workers other = .left) :
    taskQueue.nonblock = true ∧ taskQueue.queue = [] := by
  by_cases same : other = worker
  · subst same
    simp only [Pool.popReturns, Function.update_self] at after
    obtain ⟨task, rest, content, result⟩ | ⟨content, mode, result⟩ | ⟨content, mode, result⟩ :=
      popLocked_cases taskQueue other
    · rw [result] at after
      cases after
    · exact ⟨mode, content⟩
    · rw [result] at after
      cases after
  · simp only [Pool.popReturns, Function.update_of_ne same] at after
    exact absurd after before

theorem push_workers {s t : Pool threadNum Task} {task : Task} {choice : Option (Fin threadNum)}
    (pushed : s.push task choice = some t) : t.workers = s.workers := by
  obtain ⟨taskQueue, -, rest⟩ := Option.bind_eq_some_iff.mp pushed
  obtain rfl := Option.some.inj rest
  rfl

theorem step_leaves {s t : Pool threadNum Task} {event : Event threadNum Task} {worker : Fin threadNum}
    (taken : step s event = some t) (before : s.workers worker ≠ .left) (after : t.workers worker = .left) :
    s.taskQueue.nonblock = true ∧ s.taskQueue.queue = [] := by
  cases event with
  | post task choice =>
      simp only [step] at taken
      split at taken
      · cases taken
      · rw [push_workers taken] at after
        exact absurd after before
  | postFrom other task choice =>
      simp only [step] at taken
      split at taken
      · rw [push_workers taken] at after
        exact absurd after before
      · cases taken
  | pop other =>
      simp only [step] at taken
      split at taken
      · obtain ⟨result, popped, rfl⟩ := Option.map_eq_some_iff.mp taken
        rw [BlockingQueue.pop] at popped
        split at popped
        · cases popped
        · obtain rfl := Option.some.inj popped
          exact popReturns_leaves before after
      · cases taken
  | resume other =>
      simp only [step] at taken
      split at taken
      · obtain ⟨result, resumed, rfl⟩ := Option.map_eq_some_iff.mp taken
        obtain ⟨notEmpty, -, rfl⟩ := resume_spec resumed
        have leaves := popReturns_leaves before after
        exact leaves
      · cases taken
  | wakeUp other =>
      obtain ⟨taskQueue, -, rfl⟩ := Option.map_eq_some_iff.mp taken
      exact absurd after before
  | finish other =>
      simp only [step] at taken
      split at taken
      · obtain rfl := Option.some.inj taken
        by_cases same : worker = other
        · subst same
          simp at after
        · simp only [Function.update_of_ne same] at after
          exact absurd after before
      · cases taken
  | destroy =>
      simp only [step] at taken
      split at taken
      · cases taken
      · obtain rfl := Option.some.inj taken
        exact absurd after before
  | cancel =>
      simp only [step] at taken
      split at taken
      · obtain rfl := Option.some.inj taken
        exact absurd after before
      · cases taken

theorem Inv.all_left {s : Pool threadNum Task} (inv : Inv s) (left : ∀ worker, s.workers worker = .left) :
    s.executed.Perm s.posted := by
  have empty : s.taskQueue.queue = [] := by
    by_contra elements
    obtain ⟨worker, there⟩ := inv.served elements
    exact there (left worker)
  have tasks := inv.tasks
  have nothing : held s.workers = 0 := by simp [held, left, load]
  rw [empty, nothing, Multiset.coe_nil, add_zero, add_zero] at tasks
  exact (Multiset.coe_eq_coe.mp tasks).symm

theorem threadPool_exactlyOnce (threadNum : Nat) (Task : Type) (atLeastOne : 1 ≤ threadNum)
    (events : List (Event threadNum Task)) (s : Pool threadNum Task)
    (ran : run step (create threadNum Task) events = some s) :
    (∀ event t worker, step s event = some t → s.workers worker ≠ .left → t.workers worker = .left →
        s.taskQueue.nonblock = true ∧ s.taskQueue.queue = []) ∧
      s.executed.Subperm s.posted ∧
      ((∀ worker, s.workers worker = .left) → s.executed.Perm s.posted) := by
  have inv := run_invariant Inv (fun _ _ _ inv taken => step_inv atLeastOne inv taken) create_inv ran
  refine ⟨fun event t worker taken before after => step_leaves taken before after, ?_, inv.all_left⟩
  apply Multiset.coe_le.mp
  rw [inv.tasks, add_assoc]
  exact Multiset.le_add_right _ _

-- Two workers; the first task posts a second one after `Cancel`, which the other worker, already on its way out
-- of `wait`, must not miss.
def latePost (first other : Fin 2) : List (Event 2 Nat) :=
  [.pop first, .pop other, .post 7 (some first), .resume first, .destroy, .cancel, .postFrom first 8 none,
    .resume other, .finish first, .pop first, .finish other, .pop other]

theorem threadPool_exactlyOnce_latePost :
    ∃ s, run step (create 2 Nat) (latePost 0 1) = some s ∧ s.posted = [7, 8] ∧ s.executed.Perm [7, 8] := by
  have possible : (run step (create 2 Nat) (latePost 0 1)).map (fun s => (s.posted, s.workers 0, s.workers 1)) =
      some ([7, 8], .left, .left) := by decide
  obtain ⟨s, ran, same⟩ := Option.map_eq_some_iff.mp possible
  obtain ⟨posted, first, second⟩ : s.posted = [7, 8] ∧ s.workers 0 = .left ∧ s.workers 1 = .left := by
    simpa using same
  have left : ∀ worker, s.workers worker = .left := by
    intro worker
    match worker with
    | 0 => exact first
    | 1 => exact second
  obtain ⟨-, -, all⟩ := threadPool_exactlyOnce 2 Nat (by decide) (latePost 0 1) s ran
  have executed := all left
  rw [posted] at executed
  exact ⟨s, ran, posted, executed⟩

end Pool

end CppInfra.ThreadPool
