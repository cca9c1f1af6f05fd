import CppInfra.Shared.ConditionVariable
import CppInfra.Shared.Simulation
import CppInfra.Shared.Words
import Mathlib.Data.List.Induction
import Mathlib.Logic.Function.Basic

set_option autoImplicit false

namespace CppInfra.ThreadPool

open ConditionVariable Simulation Words

-- Where a thread stands in `Pop`: about to take `prod_mutex_` in `SwapQueue_`, inside `not_empty_.wait`, or back
-- from `SwapQueue_` with its result. In all of them it has `cons_mutex_`.
inductive Phase where
  | outside
  | swapping
  | sleeping
  | swapped (size : Int)
  deriving DecidableEq

structure BlockingQueuePro (T Thread : Type) where
  nonblock : Bool
  prodQueue : List T
  consQueue : List T
  consMutex : Option Thread
  notEmpty : Condition Thread
  phase : Thread → Phase

inductive Label (T Thread : Type) where
  | push (value : T)
  | cancel
  | takes (thread : Thread) (value : T)
  | findsNothing (thread : Thread)
  | returnsFalse (thread : Thread)
  | internal
  deriving DecidableEq

namespace BlockingQueuePro

variable {T Thread : Type} [DecidableEq Thread]

inductive Event (T Thread : Type) where
  | push (value : T) (choice : Option Thread)
  | pop (thread : Thread)
  | swap (thread : Thread)
  | resume (thread : Thread)
  | wakeUp (thread : Thread)
  | finish (thread : Thread)
  | cancel

def create (nonblock : Bool) : BlockingQueuePro T Thread :=
  { nonblock := nonblock
    prodQueue := []
    consQueue := []
    consMutex := none
    notEmpty := .empty
    phase := fun _ => .outside }

-- `!prod_queue_.empty() || nonblock_`
def ready (q : BlockingQueuePro T Thread) : Bool := !q.prodQueue.isEmpty || q.nonblock

-- `SwapQueue_` from the moment it has `prod_mutex_`. It returns an `int`: the low 32 bits of `cons_queue_.size()`.
def swapLocked (q : BlockingQueuePro T Thread) (thread : Thread) : BlockingQueuePro T Thread × Label T Thread :=
  if q.ready then
    ({ q with
        prodQueue := q.consQueue
        consQueue := q.prodQueue
        phase := Function.update q.phase thread (.swapped (toSigned 32 q.prodQueue.length)) },
      if toSigned 32 q.prodQueue.length = 0 then .findsNothing thread else .internal)
  else
    ({ q with
        notEmpty := q.notEmpty.wait thread
        phase := Function.update q.phase thread .sleeping }, .internal)

def step (q : BlockingQueuePro T Thread) : Event T Thread → Option (BlockingQueuePro T Thread × Label T Thread)
  | .push value choice => do
      let notEmpty ← q.notEmpty.notifyOne choice
      some ({ q with prodQueue := q.prodQueue ++ [value], notEmpty := notEmpty }, .push value)
  | .pop thread =>
      if q.consMutex = none ∧ q.phase thread = .outside then
        match q.consQueue with
        | [] => some ({ q with consMutex := some thread, phase := Function.update q.phase thread .swapping }, .internal)
        | value :: rest => some ({ q with consQueue := rest }, .takes thread value)
      else none
  | .swap thread => if q.phase thread = .swapping then some (q.swapLocked thread) else none
  | .resume thread => do
      let notEmpty ← q.notEmpty.resume thread
      some ({ q with notEmpty := notEmpty }.swapLocked thread)
  | .wakeUp thread => do
      let notEmpty ← q.notEmpty.wakeUp thread
      some ({ q with notEmpty := notEmpty }, .internal)
  | .finish thread =>
      match q.phase thread with
      | .swapped size =>
          if size = 0 then
            some ({ q with consMutex := none, phase := Function.update q.phase thread .outside }, .returnsFalse thread)
          else
            match q.consQueue with
            | [] => none
            | value :: rest =>
                some ({ q with
                  consQueue := rest
                  consMutex := none
                  phase := Function.update q.phase thread .outside }, .takes thread value)
      | _ => none
  | .cancel => some ({ q with nonblock := true, notEmpty := q.notEmpty.notifyAll }, .cancel)

end BlockingQueuePro

-- One queue. A call may give up only while the queue is empty and does not block; it returns later.
@[ext]
structure Fifo (T Thread : Type) where
  nonblock : Bool
  content : List T
  refused : Thread → Bool

namespace Fifo

variable {T Thread : Type} [DecidableEq Thread]

def create (nonblock : Bool) : Fifo T Thread := { nonblock := nonblock, content := [], refused := fun _ => false }

def Move (a : Fifo T Thread) : Label T Thread → Fifo T Thread → Prop
  | .push value, b => b = { a with content := a.content ++ [value] }
  | .cancel, b => b = { a with nonblock := true }
  | .takes _ value, b => a.content = value :: b.content ∧ b.nonblock = a.nonblock ∧ b.refused = a.refused
  | .findsNothing thread, b =>
      a.nonblock = true ∧ a.content = [] ∧ b = { a with refused := Function.update a.refused thread true }
  | .returnsFalse thread, b =>
      a.refused thread = true ∧ b = { a with refused := Function.update a.refused thread false }
  | .internal, b => b = a

theorem move_iff {a b : Fifo T Thread} {label : Label T Thread} (moved : Move a label b) (c : Fifo T Thread) :
    Move a label c ↔ c = b := by
  refine ⟨fun other => ?_, fun same => same ▸ moved⟩
  cases label with
  | push value => exact other.trans moved.symm
  | cancel => exact other.trans moved.symm
  | takes thread value =>
      have content := other.1.symm.trans moved.1
      exact Fifo.ext (other.2.1.trans moved.2.1.symm) (List.cons.inj content).2 (other.2.2.trans moved.2.2.symm)
  | findsNothing thread => exact other.2.2.trans moved.2.2.symm
  | returnsFalse thread => exact other.2.trans moved.2.symm
  | internal => exact other.trans moved.symm

def pushes (labels : List (Label T Thread)) : List T :=
  labels.filterMap fun label =>
    match label with
    | .push value => some value
    | _ => none

def takes (labels : List (Label T Thread)) : List T :=
  labels.filterMap fun label =>
    match label with
    | .takes _ value => some value
    | _ => none

theorem moves_content {a b : Fifo T Thread} {labels : List (Label T Thread)} (moves : Moves Move a labels b) :
    a.content ++ pushes labels = takes labels ++ b.content := by
  induction labels generalizing a with
  | nil =>
      obtain rfl := moves
      simp [pushes, takes]
  | cons label rest ih =>
      obtain ⟨next, moved, after⟩ := moves
      have later := ih after
      cases label with
      | push value =>
          obtain rfl := moved
          simpa [pushes, takes] using later
      | cancel =>
          obtain rfl := moved
          exact later
      | takes thread value =>
          obtain ⟨front, -, -⟩ := moved
          rw [front]
          exact congrArg (value :: ·) later
      | findsNothing thread =>
          obtain ⟨-, -, rfl⟩ := moved
          exact later
      | returnsFalse thread =>
          obtain ⟨-, rfl⟩ := moved
          exact later
      | internal =>
          obtain rfl := moved
          exact later

theorem moves_drained {nonblock : Bool} {b : Fifo T Thread} {first rest : List (Label T Thread)} {thread : Thread}
    (moves : Moves Move (create nonblock) (first ++ .findsNothing thread :: rest) b) :
    takes first = pushes first := by
  obtain ⟨middle, early, next, ⟨-, empty, -⟩, -⟩ := moves_append.mp moves
  have content := moves_content early
  rw [empty, List.append_nil] at content
  exact content.symm

theorem moves_nonblock {a b : Fifo T Thread} {labels : List (Label T Thread)} (moves : Moves Move a labels b)
    (mode : b.nonblock = true) : a.nonblock = true ∨ .cancel ∈ labels := by
  induction labels generalizing a with
  | nil =>
      obtain rfl := moves
      exact .inl mode
  | cons label rest ih =>
      obtain ⟨next, moved, after⟩ := moves
      rcases ih after with set | cancelled
      · cases label with
        | cancel => exact .inr (List.mem_cons_self ..)
        | push value =>
            obtain rfl := moved
            exact .inl set
        | takes thread value =>
            obtain ⟨-, same, -⟩ := moved
            exact .inl (same ▸ set)
        | findsNothing thread => exact .inl moved.1
        | returnsFalse thread =>
            obtain ⟨-, rfl⟩ := moved
            exact .inl set
        | internal =>
            obtain rfl := moved
            exact .inl set
      · exact .inr (List.mem_cons_of_mem label cancelled)

theorem move_refused {a b : Fifo T Thread} {label : Label T Thread} {thread : Thread} (moved : Move a label b)
    (refused : b.refused thread = true) :
    label = .findsNothing thread ∨ (label ≠ .returnsFalse thread ∧ a.refused thread = true) := by
  cases label with
  | push value =>
      obtain rfl := moved
      exact .inr ⟨by simp, refused⟩
  | cancel =>
      obtain rfl := moved
      exact .inr ⟨by simp, refused⟩
  | takes other value =>
      obtain ⟨-, -, same⟩ := moved
      exact .inr ⟨by simp, same ▸ refused⟩
  | findsNothing other =>
      obtain ⟨-, -, rfl⟩ := moved
      by_cases same : thread = other
      · exact .inl (by rw [same])
      · simp only [Function.update_of_ne same] at refused
        exact .inr ⟨by simp, refused⟩
  | returnsFalse other =>
      obtain ⟨-, rfl⟩ := moved
      by_cases same : thread = other
      · simp [same] at refused
      · simp only [Function.update_of_ne same] at refused
        exact .inr ⟨by simpa using Ne.symm same, refused⟩
  | internal =>
      obtain rfl := moved
      exact .inr ⟨by simp, refused⟩

theorem moves_refused {a b : Fifo T Thread} {labels : List (Label T Thread)} {thread : Thread}
    (moves : Moves Move a labels b) (fresh : a.refused thread = false) (refused : b.refused thread = true) :
    ∃ early late, labels = early ++ .findsNothing thread :: late ∧ .returnsFalse thread ∉ late := by
  induction labels using List.reverseRecOn generalizing b with
  | nil =>
      obtain rfl := moves
      rw [fresh] at refused
      cases refused
  | append_singleton labels label ih =>
      obtain ⟨middle, before, last, moved, rfl⟩ := moves_append.mp moves
      rcases move_refused moved refused with rfl | ⟨other, already⟩
      · exact ⟨labels, [], rfl, by simp⟩
      · obtain ⟨early, late, rfl, unreturned⟩ := ih before already
        refine ⟨early, late ++ [label], by simp, ?_⟩
        simpa [unreturned] using other.symm

theorem moves_returnsFalse {nonblock : Bool} {b : Fifo T Thread} {first rest : List (Label T Thread)}
    {thread : Thread} (moves : Moves Move (create nonblock) (first ++ .returnsFalse thread :: rest) b) :
    ∃ early late, first = early ++ .findsNothing thread :: late ∧ .returnsFalse thread ∉ late ∧
      takes early = pushes early ∧ (nonblock = true ∨ .cancel ∈ early) := by
  obtain ⟨middle, before, next, ⟨refused, -⟩, -⟩ := moves_append.mp moves
  obtain ⟨early, late, rfl, unreturned⟩ := moves_refused before rfl refused
  obtain ⟨found, start, -, ⟨mode, -, -⟩, -⟩ := moves_append.mp before
  exact ⟨early, late, rfl, unreturned, moves_drained before, moves_nonblock start mode⟩

end Fifo

end CppInfra.ThreadPool
