import CppInfra.Shared.Holders
import CppInfra.Shared.Transition
import CppInfra.Shared.Words

set_option autoImplicit false

namespace CppInfra.AtomicLock.SharedPtr

open Words Transition

-- A `shared_ptr` is known by its address, a multiple of 8.
structure Object where
  slot : Nat
  fits : slot < 2 ^ 61
  deriving DecidableEq

-- The fields `ptr_` and `ref_count_`. The counter that is made for a raw pointer is called as the pointer is.
structure Cell where
  ptr : Option Nat
  refCount : Option Nat
  deriving DecidableEq

-- What an operation has to do once its `release()`, if it has one, is over: to take the fields of another
-- `shared_ptr`, which it clears in a move, to take a raw pointer, or to end the life of the object.
inductive Rest where
  | take (other : Object) (move : Bool)
  | write (p : Option Nat)
  | leave
  deriving DecidableEq

inductive Point where
  | fetchSub
  | deletePtr
  | deleteCount
  | setPtr
  | setCount
  | fetchAdd
  | nullPtr
  | nullCount
  | endLife
  deriving DecidableEq

structure Task where
  this : Object
  rest : Rest
  point : Point
  deriving DecidableEq

def Task.used (task : Task) : List Object :=
  match task.rest with
  | .take other _ => [task.this, other]
  | _ => [task.this]

def Task.modified (task : Task) : List Object :=
  match task.rest with
  | .take other true => [task.this, other]
  | _ => [task.this]

-- `live` are the objects whose life has begun and not ended, `given` the raw pointers that were handed over, each
-- to a new object of type `T`. The logs list the calls `delete ptr_` and `delete ref_count_`.
structure State (Thread : Type) where
  cells : Object → Cell
  live : List Object
  counters : Nat → Option Nat
  given : List Nat
  deletedPtrs : List Nat
  deletedCounts : List Nat
  threads : Thread → Option Task

inductive Operation where
  | construct (this : Object) (p : Option Nat)
  | copyConstruct (this other : Object)
  | moveConstruct (this other : Object)
  | copyAssign (this other : Object)
  | moveAssign (this other : Object)
  | reset (this : Object) (p : Option Nat)
  | destroy (this : Object)
  deriving DecidableEq

def Operation.constructs : Operation → Bool
  | .construct .. | .copyConstruct .. | .moveConstruct .. => true
  | _ => false

def Operation.task : Operation → Task
  | .construct this p => ⟨this, .write p, .setPtr⟩
  | .copyConstruct this other => ⟨this, .take other false, .setPtr⟩
  | .moveConstruct this other => ⟨this, .take other true, .setPtr⟩
  | .copyAssign this other => ⟨this, .take other false, .fetchSub⟩
  | .moveAssign this other => ⟨this, .take other true, .fetchSub⟩
  | .reset this p => ⟨this, .write p, .fetchSub⟩
  | .destroy this => ⟨this, .leave, .fetchSub⟩

def Operation.this (op : Operation) : Object := op.task.this

def Operation.other (op : Operation) : Option Object :=
  match op.task.rest with
  | .take other _ => some other
  | _ => none

def Operation.raw (op : Operation) : Option Nat :=
  match op.task.rest with
  | .write p => p
  | _ => none

-- `this != &other` fails.
def Operation.toSelf (op : Operation) : Bool := !op.constructs && decide (op.other = some op.this)

inductive Event (Thread : Type) where
  | start (thread : Thread) (op : Operation)
  | advance (thread : Thread)

variable {Thread : Type} [DecidableEq Thread]

def State.initial (Thread : Type) : State Thread :=
  { cells := fun _ => ⟨none, none⟩
    live := []
    counters := fun _ => none
    given := []
    deletedPtrs := []
    deletedCounts := []
    threads := fun _ => none }

def State.goto (s : State Thread) (thread : Thread) (task : Task) (point : Point) : State Thread :=
  { s with threads := Function.update s.threads thread (some { task with point := point }) }

def State.done (s : State Thread) (thread : Thread) : State Thread :=
  { s with threads := Function.update s.threads thread none }

def State.setPtr (s : State Thread) (x : Object) (ptr : Option Nat) : State Thread :=
  { s with cells := Function.update s.cells x { s.cells x with ptr := ptr } }

def State.setCount (s : State Thread) (x : Object) (refCount : Option Nat) : State Thread :=
  { s with cells := Function.update s.cells x { s.cells x with refCount := refCount } }

def Rest.begin : Rest → Point
  | .leave => .endLife
  | _ => .setPtr

-- One step of an operation. There is no result where a counter or an object that does not exist is touched.
def State.perform (s : State Thread) (thread : Thread) (task : Task) : Option (State Thread) :=
  match task.point, task.rest with
  | .fetchSub, rest =>
      match (s.cells task.this).refCount with
      | none => some (s.goto thread task rest.begin)
      | some c => do
          let n ← s.counters c
          let s' := { s with counters := Function.update s.counters c (some (sub 64 n 1)) }
          some (s'.goto thread task (if n = 1 then .deletePtr else rest.begin))
  | .deletePtr, _ =>
      match (s.cells task.this).ptr with
      | none => some (s.goto thread task .deleteCount)
      | some p =>
          if p ∈ s.given ∧ p ∉ s.deletedPtrs then
            some ({ s with deletedPtrs := s.deletedPtrs ++ [p] }.goto thread task .deleteCount)
          else none
  | .deleteCount, rest =>
      match (s.cells task.this).refCount with
      | none => some (s.goto thread task rest.begin)
      | some c => do
          let _ ← s.counters c
          let s' :=
            { s with
              counters := Function.update s.counters c none
              deletedCounts := s.deletedCounts ++ [c] }
          some (s'.goto thread task rest.begin)
  | .setPtr, .take other _ => some ((s.setPtr task.this (s.cells other).ptr).goto thread task .setCount)
  | .setPtr, .write p => some ((s.setPtr task.this p).goto thread task .setCount)
  | .setCount, .take other move =>
      some ((s.setCount task.this (s.cells other).refCount).goto thread task (if move then .nullPtr else .fetchAdd))
  | .setCount, .write none => some ((s.setCount task.this none).done thread)
  | .setCount, .write (some p) =>
      -- `new std::atomic<std::size_t>(1)`
      some ({ s.setCount task.this (some p) with counters := Function.update s.counters p (some 1) }.done thread)
  | .fetchAdd, _ =>
      match (s.cells task.this).refCount with
      | none => some (s.done thread)
      | some c => do
          let n ← s.counters c
          some ({ s with counters := Function.update s.counters c (some (add 64 n 1)) }.done thread)
  | .nullPtr, .take other _ => some ((s.setPtr other none).goto thread task .nullCount)
  | .nullCount, .take other _ => some ((s.setCount other none).done thread)
  | .endLife, .leave => some ({ s with live := s.live.erase task.this }.done thread)
  | _, _ => none

def step (s : State Thread) : Event Thread → Option (State Thread)
  | .start thread op =>
      match s.threads thread with
      | some _ => none
      | none =>
          if op.toSelf then some s
          else
            some { s with
              live := if op.constructs then s.live ++ [op.this] else s.live
              given := s.given ++ op.raw.toList
              threads := Function.update s.threads thread (some op.task) }
  | .advance thread => (s.threads thread).bind (s.perform thread)

def Compatible (a b : Task) : Prop := (∀ x ∈ a.modified, x ∉ b.used) ∧ ∀ x ∈ b.modified, x ∉ a.used

instance compatibleDecidable (a b : Task) : Decidable (Compatible a b) := inferInstanceAs (Decidable (_ ∧ _))

-- An assignment to itself only compares addresses. Every other operation is one of a live object, or begins the
-- life of one, and takes over no raw pointer that was given away before.
def Meets (s : State Thread) : Event Thread → Prop
  | .start thread op =>
      s.threads thread = none ∧ (op.this ∈ s.live ↔ op.constructs = false) ∧
        (op.toSelf = false → (∀ x ∈ op.other, x ∈ s.live) ∧ (∀ p ∈ op.raw, p ∉ s.given) ∧
          ∀ other, ∀ task ∈ s.threads other, Compatible op.task task)
  | .advance thread => s.threads thread ≠ none

end CppInfra.AtomicLock.SharedPtr
