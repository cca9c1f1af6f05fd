import CppInfra.Shared.Transition
import Mathlib.Algebra.Group.Int.Defs
import Mathlib.Data.List.Nodup

set_option autoImplicit false

namespace CppInfra.Timer.TimerSet

open Transition

structure TimerNodeBase where
  expire : Int
  id : Int
  deriving DecidableEq, Repr

-- `operator <`
def less (lhd rhd : TimerNodeBase) : Bool :=
  if lhd.expire < rhd.expire then true
  else if lhd.expire > rhd.expire then false
  else lhd.id < rhd.id

-- The elements of the set in the order of its iterators.
abbrev Timeouts := List TimerNodeBase

-- `std::set::emplace`: the element at the iterator that it returns, and the set. Nothing is added where an
-- element is neither less nor greater.
def emplace (node : TimerNodeBase) : Timeouts → TimerNodeBase × Timeouts
  | [] => (node, [node])
  | other :: rest =>
      if less other node then ((emplace node rest).1, other :: (emplace node rest).2)
      else if less node other then (node, node :: other :: rest)
      else (other, other :: rest)

def emplaceHintEnd (node : TimerNodeBase) (timeouts : Timeouts) : TimerNodeBase × Timeouts :=
  match timeouts.getLast? with
  | none => (node, [node])
  | some last => if less last node then (node, timeouts ++ [node]) else emplace node timeouts

def addTimer (timeouts : Timeouts) (node : TimerNodeBase) : TimerNodeBase × Timeouts :=
  match timeouts.getLast? with
  | none => emplace node timeouts
  | some last => if node.expire ≤ last.expire then emplace node timeouts else emplaceHintEnd node timeouts

-- `find` compares with `operator <`, so that it finds an element which is neither less nor greater.
def delTimer (timeouts : Timeouts) (node : TimerNodeBase) : Bool × Timeouts :=
  match timeouts.find? fun other => !less other node && !less node other with
  | some found => (true, timeouts.erase found)
  | none => (false, timeouts)

def following (node : TimerNodeBase) : Timeouts → Option TimerNodeBase
  | [] => none
  | other :: rest => if other = node then rest.head? else following node rest

-- In `scanning` the iterator of `HandleTimer(now)` is at an element or at `end()`, and its loop test is next; in
-- `calling` the callback of the element at the iterator runs. `since` callbacks had run before the call.
inductive Place where
  | outside
  | scanning (now : Int) (since : Nat) (iter : Option TimerNodeBase)
  | calling (now : Int) (since : Nat) (iter : TimerNodeBase)
  deriving DecidableEq, Repr

-- `clock` is what `GetTick` has returned at least. `added` are the nodes that `AddTimer` has returned, `fired`
-- those whose callbacks were started, `deleted` those for which `DelTimer` has returned true.
structure State where
  timeouts : Timeouts
  gid : Int
  place : Place
  clock : Int
  added : List TimerNodeBase
  fired : List TimerNodeBase
  deleted : List TimerNodeBase
  deriving DecidableEq, Repr

def State.initial : State :=
  { timeouts := [], gid := 0, place := .outside, clock := -2 ^ 63, added := [], fired := [], deleted := [] }

inductive Event where
  | addTimer (tick msec : Int)
  | delTimer (node : TimerNodeBase)
  | handleTimer (now : Int)
  | test
  | callbackDone
  deriving DecidableEq, Repr

def Place.free : Place → Bool
  | .scanning _ _ _ => false
  | _ => true

def Place.calls : Place → Option TimerNodeBase
  | .calling _ _ iter => some iter
  | _ => none

-- No result where a signed addition overflows, or where the iterator of `HandleTimer` is no longer valid.
def step (s : State) : Event → Option State
  | .addTimer tick msec =>
      if s.place.free ∧ tick + msec < 2 ^ 63 ∧ s.gid + 1 < 2 ^ 63 then
        let (node, timeouts) := addTimer s.timeouts ⟨tick + msec, s.gid⟩
        some { s with timeouts := timeouts, gid := s.gid + 1, clock := tick, added := s.added ++ [node] }
      else none
  | .delTimer node =>
      if s.place.free ∧ s.place.calls ≠ some node then
        let (found, timeouts) := delTimer s.timeouts node
        some { s with timeouts := timeouts, deleted := if found then s.deleted ++ [node] else s.deleted }
      else none
  | .handleTimer now =>
      if s.place = .outside then
        some { s with place := .scanning now s.fired.length s.timeouts.head?, clock := max s.clock now }
      else none
  | .test =>
      match s.place with
      | .scanning _ _ none => some { s with place := .outside }
      | .scanning now since (some node) =>
          if node ∈ s.timeouts then
            if node.expire ≤ now then some { s with place := .calling now since node, fired := s.fired ++ [node] }
            else some { s with place := .outside }
          else none
      | _ => none
  | .callbackDone =>
      match s.place with
      | .calling now since node =>
          if node ∈ s.timeouts then
            some
              { s with
                timeouts := s.timeouts.erase node
                place := .scanning now since (following node s.timeouts) }
          else none
      | _ => none

end CppInfra.Timer.TimerSet
