import CppInfra.Timer.TimeWheel
import CppInfra.Shared.TailedLists
import Mathlib.Data.List.Nodup

set_option autoImplicit false

namespace CppInfra.Timer.TimeWheel.Memory

open Words Transition TailedLists

structure TimerNode where
  next : Option Nat
  expire : Nat
  callback : Nat
  cancel : UInt8
  id : Int
  deriving DecidableEq

inductive Walker where
  | idle
  | dispatching (shifted : Bool) (idx : Nat) (current : Option Nat)
  deriving DecidableEq

-- A node that `dispatch_list` has come to, or whose callback `add_timer` itself has run.
structure Turn where
  node : Nat
  atOnce : Bool
  callback : Nat
  id : Int
  ticks : Nat
  deriving DecidableEq

-- Nodes are numbered by the `malloc` call that returned them; `links` holds their `next` and the heads and tails
-- of the lists. `ran` are the turns whose callback was run, `deleted` the nodes that `del_timer` was given.
structure STimer (P : Type) where
  links : Links Slot Nat
  expire : Nat → Nat
  callback : Nat → Nat
  cancel : Nat → UInt8
  id : Nat → Int
  time : Nat
  allocated : Nat
  walkers : P → Walker
  ticks : Nat
  turns : List Turn
  ran : List Turn
  deleted : List Nat

inductive Event (P : Type) where
  | addTimer (time : Int) (func : Nat) (threadid : Int)
  | delTimer (node : Nat)
  | update (p : P)
  | dispatch (p : P)
  | resume (p : P)

variable {P : Type}

def timerCreateTimer : STimer P :=
  { links := { next := fun _ => none, tail := .head }
    expire := fun _ => 0
    callback := fun _ => 0
    cancel := fun _ => 0
    id := fun _ => 0
    time := 0
    allocated := 0
    walkers := fun _ => .idle
    ticks := 0
    turns := []
    ran := []
    deleted := [] }

def malloc (s : STimer P) (node : TimerNode) : STimer P :=
  { s with
    links := { s.links with next := Function.update s.links.next (.node s.allocated) node.next }
    expire := Function.update s.expire s.allocated node.expire
    callback := Function.update s.callback s.allocated node.callback
    cancel := Function.update s.cancel s.allocated node.cancel
    id := Function.update s.id s.allocated node.id
    allocated := s.allocated + 1 }

-- What the memory of a freed node holds is not read again.
def free (s : STimer P) (node : Nat) : STimer P :=
  { s with links := { s.links with next := Function.update s.links.next (.node node) none } }

def addNode (s : STimer P) (node : Nat) : STimer P :=
  { s with links := linkTo s.links (slotOf (s.expire node) s.time) node }

def turn (s : STimer P) (node : Nat) (atOnce : Bool) : Turn :=
  { node := node, atOnce := atOnce, callback := s.callback node, id := s.id node, ticks := s.ticks }

-- Every field is written but `cancel`, and `next` by `link`.
def addTimer (s : STimer P) (memory : TimerNode) (time : Int) (func : Nat) (threadid : Int) : STimer P :=
  let node := s.allocated
  let s := malloc s memory
  let s :=
    { s with
      expire := Function.update s.expire node ((time + s.time) % 2 ^ 32).toNat
      callback := Function.update s.callback node func
      id := Function.update s.id node threadid }
  if time ≤ 0 then
    free { s with turns := s.turns ++ [turn s node true], ran := s.ran ++ [turn s node true] } node
  else addNode s node

-- The loop has as many turns as there are nodes, and one to find the end.
def moveList (s : STimer P) (level idx : Nat) : Option (STimer P) :=
  let (current, links) := TailedLists.linkClear s.links (.t level idx)
  (relink (fun x => slotOf (s.expire x) s.time) (s.allocated + 1) links current).map fun links =>
    { s with links := links }

def timerShift (s : STimer P) : Option (STimer P) := do
  let ct := add 32 s.time 1
  let s := { s with time := ct, ticks := s.ticks + 1 }
  if ct = 0 then moveList s 3 0
  else
    match ← shiftedList 4 ct (2 ^ 8) (ct / 2 ^ 8) 0 with
    | none => some s
    | some (level, idx) => moveList s level idx

variable [DecidableEq P]

def STimer.setWalker (s : STimer P) (p : P) (walker : Walker) : STimer P :=
  { s with walkers := Function.update s.walkers p walker }

def detach (s : STimer P) (p : P) (shifted : Bool) (idx : Nat) : STimer P :=
  let (current, links) := TailedLists.linkClear s.links (.near idx)
  { s with links := links }.setWalker p (.dispatching shifted idx current)

def executeShifted (s : STimer P) (p : P) (idx : Nat) : STimer P :=
  if s.links.next (.head (.near idx)) ≠ none then detach s p true idx else s.setWalker p .idle

def executeFirst (s : STimer P) (p : P) (idx : Nat) : Option (STimer P) := do
  if s.links.next (.head (.near idx)) ≠ none then some (detach s p false idx)
  else
    let s ← timerShift s
    some (executeShifted s p (s.time % 2 ^ 8))

def dispatch (s : STimer P) (p : P) (shifted : Bool) (idx temp : Nat) : STimer P :=
  let called :=
    { s with
      turns := s.turns ++ [turn s temp false]
      ran := if s.cancel temp = 0 then s.ran ++ [turn s temp false] else s.ran }
  (free called temp).setWalker p (.dispatching shifted idx (s.links.next (.node temp)))

-- `memory` is what each `malloc` returns. A node that was freed is not given to `del_timer`.
def step (memory : Nat → TimerNode) (s : STimer P) : Event P → Option (STimer P)
  | .addTimer time func threadid =>
      if -2 ^ 31 ≤ time ∧ time < 2 ^ 31 then some (addTimer s (memory s.allocated) time func threadid) else none
  | .delTimer node =>
      if node < s.allocated ∧ node ∉ s.turns.map Turn.node then
        some { s with cancel := Function.update s.cancel node 1, deleted := s.deleted ++ [node] }
      else none
  | .update p => if s.walkers p = .idle then executeFirst s p (s.time % 2 ^ 8) else none
  | .dispatch p =>
      match s.walkers p with
      | .dispatching shifted idx (some temp) => some (dispatch s p shifted idx temp)
      | _ => none
  | .resume p =>
      match s.walkers p with
      | .dispatching true idx none => some (executeShifted s p idx)
      | .dispatching false idx none => executeFirst s p idx
      | _ => none

end CppInfra.Timer.TimeWheel.Memory
