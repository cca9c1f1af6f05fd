import CppInfra.Shared.Words
import CppInfra.Shared.DisjointLists

set_option autoImplicit false

namespace CppInfra.Wheel

open Words DisjointLists

-- How one wheel differs from another: the list for an expiry, given the time; the list that is executed at a
-- time; and the list, if any, whose nodes are linked again when the clock reaches a time.
structure Design (Slot : Type) where
  slotOf : Nat → Nat → Slot
  executed : Nat → Slot
  moved : Nat → Option Slot

-- Where a thread stands in the update: between two critical sections it walks through the list it took out,
-- before or after it has advanced the clock.
inductive Updater (Slot : Type) where
  | idle
  | dispatching (shifted : Bool) (slot : Slot) (current : List Nat)
  deriving DecidableEq

-- Nodes are numbered as they are created; the lists hold them in the order of their links. `ticks` counts
-- without wrapping and `due` is the tick at which a node was asked to fire. `ran` logs each callback with
-- `ticks` and `time`, `ranAtOnce` those that were not delayed.
structure Timer (Slot P : Type) where
  slots : Slot → List Nat
  time : Nat
  expire : Nat → Nat
  cancel : Nat → UInt8
  allocated : Nat
  updaters : P → Updater Slot
  ticks : Nat
  due : Nat → Nat
  dispatched : List Nat
  ran : List (Nat × Nat × Nat)
  ranAtOnce : List Nat

inductive Event (P : Type) where
  | addTimer (time : Int) (cancel : UInt8)
  | delTimer (node : Nat)
  | update (p : P)
  | dispatch (p : P)
  | resume (p : P)

variable {Slot P : Type} [DecidableEq Slot]

omit [DecidableEq Slot] in
def create : Timer Slot P :=
  { slots := fun _ => []
    time := 0
    expire := fun _ => 0
    cancel := fun _ => 0
    allocated := 0
    updaters := fun _ => .idle
    ticks := 0
    due := fun _ => 0
    dispatched := []
    ran := []
    ranAtOnce := [] }

def linkClear (s : Timer Slot P) (slot : Slot) : Timer Slot P :=
  { s with slots := Function.update s.slots slot [] }

def addNode (d : Design Slot) (s : Timer Slot P) (node : Nat) : Timer Slot P :=
  { s with slots := put s.slots (d.slotOf (s.expire node) s.time) node }

def remap (d : Design Slot) (s : Timer Slot P) (slot : Slot) : Timer Slot P :=
  (s.slots slot).foldl (addNode d) (linkClear s slot)

def timerShift (d : Design Slot) (s : Timer Slot P) : Timer Slot P :=
  let s := { s with time := add 32 s.time 1, ticks := s.ticks + 1 }
  match d.moved s.time with
  | none => s
  | some slot => remap d s slot

def addTimer (d : Design Slot) (s : Timer Slot P) (time : Int) (cancel : UInt8) : Timer Slot P :=
  if time ≤ 0 then { s with ranAtOnce := s.ranAtOnce ++ [s.ticks] }
  else
    addNode d
      { s with
        expire := Function.update s.expire s.allocated ((time + s.time) % 2 ^ 32).toNat
        cancel := Function.update s.cancel s.allocated cancel
        due := Function.update s.due s.allocated (s.ticks + time.toNat)
        allocated := s.allocated + 1 } s.allocated

variable [DecidableEq P]

omit [DecidableEq Slot] in
def Timer.setUpdater (s : Timer Slot P) (p : P) (updater : Updater Slot) : Timer Slot P :=
  { s with updaters := Function.update s.updaters p updater }

def detach (s : Timer Slot P) (p : P) (shifted : Bool) (slot : Slot) : Timer Slot P :=
  (linkClear s slot).setUpdater p (.dispatching shifted slot (s.slots slot))

def executeShifted (s : Timer Slot P) (p : P) (slot : Slot) : Timer Slot P :=
  if s.slots slot ≠ [] then detach s p true slot else s.setUpdater p .idle

def executeFirst (d : Design Slot) (s : Timer Slot P) (p : P) (slot : Slot) : Timer Slot P :=
  if s.slots slot ≠ [] then detach s p false slot
  else executeShifted (timerShift d s) p (d.executed (timerShift d s).time)

def dispatchNode (s : Timer Slot P) (p : P) (shifted : Bool) (slot : Slot) (node : Nat) (rest : List Nat) :
    Timer Slot P :=
  { s with
    dispatched := s.dispatched ++ [node]
    ran := if s.cancel node = 0 then s.ran ++ [(node, s.ticks, s.time)] else s.ran
    updaters := Function.update s.updaters p (.dispatching shifted slot rest) }

-- Every event but `delTimer` is one critical section, or the dispatch of one node outside of any.
def step (d : Design Slot) (s : Timer Slot P) : Event P → Option (Timer Slot P)
  | .addTimer time cancel => if -2 ^ 31 ≤ time ∧ time < 2 ^ 31 then some (addTimer d s time cancel) else none
  | .delTimer node =>
      if node < s.allocated ∧ node ∉ s.dispatched then
        some { s with cancel := Function.update s.cancel node 1 }
      else none
  | .update p => if s.updaters p = .idle then some (executeFirst d s p (d.executed s.time)) else none
  | .dispatch p =>
      match s.updaters p with
      | .dispatching shifted slot (node :: rest) => some (dispatchNode s p shifted slot node rest)
      | _ => none
  | .resume p =>
      match s.updaters p with
      | .dispatching true slot [] => some (executeShifted s p slot)
      | .dispatching false slot [] => some (executeFirst d s p slot)
      | _ => none

end CppInfra.Wheel
