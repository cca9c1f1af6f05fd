import CppInfra.Shared.Words
import CppInfra.Shared.Transition
import Mathlib.Data.Fintype.Basic

set_option autoImplicit false

namespace CppInfra.Timer.TimeWheel

open Words Transition

-- `T->near[j]` and `T->t[level][j]`, of which there are `TIME_NEAR` = 2 ^ 8 and, on each of four levels,
-- `TIME_LEVEL` = 2 ^ 6.
inductive Slot where
  | near (j : Nat)
  | t (level j : Nat)
  deriving DecidableEq

-- Where a thread stands in `timer_update`: between two critical sections it walks through the list
-- that `timer_execute` took out of `near[idx]`, before or after `timer_shift`.
inductive Updater where
  | idle
  | dispatching (shifted : Bool) (idx : Nat) (current : List Nat)
  deriving DecidableEq

-- Nodes are numbered as they are created; the lists hold them in the order of their links. `ticks`
-- counts the calls of `timer_shift` and `due` is the tick at which a node was asked to fire. `ran` logs
-- each callback with `ticks` and `T->time`, `ranAtOnce` those of `add_timer` itself.
structure STimer (P : Type) where
  slots : Slot → List Nat
  time : Nat
  expire : Nat → Nat
  cancel : Nat → UInt8
  allocated : Nat
  updaters : P → Updater
  ticks : Nat
  due : Nat → Nat
  dispatched : List Nat
  ran : List (Nat × Nat × Nat)
  ranAtOnce : List Nat

-- `stale` is what the memory that `malloc` returns holds at `node->cancel`, which `add_timer` does not
-- write.
inductive Event (P : Type) where
  | addTimer (time : Int) (stale : UInt8)
  | delTimer (node : Nat)
  | update (p : P)
  | dispatch (p : P)
  | resume (p : P)

variable {P : Type}

def timerCreateTimer : STimer P :=
  { slots := fun _ => []
    time := 0
    expire := fun _ => 0
    cancel := fun _ => 0
    allocated := 0
    updaters := fun _ => .idle
    ticks := 0
    due := fun _ => 0
    dispatched := []
    ran := []
    ranAtOnce := [] }

def slotOf (expire currentTime : Nat) : Slot :=
  let msec := sub 32 expire currentTime
  if msec < 2 ^ 8 then .near (expire % 2 ^ 8)
  else if msec < 2 ^ 14 then .t 0 (expire / 2 ^ 8 % 2 ^ 6)
  else if msec < 2 ^ 20 then .t 1 (expire / 2 ^ 14 % 2 ^ 6)
  else if msec < 2 ^ 26 then .t 2 (expire / 2 ^ 20 % 2 ^ 6)
  else .t 3 (expire / 2 ^ 26 % 2 ^ 6)

def addNode (s : STimer P) (node : Nat) : STimer P :=
  let slot := slotOf (s.expire node) s.time
  { s with slots := Function.update s.slots slot (s.slots slot ++ [node]) }

def linkClear (s : STimer P) (slot : Slot) : STimer P :=
  { s with slots := Function.update s.slots slot [] }

def moveList (s : STimer P) (level idx : Nat) : STimer P :=
  (s.slots (.t level idx)).foldl addNode (linkClear s (.t level idx))

-- The loop of `timer_shift`: the list to move, if any. There are four levels.
def shiftedList : Nat → Nat → Nat → Nat → Nat → Option (Option (Nat × Nat))
  | 0, _, _, _, _ => none
  | levels + 1, ct, mask, time, i =>
      if ct % mask = 0 then
        if time % 2 ^ 6 ≠ 0 then some (some (i, time % 2 ^ 6))
        else shiftedList levels ct (mask * 2 ^ 6) (time / 2 ^ 6) (i + 1)
      else some none

def timerShift (s : STimer P) : Option (STimer P) := do
  let ct := add 32 s.time 1
  let s := { s with time := ct, ticks := s.ticks + 1 }
  if ct = 0 then some (moveList s 3 0)
  else
    match ← shiftedList 4 ct (2 ^ 8) (ct / 2 ^ 8) 0 with
    | none => some s
    | some (level, idx) => some (moveList s level idx)

variable [DecidableEq P]

def STimer.setUpdater (s : STimer P) (p : P) (updater : Updater) : STimer P :=
  { s with updaters := Function.update s.updaters p updater }

-- `timer_execute` takes the list out and releases the lock.
def detach (s : STimer P) (p : P) (shifted : Bool) (idx : Nat) : STimer P :=
  (linkClear s (.near idx)).setUpdater p (.dispatching shifted idx (s.slots (.near idx)))

-- The test of the second `timer_execute`, after which `timer_update` ends.
def executeShifted (s : STimer P) (p : P) (idx : Nat) : STimer P :=
  if s.slots (.near idx) ≠ [] then detach s p true idx else s.setUpdater p .idle

def executeFirst (s : STimer P) (p : P) (idx : Nat) : Option (STimer P) := do
  if s.slots (.near idx) ≠ [] then some (detach s p false idx)
  else
    let s ← timerShift s
    some (executeShifted s p (s.time % 2 ^ 8))

def addTimer (s : STimer P) (time : Int) (stale : UInt8) : STimer P :=
  if time ≤ 0 then { s with ranAtOnce := s.ranAtOnce ++ [s.ticks] }
  else
    addNode
      { s with
        expire := Function.update s.expire s.allocated ((time + s.time) % 2 ^ 32).toNat
        cancel := Function.update s.cancel s.allocated stale
        due := Function.update s.due s.allocated (s.ticks + time.toNat)
        allocated := s.allocated + 1 } s.allocated

-- Every event but `delTimer` is one critical section, or the dispatch of one node outside of any.
def step (s : STimer P) : Event P → Option (STimer P)
  | .addTimer time stale => if -2 ^ 31 ≤ time ∧ time < 2 ^ 31 then some (addTimer s time stale) else none
  | .delTimer node =>
      if node < s.allocated ∧ node ∉ s.dispatched then
        some { s with cancel := Function.update s.cancel node 1 }
      else none
  | .update p => if s.updaters p = .idle then executeFirst s p (s.time % 2 ^ 8) else none
  | .dispatch p =>
      match s.updaters p with
      | .dispatching shifted idx (node :: rest) =>
          some { s with
            dispatched := s.dispatched ++ [node]
            ran := if s.cancel node = 0 then s.ran ++ [(node, s.ticks, s.time)] else s.ran
            updaters := Function.update s.updaters p (.dispatching shifted idx rest) }
      | _ => none
  | .resume p =>
      match s.updaters p with
      | .dispatching true idx [] => some (executeShifted s p idx)
      | .dispatching false idx [] => executeFirst s p idx
      | _ => none

end CppInfra.Timer.TimeWheel
