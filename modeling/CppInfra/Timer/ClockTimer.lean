import CppInfra.Shared.Transition
import CppInfra.Shared.Wheel

set_option autoImplicit false

namespace CppInfra.Timer.ClockTimer

open Words Transition

-- `T->second[j]`, `T->minute[j]` and `T->hour[j]`, of which there are `SECONDS` = 60, `MINUTES` = 60 and
-- `HOURS` = 12.
inductive Slot where
  | second (j : Nat)
  | minute (j : Nat)
  | hour (j : Nat)
  deriving DecidableEq

def slotOf (expire currentTime : Nat) : Slot :=
  let msec := sub 32 expire currentTime
  if msec < 60 then .second (expire % 60)
  else if msec < 3600 then .minute (expire / 60 % 60)
  else .hour (expire / 3600 % 12)

-- The list that `timer_shift` gives to `remap` once the clock shows `time`.
def remapped (time : Nat) : Option Slot :=
  let ct := time % 43200
  if ct = 0 then some (.hour 0)
  else if ct % 60 = 0 then
    if ct / 60 % 60 ≠ 0 then some (.minute (ct / 60 % 60))
    else if ct / 3600 % 12 ≠ 0 then some (.hour (ct / 3600 % 12))
    else none
  else none

-- `timer_update` is that of a wheel with these lists; `timer_execute` looks at `second[T->time % SECONDS]`.
def clock : Wheel.Design Slot :=
  { slotOf := slotOf
    executed := fun time => .second (time % 60)
    moved := remapped }

abbrev TimerSt (P : Type) := Wheel.Timer Slot P

variable {P : Type}

def createTimer : TimerSt P := Wheel.create

def addNode (s : TimerSt P) (node : Nat) : TimerSt P := Wheel.addNode clock s node

def remap (s : TimerSt P) (slot : Slot) : TimerSt P := Wheel.remap clock s slot

def timerShift (s : TimerSt P) : TimerSt P := Wheel.timerShift clock s

-- `node->cancel = 0`
def addTimer (s : TimerSt P) (time : Int) : TimerSt P := Wheel.addTimer clock s time 0

inductive Event (P : Type) where
  | addTimer (time : Int)
  | delTimer (node : Nat)
  | update (p : P)
  | dispatch (p : P)
  | resume (p : P)

def Event.wheel : Event P → Wheel.Event P
  | .addTimer time => .addTimer time 0
  | .delTimer node => .delTimer node
  | .update p => .update p
  | .dispatch p => .dispatch p
  | .resume p => .resume p

-- The critical sections of `add_timer` and `timer_update`, the dispatch of one node, and `del_timer`.
def step [DecidableEq P] (s : TimerSt P) (event : Event P) : Option (TimerSt P) := Wheel.step clock s event.wheel

end CppInfra.Timer.ClockTimer
