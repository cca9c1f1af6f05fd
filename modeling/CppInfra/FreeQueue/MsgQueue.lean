import CppInfra.Shared.ConditionVariable
import CppInfra.Shared.Transition
import CppInfra.Shared.Words

set_option autoImplicit false

namespace CppInfra.FreeQueue.MsgQueue

open ConditionVariable Transition Words

-- `memory` has the pointers by the address they are at; the address 0 is NULL. `head1` and `head2` are the addresses
-- of the fields of that name. What lies between a lock and the next unlock of `put_mutex` is one step, so that its
-- owner is no part of the state.
structure Queue (Thread : Type) where
  memory : Nat → Nat
  msgMax : Nat
  msgCnt : Nat
  linkoff : Nat
  nonblock : Bool
  head1 : Nat
  head2 : Nat
  getHead : Nat
  putHead : Nat
  putTail : Nat
  getMutex : Option Thread
  getCond : Condition Thread
  putCond : Condition Thread

-- Where a thread is in its call: before the first statement of `msgqueue_put`, before its lock, inside its wait, and
-- before its signal; before the lock of `msgqueue_get`, before the second lock and inside the wait of
-- `__msgqueue_swap`, which has the old `get_head` in a local variable, and after its return; before the lock of
-- `msgqueue_set_nonblock`.
inductive Call where
  | put (msg : Nat)
  | putting (msg : Nat)
  | waitingPut (msg : Nat)
  | signalling
  | get
  | swapping (getHead : Nat)
  | waitingGet (getHead : Nat)
  | swapped (cnt : Nat)
  | setting
  deriving DecidableEq

namespace Queue

variable {Thread : Type} [DecidableEq Thread]

-- `msgqueue_create`, when every part of it succeeds.
def create (memory : Nat → Nat) (head1 head2 maxlen linkoff : Nat) : Queue Thread where
  memory := Function.update (Function.update memory head1 0) head2 0
  msgMax := maxlen
  msgCnt := 0
  linkoff := linkoff
  nonblock := false
  head1 := head1
  head2 := head2
  getHead := head1
  putHead := head2
  putTail := head2
  getMutex := none
  getCond := .empty
  putCond := .empty

def load (q : Queue Thread) (address : Nat) : Option Nat :=
  if address = 0 then none else some (q.memory address)

def store (q : Queue Thread) (address value : Nat) : Option (Queue Thread) :=
  if address = 0 then none else some { q with memory := Function.update q.memory address value }

-- `(void **)((char *)msg + queue->linkoff)`
def link (q : Queue Thread) (msg : Nat) : Nat := add 64 msg q.linkoff

-- `queue->msg_cnt > queue->msg_max - 1`; the difference wraps.
def full (q : Queue Thread) : Bool := q.msgCnt > sub 64 q.msgMax 1

-- `msgqueue_put` from the moment it has `put_mutex`.
def putLocked (q : Queue Thread) (thread : Thread) (msg : Nat) : Option (Queue Thread × Call) :=
  if q.full && !q.nonblock then some ({ q with putCond := q.putCond.wait thread }, .waitingPut msg)
  else do
    let q ← q.store q.putTail (q.link msg)
    some ({ q with putTail := q.link msg, msgCnt := add 64 q.msgCnt 1 }, .signalling)

-- `__msgqueue_swap` from the moment it has `put_mutex`.
def swapLocked (q : Queue Thread) (thread : Thread) (getHead : Nat) : Queue Thread × Call :=
  if q.msgCnt == 0 && !q.nonblock then ({ q with getCond := q.getCond.wait thread }, .waitingGet getHead)
  else
    ({ q with
      putCond := if q.full then q.putCond.notifyAll else q.putCond
      putHead := getHead
      putTail := getHead
      msgCnt := 0 }, .swapped q.msgCnt)

def take (q : Queue Thread) : Option (Queue Thread × Nat) := do
  let first ← q.load q.getHead
  let rest ← q.load first
  let q ← q.store q.getHead rest
  some (q, sub 64 first q.linkoff)

end Queue

-- `puts` are the messages in the order in which they were appended, `gets` the results of `msgqueue_get`.
structure State (Thread : Type) where
  queue : Queue Thread
  calls : Thread → Option Call
  puts : List Nat
  gets : List (Option Nat)

-- `choice` is the thread that a signal wakes up. Other code writes to the memory as well.
inductive Event (Thread : Type) where
  | put (thread : Thread) (msg : Nat)
  | get (thread : Thread)
  | setNonblock (thread : Thread)
  | setBlock (thread : Thread)
  | step (thread : Thread) (choice : Option Thread)
  | wakeUp (thread : Thread)
  | write (address value : Nat)

variable {Thread : Type} [DecidableEq Thread]

namespace State

def create (memory : Nat → Nat) (head1 head2 maxlen linkoff : Nat) : State Thread where
  queue := .create memory head1 head2 maxlen linkoff
  calls := fun _ => none
  puts := []
  gets := []

def goto (s : State Thread) (thread : Thread) (call : Option Call) : State Thread :=
  { s with calls := Function.update s.calls thread call }

def begin (s : State Thread) (thread : Thread) (call : Call) : Option (State Thread) :=
  if s.calls thread = none then some (s.goto thread (some call)) else none

def putLocked (s : State Thread) (thread : Thread) (msg : Nat) : Option (State Thread) := do
  let (queue, call) ← s.queue.putLocked thread msg
  some { s with
    queue := queue
    calls := Function.update s.calls thread (some call)
    puts := if call = .signalling then s.puts ++ [msg] else s.puts }

def swapLocked (s : State Thread) (thread : Thread) (getHead : Nat) : State Thread :=
  { s with
    queue := (s.queue.swapLocked thread getHead).1
    calls := Function.update s.calls thread (some (s.queue.swapLocked thread getHead).2) }

-- The end of `msgqueue_get`, from the decision on; `none` is NULL.
def leaveGet (s : State Thread) (thread : Thread) (found : Bool) : Option (State Thread) :=
  if found then do
    let (queue, msg) ← s.queue.take
    some { s with
      queue := { queue with getMutex := none }
      calls := Function.update s.calls thread none
      gets := s.gets ++ [some msg] }
  else
    some { s with
      queue := { s.queue with getMutex := none }
      calls := Function.update s.calls thread none
      gets := s.gets ++ [none] }

-- `msgqueue_get` up to the lock in `__msgqueue_swap`, if it comes so far.
def enterGet (s : State Thread) (thread : Thread) : Option (State Thread) :=
  if s.queue.getMutex = none then do
    let first ← s.queue.load s.queue.getHead
    if first ≠ 0 then s.leaveGet thread true
    else
      some { s with
        queue := { s.queue with getMutex := some thread, getHead := s.queue.putHead }
        calls := Function.update s.calls thread (some (.swapping s.queue.getHead)) }
  else none

def advance (s : State Thread) (thread : Thread) (choice : Option Thread) : Call → Option (State Thread)
  | .put msg => do
      let queue ← s.queue.store (s.queue.link msg) 0
      some { s with queue := queue, calls := Function.update s.calls thread (some (.putting msg)) }
  | .putting msg => s.putLocked thread msg
  | .waitingPut msg => do
      let putCond ← s.queue.putCond.resume thread
      { s with queue := { s.queue with putCond := putCond } }.putLocked thread msg
  | .signalling => do
      let getCond ← s.queue.getCond.notifyOne choice
      some { s with
        queue := { s.queue with getCond := getCond }
        calls := Function.update s.calls thread none }
  | .get => s.enterGet thread
  | .swapping getHead => some (s.swapLocked thread getHead)
  | .waitingGet getHead => do
      let getCond ← s.queue.getCond.resume thread
      some ({ s with queue := { s.queue with getCond := getCond } }.swapLocked thread getHead)
  | .swapped cnt => s.leaveGet thread (0 < cnt)
  | .setting => do
      let getCond ← s.queue.getCond.notifyOne choice
      some { s with
        queue := { s.queue with getCond := getCond, putCond := s.queue.putCond.notifyAll }
        calls := Function.update s.calls thread none }

def wakeUp (s : State Thread) (thread : Thread) : Option (State Thread) :=
  match s.calls thread with
  | some (.waitingPut _) => do
      let putCond ← s.queue.putCond.wakeUp thread
      some { s with queue := { s.queue with putCond := putCond } }
  | some (.waitingGet _) => do
      let getCond ← s.queue.getCond.wakeUp thread
      some { s with queue := { s.queue with getCond := getCond } }
  | _ => none

def step (s : State Thread) : Event Thread → Option (State Thread)
  | .put thread msg => s.begin thread (.put msg)
  | .get thread => s.begin thread .get
  | .setNonblock thread => do
      let s ← s.begin thread .setting
      some { s with queue := { s.queue with nonblock := true } }
  | .setBlock thread =>
      if s.calls thread = none then some { s with queue := { s.queue with nonblock := false } } else none
  | .step thread choice => (s.calls thread).bind (s.advance thread choice)
  | .wakeUp thread => s.wakeUp thread
  | .write address value =>
      some { s with queue := { s.queue with memory := Function.update s.queue.memory address value } }

end State

end CppInfra.FreeQueue.MsgQueue
