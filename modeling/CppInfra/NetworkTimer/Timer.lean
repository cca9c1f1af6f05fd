import CppInfra.Shared.Words
import CppInfra.Shared.Transition

set_option autoImplicit false

namespace CppInfra.NetworkTimer.Timer

open Words

-- The entries of `timer_map_` in the order of its iterators: deadline and node.
abbrev TimerMap := List (Nat × Nat)

-- `std::multimap::insert` puts a new entry behind all entries that are not greater.
def insert (entry : Nat × Nat) : TimerMap → TimerMap
  | [] => [entry]
  | other :: rest => if other.1 ≤ entry.1 then other :: insert entry rest else entry :: other :: rest

-- `std::multimap::emplace_hint` with the hint `end()`: at the end if the order allows it.
def emplaceHintEnd (entry : Nat × Nat) (map : TimerMap) : TimerMap :=
  match map.getLast? with
  | none => [entry]
  | some last => if last.1 ≤ entry.1 then map ++ [entry] else insert entry map

-- Where the thread of `EventLoop::Run` stands. In `scanning` the iterator of `HandleTimeout` is at a node or
-- at `end()`, and its loop test is next; in `calling` the callback of the node at the iterator runs.
inductive Phase where
  | top
  | waiting (timeout : Int)
  | handlers
  | scanning (iter : Option Nat)
  | calling (iter : Nat)
  deriving DecidableEq, Repr

-- Nodes are numbered as they are created and never freed: `timeouts` is the `timeout_` of each.
structure Loop where
  timerMap : TimerMap
  timeouts : List Nat
  phase : Phase
  deriving DecidableEq, Repr

inductive Event where
  | addTimeout (now diff : Nat)
  | delTimeout (node : Nat)
  | epollWait (now : Nat)
  | interrupted
  | woken
  | handleTimeout
  | test (now : Nat)
  | callbackDone
  deriving DecidableEq, Repr

def addTimeout (map : TimerMap) (node now diff : Nat) : TimerMap :=
  let timeout := add 64 now diff
  match map.getLast? with
  | none => insert (timeout, node) map
  | some last => if timeout < last.1 then insert (timeout, node) map else emplaceHintEnd (timeout, node) map

-- `equal_range` is everything from the first key that is not less to the first one that is greater; the loop over
-- it ends at the entry of the node.
def delTimeout (map : TimerMap) (timeout node : Nat) : TimerMap :=
  let first := map.dropWhile fun entry => entry.1 < timeout
  map.takeWhile (fun entry => entry.1 < timeout) ++
    ((first.takeWhile fun entry => entry.1 ≤ timeout).eraseP (fun entry => entry.2 = node) ++
      first.dropWhile fun entry => entry.1 ≤ timeout)

def waitTime (map : TimerMap) (now : Nat) : Int :=
  match map with
  | [] => -1
  | (first, _) :: _ =>
      let diff := sub 64 first now
      toSigned 32 (if diff > 0 then diff else 0)

def following (node : Nat) : TimerMap → Option Nat
  | [] => none
  | entry :: rest => if entry.2 = node then rest.head?.map Prod.snd else following node rest

def deadline (map : TimerMap) (node : Nat) : Option Nat := (map.find? fun entry => entry.2 = node).map Prod.fst

-- Timers are added and deleted outside of `epoll_wait` and of the loop test.
def Phase.free : Phase → Bool
  | .top | .handlers | .calling _ => true
  | _ => false

def step (s : Loop) : Event → Option Loop
  | .addTimeout now diff =>
      if s.phase.free ∧ now < 2 ^ 64 ∧ diff < 2 ^ 64 then
        some
          { s with
            timerMap := addTimeout s.timerMap s.timeouts.length now diff
            timeouts := s.timeouts ++ [add 64 now diff] }
      else none
  | .delTimeout node =>
      -- The iterator of `HandleTimeout` stays valid.
      if s.phase.free ∧ s.phase ≠ .calling node then do
        let timeout ← s.timeouts[node]?
        some { s with timerMap := delTimeout s.timerMap timeout node }
      else none
  | .epollWait now =>
      if s.phase = .top ∧ now < 2 ^ 64 then some { s with phase := .waiting (waitTime s.timerMap now) } else none
  | .interrupted =>
      match s.phase with
      | .waiting _ => some { s with phase := .top }
      | _ => none
  | .woken =>
      match s.phase with
      | .waiting _ => some { s with phase := .handlers }
      | _ => none
  | .handleTimeout =>
      if s.phase = .handlers then some { s with phase := .scanning (s.timerMap.head?.map Prod.snd) } else none
  | .test now =>
      match s.phase with
      | .scanning none => some { s with phase := .top }
      | .scanning (some node) => do
          let first ← deadline s.timerMap node
          some { s with phase := if first ≤ now then .calling node else .top }
      | _ => none
  | .callbackDone =>
      match s.phase with
      | .calling node =>
          some
            { s with
              timerMap := s.timerMap.eraseP fun entry => entry.2 = node
              phase := .scanning (following node s.timerMap) }
      | _ => none

def Loop.initial : Loop := { timerMap := [], timeouts := [], phase := .top }

end CppInfra.NetworkTimer.Timer
