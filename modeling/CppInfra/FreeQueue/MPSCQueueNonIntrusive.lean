import CppInfra.Shared.Transition
import CppInfra.Shared.PendingChain
import Mathlib.Data.List.Nodup

set_option autoImplicit false

namespace CppInfra.FreeQueue.MPSCQueueNonIntrusive

open Transition PendingChain

inductive Producer (T : Type) where
  | idle
  | created (node : Nat) (input : T)
  | exchanged (node prevHead position : Nat)
  deriving DecidableEq

inductive Consumer (T : Type) where
  | idle
  | loadedTail (tail : Nat)
  | loadedNext (tail next : Nat)
  | readData (tail next : Nat) (result : T)
  | storedTail (tail : Nat) (result : T)
  deriving DecidableEq

-- Nodes are numbered as they are created, so that no number ever stands for two nodes; `data` and
-- `next` are their fields. `order` lists the nodes by their `_head.exchange` with the first node in
-- front, `inputs` what they carry, `dequeued` the results of the calls that returned true.
structure State (T : Type) where
  data : Nat → Option T
  next : Nat → Option Nat
  allocated : Nat
  deleted : List Nat
  head : Nat
  tail : Nat
  producers : Nat → Producer T
  consumer : Consumer T
  order : List Nat
  inputs : List T
  dequeued : List T

inductive Event (T : Type) where
  | enqueue (p : Nat) (input : T)
  | producer (p : Nat)
  | dequeue
  | consumer

variable {T : Type}

-- The constructor leaves `Data` of the first node unset.
def State.initial : State T :=
  { data := fun _ => none
    next := fun _ => none
    allocated := 1
    deleted := []
    head := 0
    tail := 0
    producers := fun _ => .idle
    consumer := .idle
    order := [0]
    inputs := []
    dequeued := [] }

def step (s : State T) : Event T → Option (State T)
  | .enqueue p input =>
      match s.producers p with
      | .idle =>
          some { s with
            data := Function.update s.data s.allocated (some input)
            next := Function.update s.next s.allocated none
            allocated := s.allocated + 1
            producers := Function.update s.producers p (.created s.allocated input) }
      | _ => none
  | .producer p =>
      match s.producers p with
      | .idle => none
      | .created node input =>
          some { s with
            head := node
            producers := Function.update s.producers p (.exchanged node s.head (s.order.length - 1))
            order := s.order ++ [node]
            inputs := s.inputs ++ [input] }
      | .exchanged node prevHead _ =>
          some { s with
            next := Function.update s.next prevHead (some node)
            producers := Function.update s.producers p .idle }
  | .dequeue =>
      match s.consumer with
      | .idle => some { s with consumer := .loadedTail s.tail }
      | _ => none
  | .consumer =>
      match s.consumer with
      | .idle => none
      | .loadedTail tail =>
          match s.next tail with
          | none => some { s with consumer := .idle }
          | some next => some { s with consumer := .loadedNext tail next }
      | .loadedNext tail next => do
          let result ← s.data next
          some { s with consumer := .readData tail next result }
      | .readData tail next result => some { s with tail := next, consumer := .storedTail tail result }
      | .storedTail tail result =>
          some { s with
            deleted := s.deleted ++ [tail]
            dequeued := s.dequeued ++ [result]
            consumer := .idle }

-- The nodes an event reads, writes or deletes. The node that `enqueue` creates is not among them.
def accesses (s : State T) : Event T → List Nat
  | .producer p =>
      match s.producers p with
      | .exchanged _ prevHead _ => [prevHead]
      | _ => []
  | .consumer =>
      match s.consumer with
      | .loadedTail tail => [tail]
      | .loadedNext _ next => [next]
      | .storedTail tail _ => [tail]
      | _ => []
  | _ => []

def Consumer.ahead : Consumer T → Nat
  | .storedTail _ _ => 1
  | _ => 0

def State.moved (s : State T) : Nat := s.deleted.length + s.consumer.ahead

def Producer.stores : Producer T → Option Nat
  | .exchanged _ _ position => some position
  | _ => none

def State.Pending (s : State T) (i : Nat) : Prop := ∃ p, (s.producers p).stores = some i

def Producer.own : Producer T → Option Nat
  | .idle => none
  | .created node _ => some node
  | .exchanged node _ _ => some node

def ProducerOk (s : State T) : Producer T → Prop
  | .idle => True
  | .created node input =>
      node < s.allocated ∧ node ∉ s.order ∧ s.next node = none ∧ s.data node = some input
  | .exchanged node prevHead position =>
      s.order[position]? = some prevHead ∧ s.order[position + 1]? = some node

def ConsumerOk (s : State T) : Prop :=
  match s.consumer with
  | .idle => True
  | .loadedTail tail => tail = s.tail
  | .loadedNext tail next => tail = s.tail ∧ s.next tail = some next
  | .readData tail next result =>
      (tail = s.tail ∧ s.next tail = some next) ∧ s.inputs[s.deleted.length]? = some result
  | .storedTail tail result =>
      s.order[s.deleted.length]? = some tail ∧ s.inputs[s.deleted.length]? = some result

structure Inv (s : State T) : Prop where
  chain : Chain s.next s.order s.moved s.Pending
  head : s.order[s.order.length - 1]? = some s.head
  tail : s.order[s.moved]? = some s.tail
  deleted : s.deleted = s.order.take s.deleted.length
  nodup : s.order.Nodup
  allocated : ∀ node ∈ s.order, node < s.allocated
  size : s.order.length = s.inputs.length + 1
  data : ∀ k node, s.order[k + 1]? = some node → s.data node = s.inputs[k]?
  dequeued : s.dequeued = s.inputs.take s.deleted.length
  producers : ∀ p, ProducerOk s (s.producers p)
  consumer : ConsumerOk s
  owners : ∀ p q node, (s.producers p).own = some node → (s.producers q).own = some node → p = q

theorem initial_inv : Inv (State.initial : State T) where
  chain := (Chain.initial rfl).congr fun i => by simp [State.Pending, State.initial, Producer.stores]
  head := rfl
  tail := rfl
  deleted := rfl
  nodup := by simp [State.initial]
  allocated := by simp [State.initial]
  size := rfl
  data := by simp [State.initial]
  dequeued := rfl
  producers := fun _ => trivial
  consumer := trivial
  owners := by simp [State.initial, Producer.own]

theorem Inv.own_lt {s : State T} (inv : Inv s) {p node : Nat} (own : (s.producers p).own = some node) :
    node < s.allocated := by
  have ok := inv.producers p
  cases at_ : s.producers p with
  | idle => simp [at_, Producer.own] at own
  | created other input =>
      rw [at_] at ok own
      obtain rfl : other = node := by simpa [Producer.own] using own
      exact ok.1
  | exchanged other prevHead position =>
      rw [at_] at ok own
      obtain rfl : other = node := by simpa [Producer.own] using own
      exact inv.allocated _ (List.mem_of_getElem? ok.2)

theorem Producer.stores_some {pc : Producer T} {i : Nat} (storing : pc.stores = some i) :
    ∃ node prevHead, pc = .exchanged node prevHead i := by
  cases pc with
  | idle => simp [Producer.stores] at storing
  | created _ _ => simp [Producer.stores] at storing
  | exchanged node prevHead position =>
      obtain rfl := Option.some.inj storing
      exact ⟨node, prevHead, rfl⟩

theorem ConsumerOk.frame {s t : State T} (ok : ConsumerOk s) (consumer : t.consumer = s.consumer)
    (tail : t.tail = s.tail) (deleted : t.deleted = s.deleted)
    (order : ∀ (i : Nat) x, s.order[i]? = some x → t.order[i]? = some x)
    (inputs : ∀ (i : Nat) x, s.inputs[i]? = some x → t.inputs[i]? = some x)
    (next : ∀ x, s.next s.tail = some x → t.next s.tail = some x) : ConsumerOk t := by
  unfold ConsumerOk at ok ⊢
  rw [consumer, tail, deleted]
  cases there : s.consumer with
  | idle => trivial
  | loadedTail node => simpa only [there] using ok
  | loadedNext node after =>
      simp only [there] at ok ⊢
      obtain ⟨rfl, link⟩ := ok
      exact ⟨rfl, next after link⟩
  | readData node after result =>
      simp only [there] at ok ⊢
      obtain ⟨⟨rfl, link⟩, at_⟩ := ok
      exact ⟨⟨rfl, next after link⟩, inputs _ _ at_⟩
  | storedTail node result =>
      simp only [there] at ok ⊢
      exact ⟨order _ _ ok.1, inputs _ _ ok.2⟩

theorem ProducerOk.frame {s t : State T} {pc : Producer T} (ok : ProducerOk s pc)
    (allocated : s.allocated ≤ t.allocated)
    (order : ∀ (i : Nat) x, s.order[i]? = some x → t.order[i]? = some x)
    (mine : ∀ node input, pc = .created node input → node ∉ s.order → s.next node = none →
      node < s.allocated → node ∉ t.order ∧ t.next node = none ∧ t.data node = s.data node) :
    ProducerOk t pc := by
  cases pc with
  | idle => trivial
  | created node input =>
      obtain ⟨bound, unused, empty, content⟩ := ok
      obtain ⟨unused', empty', content'⟩ := mine node input rfl unused empty bound
      exact ⟨by omega, unused', empty', content'.trans content⟩
  | exchanged node prevHead position => exact ⟨order _ _ ok.1, order _ _ ok.2⟩

end CppInfra.FreeQueue.MPSCQueueNonIntrusive
