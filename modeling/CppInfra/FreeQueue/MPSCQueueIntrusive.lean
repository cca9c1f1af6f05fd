import CppInfra.Shared.Transition
import CppInfra.Shared.PendingChain

set_option autoImplicit false

namespace CppInfra.FreeQueue.MPSCQueueIntrusive

open Transition PendingChain

-- Where a producer stands in `Enqueue`. `position` is the place of `prevHead` in the order of the
-- exchanges.
inductive Producer (P : Type) where
  | idle
  | cleared (input : P)
  | exchanged (input prevHead : P) (position : Nat)
  deriving DecidableEq

-- Where the one consumer stands in `Dequeue`, with its local variables. The three `dummy` steps are
-- those of the call `Enqueue(_dummyPtr)`.
inductive Consumer (P : Type) where
  | idle
  | loadedTail (tail : P)
  | skipDummy (next : P)
  | reload (tail : P)
  | found (tail next : P)
  | checkHead (tail : P)
  | dummyClear (tail : P)
  | dummyExchange (tail : P)
  | dummyLink (tail prevHead : P) (position : Nat)
  | reexamine (tail : P)
  deriving DecidableEq

-- `order` lists the pointers by their `_head.exchange`, the dummy of the constructor in front, and
-- `moved` counts the stores to `_tail`. `busy` marks the objects that an `Enqueue` was called with and
-- that no `Dequeue` has returned since; `returned` are the results of the calls that returned true.
structure State (P : Type) where
  link : P → Option P
  head : P
  tail : P
  producers : Nat → Producer P
  consumer : Consumer P
  busy : P → Bool
  order : List P
  moved : Nat
  returned : List P

inductive Event (P : Type) where
  | enqueue (p : Nat) (input : P)
  | producer (p : Nat)
  | dequeue
  | consumer
  deriving DecidableEq

variable {P : Type}

def State.initial (dummyPtr : P) : State P :=
  { link := fun _ => none
    head := dummyPtr
    tail := dummyPtr
    producers := fun _ => .idle
    consumer := .idle
    busy := fun _ => false
    order := [dummyPtr]
    moved := 0
    returned := [] }

variable [DecidableEq P]

def consumerStep (dummyPtr : P) (s : State P) : Option (State P) :=
  match s.consumer with
  | .idle => none
  | .loadedTail tail =>
      if tail = dummyPtr then
        match s.link tail with
        | none => some { s with consumer := .idle }
        | some next => some { s with consumer := .skipDummy next }
      else
        match s.link tail with
        | none => some { s with consumer := .checkHead tail }
        | some next => some { s with consumer := .found tail next }
  | .skipDummy next => some { s with tail := next, moved := s.moved + 1, consumer := .reload next }
  | .reload tail =>
      match s.link tail with
      | none => some { s with consumer := .checkHead tail }
      | some next => some { s with consumer := .found tail next }
  | .found tail next =>
      some { s with
        tail := next
        moved := s.moved + 1
        busy := Function.update s.busy tail false
        returned := s.returned ++ [tail]
        consumer := .idle }
  | .checkHead tail =>
      if tail ≠ s.head then some { s with consumer := .idle }
      else some { s with consumer := .dummyClear tail }
  | .dummyClear tail =>
      some { s with link := Function.update s.link dummyPtr none, consumer := .dummyExchange tail }
  | .dummyExchange tail =>
      some { s with
        head := dummyPtr
        order := s.order ++ [dummyPtr]
        consumer := .dummyLink tail s.head (s.order.length - 1) }
  | .dummyLink tail prevHead _ =>
      some { s with link := Function.update s.link prevHead (some dummyPtr), consumer := .reexamine tail }
  | .reexamine tail =>
      match s.link tail with
      | none => some { s with consumer := .idle }
      | some next => some { s with consumer := .found tail next }

def step (dummyPtr : P) (s : State P) : Event P → Option (State P)
  | .enqueue p input =>
      -- the caller's part: an object of its own, enqueued again only after it was dequeued
      if s.producers p = .idle ∧ input ≠ dummyPtr ∧ s.busy input = false then
        some { s with
          link := Function.update s.link input none
          busy := Function.update s.busy input true
          producers := Function.update s.producers p (.cleared input) }
      else none
  | .producer p =>
      match s.producers p with
      | .idle => none
      | .cleared input =>
          some { s with
            head := input
            producers := Function.update s.producers p (.exchanged input s.head (s.order.length - 1))
            order := s.order ++ [input] }
      | .exchanged input prevHead _ =>
          some { s with
            link := Function.update s.link prevHead (some input)
            producers := Function.update s.producers p .idle }
  | .dequeue => if s.consumer = .idle then some { s with consumer := .loadedTail s.tail } else none
  | .consumer => consumerStep dummyPtr s

-- The objects whose link an event reads or writes, each with the exchange that put it in the queue.
-- `_tail` has stood at `moved` since the consumer loaded or stored it. The first store of `Enqueue`
-- is not listed: it opens a new stay in the queue.
def accesses (dummyPtr : P) (s : State P) : Event P → List (P × Nat)
  | .enqueue _ _ => []
  | .dequeue => []
  | .producer p =>
      match s.producers p with
      | .exchanged _ prevHead position => [(prevHead, position)]
      | _ => []
  | .consumer =>
      match s.consumer with
      | .loadedTail tail => [(tail, s.moved)]
      | .reload tail => [(tail, s.moved)]
      | .dummyClear _ => [(dummyPtr, s.order.length)]
      | .dummyLink _ prevHead position => [(prevHead, position)]
      | .reexamine tail => [(tail, s.moved)]
      | _ => []

def State.enqueued (dummyPtr : P) (s : State P) : List P := s.order.filter (· ≠ dummyPtr)

def Producer.stores : Producer P → Option Nat
  | .exchanged _ _ position => some position
  | _ => none

def Consumer.stores : Consumer P → Option Nat
  | .dummyLink _ _ position => some position
  | _ => none

def State.Pending (s : State P) (i : Nat) : Prop :=
  (∃ p, (s.producers p).stores = some i) ∨ s.consumer.stores = some i

def Producer.own : Producer P → Option P
  | .idle => none
  | .cleared input => some input
  | .exchanged input _ _ => some input

def ProducerOk (dummyPtr : P) (s : State P) : Producer P → Prop
  | .idle => True
  | .cleared input =>
      input ≠ dummyPtr ∧ s.busy input = true ∧ ¬ Queued s.order s.moved input ∧ s.link input = none
  | .exchanged input prevHead position =>
      input ≠ dummyPtr ∧ s.order[position]? = some prevHead ∧ s.order[position + 1]? = some input

def ConsumerOk (dummyPtr : P) (s : State P) : Prop :=
  match s.consumer with
  | .idle => True
  | .loadedTail tail => tail = s.tail
  | .skipDummy next => s.tail = dummyPtr ∧ s.link s.tail = some next
  | .reload tail => tail = s.tail ∧ tail ≠ dummyPtr
  | .found tail next => tail = s.tail ∧ tail ≠ dummyPtr ∧ s.link tail = some next
  | .checkHead tail => tail = s.tail ∧ tail ≠ dummyPtr
  | .dummyClear tail => tail = s.tail ∧ tail ≠ dummyPtr ∧ ¬ Queued s.order s.moved dummyPtr
  | .dummyExchange tail =>
      tail = s.tail ∧ tail ≠ dummyPtr ∧ ¬ Queued s.order s.moved dummyPtr ∧ s.link dummyPtr = none
  | .dummyLink tail prevHead position =>
      tail = s.tail ∧ tail ≠ dummyPtr ∧ s.order[position]? = some prevHead ∧
        s.order[position + 1]? = some dummyPtr
  | .reexamine tail => tail = s.tail ∧ tail ≠ dummyPtr ∧ Queued s.order s.moved dummyPtr

structure Inv (dummyPtr : P) (s : State P) : Prop where
  chain : Chain s.link s.order s.moved s.Pending
  head : s.order[s.order.length - 1]? = some s.head
  tail : s.order[s.moved]? = some s.tail
  returned : s.returned = (s.order.take s.moved).filter (· ≠ dummyPtr)
  busy : ∀ input, Queued s.order s.moved input → input ≠ dummyPtr → s.busy input = true
  producers : ∀ p, ProducerOk dummyPtr s (s.producers p)
  owners : ∀ p q input, (s.producers p).own = some input → (s.producers q).own = some input → p = q
  consumer : ConsumerOk dummyPtr s

variable {dummyPtr : P} {s t : State P}

theorem initial_inv : Inv dummyPtr (State.initial dummyPtr) where
  chain := (Chain.initial rfl).congr fun i => by simp [State.Pending, State.initial, Producer.stores, Consumer.stores]
  head := rfl
  tail := rfl
  returned := rfl
  busy := by
    intro input ⟨i, _, at_⟩ object
    have member := List.mem_of_getElem? at_
    simp only [State.initial, List.mem_singleton] at member
    exact absurd member object
  producers := fun _ => trivial
  owners := by simp [State.initial, Producer.own]
  consumer := trivial

theorem Inv.own_busy (inv : Inv dummyPtr s) {p : Nat} {input : P} (own : (s.producers p).own = some input) :
    input ≠ dummyPtr ∧ s.busy input = true := by
  have ok := inv.producers p
  cases at_ : s.producers p with
  | idle => simp [at_, Producer.own] at own
  | cleared other =>
      rw [at_] at ok own
      obtain rfl : other = input := by simpa [Producer.own] using own
      exact ⟨ok.1, ok.2.1⟩
  | exchanged other prevHead position =>
      rw [at_] at ok own
      obtain rfl : other = input := by simpa [Producer.own] using own
      have low := (inv.chain.bounds position (.inl ⟨p, by rw [at_]; rfl⟩)).1
      exact ⟨ok.1, inv.busy other ⟨position + 1, by omega, ok.2.2⟩ ok.1⟩

omit [DecidableEq P] in
theorem Producer.stores_some {pc : Producer P} {i : Nat} (storing : pc.stores = some i) :
    ∃ input prevHead, pc = .exchanged input prevHead i := by
  cases pc with
  | idle => simp [Producer.stores] at storing
  | cleared _ => simp [Producer.stores] at storing
  | exchanged input prevHead position =>
      obtain rfl := Option.some.inj storing
      exact ⟨input, prevHead, rfl⟩

omit [DecidableEq P] in
theorem ProducerOk.frame {pc : Producer P} (ok : ProducerOk dummyPtr s pc)
    (order : ∀ (i : Nat) x, s.order[i]? = some x → t.order[i]? = some x)
    (mine : ∀ input, pc = .cleared input → input ≠ dummyPtr → s.busy input = true →
      ¬ Queued s.order s.moved input → s.link input = none →
      t.busy input = true ∧ ¬ Queued t.order t.moved input ∧ t.link input = none) :
    ProducerOk dummyPtr t pc := by
  cases pc with
  | idle => trivial
  | cleared input =>
      obtain ⟨object, busy, outside, empty⟩ := ok
      exact ⟨object, mine input rfl object busy outside empty⟩
  | exchanged input prevHead position => exact ⟨ok.1, order _ _ ok.2.1, order _ _ ok.2.2⟩

omit [DecidableEq P] in
-- What the producers do leaves the consumer's knowledge intact: only objects join the queue, a link out
-- of the tail is not written again once it is there, and the dummy's link is the consumer's own.
theorem ConsumerOk.frame (ok : ConsumerOk dummyPtr s) (consumer : t.consumer = s.consumer)
    (tail : t.tail = s.tail) (moved : t.moved = s.moved)
    (order : ∀ (i : Nat) x, s.order[i]? = some x → t.order[i]? = some x)
    (dummy : Queued t.order s.moved dummyPtr → Queued s.order s.moved dummyPtr)
    (next : ∀ x, s.link s.tail = some x → t.link s.tail = some x)
    (cleared : ¬ Queued s.order s.moved dummyPtr → s.link dummyPtr = none → t.link dummyPtr = none) :
    ConsumerOk dummyPtr t := by
  unfold ConsumerOk at ok ⊢
  rw [consumer, tail, moved]
  cases there : s.consumer with
  | idle => trivial
  | loadedTail node => simpa only [there] using ok
  | reload node => simpa only [there] using ok
  | checkHead node => simpa only [there] using ok
  | skipDummy node =>
      simp only [there] at ok ⊢
      exact ⟨ok.1, next node ok.2⟩
  | found node after =>
      simp only [there] at ok ⊢
      obtain ⟨rfl, object, link⟩ := ok
      exact ⟨rfl, object, next after link⟩
  | dummyClear node =>
      simp only [there] at ok ⊢
      exact ⟨ok.1, ok.2.1, fun queued => ok.2.2 (dummy queued)⟩
  | dummyExchange node =>
      simp only [there] at ok ⊢
      obtain ⟨rfl, object, outside, empty⟩ := ok
      exact ⟨rfl, object, fun queued => outside (dummy queued), cleared outside empty⟩
  | dummyLink node prevHead position =>
      simp only [there] at ok ⊢
      exact ⟨ok.1, ok.2.1, order _ _ ok.2.2.1, order _ _ ok.2.2.2⟩
  | reexamine node =>
      simp only [there] at ok ⊢
      obtain ⟨rfl, object, i, low, at_⟩ := ok
      exact ⟨rfl, object, i, low, order i dummyPtr at_⟩

end CppInfra.FreeQueue.MPSCQueueIntrusive
