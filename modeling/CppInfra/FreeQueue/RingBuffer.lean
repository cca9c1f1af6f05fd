import CppInfra.Shared.Transition
import CppInfra.Shared.Words
import Mathlib.Logic.Function.Basic
import Mathlib.Data.List.Infix

set_option autoImplicit false

namespace CppInfra.FreeQueue.RingBuffer

open Words Transition

structure Capacity where
  size : Nat
  nonzero : size ≠ 0
  power : size &&& (size - 1) = 0
  word : size < 2 ^ 64

-- A slot of `buffer_`. Every constructed element carries the number of its construction.
inductive Slot (T : Type) where
  | raw
  | live (serial : Nat) (value : T)
  | moved (serial : Nat)
  deriving DecidableEq

inductive Producer (T : Type) where
  | idle
  | loadedWrite (value : T) (w : Nat)
  | notFull (value : T) (w : Nat)
  | constructed (value : T) (w : Nat)
  deriving DecidableEq

inductive Consumer (T : Type) where
  | idle
  | loadedRead (r : Nat)
  | notEmpty (r : Nat)
  | movedOut (r : Nat) (value : T)
  | destroyed (r : Nat) (value : T)
  deriving DecidableEq

-- `pushed` and `popped` are the values of the calls that returned true; `built` counts the
-- constructions and `destroyed` lists the destructions.
structure State (T : Type) where
  read : Nat
  write : Nat
  slots : Nat → Slot T
  producer : Producer T
  consumer : Consumer T
  pushed : List T
  popped : List T
  built : Nat
  destroyed : List Nat

inductive Event (T : Type) where
  | push (value : T)
  | producer
  | pop
  | consumer

variable {T : Type}

def State.initial : State T :=
  { read := 0
    write := 0
    slots := fun _ => .raw
    producer := .idle
    consumer := .idle
    pushed := []
    popped := []
    built := 0
    destroyed := [] }

def Capacity.next (capacity : Capacity) (index : Nat) : Nat := add 64 index 1 &&& (capacity.size - 1)

def Slot.serial : Slot T → Option Nat
  | .raw => none
  | .live serial _ => some serial
  | .moved serial => some serial

-- One step of the call in flight, each with at most one access to shared memory. A call starts with
-- the load of its own index.
def step (capacity : Capacity) (s : State T) : Event T → Option (State T)
  | .push value =>
      match s.producer with
      | .idle => some { s with producer := .loadedWrite value s.write }
      | _ => none
  | .producer =>
      match s.producer with
      | .idle => none
      | .loadedWrite value w =>
          if capacity.next w = s.read then some { s with producer := .idle }
          else some { s with producer := .notFull value w }
      | .notFull value w =>
          some { s with
            slots := Function.update s.slots w (.live s.built value)
            built := s.built + 1
            producer := .constructed value w }
      | .constructed value w =>
          some { s with
            write := capacity.next w
            pushed := s.pushed ++ [value]
            producer := .idle }
  | .pop =>
      match s.consumer with
      | .idle => some { s with consumer := .loadedRead s.read }
      | _ => none
  | .consumer =>
      match s.consumer with
      | .idle => none
      | .loadedRead r =>
          if r = s.write then some { s with consumer := .idle }
          else some { s with consumer := .notEmpty r }
      | .notEmpty r =>
          match s.slots r with
          | .live serial value =>
              some { s with
                slots := Function.update s.slots r (.moved serial)
                consumer := .movedOut r value }
          | _ => none
      | .movedOut r value => do
          let serial ← (s.slots r).serial
          some { s with
            slots := Function.update s.slots r .raw
            destroyed := s.destroyed ++ [serial]
            consumer := .destroyed r value }
      | .destroyed r value =>
          some { s with
            read := capacity.next r
            popped := s.popped ++ [value]
            consumer := .idle }

def State.size (capacity : Capacity) (s : State T) : Nat :=
  if s.write ≥ s.read then s.write - s.read else capacity.size - s.read + s.write

-- The loop of `~RingBuffer` with at most `fuel` turns.
def destroyAll (capacity : Capacity) : Nat → State T → Nat → Nat → Option (State T)
  | 0, s, r, w => if r = w then some s else none
  | fuel + 1, s, r, w =>
      if r = w then some s
      else do
        let serial ← (s.slots r).serial
        destroyAll capacity fuel
          { s with slots := Function.update s.slots r .raw, destroyed := s.destroyed ++ [serial] }
          (capacity.next r) w

def destructor (capacity : Capacity) (s : State T) : Option (State T) :=
  destroyAll capacity capacity.size s s.read s.write

theorem Capacity.positive (capacity : Capacity) : 0 < capacity.size := Nat.pos_of_ne_zero capacity.nonzero

theorem Capacity.next_mod (capacity : Capacity) (n : Nat) :
    capacity.next (n % capacity.size) = (n + 1) % capacity.size := by
  obtain ⟨k, size⟩ := (Nat.and_sub_one_eq_zero_iff_isPowerOfTwo capacity.nonzero).mp capacity.power
  have below := Nat.mod_lt n capacity.positive
  have word := capacity.word
  rw [Capacity.next, add_exact (by omega), size, Nat.and_two_pow_sub_one_eq_mod, ← size]
  simp

theorem update_window {A : Type*} (f : Nat → A) (value : A) {c base i k : Nat} (lowI : base ≤ i)
    (highI : i < base + c) (lowK : base ≤ k) (highK : k < base + c) :
    Function.update f (k % c) value (i % c) = if i = k then value else f (i % c) := by
  by_cases same : i = k
  · simp [same]
  · have other : i % c ≠ k % c := fun residue => same (window_injective lowI highI lowK highK residue)
    simp [Function.update_of_ne other, same]

-- What stands at absolute position `i`: positions below `popped.length` are gone, those below
-- `pushed.length` hold the pushed values, and the calls in flight touch one position at either end.
def State.content (s : State T) (i : Nat) : Slot T :=
  match s.pushed[i]? with
  | some value =>
      if i = s.popped.length then
        match s.consumer with
        | .movedOut _ _ => .moved i
        | .destroyed _ _ => .raw
        | _ => .live i value
      else .live i value
  | none =>
      if i = s.pushed.length then
        match s.producer with
        | .constructed value _ => .live i value
        | _ => .raw
      else .raw

def Producer.building : Producer T → Nat
  | .constructed _ _ => 1
  | _ => 0

def Consumer.ending : Consumer T → Nat
  | .destroyed _ _ => 1
  | _ => 0

def ProducerOk (capacity : Capacity) (s : State T) : Prop :=
  match s.producer with
  | .idle => True
  | .loadedWrite _ w => w = s.pushed.length % capacity.size
  | .notFull _ w | .constructed _ w =>
      w = s.pushed.length % capacity.size ∧ s.pushed.length + 1 < s.popped.length + capacity.size

def ConsumerOk (capacity : Capacity) (s : State T) : Prop :=
  match s.consumer with
  | .idle => True
  | .loadedRead r => r = s.popped.length % capacity.size
  | .notEmpty r => r = s.popped.length % capacity.size ∧ s.popped.length < s.pushed.length
  | .movedOut r value | .destroyed r value =>
      r = s.popped.length % capacity.size ∧ s.pushed[s.popped.length]? = some value

structure Inv (capacity : Capacity) (s : State T) : Prop where
  read : s.read = s.popped.length % capacity.size
  write : s.write = s.pushed.length % capacity.size
  order : s.popped.length ≤ s.pushed.length
  room : s.pushed.length < s.popped.length + capacity.size
  popped : s.popped = s.pushed.take s.popped.length
  producer : ProducerOk capacity s
  consumer : ConsumerOk capacity s
  slots : ∀ i, s.popped.length ≤ i → i < s.popped.length + capacity.size →
    s.slots (i % capacity.size) = s.content i
  built : s.built = s.pushed.length + s.producer.building
  destroyed : s.destroyed = List.range (s.popped.length + s.consumer.ending)

theorem initial_inv (capacity : Capacity) : Inv capacity (State.initial : State T) where
  read := rfl
  write := rfl
  order := Nat.le_refl _
  room := by simpa [State.initial] using capacity.positive
  popped := rfl
  producer := trivial
  consumer := trivial
  slots := by
    intro i _ _
    by_cases zero : i = 0 <;> simp [State.initial, State.content, zero]
  built := rfl
  destroyed := rfl

theorem Inv.content_pushed {capacity : Capacity} {s : State T} (inv : Inv capacity s) :
    s.slots (s.pushed.length % capacity.size) = s.content s.pushed.length :=
  inv.slots _ inv.order inv.room

theorem Inv.content_popped {capacity : Capacity} {s : State T} (inv : Inv capacity s) :
    s.slots (s.popped.length % capacity.size) = s.content s.popped.length :=
  inv.slots _ (Nat.le_refl _) (Nat.lt_add_of_pos_right capacity.positive)

theorem Inv.slot_notFull {capacity : Capacity} {s : State T} (inv : Inv capacity s) {value : T} {w : Nat}
    (at_ : s.producer = .notFull value w) : s.slots w = .raw := by
  have ok := inv.producer
  simp only [ProducerOk, at_] at ok
  rw [ok.1, inv.content_pushed]
  simp [State.content, at_]

theorem Inv.slot_notEmpty {capacity : Capacity} {s : State T} (inv : Inv capacity s) {r : Nat}
    (at_ : s.consumer = .notEmpty r) :
    ∃ value, s.pushed[s.popped.length]? = some value ∧ s.slots r = .live s.popped.length value := by
  have ok := inv.consumer
  simp only [ConsumerOk, at_] at ok
  obtain ⟨rfl, unread⟩ := ok
  refine ⟨s.pushed[s.popped.length], List.getElem?_eq_getElem unread, ?_⟩
  rw [inv.content_popped]
  simp [State.content, at_, unread]

theorem Inv.slot_movedOut {capacity : Capacity} {s : State T} (inv : Inv capacity s) {r : Nat} {value : T}
    (at_ : s.consumer = .movedOut r value) : s.slots r = .moved s.popped.length := by
  have ok := inv.consumer
  simp only [ConsumerOk, at_] at ok
  rw [ok.1, inv.content_popped]
  simp [State.content, at_, ok.2]

end CppInfra.FreeQueue.RingBuffer
