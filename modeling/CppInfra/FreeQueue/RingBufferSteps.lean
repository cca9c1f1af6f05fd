import CppInfra.FreeQueue.RingBuffer

set_option autoImplicit false

namespace CppInfra.FreeQueue.RingBuffer

open Words Transition

variable {T : Type} {capacity : Capacity} {s t : State T}

theorem Inv.room_ahead (inv : Inv capacity s) {w : Nat} (index : w = s.pushed.length % capacity.size)
    (free : capacity.next w ≠ s.read) : s.pushed.length + 1 < s.popped.length + capacity.size := by
  rw [index, capacity.next_mod, inv.read] at free
  have room := inv.room
  by_contra tight
  have reached : s.pushed.length + 1 = s.popped.length + capacity.size := by omega
  exact free (by rw [reached, Nat.add_mod_right])

theorem Inv.notFull (inv : Inv capacity s) {value : T} {w : Nat} (at_ : s.producer = .loadedWrite value w)
    (free : capacity.next w ≠ s.read) : Inv capacity { s with producer := .notFull value w } := by
  have index := inv.producer
  have built := inv.built
  simp only [ProducerOk, at_] at index
  exact { inv with
    producer := ⟨index, inv.room_ahead index free⟩
    slots := fun i low high => by simpa [State.content, at_] using inv.slots i low high
    built := by simpa [at_, Producer.building] using built }

theorem Inv.full (inv : Inv capacity s) {value : T} {w : Nat} (at_ : s.producer = .loadedWrite value w) :
    Inv capacity { s with producer := .idle } := by
  have built := inv.built
  exact { inv with
    producer := trivial
    slots := fun i low high => by simpa [State.content, at_] using inv.slots i low high
    built := by simpa [at_, Producer.building] using built }

theorem Inv.construct (inv : Inv capacity s) {value : T} {w : Nat} (at_ : s.producer = .notFull value w) :
    Inv capacity
      { s with
        slots := Function.update s.slots w (.live s.built value)
        built := s.built + 1
        producer := .constructed value w } := by
  have ok := inv.producer
  have built := inv.built
  simp only [ProducerOk, at_] at ok
  simp only [at_, Producer.building, Nat.add_zero] at built
  refine { inv with
    producer := ok
    slots := fun i low high => ?_
    built := by simp [built, Producer.building] }
  dsimp only at low high ⊢
  rw [ok.1, update_window _ _ low high inv.order inv.room, inv.slots i low high]
  by_cases last : i = s.pushed.length
  · simp [State.content, last, built]
  · simp [State.content, last]

theorem Inv.content_published (inv : Inv capacity s) {value : T} {w : Nat}
    (at_ : s.producer = .constructed value w) (i : Nat) :
    ({ s with write := capacity.next w, pushed := s.pushed ++ [value], producer := .idle } : State T).content i =
      s.content i := by
  rcases Nat.lt_trichotomy i s.pushed.length with before | last | after
  · simp [State.content, List.getElem?_append_left before, before]
  · have consumer := inv.consumer
    unfold ConsumerOk at consumer
    subst last
    by_cases drained : s.pushed.length = s.popped.length
    · cases there : s.consumer <;> simp [there, ← drained] at consumer <;>
        simp [State.content, at_]
    · simp [State.content, at_, drained]
  · have outside : i ≠ s.pushed.length := by omega
    have beyond : (s.pushed ++ [value])[i]? = none := by
      apply List.getElem?_eq_none
      simp only [List.length_append, List.length_singleton]
      omega
    simp [State.content, outside, Nat.le_of_lt after, beyond]

theorem ConsumerOk.published (ok : ConsumerOk capacity s) (value : T) (w : Nat) :
    ConsumerOk capacity
      { s with write := capacity.next w, pushed := s.pushed ++ [value], producer := .idle } := by
  unfold ConsumerOk at ok ⊢
  cases there : s.consumer <;> simp only [there] at ok ⊢
  · exact ok
  · exact ⟨ok.1, by simp; omega⟩
  all_goals
    refine ⟨ok.1, ?_⟩
    have inside := (List.getElem?_eq_some_iff.mp ok.2).1
    rw [List.getElem?_append_left inside]
    exact ok.2

theorem Inv.publish (inv : Inv capacity s) {value : T} {w : Nat} (at_ : s.producer = .constructed value w) :
    Inv capacity { s with write := capacity.next w, pushed := s.pushed ++ [value], producer := .idle } := by
  have ok := inv.producer
  have built := inv.built
  have order := inv.order
  simp only [ProducerOk, at_] at ok
  simp only [at_, Producer.building] at built
  exact
    { inv with
      write := by simp [ok.1, capacity.next_mod]
      order := by simp; omega
      room := by simpa using ok.2
      popped := by rw [List.take_append_of_le_length order]; exact inv.popped
      producer := trivial
      consumer := inv.consumer.published value w
      slots := fun i low high => (inv.slots i low high).trans (inv.content_published at_ i).symm
      built := by simp [built, Producer.building] }

theorem producer_inv (inv : Inv capacity s) (taken : step capacity s .producer = some t) : Inv capacity t := by
  cases at_ : s.producer with
  | idle => simp [step, at_] at taken
  | loadedWrite value w =>
      simp only [step, at_] at taken
      split_ifs at taken with full
      · obtain rfl := Option.some.inj taken
        exact inv.full at_
      · obtain rfl := Option.some.inj taken
        exact inv.notFull at_ full
  | notFull value w =>
      simp only [step, at_] at taken
      obtain rfl := Option.some.inj taken
      exact inv.construct at_
  | constructed value w =>
      simp only [step, at_] at taken
      obtain rfl := Option.some.inj taken
      exact inv.publish at_

theorem Inv.unread_ahead (inv : Inv capacity s) {r : Nat} (index : r = s.popped.length % capacity.size)
    (filled : r ≠ s.write) : s.popped.length < s.pushed.length := by
  rw [index, inv.write] at filled
  by_contra caught
  have equal : s.popped.length = s.pushed.length := Nat.le_antisymm inv.order (Nat.not_lt.mp caught)
  exact filled (by rw [equal])

theorem Inv.notEmpty (inv : Inv capacity s) {r : Nat} (at_ : s.consumer = .loadedRead r) (filled : r ≠ s.write) :
    Inv capacity { s with consumer := .notEmpty r } := by
  have index := inv.consumer
  have destroyed := inv.destroyed
  simp only [ConsumerOk, at_] at index
  exact { inv with
    consumer := ⟨index, inv.unread_ahead index filled⟩
    slots := fun i low high => by simpa [State.content, at_] using inv.slots i low high
    destroyed := by simpa [at_, Consumer.ending] using destroyed }

theorem Inv.drained (inv : Inv capacity s) {r : Nat} (at_ : s.consumer = .loadedRead r) :
    Inv capacity { s with consumer := .idle } := by
  have destroyed := inv.destroyed
  exact { inv with
    consumer := trivial
    slots := fun i low high => by simpa [State.content, at_] using inv.slots i low high
    destroyed := by simpa [at_, Consumer.ending] using destroyed }

theorem Inv.moveOut (inv : Inv capacity s) {value : T} {r : Nat} (at_ : s.consumer = .notEmpty r)
    (first : s.pushed[s.popped.length]? = some value) :
    Inv capacity
      { s with slots := Function.update s.slots r (.moved s.popped.length), consumer := .movedOut r value } := by
  have ok := inv.consumer
  have destroyed := inv.destroyed
  have positive := capacity.positive
  simp only [ConsumerOk, at_] at ok
  refine { inv with
    consumer := ⟨ok.1, first⟩
    slots := fun i low high => ?_
    destroyed := by simpa [at_, Consumer.ending] using destroyed }
  dsimp only at low high ⊢
  rw [ok.1, update_window _ _ low high (Nat.le_refl _) (by omega), inv.slots i low high]
  by_cases front : i = s.popped.length
  · simp [State.content, front, first]
  · simp [State.content, front]

theorem Inv.destroy (inv : Inv capacity s) {value : T} {r : Nat} (at_ : s.consumer = .movedOut r value) :
    Inv capacity
      { s with
        slots := Function.update s.slots r .raw
        destroyed := s.destroyed ++ [s.popped.length]
        consumer := .destroyed r value } := by
  have ok := inv.consumer
  have destroyed := inv.destroyed
  have positive := capacity.positive
  simp only [ConsumerOk, at_] at ok
  simp only [at_, Consumer.ending, Nat.add_zero] at destroyed
  refine { inv with
    consumer := ok
    slots := fun i low high => ?_
    destroyed := by simp [destroyed, Consumer.ending, List.range_succ] }
  dsimp only at low high ⊢
  rw [ok.1, update_window _ _ low high (Nat.le_refl _) (by omega), inv.slots i low high]
  by_cases front : i = s.popped.length
  · simp [State.content, front, ok.2]
  · simp [State.content, front]

theorem ProducerOk.released (ok : ProducerOk capacity s) (value : T) (r : Nat) :
    ProducerOk capacity
      { s with read := capacity.next r, popped := s.popped ++ [value], consumer := .idle } := by
  unfold ProducerOk at ok ⊢
  cases there : s.producer <;> simp only [there] at ok ⊢
  · exact ok
  all_goals exact ⟨ok.1, by simp; omega⟩

theorem Inv.slots_released (inv : Inv capacity s) {value : T} {r : Nat} (at_ : s.consumer = .destroyed r value)
    {i : Nat} (low : s.popped.length + 1 ≤ i) (high : i < s.popped.length + 1 + capacity.size) :
    s.slots (i % capacity.size) = s.content i := by
  have ok := inv.consumer
  simp only [ConsumerOk, at_] at ok
  have room := inv.room
  have unread := (List.getElem?_eq_some_iff.mp ok.2).1
  by_cases wrapped : i = s.popped.length + capacity.size
  · have front := inv.slots s.popped.length (Nat.le_refl _) (by omega)
    have outside : s.pushed.length ≤ i := by omega
    have notNext : i ≠ s.pushed.length := by omega
    rw [wrapped, Nat.add_mod_right, front, ← wrapped]
    simp [State.content, at_, ok.2, outside, notNext]
  · exact inv.slots i (by omega) (by omega)

theorem Inv.release (inv : Inv capacity s) {value : T} {r : Nat} (at_ : s.consumer = .destroyed r value) :
    Inv capacity { s with read := capacity.next r, popped := s.popped ++ [value], consumer := .idle } := by
  have ok := inv.consumer
  have destroyed := inv.destroyed
  have room := inv.room
  simp only [ConsumerOk, at_] at ok
  simp only [at_, Consumer.ending] at destroyed
  have unread := (List.getElem?_eq_some_iff.mp ok.2).1
  refine
    { inv with
      read := by simp [ok.1, capacity.next_mod]
      order := by simp only [List.length_append, List.length_singleton]; omega
      room := by simp; omega
      popped := ?_
      producer := inv.producer.released value r
      consumer := trivial
      slots := fun i low high => ?_
      destroyed := by simp [destroyed, Consumer.ending] }
  · dsimp only
    rw [List.length_append, List.length_singleton, List.take_add_one, ok.2, ← inv.popped]
    rfl
  · simp only [List.length_append, List.length_singleton] at low high
    have front : i ≠ s.popped.length := by omega
    rw [inv.slots_released at_ low high]
    simp [State.content, front]

theorem consumer_inv (inv : Inv capacity s) (taken : step capacity s .consumer = some t) : Inv capacity t := by
  cases at_ : s.consumer with
  | idle => simp [step, at_] at taken
  | loadedRead r =>
      simp only [step, at_] at taken
      split_ifs at taken with drained
      · obtain rfl := Option.some.inj taken
        exact inv.drained at_
      · obtain rfl := Option.some.inj taken
        exact inv.notEmpty at_ drained
  | notEmpty r =>
      obtain ⟨value, first, live⟩ := inv.slot_notEmpty at_
      simp only [step, at_, live] at taken
      obtain rfl := Option.some.inj taken
      exact inv.moveOut at_ first
  | movedOut r value =>
      have moved := inv.slot_movedOut at_
      simp only [step, at_, moved, Slot.serial, Option.bind_eq_bind, Option.bind_some] at taken
      obtain rfl := Option.some.inj taken
      exact inv.destroy at_
  | destroyed r value =>
      simp only [step, at_] at taken
      obtain rfl := Option.some.inj taken
      exact inv.release at_

theorem step_inv (s : State T) (event : Event T) (t : State T)
    (inv : Inv capacity s) (taken : step capacity s event = some t) : Inv capacity t := by
  cases event with
  | push value =>
      cases at_ : s.producer <;> simp only [step, at_, reduceCtorEq] at taken
      obtain rfl := Option.some.inj taken
      exact { inv with
        producer := inv.write
        slots := fun i low high => by simpa [State.content, at_] using inv.slots i low high
        built := by simpa [at_, Producer.building] using inv.built }
  | producer => exact producer_inv inv taken
  | pop =>
      cases at_ : s.consumer <;> simp only [step, at_, reduceCtorEq] at taken
      obtain rfl := Option.some.inj taken
      exact { inv with
        consumer := inv.read
        slots := fun i low high => by simpa [State.content, at_] using inv.slots i low high
        destroyed := by simpa [at_, Consumer.ending] using inv.destroyed }
  | consumer => exact consumer_inv inv taken

theorem run_inv {events : List (Event T)}
    (ran : run (step capacity) .initial events = some s) : Inv capacity s :=
  run_invariant (Inv capacity) step_inv (initial_inv capacity) ran

end CppInfra.FreeQueue.RingBuffer
