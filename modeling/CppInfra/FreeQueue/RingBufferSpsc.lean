import CppInfra.FreeQueue.RingBufferSteps

set_option autoImplicit false

namespace CppInfra.FreeQueue.RingBuffer

open Words Transition

variable {T : Type}

def State.quiet (s : State T) : Prop := s.producer = .idle ∧ s.consumer = .idle

structure Unwinding (capacity : Capacity) (s : State T) (k last : Nat) : Prop where
  order : k ≤ last
  room : last < k + capacity.size
  live : ∀ i, k ≤ i → i < last → (s.slots (i % capacity.size)).serial = some i
  raw : ∀ i, last ≤ i → i < k + capacity.size → s.slots (i % capacity.size) = .raw
  destroyed : s.destroyed = List.range k

theorem Inv.unwinding {capacity : Capacity} {s : State T} (inv : Inv capacity s) (quiet : s.quiet) :
    Unwinding capacity s s.popped.length s.pushed.length where
  order := inv.order
  room := inv.room
  live := by
    intro i low high
    have room := inv.room
    rw [inv.slots i low (by omega)]
    simp [State.content, quiet.2, high, Slot.serial]
  raw := by
    intro i low high
    have order := inv.order
    rw [inv.slots i (by omega) high]
    by_cases next : i = s.pushed.length <;> simp [State.content, quiet.1, low, next]
  destroyed := by simpa [quiet.2, Consumer.ending] using inv.destroyed

theorem Unwinding.turn {capacity : Capacity} {s : State T} {k last : Nat}
    (unwinding : Unwinding capacity s k last) (more : k < last) :
    (s.slots (k % capacity.size)).serial = some k ∧
      Unwinding capacity
        { s with
          slots := Function.update s.slots (k % capacity.size) .raw
          destroyed := s.destroyed ++ [k] } (k + 1) last := by
  have room := unwinding.room
  refine ⟨unwinding.live k (Nat.le_refl _) more, more, by omega, ?_, ?_, ?_⟩
  · intro i low high
    dsimp only
    rw [update_window _ _ (show k ≤ i by omega) (by omega) (Nat.le_refl k) (by omega),
      if_neg (show i ≠ k by omega)]
    exact unwinding.live i (by omega) high
  · intro i low high
    dsimp only
    by_cases wrapped : i = k + capacity.size
    · rw [wrapped, Nat.add_mod_right, Function.update_self]
    · rw [update_window _ _ (show k ≤ i by omega) (by omega) (Nat.le_refl k) (by omega),
        if_neg (show i ≠ k by omega)]
      exact unwinding.raw i low (by omega)
  · simp [unwinding.destroyed, List.range_succ]

theorem destroyAll_correct {capacity : Capacity} {s : State T} {k last fuel : Nat}
    (unwinding : Unwinding capacity s k last) (enough : last ≤ k + fuel) :
    ∃ t, destroyAll capacity fuel s (k % capacity.size) (last % capacity.size) = some t ∧
      (∀ j < capacity.size, t.slots j = .raw) ∧ t.destroyed = List.range last ∧ t.built = s.built := by
  have room := unwinding.room
  have order := unwinding.order
  by_cases done : k = last
  · subst done
    refine ⟨s, by cases fuel <;> simp [destroyAll], ?_, unwinding.destroyed, rfl⟩
    intro j bound
    obtain ⟨i, low, high, rfl⟩ := window_surjective k bound
    exact unwinding.raw i low high
  · -- Different positions of one window have different indices, so the loop goes on.
    have differ : k % capacity.size ≠ last % capacity.size := fun same =>
      done (window_injective (Nat.le_refl k) (by omega) order room same)
    obtain ⟨serial, next⟩ := unwinding.turn (by omega)
    cases fuel with
    | zero => omega
    | succ fuel =>
        obtain ⟨t, rest, facts⟩ := destroyAll_correct next (show last ≤ k + 1 + fuel by omega)
        exact ⟨t, by simpa [destroyAll, differ, serial, capacity.next_mod] using rest, facts⟩
termination_by fuel

theorem Inv.size_eq {capacity : Capacity} {s : State T} (inv : Inv capacity s) :
    s.size capacity = s.pushed.length - s.popped.length := by
  have order := inv.order
  have room := inv.room
  have positive := capacity.positive
  have pushed := Nat.div_add_mod s.pushed.length capacity.size
  have popped := Nat.div_add_mod s.popped.length capacity.size
  have belowPushed := Nat.mod_lt s.pushed.length positive
  have belowPopped := Nat.mod_lt s.popped.length positive
  have atLeast : s.popped.length / capacity.size ≤ s.pushed.length / capacity.size :=
    Nat.div_le_div_right order
  have atMost : s.pushed.length / capacity.size ≤ s.popped.length / capacity.size + 1 := by
    rw [← Nat.add_div_right _ positive]
    exact Nat.div_le_div_right (by omega)
  rw [State.size, inv.read, inv.write]
  -- The two counts lie in the same round of the buffer or in consecutive ones.
  rcases Nat.eq_or_lt_of_le atLeast with same | later
  · rw [same] at popped
    split_ifs <;> omega
  · rw [show s.pushed.length / capacity.size = s.popped.length / capacity.size + 1 by omega,
      Nat.mul_add, Nat.mul_one] at pushed
    split_ifs <;> omega

def stored (capacity : Capacity) (s : State T) : Nat :=
  (List.range capacity.size).countP fun j => (s.slots j).serial.isSome

theorem Inv.stored_lt {capacity : Capacity} {s : State T} (inv : Inv capacity s) :
    stored capacity s ≤ capacity.size - 1 := by
  -- The last slot of the window is free even while a `Push` is in flight.
  have positive := capacity.positive
  have order := inv.order
  have room := inv.room
  have free : s.slots ((s.popped.length + capacity.size - 1) % capacity.size) = .raw := by
    rw [inv.slots _ (by omega) (by omega)]
    have producer := inv.producer
    unfold ProducerOk at producer
    by_cases next : s.popped.length + capacity.size - 1 = s.pushed.length
    · cases at_ : s.producer <;> simp only [at_] at producer <;>
        simp [State.content, next, at_]
      omega
    · have outside : s.pushed.length ≤ s.popped.length + capacity.size - 1 := by omega
      simp [State.content, next, outside]
  have fewer : stored capacity s ≠ capacity.size := by
    intro all
    have every := List.countP_eq_length.mp (all.trans List.length_range.symm)
    have here := every _ (List.mem_range.mpr (Nat.mod_lt (s.popped.length + capacity.size - 1) positive))
    simp [free, Slot.serial] at here
  have bound : stored capacity s ≤ capacity.size := by
    simpa [stored] using List.countP_le_length (l := List.range capacity.size)
  omega

theorem ringBuffer_spsc (capacity : Capacity) (events : List (Event T)) (s : State T)
    (ran : run (step capacity) .initial events = some s) :
    s.popped <+: s.pushed ∧
      (∀ value w, s.producer = .notFull value w → s.slots w = .raw) ∧
      (∀ r, s.consumer = .notEmpty r → ∃ serial value, s.slots r = .live serial value) ∧
      stored capacity s ≤ capacity.size - 1 ∧
      (s.quiet → s.size capacity = s.pushed.length - s.popped.length) ∧
      (s.quiet → ∃ t, destructor capacity s = some t ∧ (∀ j < capacity.size, t.slots j = .raw) ∧
        t.destroyed = List.range t.built) := by
  have inv := run_inv ran
  refine ⟨?_, ?_, ?_, inv.stored_lt, fun _ => inv.size_eq, ?_⟩
  · rw [inv.popped]
    exact List.take_prefix _ _
  · intro value w at_
    exact inv.slot_notFull at_
  · intro r at_
    obtain ⟨value, -, live⟩ := inv.slot_notEmpty at_
    exact ⟨_, value, live⟩
  · intro quiet
    have room := inv.room
    obtain ⟨t, ended, clean, destroyed, built⟩ :=
      destroyAll_correct (inv.unwinding quiet) (show s.pushed.length ≤ s.popped.length + capacity.size by omega)
    refine ⟨t, ?_, clean, ?_⟩
    · rw [destructor, inv.read, inv.write]
      exact ended
    · rw [destroyed, built, inv.built, quiet.1]
      rfl

-- Capacity 2: the second `Push` overlaps the `Pop` of the first value and finds the buffer full.
theorem ringBuffer_spsc_overlapping :
    ∃ s : State Nat, run (step ⟨2, by decide, by decide, by decide⟩) .initial
        [.push 7, .producer, .producer, .producer, .pop, .push 8, .consumer, .producer, .consumer] = some s ∧
      s.popped <+: s.pushed ∧
      (∀ value w, s.producer = .notFull value w → s.slots w = .raw) ∧
      (∀ r, s.consumer = .notEmpty r → ∃ serial value, s.slots r = .live serial value) ∧
      stored ⟨2, by decide, by decide, by decide⟩ s ≤ 1 := by
  have possible : (run (step ⟨2, by decide, by decide, by decide⟩) (.initial : State Nat)
      [.push 7, .producer, .producer, .producer, .pop, .push 8, .consumer, .producer, .consumer]).isSome := by
    decide
  obtain ⟨s, ran⟩ := Option.isSome_iff_exists.mp possible
  obtain ⟨order, raw, live, bound, -⟩ := ringBuffer_spsc ⟨2, by decide, by decide, by decide⟩ _ s ran
  exact ⟨s, ran, order, raw, live, bound⟩

end CppInfra.FreeQueue.RingBuffer
