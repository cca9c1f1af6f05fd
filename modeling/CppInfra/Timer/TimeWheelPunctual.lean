import CppInfra.Timer.TimeWheelInvariant

set_option autoImplicit false

namespace CppInfra.Timer.TimeWheel

open Words Transition DisjointLists

variable {P : Type}

-- `timer_update` is entered while no other thread is inside it. `expire_timer` relies on this too: it
-- reads and writes `current_point` without the lock.
def Alone (s : STimer P) : Event P → Prop
  | .update _ => ∀ q, s.updaters q = .idle
  | _ => True

instance aloneDecidable [Fintype P] (s : STimer P) (event : Event P) : Decidable (Alone s event) :=
  match event with
  | .addTimer _ _ => inferInstanceAs (Decidable True)
  | .delTimer _ => inferInstanceAs (Decidable True)
  | .update _ => inferInstanceAs (Decidable (∀ q, s.updaters q = .idle))
  | .dispatch _ => inferInstanceAs (Decidable True)
  | .resume _ => inferInstanceAs (Decidable True)

variable [DecidableEq P]

theorem run_punctual {s : STimer P} {events : List (Event P)} (alone : Along step Alone timerCreateTimer events)
    (ran : run step timerCreateTimer events = some s) : Wheel.Punctual design s.wheel := by
  have single : Along (Wheel.step design) Wheel.Alone Wheel.create (events.map Event.wheel) := by
    refine run_along ?_ alone ran
    intro s event t here _
    cases event with
    | update p =>
        intro q
        exact congrArg Updater.wheel (here q)
    | addTimer time stale => trivial
    | delTimer node => trivial
    | dispatch p => trivial
    | resume p => trivial
  exact Wheel.run_punctual (run_inReach ran) single (run_wheel ran)

theorem executeShifted_empty {s : STimer P} (p : P) {idx : Nat} (empty : s.slots (.near idx) = []) :
    executeShifted s p idx = s.setUpdater p .idle := by
  rw [executeShifted, if_neg (not_not.mpr empty)]

theorem loop_ends {s : STimer P} (inv : Wheel.Inv laws s.wheel) (punctual : Wheel.Punctual design s.wheel) {p : P}
    {shifted : Bool} {idx : Nat} {current : List Nat} (walking : s.updaters p = .dispatching shifted idx current) :
    s.slots (.near idx) = [] ∧
      (∀ time stale, 0 < time → time < 2 ^ 31 → (addTimer s time stale).slots (.near idx) = []) ∧
      (current = [] → step s (.resume p) = some (s.setUpdater p .idle)) := by
  have busy : s.wheel.updaters p = .dispatching shifted (.near idx) current := congrArg Updater.wheel walking
  have index : Slot.near idx = design.executed s.time := (punctual.now p shifted _ current busy).1
  have empty : s.slots (.near idx) = [] := by
    rw [index]
    exact inv.settled
  refine ⟨empty, ?_, ?_⟩
  · intro time stale positive fits
    have near : laws.Near s.ticks (s.ticks + time.toNat) := by
      show s.ticks + time.toNat < s.ticks + 2 ^ 31
      omega
    have other : Wheel.addedSlot design s.wheel time ≠ .near idx := by
      rw [index]
      exact inv.kept.addedSlot_later positive near
    have same : (addTimer s time stale).slots = (Wheel.addTimer design s.wheel time stale).slots := by
      rw [addTimer, Wheel.addTimer]
      split_ifs <;> rfl
    rw [same, inv.kept.addTimer_eq positive]
    exact (put_of_ne other).trans empty
  · rintro rfl
    obtain rfl := inv.kept.shifted p shifted _ [] busy
    simp only [step, walking]
    rw [executeShifted_empty p empty]

theorem timeWheel_punctual (events : List (Event P)) (s : STimer P)
    (ran : run step timerCreateTimer events = some s) :
    s.dispatched.Nodup ∧ (s.ran.map Prod.fst).Nodup ∧
      (∀ x, .delTimer x ∈ events → ∀ n now, (x, n, now) ∉ s.ran) ∧
      (Along step Alone timerCreateTimer events →
        (∀ x n now, (x, n, now) ∈ s.ran → n = s.due x ∧ now = s.expire x) ∧
        (∀ before time stale after m n now, events = before ++ .addTimer time stale :: after → 0 < time →
          run step timerCreateTimer before = some m → (m.allocated, n, now) ∈ s.ran → (n : Int) = m.ticks + time) ∧
        ∀ p shifted idx current, s.updaters p = .dispatching shifted idx current →
          s.slots (.near idx) = [] ∧
          (∀ time stale, 0 < time → time < 2 ^ 31 → (addTimer s time stale).slots (.near idx) = []) ∧
          (current = [] → step s (.resume p) = some (s.setUpdater p .idle))) := by
  have inv := run_inv ran
  have distinct : s.dispatched.Nodup := inv.kept.scattered.distinct .dispatched
  refine ⟨distinct, ?_, ?_, ?_⟩
  · have logged : s.ran.map Prod.fst = s.dispatched.filter fun x => s.cancel x = 0 := inv.kept.logged
    rw [logged]
    exact distinct.filter _
  · intro x deleted
    exact Wheel.deleted_silent (run_inReach ran) (run_wheel ran) (List.mem_map_of_mem deleted)
  · intro alone
    have punctual := run_punctual alone ran
    refine ⟨punctual.log, ?_, ?_⟩
    · intro before time stale after m n now split positive early logged
      have reach := run_inReach ran
      have whole := run_wheel ran
      rw [split, List.map_append, List.map_cons] at reach whole
      exact Wheel.run_onTime reach punctual whole positive (run_wheel early) logged
    · intro p shifted idx current walking
      exact loop_ends inv punctual walking

def callbacks : List (Event (Fin 2)) :=
  [.addTimer 1 0, .addTimer 1 0, .update 0, .dispatch 0, .addTimer 1 0, .delTimer 1, .addTimer 0 0, .dispatch 0,
    .resume 0, .update 1, .dispatch 1, .resume 1]

theorem timeWheel_punctual_callbacks :
    ∃ s, run step timerCreateTimer callbacks = some s ∧ s.ran = [(0, 1, 1), (2, 2, 2)] ∧ s.dispatched = [0, 1, 2] ∧
      (∀ x n now, (x, n, now) ∈ s.ran → n = s.due x ∧ now = s.expire x) ∧ ∀ n now, (1, n, now) ∉ s.ran := by
  have alone : Along step Alone timerCreateTimer callbacks := by decide
  have results : (run step timerCreateTimer callbacks).map (fun s => (s.ran, s.dispatched)) =
      some ([(0, 1, 1), (2, 2, 2)], [0, 1, 2]) := by decide
  obtain ⟨s, ran, outcome⟩ := Option.map_eq_some_iff.mp results
  obtain ⟨_, _, silent, punctual⟩ := timeWheel_punctual callbacks s ran
  simp only [Prod.mk.injEq] at outcome
  exact ⟨s, ran, outcome.1, outcome.2, (punctual alone).1, silent 1 (by simp [callbacks])⟩

-- A second thread completes `timer_update` while the first one still holds the list it took out.
def overtaking : List (Event (Fin 2)) := [.addTimer 1 0, .update 0, .update 1, .dispatch 0]

theorem timeWheel_punctual_overtaking :
    ∃ s, run step timerCreateTimer overtaking = some s ∧ (0, 2, 2) ∈ s.ran ∧ s.due 0 = 1 ∧ s.expire 0 = 1 := by
  have results : (run step timerCreateTimer overtaking).map (fun s => (s.ran, s.due 0, s.expire 0)) =
      some ([(0, 2, 2)], 1, 1) := by decide
  obtain ⟨s, ran, outcome⟩ := Option.map_eq_some_iff.mp results
  simp only [Prod.mk.injEq] at outcome
  exact ⟨s, ran, by simp [outcome.1], outcome.2.1, outcome.2.2⟩

end CppInfra.Timer.TimeWheel
