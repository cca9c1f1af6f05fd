import CppInfra.Timer.ClockTimerLost
import CppInfra.Shared.WheelLinks
import Mathlib.Data.Fintype.Basic

set_option autoImplicit false

namespace CppInfra.Timer.ClockTimer

open Words Transition DisjointLists

variable {P : Type}

-- `timer_update` is entered while no other thread is inside it. `check_timer` relies on this too: it
-- reads and writes `current_point` without the lock.
def Alone (s : TimerSt P) (event : Event P) : Prop := Wheel.Alone s event.wheel

instance aloneDecidable [Fintype P] (s : TimerSt P) (event : Event P) : Decidable (Alone s event) :=
  match event with
  | .addTimer _ => inferInstanceAs (Decidable True)
  | .delTimer _ => inferInstanceAs (Decidable True)
  | .update _ => inferInstanceAs (Decidable (∀ q, s.updaters q = .idle))
  | .dispatch _ => inferInstanceAs (Decidable True)
  | .resume _ => inferInstanceAs (Decidable True)

abbrev Pointers (P : Type) := Wheel.Pointers Slot P

def createLinks : Pointers P := Wheel.createLinks

variable {s t : TimerSt P} {event : Event P} {events : List (Event P)}

theorem Inv.hour_refiled (inv : Inv s) (begins : add 32 s.time 1 % 3600 = 0) {x : Nat}
    (member : x ∈ s.slots (.hour (add 32 s.time 1 / 3600 % 12))) :
    x ∈ (timerShift s).slots (slotOf (s.expire x) (add 32 s.time 1)) ∧
      (add 32 s.time 1 + 3600 ≤ s.expire x →
        slotOf (s.expire x) (add 32 s.time 1) = .hour (add 32 s.time 1 / 3600 % 12)) := by
  have moved : clock.moved (add 32 s.time 1) = some (.hour (add 32 s.time 1 / 3600 % 12)) := remapped_hour begins
  constructor
  · rw [timerShift, Wheel.timerShift_eq, Wheel.ticked, Wheel.shiftedSlots, moved]
    exact mem_deal.mpr (.inr ⟨member, rfl⟩)
  · intro far
    have word : s.expire x < 2 ^ 32 := by
      rw [inv.kept.stamped]
      exact Nat.mod_lt _ (by decide)
    rcases inv.kept.held _ x member with dead | ⟨_, index, _⟩
    · cases dead
    · rw [← inv.kept.stamped] at index
      rcases slotOf_cases (show add 32 s.time 1 ≤ s.expire x by omega) word with
        ⟨_, close⟩ | ⟨_, _, close⟩ | ⟨chosen, _⟩
      · omega
      · omega
      · rw [chosen, index]

variable [DecidableEq P]

-- The critical sections with `link_clear`, `link_to` and the loops over `next` as the code has them.
def stepLinked (state : TimerSt P × Pointers P) (event : Event P) : Option (TimerSt P × Pointers P) :=
  (step state.1 event).bind fun t =>
    (Wheel.stepLinks clock state.1 state.2 event.wheel).map fun links => (t, links)

theorem step_follows {links : Pointers P} (inv : Inv s) (follows : Wheel.Follows links s) (inRound : InRound s event)
    (stepped : step s event = some t) :
    ∃ after, stepLinked (s, links) event = some (t, after) ∧ Wheel.Follows after t := by
  obtain ⟨after, linked, later⟩ := follows.step inv (inv.inReach inRound) stepped
  refine ⟨after, ?_, later⟩
  rw [stepLinked, stepped, Option.bind_some, linked]
  rfl

theorem run_follows (inRound : Along step InRound createTimer events) (ran : run step createTimer events = some s) :
    ∃ links, run stepLinked (createTimer, createLinks) events = some (s, links) ∧ Wheel.Follows links s := by
  -- By induction from the end, so that the invariant is at hand for the last step.
  induction events using List.reverseRecOn generalizing s with
  | nil =>
      obtain rfl := Option.some.inj ran
      exact ⟨createLinks, rfl, Wheel.create_follows⟩
  | append_singleton early event ih =>
      obtain ⟨middle, before, stepped⟩ := run_concat.mp ran
      obtain ⟨met, last⟩ := along_append.mp inRound
      obtain ⟨links, linked, follows⟩ := ih met before
      obtain ⟨after, next, later⟩ := step_follows (run_inv met before) follows (last middle before).1 stepped
      exact ⟨after, run_concat.mpr ⟨(middle, links), linked, next⟩, later⟩

theorem run_punctual (inRound : Along step InRound createTimer events) (alone : Along step Alone createTimer events)
    (ran : run step createTimer events = some s) : Wheel.Punctual clock s :=
  Wheel.run_punctual (run_inReach inRound ran) (run_along inRound (fun _ _ _ => id) alone ran) (run_wheel ran)

theorem clockTimer_punctual (events : List (Event P)) (s : TimerSt P)
    (inRound : Along step InRound createTimer events) (ran : run step createTimer events = some s) :
    s.dispatched.Nodup ∧ (s.ran.map Prod.fst).Nodup ∧
      (∀ x, .delTimer x ∈ events → ∀ n now, (x, n, now) ∉ s.ran) ∧
      (∀ x < s.allocated, ∃! place, x ∈ s.cells place) ∧
      (∃ links, run stepLinked (createTimer, createLinks) events = some (s, links) ∧ Wheel.Follows links s) ∧
      (add 32 s.time 1 % 3600 = 0 → ∀ x ∈ s.slots (.hour (add 32 s.time 1 / 3600 % 12)),
        x ∈ (timerShift s).slots (slotOf (s.expire x) (add 32 s.time 1)) ∧
        (add 32 s.time 1 + 3600 ≤ s.expire x →
          slotOf (s.expire x) (add 32 s.time 1) = .hour (add 32 s.time 1 / 3600 % 12))) ∧
      (Along step Alone createTimer events →
        (∀ x n now, (x, n, now) ∈ s.ran → n = s.due x ∧ now = s.expire x) ∧
        ∀ before time after m n now, events = before ++ .addTimer time :: after → 0 < time →
          run step createTimer before = some m → (m.allocated, n, now) ∈ s.ran → (n : Int) = m.ticks + time) := by
  have inv := run_inv inRound ran
  have distinct : s.dispatched.Nodup := inv.kept.scattered.distinct .dispatched
  refine ⟨distinct, ?_, ?_, ?_, run_follows inRound ran, fun begins x => inv.hour_refiled begins, ?_⟩
  · rw [inv.kept.logged]
    exact distinct.filter _
  · intro x deleted
    exact Wheel.deleted_silent (run_inReach inRound ran) (run_wheel ran) (List.mem_map_of_mem deleted)
  · intro x below
    obtain ⟨place, member⟩ := (inv.kept.present x).mpr below
    exact ⟨place, member, fun other again => inv.kept.scattered.unique other place x again member⟩
  · intro alone
    have punctual := run_punctual inRound alone ran
    refine ⟨punctual.log, ?_⟩
    intro before time after m n now split positive early logged
    have reach := run_inReach inRound ran
    have whole := run_wheel ran
    rw [split, List.map_append, List.map_cons] at reach whole
    exact Wheel.run_onTime reach punctual whole positive (run_wheel early) logged

def callbacks : List (Event Bool) :=
  [.addTimer 1, .addTimer 1, .update false, .dispatch false, .addTimer 1, .delTimer 1, .addTimer 0, .addTimer 50000,
    .dispatch false, .resume false, .update true, .dispatch true, .resume true]

theorem clockTimer_punctual_callbacks :
    ∃ s, run step createTimer callbacks = some s ∧ s.ran = [(0, 1, 1), (2, 2, 2)] ∧ s.dispatched = [0, 1, 2] ∧
      (∀ x n now, (x, n, now) ∈ s.ran → n = s.due x ∧ now = s.expire x) ∧ (∀ n now, (1, n, now) ∉ s.ran) ∧
      ∃ links, run stepLinked (createTimer, createLinks) callbacks = some (s, links) ∧ Wheel.Follows links s := by
  have inRound : Along step InRound createTimer callbacks := by decide
  have alone : Along step Alone createTimer callbacks := by decide
  have results : (run step createTimer callbacks).map (fun s => (s.ran, s.dispatched)) =
      some ([(0, 1, 1), (2, 2, 2)], [0, 1, 2]) := by decide
  obtain ⟨s, ran, outcome⟩ := Option.map_eq_some_iff.mp results
  obtain ⟨_, _, silent, _, links, _, punctual⟩ := clockTimer_punctual callbacks s inRound ran
  simp only [Prod.mk.injEq] at outcome
  exact ⟨s, ran, outcome.1, outcome.2, (punctual alone).1, silent 1 (by simp [callbacks]), links⟩

-- A second thread completes `timer_update` while the first one still holds the list it took out.
def overtaking : List (Event Bool) := [.addTimer 1, .update false, .update true, .dispatch false]

theorem clockTimer_punctual_overtaking :
    ∃ s, Along step InRound createTimer overtaking ∧ run step createTimer overtaking = some s ∧
      (0, 2, 2) ∈ s.ran ∧ s.due 0 = 1 ∧ s.expire 0 = 1 := by
  have inRound : Along step InRound createTimer overtaking := by decide
  have results : (run step createTimer overtaking).map (fun s => (s.ran, s.due 0, s.expire 0)) =
      some ([(0, 2, 2)], 1, 1) := by decide
  obtain ⟨s, ran, outcome⟩ := Option.map_eq_some_iff.mp results
  simp only [Prod.mk.injEq] at outcome
  exact ⟨s, inRound, ran, by simp [outcome.1], outcome.2.1, outcome.2.2⟩

end CppInfra.Timer.ClockTimer
