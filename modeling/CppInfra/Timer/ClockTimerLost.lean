import CppInfra.Timer.ClockTimerSlots

set_option autoImplicit false

namespace CppInfra.Timer.ClockTimer

open Words Transition DisjointLists

variable {P : Type}

-- `T->time + time` stays below 2 ^ 32.
def InRound (s : TimerSt P) : Event P → Prop
  | .addTimer time => 0 < time → s.time + time < 2 ^ 32
  | _ => True

instance inRoundDecidable (s : TimerSt P) (event : Event P) : Decidable (InRound s event) :=
  match event with
  | .addTimer time => inferInstanceAs (Decidable (0 < time → s.time + time < 2 ^ 32))
  | .delTimer _ => inferInstanceAs (Decidable True)
  | .update _ => inferInstanceAs (Decidable True)
  | .dispatch _ => inferInstanceAs (Decidable True)
  | .resume _ => inferInstanceAs (Decidable True)

-- A delay of minutes that ends in the first minute of an hour: `add_timer` links the node in `minute[0]`,
-- which `timer_shift` skips.
def Strands (now : Nat) (time : Int) : Prop :=
  60 ≤ time ∧ time < 3600 ∧ (now + time.toNat) / 60 % 60 = 0

instance strandsDecidable (now : Nat) (time : Int) : Decidable (Strands now time) :=
  inferInstanceAs (Decidable (60 ≤ time ∧ time < 3600 ∧ (now + time.toNat) / 60 % 60 = 0))

def StrandsNone (s : TimerSt P) : Event P → Prop
  | .addTimer time => ¬ Strands s.time time
  | _ => True

instance strandsNoneDecidable (s : TimerSt P) (event : Event P) : Decidable (StrandsNone s event) :=
  match event with
  | .addTimer time => inferInstanceAs (Decidable (¬ Strands s.time time))
  | .delTimer _ => inferInstanceAs (Decidable True)
  | .update _ => inferInstanceAs (Decidable True)
  | .dispatch _ => inferInstanceAs (Decidable True)
  | .resume _ => inferInstanceAs (Decidable True)

abbrev Inv (s : TimerSt P) : Prop := Wheel.Inv laws s

abbrev Alive (s : TimerSt P) : Prop := Wheel.Alive laws s

variable {s t : TimerSt P} {event : Event P}

theorem Inv.inReach (inv : Inv s) (inRound : InRound s event) : Wheel.InReach laws s event.wheel := by
  have clock := inv.kept.clock
  cases event with
  | addTimer time =>
      intro positive
      have below := inRound positive
      show s.ticks / 2 ^ 32 = (s.ticks + time.toNat) / 2 ^ 32
      omega
  | delTimer node => trivial
  | update p => trivial
  | dispatch p => trivial
  | resume p => trivial

theorem Inv.staysAlive (inv : Inv s) (inRound : InRound s event) (safe : StrandsNone s event) :
    Wheel.StaysAlive laws s event.wheel := by
  have clock := inv.kept.clock
  cases event with
  | addTimer time =>
      intro positive dead
      have below := inRound positive
      have word : (s.ticks + time.toNat) % 2 ^ 32 = s.time + time.toNat := by omega
      have slot : slotOf (s.time + time.toNat) s.time = .minute 0 := by
        rw [← word]
        exact dead
      apply safe
      rcases slotOf_cases (show s.time ≤ s.time + time.toNat by omega) (by omega) with
        ⟨chosen, _⟩ | ⟨chosen, far, close⟩ | ⟨chosen, _⟩
      · rw [chosen] at slot
        cases slot
      · rw [chosen, Slot.minute.injEq] at slot
        exact ⟨by omega, by omega, slot⟩
      · rw [chosen] at slot
        cases slot
  | delTimer node => trivial
  | update p => trivial
  | dispatch p => trivial
  | resume p => trivial

theorem Inv.expire_later (inv : Inv s) (alive : Alive s) {slot : Slot} {x : Nat} (member : x ∈ s.slots slot) :
    s.time < s.expire x := by
  obtain ⟨ahead, near⟩ := inv.future alive member
  have same : s.ticks / 2 ^ 32 = s.due x / 2 ^ 32 := near
  rw [inv.kept.clock, inv.kept.stamped]
  omega

variable [DecidableEq P]

theorem step_inv (inv : Inv s) (inRound : InRound s event) (stepped : step s event = some t) : Inv t :=
  Wheel.Inv.step inv (inv.inReach inRound) stepped

theorem step_alive (inv : Inv s) (alive : Alive s) (inRound : InRound s event) (safe : StrandsNone s event)
    (stepped : step s event = some t) : Alive t :=
  Wheel.Alive.step alive inv (inv.inReach inRound) (inv.staysAlive inRound safe) stepped

theorem step_wheel (s : TimerSt P) (event : Event P) : (step s event).map id = Wheel.step clock (id s) event.wheel :=
  Option.map_id_apply

theorem run_wheel {events : List (Event P)} (ran : run step createTimer events = some s) :
    run (Wheel.step clock) Wheel.create (events.map Event.wheel) = some s := by
  have mapped := run_map id Event.wheel step_wheel createTimer events
  rw [ran] at mapped
  exact mapped.symm

theorem run_along {events : List (Event P)} {meets : TimerSt P → Event P → Prop}
    {meets' : TimerSt P → Wheel.Event P → Prop} (inRound : Along step InRound createTimer events)
    (kept : ∀ s event, Inv s → meets s event → meets' s event.wheel) (met : Along step meets createTimer events)
    (ran : run step createTimer events = some s) :
    Along (Wheel.step clock) meets' Wheel.create (events.map Event.wheel) :=
  along_map id Event.wheel step_wheel Inv
    (fun s event _ inv here stepped => ⟨step_inv inv here.1 stepped, kept s event inv here.2⟩)
    Wheel.create_inv (inRound.and met) ran

theorem run_inReach {events : List (Event P)} (inRound : Along step InRound createTimer events)
    (ran : run step createTimer events = some s) :
    Along (Wheel.step clock) (Wheel.InReach laws) Wheel.create (events.map Event.wheel) :=
  run_along inRound (fun _ _ inv here => inv.inReach here) inRound ran

theorem run_inv {events : List (Event P)} (inRound : Along step InRound createTimer events)
    (ran : run step createTimer events = some s) : Inv s :=
  Wheel.run_inv (run_inReach inRound ran) (run_wheel ran)

theorem clockTimer_noTimerLost (events : List (Event P)) (s : TimerSt P)
    (safe : Along step (fun s event => InRound s event ∧ StrandsNone s event) createTimer events)
    (ran : run step createTimer events = some s) :
    (∀ slot x, x ∈ s.slots slot → s.time < s.expire x) ∧
      (∀ x < s.allocated, s.due x ≤ s.ticks → x ∈ s.dispatched ∨ ∃ p, x ∈ (s.updaters p).current) ∧
      ((∀ p, s.updaters p = .idle) → ∀ x < s.allocated, s.due x ≤ s.ticks →
        x ∈ s.dispatched ∧ (s.cancel x = 0 → ∃ n time, (x, n, time) ∈ s.ran)) := by
  obtain ⟨inv, alive⟩ := run_invariant_along (fun s => Inv s ∧ Alive s)
    (fun _ _ _ held met stepped => ⟨step_inv held.1 met.1 stepped, step_alive held.1 held.2 met.1 met.2 stepped⟩)
    ⟨Wheel.create_inv, fun _ _ => rfl⟩ safe ran
  refine ⟨fun _ _ => inv.expire_later alive, fun _ => inv.due_left alive, ?_⟩
  intro idle x below due
  have left : x ∈ s.dispatched := by
    rcases inv.due_left alive below due with done | ⟨p, waiting⟩
    · exact done
    · rw [idle p] at waiting
      cases waiting
  exact ⟨left, fun live => inv.kept.ran_iff.mpr ⟨left, live⟩⟩

def delays : List (Event Unit) :=
  [.addTimer 2, .update (), .addTimer 1, .addTimer 1, .delTimer 2, .update (), .dispatch (), .dispatch (),
    .dispatch (), .addTimer 150, .addTimer 43210, .resume ()]

theorem clockTimer_noTimerLost_delays :
    ∃ s, run step createTimer delays = some s ∧ s.dispatched = [0, 1, 2] ∧ s.ran = [(0, 2, 2), (1, 2, 2)] ∧
      s.slots (.minute 2) = [3] ∧ s.slots (.hour 0) = [4] ∧
      (∀ slot x, x ∈ s.slots slot → s.time < s.expire x) ∧
      ∀ x < s.allocated, s.due x ≤ s.ticks → x ∈ s.dispatched := by
  have safe : Along step (fun s event => InRound s event ∧ StrandsNone s event) createTimer delays := by decide
  have results : (run step createTimer delays).map (fun s => (s.dispatched, s.ran, s.updaters ())) =
      some ([0, 1, 2], [(0, 2, 2), (1, 2, 2)], .idle) := by decide
  have waiting : (run step createTimer delays).map (fun s => (s.slots (.minute 2), s.slots (.hour 0))) =
      some ([3], [4]) := by decide
  obtain ⟨s, ran, outcome⟩ := Option.map_eq_some_iff.mp results
  obtain ⟨future, _, dispatched⟩ := clockTimer_noTimerLost delays s safe ran
  rw [ran, Option.map_some, Option.some.injEq] at waiting
  simp only [Prod.mk.injEq] at outcome waiting
  have idle : ∀ p, s.updaters p = .idle := fun _ => outcome.2.2
  exact ⟨s, ran, outcome.1, outcome.2.1, waiting.1, waiting.2, future,
    fun x below due => (dispatched idle x below due).1⟩

def stranding (turns : Nat) : List (Event Unit) :=
  [.update (), .addTimer 3599] ++ List.replicate turns (.update ())

structure Stranded (s : TimerSt Unit) : Prop where
  inv : Inv s
  idle : s.updaters () = .idle
  only : s.allocated = 1
  stuck : 0 ∈ s.slots (.minute 0)
  due : s.due 0 = 3600

theorem alone_empty {s : TimerSt Unit} (kept : Wheel.Kept laws s) (only : s.allocated = 1)
    (stuck : 0 ∈ s.slots (.minute 0)) (place : Wheel.Place Slot Unit) (other : place ≠ .linked (.minute 0)) :
    s.cells place = [] := by
  rw [List.eq_nil_iff_forall_not_mem]
  intro x member
  have below := (kept.present x).mp ⟨place, member⟩
  obtain rfl : x = 0 := by omega
  exact other (kept.scattered.unique place (.linked (.minute 0)) 0 member stuck)

theorem Stranded.update {s : TimerSt Unit} (stranded : Stranded s) :
    ∃ t, step s (.update ()) = some t ∧ Stranded t ∧ t.ticks = s.ticks + 1 := by
  have stuck : 0 ∈ Wheel.shiftedSlots clock s (.minute 0) := by
    rw [stranded.inv.kept.shifted_dead rfl]
    exact stranded.stuck
  have empty : (Wheel.ticked s (Wheel.shiftedSlots clock s)).slots (clock.executed (add 32 s.time 1)) = [] :=
    alone_empty stranded.inv.timerShift stranded.only stuck (.linked _) (by simp [clock])
  have stepped : step s (.update ()) = some ((Wheel.ticked s (Wheel.shiftedSlots clock s)).setUpdater () .idle) := by
    have executed := stranded.inv.executeFirst ()
    rw [Wheel.executeShifted, if_neg (not_not.mpr empty)] at executed
    rw [← executed]
    exact if_pos stranded.idle
  refine ⟨_, stepped, ?_, rfl⟩
  have inRound : InRound s (.update ()) := trivial
  exact ⟨step_inv stranded.inv inRound stepped, rfl, stranded.only, stuck, stranded.due⟩

theorem stranding_stuck (turns : Nat) :
    ∃ s, run step createTimer (stranding turns) = some s ∧ Stranded s ∧ s.ticks = turns + 1 := by
  induction turns with
  | zero =>
      have results : (run step createTimer (stranding 0)).map
          (fun s => (s.updaters (), s.allocated, s.slots (.minute 0), s.due 0, s.ticks)) =
          some (.idle, 1, [0], 3600, 1) := by decide
      obtain ⟨s, ran, outcome⟩ := Option.map_eq_some_iff.mp results
      simp only [Prod.mk.injEq] at outcome
      obtain ⟨idle, only, stuck, due, ticks⟩ := outcome
      have inRound : Along step InRound createTimer (stranding 0) := by decide
      have inv := run_inv inRound ran
      exact ⟨s, ran, ⟨inv, idle, only, by simp [stuck], due⟩, ticks⟩
  | succ turns ih =>
      obtain ⟨s, ran, stranded, ticks⟩ := ih
      obtain ⟨t, stepped, later, next⟩ := stranded.update
      refine ⟨t, ?_, later, by omega⟩
      rw [stranding, List.replicate_succ', ← List.append_assoc, run_concat]
      exact ⟨s, ran, stepped⟩

theorem clockTimer_noTimerLost_stranding :
    ∃ s, run step createTimer (stranding 3599) = some s ∧ s.updaters () = .idle ∧ 0 ∈ s.slots (.minute 0) ∧
      s.due 0 ≤ s.ticks ∧ s.dispatched = [] ∧ ¬ s.time < s.expire 0 := by
  obtain ⟨s, ran, stranded, ticks⟩ := stranding_stuck 3599
  have due := stranded.due
  have kept := stranded.inv.kept
  refine ⟨s, ran, stranded.idle, stranded.stuck, by omega, ?_, ?_⟩
  · exact alone_empty kept stranded.only stranded.stuck .dispatched (by simp)
  · rw [kept.stamped, kept.clock, due, ticks]
    decide

end CppInfra.Timer.ClockTimer
