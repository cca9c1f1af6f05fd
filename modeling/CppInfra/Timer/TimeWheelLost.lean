import CppInfra.Timer.TimeWheelInvariant

set_option autoImplicit false

namespace CppInfra.Timer.TimeWheel

open Words Transition DisjointLists

variable {P : Type}

-- A delay of a level that ends in a block with index 0 on that level: `add_timer` links the node in
-- `t[level][0]`, which `timer_shift` skips.
def Strands (now : Nat) (time : Int) : Prop :=
  ∃ level < 3, 2 ^ (8 + 6 * level) ≤ time.toNat ∧ time.toNat < 2 ^ (14 + 6 * level) ∧
    (now + time.toNat) % 2 ^ 32 / 2 ^ (8 + 6 * level) % 2 ^ 6 = 0

instance strandsDecidable (now : Nat) (time : Int) : Decidable (Strands now time) :=
  inferInstanceAs (Decidable (∃ level < 3, 2 ^ (8 + 6 * level) ≤ time.toNat ∧ time.toNat < 2 ^ (14 + 6 * level) ∧
    (now + time.toNat) % 2 ^ 32 / 2 ^ (8 + 6 * level) % 2 ^ 6 = 0))

def StrandsNone (s : STimer P) : Event P → Prop
  | .addTimer time _ => ¬ Strands s.time time
  | _ => True

instance strandsNoneDecidable (s : STimer P) (event : Event P) : Decidable (StrandsNone s event) :=
  match event with
  | .addTimer time _ => inferInstanceAs (Decidable (¬ Strands s.time time))
  | .delTimer _ => inferInstanceAs (Decidable True)
  | .update _ => inferInstanceAs (Decidable True)
  | .dispatch _ => inferInstanceAs (Decidable True)
  | .resume _ => inferInstanceAs (Decidable True)

abbrev Inv (s : STimer P) : Prop := Wheel.Inv laws s.wheel

abbrev Alive (s : STimer P) : Prop := Wheel.Alive laws s.wheel

theorem Inv.staysAlive {s : STimer P} (inv : Inv s) {event : Event P} (reach : Wheel.InReach laws s.wheel event.wheel)
    (safe : StrandsNone s event) : Wheel.StaysAlive laws s.wheel event.wheel := by
  cases event with
  | addTimer time stale =>
      intro positive dead
      apply safe
      have fits : s.ticks + time.toNat < s.ticks + 2 ^ 31 := reach positive
      have clock : s.time = s.ticks % 2 ^ 32 := inv.kept.clock
      have now : (s.time + time.toNat) % 2 ^ 32 = (s.ticks + time.toNat) % 2 ^ 32 := by omega
      have chosen : Wheel.addedSlot design s.wheel time =
          slotOf ((s.ticks + time.toNat) % 2 ^ 32) (s.ticks % 2 ^ 32) := by
        rw [← clock]
        rfl
      rw [chosen] at dead
      rcases slotOf_cases (show s.ticks ≤ s.ticks + time.toNat by omega) fits with
        ⟨near, _⟩ | ⟨level, bound, far, later, close⟩
      · rw [near] at dead
        exact dead.elim
      · rw [far] at dead
        obtain ⟨low, zero⟩ := dead
        refine ⟨level, low, by omega, by omega, ?_⟩
        rw [now, ← zero]
        rcases level_cases bound with rfl | rfl | rfl | rfl <;> omega
  | delTimer node => trivial
  | update p => trivial
  | dispatch p => trivial
  | resume p => trivial

theorem Inv.signed_future {s : STimer P} (inv : Inv s) (alive : Alive s) {slot : Slot} {x : Nat}
    (member : x ∈ s.slots slot) : 0 < toSigned 32 (sub 32 (s.expire x) s.time) := by
  obtain ⟨ahead, close⟩ : s.ticks < s.due x ∧ s.due x < s.ticks + 2 ^ 31 :=
    Wheel.Inv.future inv alive (show x ∈ s.wheel.slots slot from member)
  have stamped : s.expire x = s.due x % 2 ^ 32 := inv.kept.stamped x
  have clock : s.time = s.ticks % 2 ^ 32 := inv.kept.clock
  rw [stamped, clock, msec_exact (by omega) close, toSigned_exact (by omega)]
  omega

theorem Inv.due_left {s : STimer P} (inv : Inv s) (alive : Alive s) {x : Nat} (below : x < s.allocated)
    (due : s.due x ≤ s.ticks) : x ∈ s.dispatched ∨ ∃ p, x ∈ (s.updaters p).current := by
  rcases Wheel.Inv.due_left inv alive below due with done | ⟨p, waiting⟩
  · exact .inl done
  · rw [updaters_current] at waiting
    exact .inr ⟨p, waiting⟩

variable [DecidableEq P]

theorem step_inv {s t : STimer P} {event : Event P} (inv : Inv s) (stepped : step s event = some t) : Inv t :=
  Wheel.Inv.step inv (step_inReach stepped) (by rw [← step_wheel, stepped, Option.map_some])

theorem step_alive {s t : STimer P} {event : Event P} (inv : Inv s) (alive : Alive s) (safe : StrandsNone s event)
    (stepped : step s event = some t) : Alive t := by
  have reach := step_inReach stepped
  exact Wheel.Alive.step alive inv reach (inv.staysAlive reach safe) (by rw [← step_wheel, stepped, Option.map_some])

theorem timeWheel_noTimerLost (events : List (Event P)) (s : STimer P)
    (safe : Along step StrandsNone timerCreateTimer events) (ran : run step timerCreateTimer events = some s) :
    (∀ slot x, x ∈ s.slots slot → 0 < toSigned 32 (sub 32 (s.expire x) s.time)) ∧
      (∀ x < s.allocated, s.due x ≤ s.ticks → x ∈ s.dispatched ∨ ∃ p, x ∈ (s.updaters p).current) ∧
      ((∀ p, s.updaters p = .idle) → ∀ x < s.allocated, s.due x ≤ s.ticks →
        x ∈ s.dispatched ∧ (s.cancel x = 0 → ∃ n time, (x, n, time) ∈ s.ran)) := by
  obtain ⟨inv, alive⟩ := run_invariant_along (fun s => Inv s ∧ Alive s)
    (fun _ _ _ held met stepped => ⟨step_inv held.1 stepped, step_alive held.1 held.2 met stepped⟩)
    ⟨Wheel.create_inv, fun _ _ => rfl⟩ safe ran
  refine ⟨fun _ _ => inv.signed_future alive, fun _ => inv.due_left alive, ?_⟩
  intro idle x below due
  have left : x ∈ s.dispatched := by
    rcases inv.due_left alive below due with done | ⟨p, waiting⟩
    · exact done
    · rw [idle p] at waiting
      cases waiting
  exact ⟨left, fun live => inv.kept.ran_iff.mpr ⟨left, live⟩⟩

def delays : List (Event Unit) :=
  [.addTimer 2 0, .update (), .addTimer 1 0, .addTimer 1 0, .delTimer 2, .update (), .dispatch (), .dispatch (),
    .dispatch (), .addTimer 300 0, .resume ()]

theorem timeWheel_noTimerLost_delays :
    ∃ s, run step timerCreateTimer delays = some s ∧ s.dispatched = [0, 1, 2] ∧ s.ran = [(0, 2, 2), (1, 2, 2)] ∧
      (∀ slot x, x ∈ s.slots slot → 0 < toSigned 32 (sub 32 (s.expire x) s.time)) ∧
      ∀ x < s.allocated, s.due x ≤ s.ticks → x ∈ s.dispatched := by
  have safe : Along step StrandsNone timerCreateTimer delays := by decide
  have results : (run step timerCreateTimer delays).map (fun s => (s.dispatched, s.ran, s.updaters ())) =
      some ([0, 1, 2], [(0, 2, 2), (1, 2, 2)], .idle) := by decide
  obtain ⟨s, ran, outcome⟩ := Option.map_eq_some_iff.mp results
  obtain ⟨future, _, dispatched⟩ := timeWheel_noTimerLost delays s safe ran
  simp only [Prod.mk.injEq] at outcome
  have idle : ∀ p, s.updaters p = .idle := fun _ => outcome.2.2
  exact ⟨s, ran, outcome.1, outcome.2.1, future, fun x below due => (dispatched idle x below due).1⟩

def stranding (turns : Nat) : List (Event Unit) :=
  [.update (), .addTimer 16383 0] ++ List.replicate turns (.update ())

structure Stranded (s : STimer Unit) : Prop where
  inv : Inv s
  idle : s.updaters () = .idle
  only : s.allocated = 1
  stuck : 0 ∈ s.slots (.t 0 0)
  due : s.due 0 = 2 ^ 14

theorem alone_empty {s : Wheel.Timer Slot Unit} (kept : Wheel.Kept laws s) (only : s.allocated = 1)
    (stuck : 0 ∈ s.slots (.t 0 0)) (place : Wheel.Place Slot Unit) (other : place ≠ .linked (.t 0 0)) :
    s.cells place = [] := by
  rw [List.eq_nil_iff_forall_not_mem]
  intro x member
  have below := (kept.present x).mp ⟨place, member⟩
  obtain rfl : x = 0 := by omega
  exact other (kept.scattered.unique place (.linked (.t 0 0)) 0 member stuck)

theorem Stranded.update {s : STimer Unit} (stranded : Stranded s) :
    ∃ t, step s (.update ()) = some t ∧ Stranded t ∧ t.ticks = s.ticks + 1 := by
  have dead : laws.Dead (Slot.t 0 0) := show Slot.Dead (.t 0 0) from ⟨by omega, rfl⟩
  have stuck : 0 ∈ Wheel.shiftedSlots design s.wheel (.t 0 0) := by
    rw [Wheel.Kept.shifted_dead stranded.inv.kept dead]
    exact stranded.stuck
  have kept := stranded.inv.timerShift
  have empty : (Wheel.ticked s.wheel (Wheel.shiftedSlots design s.wheel)).slots
      (design.executed (add 32 s.wheel.time 1)) = [] :=
    alone_empty kept stranded.only stuck (.linked _) (by simp [design])
  have idle : s.wheel.updaters () = .idle := congrArg Updater.wheel stranded.idle
  have executed := stranded.inv.executeFirst ()
  rw [Wheel.executeShifted, if_neg (not_not.mpr empty)] at executed
  have mapped := step_wheel s (.update ())
  rw [Event.wheel, Wheel.step, if_pos idle, executed] at mapped
  obtain ⟨t, stepped, same⟩ := Option.map_eq_some_iff.mp mapped
  refine ⟨t, stepped, ⟨step_inv stranded.inv stepped, ?_, ?_, ?_, ?_⟩, ?_⟩
  · have still := congrArg (·.updaters ()) same
    cases updater : t.updaters () with
    | idle => rfl
    | dispatching shifted idx current =>
        rw [show t.wheel.updaters () = _ from congrArg Updater.wheel updater] at still
        cases still
  · exact (congrArg (·.allocated) same).trans stranded.only
  · rw [show t.slots = _ from congrArg (·.slots) same]
    exact stuck
  · exact (congrFun (congrArg (·.due) same) 0).trans stranded.due
  · exact congrArg (·.ticks) same

theorem stranding_stuck (turns : Nat) :
    ∃ s, run step timerCreateTimer (stranding turns) = some s ∧ Stranded s ∧ s.ticks = turns + 1 := by
  induction turns with
  | zero =>
      have results : (run step timerCreateTimer (stranding 0)).map
          (fun s => (s.updaters (), s.allocated, s.slots (.t 0 0), s.due 0, s.ticks)) =
          some (.idle, 1, [0], 2 ^ 14, 1) := by decide
      obtain ⟨s, ran, outcome⟩ := Option.map_eq_some_iff.mp results
      simp only [Prod.mk.injEq] at outcome
      obtain ⟨idle, only, stuck, due, ticks⟩ := outcome
      exact ⟨s, ran, ⟨run_inv ran, idle, only, by simp [stuck], due⟩, ticks⟩
  | succ turns ih =>
      obtain ⟨s, ran, stranded, ticks⟩ := ih
      obtain ⟨t, stepped, later, next⟩ := stranded.update
      refine ⟨t, ?_, later, by omega⟩
      rw [stranding, List.replicate_succ', ← List.append_assoc, run_concat]
      exact ⟨s, ran, stepped⟩

theorem timeWheel_noTimerLost_stranding :
    ∃ s, run step timerCreateTimer (stranding 16383) = some s ∧ s.updaters () = .idle ∧ 0 ∈ s.slots (.t 0 0) ∧
      s.due 0 ≤ s.ticks ∧ s.dispatched = [] ∧ ¬ 0 < toSigned 32 (sub 32 (s.expire 0) s.time) := by
  obtain ⟨s, ran, stranded, ticks⟩ := stranding_stuck 16383
  have due := stranded.due
  have kept := stranded.inv.kept
  have stamped : s.expire 0 = s.due 0 % 2 ^ 32 := kept.stamped 0
  have clock : s.time = s.ticks % 2 ^ 32 := kept.clock
  refine ⟨s, ran, stranded.idle, stranded.stuck, by omega, ?_, ?_⟩
  · exact alone_empty kept stranded.only stranded.stuck .dispatched (by simp)
  · rw [stamped, clock, msec_exact (by omega) (by omega), due, ticks]
    decide

end CppInfra.Timer.TimeWheel
