import CppInfra.Timer.TimeWheelSlots
import CppInfra.Shared.WheelRuns

set_option autoImplicit false

namespace CppInfra.Timer.TimeWheel

open Words Transition

variable {P : Type}

-- The lists of `timewheel.c` as those of a wheel. `timer_execute` looks at `near[T->time % TIME_NEAR]`.
def design : Wheel.Design Slot :=
  { slotOf := slotOf
    executed := fun time => .near (time % 2 ^ 8)
    moved := fun ct => (movedSlot ct).join.map fun list => .t list.1 list.2 }

def Updater.wheel : Updater → Wheel.Updater Slot
  | .idle => .idle
  | .dispatching shifted idx current => .dispatching shifted (.near idx) current

def Updater.current : Updater → List Nat
  | .idle => []
  | .dispatching _ _ current => current

def STimer.wheel (s : STimer P) : Wheel.Timer Slot P :=
  { slots := s.slots
    time := s.time
    expire := s.expire
    cancel := s.cancel
    allocated := s.allocated
    updaters := fun p => (s.updaters p).wheel
    ticks := s.ticks
    due := s.due
    dispatched := s.dispatched
    ran := s.ran
    ranAtOnce := s.ranAtOnce }

theorem updaters_current (s : STimer P) (p : P) : (s.wheel.updaters p).current = (s.updaters p).current := by
  change (s.updaters p).wheel.current = (s.updaters p).current
  cases s.updaters p <;> rfl

def Event.wheel : Event P → Wheel.Event P
  | .addTimer time stale => .addTimer time stale
  | .delTimer node => .delTimer node
  | .update p => .update p
  | .dispatch p => .dispatch p
  | .resume p => .resume p

theorem foldl_addNode (s : STimer P) (nodes : List Nat) :
    (nodes.foldl addNode s).wheel = nodes.foldl (Wheel.addNode design) s.wheel := by
  induction nodes generalizing s with
  | nil => rfl
  | cons node rest ih => exact ih (addNode s node)

theorem moveList_wheel (s : STimer P) (level idx : Nat) :
    (moveList s level idx).wheel = Wheel.remap design s.wheel (.t level idx) :=
  foldl_addNode (linkClear s (.t level idx)) (s.slots (.t level idx))

theorem timerShift_eq (s : STimer P) :
    timerShift s =
      let ticked := { s with time := add 32 s.time 1, ticks := s.ticks + 1 }
      (movedSlot (add 32 s.time 1)).bind fun
        | none => some ticked
        | some (level, idx) => some (moveList ticked level idx) := by
  rw [timerShift, movedSlot]
  split_ifs
  · rfl
  · rfl

theorem timerShift_wheel (s : STimer P) : (timerShift s).map STimer.wheel = some (Wheel.timerShift design s.wheel) := by
  rw [timerShift_eq, Wheel.timerShift]
  have moved : design.moved (add 32 s.wheel.time 1) =
      (movedSlot (add 32 s.time 1)).join.map fun list => .t list.1 list.2 := rfl
  simp only [moved]
  rcases movedSlot_spec (add_lt 32 s.time 1) with ⟨level, j, found, -⟩ | ⟨found, -⟩
  · rw [found]
    exact congrArg some (moveList_wheel _ level j)
  · rw [found]
    rfl

variable [DecidableEq P]

theorem setUpdater_wheel (s : STimer P) (p : P) (updater : Updater) :
    (s.setUpdater p updater).wheel = s.wheel.setUpdater p updater.wheel := by
  have updaters : (fun q => (Function.update s.updaters p updater q).wheel) =
      Function.update s.wheel.updaters p updater.wheel := by
    funext q
    by_cases same : q = p
    · subst same
      simp
    · simp [STimer.wheel, same]
  rw [STimer.setUpdater, Wheel.Timer.setUpdater, ← updaters]
  rfl

theorem detach_wheel (s : STimer P) (p : P) (shifted : Bool) (idx : Nat) :
    (detach s p shifted idx).wheel = Wheel.detach s.wheel p shifted (.near idx) :=
  setUpdater_wheel (linkClear s (.near idx)) p (.dispatching shifted idx (s.slots (.near idx)))

theorem executeShifted_wheel (s : STimer P) (p : P) (idx : Nat) :
    (executeShifted s p idx).wheel = Wheel.executeShifted s.wheel p (.near idx) := by
  rw [executeShifted, Wheel.executeShifted]
  by_cases some_ : s.slots (.near idx) ≠ []
  · rw [if_pos some_, if_pos (show s.wheel.slots (.near idx) ≠ [] from some_), detach_wheel]
  · rw [if_neg some_, if_neg (show ¬ s.wheel.slots (.near idx) ≠ [] from some_), setUpdater_wheel]
    rfl

theorem executeFirst_wheel (s : STimer P) (p : P) (idx : Nat) :
    (executeFirst s p idx).map STimer.wheel = some (Wheel.executeFirst design s.wheel p (.near idx)) := by
  rw [executeFirst, Wheel.executeFirst]
  by_cases filled : s.slots (.near idx) ≠ []
  · rw [if_pos filled, if_pos (show s.wheel.slots (.near idx) ≠ [] from filled), Option.map_some, detach_wheel]
  · rw [if_neg filled, if_neg (show ¬ s.wheel.slots (.near idx) ≠ [] from filled)]
    obtain ⟨t, shifted, same⟩ := Option.map_eq_some_iff.mp (timerShift_wheel s)
    rw [shifted, ← same]
    exact congrArg some (executeShifted_wheel t p (t.time % 2 ^ 8))

theorem dispatch_wheel (s : STimer P) (p : P) (shifted : Bool) (idx node : Nat) (rest : List Nat) :
    STimer.wheel { s with
      dispatched := s.dispatched ++ [node]
      ran := if s.cancel node = 0 then s.ran ++ [(node, s.ticks, s.time)] else s.ran
      updaters := Function.update s.updaters p (.dispatching shifted idx rest) } =
      Wheel.dispatchNode s.wheel p shifted (.near idx) node rest :=
  setUpdater_wheel { s with
    dispatched := s.dispatched ++ [node]
    ran := if s.cancel node = 0 then s.ran ++ [(node, s.ticks, s.time)] else s.ran } p (.dispatching shifted idx rest)

theorem step_wheel (s : STimer P) (event : Event P) :
    (step s event).map STimer.wheel = Wheel.step design s.wheel event.wheel := by
  cases event with
  | addTimer time stale =>
      rw [step, Event.wheel, Wheel.step]
      split_ifs
      · refine congrArg some ?_
        rw [addTimer, Wheel.addTimer]
        split_ifs
        · rfl
        · rfl
      · rfl
  | delTimer node =>
      have known : (node < s.allocated ∧ node ∉ s.dispatched) ↔
          (node < s.wheel.allocated ∧ node ∉ s.wheel.dispatched) := Iff.rfl
      rw [step, Event.wheel, Wheel.step]
      simp only [known]
      split_ifs
      · rfl
      · rfl
  | update p =>
      rw [step, Event.wheel, Wheel.step]
      cases walking : s.updaters p with
      | idle =>
          have idle : s.wheel.updaters p = .idle := congrArg Updater.wheel walking
          rw [if_pos rfl, if_pos idle]
          exact executeFirst_wheel s p (s.time % 2 ^ 8)
      | dispatching shifted idx current =>
          have busy : s.wheel.updaters p = .dispatching shifted (.near idx) current := congrArg Updater.wheel walking
          simp [busy]
  | dispatch p =>
      cases walking : s.updaters p with
      | idle =>
          have idle : s.wheel.updaters p = .idle := congrArg Updater.wheel walking
          simp [step, Event.wheel, Wheel.step, walking, idle]
      | dispatching shifted idx current =>
          have busy : s.wheel.updaters p = .dispatching shifted (.near idx) current := congrArg Updater.wheel walking
          cases current with
          | nil => simp [step, Event.wheel, Wheel.step, walking, busy]
          | cons node rest =>
              simp only [step, Event.wheel, Wheel.step, walking, busy]
              exact congrArg some (dispatch_wheel s p shifted idx node rest)
  | resume p =>
      cases walking : s.updaters p with
      | idle =>
          have idle : s.wheel.updaters p = .idle := congrArg Updater.wheel walking
          simp [step, Event.wheel, Wheel.step, walking, idle]
      | dispatching shifted idx current =>
          have busy : s.wheel.updaters p = .dispatching shifted (.near idx) current := congrArg Updater.wheel walking
          cases current with
          | cons node rest => simp [step, Event.wheel, Wheel.step, walking, busy]
          | nil =>
              simp only [step, Event.wheel, Wheel.step, walking, busy]
              cases shifted with
              | true => exact congrArg some (executeShifted_wheel s p idx)
              | false => exact executeFirst_wheel s p idx

theorem moved_iff {ct : Nat} {slot : Slot} :
    design.moved (ct % 2 ^ 32) = some slot ↔ ∃ level j, slot = .t level j ∧ Moves ct level j := by
  have same : design.moved (ct % 2 ^ 32) = (movedSlot (ct % 2 ^ 32)).join.map fun list => .t list.1 list.2 := rfl
  rw [same]
  rcases movedSlot_spec (Nat.mod_lt ct (Nat.two_pow_pos 32)) with ⟨level, j, found, moves⟩ | ⟨found, none⟩
  · rw [found]
    have moves := moves_wrap.mp moves
    constructor
    · rintro ⟨⟩
      exact ⟨level, j, rfl, moves⟩
    · rintro ⟨level', j', rfl, again⟩
      obtain ⟨rfl, rfl⟩ := moves_unique moves again
      rfl
  · rw [found]
    refine iff_of_false nofun ?_
    rintro ⟨level, j, -, moves⟩
    exact none level j (moves_wrap.mpr moves)

theorem executed_wrap (ticks : Nat) : design.executed (ticks % 2 ^ 32) = .near (ticks % 2 ^ 8) := by
  have index : ticks % 2 ^ 32 % 2 ^ 8 = ticks % 2 ^ 8 := by omega
  rw [← index]
  rfl

theorem Held.lower {ticks due level j : Nat} (held : Held ticks due (.t level j)) (moves : Moves (ticks + 1) level j) :
    ¬ (slotOf (due % 2 ^ 32) ((ticks + 1) % 2 ^ 32)).Dead := by
  obtain ⟨order, inside⟩ := held.moves moves
  have lower := slotOf_lower moves.1 moves.2.2.1 order inside
  intro dead
  generalize chosen : slotOf (due % 2 ^ 32) ((ticks + 1) % 2 ^ 32) = slot at dead
  cases slot with
  | near k => exact dead
  | t i k => exact (lower i k chosen).2 dead.2

theorem Held.live {ticks due : Nat} {slot : Slot} (held : Held ticks due slot) (live : ¬ slot.Dead) :
    ticks ≤ due ∧ due < ticks + 2 ^ 31 ∧ (slot = .near (ticks % 2 ^ 8) ↔ due = ticks) := by
  cases slot with
  | near j =>
      obtain ⟨index, order, close⟩ := held
      refine ⟨order, by omega, ?_⟩
      rw [Slot.near.injEq]
      omega
  | t level j =>
      obtain ⟨ahead, -, near⟩ := held.2.2 live
      refine ⟨by omega, near, ?_⟩
      simp only [reduceCtorEq, false_iff]
      omega

def laws : Wheel.Laws design where
  Dead := Slot.Dead
  Near := fun ticks due => due < ticks + 2 ^ 31
  Held := Held
  linked := slotOf_held
  tick := by
    intro ticks due slot held later unmoved
    rw [executed_wrap] at later
    refine held.tick later ?_
    rintro level j rfl moves
    exact unmoved (moved_iff.mpr ⟨level, j, rfl, moves⟩)
  moves := by
    intro ticks due slot held moved
    obtain ⟨level, j, rfl, moves⟩ := moved_iff.mp moved
    obtain ⟨order, inside⟩ := held.moves moves
    refine ⟨order, ?_, held.lower moves⟩
    rcases level_cases moves.1 with rfl | rfl | rfl | rfl <;> omega
  live := by
    intro ticks due slot held live
    obtain ⟨order, near, now⟩ := held.live live
    rw [executed_wrap]
    exact ⟨order, near, now⟩
  executed := fun _ => id
  moved := by
    intro time slot moved dead
    obtain ⟨level, j, rfl, -, live, -, -⟩ := moved_iff.mp moved
    obtain ⟨low, zero⟩ := dead
    omega

theorem step_inReach {s t : STimer P} {event : Event P} (stepped : step s event = some t) :
    Wheel.InReach laws s.wheel event.wheel := by
  cases event with
  | addTimer time stale =>
      obtain ⟨range, -⟩ := Option.ite_none_right_eq_some.mp stepped
      intro positive
      show s.ticks + time.toNat < s.ticks + 2 ^ 31
      omega
  | delTimer node => trivial
  | update p => trivial
  | dispatch p => trivial
  | resume p => trivial

theorem run_wheel {s : STimer P} {events : List (Event P)} (ran : run step timerCreateTimer events = some s) :
    run (Wheel.step design) Wheel.create (events.map Event.wheel) = some s.wheel := by
  have mapped := run_map STimer.wheel Event.wheel step_wheel timerCreateTimer events
  rw [ran] at mapped
  exact mapped.symm

theorem run_along {s : STimer P} {events : List (Event P)} {meets : STimer P → Event P → Prop}
    {meets' : Wheel.Timer Slot P → Wheel.Event P → Prop}
    (kept : ∀ s event t, meets s event → step s event = some t → meets' s.wheel event.wheel)
    (met : Along step meets timerCreateTimer events) (ran : run step timerCreateTimer events = some s) :
    Along (Wheel.step design) meets' Wheel.create (events.map Event.wheel) :=
  along_map STimer.wheel Event.wheel step_wheel (fun _ => True)
    (fun s event t _ here stepped => ⟨trivial, kept s event t here stepped⟩) trivial met ran

theorem run_inReach {s : STimer P} {events : List (Event P)} (ran : run step timerCreateTimer events = some s) :
    Along (Wheel.step design) (Wheel.InReach laws) Wheel.create (events.map Event.wheel) :=
  run_along (fun _ _ _ _ stepped => step_inReach stepped) (along_trivial _ events) ran

theorem run_inv {s : STimer P} {events : List (Event P)} (ran : run step timerCreateTimer events = some s) :
    Wheel.Inv laws s.wheel :=
  Wheel.run_inv (run_inReach ran) (run_wheel ran)

end CppInfra.Timer.TimeWheel
