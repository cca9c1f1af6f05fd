import Mathlib.Logic.Basic

set_option autoImplicit false

-- `none` is an event that a component cannot take: it is not enabled, or the code leaves the memory it owns.
namespace CppInfra.Transition

variable {S E : Type*}

def run (step : S → E → Option S) : S → List E → Option S
  | state, [] => some state
  | state, event :: rest => (step state event).bind fun next => run step next rest

-- Every event of the list is taken in a state that meets the condition.
def Along (step : S → E → Option S) (meets : S → E → Prop) : S → List E → Prop
  | _, [] => True
  | state, event :: rest =>
      meets state event ∧ ∀ next, step state event = some next → Along step meets next rest

instance alongDecidable (step : S → E → Option S) (meets : S → E → Prop)
    [∀ state event, Decidable (meets state event)] (state : S) (events : List E) :
    Decidable (Along step meets state events) :=
  match events with
  | [] => .isTrue trivial
  | event :: rest =>
      match taken : step state event with
      | none => decidable_of_iff (meets state event) (by simp [Along, taken])
      | some next =>
          have := alongDecidable step meets next rest
          decidable_of_iff (meets state event ∧ Along step meets next rest) (by simp [Along, taken])

variable {step : S → E → Option S} {meets : S → E → Prop}

@[simp] theorem run_nil (state : S) : run step state [] = some state := rfl

theorem run_cons {state final : S} {event : E} {rest : List E} :
    run step state (event :: rest) = some final ↔
      ∃ next, step state event = some next ∧ run step next rest = some final := by
  simp [run, Option.bind_eq_some_iff]

theorem run_append (state : S) (first second : List E) :
    run step state (first ++ second) =
      (run step state first).bind fun middle => run step middle second := by
  induction first generalizing state with
  | nil => rfl
  | cons event rest ih =>
      cases taken : step state event with
      | none => simp [run, taken]
      | some next => simp [run, taken, ih]

theorem run_concat {state final : S} {events : List E} {event : E} :
    run step state (events ++ [event]) = some final ↔
      ∃ middle, run step state events = some middle ∧ step middle event = some final := by
  simp [run_append, run, Option.bind_eq_some_iff]

theorem along_append {state : S} {first second : List E} :
    Along step meets state (first ++ second) ↔
      Along step meets state first ∧
        ∀ middle, run step state first = some middle → Along step meets middle second := by
  induction first generalizing state with
  | nil => simp [Along]
  | cons event rest ih =>
      simp only [List.cons_append, Along, ih, run_cons, forall_exists_index, and_imp]
      constructor
      · intro ⟨met, later⟩
        exact ⟨⟨met, fun next taken => (later next taken).1⟩,
          fun middle next taken => (later next taken).2 middle⟩
      · intro ⟨⟨met, early⟩, later⟩
        exact ⟨met, fun next taken => ⟨early next taken, fun middle => later middle next taken⟩⟩

theorem along_trivial (state : S) (events : List E) : Along step (fun _ _ => True) state events := by
  induction events generalizing state with
  | nil => trivial
  | cons event rest ih => exact ⟨trivial, fun next _ => ih next⟩

theorem Along.and {other : S → E → Prop} {state : S} {events : List E} (first : Along step meets state events)
    (second : Along step other state events) :
    Along step (fun state event => meets state event ∧ other state event) state events := by
  induction events generalizing state with
  | nil => trivial
  | cons event rest ih => exact ⟨⟨first.1, second.1⟩, fun next taken => ih (first.2 next taken) (second.2 next taken)⟩

theorem run_invariant (invariant : S → Prop)
    (kept : ∀ state event next, invariant state → step state event = some next → invariant next)
    {state final : S} {events : List E} (initial : invariant state)
    (ran : run step state events = some final) : invariant final := by
  induction events generalizing state with
  | nil =>
      obtain rfl := Option.some.inj ran
      exact initial
  | cons event rest ih =>
      obtain ⟨next, taken, after⟩ := run_cons.mp ran
      exact ih (kept state event next initial taken) after

theorem run_invariant_along (invariant : S → Prop)
    (kept : ∀ state event next, invariant state → meets state event →
      step state event = some next → invariant next)
    {state final : S} {events : List E} (initial : invariant state)
    (met : Along step meets state events) (ran : run step state events = some final) :
    invariant final := by
  induction events generalizing state with
  | nil =>
      obtain rfl := Option.some.inj ran
      exact initial
  | cons event rest ih =>
      obtain ⟨next, taken, after⟩ := run_cons.mp ran
      exact ih (kept state event next initial met.1 taken) (met.2 next taken) after

-- A step that is always possible under the condition makes the whole run possible. The invariant also sees
-- the events taken so far, so that it can speak of what they carried.
theorem run_total (invariant : List E → S → Prop)
    (kept : ∀ past state event, invariant past state → meets state event →
      ∃ next, step state event = some next ∧ invariant (past ++ [event]) next)
    {past : List E} {state : S} {events : List E} (initial : invariant past state)
    (met : Along step meets state events) :
    ∃ final, run step state events = some final ∧ invariant (past ++ events) final := by
  induction events generalizing past state with
  | nil => exact ⟨state, rfl, by simpa using initial⟩
  | cons event rest ih =>
      obtain ⟨next, taken, correct⟩ := kept past state event initial met.1
      obtain ⟨final, ran, held⟩ := ih correct (met.2 next taken)
      exact ⟨final, run_cons.mpr ⟨next, taken, ran⟩, by simpa using held⟩

theorem run_possible (invariant : S → Prop)
    (kept : ∀ state event, invariant state → meets state event →
      ∃ next, step state event = some next ∧ invariant next)
    {state : S} {events : List E} (initial : invariant state) (met : Along step meets state events) :
    ∃ final, run step state events = some final ∧ invariant final := by
  induction events generalizing state with
  | nil => exact ⟨state, rfl, initial⟩
  | cons event rest ih =>
      obtain ⟨next, taken, correct⟩ := kept state event initial met.1
      obtain ⟨final, ran, held⟩ := ih correct (met.2 next taken)
      exact ⟨final, run_cons.mpr ⟨next, taken, ran⟩, held⟩

-- A specification of the same events: every run of it is one of the component. The relation also sees the
-- events that are still to come.
theorem run_refines {A : Type*} {spec : A → E → Option A} (related : List E → S → A → Prop)
    (kept : ∀ event rest state abstract abstract', related (event :: rest) state abstract →
      spec abstract event = some abstract' → ∃ next, step state event = some next ∧ related rest next abstract')
    {state : S} {abstract final : A} {events : List E} (initial : related events state abstract)
    (ran : run spec abstract events = some final) :
    ∃ last, run step state events = some last ∧ related [] last final := by
  induction events generalizing state abstract with
  | nil =>
      obtain rfl := Option.some.inj ran
      exact ⟨state, rfl, initial⟩
  | cons event rest ih =>
      obtain ⟨middle, taken, after⟩ := run_cons.mp ran
      obtain ⟨next, stepped, held⟩ := kept event rest state abstract middle initial taken
      obtain ⟨last, rested, reached⟩ := ih held after
      exact ⟨last, run_cons.mpr ⟨next, stepped, rested⟩, reached⟩

theorem run_map {T F : Type*} {step' : T → F → Option T} (view : S → T) (label : E → F)
    (same : ∀ state event, (step state event).map view = step' (view state) (label event)) (state : S)
    (events : List E) : (run step state events).map view = run step' (view state) (events.map label) := by
  induction events generalizing state with
  | nil => rfl
  | cons event rest ih =>
      rw [List.map_cons, run, run, ← same]
      cases step state event with
      | none => rfl
      | some next => exact ih next

theorem along_map {T F : Type*} {step' : T → F → Option T} {meets' : T → F → Prop} (view : S → T) (label : E → F)
    (same : ∀ state event, (step state event).map view = step' (view state) (label event)) (invariant : S → Prop)
    (kept : ∀ state event next, invariant state → meets state event → step state event = some next →
      invariant next ∧ meets' (view state) (label event))
    {state final : S} {events : List E} (initial : invariant state) (met : Along step meets state events)
    (ran : run step state events = some final) : Along step' meets' (view state) (events.map label) := by
  induction events generalizing state with
  | nil => trivial
  | cons event rest ih =>
      obtain ⟨next, taken, after⟩ := run_cons.mp ran
      obtain ⟨held, meets⟩ := kept state event next initial met.1 taken
      refine ⟨meets, fun other taken' => ?_⟩
      rw [← same, taken, Option.map_some] at taken'
      obtain rfl := Option.some.inj taken'
      exact ih held (met.2 next taken) after

end CppInfra.Transition
