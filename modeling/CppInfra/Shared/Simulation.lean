import CppInfra.Shared.Transition

set_option autoImplicit false

-- A component whose steps carry a label, and a specification that says which moves each label allows.
namespace CppInfra.Simulation

open Transition

variable {S E L A : Type*}

def trace (step : S → E → Option (S × L)) : S → List E → Option (S × List L)
  | state, [] => some (state, [])
  | state, event :: rest =>
      (step state event).bind fun next => (trace step next.1 rest).map fun final => (final.1, next.2 :: final.2)

def Moves (move : A → L → A → Prop) : A → List L → A → Prop
  | first, [], last => first = last
  | first, label :: rest, last => ∃ next, move first label next ∧ Moves move next rest last

variable {step : S → E → Option (S × L)} {move : A → L → A → Prop}

theorem trace_cons {state final : S} {event : E} {rest : List E} {labels : List L} :
    trace step state (event :: rest) = some (final, labels) ↔
      ∃ next label later, step state event = some (next, label) ∧ trace step next rest = some (final, later) ∧
        labels = label :: later := by
  constructor
  · intro ran
    obtain ⟨⟨next, label⟩, taken, after⟩ := Option.bind_eq_some_iff.mp ran
    obtain ⟨⟨last, later⟩, rest, same⟩ := Option.map_eq_some_iff.mp after
    cases same
    exact ⟨next, label, later, taken, rest, rfl⟩
  · rintro ⟨next, label, later, taken, rest, rfl⟩
    simp [trace, taken, rest]

theorem trace_append {state middle : S} {early late : List E} {labels : List L}
    (first : trace step state early = some (middle, labels)) :
    trace step state (early ++ late) = (trace step middle late).map fun final => (final.1, labels ++ final.2) := by
  induction early generalizing state labels with
  | nil =>
      obtain ⟨rfl, rfl⟩ := Prod.mk.inj (Option.some.inj first)
      simp
  | cons event rest ih =>
      obtain ⟨next, label, later, taken, after, rfl⟩ := trace_cons.mp first
      simp only [List.cons_append, trace, taken, Option.bind_some, ih after, Option.map_map]
      rfl

def unlabelled (step : S → E → Option (S × L)) (state : S) (event : E) : Option S := (step state event).map Prod.fst

-- Each step that meets the condition is the only move with its label, and the others are none. So a run is one of the
-- specification exactly when all its steps meet the condition.
theorem trace_moves_iff (invariant : S → Prop) (meets : S → E → Prop) (view : S → A)
    (kept : ∀ state event after label, invariant state → step state event = some (after, label) →
      invariant after ∧ ∀ a, move (view state) label a ↔ meets state event ∧ a = view after)
    {state final : S} {events : List E} {labels : List L} (initial : invariant state)
    (ran : trace step state events = some (final, labels)) :
    invariant final ∧
      (Moves move (view state) labels (view final) ↔ Along (unlabelled step) meets state events) := by
  induction events generalizing state labels with
  | nil =>
      obtain ⟨rfl, rfl⟩ := Prod.mk.inj (Option.some.inj ran)
      exact ⟨initial, iff_of_true rfl trivial⟩
  | cons event rest ih =>
      obtain ⟨after, label, later, taken, rested, rfl⟩ := trace_cons.mp ran
      obtain ⟨held, only⟩ := kept state event after label initial taken
      obtain ⟨last, iff⟩ := ih held rested
      have stepped : unlabelled step state event = some after := by rw [unlabelled, taken, Option.map_some]
      refine ⟨last, ?_⟩
      constructor
      · rintro ⟨a, moved, moves⟩
        obtain ⟨met, rfl⟩ := (only a).mp moved
        refine ⟨met, fun other again => ?_⟩
        obtain rfl := Option.some.inj (stepped.symm.trans again)
        exact iff.mp moves
      · rintro ⟨met, along⟩
        exact ⟨view after, (only _).mpr ⟨met, rfl⟩, iff.mpr (along after stepped)⟩

theorem moves_append {first last : A} {early late : List L} :
    Moves move first (early ++ late) last ↔ ∃ middle, Moves move first early middle ∧ Moves move middle late last := by
  induction early generalizing first with
  | nil => simp [Moves]
  | cons label rest ih =>
      constructor
      · rintro ⟨next, moved, after⟩
        obtain ⟨middle, start, stop⟩ := ih.mp after
        exact ⟨middle, ⟨next, moved, start⟩, stop⟩
      · rintro ⟨middle, ⟨next, moved, start⟩, stop⟩
        exact ⟨next, moved, ih.mpr ⟨middle, start, stop⟩⟩

end CppInfra.Simulation
