import CppInfra.Shared.Wheel

set_option autoImplicit false

namespace CppInfra.Wheel

open Words DisjointLists

-- What makes a design work. `Held ticks due slot` says that a node due at `due` may stand in `slot` after
-- `ticks` ticks, and `Near ticks due` that it may be asked for. A wheel may have lists that it never looks at
-- again: they are dead, and nothing is moved there.
structure Laws {Slot : Type} (d : Design Slot) where
  Dead : Slot → Prop
  Near : Nat → Nat → Prop
  Held : Nat → Nat → Slot → Prop
  linked : ∀ {ticks due}, ticks ≤ due → Near ticks due → Held ticks due (d.slotOf (due % 2 ^ 32) (ticks % 2 ^ 32))
  tick : ∀ {ticks due slot}, Held ticks due slot → slot ≠ d.executed (ticks % 2 ^ 32) →
    d.moved ((ticks + 1) % 2 ^ 32) ≠ some slot → Held (ticks + 1) due slot
  moves : ∀ {ticks due slot}, Held ticks due slot → d.moved ((ticks + 1) % 2 ^ 32) = some slot →
    ticks + 1 ≤ due ∧ Near (ticks + 1) due ∧ ¬ Dead (d.slotOf (due % 2 ^ 32) ((ticks + 1) % 2 ^ 32))
  live : ∀ {ticks due slot}, Held ticks due slot → ¬ Dead slot →
    ticks ≤ due ∧ Near ticks due ∧ (slot = d.executed (ticks % 2 ^ 32) ↔ due = ticks)
  executed : ∀ time, ¬ Dead (d.executed time)
  moved : ∀ {time slot}, d.moved (time % 2 ^ 32) = some slot → ¬ Dead slot

inductive Place (Slot P : Type) where
  | linked (slot : Slot)
  | current (p : P)
  | dispatched
  deriving DecidableEq

variable {Slot P : Type}

def Updater.current : Updater Slot → List Nat
  | .idle => []
  | .dispatching _ _ current => current

@[simp] theorem current_idle : (Updater.idle : Updater Slot).current = [] := rfl

@[simp] theorem current_dispatching (shifted : Bool) (slot : Slot) (current : List Nat) :
    (Updater.dispatching shifted slot current).current = current := rfl

def Timer.cells (s : Timer Slot P) : Place Slot P → List Nat
  | .linked slot => s.slots slot
  | .current p => (s.updaters p).current
  | .dispatched => s.dispatched

variable {d : Design Slot}

structure Kept (laws : Laws d) (s : Timer Slot P) : Prop where
  scattered : Scattered s.cells
  present : ∀ x, (∃ place, x ∈ s.cells place) ↔ x < s.allocated
  clock : s.time = s.ticks % 2 ^ 32
  stamped : ∀ x, s.expire x = s.due x % 2 ^ 32
  held : ∀ slot x, x ∈ s.slots slot → laws.Held s.ticks (s.due x) slot
  shifted : ∀ p shifted slot current, s.updaters p = .dispatching shifted slot current → shifted = true
  logged : s.ran.map Prod.fst = s.dispatched.filter fun x => s.cancel x = 0

def Settled (d : Design Slot) (s : Timer Slot P) : Prop := s.slots (d.executed s.time) = []

structure Inv (laws : Laws d) (s : Timer Slot P) : Prop where
  kept : Kept laws s
  settled : Settled d s

variable {laws : Laws d} {s : Timer Slot P}

theorem create_inv : Inv laws (create : Timer Slot P) := by
  have empty : (create : Timer Slot P).cells = fun _ => [] := by
    funext place
    cases place <;> rfl
  refine ⟨⟨?_, ?_, rfl, fun _ => rfl, ?_, ?_, rfl⟩, rfl⟩
  · rw [empty]
    exact Scattered.empty
  · intro x
    rw [empty]
    simp [create]
  · simp [create]
  · simp [create]

theorem Kept.ran_iff (kept : Kept laws s) {x : Nat} :
    (∃ n time, (x, n, time) ∈ s.ran) ↔ x ∈ s.dispatched ∧ s.cancel x = 0 := by
  have member : x ∈ s.ran.map Prod.fst ↔ x ∈ s.dispatched ∧ s.cancel x = 0 := by simp [kept.logged]
  rw [← member, List.mem_map]
  constructor
  · rintro ⟨n, time, logged⟩
    exact ⟨_, logged, rfl⟩
  · rintro ⟨⟨y, n, time⟩, logged, rfl⟩
    exact ⟨n, time, logged⟩

theorem Kept.fresh (kept : Kept laws s) (place : Place Slot P) : s.allocated ∉ s.cells place := by
  intro member
  have below := (kept.present s.allocated).mp ⟨place, member⟩
  omega

theorem Kept.old (kept : Kept laws s) (place : Place Slot P) {x : Nat} (member : x ∈ s.cells place) :
    x ≠ s.allocated := by
  rintro rfl
  exact kept.fresh place member

theorem Kept.delTimer (kept : Kept laws s) {node : Nat} (waiting : node ∉ s.dispatched) :
    Kept laws { s with cancel := Function.update s.cancel node 1 } := by
  refine { kept with logged := ?_ }
  rw [kept.logged]
  apply List.filter_congr
  intro x member
  have other : x ≠ node := by
    rintro rfl
    exact waiting member
  simp only [Function.update_of_ne other]

theorem Kept.ticked_clock (kept : Kept laws s) : add 32 s.time 1 = (s.ticks + 1) % 2 ^ 32 := by
  have clock := kept.clock
  rw [add]
  omega

theorem Inv.tick (inv : Inv laws s) {slot : Slot} {x : Nat} (member : x ∈ s.slots slot)
    (unmoved : d.moved (add 32 s.time 1) ≠ some slot) : laws.Held (s.ticks + 1) (s.due x) slot := by
  apply laws.tick (inv.kept.held slot x member)
  · rintro rfl
    have empty : s.slots (d.executed s.time) = [] := inv.settled
    rw [← inv.kept.clock, empty] at member
    cases member
  · rw [← inv.kept.ticked_clock]
    exact unmoved

theorem Kept.moves (kept : Kept laws s) {slot : Slot} {x : Nat} (member : x ∈ s.slots slot)
    (moved : d.moved (add 32 s.time 1) = some slot) :
    laws.Held (s.ticks + 1) (s.due x) (d.slotOf (s.expire x) (add 32 s.time 1)) ∧
      ¬ laws.Dead (d.slotOf (s.expire x) (add 32 s.time 1)) := by
  rw [kept.ticked_clock] at moved
  obtain ⟨order, near, alive⟩ := laws.moves (kept.held slot x member) moved
  rw [kept.stamped, kept.ticked_clock]
  exact ⟨laws.linked order near, alive⟩

variable [DecidableEq Slot]

theorem foldl_addNode (d : Design Slot) (s : Timer Slot P) (nodes : List Nat) :
    nodes.foldl (addNode d) s =
      { s with slots := nodes.foldl (fun slots x => put slots (d.slotOf (s.expire x) s.time) x) s.slots } := by
  induction nodes generalizing s with
  | nil => rfl
  | cons node rest ih => exact ih (addNode d s node)

theorem remap_eq (d : Design Slot) (s : Timer Slot P) (slot : Slot) :
    remap d s slot =
      { s with slots := deal s.slots slot (s.slots slot) [] fun x => d.slotOf (s.expire x) s.time } := by
  rw [remap, foldl_addNode, foldl_put]
  rfl

def ticked (s : Timer Slot P) (slots : Slot → List Nat) : Timer Slot P :=
  { s with slots := slots, time := add 32 s.time 1, ticks := s.ticks + 1 }

def shiftedSlots (d : Design Slot) (s : Timer Slot P) : Slot → List Nat :=
  match d.moved (add 32 s.time 1) with
  | none => s.slots
  | some slot => deal s.slots slot (s.slots slot) [] fun x => d.slotOf (s.expire x) (add 32 s.time 1)

theorem timerShift_eq (d : Design Slot) (s : Timer Slot P) : timerShift d s = ticked s (shiftedSlots d s) := by
  rw [timerShift, shiftedSlots]
  cases d.moved (add 32 s.time 1) with
  | none => rfl
  | some slot => exact remap_eq d _ slot

theorem cells_deal [DecidableEq P] (s : Timer Slot P) (slot : Slot) (moved rest : List Nat) (target : Nat → Slot)
    (time ticks : Nat) :
    Timer.cells { s with slots := deal s.slots slot moved rest target, time := time, ticks := ticks } =
      deal s.cells (.linked slot) moved rest fun x => .linked (target x) := by
  funext place
  cases place with
  | linked other =>
      by_cases same : other = slot
      · subst same
        simp [Timer.cells, deal]
      · have differ : Place.linked other ≠ (Place.linked slot : Place Slot P) := by simpa using same
        simp [Timer.cells, deal, Function.update_of_ne same, Function.update_of_ne differ]
  | current p => simp [Timer.cells, deal]
  | dispatched => simp [Timer.cells, deal]

theorem Inv.shifted_cells [DecidableEq P] (inv : Inv laws s) :
    Scattered (ticked s (shiftedSlots d s)).cells ∧
      ∀ x, (∃ place, x ∈ (ticked s (shiftedSlots d s)).cells place) ↔ x < s.allocated := by
  rw [shiftedSlots]
  cases d.moved (add 32 s.time 1) with
  | none =>
      have same : (ticked s s.slots).cells = s.cells := by
        funext place
        cases place <;> rfl
      simp only [same]
      exact ⟨inv.kept.scattered, inv.kept.present⟩
  | some slot =>
      have split : s.cells (.linked slot) = s.slots slot ++ [] := by simp [Timer.cells]
      rw [ticked, cells_deal]
      refine ⟨inv.kept.scattered.deal _ split, ?_⟩
      intro x
      rw [exists_mem_deal split]
      exact inv.kept.present x

theorem Inv.shifted_held (inv : Inv laws s) {slot : Slot} {x : Nat} (member : x ∈ shiftedSlots d s slot) :
    laws.Held (s.ticks + 1) (s.due x) slot := by
  rw [shiftedSlots] at member
  cases moved : d.moved (add 32 s.time 1) with
  | none =>
      rw [moved] at member
      exact inv.tick member (by simp [moved])
  | some other =>
      rw [moved] at member
      rcases mem_deal.mp member with old | ⟨moving, rfl⟩
      · by_cases same : slot = other
        · subst same
          rw [Function.update_self] at old
          cases old
        · rw [Function.update_of_ne same] at old
          exact inv.tick old (by simpa [moved] using Ne.symm same)
      · exact (inv.kept.moves moving moved).1

theorem Inv.timerShift [DecidableEq P] (inv : Inv laws s) : Kept laws (ticked s (shiftedSlots d s)) :=
  { inv.kept with
    scattered := inv.shifted_cells.1
    present := inv.shifted_cells.2
    clock := inv.kept.ticked_clock
    held := fun _ _ member => inv.shifted_held member }

theorem Kept.shifted_dead (kept : Kept laws s) {slot : Slot} (dead : laws.Dead slot) :
    shiftedSlots d s slot = s.slots slot := by
  rw [shiftedSlots]
  cases moved : d.moved (add 32 s.time 1) with
  | none => rfl
  | some other =>
      have differ : slot ≠ other := by
        rintro rfl
        exact laws.moved moved dead
      simp only [deal, Function.update_of_ne differ]
      rw [List.filter_eq_nil_iff.mpr, List.append_nil]
      intro x member chosen
      apply (kept.moves member moved).2
      rw [of_decide_eq_true chosen]
      exact dead

end CppInfra.Wheel
