import CppInfra.Shared.WheelInvariant

set_option autoImplicit false

namespace CppInfra.Wheel

open Words DisjointLists

variable {Slot P : Type} {d : Design Slot} {laws : Laws d} {s t : Timer Slot P}

def addedSlot (d : Design Slot) (s : Timer Slot P) (time : Int) : Slot :=
  d.slotOf ((s.ticks + time.toNat) % 2 ^ 32) s.time

theorem Kept.addedSlot_held (kept : Kept laws s) {time : Int} (near : laws.Near s.ticks (s.ticks + time.toNat)) :
    laws.Held s.ticks (s.ticks + time.toNat) (addedSlot d s time) := by
  rw [addedSlot, kept.clock]
  exact laws.linked (Nat.le_add_right ..) near

theorem Kept.addedSlot_later (kept : Kept laws s) {time : Int} (positive : 0 < time)
    (near : laws.Near s.ticks (s.ticks + time.toNat)) : addedSlot d s time ≠ d.executed s.time := by
  intro chosen
  have held := kept.addedSlot_held near
  rw [chosen, kept.clock] at held
  have now := (laws.live held (laws.executed _)).2.2.mp rfl
  omega

variable [DecidableEq Slot]

def added (d : Design Slot) (s : Timer Slot P) (time : Int) (cancel : UInt8) : Timer Slot P :=
  { s with
    slots := put s.slots (addedSlot d s time) s.allocated
    expire := Function.update s.expire s.allocated ((s.ticks + time.toNat) % 2 ^ 32)
    cancel := Function.update s.cancel s.allocated cancel
    due := Function.update s.due s.allocated (s.ticks + time.toNat)
    allocated := s.allocated + 1 }

omit [DecidableEq Slot] in
theorem Kept.expires (kept : Kept laws s) {time : Int} (positive : 0 < time) :
    ((time + s.time) % 2 ^ 32).toNat = (s.ticks + time.toNat) % 2 ^ 32 := by
  have clock := kept.clock
  omega

theorem Kept.addTimer_eq (kept : Kept laws s) {time : Int} (positive : 0 < time) (cancel : UInt8) :
    addTimer d s time cancel = added d s time cancel := by
  have later : ¬ time ≤ 0 := by omega
  simp only [addTimer, later, if_false, kept.expires positive, addNode, Function.update_self]
  rfl

variable [DecidableEq P]

theorem added_cells (d : Design Slot) (s : Timer Slot P) (time : Int) (cancel : UInt8) :
    (added d s time cancel).cells = put s.cells (.linked (addedSlot d s time)) s.allocated := by
  funext place
  cases place with
  | linked slot =>
      by_cases same : slot = addedSlot d s time
      · simp [Timer.cells, added, put, same]
      · have other : Place.linked slot ≠ (Place.linked (addedSlot d s time) : Place Slot P) := by simpa using same
        simp [Timer.cells, added, put, Function.update_of_ne same, Function.update_of_ne other]
  | current p => simp [Timer.cells, added, put]
  | dispatched => simp [Timer.cells, added, put]

theorem Kept.added (kept : Kept laws s) {time : Int} (near : laws.Near s.ticks (s.ticks + time.toNat))
    (cancel : UInt8) : Kept laws (added d s time cancel) where
  scattered := by
    rw [added_cells]
    exact kept.scattered.put kept.fresh
  present := by
    intro x
    rw [added_cells, exists_mem_put, kept.present, Wheel.added]
    exact Nat.lt_succ_iff_lt_or_eq.symm
  clock := kept.clock
  stamped := by
    intro x
    by_cases same : x = s.allocated
    · simp [Wheel.added, same]
    · simp only [Wheel.added, Function.update_of_ne same]
      exact kept.stamped x
  held := by
    intro slot x member
    rcases mem_put.mp member with old | ⟨rfl, rfl⟩
    · have other := kept.old (.linked slot) old
      simp only [Wheel.added, Function.update_of_ne other]
      exact kept.held slot x old
    · simp only [Wheel.added, Function.update_self]
      exact kept.addedSlot_held near
  shifted := kept.shifted
  logged := by
    simp only [Wheel.added, kept.logged]
    apply List.filter_congr
    intro x member
    have other := kept.old .dispatched member
    simp only [Function.update_of_ne other]

theorem executeShifted_eq (s : Timer Slot P) (p : P) (slot : Slot) :
    executeShifted s p slot =
      { s with
        slots := Function.update s.slots slot []
        updaters := Function.update s.updaters p
          (if s.slots slot ≠ [] then .dispatching true slot (s.slots slot) else .idle) } := by
  by_cases empty : s.slots slot = []
  · have same : Function.update s.slots slot [] = s.slots := Function.update_eq_self_iff.mpr empty.symm
    rw [executeShifted, if_neg (not_not.mpr empty), if_neg (not_not.mpr empty), same]
    rfl
  · rw [executeShifted, if_pos empty, if_pos empty]
    rfl

theorem executeShifted_cells {p : P} (slot : Slot) (finished : (s.updaters p).current = []) :
    (executeShifted s p slot).cells = deal s.cells (.linked slot) (s.slots slot) [] fun _ => .current p := by
  rw [executeShifted_eq]
  funext place
  cases place with
  | linked other =>
      by_cases same : other = slot
      · subst same
        simp [Timer.cells, deal]
      · have differ : Place.linked other ≠ (Place.linked slot : Place Slot P) := by simpa using same
        simp [Timer.cells, deal, Function.update_of_ne same, Function.update_of_ne differ]
  | current q =>
      by_cases same : q = p
      · subst same
        by_cases empty : s.slots slot = []
        · simp [Timer.cells, deal, finished, empty]
        · simp [Timer.cells, deal, finished, empty]
      · simp [Timer.cells, deal, Function.update_of_ne same, Ne.symm same]
  | dispatched => simp [Timer.cells, deal]

theorem Kept.executeShifted (kept : Kept laws s) {p : P} (slot : Slot) (finished : (s.updaters p).current = []) :
    Kept laws (executeShifted s p slot) := by
  have split : s.cells (.linked slot) = s.slots slot ++ [] := by simp [Timer.cells]
  have cells := executeShifted_cells slot finished
  have same := executeShifted_eq s p slot
  constructor
  case scattered =>
    rw [cells]
    exact kept.scattered.deal _ split
  case present =>
    intro x
    rw [cells, exists_mem_deal split, kept.present, same]
  case clock =>
    rw [same]
    exact kept.clock
  case stamped =>
    rw [same]
    exact kept.stamped
  case held =>
    intro other x member
    rw [same] at member ⊢
    by_cases emptied : other = slot
    · subst emptied
      simp at member
    · simp only [Function.update_of_ne emptied] at member
      exact kept.held other x member
  case shifted =>
    intro q again other current at_
    rw [same] at at_
    by_cases mine : q = p
    · subst mine
      simp only [Function.update_self] at at_
      split at at_
      · cases at_
        rfl
      · cases at_
    · simp only [Function.update_of_ne mine] at at_
      exact kept.shifted q again other current at_
  case logged =>
    rw [same]
    exact kept.logged

omit [DecidableEq Slot] in
theorem dispatchNode_cells [DecidableEq Slot] {p : P} {shifted : Bool} {slot : Slot} {node : Nat} {rest : List Nat} :
    (dispatchNode s p shifted slot node rest).cells = deal s.cells (.current p) [node] rest fun _ => .dispatched := by
  funext place
  cases place with
  | linked other => simp [Timer.cells, deal, dispatchNode]
  | current q =>
      by_cases same : q = p
      · subst same
        simp [Timer.cells, deal, dispatchNode]
      · have other : (Place.current q : Place Slot P) ≠ Place.current p := by simpa using same
        simp [Timer.cells, deal, dispatchNode, Function.update_of_ne same, Function.update_of_ne other]
  | dispatched => simp [Timer.cells, deal, dispatchNode]

theorem Kept.dispatchNode (kept : Kept laws s) {p : P} {shifted : Bool} {slot : Slot} {node : Nat} {rest : List Nat}
    (at_ : s.updaters p = .dispatching shifted slot (node :: rest)) :
    Kept laws (dispatchNode s p shifted slot node rest) := by
  have split : s.cells (.current p) = [node] ++ rest := by
    rw [Timer.cells, at_]
    rfl
  constructor
  case scattered =>
    rw [dispatchNode_cells]
    exact kept.scattered.deal _ split
  case present =>
    intro x
    rw [dispatchNode_cells, exists_mem_deal split, kept.present]
    rfl
  case clock => exact kept.clock
  case stamped => exact kept.stamped
  case held => exact kept.held
  case shifted =>
    intro q again other current now
    by_cases same : q = p
    · subst same
      simp only [Wheel.dispatchNode, Function.update_self, Updater.dispatching.injEq] at now
      rw [← now.1]
      exact kept.shifted q shifted slot _ at_
    · simp only [Wheel.dispatchNode, Function.update_of_ne same] at now
      exact kept.shifted q again other current now
  case logged =>
    by_cases live : s.cancel node = 0
    · simp [Wheel.dispatchNode, live, kept.logged]
    · simp [Wheel.dispatchNode, live, kept.logged]

end CppInfra.Wheel
