import CppInfra.Shared.WheelRuns
import CppInfra.Shared.TailedLists

set_option autoImplicit false

namespace CppInfra.Wheel

open Words DisjointLists TailedLists

structure Pointers (Slot P : Type) where
  links : Links Slot Nat
  current : P → Option Nat

variable {Slot P : Type} [DecidableEq Slot]

omit [DecidableEq Slot] in
def createLinks : Pointers Slot P :=
  { links := { next := fun _ => none, tail := .head }
    current := fun _ => none }

def addTimerLinks (d : Design Slot) (s : Timer Slot P) (m : Pointers Slot P) (time : Int) : Pointers Slot P :=
  if time ≤ 0 then m
  else { m with links := linkTo m.links (d.slotOf ((time + s.time) % 2 ^ 32).toNat s.time) s.allocated }

-- The loop has as many turns as there are nodes, and one to find the end.
def remapLinks (d : Design Slot) (s : Timer Slot P) (m : Links Slot Nat) (time : Nat) (slot : Slot) :
    Option (Links Slot Nat) :=
  relink (fun x => d.slotOf (s.expire x) time) (s.allocated + 1) (TailedLists.linkClear m slot).2
    (TailedLists.linkClear m slot).1

def timerShiftLinks (d : Design Slot) (s : Timer Slot P) (m : Pointers Slot P) : Option (Pointers Slot P) :=
  match d.moved (add 32 s.time 1) with
  | none => some m
  | some slot => (remapLinks d s m.links (add 32 s.time 1) slot).map fun links => { m with links := links }

variable [DecidableEq P]

def detachLinks (m : Pointers Slot P) (p : P) (slot : Slot) : Pointers Slot P :=
  { links := (TailedLists.linkClear m.links slot).2
    current := Function.update m.current p (TailedLists.linkClear m.links slot).1 }

def executeShiftedLinks (m : Pointers Slot P) (p : P) (slot : Slot) : Pointers Slot P :=
  if m.links.next (.head slot) ≠ none then detachLinks m p slot else m

def executeFirstLinks (d : Design Slot) (s : Timer Slot P) (m : Pointers Slot P) (p : P) (slot : Slot) :
    Option (Pointers Slot P) :=
  if m.links.next (.head slot) ≠ none then some (detachLinks m p slot)
  else (timerShiftLinks d s m).map fun m => executeShiftedLinks m p (d.executed (add 32 s.time 1))

def stepLinks (d : Design Slot) (s : Timer Slot P) (m : Pointers Slot P) : Event P → Option (Pointers Slot P)
  | .addTimer time _ => some (addTimerLinks d s m time)
  | .delTimer _ => some m
  | .update p => executeFirstLinks d s m p (d.executed s.time)
  | .dispatch p =>
      (m.current p).map fun x => { m with current := Function.update m.current p (m.links.next (.node x)) }
  | .resume p =>
      match m.current p, s.updaters p with
      | none, .dispatching true slot _ => some (executeShiftedLinks m p slot)
      | none, .dispatching false slot _ => executeFirstLinks d s m p slot
      | _, _ => none

structure Follows (m : Pointers Slot P) (s : Timer Slot P) : Prop where
  lists : Represents m.links s.slots
  walks : ∀ p, Detached m.links (m.current p) (s.updaters p).current

variable {d : Design Slot} {laws : Laws d} {s t : Timer Slot P} {m : Pointers Slot P} {event : Event P}

omit [DecidableEq Slot] [DecidableEq P] in
theorem create_follows : Follows (createLinks : Pointers Slot P) create where
  lists := fun _ => ⟨rfl, rfl⟩
  walks := fun _ => rfl

omit [DecidableEq Slot] [DecidableEq P] in
theorem Follows.head_eq_none (follows : Follows m s) (slot : Slot) :
    m.links.next (.head slot) = none ↔ s.slots slot = [] := by
  have detached := Detached.of_linked (follows.lists slot).1
  cases content : s.slots slot with
  | nil =>
      rw [content] at detached
      exact iff_of_true detached rfl
  | cons x rest =>
      rw [content] at detached
      simp [detached.1]

omit [DecidableEq Slot] [DecidableEq P] in
theorem Kept.scattered_slots (kept : Kept laws s) : Scattered s.slots where
  distinct := fun slot => kept.scattered.distinct (.linked slot)
  unique := by
    intro slot other x first second
    have same := kept.scattered.unique (.linked slot) (.linked other) x first second
    cases same
    rfl

omit [DecidableEq Slot] [DecidableEq P] in
theorem Kept.walked_unlinked (kept : Kept laws s) {p : P} {x : Nat} (walked : x ∈ (s.updaters p).current)
    (slot : Slot) : x ∉ s.slots slot := by
  intro member
  have same := kept.scattered.unique (.linked slot) (.current p) x member walked
  cases same

omit [DecidableEq Slot] [DecidableEq P] in
theorem Kept.length_le (kept : Kept laws s) (slot : Slot) : (s.slots slot).length ≤ s.allocated :=
  length_le_of_below (kept.scattered.distinct (.linked slot)) fun x member => (kept.present x).mp ⟨.linked slot, member⟩

omit [DecidableEq P] in
theorem Follows.addTimer (follows : Follows m s) (kept : Kept laws s) {time : Int} (positive : 0 < time)
    (cancel : UInt8) : Follows (addTimerLinks d s m time) (added d s time cancel) := by
  have later : ¬ time ≤ 0 := by omega
  rw [addTimerLinks, if_neg later, kept.expires positive]
  constructor
  · exact follows.lists.linkTo kept.scattered_slots _ fun slot => kept.fresh (.linked slot)
  · intro p
    apply (follows.walks p).congr
    intro x walked
    exact follows.lists.linkTo_next _ (kept.old (.current p) walked) (kept.walked_unlinked walked)

omit [DecidableEq P] in
theorem Follows.remap (follows : Follows m s) (kept : Kept laws s) (time : Nat) (slot : Slot) :
    ∃ links, remapLinks d s m.links time slot = some links ∧
      Represents links (deal s.slots slot (s.slots slot) [] fun x => d.slotOf (s.expire x) time) ∧
      ∀ p, Detached links (m.current p) (s.updaters p).current := by
  obtain ⟨cleared, detached⟩ := follows.lists.linkClear slot
  have scattered := kept.scattered_slots
  have split : s.slots slot = s.slots slot ++ [] := by simp
  obtain ⟨links, ended, lists, frame⟩ := cleared.relink (s.allocated + 1) (scattered.rest split) detached
    (scattered.distinct slot)
    (fun x member other => scattered.dealt_absent split member other) (Nat.lt_succ_of_le (kept.length_le slot))
  refine ⟨links, ended, ?_, ?_⟩
  · rw [foldl_put] at lists
    exact lists
  · intro p
    apply (follows.walks p).congr
    intro x walked
    have away := kept.walked_unlinked walked
    rw [frame x (away slot) fun other member => away other (mem_update_split split member), linkClear_node]

omit [DecidableEq P] in
theorem Follows.timerShift (follows : Follows m s) (kept : Kept laws s) :
    ∃ after, timerShiftLinks d s m = some after ∧ Follows after (ticked s (shiftedSlots d s)) := by
  rw [timerShiftLinks, shiftedSlots]
  cases d.moved (add 32 s.time 1) with
  | none => exact ⟨m, rfl, follows.lists, follows.walks⟩
  | some slot =>
      obtain ⟨links, ended, lists, walks⟩ := follows.remap kept (add 32 s.time 1) slot
      exact ⟨{ m with links := links }, by simp only [ended, Option.map_some], lists, walks⟩

theorem Follows.executeShifted (follows : Follows m s) {p : P} (slot : Slot)
    (finished : (s.updaters p).current = []) : Follows (executeShiftedLinks m p slot) (executeShifted s p slot) := by
  rw [executeShiftedLinks, Wheel.executeShifted]
  by_cases empty : s.slots slot = []
  · rw [if_neg (not_not.mpr ((follows.head_eq_none slot).mpr empty)), if_neg (not_not.mpr empty)]
    refine ⟨follows.lists, ?_⟩
    intro q
    have walks := follows.walks q
    by_cases same : q = p
    · subst same
      rw [finished] at walks
      simpa [Timer.setUpdater] using walks
    · simpa [Timer.setUpdater, Function.update_of_ne same] using walks
  · rw [if_pos (mt (follows.head_eq_none slot).mp empty), if_pos empty]
    obtain ⟨cleared, detached⟩ := follows.lists.linkClear slot
    refine ⟨cleared, ?_⟩
    intro q
    by_cases same : q = p
    · subst same
      simpa [detach, detachLinks, Timer.setUpdater] using detached
    · have walks : Detached (TailedLists.linkClear m.links slot).2 (m.current q) (s.updaters q).current := by
        apply (follows.walks q).congr
        intro x _
        exact linkClear_node m.links slot x
      simpa [detach, detachLinks, linkClear, Timer.setUpdater, Function.update_of_ne same] using walks

omit [DecidableEq Slot] in
theorem Follows.dispatchNode (follows : Follows m s) {p : P} {slot : Slot} {node : Nat} {rest : List Nat}
    (walking : s.updaters p = .dispatching true slot (node :: rest)) :
    m.current p = some node ∧
      Follows { m with current := Function.update m.current p (m.links.next (.node node)) }
        (dispatchNode s p true slot node rest) := by
  have here := follows.walks p
  rw [walking, current_dispatching] at here
  obtain ⟨first, behind⟩ := here
  refine ⟨first, follows.lists, ?_⟩
  intro q
  by_cases same : q = p
  · subst same
    simpa [Wheel.dispatchNode] using behind
  · simpa [Wheel.dispatchNode, Function.update_of_ne same] using follows.walks q

theorem Follows.step (follows : Follows m s) (inv : Inv laws s) (reach : InReach laws s event)
    (stepped : step d s event = some t) : ∃ after, stepLinks d s m event = some after ∧ Follows after t := by
  cases inv.taken reach stepped with
  | atOnce time cancel late =>
      refine ⟨m, ?_, follows.lists, follows.walks⟩
      rw [stepLinks, addTimerLinks, if_pos late]
  | added time cancel positive near => exact ⟨_, rfl, follows.addTimer inv.kept positive cancel⟩
  | deleted node below waiting => exact ⟨m, rfl, follows.lists, follows.walks⟩
  | updated p idle =>
      obtain ⟨after, shifted, later⟩ := follows.timerShift inv.kept
      refine ⟨_, ?_, later.executeShifted _ (by simp [ticked, idle])⟩
      have empty := (follows.head_eq_none (d.executed s.time)).mpr inv.settled
      rw [stepLinks, executeFirstLinks, if_neg (not_not.mpr empty), shifted]
      rfl
  | dispatched p slot node rest walking =>
      obtain ⟨first, later⟩ := follows.dispatchNode walking
      exact ⟨_, by rw [stepLinks, first]; rfl, later⟩
  | resumed p slot walked =>
      have ended := follows.walks p
      rw [walked] at ended
      have none : m.current p = none := ended
      exact ⟨_, by simp only [stepLinks, none, walked], follows.executeShifted slot (by simp [walked])⟩

end CppInfra.Wheel
