import CppInfra.Shared.WheelSteps
import CppInfra.Shared.Transition
import Mathlib.Data.List.Induction

set_option autoImplicit false

namespace CppInfra.Wheel

open Words DisjointLists Transition

variable {Slot P : Type} {d : Design Slot} {laws : Laws d} {s t : Timer Slot P} {event : Event P}

def InReach (laws : Laws d) (s : Timer Slot P) : Event P → Prop
  | .addTimer time _ => 0 < time → laws.Near s.ticks (s.ticks + time.toNat)
  | _ => True

def StaysAlive (laws : Laws d) (s : Timer Slot P) : Event P → Prop
  | .addTimer time _ => 0 < time → ¬ laws.Dead (addedSlot d s time)
  | _ => True

def Alone (s : Timer Slot P) : Event P → Prop
  | .update _ => ∀ q, s.updaters q = .idle
  | _ => True

variable [DecidableEq Slot] [DecidableEq P]

-- What each event does in a state that meets the invariant. The update never finds a node before the shift.
inductive Taken (laws : Laws d) (s : Timer Slot P) : Event P → Timer Slot P → Prop where
  | atOnce (time : Int) (cancel : UInt8) (late : time ≤ 0) :
      Taken laws s (.addTimer time cancel) { s with ranAtOnce := s.ranAtOnce ++ [s.ticks] }
  | added (time : Int) (cancel : UInt8) (positive : 0 < time)
      (near : laws.Near s.ticks (s.ticks + time.toNat)) :
      Taken laws s (.addTimer time cancel) (added d s time cancel)
  | deleted (node : Nat) (below : node < s.allocated) (waiting : node ∉ s.dispatched) :
      Taken laws s (.delTimer node) { s with cancel := Function.update s.cancel node 1 }
  | updated (p : P) (idle : s.updaters p = .idle) :
      Taken laws s (.update p)
        (executeShifted (ticked s (shiftedSlots d s)) p (d.executed (add 32 s.time 1)))
  | dispatched (p : P) (slot : Slot) (node : Nat) (rest : List Nat)
      (walking : s.updaters p = .dispatching true slot (node :: rest)) :
      Taken laws s (.dispatch p) (dispatchNode s p true slot node rest)
  | resumed (p : P) (slot : Slot) (walked : s.updaters p = .dispatching true slot []) :
      Taken laws s (.resume p) (executeShifted s p slot)

theorem Inv.executeFirst (inv : Inv laws s) (p : P) :
    executeFirst d s p (d.executed s.time) =
      executeShifted (ticked s (shiftedSlots d s)) p (d.executed (add 32 s.time 1)) := by
  have empty : s.slots (d.executed s.time) = [] := inv.settled
  rw [Wheel.executeFirst, if_neg (not_not.mpr empty), timerShift_eq]
  rfl

theorem Inv.taken (inv : Inv laws s) (reach : InReach laws s event) (stepped : step d s event = some t) :
    Taken laws s event t := by
  cases event with
  | addTimer time cancel =>
      rw [step] at stepped
      split at stepped
      · obtain rfl := Option.some.inj stepped
        by_cases positive : 0 < time
        · rw [inv.kept.addTimer_eq positive]
          exact .added time cancel positive (reach positive)
        · have late : time ≤ 0 := by omega
          rw [addTimer, if_pos late]
          exact .atOnce time cancel late
      · cases stepped
  | delTimer node =>
      rw [step] at stepped
      split at stepped
      · rename_i allowed
        obtain rfl := Option.some.inj stepped
        exact .deleted node allowed.1 allowed.2
      · cases stepped
  | update p =>
      rw [step] at stepped
      split at stepped
      · rename_i idle
        obtain rfl := Option.some.inj stepped
        rw [inv.executeFirst]
        exact .updated p idle
      · cases stepped
  | dispatch p =>
      cases walking : s.updaters p with
      | idle => simp [step, walking] at stepped
      | dispatching shifted slot current =>
          obtain rfl := inv.kept.shifted p shifted slot current walking
          cases current with
          | nil => simp [step, walking] at stepped
          | cons node rest =>
              simp only [step, walking] at stepped
              obtain rfl := Option.some.inj stepped
              exact .dispatched p slot node rest walking
  | resume p =>
      cases walking : s.updaters p with
      | idle => simp [step, walking] at stepped
      | dispatching shifted slot current =>
          obtain rfl := inv.kept.shifted p shifted slot current walking
          cases current with
          | nil =>
              simp only [step, walking] at stepped
              obtain rfl := Option.some.inj stepped
              exact .resumed p slot walking
          | cons node rest => simp [step, walking] at stepped

theorem Inv.step (inv : Inv laws s) (reach : InReach laws s event) (stepped : step d s event = some t) :
    Inv laws t := by
  have settled := inv.settled
  rw [Settled] at settled
  cases inv.taken reach stepped with
  | atOnce time cancel late => exact ⟨{ inv.kept with }, inv.settled⟩
  | added time cancel positive near =>
      refine ⟨inv.kept.added near cancel, ?_⟩
      exact (put_of_ne (inv.kept.addedSlot_later positive near)).trans settled
  | deleted node below waiting => exact ⟨inv.kept.delTimer waiting, inv.settled⟩
  | updated p idle =>
      refine ⟨inv.timerShift.executeShifted _ (by simp [ticked, idle]), ?_⟩
      rw [executeShifted_eq]
      exact Function.update_self ..
  | dispatched p slot node rest walking => exact ⟨inv.kept.dispatchNode walking, inv.settled⟩
  | resumed p slot walked =>
      refine ⟨inv.kept.executeShifted slot (by simp [walked]), ?_⟩
      rw [executeShifted_eq]
      by_cases same : d.executed s.time = slot
      · simp only [Settled, same, Function.update_self]
      · simp only [Settled, Function.update_of_ne same]
        exact settled

def Alive (laws : Laws d) (s : Timer Slot P) : Prop := ∀ slot, laws.Dead slot → s.slots slot = []

theorem executeShifted_dead (s : Timer Slot P) (p : P) (time : Nat) {slot : Slot} (dead : laws.Dead slot) :
    (executeShifted s p (d.executed time)).slots slot = s.slots slot := by
  rw [executeShifted_eq]
  apply Function.update_of_ne
  rintro rfl
  exact laws.executed time dead

theorem Alive.step (alive : Alive laws s) (inv : Inv laws s) (reach : InReach laws s event)
    (safe : StaysAlive laws s event) (stepped : step d s event = some t) : Alive laws t := by
  intro slot dead
  cases inv.taken reach stepped with
  | atOnce time cancel late => exact alive slot dead
  | added time cancel positive near =>
      have other : addedSlot d s time ≠ slot := by
        rintro rfl
        exact safe positive dead
      exact (put_of_ne other).trans (alive slot dead)
  | deleted node below waiting => exact alive slot dead
  | updated p idle =>
      rw [executeShifted_dead _ p _ dead]
      exact (inv.kept.shifted_dead dead).trans (alive slot dead)
  | dispatched p slot node rest walking => exact alive _ dead
  | resumed p other walked =>
      rw [executeShifted_eq]
      by_cases same : slot = other
      · subst same
        exact Function.update_self ..
      · simp only [Function.update_of_ne same]
        exact alive slot dead

omit [DecidableEq Slot] [DecidableEq P] in
theorem Inv.future (inv : Inv laws s) (alive : Alive laws s) {slot : Slot} {x : Nat} (member : x ∈ s.slots slot) :
    s.ticks < s.due x ∧ laws.Near s.ticks (s.due x) := by
  have live : ¬ laws.Dead slot := by
    intro dead
    rw [alive slot dead] at member
    cases member
  obtain ⟨order, near, now⟩ := laws.live (inv.kept.held slot x member) live
  refine ⟨?_, near⟩
  have other : s.due x ≠ s.ticks := by
    intro due
    have empty : s.slots (d.executed s.time) = [] := inv.settled
    rw [now.mpr due, ← inv.kept.clock, empty] at member
    cases member
  omega

omit [DecidableEq Slot] [DecidableEq P] in
theorem Inv.due_left (inv : Inv laws s) (alive : Alive laws s) {x : Nat} (below : x < s.allocated)
    (due : s.due x ≤ s.ticks) : x ∈ s.dispatched ∨ ∃ p, x ∈ (s.updaters p).current := by
  obtain ⟨place, member⟩ := (inv.kept.present x).mpr below
  cases place with
  | linked slot =>
      have ahead := (inv.future alive member).1
      omega
  | current p => exact .inr ⟨p, member⟩
  | dispatched => exact .inl member

structure Punctual (d : Design Slot) (s : Timer Slot P) : Prop where
  alone : ∀ p q, s.updaters p ≠ .idle → s.updaters q ≠ .idle → p = q
  now : ∀ p shifted slot current, s.updaters p = .dispatching shifted slot current →
    slot = d.executed s.time ∧ ∀ x ∈ current, s.due x = s.ticks
  log : ∀ x n time, (x, n, time) ∈ s.ran → n = s.due x ∧ time = s.expire x

omit [DecidableEq Slot] [DecidableEq P] in
theorem create_punctual : Punctual d (create : Timer Slot P) where
  alone := fun _ _ busy => absurd rfl busy
  now := by simp [create]
  log := by simp [create]

omit [DecidableEq Slot] [DecidableEq P] in
theorem Kept.executed_due (kept : Kept laws s) {x : Nat} (member : x ∈ s.slots (d.executed s.time)) :
    s.due x = s.ticks := by
  have held := kept.held _ x member
  rw [kept.clock] at held
  exact (laws.live held (laws.executed _)).2.2.mp rfl

theorem Punctual.executeShifted (punctual : Punctual d s) (kept : Kept laws s) (p : P)
    (others : ∀ q, q ≠ p → s.updaters q = .idle) : Punctual d (executeShifted s p (d.executed s.time)) := by
  rw [executeShifted_eq]
  refine ⟨?_, ?_, punctual.log⟩
  · have only : ∀ q, Function.update s.updaters p (if s.slots (d.executed s.time) ≠ [] then
        .dispatching true (d.executed s.time) (s.slots (d.executed s.time)) else .idle) q ≠ .idle → q = p := by
      intro q busy
      by_contra other
      rw [Function.update_of_ne other] at busy
      exact busy (others q other)
    intro q r busyQ busyR
    rw [only q busyQ, only r busyR]
  · intro q shifted slot current at_
    by_cases same : q = p
    · subst same
      simp only [Function.update_self] at at_
      split at at_
      · cases at_
        exact ⟨rfl, fun x member => kept.executed_due member⟩
      · cases at_
    · simp only [Function.update_of_ne same, others q same] at at_
      cases at_

omit [DecidableEq Slot] in
theorem Punctual.dispatchNode (punctual : Punctual d s) (kept : Kept laws s) {p : P} {slot : Slot} {node : Nat}
    {rest : List Nat} (walking : s.updaters p = .dispatching true slot (node :: rest)) :
    Punctual d (dispatchNode s p true slot node rest) where
  alone := by
    have busy : ∀ q, (Wheel.dispatchNode s p true slot node rest).updaters q ≠ .idle → s.updaters q ≠ .idle := by
      intro q busy
      by_cases same : q = p
      · subst same
        simp [walking]
      · simpa [Wheel.dispatchNode, Function.update_of_ne same] using busy
    intro q r busyQ busyR
    exact punctual.alone q r (busy q busyQ) (busy r busyR)
  now := by
    intro q shifted other current at_
    by_cases same : q = p
    · subst same
      simp only [Wheel.dispatchNode, Function.update_self, Updater.dispatching.injEq] at at_
      obtain ⟨_, rfl, rfl⟩ := at_
      obtain ⟨index, due⟩ := punctual.now q true slot _ walking
      exact ⟨index, fun x member => due x (List.mem_cons_of_mem node member)⟩
    · simp only [Wheel.dispatchNode, Function.update_of_ne same] at at_
      exact punctual.now q shifted other current at_
  log := by
    intro x n now member
    have before := punctual.log x n now
    obtain ⟨_, due⟩ := punctual.now p true slot _ walking
    have dueNow := due node (List.mem_cons_self ..)
    have expireNow : s.time = s.expire node := by rw [kept.clock, kept.stamped, dueNow]
    simp only [Wheel.dispatchNode] at member ⊢
    split at member
    · rcases List.mem_append.mp member with old | new
      · exact before old
      · obtain ⟨rfl, rfl, rfl⟩ : x = node ∧ n = s.ticks ∧ now = s.time := by simpa using new
        exact ⟨dueNow.symm, expireNow⟩
    · exact before member

omit [DecidableEq P] in
theorem Punctual.added (punctual : Punctual d s) (kept : Kept laws s) (time : Int) (cancel : UInt8) :
    Punctual d (added d s time cancel) := by
  refine ⟨punctual.alone, ?_, ?_⟩
  · intro p shifted slot current at_
    obtain ⟨index, due⟩ := punctual.now p shifted slot current at_
    refine ⟨index, ?_⟩
    intro x member
    have waiting : x ∈ s.cells (.current p) := by
      rw [Timer.cells, show s.updaters p = _ from at_]
      exact member
    simp only [Wheel.added, Function.update_of_ne (kept.old _ waiting)]
    exact due x member
  · intro x n now member
    have dispatched := (kept.ran_iff.mp ⟨n, now, member⟩).1
    have other := kept.old .dispatched dispatched
    simp only [Wheel.added, Function.update_of_ne other]
    exact punctual.log x n now member

theorem Punctual.step (punctual : Punctual d s) (inv : Inv laws s) (reach : InReach laws s event)
    (alone : Alone s event) (stepped : step d s event = some t) : Punctual d t := by
  cases inv.taken reach stepped with
  | atOnce time cancel late => exact ⟨punctual.alone, punctual.now, punctual.log⟩
  | added time cancel positive near => exact punctual.added inv.kept time cancel
  | deleted node below waiting => exact ⟨punctual.alone, punctual.now, punctual.log⟩
  | updated p idle =>
      have none : ∀ q, (ticked s (shiftedSlots d s)).updaters q = .idle := alone
      have still : Punctual d (ticked s (shiftedSlots d s)) := by
        refine ⟨fun q r busy => absurd (none q) busy, ?_, punctual.log⟩
        intro q shifted slot current at_
        rw [none q] at at_
        cases at_
      exact still.executeShifted inv.timerShift p fun q _ => none q
  | dispatched p slot node rest walking => exact punctual.dispatchNode inv.kept walking
  | resumed p slot walked =>
      obtain ⟨rfl, -⟩ := punctual.now p true slot [] walked
      apply punctual.executeShifted inv.kept p
      intro q other
      by_contra busy
      exact other (punctual.alone q p busy (by simp [walked]))

theorem Taken.stays (taken : Taken laws s event t) {x : Nat} (below : x < s.allocated) :
    x < t.allocated ∧ t.due x = s.due x ∧ (s.cancel x ≠ 0 → t.cancel x ≠ 0) := by
  cases taken with
  | atOnce time cancel late => exact ⟨below, rfl, id⟩
  | added time cancel positive near =>
      have other : x ≠ s.allocated := by omega
      refine ⟨Nat.lt_succ_of_lt below, Function.update_of_ne other .., ?_⟩
      simp only [Wheel.added, Function.update_of_ne other]
      exact id
  | deleted node known waiting =>
      refine ⟨below, rfl, ?_⟩
      intro deleted
      by_cases same : x = node
      · simp [same]
      · simpa only [Function.update_of_ne same] using deleted
  | updated p idle =>
      rw [executeShifted_eq]
      exact ⟨below, rfl, id⟩
  | dispatched p slot node rest walking => exact ⟨below, rfl, id⟩
  | resumed p slot walked =>
      rw [executeShifted_eq]
      exact ⟨below, rfl, id⟩

variable {m : Timer Slot P} {events : List (Event P)}

theorem run_inv (reach : Along (step d) (InReach laws) create events) (ran : run (step d) create events = some s) :
    Inv laws s :=
  run_invariant_along (Inv laws) (fun _ _ _ inv met stepped => inv.step met stepped) create_inv reach ran

theorem run_stays (inv : Inv laws m) (reach : Along (step d) (InReach laws) m events)
    (ran : run (step d) m events = some s) {x : Nat} (below : x < m.allocated) :
    s.due x = m.due x ∧ (m.cancel x ≠ 0 → s.cancel x ≠ 0) := by
  have stays := run_invariant_along (fun t => Inv laws t ∧ x < t.allocated ∧ t.due x = m.due x ∧
    (m.cancel x ≠ 0 → t.cancel x ≠ 0)) ?_ ⟨inv, below, rfl, id⟩ reach ran
  · exact stays.2.2
  · rintro u event v ⟨invU, belowU, dueU, cancelU⟩ met stepped
    obtain ⟨belowV, dueV, cancelV⟩ := (invU.taken met stepped).stays belowU
    exact ⟨invU.step met stepped, belowV, dueV.trans dueU, fun deleted => cancelV (cancelU deleted)⟩

theorem run_punctual (reach : Along (step d) (InReach laws) create events)
    (alone : Along (step d) Alone create events) (ran : run (step d) create events = some s) : Punctual d s := by
  -- By induction from the end, so that the invariant is at hand for the last step.
  induction events using List.reverseRecOn generalizing s with
  | nil =>
      obtain rfl := Option.some.inj ran
      exact create_punctual
  | append_singleton early event ih =>
      obtain ⟨middle, before, stepped⟩ := run_concat.mp ran
      obtain ⟨met, last⟩ := along_append.mp reach
      obtain ⟨single, final⟩ := along_append.mp alone
      exact (ih met single before).step (run_inv met before) (last middle before).1 (final middle before).1 stepped

theorem deleted_silent (reach : Along (step d) (InReach laws) create events)
    (ran : run (step d) create events = some s) {x : Nat} (deleted : .delTimer x ∈ events) (n time : Nat) :
    (x, n, time) ∉ s.ran := by
  have kept := (run_inv reach ran).kept
  obtain ⟨before, after, rfl⟩ := List.append_of_mem deleted
  rw [run_append, Option.bind_eq_some_iff] at ran
  obtain ⟨m, early, later⟩ := ran
  obtain ⟨u, stepped, rest⟩ := run_cons.mp later
  obtain ⟨met, last⟩ := along_append.mp reach
  obtain ⟨here, behind⟩ := last m early
  have inv := run_inv met early
  have known : x < u.allocated ∧ u.cancel x ≠ 0 := by
    cases inv.taken here stepped with
    | deleted node below waiting => exact ⟨below, by simp⟩
  have silent := (run_stays (inv.step here stepped) (behind u stepped) rest known.1).2 known.2
  intro logged
  exact silent (kept.ran_iff.mp ⟨n, time, logged⟩).2

theorem added_due {time : Int} {cancel : UInt8} {after : List (Event P)} (inv : Inv laws m) (positive : 0 < time)
    (reach : Along (step d) (InReach laws) m (.addTimer time cancel :: after))
    (ran : run (step d) m (.addTimer time cancel :: after) = some s) : (s.due m.allocated : Int) = m.ticks + time := by
  obtain ⟨u, stepped, rest⟩ := run_cons.mp ran
  obtain ⟨here, behind⟩ := reach
  have known : m.allocated < u.allocated ∧ (u.due m.allocated : Int) = m.ticks + time := by
    cases inv.taken here stepped with
    | atOnce time cancel late => omega
    | added time cancel _ near =>
        simp only [Wheel.added, Function.update_self]
        omega
  rw [(run_stays (inv.step here stepped) (behind u stepped) rest known.1).1]
  exact known.2

theorem run_onTime {before after : List (Event P)} {time : Int} {cancel : UInt8} {n now : Nat}
    (reach : Along (step d) (InReach laws) create (before ++ .addTimer time cancel :: after))
    (punctual : Punctual d s) (ran : run (step d) create (before ++ .addTimer time cancel :: after) = some s)
    (positive : 0 < time) (early : run (step d) create before = some m) (logged : (m.allocated, n, now) ∈ s.ran) :
    (n : Int) = m.ticks + time := by
  rw [run_append, early] at ran
  obtain ⟨met, last⟩ := along_append.mp reach
  rw [(punctual.log _ n now logged).1]
  exact added_due (run_inv met early) positive (last m early) ran

end CppInfra.Wheel
