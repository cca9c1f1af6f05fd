import CppInfra.Timer.TimerSet
import Mathlib.Data.List.Perm.Basic

set_option autoImplicit false

namespace CppInfra.Timer.TimerSet

open Transition

def Earlier (node later : TimerNodeBase) : Prop :=
  node.expire < later.expire ∨ node.expire = later.expire ∧ node.id < later.id

theorem less_iff {node later : TimerNodeBase} : less node later = true ↔ Earlier node later := by
  unfold less Earlier
  split_ifs <;> simp <;> omega

theorem Earlier.asymm {node later : TimerNodeBase} (earlier : Earlier node later) : ¬ Earlier later node := by
  unfold Earlier at *
  omega

theorem Earlier.ne {node later : TimerNodeBase} (earlier : Earlier node later) : node ≠ later := by
  rintro rfl
  exact earlier.asymm earlier

theorem Earlier.trans {node later latest : TimerNodeBase} (first : Earlier node later)
    (second : Earlier later latest) : Earlier node latest := by
  unfold Earlier at *
  omega

theorem Earlier.expire_le {node later : TimerNodeBase} (earlier : Earlier node later) :
    node.expire ≤ later.expire := by
  unfold Earlier at earlier
  omega

theorem earlier_total {node other : TimerNodeBase} (notLess : ¬ Earlier node other) (differs : node ≠ other) :
    Earlier other node := by
  obtain ⟨expire, id⟩ := node
  obtain ⟨expire', id'⟩ := other
  simp only [ne_eq, TimerNodeBase.mk.injEq] at differs
  unfold Earlier at *
  simp only at *
  omega

theorem emplace_spec {timeouts : Timeouts} {node : TimerNodeBase} (order : timeouts.Pairwise Earlier)
    (absent : node ∉ timeouts) :
    (emplace node timeouts).1 = node ∧ (emplace node timeouts).2.Perm (node :: timeouts) ∧
      (emplace node timeouts).2.Pairwise Earlier := by
  induction timeouts with
  | nil => exact ⟨rfl, List.Perm.refl _, List.pairwise_singleton ..⟩
  | cons other rest ih =>
      obtain ⟨first, later⟩ := List.pairwise_cons.mp order
      obtain ⟨differs, notLater⟩ := List.ne_and_not_mem_of_not_mem_cons absent
      obtain ⟨added, content, sorted⟩ := ih later notLater
      rw [emplace]
      by_cases before : Earlier other node
      · rw [if_pos (less_iff.mpr before)]
        refine ⟨added, (content.cons other).trans (List.Perm.swap ..), List.pairwise_cons.mpr ⟨?_, sorted⟩⟩
        intro x member
        rcases List.mem_cons.mp (content.mem_iff.mp member) with rfl | old
        · exact before
        · exact first x old
      · have behind : Earlier node other := earlier_total before (Ne.symm differs)
        rw [if_neg (mt less_iff.mp before), if_pos (less_iff.mpr behind)]
        refine ⟨rfl, List.Perm.refl _, List.pairwise_cons.mpr ⟨?_, order⟩⟩
        intro x member
        rcases List.mem_cons.mp member with rfl | old
        · exact behind
        · exact behind.trans (first x old)

theorem le_last {timeouts : Timeouts} {last : TimerNodeBase} (order : timeouts.Pairwise Earlier)
    (isLast : timeouts.getLast? = some last) : ∀ other ∈ timeouts, other = last ∨ Earlier other last := by
  intro other member
  obtain ⟨before, rfl⟩ := List.getLast?_eq_some_iff.mp isLast
  rcases List.mem_append.mp member with early | here
  · exact .inr ((List.pairwise_append.mp order).2.2 other early last (List.mem_singleton_self _))
  · exact .inl (List.mem_singleton.mp here)

theorem emplaceHintEnd_spec {timeouts : Timeouts} {node : TimerNodeBase} (order : timeouts.Pairwise Earlier)
    (absent : node ∉ timeouts) :
    (emplaceHintEnd node timeouts).1 = node ∧ (emplaceHintEnd node timeouts).2.Perm (node :: timeouts) ∧
      (emplaceHintEnd node timeouts).2.Pairwise Earlier := by
  cases last : timeouts.getLast? with
  | none =>
      obtain rfl := List.getLast?_eq_none_iff.mp last
      exact ⟨rfl, List.Perm.refl _, List.pairwise_singleton ..⟩
  | some x =>
      simp only [emplaceHintEnd, last]
      split
      · rename_i fits
        have behind := less_iff.mp fits
        refine ⟨rfl, List.perm_append_singleton .., List.pairwise_append.mpr ⟨order, List.pairwise_singleton .., ?_⟩⟩
        intro other member y isNode
        obtain rfl := List.mem_singleton.mp isNode
        rcases le_last order last other member with rfl | earlier
        · exact behind
        · exact earlier.trans behind
      · exact emplace_spec order absent

theorem addTimer_spec {timeouts : Timeouts} {node : TimerNodeBase} (order : timeouts.Pairwise Earlier)
    (absent : node ∉ timeouts) :
    (addTimer timeouts node).1 = node ∧ (addTimer timeouts node).2.Perm (node :: timeouts) ∧
      (addTimer timeouts node).2.Pairwise Earlier := by
  rw [addTimer]
  split
  · exact emplace_spec order absent
  · split
    · exact emplace_spec order absent
    · exact emplaceHintEnd_spec order absent

theorem delTimer_spec (timeouts : Timeouts) (node : TimerNodeBase) :
    delTimer timeouts node = (decide (node ∈ timeouts), timeouts.erase node) := by
  have equivalent : ∀ other : TimerNodeBase, (!less other node && !less node other) = true ↔ other = node := by
    intro other
    simp only [Bool.and_eq_true, Bool.not_eq_true', ← Bool.not_eq_true, less_iff]
    constructor
    · rintro ⟨notBefore, notBehind⟩
      by_contra differs
      exact notBehind (earlier_total notBefore differs)
    · rintro rfl
      exact ⟨fun earlier => earlier.ne rfl, fun earlier => earlier.ne rfl⟩
  rw [delTimer]
  split
  · rename_i found isFound
    obtain rfl := (equivalent found).mp (by simpa using List.find?_some isFound)
    rw [decide_eq_true (List.mem_of_find?_eq_some isFound)]
  · rename_i missing
    have absent : node ∉ timeouts := by
      intro member
      have rejected := List.find?_eq_none.mp missing node member
      exact rejected ((equivalent node).mpr rfl)
    rw [decide_eq_false absent, List.erase_of_not_mem absent]

theorem following_head (node : TimerNodeBase) (rest : Timeouts) : following node (node :: rest) = rest.head? := by
  rw [following, if_pos rfl]

-- The clock does not go back and is not behind `now`, no addition overflows, and a callback does not delete its own
-- timer.
def Meets (s : State) : Event → Prop
  | .addTimer tick msec =>
      s.place.free ∧ s.clock ≤ tick ∧ 0 ≤ msec ∧ tick + msec < 2 ^ 63 ∧ s.gid + 1 < 2 ^ 63
  | .delTimer node => s.place.free ∧ s.place.calls ≠ some node
  | .handleTimer _ => s.place = .outside
  | .test => ¬ s.place.free
  | .callbackDone => s.place.calls ≠ none

instance meetsDecidable (s : State) : (event : Event) → Decidable (Meets s event)
  | .addTimer _ _ => inferInstanceAs (Decidable (_ ∧ _))
  | .delTimer _ => inferInstanceAs (Decidable (_ ∧ _))
  | .handleTimer _ => inferInstanceAs (Decidable (_ = _))
  | .test => inferInstanceAs (Decidable (¬ _))
  | .callbackDone => inferInstanceAs (Decidable (_ ≠ _))

def State.pending (s : State) : Timeouts :=
  match s.place with
  | .calling _ _ _ => s.timeouts.tail
  | _ => s.timeouts

def State.ran (s : State) : List TimerNodeBase :=
  match s.place with
  | .outside => []
  | .scanning _ since _ | .calling _ since _ => s.fired.drop since

def Placed (s : State) : Prop :=
  match s.place with
  | .outside => True
  | .scanning now since iter =>
      iter = s.timeouts.head? ∧ now ≤ s.clock ∧ since ≤ s.fired.length ∧ ∀ node ∈ s.ran, node.expire ≤ now
  | .calling now since iter =>
      s.timeouts = iter :: s.pending ∧ now ≤ s.clock ∧ (∀ node ∈ s.ran, node.expire ≤ now) ∧
        ∃ before, s.fired = before ++ [iter] ∧ since ≤ before.length

structure Inv (s : State) : Prop where
  order : (s.ran ++ s.pending).Pairwise Earlier
  accounted : (s.fired ++ s.deleted ++ s.pending).Perm s.added
  once : s.added.Nodup
  ids : ∀ node ∈ s.added, node.id < s.gid
  placed : Placed s

theorem initial_inv : Inv State.initial := by
  constructor <;> simp [State.initial, State.ran, State.pending, Placed]

theorem least_first {l rest : Timeouts} {x : TimerNodeBase} (order : l.Pairwise Earlier)
    (content : l.Perm (x :: rest)) (least : ∀ y ∈ rest, Earlier x y) : ∃ tail, l = x :: tail ∧ tail.Perm rest := by
  cases l with
  | nil => exact absurd content.length_eq (by simp)
  | cons y tail =>
      have inside : x ∈ y :: tail := content.mem_iff.mpr (List.mem_cons_self ..)
      rcases List.mem_cons.mp (content.mem_iff.mp (List.mem_cons_self ..)) with rfl | later
      · exact ⟨tail, rfl, content.cons_inv⟩
      · rcases List.mem_cons.mp inside with rfl | behind
        · exact ⟨tail, rfl, content.cons_inv⟩
        · exact absurd (least y later) ((List.pairwise_cons.mp order).1 x behind).asymm

theorem Inv.fired_added {s : State} (inv : Inv s) {node : TimerNodeBase} (member : node ∈ s.fired) :
    node ∈ s.added :=
  inv.accounted.mem_iff.mp (List.mem_append_left _ (List.mem_append_left _ member))

theorem Inv.pending_added {s : State} (inv : Inv s) {node : TimerNodeBase} (member : node ∈ s.pending) :
    node ∈ s.added :=
  inv.accounted.mem_iff.mp (List.mem_append_right _ member)

theorem Inv.calling {s : State} (inv : Inv s) {now : Int} {since : Nat} {iter : TimerNodeBase}
    (place : s.place = .calling now since iter) :
    s.timeouts = iter :: s.pending ∧ now ≤ s.clock ∧ iter.expire ≤ now ∧ iter ∈ s.added ∧
      (∀ node ∈ s.ran, node.expire ≤ now) ∧ (iter :: s.pending).Pairwise Earlier ∧
        ∃ before, s.fired = before ++ [iter] ∧ since ≤ before.length := by
  have placed := inv.placed
  simp only [Placed, place] at placed
  obtain ⟨first, clock, due, before, fired, started⟩ := placed
  have ran : s.ran = before.drop since ++ [iter] := by
    simp [State.ran, place, fired, List.drop_append_of_le_length started]
  have order := inv.order
  rw [ran, List.append_assoc, List.singleton_append] at order
  have member : iter ∈ s.fired := by simp [fired]
  exact ⟨first, clock, due iter (by simp [ran]), inv.fired_added member, due, (List.pairwise_append.mp order).2.1,
    before, fired, started⟩

theorem Inv.timeouts_order {s : State} (inv : Inv s) : s.timeouts.Pairwise Earlier := by
  have order := (List.pairwise_append.mp inv.order).2.1
  cases place : s.place with
  | outside => simpa [State.pending, place] using order
  | scanning now since iter => simpa [State.pending, place] using order
  | calling now since iter =>
      obtain ⟨first, -, -, -, -, sorted, -⟩ := inv.calling place
      rw [first]
      exact sorted

theorem Inv.timeouts_added {s : State} (inv : Inv s) {node : TimerNodeBase} (member : node ∈ s.timeouts) :
    node ∈ s.added := by
  cases place : s.place with
  | outside => exact inv.pending_added (by simpa [State.pending, place] using member)
  | scanning now since iter => exact inv.pending_added (by simpa [State.pending, place] using member)
  | calling now since iter =>
      obtain ⟨first, -, -, added, -⟩ := inv.calling place
      rw [first] at member
      rcases List.mem_cons.mp member with rfl | later
      · exact added
      · exact inv.pending_added later

theorem addTimer_inv {s : State} {tick msec : Int} (inv : Inv s) (meets : Meets s (.addTimer tick msec)) :
    ∃ next, step s (.addTimer tick msec) = some next ∧ Inv next ∧
      next.added = s.added ++ [⟨tick + msec, s.gid⟩] ∧ next.timeouts.Perm (⟨tick + msec, s.gid⟩ :: s.timeouts) := by
  obtain ⟨free, clock, nonneg, fits, ids⟩ := meets
  let node : TimerNodeBase := ⟨tick + msec, s.gid⟩
  have unused : node ∉ s.added := fun member => Int.lt_irrefl _ (inv.ids node member)
  have absent : node ∉ s.timeouts := fun member => unused (inv.timeouts_added member)
  obtain ⟨added, content, sorted⟩ := addTimer_spec inv.timeouts_order absent
  let next : State :=
    { s with
      timeouts := (addTimer s.timeouts node).2
      gid := s.gid + 1
      clock := tick
      added := s.added ++ [node] }
  have stepped : step s (.addTimer tick msec) = some next := by
    simp only [step, if_pos (And.intro free (And.intro fits ids)), next, node, added]
  -- Whatever has fired in this call is due at `now`, which is not ahead of the clock.
  have behind : ∀ now, now ≤ s.clock → ∀ x ∈ s.added, x.expire ≤ now → Earlier x node := by
    intro now notAhead x known due
    have older := inv.ids x known
    simp only [Earlier, node]
    omega
  have grown : next.pending.Perm (node :: s.pending) ∧ (next.ran ++ next.pending).Pairwise Earlier ∧ Placed next := by
    cases place : s.place with
    | scanning now since iter => simp [place, Place.free] at free
    | outside =>
        have all : next.pending = (addTimer s.timeouts node).2 := by simp [State.pending, next, place]
        have old : s.pending = s.timeouts := by simp [State.pending, place]
        have none : next.ran = [] := by simp [State.ran, next, place]
        refine ⟨by rw [all, old]; exact content, by rw [none, all]; exact sorted, ?_⟩
        simp [Placed, next, place]
    | calling now since iter =>
        obtain ⟨first, notAhead, due, known, ranDue, inOrder, before, fired, started⟩ := inv.calling place
        have swapped : (addTimer s.timeouts node).2.Perm (iter :: node :: s.pending) := by
          refine content.trans ?_
          rw [first]
          exact List.Perm.swap ..
        have least : ∀ y ∈ node :: s.pending, Earlier iter y := by
          intro y member
          rcases List.mem_cons.mp member with rfl | later
          · exact behind now notAhead iter known due
          · exact (List.pairwise_cons.mp inOrder).1 y later
        obtain ⟨tail, shape, more⟩ := least_first sorted swapped least
        have all : next.pending = tail := by simp [State.pending, next, place, shape]
        have ran : next.ran = s.ran := by simp [State.ran, next, place]
        refine ⟨by rw [all]; exact more, ?_, ?_⟩
        · obtain ⟨early, -, across⟩ := List.pairwise_append.mp inv.order
          rw [ran, all]
          refine List.pairwise_append.mpr ⟨early, (List.pairwise_cons.mp (shape ▸ sorted)).2, ?_⟩
          intro x hasRun y member
          rcases List.mem_cons.mp (more.mem_iff.mp member) with rfl | old
          · refine behind now notAhead x (inv.fired_added ?_) (ranDue x hasRun)
            exact List.mem_of_mem_drop (by simpa [State.ran, place] using hasRun)
          · exact across x hasRun y old
        · simp only [Placed, next, place]
          refine ⟨by rw [shape]; simp [State.pending], by omega, ?_, before, fired, started⟩
          simpa [State.ran, place] using ranDue
  obtain ⟨more, inOrder, placed⟩ := grown
  refine ⟨next, stepped, ?_, rfl, content⟩
  exact
    { order := inOrder
      accounted := by
        have moved : (s.fired ++ s.deleted ++ next.pending).Perm (node :: (s.fired ++ s.deleted ++ s.pending)) :=
          (more.append_left _).trans List.perm_middle
        exact moved.trans ((inv.accounted.cons node).trans (List.perm_append_singleton ..).symm)
      once := by simpa [next] using inv.once.concat unused
      ids := by
        intro x member
        rcases List.mem_append.mp member with old | new
        · exact Int.lt_trans (inv.ids x old) (Int.lt_succ _)
        · rw [List.mem_singleton.mp new]
          exact Int.lt_succ _
      placed := placed }

theorem delTimer_inv {s : State} {node : TimerNodeBase} (inv : Inv s) (meets : Meets s (.delTimer node)) :
    ((delTimer s.timeouts node).1 = true ↔ node ∈ s.pending) ∧
      ∃ next, step s (.delTimer node) = some next ∧ Inv next ∧ next.pending = s.pending.erase node ∧
        next.deleted = if node ∈ s.pending then s.deleted ++ [node] else s.deleted := by
  obtain ⟨free, other⟩ := meets
  have spec := delTimer_spec s.timeouts node
  let next : State :=
    { s with
      timeouts := s.timeouts.erase node
      deleted := if node ∈ s.timeouts then s.deleted ++ [node] else s.deleted }
  have stepped : step s (.delTimer node) = some next := by
    simp only [step, if_pos (And.intro free other), spec, decide_eq_true_eq, next]
  have taken : (node ∈ s.timeouts ↔ node ∈ s.pending) ∧ next.pending = s.pending.erase node ∧ next.ran = s.ran ∧
      Placed next := by
    cases place : s.place with
    | scanning now since iter => simp [place, Place.free] at free
    | outside => simp [State.pending, State.ran, Placed, next, place]
    | calling now since iter =>
        obtain ⟨first, notAhead, -, -, ranDue, -, before, fired, started⟩ := inv.calling place
        have apart : iter ≠ node := by
          rintro rfl
          exact other (by simp [Place.calls, place])
        have shape : s.timeouts.erase node = iter :: s.pending.erase node := by
          rw [first, List.erase_cons_tail (by simpa using apart)]
        have fewer : next.pending = s.pending.erase node := by
          simp only [State.pending, next, place, shape, List.tail_cons]
        have ran : next.ran = s.ran := by simp [State.ran, next, place]
        refine ⟨?_, fewer, ran, ?_⟩
        · rw [first, List.mem_cons]
          exact ⟨fun found => found.resolve_left (Ne.symm apart), .inr⟩
        · simp only [Placed, next, place]
          refine ⟨by rw [shape]; simp [State.pending], notAhead, ?_, before, fired, started⟩
          simpa [State.ran, place] using ranDue
  obtain ⟨found, fewer, ran, placed⟩ := taken
  refine ⟨by rw [spec, decide_eq_true_eq]; exact found, next, stepped, ?_, fewer, by simp only [next, found]⟩
  exact
    { order := by
        rw [fewer, ran]
        exact inv.order.sublist (List.erase_sublist.append_left _)
      accounted := by
        rw [fewer]
        simp only [next]
        split
        · rename_i member
          have back : (node :: s.pending.erase node).Perm s.pending := (List.perm_cons_erase (found.mp member)).symm
          have moved : (s.fired ++ (s.deleted ++ [node]) ++ s.pending.erase node) =
              s.fired ++ s.deleted ++ (node :: s.pending.erase node) := by simp
          rw [moved]
          exact (back.append_left _).trans inv.accounted
        · rename_i missing
          rw [List.erase_of_not_mem (mt found.mpr missing)]
          exact inv.accounted
      once := inv.once
      ids := inv.ids
      placed := placed }

theorem handleTimer_inv {s : State} {now : Int} (inv : Inv s) (meets : Meets s (.handleTimer now)) :
    ∃ next, step s (.handleTimer now) = some next ∧ Inv next := by
  have outside : s.place = .outside := meets
  have order := inv.timeouts_order
  have accounted := inv.accounted
  simp only [State.pending, outside] at accounted
  refine ⟨_, if_pos outside, ?_⟩
  exact
    { order := by simpa [State.ran, State.pending] using order
      accounted := by simpa [State.pending] using accounted
      once := inv.once
      ids := inv.ids
      placed := ⟨rfl, Int.le_max_right .., Nat.le_refl _, by simp [State.ran]⟩ }

def Returned (now : Int) (since : Nat) (s : State) : Prop :=
  (∀ node ∈ s.timeouts, now < node.expire) ∧
    (s.fired.drop since).Pairwise Earlier ∧
    ∀ node ∈ s.added, node ∈ s.fired.drop since ↔
      node.expire ≤ now ∧ node ∉ s.deleted ∧ node ∉ s.fired.take since

theorem Inv.returned {s : State} (inv : Inv s) {now : Int} {since : Nat}
    (left : ∀ node ∈ s.pending, now < node.expire) (all : ∀ node ∈ s.timeouts, node ∈ s.pending)
    (due : ∀ node ∈ s.fired.drop since, node.expire ≤ now) (order : (s.fired.drop since).Pairwise Earlier) :
    Returned now since s := by
  refine ⟨fun node member => left node (all node member), order, ?_⟩
  have distinct := inv.accounted.nodup_iff.mpr inv.once
  obtain ⟨gone, -, apart⟩ := List.nodup_append.mp distinct
  obtain ⟨fired, -, undeleted⟩ := List.nodup_append.mp gone
  rw [← List.take_append_drop since s.fired] at fired
  intro node added
  constructor
  · intro member
    have hasFired := List.mem_of_mem_drop member
    refine ⟨due node member, fun deleted => undeleted node hasFired node deleted rfl, ?_⟩
    exact fun before => (List.nodup_append.mp fired).2.2 node before node member rfl
  · rintro ⟨isDue, notDeleted, notBefore⟩
    have somewhere := inv.accounted.mem_iff.mpr added
    rcases List.mem_append.mp somewhere with done | waiting
    · rcases List.mem_append.mp done with hasFired | deleted
      · rw [← List.take_append_drop since s.fired] at hasFired
        exact (List.mem_append.mp hasFired).resolve_left notBefore
      · exact absurd deleted notDeleted
    · exact absurd (left node waiting) (by omega)

theorem test_inv {s : State} (inv : Inv s) (meets : Meets s .test) :
    ∃ next, step s .test = some next ∧ Inv next ∧
      ∀ now since iter, s.place = .scanning now since iter → next.place = .outside → Returned now since next := by
  cases place : s.place with
  | outside => simp [Meets, place, Place.free] at meets
  | calling now since iter => simp [Meets, place, Place.free] at meets
  | scanning now since iter =>
      have placed := inv.placed
      simp only [Placed, place] at placed
      obtain ⟨begin_, notAhead, started, ranDue⟩ := placed
      have order := inv.order
      have pending : s.pending = s.timeouts := by simp [State.pending, place]
      have ran : s.ran = s.fired.drop since := by simp [State.ran, place]
      have accounted := inv.accounted
      rw [ran, pending] at order
      rw [ran] at ranDue
      rw [pending] at accounted
      have ends : (∀ node ∈ s.timeouts, now < node.expire) →
          Inv { s with place := .outside } ∧ Returned now since { s with place := .outside } := by
        intro left
        have kept : Inv { s with place := .outside } :=
          { order := by simpa [State.ran, State.pending] using (List.pairwise_append.mp order).2.1
            accounted := by simpa [State.pending] using accounted
            once := inv.once
            ids := inv.ids
            placed := by simp [Placed] }
        exact ⟨kept, kept.returned left (fun _ member => member) ranDue (List.pairwise_append.mp order).1⟩
      cases content : s.timeouts with
      | nil =>
          obtain rfl : iter = none := by simpa [content] using begin_
          obtain ⟨kept, returned⟩ := ends (by simp [content])
          refine ⟨_, by simp [step, place], kept, ?_⟩
          rintro now' since' iter' ⟨⟩ -
          exact returned
      | cons node rest =>
          obtain rfl : iter = some node := by simpa [content] using begin_
          by_cases due : node.expire ≤ now
          · let next : State := { s with place := .calling now since node, fired := s.fired ++ [node] }
            have stepped : step s .test = some next := by simp [step, place, content, due, next]
            have log : next.ran = s.fired.drop since ++ [node] := by
              simp [State.ran, next, List.drop_append_of_le_length started]
            have waiting : next.pending = rest := by simp [State.pending, next, content]
            rw [content] at order accounted
            refine ⟨next, stepped, ?_, by simp [next]⟩
            exact
              { order := by
                  rw [log, waiting, List.append_assoc]
                  exact order
                accounted := by
                  rw [waiting]
                  refine List.Perm.trans ?_ accounted
                  have moved : s.fired ++ [node] ++ s.deleted ++ rest = s.fired ++ node :: (s.deleted ++ rest) := by
                    simp
                  have back : s.fired ++ s.deleted ++ node :: rest = s.fired ++ (s.deleted ++ node :: rest) := by simp
                  simp only [next]
                  rw [moved, back]
                  exact List.perm_middle.symm.append_left _
                once := inv.once
                ids := inv.ids
                placed := by
                  simp only [Placed, next]
                  refine ⟨by simp [State.pending, content], notAhead, ?_, s.fired, rfl, started⟩
                  intro x member
                  rw [show (State.ran _) = next.ran from rfl, log] at member
                  rcases List.mem_append.mp member with old | new
                  · exact ranDue x old
                  · rw [List.mem_singleton.mp new]
                    exact due }
          · have left : ∀ x ∈ s.timeouts, now < x.expire := by
              intro x member
              rw [content] at member order
              rcases List.mem_cons.mp member with rfl | later
              · omega
              · have earlier := (List.pairwise_cons.mp (List.pairwise_append.mp order).2.1).1 x later
                have le := earlier.expire_le
                omega
            obtain ⟨kept, returned⟩ := ends left
            refine ⟨_, by simp [step, place, content, due], kept, ?_⟩
            rintro now' since' iter' ⟨⟩ -
            exact returned

theorem callbackDone_inv {s : State} (inv : Inv s) (meets : Meets s .callbackDone) :
    ∃ next, step s .callbackDone = some next ∧ Inv next := by
  cases place : s.place with
  | outside => simp [Meets, place, Place.calls] at meets
  | scanning now since iter => simp [Meets, place, Place.calls] at meets
  | calling now since iter =>
      obtain ⟨first, notAhead, -, -, ranDue, -, before, fired, started⟩ := inv.calling place
      let next : State := { s with timeouts := s.pending, place := .scanning now since s.pending.head? }
      have stepped : step s .callbackDone = some next := by
        simp only [step, place]
        rw [first, if_pos (List.mem_cons_self ..), List.erase_cons_head, following_head]
      have log : next.ran = s.ran := by simp [State.ran, next, place]
      have waiting : next.pending = s.pending := by simp [State.pending, next]
      refine ⟨next, stepped, ?_⟩
      exact
        { order := by
            rw [log, waiting]
            exact inv.order
          accounted := by
            rw [waiting]
            exact inv.accounted
          once := inv.once
          ids := inv.ids
          placed := by
            simp only [Placed, next]
            refine ⟨trivial, notAhead, by rw [fired, List.length_append]; omega, ?_⟩
            intro x member
            exact ranDue x (log ▸ member) }

theorem step_inv {s : State} {event : Event} (inv : Inv s) (meets : Meets s event) :
    ∃ next, step s event = some next ∧ Inv next := by
  cases event with
  | addTimer tick msec =>
      obtain ⟨next, stepped, kept, -⟩ := addTimer_inv inv meets
      exact ⟨next, stepped, kept⟩
  | delTimer node =>
      obtain ⟨-, next, stepped, kept, -⟩ := delTimer_inv inv meets
      exact ⟨next, stepped, kept⟩
  | handleTimer now => exact handleTimer_inv inv meets
  | test =>
      obtain ⟨next, stepped, kept, -⟩ := test_inv inv meets
      exact ⟨next, stepped, kept⟩
  | callbackDone => exact callbackDone_inv inv meets

theorem Inv.pending_iff {s : State} (inv : Inv s) {node : TimerNodeBase} :
    node ∈ s.pending ↔ node ∈ s.added ∧ node ∉ s.fired ∧ node ∉ s.deleted := by
  obtain ⟨-, -, apart⟩ := List.nodup_append.mp (inv.accounted.nodup_iff.mpr inv.once)
  constructor
  · intro member
    refine ⟨inv.pending_added member, ?_, ?_⟩
    · exact fun fired => apart node (List.mem_append_left _ fired) node member rfl
    · exact fun deleted => apart node (List.mem_append_right _ deleted) node member rfl
  · rintro ⟨added, notFired, notDeleted⟩
    have somewhere := inv.accounted.mem_iff.mpr added
    simpa [notFired, notDeleted] using somewhere

structure Handled (s : State) : Prop where
  fired_once : s.fired.Nodup
  deleted : ∀ node ∈ s.deleted, node ∉ s.fired
  ordered : s.ran.Pairwise Earlier
  adds : ∀ tick msec, Meets s (.addTimer tick msec) →
    ∃ next node, step s (.addTimer tick msec) = some next ∧ node.expire = tick + msec ∧
      next.added = s.added ++ [node] ∧ node ∉ s.added ∧ next.timeouts.Perm (node :: s.timeouts)
  deletes : ∀ node, Meets s (.delTimer node) →
    ((delTimer s.timeouts node).1 = true ↔ node ∈ s.added ∧ node ∉ s.fired ∧ node ∉ s.deleted) ∧
      ∃ next, step s (.delTimer node) = some next ∧ next.pending = s.pending.erase node ∧
        ((delTimer s.timeouts node).1 = true → node ∈ next.deleted)
  returns : ∀ now since iter, s.place = .scanning now since iter →
    ∃ next, step s .test = some next ∧ (next.place = .outside → Returned now since next)

theorem timerSet_handled (events : List Event) (met : Along step Meets State.initial events) :
    ∃ s, run step State.initial events = some s ∧ Handled s := by
  obtain ⟨s, ran, inv⟩ := run_possible Inv (fun _ _ inv meets => step_inv inv meets) initial_inv met
  obtain ⟨gone, -, -⟩ := List.nodup_append.mp (inv.accounted.nodup_iff.mpr inv.once)
  obtain ⟨fired, -, apart⟩ := List.nodup_append.mp gone
  refine ⟨s, ran, ?_⟩
  exact
    { fired_once := fired
      deleted := fun node deleted hasFired => apart node hasFired node deleted rfl
      ordered := (List.pairwise_append.mp inv.order).1
      adds := by
        intro tick msec meets
        obtain ⟨next, stepped, -, added, content⟩ := addTimer_inv inv meets
        refine ⟨next, _, stepped, rfl, added, ?_, content⟩
        exact fun member => Int.lt_irrefl _ (inv.ids _ member)
      deletes := by
        intro node meets
        obtain ⟨found, next, stepped, -, fewer, log⟩ := delTimer_inv inv meets
        refine ⟨found.trans inv.pending_iff, next, stepped, fewer, ?_⟩
        intro true_
        rw [log, if_pos (found.mp true_)]
        exact List.mem_append_right _ (List.mem_singleton_self node)
      returns := by
        intro now since iter place
        obtain ⟨next, stepped, -, returned⟩ := test_inv inv (by simp [Meets, place, Place.free])
        exact ⟨next, stepped, returned now since iter place⟩ }

-- The first callback deletes a timer that is due and adds one that is due at once. A later `DelTimer` of a timer
-- that has fired finds nothing.
def restarting : List Event :=
  [.addTimer 100 10, .addTimer 100 5, .addTimer 100 10, .addTimer 101 50, .handleTimer 110, .test,
    .delTimer ⟨110, 2⟩, .addTimer 110 0, .addTimer 111 0, .callbackDone, .test, .callbackDone, .test, .callbackDone,
    .test, .delTimer ⟨110, 0⟩]

theorem timerSet_handled_restarting :
    ∃ s, run step State.initial restarting = some s ∧ Handled s ∧
      s.fired = [⟨105, 1⟩, ⟨110, 0⟩, ⟨110, 4⟩] ∧ s.deleted = [⟨110, 2⟩] ∧ s.timeouts = [⟨111, 5⟩, ⟨151, 3⟩] := by
  have met : Along step Meets State.initial restarting := by decide
  have results : (run step State.initial restarting).map (fun s => (s.fired, s.deleted, s.timeouts)) =
      some ([⟨105, 1⟩, ⟨110, 0⟩, ⟨110, 4⟩], [⟨110, 2⟩], [⟨111, 5⟩, ⟨151, 3⟩]) := by
    decide
  obtain ⟨s, ran, handled⟩ := timerSet_handled restarting met
  rw [ran, Option.map_some, Option.some.injEq] at results
  simp only [Prod.mk.injEq] at results
  exact ⟨s, ran, handled, results⟩

-- The longest delay that a `time_t` holds, on a clock that has left 0.
theorem addTimer_overflow :
    State.initial.place.free = true ∧ State.initial.clock ≤ 1 ∧ (0 : Int) ≤ 2 ^ 63 - 1 ∧
      step State.initial (.addTimer 1 (2 ^ 63 - 1)) = none := by
  decide

end CppInfra.Timer.TimerSet
