import CppInfra.NetworkTimer.EventLoop
import Mathlib.Data.List.Nodup
import Mathlib.Data.List.TakeWhile

set_option autoImplicit false

namespace CppInfra.NetworkTimer.Timer.Handling

open Words Transition

inductive Place where
  | outside
  | scanning (iter : Option Nat)
  | calling (iter : Nat)
  deriving DecidableEq, Repr

structure Firing where
  deadline : Nat
  node : Nat
  clock : Nat
  deriving DecidableEq, Repr

def Firing.entry (firing : Firing) : Nat × Nat := (firing.deadline, firing.node)

-- Nodes are numbered as they are created and never freed: `timeouts` is the `timeout_` of each. `clock` is what
-- `GetCurrentTime` returned last, `deleted` are the nodes that `DelTimeout` was given before they fired.
structure State where
  timerMap : TimerMap
  timeouts : List Nat
  place : Place
  clock : Nat
  fired : List Firing
  deleted : List Nat
  deriving DecidableEq, Repr

def State.initial : State :=
  { timerMap := [], timeouts := [], place := .outside, clock := 0, fired := [], deleted := [] }

inductive Event where
  | addTimeout (now diff : Nat)
  | delTimeout (node : Nat)
  | handleTimeout
  | test (now : Nat)
  | callbackDone
  deriving DecidableEq, Repr

def Place.free : Place → Bool
  | .scanning _ => false
  | _ => true

-- No result where the iterator of `HandleTimeout` is no longer valid.
def step (s : State) : Event → Option State
  | .addTimeout now diff =>
      if s.place.free then
        some
          { s with
            timerMap := addTimeout s.timerMap s.timeouts.length now diff
            timeouts := s.timeouts ++ [add 64 now diff]
            clock := now }
      else none
  | .delTimeout node =>
      if s.place.free ∧ s.place ≠ .calling node then do
        let timeout ← s.timeouts[node]?
        some
          { s with
            timerMap := delTimeout s.timerMap timeout node
            deleted := if node ∈ s.fired.map Firing.node then s.deleted else s.deleted ++ [node] }
      else none
  | .handleTimeout =>
      if s.place = .outside then some { s with place := .scanning (s.timerMap.head?.map Prod.snd) } else none
  | .test now =>
      match s.place with
      -- At `end()` the clock is not read.
      | .scanning none => some { s with place := .outside }
      | .scanning (some node) => do
          let first ← deadline s.timerMap node
          if first ≤ now then
            some { s with place := .calling node, clock := now, fired := s.fired ++ [⟨first, node, now⟩] }
          else some { s with place := .outside, clock := now }
      | _ => none
  | .callbackDone =>
      match s.place with
      | .calling node => do
          let _ ← deadline s.timerMap node
          some
            { s with
              timerMap := s.timerMap.eraseP fun entry => entry.2 = node
              place := .scanning (following node s.timerMap) }
      | _ => none

-- The clock does not go back, a deadline is no more than a word, and a callback does not delete its own timer.
def Meets (s : State) : Event → Prop
  | .addTimeout now diff => s.place.free ∧ s.clock ≤ now ∧ now + diff < 2 ^ 64
  | .delTimeout node => s.place.free ∧ s.place ≠ .calling node ∧ node < s.timeouts.length
  | .handleTimeout => s.place = .outside
  | .test now => ¬ s.place.free ∧ (s.place = .scanning none ∨ s.clock ≤ now)
  | .callbackDone => s.place.free ∧ s.place ≠ .outside

instance meetsDecidable (s : State) : (event : Event) → Decidable (Meets s event)
  | .addTimeout _ _ => inferInstanceAs (Decidable (_ ∧ _))
  | .delTimeout _ => inferInstanceAs (Decidable (_ ∧ _))
  | .handleTimeout => inferInstanceAs (Decidable (_ = _))
  | .test _ => inferInstanceAs (Decidable (_ ∧ _))
  | .callbackDone => inferInstanceAs (Decidable (_ ∧ _))

def Earlier (entry later : Nat × Nat) : Prop := entry.1 < later.1 ∨ entry.1 = later.1 ∧ entry.2 < later.2

def deadlines (events : List Event) : List Nat :=
  events.filterMap fun
    | .addTimeout now diff => some (now + diff)
    | _ => none

structure Inv (taken : TimerMap) (s : State) : Prop where
  order : (taken ++ s.timerMap).Pairwise Earlier
  known : ∀ entry ∈ taken ++ s.timerMap, s.timeouts[entry.2]? = some entry.1
  past : ∀ entry ∈ taken, entry.1 ≤ s.clock
  due : ∀ firing ∈ s.fired, firing.deadline ≤ firing.clock
  deleted : ∀ node ∈ s.deleted, node < s.timeouts.length ∧ node ∉ (taken ++ s.timerMap).map Prod.snd
  complete : ∀ node < s.timeouts.length, node ∈ (taken ++ s.timerMap).map Prod.snd ∨ node ∈ s.deleted
  placed :
    match s.place with
    | .outside => s.fired.map Firing.entry = taken
    | .scanning iter => s.fired.map Firing.entry = taken ∧ iter = s.timerMap.head?.map Prod.snd
    | .calling node => ∃ first rest, s.timerMap = (first, node) :: rest ∧ first ≤ s.clock ∧
        s.fired.map Firing.entry = taken ++ [(first, node)]

theorem Earlier.le {entry later : Nat × Nat} (earlier : Earlier entry later) : entry.1 ≤ later.1 := by
  rw [Earlier] at earlier
  omega

theorem Earlier.ne {entry later : Nat × Nat} (earlier : Earlier entry later) : entry ≠ later := by
  rintro rfl
  rw [Earlier] at earlier
  omega

theorem insert_last {map : TimerMap} {entry : Nat × Nat} (behind : ∀ other ∈ map, other.1 ≤ entry.1) :
    insert entry map = map ++ [entry] := by
  induction map with
  | nil => rfl
  | cons other rest ih =>
      rw [insert, if_pos (behind other (List.mem_cons_self ..)), List.cons_append,
        ih fun x member => behind x (List.mem_cons_of_mem _ member)]

theorem emplaceHintEnd_insert {map : TimerMap} (sorted : map.Pairwise fun entry later => entry.1 ≤ later.1)
    (entry : Nat × Nat) : emplaceHintEnd entry map = insert entry map := by
  cases last : map.getLast? with
  | none =>
      obtain rfl := List.getLast?_eq_none_iff.mp last
      rfl
  | some x =>
      simp only [emplaceHintEnd, last]
      split
      · rename_i fits
        have behind : ∀ other ∈ map, other.1 ≤ entry.1 :=
          fun other member => (sorted_last sorted last other member).trans fits
        exact (insert_last behind).symm
      · rfl

theorem addTimeout_insert {map : TimerMap} (sorted : map.Pairwise fun entry later => entry.1 ≤ later.1)
    (node now diff : Nat) : addTimeout map node now diff = insert (add 64 now diff, node) map := by
  rw [addTimeout]
  split
  · rfl
  · split
    · rfl
    · exact emplaceHintEnd_insert sorted _

theorem insert_order {map : TimerMap} {entry : Nat × Nat} (order : map.Pairwise Earlier)
    (newest : ∀ other ∈ map, other.2 < entry.2) : (insert entry map).Pairwise Earlier := by
  induction map with
  | nil => exact List.pairwise_singleton ..
  | cons other rest ih =>
      obtain ⟨first, later⟩ := List.pairwise_cons.mp order
      have newer := newest other (List.mem_cons_self ..)
      rw [insert]
      split
      · rename_i before
        refine List.pairwise_cons.mpr ⟨?_, ih later fun x member => newest x (List.mem_cons_of_mem _ member)⟩
        intro x member
        rcases List.mem_cons.mp ((insert_perm entry rest).mem_iff.mp member) with rfl | old
        · rw [Earlier]
          omega
        · exact first x old
      · rename_i behind
        refine List.pairwise_cons.mpr ⟨?_, order⟩
        intro x member
        rw [Earlier]
        rcases List.mem_cons.mp member with rfl | old
        · omega
        · have le := (first x old).le
          omega

theorem deadline_head (first node : Nat) (rest : TimerMap) :
    deadline ((first, node) :: rest) node = some first := by
  simp [deadline]

theorem dropWhile_greater {map : TimerMap} (sorted : map.Pairwise fun entry later => entry.1 ≤ later.1)
    (timeout : Nat) : ∀ entry ∈ map.dropWhile (fun entry => entry.1 ≤ timeout), timeout < entry.1 := by
  induction map with
  | nil => simp
  | cons x rest ih =>
      obtain ⟨first, later⟩ := List.pairwise_cons.mp sorted
      by_cases least : x.1 ≤ timeout
      · rw [List.dropWhile_cons_of_pos (by simpa using least)]
        exact ih later
      · rw [List.dropWhile_cons_of_neg (by simpa using least)]
        intro entry member
        rcases List.mem_cons.mp member with rfl | behind
        · omega
        · have le := first entry behind
          omega

theorem eraseP_takeWhile {map : TimerMap} {p q : Nat × Nat → Bool} (none : ∀ x ∈ map.dropWhile q, ¬ p x) :
    (map.takeWhile q).eraseP p ++ map.dropWhile q = map.eraseP p := by
  have split_ : map.eraseP p = (map.takeWhile q ++ map.dropWhile q).eraseP p := by
    rw [List.takeWhile_append_dropWhile]
  rw [split_, List.eraseP_append]
  split
  · rfl
  · rename_i nowhere
    have untouched : ∀ x ∈ map.takeWhile q, ¬ p x :=
      fun x member holds => nowhere (List.any_eq_true.mpr ⟨x, member, holds⟩)
    rw [List.eraseP_of_forall_not none, List.eraseP_of_forall_not untouched]

theorem delTimeout_eraseP {map : TimerMap} {timeout node : Nat}
    (sorted : map.Pairwise fun entry later => entry.1 ≤ later.1)
    (known : ∀ entry ∈ map, entry.2 = node → entry.1 = timeout) :
    delTimeout map timeout node = map.eraseP fun entry => entry.2 = node := by
  have rest : (map.dropWhile fun entry => entry.1 < timeout).Sublist map := List.dropWhile_sublist _
  have less : ∀ entry ∈ map.takeWhile (fun entry => entry.1 < timeout), ¬ decide (entry.2 = node) = true := by
    intro entry member same
    have below := of_decide_eq_true (List.mem_takeWhile_imp (p := fun x : Nat × Nat => decide (x.1 < timeout)) member)
    have key := known entry ((List.takeWhile_sublist _).subset member) (of_decide_eq_true same)
    omega
  have greater : ∀ entry ∈ (map.dropWhile fun entry => entry.1 < timeout).dropWhile
      (fun entry => entry.1 ≤ timeout), ¬ decide (entry.2 = node) = true := by
    intro entry member same
    have above := dropWhile_greater (sorted.sublist rest) timeout entry member
    have key := known entry (rest.subset ((List.dropWhile_sublist _).subset member)) (of_decide_eq_true same)
    omega
  calc delTimeout map timeout node
    _ = map.takeWhile (fun entry => entry.1 < timeout) ++
        (map.dropWhile fun entry => entry.1 < timeout).eraseP (fun entry => entry.2 = node) := by
      rw [delTimeout, eraseP_takeWhile greater]
    _ = (map.takeWhile (fun entry => entry.1 < timeout) ++
        map.dropWhile fun entry => entry.1 < timeout).eraseP (fun entry => entry.2 = node) := by
      rw [List.eraseP_append_right _ less]
    _ = map.eraseP fun entry => entry.2 = node := by
      rw [List.takeWhile_append_dropWhile]

theorem eraseP_filter {map : TimerMap} (distinct : (map.map Prod.snd).Nodup) (node : Nat) :
    map.eraseP (fun entry => entry.2 = node) = map.filter fun entry => entry.2 ≠ node := by
  induction map with
  | nil => rfl
  | cons x rest ih =>
      obtain ⟨other, later⟩ := List.nodup_cons.mp distinct
      by_cases same : x.2 = node
      · subst same
        have all : ∀ entry ∈ rest, decide (entry.2 ≠ x.2) = true := by
          intro entry member
          refine decide_eq_true fun equal => other ?_
          exact equal ▸ List.mem_map_of_mem member
        rw [List.eraseP_cons_of_pos (by simp), List.filter_cons_of_neg (by simp), List.filter_eq_self.mpr all]
      · rw [List.eraseP_cons_of_neg (by simpa using same), List.filter_cons_of_pos (by simpa using same), ih later]

theorem Inv.sorted {taken : TimerMap} {s : State} (inv : Inv taken s) :
    s.timerMap.Pairwise fun entry later => entry.1 ≤ later.1 :=
  (List.pairwise_append.mp inv.order).2.1.imp Earlier.le

theorem Inv.distinct {taken : TimerMap} {s : State} (inv : Inv taken s) :
    ((taken ++ s.timerMap).map Prod.snd).Nodup := by
  refine List.Nodup.map_on ?_ (inv.order.imp Earlier.ne)
  -- Two entries of one node have the deadline of that node.
  intro x inX y inY same
  have one := inv.known x inX
  rw [same, inv.known y inY, Option.some.injEq] at one
  exact Prod.ext one.symm same

theorem Inv.distinct_map {taken : TimerMap} {s : State} (inv : Inv taken s) : (s.timerMap.map Prod.snd).Nodup := by
  have all := inv.distinct
  rw [List.map_append] at all
  exact (List.nodup_append.mp all).2.1

theorem Inv.node_lt {taken : TimerMap} {s : State} (inv : Inv taken s) :
    ∀ entry ∈ taken ++ s.timerMap, entry.2 < s.timeouts.length := by
  intro entry member
  exact (List.getElem?_eq_some_iff.mp (inv.known entry member)).1

theorem Inv.fired_split {taken : TimerMap} {s : State} (inv : Inv taken s) :
    ∃ current, s.fired.map Firing.entry = taken ++ current ∧ current.Sublist s.timerMap := by
  have placed := inv.placed
  cases place : s.place with
  | outside =>
      simp only [place] at placed
      exact ⟨[], by simpa using placed, List.nil_sublist _⟩
  | scanning iter =>
      simp only [place] at placed
      exact ⟨[], by simpa using placed.1, List.nil_sublist _⟩
  | calling node =>
      simp only [place] at placed
      obtain ⟨first, rest, map, -, fired⟩ := placed
      exact ⟨[(first, node)], fired, by simp [map]⟩

theorem Inv.fired_sublist {taken : TimerMap} {s : State} (inv : Inv taken s) :
    (s.fired.map Firing.entry).Sublist (taken ++ s.timerMap) := by
  obtain ⟨current, fired, inside⟩ := inv.fired_split
  rw [fired]
  exact (List.Sublist.refl taken).append inside

theorem fired_nodes (fired : List Firing) : fired.map Firing.node = (fired.map Firing.entry).map Prod.snd := by
  simp [Firing.entry]

theorem Inv.fired_taken {taken : TimerMap} {s : State} (inv : Inv taken s) {node : Nat}
    (other : s.place ≠ .calling node) : node ∈ s.fired.map Firing.node ↔ node ∈ taken.map Prod.snd := by
  have placed := inv.placed
  rw [fired_nodes]
  cases place : s.place with
  | outside =>
      simp only [place] at placed
      rw [placed]
  | scanning iter =>
      simp only [place] at placed
      rw [placed.1]
  | calling iter =>
      simp only [place] at placed
      obtain ⟨first, rest, -, -, log⟩ := placed
      have apart : node ≠ iter := by
        rintro rfl
        exact other place
      simp [log, apart]

theorem initial_inv : Inv [] State.initial := by
  constructor <;> simp [State.initial]

theorem addTimeout_inv {taken : TimerMap} {s : State} {now diff : Nat} (inv : Inv taken s)
    (meets : Meets s (.addTimeout now diff)) :
    ∃ next, step s (.addTimeout now diff) = some next ∧ Inv taken next := by
  obtain ⟨free, clock, fits⟩ := meets
  have exact_ : add 64 now diff = now + diff := add_exact fits
  let entry : Nat × Nat := (now + diff, s.timeouts.length)
  let next : State :=
    { s with timerMap := insert entry s.timerMap, timeouts := s.timeouts ++ [now + diff], clock := now }
  have stepped : step s (.addTimeout now diff) = some next := by
    simp [step, free, addTimeout_insert inv.sorted, exact_, next, entry]
  have content : (taken ++ insert entry s.timerMap).Perm (entry :: (taken ++ s.timerMap)) :=
    ((insert_perm entry s.timerMap).append_left taken).trans List.perm_middle
  have newest := inv.node_lt
  refine ⟨next, stepped, ?_⟩
  exact
    { order := by
        obtain ⟨before, inMap, across⟩ := List.pairwise_append.mp inv.order
        refine List.pairwise_append.mpr ⟨before, insert_order inMap ?_, ?_⟩
        · intro other member
          exact newest other (List.mem_append_right _ member)
        · intro early member x inserted
          rcases List.mem_cons.mp ((insert_perm entry s.timerMap).mem_iff.mp inserted) with rfl | old
          · have past := inv.past early member
            have newer := newest early (List.mem_append_left _ member)
            simp only [Earlier, entry]
            omega
          · exact across early member x old
      known := by
        intro x member
        rcases List.mem_cons.mp (content.mem_iff.mp member) with rfl | old
        · simp [entry, next]
        · rw [List.getElem?_append_left (newest x old)]
          exact inv.known x old
      past := fun x member => (inv.past x member).trans clock
      due := inv.due
      deleted := by
        intro node member
        obtain ⟨known, outside⟩ := inv.deleted node member
        refine ⟨by simp only [next, List.length_append]; omega, ?_⟩
        rw [(content.map Prod.snd).mem_iff, List.map_cons, List.mem_cons, not_or]
        exact ⟨Nat.ne_of_lt known, outside⟩
      complete := by
        intro node known
        simp only [next, List.length_append, List.length_singleton] at known
        rw [(content.map Prod.snd).mem_iff, List.map_cons, List.mem_cons]
        rcases Nat.lt_succ_iff_lt_or_eq.mp known with old | rfl
        · rcases inv.complete node old with inside | wasDeleted
          · exact .inl (.inr inside)
          · exact .inr wasDeleted
        · exact .inl (.inl rfl)
      placed := by
        have placed := inv.placed
        cases place : s.place with
        | outside => simpa [place, next] using placed
        | scanning iter => simp [place, Place.free] at free
        | calling node =>
            simp only [place] at placed
            obtain ⟨first, rest, map, due, fired⟩ := placed
            simp only [next]
            refine ⟨first, insert entry rest, ?_, due.trans clock, fired⟩
            rw [map, insert, if_pos (by simp only [entry]; omega)] }

theorem Inv.delTimeout_filter {taken : TimerMap} {s : State} (inv : Inv taken s) {timeout node : Nat}
    (isTimeout : s.timeouts[node]? = some timeout) :
    delTimeout s.timerMap timeout node = s.timerMap.filter fun entry => entry.2 ≠ node := by
  rw [delTimeout_eraseP inv.sorted, eraseP_filter inv.distinct_map]
  rintro entry member rfl
  have known := inv.known entry (List.mem_append_right _ member)
  rw [isTimeout, Option.some.injEq] at known
  exact known.symm

theorem delTimeout_inv {taken : TimerMap} {s : State} {node : Nat} (inv : Inv taken s)
    (meets : Meets s (.delTimeout node)) :
    ∃ next, step s (.delTimeout node) = some next ∧ Inv taken next ∧
      next.timerMap = s.timerMap.filter fun entry => entry.2 ≠ node := by
  obtain ⟨free, other, known⟩ := meets
  have isTimeout := List.getElem?_eq_getElem known
  let next : State :=
    { s with
      timerMap := s.timerMap.filter fun entry => entry.2 ≠ node
      deleted := if node ∈ s.fired.map Firing.node then s.deleted else s.deleted ++ [node] }
  have stepped : step s (.delTimeout node) = some next := by
    simp [step, free, other, known, inv.delTimeout_filter isTimeout, next]
  have fewer : (taken ++ s.timerMap.filter fun entry => entry.2 ≠ node).Sublist (taken ++ s.timerMap) :=
    (List.Sublist.refl taken).append List.filter_sublist
  have firedTaken := inv.fired_taken other
  refine ⟨next, stepped, ?_, rfl⟩
  exact
    { order := inv.order.sublist fewer
      known := fun entry member => inv.known entry (fewer.subset member)
      past := inv.past
      due := inv.due
      deleted := by
        have old : ∀ x ∈ s.deleted, x < s.timeouts.length ∧ x ∉ (taken ++ next.timerMap).map Prod.snd := by
          intro x member
          obtain ⟨made, outside⟩ := inv.deleted x member
          exact ⟨made, fun inside => outside ((fewer.map Prod.snd).subset inside)⟩
        intro x member
        simp only [next] at member
        split at member
        · exact old x member
        · rename_i notFired
          rcases List.mem_append.mp member with before | now
          · exact old x before
          · obtain rfl := List.mem_singleton.mp now
            refine ⟨known, ?_⟩
            rw [List.map_append, List.mem_append, not_or]
            exact ⟨fun inside => notFired (firedTaken.mpr inside), by simp [next]⟩
      complete := by
        intro x made
        by_cases same : x = node
        · subst same
          by_cases fired : x ∈ s.fired.map Firing.node
          · left
            rw [List.map_append]
            exact List.mem_append_left _ (firedTaken.mp fired)
          · right
            simp [next, fired]
        · rcases inv.complete x made with inside | wasDeleted
          · left
            obtain ⟨entry, member, rfl⟩ := List.mem_map.mp inside
            refine List.mem_map_of_mem ?_
            rcases List.mem_append.mp member with early | waiting
            · exact List.mem_append_left _ early
            · exact List.mem_append_right _ (List.mem_filter.mpr ⟨waiting, by simpa using same⟩)
          · right
            simp only [next]
            split
            · exact wasDeleted
            · exact List.mem_append_left _ wasDeleted
      placed := by
        have placed := inv.placed
        cases place : s.place with
        | outside => simpa [place, next] using placed
        | scanning iter => simp [place, Place.free] at free
        | calling iter =>
            simp only [place] at placed
            obtain ⟨first, rest, map, due, fired⟩ := placed
            simp only [next]
            have apart : iter ≠ node := by
              rintro rfl
              exact other place
            refine ⟨first, rest.filter fun entry => entry.2 ≠ node, ?_, due, fired⟩
            rw [map, List.filter_cons_of_pos (by simpa using apart)] }

theorem handleTimeout_inv {taken : TimerMap} {s : State} (inv : Inv taken s) (meets : Meets s .handleTimeout) :
    ∃ next, step s .handleTimeout = some next ∧ Inv taken next := by
  have outside : s.place = .outside := meets
  have fired : s.fired.map Firing.entry = taken := by simpa [outside] using inv.placed
  exact ⟨_, if_pos outside, { inv with placed := ⟨fired, rfl⟩ }⟩

theorem test_inv {taken : TimerMap} {s : State} {now : Nat} (inv : Inv taken s) (meets : Meets s (.test now)) :
    ∃ next, step s (.test now) = some next ∧ Inv taken next ∧
      (next.place = .outside → ∀ entry ∈ next.timerMap, next.clock < entry.1) := by
  obtain ⟨scanning, clock⟩ := meets
  have placed := inv.placed
  cases place : s.place with
  | outside => simp [place, Place.free] at scanning
  | calling node => simp [place, Place.free] at scanning
  | scanning iter =>
      simp only [place] at placed clock
      obtain ⟨fired, begin_⟩ := placed
      cases map : s.timerMap with
      | nil =>
          obtain rfl : iter = none := by simpa [map] using begin_
          refine ⟨{ s with place := .outside }, by simp [step, place], { inv with placed := fired }, ?_⟩
          simp [map]
      | cons head rest =>
          obtain ⟨first, node⟩ := head
          obtain rfl : iter = some node := by simpa [map] using begin_
          have read : s.clock ≤ now := by simpa using clock
          have isFirst : deadline s.timerMap node = some first := by rw [map, deadline_head]
          by_cases due : first ≤ now
          · let next : State :=
              { s with place := .calling node, clock := now, fired := s.fired ++ [⟨first, node, now⟩] }
            have stepped : step s (.test now) = some next := by simp [step, place, isFirst, due, next]
            refine ⟨next, stepped, ?_, by simp [next]⟩
            exact
              { inv with
                past := fun entry member => (inv.past entry member).trans read
                due := by
                  intro firing member
                  rcases List.mem_append.mp member with before | here
                  · exact inv.due firing before
                  · rw [List.mem_singleton.mp here]
                    exact due
                placed := ⟨first, rest, map, due, by simp [next, fired, Firing.entry]⟩ }
          · let next : State := { s with place := .outside, clock := now }
            have stepped : step s (.test now) = some next := by simp [step, place, isFirst, due, next]
            refine ⟨next, stepped, ?_, ?_⟩
            · exact
                { inv with
                  past := fun entry member => (inv.past entry member).trans read
                  placed := fired }
            · intro _ entry member
              have sorted := inv.sorted
              rw [map] at sorted
              simp only [next, map] at member ⊢
              rcases List.mem_cons.mp member with rfl | later
              · omega
              · have le := (List.pairwise_cons.mp sorted).1 entry later
                simp only at le
                omega

theorem callbackDone_inv {taken : TimerMap} {s : State} (inv : Inv taken s) (meets : Meets s .callbackDone) :
    ∃ next taken', step s .callbackDone = some next ∧ Inv taken' next := by
  obtain ⟨free, inside⟩ := meets
  have placed := inv.placed
  cases place : s.place with
  | outside => exact absurd place inside
  | scanning iter => simp [place, Place.free] at free
  | calling node =>
      simp only [place] at placed
      obtain ⟨first, rest, map, due, fired⟩ := placed
      let next : State := { s with timerMap := rest, place := .scanning (rest.head?.map Prod.snd) }
      have stepped : step s .callbackDone = some next := by
        simp [step, place, map, deadline_head, following, next]
      have same : taken ++ [(first, node)] ++ rest = taken ++ s.timerMap := by simp [map]
      refine ⟨next, taken ++ [(first, node)], stepped, ?_⟩
      exact
        { order := by
            rw [same]
            exact inv.order
          known := by
            rw [same]
            exact inv.known
          past := by
            intro entry member
            rcases List.mem_append.mp member with before | last
            · exact inv.past entry before
            · rw [List.mem_singleton.mp last]
              exact due
          due := inv.due
          deleted := by
            rw [same]
            exact inv.deleted
          complete := by
            rw [same]
            exact inv.complete
          placed := ⟨fired, rfl⟩ }

theorem step_timeouts {s next : State} {event : Event} (meets : Meets s event) (stepped : step s event = some next) :
    next.timeouts = s.timeouts ++ deadlines [event] := by
  cases event with
  | addTimeout now diff =>
      obtain ⟨free, -, fits⟩ := meets
      rw [step, if_pos free] at stepped
      obtain rfl := Option.some.inj stepped
      simp [deadlines, add_exact fits]
  | delTimeout node =>
      obtain ⟨free, other, -⟩ := meets
      rw [step, if_pos ⟨free, other⟩] at stepped
      obtain ⟨timeout, -, final⟩ := Option.bind_eq_some_iff.mp stepped
      obtain rfl := Option.some.inj final
      simp [deadlines]
  | handleTimeout =>
      have outside : s.place = .outside := meets
      rw [step, if_pos outside] at stepped
      obtain rfl := Option.some.inj stepped
      simp [deadlines]
  | test now =>
      rw [step] at stepped
      split at stepped
      · obtain rfl := Option.some.inj stepped
        simp [deadlines]
      · obtain ⟨first, -, final⟩ := Option.bind_eq_some_iff.mp stepped
        split at final <;> (obtain rfl := Option.some.inj final; simp [deadlines])
      · cases stepped
  | callbackDone =>
      rw [step] at stepped
      split at stepped
      · obtain ⟨first, -, final⟩ := Option.bind_eq_some_iff.mp stepped
        obtain rfl := Option.some.inj final
        simp [deadlines]
      · cases stepped

theorem step_inv {taken : TimerMap} {s : State} {event : Event} (inv : Inv taken s) (meets : Meets s event) :
    ∃ next taken', step s event = some next ∧ Inv taken' next := by
  cases event with
  | addTimeout now diff =>
      obtain ⟨next, stepped, kept⟩ := addTimeout_inv inv meets
      exact ⟨next, taken, stepped, kept⟩
  | delTimeout node =>
      obtain ⟨next, stepped, kept, -⟩ := delTimeout_inv inv meets
      exact ⟨next, taken, stepped, kept⟩
  | handleTimeout =>
      obtain ⟨next, stepped, kept⟩ := handleTimeout_inv inv meets
      exact ⟨next, taken, stepped, kept⟩
  | test now =>
      obtain ⟨next, stepped, kept, -⟩ := test_inv inv meets
      exact ⟨next, taken, stepped, kept⟩
  | callbackDone => exact callbackDone_inv inv meets

theorem run_inv {events : List Event} (met : Along step Meets State.initial events) :
    ∃ s taken, run step State.initial events = some s ∧ Inv taken s ∧ s.timeouts = deadlines events := by
  have initial : (∃ taken, Inv taken State.initial) ∧ State.initial.timeouts = deadlines [] :=
    ⟨⟨[], initial_inv⟩, rfl⟩
  obtain ⟨s, ran, ⟨taken, inv⟩, timeouts⟩ := run_total
    (fun past s => (∃ taken, Inv taken s) ∧ s.timeouts = deadlines past)
    (fun past s event kept meets => by
      obtain ⟨⟨taken, inv⟩, timeouts⟩ := kept
      obtain ⟨next, taken', stepped, kept⟩ := step_inv inv meets
      refine ⟨next, stepped, ⟨taken', kept⟩, ?_⟩
      rw [step_timeouts meets stepped, timeouts, deadlines, deadlines, deadlines, List.filterMap_append])
    initial met
  exact ⟨s, taken, ran, inv, timeouts⟩

structure InOrder (events : List Event) (s : State) : Prop where
  never_early : ∀ firing ∈ s.fired,
    (deadlines events)[firing.node]? = some firing.deadline ∧ firing.deadline ≤ firing.clock
  once : (s.fired.map Firing.node).Nodup
  order : s.fired.Pairwise fun firing later => Earlier firing.entry later.entry
  deleted : ∀ node ∈ s.deleted, node ∉ s.fired.map Firing.node
  none_lost : ∀ node < (deadlines events).length,
    node ∈ s.timerMap.map Prod.snd ∨ node ∈ s.fired.map Firing.node ∨ node ∈ s.deleted
  paths : ∀ entry, emplaceHintEnd entry s.timerMap = insert entry s.timerMap
  others_stay : ∀ node, Meets s (.delTimeout node) →
    ∃ next, step s (.delTimeout node) = some next ∧ next.timerMap = s.timerMap.filter fun entry => entry.2 ≠ node
  none_due : ∀ now, Meets s (.test now) →
    ∃ next, step s (.test now) = some next ∧
      (next.place = .outside → ∀ entry ∈ next.timerMap, next.clock < entry.1)

theorem handleTimeout_inOrder (events : List Event) (met : Along step Meets State.initial events) :
    ∃ s, run step State.initial events = some s ∧ InOrder events s := by
  obtain ⟨s, taken, ran, inv, timeouts⟩ := run_inv met
  refine ⟨s, ran, ?_⟩
  exact
    { never_early := by
        intro firing member
        rw [← timeouts]
        exact ⟨inv.known firing.entry (inv.fired_sublist.subset (List.mem_map_of_mem member)), inv.due firing member⟩
      once := by
        rw [fired_nodes]
        exact inv.distinct.sublist (inv.fired_sublist.map Prod.snd)
      order := List.pairwise_map.mp (inv.order.sublist inv.fired_sublist)
      deleted := by
        intro node member fired
        rw [fired_nodes] at fired
        exact (inv.deleted node member).2 ((inv.fired_sublist.map Prod.snd).subset fired)
      none_lost := by
        intro node made
        rw [← timeouts] at made
        rcases inv.complete node made with inside | wasDeleted
        · rw [List.map_append, List.mem_append] at inside
          rcases inside with gone | waiting
          · obtain ⟨current, fired, -⟩ := inv.fired_split
            rw [fired_nodes, fired, List.map_append]
            exact .inr (.inl (List.mem_append_left _ gone))
          · exact .inl waiting
        · exact .inr (.inr wasDeleted)
      paths := fun entry => emplaceHintEnd_insert inv.sorted entry
      others_stay := by
        intro node meets
        obtain ⟨next, stepped, -, map⟩ := delTimeout_inv inv meets
        exact ⟨next, stepped, map⟩
      none_due := by
        intro now meets
        obtain ⟨next, stepped, -, later⟩ := test_inv inv meets
        exact ⟨next, stepped, later⟩ }

-- The callback of the first timer deletes the third, starts one that is due at once and one that is not. The two
-- timers of the deadline 110 fire in the order in which they were added, one of them by a later call.
def rescheduling : List Event :=
  [.addTimeout 100 10, .addTimeout 100 5, .addTimeout 101 20, .handleTimeout, .test 106, .delTimeout 2,
    .addTimeout 106 0, .addTimeout 106 4, .callbackDone, .test 107, .callbackDone, .test 108, .handleTimeout,
    .test 112, .callbackDone, .test 112, .callbackDone, .test 112]

theorem handleTimeout_inOrder_rescheduling :
    ∃ s, run step State.initial rescheduling = some s ∧ InOrder rescheduling s ∧
      s.fired = [⟨105, 1, 106⟩, ⟨106, 3, 107⟩, ⟨110, 0, 112⟩, ⟨110, 4, 112⟩] ∧ s.deleted = [2] ∧ s.timerMap = [] := by
  have met : Along step Meets State.initial rescheduling := by decide
  have results : (run step State.initial rescheduling).map (fun s => (s.fired, s.deleted, s.timerMap)) =
      some ([⟨105, 1, 106⟩, ⟨106, 3, 107⟩, ⟨110, 0, 112⟩, ⟨110, 4, 112⟩], [2], []) := by
    decide
  obtain ⟨s, ran, inOrder⟩ := handleTimeout_inOrder rescheduling met
  rw [ran, Option.map_some, Option.some.injEq] at results
  simp only [Prod.mk.injEq] at results
  exact ⟨s, ran, inOrder, results⟩

end CppInfra.NetworkTimer.Timer.Handling
