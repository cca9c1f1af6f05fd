import CppInfra.Timer.RbtTimer
import Mathlib.Data.List.TakeWhile

set_option autoImplicit false

namespace CppInfra.Timer.RbtTimer

open Words

def Within (now : Nat) (order : List TimerEntry) : Prop :=
  ∀ entry ∈ order, entry.key < 2 ^ 32 ∧ -2 ^ 30 ≤ remaining now entry ∧ remaining now entry ≤ 2 ^ 30

def Sorted (now : Nat) (order : List TimerEntry) : Prop :=
  order.Pairwise fun first second => remaining now first ≤ remaining now second

theorem Placed.sorted {now : Nat} {order : List TimerEntry} (placed : Placed order) (within : Within now order)
    (word : now < 2 ^ 32) : Sorted now order := by
  apply List.Pairwise.imp_of_mem _ placed
  intro first second left right kept
  obtain ⟨keyF, lowF, highF⟩ := within first left
  obtain ⟨keyS, lowS, highS⟩ := within second right
  by_contra smaller
  have taken := (before_window word keyS keyF (by omega) (by omega)).mpr (by omega)
  rw [taken] at kept
  cases kept

theorem remaining_injective {now : Nat} {x y : TimerEntry} (left : x.key < 2 ^ 32) (right : y.key < 2 ^ 32)
    (word : now < 2 ^ 32) (same : remaining now x = remaining now y) : x.key = y.key := by
  have keyX := remaining_cases left word
  have keyY := remaining_cases right word
  omega

theorem insertTimerValue_perm (tree : Tree) (node : TimerEntry) :
    (ngxRbtreeInsertTimerValue tree node).order.Perm (node :: tree.order) := by
  induction tree with
  | sentinel => exact List.Perm.refl _
  | node left temp right ihLeft ihRight =>
      rw [ngxRbtreeInsertTimerValue]
      split
      · exact ihLeft.append_right _
      · have moved := (ihRight.cons temp).append_left left.order
        have swapped := (List.Perm.swap node temp right.order).append_left left.order
        exact (moved.trans swapped).trans List.perm_middle

theorem insertTimerValue_sorted {now : Nat} {tree : Tree} {node : TimerEntry} (sorted : Sorted now tree.order)
    (compares : ∀ temp ∈ tree.order, before node temp = true ↔ remaining now node < remaining now temp) :
    Sorted now (ngxRbtreeInsertTimerValue tree node).order := by
  induction tree with
  | sentinel => exact List.pairwise_singleton ..
  | node left temp right ihLeft ihRight =>
      obtain ⟨sortedLeft, sortedRest, across⟩ := List.pairwise_append.mp sorted
      obtain ⟨behind, sortedRight⟩ := List.pairwise_cons.mp sortedRest
      have here := compares temp (by simp [Tree.order])
      rw [ngxRbtreeInsertTimerValue]
      split
      · rename_i less
        have inserted := ihLeft sortedLeft fun x member => compares x (by simp [Tree.order, member])
        refine List.pairwise_append.mpr ⟨inserted, sortedRest, ?_⟩
        intro x early y late
        rcases List.mem_cons.mp ((insertTimerValue_perm left node).mem_iff.mp early) with rfl | old
        · have first := here.mp less
          rcases List.mem_cons.mp late with rfl | later
          · omega
          · have next := behind y later
            omega
        · exact across x old y late
      · rename_i greater
        have inserted := ihRight sortedRight fun x member => compares x (by simp [Tree.order, member])
        refine List.pairwise_append.mpr ⟨sortedLeft, List.pairwise_cons.mpr ⟨?_, inserted⟩, ?_⟩
        · intro x later
          rcases List.mem_cons.mp ((insertTimerValue_perm right node).mem_iff.mp later) with rfl | old
          · have order := mt here.mpr greater
            omega
          · exact behind x old
        · intro x early y late
          have toTemp := across x early temp (List.mem_cons_self ..)
          rcases List.mem_cons.mp late with rfl | later
          · exact toTemp
          · rcases List.mem_cons.mp ((insertTimerValue_perm right node).mem_iff.mp later) with rfl | old
            · have order := mt here.mpr greater
              omega
            · exact across x early y (List.mem_cons_of_mem temp old)

theorem expireTimer_spec (nginx : Nginx) (now : Nat) (order : List TimerEntry) (tree : Tree)
    (shape : tree.order = order) :
    ∃ rest, rest.order = order.dropWhile (fun entry => entry.key ≤ now) ∧
      ∀ turns, order.length < turns →
        expireTimer nginx now turns tree = some (order.takeWhile (fun entry => entry.key ≤ now), rest) := by
  induction order generalizing tree with
  | nil =>
      refine ⟨tree, shape, ?_⟩
      intro turns enough
      obtain ⟨turns, rfl⟩ := Nat.exists_eq_succ_of_ne_zero (Nat.ne_of_gt enough)
      rw [expireTimer, ngxRbtreeMin_eq, shape]
      rfl
  | cons entry later ih =>
      by_cases due : entry.key ≤ now
      · have deleted : (nginx.delete tree entry).order = later := by
          rw [nginx.delete_order tree entry (by rw [shape]; exact List.mem_cons_self ..), shape]
          exact List.erase_cons_head ..
        obtain ⟨rest, left, ran⟩ := ih (nginx.delete tree entry) deleted
        refine ⟨rest, by simp [due, left], ?_⟩
        intro turns enough
        obtain ⟨turns, rfl⟩ := Nat.exists_eq_succ_of_ne_zero (Nat.ne_of_gt (Nat.zero_lt_of_lt enough))
        have again := ran turns (by simpa using enough)
        rw [expireTimer, ngxRbtreeMin_eq, shape]
        simp only [List.head?_cons, show ¬ entry.key > now by omega, if_false, again]
        simp [due]
      · refine ⟨tree, by simp [due, shape], ?_⟩
        intro turns enough
        obtain ⟨turns, rfl⟩ := Nat.exists_eq_succ_of_ne_zero (Nat.ne_of_gt (Nat.zero_lt_of_lt enough))
        rw [expireTimer, ngxRbtreeMin_eq, shape]
        simp only [List.head?_cons, show entry.key > now by omega, if_true]
        simp [due]

structure RunsDue (now : Nat) (pending ran rest : List TimerEntry) : Prop where
  due : ran.Perm (pending.filter fun entry => remaining now entry ≤ 0)
  order : Sorted now ran
  left : rest.Perm (pending.filter fun entry => 0 < remaining now entry)

-- The unsigned comparison of `expire_timer` agrees with the remaining time where it matters: on every due
-- timer, and on those due next.
structure Agrees (now : Nat) (pending : List TimerEntry) : Prop where
  due : ∀ entry ∈ pending, remaining now entry ≤ 0 → entry.key ≤ now
  next : ∀ entry ∈ pending, 0 < remaining now entry →
    (∀ other ∈ pending, 0 < remaining now other → remaining now entry ≤ remaining now other) → now < entry.key

theorem takeWhile_through {p : TimerEntry → Bool} {first : List TimerEntry} (later : List TimerEntry)
    {entry : TimerEntry} (all : ∀ x ∈ first, p x = true) (here : p entry = true) :
    entry ∈ (first ++ entry :: later).takeWhile p := by
  rw [List.takeWhile_append_of_pos all, List.takeWhile_cons_of_pos here]
  simp

theorem RunsDue.agrees {now : Nat} {order rest : List TimerEntry} (word : now < 2 ^ 32) (within : Within now order)
    (sorted : Sorted now order)
    (runs : RunsDue now order (order.takeWhile fun entry => entry.key ≤ now) rest) : Agrees now order := by
  have ranDue : ∀ entry ∈ order, remaining now entry ≤ 0 → entry.key ≤ now := by
    intro entry member due
    have ran := runs.due.mem_iff.mpr (List.mem_filter.mpr ⟨member, decide_eq_true due⟩)
    have holds := List.mem_takeWhile_imp ran
    exact of_decide_eq_true holds
  refine ⟨ranDue, ?_⟩
  intro entry member ahead least
  by_contra early
  obtain ⟨first, later, rfl⟩ := List.append_of_mem member
  have reached : ∀ x ∈ first, decide (x.key ≤ now) = true := by
    intro x front
    have inside : x ∈ first ++ entry :: later := List.mem_append_left _ front
    apply decide_eq_true
    by_cases due : remaining now x ≤ 0
    · exact ranDue x inside due
    · have future : 0 < remaining now x := by omega
      have below := (List.pairwise_append.mp sorted).2.2 x front entry (List.mem_cons_self ..)
      have above := least x inside future
      have same := remaining_injective (within x inside).1 (within entry member).1 word (by omega)
      omega
  have ran := takeWhile_through later reached (decide_eq_true (show entry.key ≤ now by omega))
  have due := (List.mem_filter.mp (runs.due.mem_iff.mp ran)).2
  have contradiction := of_decide_eq_true due
  omega

theorem filter_takeWhile_sorted {now : Nat} {order : List TimerEntry} (sorted : Sorted now order) :
    order.filter (fun entry => remaining now entry ≤ 0) = order.takeWhile (fun entry => remaining now entry ≤ 0) ∧
      order.filter (fun entry => 0 < remaining now entry) =
        order.dropWhile (fun entry => remaining now entry ≤ 0) := by
  induction order with
  | nil => exact ⟨rfl, rfl⟩
  | cons entry later ih =>
      obtain ⟨behind, rest⟩ := List.pairwise_cons.mp sorted
      by_cases due : remaining now entry ≤ 0
      · have notAhead : ¬ 0 < remaining now entry := by omega
        simp [due, notAhead, ih rest]
      · have ahead : 0 < remaining now entry := by omega
        have all : ∀ x ∈ later, 0 < remaining now x := by
          intro x member
          have order := behind x member
          omega
        constructor
        · simp only [due, decide_false, Bool.false_eq_true, not_false_eq_true, List.filter_cons_of_neg,
            List.takeWhile_cons_of_neg, List.filter_eq_nil_iff, decide_eq_true_eq]
          intro x member
          have order := all x member
          omega
        · simp only [ahead, due, decide_true, decide_false, Bool.false_eq_true, not_false_eq_true,
            List.filter_cons_of_pos, List.dropWhile_cons_of_neg, List.cons.injEq, true_and, List.filter_eq_self,
            decide_eq_true_eq]
          exact all

theorem Agrees.split {now : Nat} {order : List TimerEntry} (sorted : Sorted now order) (agrees : Agrees now order) :
    order.takeWhile (fun entry => entry.key ≤ now) = order.takeWhile (fun entry => remaining now entry ≤ 0) ∧
      order.dropWhile (fun entry => entry.key ≤ now) = order.dropWhile (fun entry => remaining now entry ≤ 0) := by
  have whole := List.takeWhile_append_dropWhile (p := fun entry => decide (remaining now entry ≤ 0)) (l := order)
  have pass : ∀ x ∈ order.takeWhile (fun entry => remaining now entry ≤ 0), decide (x.key ≤ now) = true := by
    intro x member
    have due := List.mem_takeWhile_imp member
    exact decide_eq_true (agrees.due x ((List.takeWhile_prefix _).mem member) (of_decide_eq_true due))
  obtain ⟨-, ahead⟩ := filter_takeWhile_sorted sorted
  have restSorted : Sorted now (order.dropWhile fun entry => remaining now entry ≤ 0) :=
    sorted.sublist (List.dropWhile_sublist _)
  generalize order.takeWhile (fun entry => decide (remaining now entry ≤ 0)) = first at whole pass ⊢
  generalize order.dropWhile (fun entry => decide (remaining now entry ≤ 0)) = rest at whole ahead restSorted ⊢
  rw [← whole, List.takeWhile_append_of_pos pass, List.dropWhile_append_of_pos pass]
  cases rest with
  | nil => simp
  | cons entry later =>
      have future : ∀ x, x ∈ entry :: later ↔ x ∈ order ∧ 0 < remaining now x := by
        intro x
        rw [← ahead, List.mem_filter, decide_eq_true_eq]
      have least : ∀ x ∈ order, 0 < remaining now x → remaining now entry ≤ remaining now x := by
        intro x member positive
        rcases List.mem_cons.mp ((future x).mpr ⟨member, positive⟩) with rfl | behind
        · exact Int.le_refl _
        · exact (List.pairwise_cons.mp restSorted).1 x behind
      obtain ⟨member, positive⟩ := (future entry).mp (List.mem_cons_self ..)
      have stop := agrees.next entry member positive least
      simp [show ¬ entry.key ≤ now by omega]

theorem Agrees.runsDue {now : Nat} {order : List TimerEntry} (sorted : Sorted now order) (agrees : Agrees now order) :
    RunsDue now order (order.takeWhile fun entry => entry.key ≤ now)
      (order.dropWhile fun entry => entry.key ≤ now) := by
  obtain ⟨taken, left⟩ := agrees.split sorted
  obtain ⟨due, ahead⟩ := filter_takeWhile_sorted sorted
  rw [taken, left]
  refine ⟨by rw [due], ?_, by rw [ahead]⟩
  exact sorted.sublist (List.takeWhile_sublist _)

def addTimers (nginx : Nginx) (entries : List TimerEntry) : Tree :=
  entries.foldl (ngxRbtreeInsert nginx) .sentinel

theorem ngxRbtreeInsert_order (nginx : Nginx) (tree : Tree) (node : TimerEntry) :
    (ngxRbtreeInsert nginx tree node).order = (ngxRbtreeInsertTimerValue tree node).order := by
  cases tree with
  | sentinel => rfl
  | node left temp right => exact nginx.balance_order _

def Narrow (now : Nat) (order : List TimerEntry) : Prop :=
  ∀ entry ∈ order, entry.key < 2 ^ 32 ∧ -2 ^ 30 ≤ remaining now entry ∧ remaining now entry < 2 ^ 30

theorem Narrow.compares {now : Nat} {order : List TimerEntry} (narrow : Narrow now order) (word : now < 2 ^ 32)
    {x y : TimerEntry} (left : x ∈ order) (right : y ∈ order) :
    before x y = true ↔ remaining now x < remaining now y := by
  obtain ⟨keyX, lowX, highX⟩ := narrow x left
  obtain ⟨keyY, lowY, highY⟩ := narrow y right
  exact before_window word keyX keyY (by omega) (by omega)

theorem addTimers_perm (nginx : Nginx) (entries : List TimerEntry) (tree : Tree) :
    (entries.foldl (ngxRbtreeInsert nginx) tree).order.Perm (tree.order ++ entries) := by
  induction entries generalizing tree with
  | nil => simp
  | cons entry entries ih =>
      have inserted : (ngxRbtreeInsert nginx tree entry).order.Perm (entry :: tree.order) := by
        rw [ngxRbtreeInsert_order]
        exact insertTimerValue_perm tree entry
      have rest := (ih (ngxRbtreeInsert nginx tree entry)).trans (inserted.append_right entries)
      exact rest.trans List.perm_middle.symm

theorem addTimers_sorted (nginx : Nginx) {now : Nat} (word : now < 2 ^ 32) (entries : List TimerEntry) (tree : Tree)
    (narrow : Narrow now (tree.order ++ entries)) (sorted : Sorted now tree.order) :
    Sorted now (entries.foldl (ngxRbtreeInsert nginx) tree).order := by
  induction entries generalizing tree with
  | nil => exact sorted
  | cons entry entries ih =>
      have order := ngxRbtreeInsert_order nginx tree entry
      have members := (insertTimerValue_perm tree entry).append_right entries
      apply ih
      · intro x member
        rw [order] at member
        exact narrow x (List.perm_middle.mem_iff.mpr (members.mem_iff.mp member))
      · rw [order]
        apply insertTimerValue_sorted sorted
        intro temp member
        exact narrow.compares word (by simp) (List.mem_append_left _ member)

theorem addTimers_placed (nginx : Nginx) {now : Nat} (word : now < 2 ^ 32) (entries : List TimerEntry)
    (narrow : Narrow now entries) : Placed (addTimers nginx entries).order := by
  have sorted := addTimers_sorted nginx word entries .sentinel narrow List.Pairwise.nil
  have members := addTimers_perm nginx entries .sentinel
  apply List.Pairwise.imp_of_mem _ sorted
  intro first second left right kept
  have compares := narrow.compares word (members.mem_iff.mp right) (members.mem_iff.mp left)
  apply Bool.eq_false_iff.mpr
  intro taken
  have smaller := compares.mp taken
  omega

theorem rbtTimer_expire (nginx : Nginx) (tree : Tree) (now : Nat) (word : now < 2 ^ 32) (placed : Placed tree.order)
    (within : Within now tree.order) :
    ∃ ran rest, (∀ turns, tree.order.length < turns → expireTimer nginx now turns tree = some (ran, rest)) ∧
      (RunsDue now tree.order ran rest.order ↔ Agrees now tree.order) := by
  have sorted := placed.sorted within word
  obtain ⟨rest, left, ran⟩ := expireTimer_spec nginx now tree.order tree rfl
  refine ⟨tree.order.takeWhile fun entry => entry.key ≤ now, rest, ran, ?_⟩
  constructor
  · intro runs
    exact runs.agrees word within sorted
  · intro agrees
    rw [left]
    exact agrees.runsDue sorted

def spine : List TimerEntry → Tree
  | [] => .sentinel
  | entry :: later => .node .sentinel entry (spine later)

theorem spine_order (order : List TimerEntry) : (spine order).order = order := by
  induction order with
  | nil => rfl
  | cons entry later ih => simp [spine, Tree.order, ih]

def unbalanced : Nginx where
  balance := id
  delete tree entry := spine (tree.order.erase entry)
  balance_order _ := rfl
  delete_order tree entry _ := spine_order (tree.order.erase entry)

theorem rbtTimer_expire_due :
    ∃ ran rest, (∀ turns, 3 < turns → expireTimer unbalanced 1000 turns
        (addTimers unbalanced [⟨1007, 0⟩, ⟨1000, 1⟩, ⟨996, 2⟩]) = some (ran, rest)) ∧
      RunsDue 1000 [⟨996, 2⟩, ⟨1000, 1⟩, ⟨1007, 0⟩] ran rest.order := by
  have narrow : Narrow 1000 [⟨1007, 0⟩, ⟨1000, 1⟩, ⟨996, 2⟩] := by
    rw [Narrow]
    decide
  have placed := addTimers_placed unbalanced (by decide) _ narrow
  obtain ⟨ran, rest, runs, correct⟩ := rbtTimer_expire unbalanced
    (addTimers unbalanced [⟨1007, 0⟩, ⟨1000, 1⟩, ⟨996, 2⟩]) 1000 (by decide) placed (by rw [Within]; decide)
  refine ⟨ran, rest, runs, correct.mpr ⟨?_, ?_⟩⟩
  · decide
  · decide

-- A timer added 15 ms ahead, ten milliseconds before the clock wraps, gets the key 5: it is placed as a timer of the
-- future and runs at once.
theorem rbtTimer_expire_wrapped :
    Placed (addTimer unbalanced .sentinel 15 (2 ^ 32 - 10) 0).order ∧
      Within (2 ^ 32 - 10) (addTimer unbalanced .sentinel 15 (2 ^ 32 - 10) 0).order ∧
      (addTimer unbalanced .sentinel 15 (2 ^ 32 - 10) 0).order.map (remaining (2 ^ 32 - 10)) = [15] ∧
      ∃ ran rest, expireTimer unbalanced (2 ^ 32 - 10) 2 (addTimer unbalanced .sentinel 15 (2 ^ 32 - 10) 0) =
          some (ran, rest) ∧ ran = [⟨5, 0⟩] ∧
        ¬ RunsDue (2 ^ 32 - 10) (addTimer unbalanced .sentinel 15 (2 ^ 32 - 10) 0).order ran rest.order := by
  refine ⟨List.pairwise_singleton .., by rw [Within]; decide, by decide, [⟨5, 0⟩], .sentinel, by decide, rfl, ?_⟩
  intro runs
  have due := runs.due.length_eq
  revert due
  decide

end CppInfra.Timer.RbtTimer
