import Mathlib.Logic.Equiv.Basic
import Mathlib.Data.List.Perm.Basic
import Mathlib.Data.List.Nodup
import Mathlib.Order.Lattice

set_option autoImplicit false

-- `cells` is the content with the travelling entry put in the hole; a move of a sift swaps it with a neighbour.
namespace CppInfra.BinaryHeap

variable {E K : Type*} [LinearOrder K] {key : E → K} {cells : Nat → Option E} {n hole : Nat}

def parent (i : Nat) : Nat := (i - 1) / 2

theorem parent_lt {i : Nat} (positive : 0 < i) : parent i < i := by
  unfold parent
  omega

def Below (key : E → K) (cells : Nat → Option E) (i j : Nat) : Prop :=
  ∀ x y, cells i = some x → cells j = some y → key x ≤ key y

def Ordered (key : E → K) (cells : Nat → Option E) (n : Nat) : Prop :=
  ∀ i, 0 < i → i < n → Below key cells (parent i) i

structure Around (key : E → K) (cells : Nat → Option E) (n hole : Nat) : Prop where
  apart : ∀ i, 0 < i → i < n → i ≠ hole → parent i ≠ hole → Below key cells (parent i) i
  across : 0 < hole → ∀ i, 0 < i → i < n → parent i = hole → Below key cells (parent hole) i

-- Only the edge into the hole may be out of order.
structure UpOrdered (key : E → K) (cells : Nat → Option E) (n hole : Nat) : Prop
    extends Around key cells n hole where
  children : ∀ i, 0 < i → i < n → parent i = hole → Below key cells hole i

structure DownOrdered (key : E → K) (cells : Nat → Option E) (n hole : Nat) : Prop
    extends Around key cells n hole where
  above : 0 < hole → hole < n → Below key cells (parent hole) hole

theorem Ordered.above {i : Nat} (ordered : Ordered key cells n) (full : ∀ i < n, ∃ x, cells i = some x)
    (inside : i < n) : Below key cells 0 i := by
  induction i using Nat.strongRecOn with
  | ind i ih =>
      intro x y root at_
      by_cases isRoot : i = 0
      · subst isRoot
        obtain rfl : x = y := Option.some.inj (root.symm.trans at_)
        exact le_rfl
      · have less := parent_lt (Nat.pos_of_ne_zero isRoot)
        obtain ⟨z, between⟩ := full (parent i) (by omega)
        calc key x ≤ key z := ih (parent i) less (by omega) x z root between
          _ ≤ key y := ordered i (Nat.pos_of_ne_zero isRoot) inside z y between at_

theorem Ordered.shrink {m : Nat} (ordered : Ordered key cells n) (less : m ≤ n) : Ordered key cells m :=
  fun i positive bound => ordered i positive (by omega)

theorem Ordered.append (ordered : Ordered key cells n) (e : E) :
    UpOrdered key (Function.update cells n (some e)) (n + 1) n := by
  have childless (i : Nat) (positive : 0 < i) (bound : i < n + 1) : parent i ≠ n := by
    have := parent_lt positive
    omega
  refine ⟨⟨?_, ?_⟩, ?_⟩
  · intro i positive bound notLast notChild x y above at_
    rw [Function.update_of_ne notChild] at above
    rw [Function.update_of_ne notLast] at at_
    exact ordered i positive (by omega) x y above at_
  · intro _ i positive bound isChild
    exact absurd isChild (childless i positive bound)
  · intro i positive bound isChild
    exact absurd isChild (childless i positive bound)

theorem Ordered.around {key' : E → K} (ordered : Ordered key cells n) (full : ∀ i < n, ∃ x, cells i = some x)
    (inside : hole < n) (same : ∀ i x, i < n → i ≠ hole → cells i = some x → key' x = key x) (e : E) :
    Around key' (Function.update cells hole (some e)) n hole := by
  constructor
  · intro i positive bound notHole notChild x y above at_
    have := parent_lt positive
    rw [Function.update_of_ne notChild] at above
    rw [Function.update_of_ne notHole] at at_
    rw [same _ _ (by omega) notChild above, same _ _ bound notHole at_]
    exact ordered i positive bound x y above at_
  · intro holePositive i positive bound isChild x y above at_
    have less := parent_lt holePositive
    have more := parent_lt positive
    rw [Function.update_of_ne (by omega)] at above
    rw [Function.update_of_ne (by omega)] at at_
    rw [same _ _ (by omega) (by omega) above, same _ _ bound (by omega) at_]
    obtain ⟨z, between⟩ := full hole inside
    calc key x ≤ key z := ordered hole holePositive inside x z above between
      _ ≤ key y := ordered i positive bound z y (isChild ▸ between) at_

theorem Around.up {e x : E} (around : Around key cells n hole) (holePositive : 0 < hole)
    (here : cells hole = some e) (above : cells (parent hole) = some x) (less : key e < key x) :
    UpOrdered key cells n hole := by
  refine ⟨around, ?_⟩
  intro i positive bound isChild e' y here' at_
  obtain rfl : e = e' := Option.some.inj (here.symm.trans here')
  exact less.le.trans (around.across holePositive i positive bound isChild x y above at_)

theorem Around.down (around : Around key cells n hole)
    (above : 0 < hole → hole < n → Below key cells (parent hole) hole) : DownOrdered key cells n hole :=
  ⟨around, above⟩

theorem UpOrdered.stop (ordered : UpOrdered key cells n hole)
    (above : 0 < hole → Below key cells (parent hole) hole) : Ordered key cells n := by
  intro i positive bound
  by_cases isHole : i = hole
  · subst isHole
    exact above positive
  · by_cases isChild : parent i = hole
    · rw [isChild]
      exact ordered.children i positive bound isChild
    · exact ordered.apart i positive bound isHole isChild

theorem DownOrdered.stop (ordered : DownOrdered key cells n hole)
    (below : ∀ i, 0 < i → i < n → parent i = hole → Below key cells hole i) : Ordered key cells n := by
  intro i positive bound
  by_cases isHole : i = hole
  · subst isHole
    exact ordered.above positive bound
  · by_cases isChild : parent i = hole
    · rw [isChild]
      exact below i positive bound isChild
    · exact ordered.apart i positive bound isHole isChild

def swapped (cells : Nat → Option E) (i j : Nat) : Nat → Option E := fun k => cells (Equiv.swap i j k)

theorem swapped_left (i j : Nat) : swapped cells i j i = cells j := by simp [swapped]

theorem swapped_right (i j : Nat) : swapped cells i j j = cells i := by simp [swapped]

theorem swapped_of_ne {i j k : Nat} (left : k ≠ i) (right : k ≠ j) : swapped cells i j k = cells k := by
  simp [swapped, Equiv.swap_apply_of_ne_of_ne left right]

theorem UpOrdered.move {e x : E} (ordered : UpOrdered key cells n hole) (holePositive : 0 < hole)
    (inside : hole < n) (here : cells hole = some e) (above : cells (parent hole) = some x)
    (less : key e < key x) : UpOrdered key (swapped cells hole (parent hole)) n (parent hole) := by
  have up := parent_lt holePositive
  have twoUp (positive : 0 < parent hole) := parent_lt positive
  have holeAt : swapped cells hole (parent hole) (parent hole) = some e := by rw [swapped_right, here]
  have moved (i : Nat) (positive : 0 < i) (bound : i < n) (child : parent i = parent hole) (y : E)
      (at_ : swapped cells hole (parent hole) i = some y) : key x ≤ key y := by
    by_cases isHole : i = hole
    · subst isHole
      rw [swapped_left, above] at at_
      exact (congrArg key (Option.some.inj at_)).le
    · have := parent_lt positive
      rw [swapped_of_ne isHole (by omega)] at at_
      exact ordered.apart i positive bound isHole (by omega) x y (child ▸ above) at_
  refine ⟨⟨?_, ?_⟩, ?_⟩
  · intro i positive bound notParent notChild y z parentAt at_
    have notHole : i ≠ hole := fun same => notChild (same ▸ rfl)
    rw [swapped_of_ne notHole notParent] at at_
    by_cases isChild : parent i = hole
    · rw [isChild, swapped_left] at parentAt
      exact ordered.across holePositive i positive bound isChild y z parentAt at_
    · rw [swapped_of_ne isChild notChild] at parentAt
      exact ordered.apart i positive bound notHole isChild y z parentAt at_
  · intro positiveUp i positive bound child y z parentAt at_
    have := twoUp positiveUp
    rw [swapped_of_ne (by omega) (by omega)] at parentAt
    calc key y ≤ key x := ordered.apart (parent hole) positiveUp (by omega) (by omega) (by omega) y x parentAt above
      _ ≤ key z := moved i positive bound child z at_
  · intro i positive bound child e' y here' at_
    obtain rfl : e = e' := Option.some.inj (holeAt.symm.trans here')
    exact less.le.trans (moved i positive bound child y at_)

theorem DownOrdered.move {e x : E} {child : Nat} (ordered : DownOrdered key cells n hole)
    (childPositive : 0 < child) (inside : child < n) (isChild : parent child = hole)
    (here : cells hole = some e) (at_ : cells child = some x) (less : key x < key e)
    (least : ∀ i, 0 < i → i < n → parent i = hole → Below key cells child i) :
    DownOrdered key (swapped cells hole child) n child := by
  have down := parent_lt childPositive
  have childAt : swapped cells hole child child = some e := by rw [swapped_right, here]
  have holeAt : swapped cells hole child hole = some x := by rw [swapped_left, at_]
  refine ⟨⟨?_, ?_⟩, ?_⟩
  · intro i positive bound notChild notBelow y z parentAt at_'
    by_cases isHole : i = hole
    · subst isHole
      have up := parent_lt positive
      rw [swapped_of_ne (by omega) (by omega)] at parentAt
      obtain rfl : x = z := Option.some.inj (holeAt.symm.trans at_')
      exact ordered.across positive child childPositive inside isChild y x parentAt at_
    · rw [swapped_of_ne isHole notChild] at at_'
      by_cases sibling : parent i = hole
      · rw [sibling, swapped_left] at parentAt
        exact least i positive bound sibling y z parentAt at_'
      · rw [swapped_of_ne sibling notBelow] at parentAt
        exact ordered.apart i positive bound isHole sibling y z parentAt at_'
  · intro _ i positive bound below y z parentAt at_'
    have up := parent_lt positive
    rw [isChild] at parentAt
    obtain rfl : x = y := Option.some.inj (holeAt.symm.trans parentAt)
    rw [swapped_of_ne (by omega) (by omega)] at at_'
    exact ordered.apart i positive bound (by omega) (by omega) x z (below ▸ at_) at_'
  · intro _ _ y z parentAt at_'
    rw [isChild] at parentAt
    obtain rfl : x = y := Option.some.inj (holeAt.symm.trans parentAt)
    obtain rfl : e = z := Option.some.inj (childAt.symm.trans at_')
    exact less.le

def stored (cells : Nat → Option E) (n : Nat) : List E := (List.range n).filterMap cells

theorem mem_stored {x : E} : x ∈ stored cells n ↔ ∃ i < n, cells i = some x := by
  simp [stored]

theorem stored_succ (e : E) (at_ : cells n = some e) : stored cells (n + 1) = stored cells n ++ [e] := by
  simp [stored, List.range_succ, at_]

theorem stored_index {index : E → Nat} (entries : ∀ i < n, ∃ x, cells i = some x ∧ index x = i) :
    (stored cells n).map index = List.range n := by
  induction n with
  | zero => rfl
  | succ n ih =>
      obtain ⟨x, at_, known⟩ := entries n (Nat.lt_succ_self n)
      rw [stored_succ x at_, List.map_append, ih fun i bound => entries i (by omega), List.range_succ]
      simp [known]

theorem stored_congr {other : Nat → Option E} (same : ∀ i < n, cells i = other i) :
    stored cells n = stored other n := by
  apply List.filterMap_congr
  intro i member
  exact same i (List.mem_range.mp member)

theorem stored_append (e : E) : stored (Function.update cells n (some e)) (n + 1) = stored cells n ++ [e] := by
  rw [stored_succ e (Function.update_self ..)]
  congr 1
  apply stored_congr
  intro i bound
  exact Function.update_of_ne (by omega) ..

theorem stored_swapped (cells : Nat → Option E) {i j : Nat} (left : i < n) (right : j < n) :
    (stored (swapped cells i j) n).Perm (stored cells n) := by
  have inside (k : Nat) (bound : k < n) : Equiv.swap i j k < n := by
    rw [Equiv.swap_apply_def]
    split_ifs <;> assumption
  have permuted : ((List.range n).map (Equiv.swap i j)).Perm (List.range n) := by
    rw [List.perm_ext_iff_of_nodup (List.nodup_range.map (Equiv.injective _)) List.nodup_range]
    intro k
    simp only [List.mem_map, List.mem_range]
    constructor
    · rintro ⟨l, bound, rfl⟩
      exact inside l bound
    · intro bound
      exact ⟨Equiv.swap i j k, inside k bound, Equiv.swap_apply_self ..⟩
  have composed : stored (swapped cells i j) n = ((List.range n).map (Equiv.swap i j)).filterMap cells := by
    rw [List.filterMap_map]
    rfl
  rw [composed]
  exact permuted.filterMap cells

theorem stored_update {i : Nat} {e x : E} (bound : i < n) (at_ : cells i = some e) :
    (e :: stored (Function.update cells i (some x)) n).Perm (x :: stored cells n) := by
  have split : (List.range n).Perm (i :: (List.range n).erase i) :=
    List.perm_cons_erase (List.mem_range.mpr bound)
  have outside : i ∉ (List.range n).erase i := List.nodup_range.not_mem_erase
  have same : ((List.range n).erase i).filterMap (Function.update cells i (some x)) =
      ((List.range n).erase i).filterMap cells := by
    apply List.filterMap_congr
    intro j member
    apply Function.update_of_ne
    rintro rfl
    exact outside member
  have before : (stored cells n).Perm (e :: ((List.range n).erase i).filterMap cells) := by
    have := split.filterMap cells
    rwa [List.filterMap_cons_some at_] at this
  have after : (stored (Function.update cells i (some x)) n).Perm
      (x :: ((List.range n).erase i).filterMap cells) := by
    have := split.filterMap (Function.update cells i (some x))
    rwa [List.filterMap_cons_some (Function.update_self ..), same] at this
  exact (after.cons e).trans ((List.Perm.swap ..).trans (before.symm.cons x))

end CppInfra.BinaryHeap
