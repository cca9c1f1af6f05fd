import CppInfra.Timer.MinHeap

set_option autoImplicit false

namespace CppInfra.Timer.MinHeap

open BinaryHeap Words

variable {E : Type} {s t : Heap E} {hole : Nat} {e : E}

theorem filled_hole : filled s hole e hole = some e := Function.update_self ..

theorem filled_of_ne {i : Nat} (apart : i ≠ hole) : filled s hole e i = s.p i :=
  Function.update_of_ne apart ..

theorem Heap.load_some {i : Nat} {x : E} (inside : i < s.a) (at_ : s.p i = some x) : s.load i = some x := by
  rw [Heap.load, if_pos inside, at_]

theorem Holed.load (holed : Holed s hole e) {i : Nat} (bound : i < s.n) (apart : i ≠ hole) :
    ∃ x, s.load i = some x ∧ s.p i = some x := by
  obtain ⟨x, at_, _⟩ := holed.others i bound apart
  have size := holed.size
  exact ⟨x, Heap.load_some (by omega) at_, at_⟩

variable [DecidableEq E]

theorem Holed.place (holed : Holed s hole e) (ordered : Ordered s.time (filled s hole e) s.n) :
    ∃ t, s.place hole e = some t ∧ Sifted s hole e t := by
  refine ⟨_, if_pos holed.inside, rfl, rfl, rfl, ?_, .refl _, ?_, ordered⟩
  · intro i bound
    by_cases isHole : i = hole
    · subst isHole
      exact ⟨e, filled_hole, Function.update_self ..⟩
    · obtain ⟨x, at_, index, other⟩ := holed.others i bound isHole
      exact ⟨x, (filled_of_ne isHole).trans at_, (Function.update_of_ne other ..).trans index⟩
  · intro x _ other
    exact Function.update_of_ne other ..

structure Moved (s : Heap E) (hole : Nat) (e : E) (m : Nat) (x : E) (t : Heap E) : Prop where
  at_ : s.p m = some x
  inside : m < s.n
  apart : m ≠ hole
  holed : Holed t m e
  n : t.n = s.n
  a : t.a = s.a
  time : t.time = s.time
  swap : filled t m e = swapped (filled s hole e) hole m
  others : ∀ y, y ≠ x → t.minHeapIdx y = s.minHeapIdx y

theorem Holed.move (holed : Holed s hole e) {m : Nat} {x : E} (bound : m < s.n) (apart : m ≠ hole)
    (at_ : s.p m = some x) : ∃ t, s.place hole x = some t ∧ Moved s hole e m x t := by
  have index : s.minHeapIdx x = m ∧ x ≠ e := by
    obtain ⟨y, there, index, other⟩ := holed.others m bound apart
    obtain rfl : x = y := Option.some.inj (at_.symm.trans there)
    exact ⟨index, other⟩
  have size := holed.size
  have inside : m < s.a := by omega
  refine ⟨_, if_pos holed.inside, at_, bound, apart, ⟨?_, inside, size, holed.word⟩, rfl, rfl, rfl, ?_, ?_⟩
  · intro i inside notM
    by_cases isHole : i = hole
    · subst isHole
      exact ⟨x, Function.update_self .., Function.update_self .., index.2⟩
    · obtain ⟨y, there, yIndex, other⟩ := holed.others i inside isHole
      have differs : y ≠ x := by
        rintro rfl
        omega
      exact ⟨y, (Function.update_of_ne isHole ..).trans there,
        (Function.update_of_ne differs ..).trans yIndex, other⟩
  · funext i
    by_cases isM : i = m
    · subst isM
      rw [swapped_right, filled_hole, filled_hole]
    · rw [filled_of_ne isM]
      by_cases isHole : i = hole
      · subst isHole
        rw [swapped_left, filled_of_ne apart, at_]
        exact Function.update_self ..
      · rw [swapped_of_ne isHole isM, filled_of_ne isHole]
        exact Function.update_of_ne isHole ..
  · intro y other
    exact Function.update_of_ne other ..

omit [DecidableEq E] in
theorem Moved.sifted {u : Heap E} {m : Nat} {x : E} (moved : Moved s hole e m x t) (inside : hole < s.n)
    (sifted : Sifted t m e u) : Sifted s hole e u := by
  have permuted := stored_swapped (filled s hole e) inside moved.inside
  have content := sifted.content
  have ordered := sifted.ordered
  rw [moved.n, moved.swap] at content
  rw [moved.n, moved.time] at ordered
  refine ⟨sifted.n.trans moved.n, sifted.a.trans moved.a, sifted.time.trans moved.time, ?_,
    content.trans permuted, ?_, ordered⟩
  · intro i bound
    exact sifted.entries i (moved.n ▸ bound)
  · intro y outside other
    have differs : y ≠ x := by
      rintro rfl
      exact outside (mem_stored.mpr ⟨m, moved.inside, (filled_of_ne moved.apart).trans moved.at_⟩)
    rw [sifted.frame y ?_ other, moved.others y differs]
    rw [moved.n, moved.swap, permuted.mem_iff]
    exact outside

theorem shiftUpTurns_spec {turns : Nat} (enough : hole < turns) (bound : hole < s.n) (holed : Holed s hole e)
    (ordered : UpOrdered s.time (filled s hole e) s.n hole) :
    ∃ t, shiftUpTurns turns s hole e = some t ∧ Sifted s hole e t := by
  induction turns generalizing s hole with
  | zero => omega
  | succ turns ih =>
      rw [shiftUpTurns]
      by_cases isRoot : hole = 0
      · rw [if_pos isRoot]
        exact holed.place (ordered.stop fun positive => by omega)
      · have up := parent_lt (Nat.pos_of_ne_zero isRoot)
        have word := holed.word
        have size := holed.size
        obtain ⟨above, loaded, at_⟩ := holed.load (show parent hole < s.n by omega) (by omega)
        have filledAt : filled s hole e (parent hole) = some above := (filled_of_ne (by omega)).trans at_
        rw [if_neg isRoot, parentOf_eq (Nat.pos_of_ne_zero isRoot) (by omega), loaded]
        simp only [Option.bind_eq_bind, Option.bind_some]
        by_cases greater : s.time above > s.time e
        · simp only [minHeapElemGreater, greater, decide_true, if_true]
          obtain ⟨t, placed, moved⟩ := holed.move (by omega) (by omega) at_
          have orderedT := ordered.move (Nat.pos_of_ne_zero isRoot) bound filled_hole filledAt greater
          rw [← moved.swap, ← moved.time, ← moved.n] at orderedT
          have boundT : parent hole < t.n := by rw [moved.n]; omega
          obtain ⟨u, ran, sifted⟩ := ih (by omega) boundT moved.holed orderedT
          rw [placed, Option.bind_some]
          exact ⟨u, ran, moved.sifted bound sifted⟩
        · simp only [minHeapElemGreater, greater, decide_false, Bool.false_eq_true, if_false]
          apply holed.place
          apply ordered.stop
          intro _ x y first second
          rw [filledAt] at first
          rw [filled_hole] at second
          cases first
          cases second
          exact Nat.not_lt.mp greater

omit [DecidableEq E] in
theorem leastChild_spec (holed : Holed s hole e) (fits : 2 * (hole + 1) < 2 ^ 32)
    (children : 2 * (hole + 1) ≤ s.n) :
    ∃ m x, leastChild s (2 * (hole + 1)) = some m ∧ s.load m = some x ∧ s.p m = some x ∧ 0 < m ∧ m < s.n ∧
      parent m = hole ∧ ∀ i, 0 < i → i < s.n → parent i = hole → Below s.time (filled s hole e) m i := by
  have minus : sub 32 (2 * (hole + 1)) 1 = 2 * hole + 1 := by
    rw [sub_exact (by omega) fits]
    omega
  obtain ⟨left, leftLoaded, leftAt⟩ := holed.load (show 2 * hole + 1 < s.n by omega) (by omega)
  have leftFilled : filled s hole e (2 * hole + 1) = some left := (filled_of_ne (by omega)).trans leftAt
  have leftParent : parent (2 * hole + 1) = hole := by unfold parent; omega
  have sides (i : Nat) (positive : 0 < i) (isChild : parent i = hole) :
      i = 2 * hole + 1 ∨ i = 2 * (hole + 1) := by
    unfold parent at isChild
    omega
  unfold leastChild
  by_cases single : 2 * (hole + 1) = s.n
  · rw [if_pos single, minus]
    refine ⟨2 * hole + 1, left, rfl, leftLoaded, leftAt, by omega, by omega, leftParent, ?_⟩
    intro i positive bound isChild
    have isLeft : i = 2 * hole + 1 := by
      rcases sides i positive isChild with isLeft | isRight <;> omega
    intro x y first second
    rw [isLeft] at second
    exact (congrArg s.time (Option.some.inj (first.symm.trans second))).le
  · obtain ⟨right, rightLoaded, rightAt⟩ := holed.load (show 2 * (hole + 1) < s.n by omega) (by omega)
    have rightFilled : filled s hole e (2 * (hole + 1)) = some right := (filled_of_ne (by omega)).trans rightAt
    rw [if_neg single, minus, rightLoaded, leftLoaded]
    simp only [Option.bind_eq_bind, Option.bind_some]
    by_cases greater : s.time right > s.time left
    · simp only [minHeapElemGreater, greater, decide_true, if_true]
      refine ⟨2 * hole + 1, left, rfl, leftLoaded, leftAt, by omega, by omega, leftParent, ?_⟩
      intro i positive bound isChild x y first second
      rw [leftFilled] at first
      cases first
      rcases sides i positive isChild with rfl | rfl
      · rw [leftFilled] at second
        cases second
        exact le_rfl
      · rw [rightFilled] at second
        cases second
        exact greater.le
    · simp only [minHeapElemGreater, greater, decide_false, Bool.false_eq_true, if_false]
      have rightParent : parent (2 * (hole + 1)) = hole := by unfold parent; omega
      refine ⟨2 * (hole + 1), right, rfl, rightLoaded, rightAt, by omega, by omega, rightParent, ?_⟩
      intro i positive bound isChild x y first second
      rw [rightFilled] at first
      cases first
      rcases sides i positive isChild with rfl | rfl
      · rw [leftFilled] at second
        cases second
        exact Nat.not_lt.mp greater
      · rw [rightFilled] at second
        cases second
        exact le_rfl

theorem shiftDownTurns_spec {turns : Nat} (enough : s.n < turns + hole) (small : s.n < 2 ^ 31)
    (bound : hole < s.n) (holed : Holed s hole e) (ordered : DownOrdered s.time (filled s hole e) s.n hole) :
    ∃ t, shiftDownTurns turns s hole e = some t ∧ Sifted s hole e t := by
  induction turns generalizing s hole with
  | zero => omega
  | succ turns ih =>
      have fits : 2 * (hole + 1) < 2 ^ 32 := by omega
      rw [shiftDownTurns]
      simp only [Nat.mod_eq_of_lt fits]
      by_cases children : 2 * (hole + 1) ≤ s.n
      · obtain ⟨m, x, chosen, loaded, at_, positive, inside, isChild, least⟩ :=
          leastChild_spec holed fits children
        have down := parent_lt positive
        have filledAt : filled s hole e m = some x := (filled_of_ne (by omega)).trans at_
        rw [if_pos children, chosen]
        simp only [Option.bind_eq_bind, Option.bind_some, loaded]
        by_cases greater : s.time e > s.time x
        · simp only [minHeapElemGreater, greater, decide_true, if_true]
          obtain ⟨t, placed, moved⟩ := holed.move inside (by omega) at_
          have orderedT := ordered.move positive inside isChild filled_hole filledAt greater least
          rw [← moved.swap, ← moved.time, ← moved.n] at orderedT
          have n := moved.n
          obtain ⟨u, ran, sifted⟩ := ih (by omega) (by omega) (by omega) moved.holed orderedT
          rw [placed, Option.bind_some]
          exact ⟨u, ran, moved.sifted bound sifted⟩
        · simp only [minHeapElemGreater, greater, decide_false, Bool.false_eq_true, if_false]
          apply holed.place
          apply ordered.stop
          intro i iPositive iBound iChild y z first second
          rw [filled_hole] at first
          cases first
          exact (Nat.not_lt.mp greater).trans (least i iPositive iBound iChild x z filledAt second)
      · rw [if_neg children]
        apply holed.place
        apply ordered.stop
        intro i positive iBound isChild
        unfold parent at isChild
        omega

theorem minHeapShiftDown_spec (small : s.n < 2 ^ 31) (bound : hole < s.n) (holed : Holed s hole e)
    (ordered : DownOrdered s.time (filled s hole e) s.n hole) :
    ∃ t, minHeapShiftDown s hole e = some t ∧ Sifted s hole e t := by
  apply shiftDownTurns_spec _ small bound holed ordered
  omega

theorem minHeapShiftUp_spec (bound : hole < s.n) (holed : Holed s hole e)
    (ordered : UpOrdered s.time (filled s hole e) s.n hole) :
    ∃ t, minHeapShiftUp s hole e = some t ∧ Sifted s hole e t :=
  shiftUpTurns_spec (Nat.lt_succ_self hole) bound holed ordered

theorem minHeapShiftUpUnconditional_spec {above : E} (positive : 0 < hole) (bound : hole < s.n)
    (holed : Holed s hole e) (ordered : UpOrdered s.time (filled s hole e) s.n hole)
    (at_ : s.p (parent hole) = some above) (less : s.time e < s.time above) :
    ∃ t, minHeapShiftUpUnconditional s hole e = some t ∧ Sifted s hole e t := by
  have up := parent_lt positive
  have word := holed.word
  have size := holed.size
  have filledAt : filled s hole e (parent hole) = some above := (filled_of_ne (by omega)).trans at_
  obtain ⟨t, placed, moved⟩ := holed.move (by omega) (by omega) at_
  have orderedT := ordered.move positive bound filled_hole filledAt less
  rw [← moved.swap, ← moved.time, ← moved.n] at orderedT
  have boundT : parent hole < t.n := by rw [moved.n]; omega
  obtain ⟨u, ran, sifted⟩ := minHeapShiftUp_spec boundT moved.holed orderedT
  refine ⟨u, ?_, moved.sifted bound sifted⟩
  rw [minHeapShiftUpUnconditional, parentOf_eq positive (by omega), Heap.load_some (by omega) at_]
  simp only [Option.bind_eq_bind, Option.bind_some, placed, ran]

theorem shiftEither_spec (small : s.n < 2 ^ 31) (bound : hole < s.n) (holed : Holed s hole e)
    (around : Around s.time (filled s hole e) s.n hole) :
    ∃ t, shiftEither s hole e = some t ∧ Sifted s hole e t := by
  unfold shiftEither
  by_cases positive : 0 < hole
  · have up := parent_lt positive
    obtain ⟨above, loaded, at_⟩ := holed.load (show parent hole < s.n by omega) (by omega)
    have filledAt : filled s hole e (parent hole) = some above := (filled_of_ne (by omega)).trans at_
    rw [if_pos positive, parentOf_eq positive (by omega), loaded]
    simp only [Option.bind_eq_bind, Option.bind_some]
    by_cases greater : s.time above > s.time e
    · simp only [minHeapElemGreater, greater, decide_true, if_true]
      have ordered := around.up positive filled_hole filledAt greater
      exact minHeapShiftUpUnconditional_spec positive bound holed ordered at_ greater
    · simp only [minHeapElemGreater, greater, decide_false, Bool.false_eq_true, if_false]
      apply minHeapShiftDown_spec small bound holed
      apply around.down
      intro _ _ x y first second
      rw [filledAt] at first
      rw [filled_hole] at second
      cases first
      cases second
      exact Nat.not_lt.mp greater
  · simp only [if_neg positive, Option.bind_eq_bind, Option.bind_some, Bool.false_eq_true, if_false]
    apply minHeapShiftDown_spec small bound holed
    exact around.down fun contradiction => absurd contradiction positive

theorem minHeapShiftDown_last (small : s.n < 2 ^ 31 - 1) (holed : Holed s s.n e)
    (ordered : Ordered s.time (filled s s.n e) s.n) :
    ∃ t, minHeapShiftDown s s.n e = some t ∧ Sifted s s.n e t := by
  have fits : 2 * (s.n + 1) < 2 ^ 32 := by omega
  have barren : ¬ 2 * (s.n + 1) ≤ s.n := by omega
  obtain ⟨t, placed, sifted⟩ := holed.place ordered
  refine ⟨t, ?_, sifted⟩
  change shiftDownTurns (2 ^ 32 - 1 + 1) s s.n e = some t
  rw [shiftDownTurns, Nat.mod_eq_of_lt fits, if_neg barren, placed]

theorem shiftEither_last (small : s.n < 2 ^ 31 - 1) (holed : Holed s s.n e)
    (ordered : Ordered s.time (filled s s.n e) (s.n + 1)) :
    ∃ t, shiftEither s s.n e = some t ∧ Sifted s s.n e t := by
  unfold shiftEither
  have down := minHeapShiftDown_last small holed (ordered.shrink (Nat.le_succ _))
  by_cases positive : 0 < s.n
  · have up := parent_lt positive
    obtain ⟨above, loaded, at_⟩ := holed.load up (by omega)
    have filledAt : filled s s.n e (parent s.n) = some above := (filled_of_ne (by omega)).trans at_
    have fine : ¬ s.time above > s.time e :=
      Nat.not_lt.mpr (ordered s.n positive (Nat.lt_succ_self _) above e filledAt filled_hole)
    rw [if_pos positive, parentOf_eq positive (by omega), loaded]
    simp only [Option.bind_eq_bind, Option.bind_some, minHeapElemGreater, fine, decide_false,
      Bool.false_eq_true, if_false]
    exact down
  · simp only [if_neg positive, Option.bind_eq_bind, Option.bind_some, Bool.false_eq_true, if_false]
    exact down

end CppInfra.Timer.MinHeap
