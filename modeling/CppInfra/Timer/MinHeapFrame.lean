import CppInfra.Timer.MinHeapRuns

set_option autoImplicit false

namespace CppInfra.Timer.MinHeap

open BinaryHeap Words

variable {E : Type} [DecidableEq E] {s t : Heap E} {e x : E} {hole : Nat}

structure Rooted (s : Heap E) (x : E) (t : Heap E) : Prop where
  root : t.p 0 = some x
  time : t.time = s.time
  n : t.n = s.n
  a : t.a = s.a

theorem place_rooted (root : s.p 0 = some x) (positive : 0 < hole) (placed : s.place hole e = some t) :
    Rooted s x t := by
  rw [Heap.place] at placed
  split_ifs at placed with inside
  obtain rfl := Option.some.inj placed
  refine ⟨?_, rfl, rfl, rfl⟩
  rw [← root]
  exact Function.update_of_ne (by omega) ..

omit [DecidableEq E] in
theorem load_root {above : E} (root : s.p 0 = some x) (loaded : s.load 0 = some above) : above = x := by
  rw [Heap.load] at loaded
  split_ifs at loaded with inside
  exact Option.some.inj (loaded.symm.trans root)

omit [DecidableEq E] in
theorem not_greater (order : s.time x ≤ s.time e) : minHeapElemGreater s x e = false := by
  rw [minHeapElemGreater, decide_eq_false_iff_not]
  omega

omit [DecidableEq E] in
theorem parent_positive {above : E} (root : s.p 0 = some x) (order : s.time x ≤ s.time e)
    (loaded : s.load (parentOf hole) = some above) (greater : minHeapElemGreater s above e = true) :
    0 < parentOf hole := by
  by_contra zero
  rw [Nat.eq_zero_of_not_pos zero] at loaded
  obtain rfl := load_root root loaded
  rw [not_greater order] at greater
  cases greater

theorem shiftUpTurns_root {turns : Nat} (positive : 0 < hole) (root : s.p 0 = some x)
    (order : s.time x ≤ s.time e) (ran : shiftUpTurns turns s hole e = some t) : t.p 0 = some x := by
  induction turns generalizing s hole with
  | zero => simp [shiftUpTurns] at ran
  | succ turns ih =>
      simp only [shiftUpTurns, if_neg (Nat.ne_of_gt positive), Option.bind_eq_bind,
        Option.bind_eq_some_iff] at ran
      obtain ⟨above, loaded, ran⟩ := ran
      split_ifs at ran with greater
      · obtain ⟨next, placed, ran⟩ := Option.bind_eq_some_iff.mp ran
        have rooted := place_rooted root positive placed
        have up := parent_positive root order loaded greater
        exact ih up rooted.root (by rw [rooted.time]; exact order) ran
      · exact (place_rooted root positive ran).root

omit [DecidableEq E] in
theorem leastChild_positive {m : Nat} (positive : 0 < hole) (small : s.n < 2 ^ 31 - 1)
    (children : 2 * (hole + 1) ≤ s.n) (chosen : leastChild s (2 * (hole + 1)) = some m) :
    0 < m ∧ m ≤ s.n := by
  have minus : sub 32 (2 * (hole + 1)) 1 = 2 * (hole + 1) - 1 := sub_exact (by omega) (by omega)
  rw [leastChild, minus] at chosen
  split_ifs at chosen with last
  · obtain rfl := Option.some.inj chosen
    omega
  · simp only [Option.bind_eq_bind, Option.bind_eq_some_iff, Option.some.injEq] at chosen
    obtain ⟨right, -, left, -, rfl⟩ := chosen
    split_ifs <;> omega

theorem shiftDownTurns_root {turns : Nat} (positive : 0 < hole) (bound : hole ≤ s.n)
    (small : s.n < 2 ^ 31 - 1) (root : s.p 0 = some x) (ran : shiftDownTurns turns s hole e = some t) :
    t.p 0 = some x := by
  induction turns generalizing s hole with
  | zero => simp [shiftDownTurns] at ran
  | succ turns ih =>
      have fits : 2 * (hole + 1) % 2 ^ 32 = 2 * (hole + 1) := Nat.mod_eq_of_lt (by omega)
      simp only [shiftDownTurns, fits] at ran
      split_ifs at ran with children
      · simp only [Option.bind_eq_bind, Option.bind_eq_some_iff] at ran
        obtain ⟨m, chosen, child, -, ran⟩ := ran
        obtain ⟨below, inside⟩ := leastChild_positive positive small children chosen
        split_ifs at ran with greater
        · obtain ⟨next, placed, ran⟩ := Option.bind_eq_some_iff.mp ran
          have rooted := place_rooted root positive placed
          exact ih below (by rw [rooted.n]; exact inside) (by rw [rooted.n]; exact small) rooted.root ran
        · exact (place_rooted root positive ran).root
      · exact (place_rooted root positive ran).root

theorem shiftEither_root (positive : 0 < hole) (bound : hole ≤ s.n) (small : s.n < 2 ^ 31 - 1)
    (root : s.p 0 = some x) (order : s.time x ≤ s.time e) (ran : shiftEither s hole e = some t) :
    t.p 0 = some x := by
  simp only [shiftEither, if_pos positive, Option.bind_eq_bind, Option.bind_some,
    Option.bind_eq_some_iff] at ran
  obtain ⟨above, loaded, ran⟩ := ran
  split_ifs at ran with greater
  · simp only [minHeapShiftUpUnconditional, Option.bind_eq_bind, Option.bind_eq_some_iff] at ran
    obtain ⟨same, loadedSame, next, placed, ran⟩ := ran
    obtain rfl := Option.some.inj (loaded.symm.trans loadedSame)
    have rooted := place_rooted root positive placed
    have parentPositive := parent_positive root order loaded greater
    exact shiftUpTurns_root parentPositive rooted.root (by rw [rooted.time]; exact order) ran
  · exact shiftDownTurns_root positive bound small root ran

omit [DecidableEq E] in
theorem reserve_frame (s : Heap E) (n : Nat) (realloc : Bool) :
    (minHeapReserve s n realloc).2.p = s.p ∧ (minHeapReserve s n realloc).2.n = s.n ∧
      (minHeapReserve s n realloc).2.time = s.time := by
  unfold minHeapReserve
  split
  · cases realloc <;> exact ⟨rfl, rfl, rfl⟩
  · exact ⟨rfl, rfl, rfl⟩

theorem push_root (nonempty : 0 < s.n) (root : s.p 0 = some x) (order : s.time x ≤ s.time e) {realloc : Bool}
    {code : Int} (ran : minHeapPush s e realloc = some (code, t)) : t.p 0 = some x := by
  obtain ⟨cells, size, times⟩ := reserve_frame s (add 32 s.n 1) realloc
  simp only [minHeapPush] at ran
  split_ifs at ran with failed
  · obtain ⟨-, rfl⟩ := Prod.mk.inj (Option.some.inj ran)
    rw [cells, root]
  · simp only [Option.bind_eq_bind, Option.bind_eq_some_iff, Option.some.injEq, Prod.mk.injEq] at ran
    obtain ⟨next, sifted, -, rfl⟩ := ran
    refine shiftUpTurns_root ?_ ?_ ?_ sifted
    · rw [size]
      exact nonempty
    · rw [← root, ← cells]
    · simp only [times]
      exact order

omit [DecidableEq E] in
theorem Sound.content_length (sound : Sound s) : s.content.length = s.n := by
  have indices := congrArg List.length (stored_index sound.entries)
  simpa [Heap.content] using indices

omit [DecidableEq E] in
theorem Sound.distinct (sound : Sound s) : s.content.Nodup := by
  have indices := stored_index sound.entries
  exact List.Nodup.of_map _ (by rw [Heap.content, indices]; exact List.nodup_range)

omit [DecidableEq E] in
theorem Sound.least (sound : Sound s) (root : s.p 0 = some x) : ∀ y ∈ s.content, s.time x ≤ s.time y := by
  intro y member
  obtain ⟨i, inside, at_⟩ := mem_stored.mp member
  exact sound.ordered.above sound.full inside x y root at_

theorem erase_root (sound : Sound s) (small : s.n < 2 ^ 31) (member : e ∈ s.content) (root : s.p 0 = some x)
    (other : e ≠ x) {code : Int} (ran : minHeapErase s e = some (code, t)) : t.p 0 = some x := by
  obtain ⟨bound, at_, present⟩ := sound.cell member
  have size := sound.size
  have positive : 0 < s.minHeapIdx e := by
    by_contra zero
    rw [Nat.eq_zero_of_not_pos zero, root] at at_
    exact other (Option.some.inj at_).symm
  simp only [minHeapErase, present, ne_eq, not_false_eq_true, if_true,
    sub_exact (show 1 ≤ s.n by omega) (show s.n < 2 ^ 32 by omega), Option.bind_eq_bind,
    Option.bind_eq_some_iff, Option.some.injEq, Prod.mk.injEq] at ran
  obtain ⟨last, loaded, next, sifted, -, rfl⟩ := ran
  obtain ⟨found, lastAt⟩ := sound.full (s.n - 1) (by omega)
  have isLast : last = found := by
    rw [Heap.load_some (show s.n - 1 < s.a by omega) lastAt] at loaded
    exact (Option.some.inj loaded).symm
  have order : s.time x ≤ s.time last := by
    rw [isLast]
    exact sound.least root found (mem_stored.mpr ⟨s.n - 1, by omega, lastAt⟩)
  have kept : next.p 0 = some x :=
    shiftEither_root (s := { s with n := s.n - 1 }) positive (by dsimp only; omega) (by dsimp only; omega) root
      order sifted
  exact kept

theorem place_time {y : E} (placed : s.place hole y = some t) : t.time = s.time := by
  rw [Heap.place] at placed
  split_ifs at placed with inside
  obtain rfl := Option.some.inj placed
  rfl

theorem shiftUpTurns_time {turns : Nat} (ran : shiftUpTurns turns s hole e = some t) : t.time = s.time := by
  induction turns generalizing s hole with
  | zero => simp [shiftUpTurns] at ran
  | succ turns ih =>
      rw [shiftUpTurns] at ran
      split_ifs at ran with top
      · exact place_time ran
      · simp only [Option.bind_eq_bind, Option.bind_eq_some_iff] at ran
        obtain ⟨above, -, ran⟩ := ran
        split_ifs at ran with greater
        · obtain ⟨next, placed, ran⟩ := Option.bind_eq_some_iff.mp ran
          exact (ih ran).trans (place_time placed)
        · exact place_time ran

theorem shiftDownTurns_time {turns : Nat} (ran : shiftDownTurns turns s hole e = some t) : t.time = s.time := by
  induction turns generalizing s hole with
  | zero => simp [shiftDownTurns] at ran
  | succ turns ih =>
      simp only [shiftDownTurns] at ran
      split_ifs at ran with children
      · simp only [Option.bind_eq_bind, Option.bind_eq_some_iff] at ran
        obtain ⟨m, -, child, -, ran⟩ := ran
        split_ifs at ran with greater
        · obtain ⟨next, placed, ran⟩ := Option.bind_eq_some_iff.mp ran
          exact (ih ran).trans (place_time placed)
        · exact place_time ran
      · exact place_time ran

theorem shiftEither_time (ran : shiftEither s hole e = some t) : t.time = s.time := by
  have either (up : Bool)
      (ran : (if up then minHeapShiftUpUnconditional s hole e else minHeapShiftDown s hole e) = some t) :
      t.time = s.time := by
    split_ifs at ran with greater
    · simp only [minHeapShiftUpUnconditional, Option.bind_eq_bind, Option.bind_eq_some_iff] at ran
      obtain ⟨above, -, next, placed, ran⟩ := ran
      exact (shiftUpTurns_time ran).trans (place_time placed)
    · exact shiftDownTurns_time ran
  simp only [shiftEither, Option.bind_eq_bind, Option.bind_some] at ran
  by_cases positive : 0 < hole
  · rw [if_pos positive] at ran
    obtain ⟨above, -, ran⟩ := Option.bind_eq_some_iff.mp ran
    exact either _ ran
  · rw [if_neg positive] at ran
    exact either _ ran

theorem push_time {realloc : Bool} {code : Int} (ran : minHeapPush s e realloc = some (code, t)) :
    t.time = s.time := by
  obtain ⟨-, -, times⟩ := reserve_frame s (add 32 s.n 1) realloc
  simp only [minHeapPush] at ran
  split_ifs at ran with failed
  · obtain ⟨-, rfl⟩ := Prod.mk.inj (Option.some.inj ran)
    exact times
  · simp only [Option.bind_eq_bind, Option.bind_eq_some_iff, Option.some.injEq, Prod.mk.injEq] at ran
    obtain ⟨next, sifted, -, rfl⟩ := ran
    exact (shiftUpTurns_time sifted).trans times

theorem pop_time {popped : Option E} (ran : minHeapPop s = some (popped, t)) : t.time = s.time := by
  rw [minHeapPop] at ran
  split_ifs at ran with nonempty
  · simp only [Option.bind_eq_bind, Option.bind_eq_some_iff, Option.some.injEq, Prod.mk.injEq] at ran
    obtain ⟨top, -, last, -, next, sifted, -, rfl⟩ := ran
    have kept := shiftDownTurns_time sifted
    exact kept
  · obtain ⟨-, rfl⟩ := Prod.mk.inj (Option.some.inj ran)
    rfl

theorem erase_time {code : Int} (ran : minHeapErase s e = some (code, t)) : t.time = s.time := by
  rw [minHeapErase] at ran
  split_ifs at ran with present
  · simp only [Option.bind_eq_bind, Option.bind_eq_some_iff, Option.some.injEq, Prod.mk.injEq] at ran
    obtain ⟨last, -, next, sifted, -, rfl⟩ := ran
    have kept := shiftEither_time sifted
    exact kept
  · obtain ⟨-, rfl⟩ := Prod.mk.inj (Option.some.inj ran)
    rfl

end CppInfra.Timer.MinHeap
