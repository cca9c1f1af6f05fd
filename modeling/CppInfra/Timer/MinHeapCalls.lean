import CppInfra.Timer.MinHeapSift

set_option autoImplicit false

namespace CppInfra.Timer.MinHeap

open BinaryHeap Words

variable {E : Type} [DecidableEq E] {s t : Heap E} {e : E}

def Heap.content (s : Heap E) : List E := stored s.p s.n

structure Sound (s : Heap E) : Prop where
  entries : ∀ i < s.n, ∃ x, s.p i = some x ∧ s.minHeapIdx x = i
  ordered : Ordered s.time s.p s.n
  size : s.n ≤ s.a
  word : s.a < 2 ^ 32

omit [DecidableEq E] in
theorem Sound.index (sound : Sound s) {i : Nat} (bound : i < s.n) (at_ : s.p i = some e) :
    s.minHeapIdx e = i := by
  obtain ⟨x, there, index⟩ := sound.entries i bound
  obtain rfl : e = x := Option.some.inj (at_.symm.trans there)
  exact index

omit [DecidableEq E] in
theorem Sound.cell (sound : Sound s) (member : e ∈ s.content) :
    s.minHeapIdx e < s.n ∧ s.p (s.minHeapIdx e) = some e ∧ s.minHeapIdx e ≠ absent := by
  obtain ⟨i, bound, at_⟩ := mem_stored.mp member
  have index := sound.index bound at_
  have size := sound.size
  have word := sound.word
  rw [index]
  refine ⟨bound, at_, ?_⟩
  unfold absent
  omega

omit [DecidableEq E] in
theorem Sound.full (sound : Sound s) (i : Nat) (bound : i < s.n) : ∃ x, s.p i = some x := by
  obtain ⟨x, at_, _⟩ := sound.entries i bound
  exact ⟨x, at_⟩

structure Pushed (s : Heap E) (e : E) (t : Heap E) : Prop where
  sound : Sound t
  content : t.content.Perm (e :: s.content)
  frame : ∀ x, x ∉ s.content → x ≠ e → t.minHeapIdx x = s.minHeapIdx x

structure Removed (s : Heap E) (e : E) (t : Heap E) : Prop where
  sound : Sound t
  content : (e :: t.content).Perm s.content
  index : t.minHeapIdx e = absent
  frame : ∀ x, x ∉ s.content → t.minHeapIdx x = s.minHeapIdx x

structure Kept (s t : Heap E) : Prop where
  sound : Sound t
  content : t.content.Perm s.content
  frame : ∀ x, x ∉ s.content → t.minHeapIdx x = s.minHeapIdx x

omit [DecidableEq E] in
theorem Sifted.sound {hole : Nat} (sifted : Sifted s hole e t) (size : s.n ≤ s.a) (word : s.a < 2 ^ 32) :
    Sound t := by
  refine ⟨?_, ?_, ?_, ?_⟩
  · intro i bound
    exact sifted.entries i (sifted.n ▸ bound)
  · rw [sifted.time, sifted.n]
    exact sifted.ordered
  · rw [sifted.n, sifted.a]
    exact size
  · rw [sifted.a]
    exact word

omit [DecidableEq E] in
theorem reserved_spec (sound : Sound s) (bound : s.n + 1 < 2 ^ 32) (realloc : Bool) :
    minHeapReserve s (add 32 s.n 1) realloc = (-1, s) ∨
      ∃ a, minHeapReserve s (add 32 s.n 1) realloc = (0, { s with a := a }) ∧ s.n < a ∧ a < 2 ^ 32 := by
  have size := sound.size
  have word := sound.word
  rw [minHeapReserve, add_exact bound]
  by_cases full : s.a < s.n + 1
  · rw [if_pos full]
    cases realloc with
    | false => exact .inl rfl
    | true =>
        refine .inr ⟨_, rfl, ?_, ?_⟩
        · split_ifs <;> omega
        · split_ifs <;> omega
  · rw [if_neg full]
    exact .inr ⟨s.a, rfl, by omega, word⟩

theorem push_spec (sound : Sound s) (bound : s.n + 1 < 2 ^ 32) (new : e ∉ s.content) (realloc : Bool) :
    minHeapPush s e realloc = some (-1, s) ∨
      ∃ t, minHeapPush s e realloc = some (0, t) ∧ Pushed s e t := by
  rcases reserved_spec sound bound realloc with failed | ⟨a, reserved, room, word⟩
  · left
    simp [minHeapPush, failed]
  · right
    have holed : Holed { s with a := a, n := s.n + 1 } s.n e := by
      refine ⟨?_, room, room, word⟩
      intro i inside apart
      have early : i < s.n := Nat.lt_of_le_of_ne (Nat.lt_succ_iff.mp inside) apart
      obtain ⟨x, at_, index⟩ := sound.entries i early
      refine ⟨x, at_, index, ?_⟩
      rintro rfl
      exact new (mem_stored.mpr ⟨i, early, at_⟩)
    obtain ⟨t, ran, sifted⟩ := minHeapShiftUp_spec (Nat.lt_succ_self s.n) holed (sound.ordered.append e)
    have appended : stored (filled { s with a := a, n := s.n + 1 } s.n e) (s.n + 1) = s.content ++ [e] :=
      stored_append e
    refine ⟨t, ?_, sifted.sound room word, ?_, ?_⟩
    · rw [minHeapPush, reserved]
      simp [add_exact bound, ran]
    · have content := sifted.content
      dsimp only at content
      rw [appended] at content
      rw [Heap.content, sifted.n]
      exact content.trans List.perm_append_comm
    · intro x outside other
      apply sifted.frame x _ other
      dsimp only
      rw [appended]
      simp [outside, other]

omit [DecidableEq E] in
theorem Sound.holed {hole : Nat} {last : E} (sound : Sound s) (bound : hole < s.n)
    (lastAt : s.p (s.n - 1) = some last) : Holed { s with n := s.n - 1 } hole last := by
  have size := sound.size
  refine ⟨?_, by dsimp only; omega, by dsimp only; omega, sound.word⟩
  intro i inside _
  dsimp only at inside
  obtain ⟨x, at_, index⟩ := sound.entries i (by omega)
  refine ⟨x, at_, index, ?_⟩
  rintro rfl
  have := sound.index (by omega) lastAt
  omega

omit [DecidableEq E] in
theorem content_without {hole : Nat} {last : E} (bound : hole < s.n)
    (at_ : s.p hole = some e) (lastAt : s.p (s.n - 1) = some last) :
    (e :: stored (filled { s with n := s.n - 1 } hole last) (s.n - 1)).Perm s.content := by
  have whole : s.content = stored s.p (s.n - 1) ++ [last] := by
    rw [Heap.content, ← stored_succ last lastAt, Nat.sub_add_cancel (by omega)]
  rw [whole]
  by_cases isLast : hole = s.n - 1
  · subst isLast
    obtain rfl : e = last := Option.some.inj (at_.symm.trans lastAt)
    have same : stored (filled { s with n := s.n - 1 } (s.n - 1) e) (s.n - 1) = stored s.p (s.n - 1) := by
      apply stored_congr
      intro i inside
      exact filled_of_ne (by omega)
    rw [same]
    exact (List.perm_append_singleton e _).symm
  · exact (stored_update (by omega) at_).trans (List.perm_append_singleton last _).symm

omit [DecidableEq E] in
theorem Sound.not_mem_without {hole : Nat} {last : E} (sound : Sound s) (bound : hole < s.n)
    (at_ : s.p hole = some e) (lastAt : s.p (s.n - 1) = some last) :
    e ∉ stored (filled { s with n := s.n - 1 } hole last) (s.n - 1) := by
  intro member
  obtain ⟨i, inside, there⟩ := mem_stored.mp member
  have index := sound.index bound at_
  by_cases isHole : i = hole
  · subst isHole
    rw [filled_hole] at there
    cases there
    have := sound.index (by omega) lastAt
    omega
  · rw [filled_of_ne isHole] at there
    have := sound.index (by omega) there
    omega

theorem Sound.removed {hole : Nat} {last : E} (sound : Sound s) (bound : hole < s.n)
    (at_ : s.p hole = some e) (lastAt : s.p (s.n - 1) = some last)
    (sifted : Sifted { s with n := s.n - 1 } hole last t) :
    Removed s e { t with minHeapIdx := Function.update t.minHeapIdx e absent } := by
  have size := sound.size
  have soundT : Sound t := sifted.sound (by dsimp only; omega) sound.word
  have rest := content_without bound at_ lastAt
  have gone := sound.not_mem_without bound at_ lastAt
  have content := sifted.content
  have n : t.n = s.n - 1 := sifted.n
  dsimp only at content
  refine ⟨⟨?_, soundT.ordered, soundT.size, soundT.word⟩, ?_, Function.update_self .., ?_⟩
  · intro i inside
    obtain ⟨x, there, index⟩ := soundT.entries i inside
    have other : x ≠ e := by
      rintro rfl
      exact gone (content.mem_iff.mp (mem_stored.mpr ⟨i, n ▸ inside, there⟩))
    exact ⟨x, there, (Function.update_of_ne other ..).trans index⟩
  · have same : Heap.content { t with minHeapIdx := Function.update t.minHeapIdx e absent } =
        stored t.p (s.n - 1) := by
      rw [Heap.content, n]
    rw [same]
    exact (content.cons e).trans rest
  · intro x outside
    have notE : x ≠ e := by
      rintro rfl
      exact outside (mem_stored.mpr ⟨hole, bound, at_⟩)
    have notLast : x ≠ last := by
      rintro rfl
      exact outside (mem_stored.mpr ⟨s.n - 1, by omega, lastAt⟩)
    have notRest : x ∉ stored (filled { s with n := s.n - 1 } hole last) (s.n - 1) :=
      fun member => outside (rest.mem_iff.mp (List.mem_cons_of_mem e member))
    exact (Function.update_of_ne notE ..).trans (sifted.frame x notRest notLast)

omit [DecidableEq E] in
theorem Sound.around {hole : Nat} (sound : Sound s) (bound : hole < s.n - 1) (last : E) :
    Around s.time (filled { s with n := s.n - 1 } hole last) (s.n - 1) hole :=
  (sound.ordered.shrink (Nat.sub_le ..)).around (fun i inside => sound.full i (by omega)) bound
    (fun _ _ _ _ _ => rfl) last

omit [DecidableEq E] in
theorem Sound.ordered_last (sound : Sound s) (last : E) :
    Ordered s.time (filled { s with n := s.n - 1 } (s.n - 1) last) (s.n - 1) := by
  intro i positive inside x y above at_
  have := parent_lt positive
  rw [filled_of_ne (by omega)] at above at_
  exact sound.ordered i positive (by omega) x y above at_

theorem pop_spec (sound : Sound s) (small : s.n < 2 ^ 31) (nonempty : s.n ≠ 0) :
    ∃ e t, minHeapPop s = some (some e, t) ∧ s.p 0 = some e ∧ Removed s e t := by
  have size := sound.size
  obtain ⟨e, at_⟩ := sound.full 0 (by omega)
  obtain ⟨last, lastAt⟩ := sound.full (s.n - 1) (by omega)
  have holed : Holed { s with n := s.n - 1 } 0 last := sound.holed (by omega) lastAt
  have sift : ∃ t, minHeapShiftDown { s with n := s.n - 1 } 0 last = some t ∧
      Sifted { s with n := s.n - 1 } 0 last t := by
    by_cases single : s.n - 1 = 0
    · have holedEnd := holed
      have ordered := sound.ordered_last last
      rw [single] at holedEnd ordered ⊢
      exact minHeapShiftDown_last (show (0 : Nat) < 2 ^ 31 - 1 by omega) holedEnd ordered
    · have around := sound.around (show 0 < s.n - 1 by omega) last
      exact minHeapShiftDown_spec (show s.n - 1 < 2 ^ 31 by omega) (show 0 < s.n - 1 by omega) holed
        (around.down fun contradiction => absurd contradiction (Nat.lt_irrefl 0))
  obtain ⟨t, ran, sifted⟩ := sift
  refine ⟨e, _, ?_, at_, sound.removed (by omega) at_ lastAt sifted⟩
  simp [minHeapPop, nonempty, Heap.load_some (show 0 < s.a by omega) at_,
    Heap.load_some (show s.n - 1 < s.a by omega) lastAt, ran]

theorem erase_spec (sound : Sound s) (small : s.n < 2 ^ 31) (member : e ∈ s.content) :
    ∃ t, minHeapErase s e = some (0, t) ∧ Removed s e t := by
  have size := sound.size
  obtain ⟨bound, at_, present⟩ := sound.cell member
  obtain ⟨last, lastAt⟩ := sound.full (s.n - 1) (by omega)
  have holed : Holed { s with n := s.n - 1 } (s.minHeapIdx e) last := sound.holed bound lastAt
  have sift : ∃ t, shiftEither { s with n := s.n - 1 } (s.minHeapIdx e) last = some t ∧
      Sifted { s with n := s.n - 1 } (s.minHeapIdx e) last t := by
    by_cases isLast : s.minHeapIdx e = s.n - 1
    · -- the entry stands in the last cell itself
      obtain rfl : e = last := Option.some.inj (at_.symm.trans (isLast ▸ lastAt))
      have same : filled { s with n := s.n - 1 } (s.n - 1) e = s.p := Function.update_eq_self_iff.mpr lastAt.symm
      rw [isLast] at holed ⊢
      apply shiftEither_last (show s.n - 1 < 2 ^ 31 - 1 by omega) holed
      rw [same]
      exact sound.ordered.shrink (show s.n - 1 + 1 ≤ s.n by omega)
    · exact shiftEither_spec (show s.n - 1 < 2 ^ 31 by omega) (show s.minHeapIdx e < s.n - 1 by omega) holed
        (sound.around (by omega) last)
  obtain ⟨t, ran, sifted⟩ := sift
  refine ⟨_, ?_, sound.removed bound at_ lastAt sifted⟩
  simp [minHeapErase, present, sub_exact (show 1 ≤ s.n by omega) (show s.n < 2 ^ 32 by omega),
    Heap.load_some (show s.n - 1 < s.a by omega) lastAt, ran]

theorem erase_absent (gone : s.minHeapIdx e = absent) : minHeapErase s e = some (-1, s) := by
  simp [minHeapErase, gone]

theorem adjust_spec (sound : Sound s) (small : s.n < 2 ^ 31) (member : e ∈ s.content) (time : Nat)
    (realloc : Bool) :
    ∃ t, minHeapAdjust (s.setTime e time) e realloc = some (0, t) ∧ Kept s t := by
  obtain ⟨bound, at_, present⟩ := sound.cell member
  have size := sound.size
  have others (i : Nat) (x : E) (inside : i < s.n) (apart : i ≠ s.minHeapIdx e) (there : s.p i = some x) :
      x ≠ e := by
    rintro rfl
    exact apart (sound.index inside there).symm
  have same : filled (s.setTime e time) (s.minHeapIdx e) e = s.p := Function.update_eq_self_iff.mpr at_.symm
  have holed : Holed (s.setTime e time) (s.minHeapIdx e) e := by
    refine ⟨?_, Nat.lt_of_lt_of_le bound size, size, sound.word⟩
    intro i inside apart
    obtain ⟨x, there, index⟩ := sound.entries i inside
    exact ⟨x, there, index, others i x inside apart there⟩
  have around : Around (s.setTime e time).time (filled (s.setTime e time) (s.minHeapIdx e) e) s.n
      (s.minHeapIdx e) := by
    apply sound.ordered.around sound.full bound
    intro i x inside apart there
    exact Function.update_of_ne (others i x inside apart there) ..
  obtain ⟨t, ran, sifted⟩ := shiftEither_spec (s := s.setTime e time) small bound holed around
  refine ⟨t, ?_, sifted.sound size sound.word, ?_, ?_⟩
  · have stillPresent : (s.setTime e time).minHeapIdx e ≠ absent := present
    have ranHere : shiftEither (s.setTime e time) ((s.setTime e time).minHeapIdx e) e = some t := ran
    simp [minHeapAdjust, stillPresent, ranHere]
  · have content := sifted.content
    rw [same] at content
    rw [Heap.content, sifted.n]
    exact content
  · intro x outside
    apply sifted.frame x
    · rw [same]
      exact outside
    · rintro rfl
      exact outside member

end CppInfra.Timer.MinHeap
