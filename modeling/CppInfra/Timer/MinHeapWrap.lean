import CppInfra.Timer.MinHeapRuns

set_option autoImplicit false

-- The right child of cell 2^31 - 1 has index 2^32, which wraps to 0.
namespace CppInfra.Timer.MinHeap

open BinaryHeap Words Transition

theorem push_level {h : Heap Nat} (sound : Sound h) (bound : h.n + 1 < 2 ^ 32) (level : ∀ e, h.time e = 0)
    (e : Nat) :
    ∃ a, h.n < a ∧ a < 2 ^ 32 ∧ minHeapPush h e true =
      some (0, ⟨Function.update h.p h.n (some e), h.n + 1, a, h.time, Function.update h.minHeapIdx e h.n⟩) := by
  rcases reserved_spec sound bound true with failed | ⟨a, reserved, room, word⟩
  · exfalso
    by_cases full : h.a < add 32 h.n 1 <;> simp [minHeapReserve, full] at failed
  · refine ⟨a, room, word, ?_⟩
    rw [minHeapPush, reserved]
    simp only [ne_eq, not_true_eq_false, if_false, add_exact bound]
    by_cases isRoot : h.n = 0
    · simp only [minHeapShiftUp, isRoot, shiftUpTurns, if_true, Heap.place]
      rw [if_pos (by omega)]
      rfl
    · have positive := Nat.pos_of_ne_zero isRoot
      have up := parent_lt positive
      obtain ⟨x, at_⟩ := sound.full (parent h.n) (by omega)
      have loaded : Heap.load ⟨h.p, h.n + 1, a, h.time, h.minHeapIdx⟩ (parent h.n) = some x :=
        Heap.load_some (show parent h.n < a by omega) at_
      simp [minHeapShiftUp, shiftUpTurns, isRoot, parentOf_eq positive (by omega), loaded,
        minHeapElemGreater, level, Heap.place, room]

structure Lined (k : Nat) (s : State Nat) : Prop where
  cells : ∀ i < k, s.heap.p i = some i
  index : ∀ i < k, s.heap.minHeapIdx i = i
  n : s.heap.n = k
  size : k ≤ s.heap.a
  word : s.heap.a < 2 ^ 32
  time : ∀ e, s.heap.time e = 0

theorem Lined.sound {k : Nat} {s : State Nat} (lined : Lined k s) : Sound s.heap := by
  refine ⟨?_, ?_, by rw [lined.n]; exact lined.size, lined.word⟩
  · intro i inside
    rw [lined.n] at inside
    exact ⟨i, lined.cells i inside, lined.index i inside⟩
  · intro i _ _ x y _ _
    rw [lined.time, lined.time]

theorem Lined.new {k : Nat} {s : State Nat} (lined : Lined k s) : k ∉ s.heap.content := by
  intro member
  obtain ⟨i, inside, at_⟩ := mem_stored.mp member
  rw [lined.n] at inside
  rw [lined.cells i inside] at at_
  cases at_
  exact Nat.lt_irrefl _ inside

theorem Lined.push {k : Nat} {s : State Nat} (lined : Lined k s) (bound : k + 1 < 2 ^ 32) :
    ∃ t, step s (.push k true) = some t ∧ Lined (k + 1) t := by
  have n := lined.n
  obtain ⟨a, room, word, pushed⟩ := push_level lined.sound (by rw [n]; exact bound) lined.time k
  rw [n] at room pushed
  have taken : step s (.push k true) = some
      { heap := ⟨Function.update s.heap.p k (some k), k + 1, a, s.heap.time, Function.update s.heap.minHeapIdx k k⟩
        left := leave s.left (.push k true) (.code 0) } := by
    simp [step, call, pushed]
  refine ⟨_, taken, ?_, ?_, rfl, room, word, lined.time⟩
  · intro i inside
    by_cases last : i = k
    · subst last
      exact Function.update_self ..
    · exact (Function.update_of_ne last ..).trans (lined.cells i (by omega))
  · intro i inside
    by_cases last : i = k
    · subst last
      exact Function.update_self ..
    · exact (Function.update_of_ne last ..).trans (lined.index i (by omega))

theorem pushes_lined {k : Nat} (bound : k ≤ 2 ^ 31) :
    Along step (fun s event => Allowed s.heap event) (.initial (fun _ => 0) fun _ => 0)
        ((List.range k).map fun e => .push e true) ∧
      ∃ s, run step (.initial (fun _ => 0) fun _ => 0) ((List.range k).map fun e => .push e true) = some s ∧
        Lined k s := by
  induction k with
  | zero =>
      refine ⟨trivial, _, rfl, ?_⟩
      constructor <;> simp [State.initial, minHeapCtor]
  | succ k ih =>
      obtain ⟨along, s, ran, lined⟩ := ih (by omega)
      obtain ⟨t, taken, linedT⟩ := lined.push (by omega)
      rw [List.range_succ, List.map_append, List.map_singleton]
      refine ⟨along_append.mpr ⟨along, ?_⟩, t, run_concat.mpr ⟨s, ran, taken⟩, linedT⟩
      intro middle reached
      obtain rfl : s = middle := Option.some.inj (ran.symm.trans reached)
      exact ⟨lined.new, fun _ _ => trivial⟩

theorem shiftDown_wraps {h : Heap Nat} (n : h.n = 2 ^ 31 - 1) (word : h.a < 2 ^ 32) (e : Nat) :
    minHeapShiftDown h h.n e = none := by
  have child : 2 * (h.n + 1) % 2 ^ 32 = 0 := by omega
  have outside : h.load (sub 32 0 1) = none := if_neg (by unfold sub; omega)
  have chosen : leastChild h 0 = none := by
    rw [leastChild, if_neg (by omega), outside]
    cases h.load 0 <;> rfl
  change shiftDownTurns (2 ^ 32 - 1 + 1) h h.n e = none
  rw [shiftDownTurns, child, if_pos (Nat.zero_le _), chosen]
  rfl

theorem Lined.erase_fails {k : Nat} {s : State Nat} (count : k = 2 ^ 31 - 1) (lined : Lined (k + 1) s) :
    step s (.erase k) = none := by
  have n := lined.n
  have size := lined.size
  have word := lined.word
  have index := lined.index k (Nat.lt_succ_self k)
  have positive : 0 < k := by omega
  have up := parent_lt positive
  have last : s.heap.load k = some k := Heap.load_some size (lined.cells k (Nat.lt_succ_self k))
  have above : Heap.load { s.heap with n := k } (parent k) = some (parent k) :=
    Heap.load_some (show parent k < s.heap.a by omega) (lined.cells _ (by omega))
  have down : minHeapShiftDown { s.heap with n := k } k k = none :=
    shiftDown_wraps (h := { s.heap with n := k }) count word k
  have sifted : shiftEither { s.heap with n := k } k k = none := by
    rw [shiftEither, if_pos positive, parentOf_eq positive (by omega), above]
    simp only [Option.bind_eq_bind, Option.bind_some, minHeapElemGreater, lined.time, gt_iff_lt, Nat.lt_irrefl,
      decide_false, Bool.false_eq_true, if_false]
    exact down
  have present : s.heap.minHeapIdx k ≠ absent := by
    rw [index, absent]
    omega
  have minus : sub 32 s.heap.n 1 = k := by
    rw [n, sub_exact (by omega) (by omega)]
    omega
  have erased : minHeapErase s.heap k = none := by
    rw [minHeapErase, if_pos present]
    simp only [minus, last, index, Option.bind_eq_bind, Option.bind_some, sifted, Option.bind_none]
  simp only [step, call, erased, Option.map_none, Option.bind_eq_bind, Option.bind_none]

def wrapping (k : Nat) : List (Event Nat) :=
  ((List.range (k + 1)).map fun e => .push e true) ++ [.erase k]

theorem wrapping_fails {k : Nat} (count : k = 2 ^ 31 - 1) :
    Along step (fun s event => Allowed s.heap event) (.initial (fun _ => 0) fun _ => 0) (wrapping k) ∧
      run step (.initial (fun _ => 0) fun _ => 0) (wrapping k) = none := by
  obtain ⟨along, s, ran, lined⟩ := pushes_lined (show k + 1 ≤ 2 ^ 31 by omega)
  constructor
  · refine along_append.mpr ⟨along, ?_⟩
    intro middle reached
    obtain rfl : s = middle := Option.some.inj (ran.symm.trans reached)
    refine ⟨.inr (mem_stored.mpr ⟨k, ?_, lined.cells k (Nat.lt_succ_self k)⟩), fun _ _ => trivial⟩
    rw [lined.n]
    exact Nat.lt_succ_self k
  · rw [wrapping, run_append, ran]
    simp [run, lined.erase_fails count]

theorem minHeap_invariant_wrapping :
    Along step (fun s event => Allowed s.heap event) (.initial (fun _ => 0) fun _ => 0)
        (wrapping (2 ^ 31 - 1)) ∧
      run step (.initial (fun _ => 0) fun _ => 0) (wrapping (2 ^ 31 - 1)) = none :=
  wrapping_fails rfl

end CppInfra.Timer.MinHeap
