import CppInfra.Timer.TimeWheelSlots

set_option autoImplicit false

namespace CppInfra.Timer.TimeWheel

open Words

def timeNearShift : Nat := 8

def timeNear : Nat := 1 <<< timeNearShift

def timeLevelShift : Nat := 6

def timeLevel : Nat := 1 <<< timeLevelShift

def timeNearMask : Nat := timeNear - 1

def timeLevelMask : Nat := timeLevel - 1

def addNodeSlot (time currentTime : Nat) : Slot :=
  let msec := sub 32 time currentTime
  if msec < timeNear then .near (time &&& timeNearMask)
  else if msec < 1 <<< (timeNearShift + timeLevelShift) then .t 0 (time >>> timeNearShift &&& timeLevelMask)
  else if msec < 1 <<< (timeNearShift + 2 * timeLevelShift) then
    .t 1 (time >>> (timeNearShift + timeLevelShift) &&& timeLevelMask)
  else if msec < 1 <<< (timeNearShift + 3 * timeLevelShift) then
    .t 2 (time >>> (timeNearShift + 2 * timeLevelShift) &&& timeLevelMask)
  else .t 3 (time >>> (timeNearShift + 3 * timeLevelShift) &&& timeLevelMask)

-- The loop of `timer_shift`: the level it stops on and, if it moves a list there, the index. It is `none` when `mask`
-- would overflow an `int` or the turns are used up.
def shiftLoop : Nat → Nat → Nat → Nat → Nat → Option (Nat × Option Nat)
  | 0, _, _, _, _ => none
  | turns + 1, ct, mask, time, i =>
      if ct &&& (mask - 1) = 0 then
        let idx := time &&& timeLevelMask
        if idx ≠ 0 then some (i, some idx)
        else if mask <<< timeLevelShift < 2 ^ 31 then
          shiftLoop turns ct (mask <<< timeLevelShift) (time >>> timeLevelShift) (i + 1)
        else none
      else some (i, none)

def shiftCall (turns ct : Nat) : Option (Nat × Option Nat) :=
  if ct = 0 then some (3, some 0) else shiftLoop turns ct timeNear (ct >>> timeNearShift) 0

theorem and_timeLevelMask (time : Nat) : time &&& timeLevelMask = time % 2 ^ 6 :=
  Nat.and_two_pow_sub_one_eq_mod time 6

theorem addNodeSlot_eq (time currentTime : Nat) : addNodeSlot time currentTime = slotOf time currentTime := by
  have near : time &&& timeNearMask = time % 2 ^ 8 := Nat.and_two_pow_sub_one_eq_mod time 8
  simp only [addNodeSlot, slotOf, near, and_timeLevelMask, Nat.shiftRight_eq_div_pow]
  rfl

-- The induction is on the levels that are left. On the last one the index is not 0, or `ct` would be.
theorem shiftLoop_stops {ct : Nat} (levels turns level : Nat) (bound : ct < 2 ^ 32) (nonzero : ct ≠ 0)
    (total : level + levels = 4) (remaining : 0 < levels) (enough : levels ≤ turns) :
    ∃ i idx, shiftLoop turns ct (2 ^ (8 + 6 * level)) (ct / 2 ^ (8 + 6 * level)) level = some (i, idx) ∧ i ≤ 3 ∧
      shiftedList levels ct (2 ^ (8 + 6 * level)) (ct / 2 ^ (8 + 6 * level)) level = some (idx.map (i, ·)) := by
  induction levels generalizing turns level with
  | zero => omega
  | succ levels ih =>
      obtain ⟨turns, rfl⟩ := Nat.exists_eq_succ_of_ne_zero (show turns ≠ 0 by omega)
      have wider : 2 ^ (8 + 6 * level) * 2 ^ 6 = 2 ^ (8 + 6 * (level + 1)) := by
        rw [← Nat.pow_add]
        congr 1
      have mask : 2 ^ (8 + 6 * level) <<< timeLevelShift = 2 ^ (8 + 6 * (level + 1)) := by
        rw [Nat.shiftLeft_eq, ← wider, timeLevelShift]
      have next : (ct / 2 ^ (8 + 6 * level)) >>> timeLevelShift = ct / 2 ^ (8 + 6 * (level + 1)) := by
        rw [Nat.shiftRight_eq_div_pow, Nat.div_div_eq_div_mul, timeLevelShift, wider]
      rw [shiftLoop, shiftedList, Nat.and_two_pow_sub_one_eq_mod, and_timeLevelMask, mask, next, wider,
        Nat.div_div_eq_div_mul, wider]
      by_cases begins : ct % 2 ^ (8 + 6 * level) = 0
      · by_cases index : ct / 2 ^ (8 + 6 * level) % 2 ^ 6 = 0
        · have last : levels ≠ 0 := by
            rintro rfl
            obtain rfl : level = 3 := by omega
            omega
          have fits : 2 ^ (8 + 6 * (level + 1)) < 2 ^ 31 := Nat.pow_lt_pow_right (by decide) (by omega)
          simp only [begins, index, fits, if_true, ne_eq, not_true, if_false]
          exact ih turns (level + 1) (by omega) (by omega) (by omega)
        · simp only [begins, if_true, ne_eq, index, not_false_eq_true]
          exact ⟨level, some _, rfl, by omega, rfl⟩
      · simp only [begins, if_false]
        exact ⟨level, none, rfl, by omega, rfl⟩

theorem shiftCall_stops {turns ct : Nat} (bound : ct < 2 ^ 32) (enough : 4 ≤ turns) :
    ∃ i idx, shiftCall turns ct = some (i, idx) ∧ i ≤ 3 ∧ movedSlot ct = some (idx.map (i, ·)) := by
  rw [shiftCall, movedSlot]
  split_ifs with zero
  · exact ⟨3, some 0, rfl, Nat.le_refl 3, rfl⟩
  · have same : ct >>> timeNearShift = ct / 2 ^ 8 := Nat.shiftRight_eq_div_pow ct 8
    rw [same]
    exact shiftLoop_stops 4 turns 0 bound zero (by omega) (by omega) enough

theorem shiftCall_moves {turns ct level idx : Nat} (bound : ct < 2 ^ 32) (enough : 4 ≤ turns)
    (called : shiftCall turns ct = some (level, some idx)) :
    movedSlot ct = some (some (level, idx)) ∧ Moves ct level idx := by
  obtain ⟨i, j, stops, -, moved⟩ := shiftCall_stops bound enough
  cases stops.symm.trans called
  refine ⟨moved, ?_⟩
  rcases movedSlot_spec bound with ⟨level', idx', found, moves⟩ | ⟨found, -⟩
  · cases moved.symm.trans found
    exact moves
  · cases moved.symm.trans found

end CppInfra.Timer.TimeWheel
