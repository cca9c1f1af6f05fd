import CppInfra.Timer.TimeWheel

set_option autoImplicit false

-- `due` and `ticks` count without the wrap; the code sees them modulo 2 ^ 32.
namespace CppInfra.Timer.TimeWheel

open Words

-- `timer_shift` never moves these.
def Slot.Dead : Slot → Prop
  | .near _ => False
  | .t level j => level < 3 ∧ j = 0

-- The list of a level is moved when the clock reaches the block of its nodes, so a node in it lies
-- in a later block than the clock.
def Held (ticks due : Nat) : Slot → Prop
  | .near j => j = due % 2 ^ 8 ∧ ticks ≤ due ∧ due < ticks + 2 ^ 8
  | .t level j =>
      level ≤ 3 ∧ j = due / 2 ^ (8 + 6 * level) % 2 ^ 6 ∧
        (¬ (Slot.t level j).Dead →
          ticks < due - due % 2 ^ (8 + 6 * level) ∧ due < ticks + 2 ^ (14 + 6 * level) ∧ due < ticks + 2 ^ 31)

-- The clock `ct` is the first tick of a block whose nodes are in `t[level][j]`.
def Moves (ct level j : Nat) : Prop :=
  level ≤ 3 ∧ (j ≠ 0 ∨ level = 3) ∧ ct % 2 ^ (8 + 6 * level) = 0 ∧ ct / 2 ^ (8 + 6 * level) % 2 ^ 6 = j

theorem msec_exact {ticks due : Nat} (order : ticks ≤ due) (near : due < ticks + 2 ^ 31) :
    sub 32 (due % 2 ^ 32) (ticks % 2 ^ 32) = due - ticks := by
  rw [sub]
  omega

theorem level_cases {level : Nat} (bound : level ≤ 3) : level = 0 ∨ level = 1 ∨ level = 2 ∨ level = 3 := by
  omega

theorem slotOf_cases {ticks due : Nat} (order : ticks ≤ due) (near : due < ticks + 2 ^ 31) :
    slotOf (due % 2 ^ 32) (ticks % 2 ^ 32) = .near (due % 2 ^ 8) ∧ due < ticks + 2 ^ 8 ∨
      ∃ level ≤ 3, slotOf (due % 2 ^ 32) (ticks % 2 ^ 32) = .t level (due / 2 ^ (8 + 6 * level) % 2 ^ 6) ∧
        ticks + 2 ^ (8 + 6 * level) ≤ due ∧ due < ticks + 2 ^ (14 + 6 * level) := by
  simp only [slotOf, msec_exact order near]
  by_cases first : due - ticks < 2 ^ 8
  · have index : due % 2 ^ 32 % 2 ^ 8 = due % 2 ^ 8 := by omega
    rw [if_pos first, index]
    exact .inl ⟨rfl, by omega⟩
  right
  by_cases second : due - ticks < 2 ^ 14
  · have index : due % 2 ^ 32 / 2 ^ 8 % 2 ^ 6 = due / 2 ^ 8 % 2 ^ 6 := by omega
    simp only [first, second, if_true, if_false, index]
    exact ⟨0, by omega, rfl, by omega, by omega⟩
  by_cases third : due - ticks < 2 ^ 20
  · have index : due % 2 ^ 32 / 2 ^ 14 % 2 ^ 6 = due / 2 ^ 14 % 2 ^ 6 := by omega
    simp only [first, second, third, if_true, if_false, index]
    exact ⟨1, by omega, rfl, by omega, by omega⟩
  by_cases fourth : due - ticks < 2 ^ 26
  · have index : due % 2 ^ 32 / 2 ^ 20 % 2 ^ 6 = due / 2 ^ 20 % 2 ^ 6 := by omega
    simp only [first, second, third, fourth, if_true, if_false, index]
    exact ⟨2, by omega, rfl, by omega, by omega⟩
  · have index : due % 2 ^ 32 / 2 ^ 26 % 2 ^ 6 = due / 2 ^ 26 % 2 ^ 6 := by omega
    simp only [first, second, third, fourth, if_false, index]
    exact ⟨3, by omega, rfl, by omega, by omega⟩

theorem slotOf_held {ticks due : Nat} (order : ticks ≤ due) (near : due < ticks + 2 ^ 31) :
    Held ticks due (slotOf (due % 2 ^ 32) (ticks % 2 ^ 32)) := by
  rcases slotOf_cases order near with ⟨chosen, close⟩ | ⟨level, bound, chosen, far, close⟩
  · rw [chosen]
    exact ⟨rfl, order, close⟩
  · rw [chosen]
    refine ⟨bound, rfl, fun _ => ⟨?_, close, near⟩⟩
    have inside := Nat.mod_lt due (Nat.two_pow_pos (8 + 6 * level))
    omega

theorem index_ne_zero {ticks due width : Nat} (positive : 0 < width) (begins : width * 2 ^ 6 ∣ ticks)
    (far : ticks + width ≤ due) (close : due < ticks + width * 2 ^ 6) : due / width % 2 ^ 6 ≠ 0 := by
  obtain ⟨rounds, rfl⟩ := begins
  obtain ⟨ahead, rfl⟩ := Nat.exists_eq_add_of_le (show width * 2 ^ 6 * rounds ≤ due by omega)
  rw [Nat.mul_assoc, Nat.mul_add_div positive, Nat.mul_add_mod, Nat.mod_eq_of_lt (Nat.div_lt_of_lt_mul (by omega))]
  exact Nat.ne_of_gt (Nat.div_pos (by omega) positive)

theorem slotOf_lower {ticks due level : Nat} (bound : level ≤ 3) (begins : ticks % 2 ^ (8 + 6 * level) = 0)
    (order : ticks ≤ due) (inside : due < ticks + 2 ^ (8 + 6 * level)) :
    ∀ lower j, slotOf (due % 2 ^ 32) (ticks % 2 ^ 32) = .t lower j → lower < level ∧ j ≠ 0 := by
  intro lower j chosen
  have near : due < ticks + 2 ^ 31 := by
    rcases level_cases bound with rfl | rfl | rfl | rfl <;> omega
  rcases slotOf_cases order near with ⟨close, _⟩ | ⟨i, _, other, far, close⟩
  · rw [close] at chosen
    cases chosen
  · rw [other] at chosen
    injection chosen with sameLevel sameIndex
    subst sameLevel sameIndex
    have smaller : 8 + 6 * i < 8 + 6 * level := by
      apply (Nat.pow_lt_pow_iff_right (show 1 < 2 by decide)).mp
      omega
    refine ⟨by omega, ?_⟩
    have wider : 2 ^ (8 + 6 * i) * 2 ^ 6 = 2 ^ (14 + 6 * i) := by
      rw [← Nat.pow_add]
      congr 1
      omega
    have divides : 2 ^ (14 + 6 * i) ∣ 2 ^ (8 + 6 * level) := Nat.pow_dvd_pow 2 (by omega)
    rw [← wider] at divides close
    exact index_ne_zero (Nat.two_pow_pos _) (divides.trans (Nat.dvd_of_mod_eq_zero begins)) far close

theorem Held.tick {ticks due : Nat} {slot : Slot} (held : Held ticks due slot)
    (later : slot ≠ .near (ticks % 2 ^ 8)) (unmoved : ∀ level j, slot = .t level j → ¬ Moves (ticks + 1) level j) :
    Held (ticks + 1) due slot := by
  cases slot with
  | near j =>
      obtain ⟨index, order, close⟩ := held
      have passed : ticks ≠ due := by
        rintro rfl
        exact later (by rw [index])
      exact ⟨index, by omega, by omega⟩
  | t level j =>
      obtain ⟨bound, index, block⟩ := held
      refine ⟨bound, index, ?_⟩
      intro live
      obtain ⟨ahead, close, near⟩ := block live
      refine ⟨?_, by omega, by omega⟩
      -- Otherwise the block begins with this tick and the list is moved.
      by_contra reached
      have begins : ticks + 1 = due - due % 2 ^ (8 + 6 * level) := by omega
      apply unmoved level j rfl
      refine ⟨bound, ?_, ?_, ?_⟩
      · simp only [Slot.Dead] at live
        omega
      · rw [begins]
        exact Nat.sub_mod_eq_zero_of_mod_eq (Nat.mod_mod _ _).symm
      · rw [begins, index]
        rcases level_cases bound with rfl | rfl | rfl | rfl <;> omega

theorem Held.moves {ticks due level j : Nat} (held : Held ticks due (.t level j))
    (moves : Moves (ticks + 1) level j) : ticks + 1 ≤ due ∧ due < ticks + 1 + 2 ^ (8 + 6 * level) := by
  obtain ⟨bound, index, block⟩ := held
  obtain ⟨_, live, begins, same⟩ := moves
  obtain ⟨ahead, close, _⟩ := block (by simp only [Slot.Dead]; omega)
  rw [index] at same
  rcases level_cases bound with rfl | rfl | rfl | rfl <;> omega

theorem moves_wrap {ct level j : Nat} : Moves (ct % 2 ^ 32) level j ↔ Moves ct level j := by
  simp only [Moves]
  apply and_congr_right
  intro bound
  rcases level_cases bound with rfl | rfl | rfl | rfl <;> omega

theorem moves_begins {ct level i j : Nat} (above : level ≤ i) (moves : Moves ct i j) :
    ct % 2 ^ (8 + 6 * level) = 0 := by
  have divides : 2 ^ (8 + 6 * level) ∣ 2 ^ (8 + 6 * i) := Nat.pow_dvd_pow 2 (by omega)
  exact Nat.mod_eq_zero_of_dvd (divides.trans (Nat.dvd_of_mod_eq_zero moves.2.2.1))

theorem moves_index_zero {ct level i j : Nat} (below : level < i) (moves : Moves ct i j) :
    ct / 2 ^ (8 + 6 * level) % 2 ^ 6 = 0 := by
  have begins := moves_begins (Nat.succ_le_of_lt below) moves
  have wider : 2 ^ (8 + 6 * (level + 1)) = 2 ^ (8 + 6 * level) * 2 ^ 6 := by
    rw [← Nat.pow_add]
    congr 1
  rw [← Nat.mod_mul_right_div_self, ← wider, begins, Nat.zero_div]

theorem moves_unique {ct level j level' j' : Nat} (first : Moves ct level j) (second : Moves ct level' j') :
    level' = level ∧ j' = j := by
  have index := first.2.2.2
  have index' := second.2.2.2
  rcases Nat.lt_trichotomy level level' with lower | rfl | higher
  · have zero := moves_index_zero lower second
    have live := first.2.1
    have top := second.1
    omega
  · exact ⟨rfl, index'.symm.trans index⟩
  · have zero := moves_index_zero higher first
    have live := second.2.1
    have top := first.1
    omega

theorem shiftedList_spec {ct : Nat} (levels level : Nat) (bound : ct < 2 ^ 32) (nonzero : ct ≠ 0)
    (total : level + levels = 4) (remaining : 0 < levels) (below : ∀ i j, i < level → ¬ Moves ct i j) :
    (∃ i j, shiftedList levels ct (2 ^ (8 + 6 * level)) (ct / 2 ^ (8 + 6 * level)) level = some (some (i, j)) ∧
        Moves ct i j) ∨
      shiftedList levels ct (2 ^ (8 + 6 * level)) (ct / 2 ^ (8 + 6 * level)) level = some none ∧
        ∀ i j, ¬ Moves ct i j := by
  induction levels generalizing level with
  | zero => omega
  | succ levels ih =>
      have wider : 2 ^ (8 + 6 * level) * 2 ^ 6 = 2 ^ (8 + 6 * (level + 1)) := by
        rw [← Nat.pow_add]
        congr 1
      rw [shiftedList, wider, Nat.div_div_eq_div_mul, wider]
      by_cases begins : ct % 2 ^ (8 + 6 * level) = 0
      · by_cases index : ct / 2 ^ (8 + 6 * level) % 2 ^ 6 = 0
        · have last : levels ≠ 0 := by
            rintro rfl
            obtain rfl : level = 3 := by omega
            omega
          simp only [begins, index, if_true, ne_eq, not_true, if_false]
          apply ih (level + 1) (by omega) (by omega)
          intro i j lower moves
          rcases Nat.lt_or_ge i level with earlier | later
          · exact below i j earlier moves
          · obtain rfl : i = level := by omega
            obtain ⟨_, live, _, same⟩ := moves
            omega
        · left
          refine ⟨level, ct / 2 ^ (8 + 6 * level) % 2 ^ 6, ?_, by omega, .inl index, begins, rfl⟩
          rw [if_pos begins, if_pos index]
      · right
        refine ⟨by simp [begins], ?_⟩
        intro i j moves
        rcases Nat.lt_or_ge i level with earlier | later
        · exact below i j earlier moves
        · exact begins (moves_begins later moves)

def movedSlot (ct : Nat) : Option (Option (Nat × Nat)) :=
  if ct = 0 then some (some (3, 0)) else shiftedList 4 ct (2 ^ 8) (ct / 2 ^ 8) 0

theorem movedSlot_spec {ct : Nat} (bound : ct < 2 ^ 32) :
    (∃ level j, movedSlot ct = some (some (level, j)) ∧ Moves ct level j) ∨
      movedSlot ct = some none ∧ ∀ level j, ¬ Moves ct level j := by
  by_cases zero : ct = 0
  · left
    exact ⟨3, 0, if_pos zero, by omega, by omega, by omega, by omega⟩
  · rw [movedSlot, if_neg zero]
    exact shiftedList_spec 4 0 bound zero (by omega) (by omega) (by omega)

end CppInfra.Timer.TimeWheel
