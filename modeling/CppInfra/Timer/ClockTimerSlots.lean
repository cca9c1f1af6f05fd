import CppInfra.Timer.ClockTimer
import CppInfra.Shared.WheelRuns

set_option autoImplicit false

namespace CppInfra.Timer.ClockTimer

open Words

-- The tables without the wrap: `time` and `expire` are the clock and a node's field.
def InSlot (time expire : Nat) : Slot → Prop
  | .second j => j = expire % 60 ∧ time ≤ expire ∧ expire < time + 60
  | .minute j => j = expire / 60 % 60 ∧ time < expire - expire % 60 ∧ expire < time + 3600
  | .hour j => j = expire / 3600 % 12 ∧ time < expire - expire % 3600

-- `timer_shift` never moves `minute[0]`.
def Slot.Dead (slot : Slot) : Prop := slot = .minute 0

def SameRound (ticks due : Nat) : Prop := ticks / 2 ^ 32 = due / 2 ^ 32

def Held (ticks due : Nat) (slot : Slot) : Prop :=
  slot.Dead ∨ SameRound ticks due ∧ InSlot (ticks % 2 ^ 32) (due % 2 ^ 32) slot

theorem slotOf_cases {time expire : Nat} (order : time ≤ expire) (word : expire < 2 ^ 32) :
    slotOf expire time = .second (expire % 60) ∧ expire < time + 60 ∨
      slotOf expire time = .minute (expire / 60 % 60) ∧ time + 60 ≤ expire ∧ expire < time + 3600 ∨
      slotOf expire time = .hour (expire / 3600 % 12) ∧ time + 3600 ≤ expire := by
  rw [slotOf, sub_exact order word]
  by_cases seconds : expire - time < 60
  · rw [if_pos seconds]
    exact .inl ⟨rfl, by omega⟩
  · by_cases minutes : expire - time < 3600
    · rw [if_neg seconds, if_pos minutes]
      exact .inr (.inl ⟨rfl, by omega, by omega⟩)
    · rw [if_neg seconds, if_neg minutes]
      exact .inr (.inr ⟨rfl, by omega⟩)

theorem slotOf_inSlot {time expire : Nat} (order : time ≤ expire) (word : expire < 2 ^ 32) :
    InSlot time expire (slotOf expire time) := by
  rcases slotOf_cases order word with ⟨chosen, close⟩ | ⟨chosen, far, close⟩ | ⟨chosen, far⟩
  · rw [chosen]
    exact ⟨rfl, order, close⟩
  · rw [chosen]
    exact ⟨rfl, by omega, close⟩
  · rw [chosen]
    exact ⟨rfl, by omega⟩

theorem remapped_some {time : Nat} {slot : Slot} (moved : remapped time = some slot) :
    (∃ j, slot = .minute j ∧ j ≠ 0 ∧ time % 60 = 0 ∧ time / 60 % 60 = j) ∨
      ∃ j, slot = .hour j ∧ time % 3600 = 0 ∧ time / 3600 % 12 = j := by
  simp only [remapped] at moved
  split at moved
  · cases moved
    exact .inr ⟨0, rfl, by omega, by omega⟩
  · split at moved
    · split at moved
      · cases moved
        exact .inl ⟨_, rfl, by assumption, by omega, by omega⟩
      · split at moved
        · cases moved
          exact .inr ⟨_, rfl, by omega, by omega⟩
        · cases moved
    · cases moved

theorem remapped_minute {time : Nat} (begins : time % 60 = 0) (index : time / 60 % 60 ≠ 0) :
    remapped time = some (.minute (time / 60 % 60)) := by
  have first : time % 43200 ≠ 0 := by omega
  have second : time % 43200 % 60 = 0 := by omega
  have same : time % 43200 / 60 % 60 = time / 60 % 60 := by omega
  simp only [remapped, first, second, same, index, if_true, if_false, ne_eq, not_false_eq_true]

theorem remapped_hour {time : Nat} (begins : time % 3600 = 0) : remapped time = some (.hour (time / 3600 % 12)) := by
  by_cases noon : time % 43200 = 0
  · have index : time / 3600 % 12 = 0 := by omega
    simp only [remapped, noon, if_true, index]
  · have second : time % 43200 % 60 = 0 := by omega
    have minute : time % 43200 / 60 % 60 = 0 := by omega
    have same : time % 43200 / 3600 % 12 = time / 3600 % 12 := by omega
    have index : time / 3600 % 12 ≠ 0 := by omega
    simp only [remapped, noon, second, minute, same, index, if_true, if_false, ne_eq, not_true_eq_false,
      not_false_eq_true]

theorem InSlot.tick {time expire : Nat} {slot : Slot} (held : InSlot time expire slot) (live : ¬ slot.Dead)
    (later : slot ≠ .second (time % 60)) (unmoved : remapped (time + 1) ≠ some slot) :
    InSlot (time + 1) expire slot := by
  cases slot with
  | second j =>
      obtain ⟨index, order, close⟩ := held
      have passed : time ≠ expire := by
        rintro rfl
        exact later (by rw [index])
      exact ⟨index, by omega, by omega⟩
  | minute j =>
      obtain ⟨index, ahead, close⟩ := held
      refine ⟨index, ?_, by omega⟩
      -- Otherwise the minute begins with this tick and the list is moved.
      by_contra reached
      have nonzero : j ≠ 0 := fun zero => live (by rw [Slot.Dead, zero])
      have same : (time + 1) / 60 % 60 = j := by omega
      apply unmoved
      rw [remapped_minute (by omega) (by rw [same]; exact nonzero), same]
  | hour j =>
      obtain ⟨index, ahead⟩ := held
      refine ⟨index, ?_⟩
      by_contra reached
      have same : (time + 1) / 3600 % 12 = j := by omega
      apply unmoved
      rw [remapped_hour (by omega), same]

theorem InSlot.moves {time expire : Nat} {slot : Slot} (held : InSlot time expire slot)
    (word : expire < 2 ^ 32) (moved : remapped (time + 1) = some slot) :
    time + 1 ≤ expire ∧ ¬ (slotOf expire (time + 1)).Dead := by
  rcases remapped_some moved with ⟨j, rfl, nonzero, begins, index⟩ | ⟨j, rfl, begins, index⟩
  · obtain ⟨same, ahead, close⟩ := held
    refine ⟨by omega, ?_⟩
    have inside : expire < time + 1 + 60 := by omega
    rcases slotOf_cases (show time + 1 ≤ expire by omega) word with ⟨chosen, _⟩ | ⟨_, far, _⟩ | ⟨_, far⟩
    · simp [chosen, Slot.Dead]
    · omega
    · omega
  · obtain ⟨same, ahead⟩ := held
    refine ⟨by omega, ?_⟩
    rcases slotOf_cases (show time + 1 ≤ expire by omega) word with ⟨chosen, _⟩ | ⟨chosen, far, near⟩ | ⟨chosen, _⟩
    · simp [chosen, Slot.Dead]
    · have later : expire / 60 % 60 ≠ 0 := by omega
      simp [chosen, Slot.Dead, later]
    · simp [chosen, Slot.Dead]

theorem InSlot.order {time expire : Nat} {slot : Slot} (held : InSlot time expire slot) :
    time ≤ expire ∧ (slot = .second (time % 60) ↔ expire = time) := by
  cases slot with
  | second j =>
      obtain ⟨index, order, close⟩ := held
      refine ⟨order, ?_⟩
      rw [Slot.second.injEq]
      omega
  | minute j =>
      obtain ⟨index, ahead, close⟩ := held
      refine ⟨by omega, ?_⟩
      simp only [reduceCtorEq, false_iff]
      omega
  | hour j =>
      obtain ⟨index, ahead⟩ := held
      refine ⟨by omega, ?_⟩
      simp only [reduceCtorEq, false_iff]
      omega

theorem round_ends {ticks due : Nat} {slot : Slot} (same : SameRound ticks due)
    (held : InSlot (ticks % 2 ^ 32) (due % 2 ^ 32) slot) (later : slot ≠ .second (ticks % 2 ^ 32 % 60)) :
    (ticks + 1) % 2 ^ 32 = ticks % 2 ^ 32 + 1 ∧ SameRound (ticks + 1) due := by
  obtain ⟨order, now⟩ := held.order
  have differ : due % 2 ^ 32 ≠ ticks % 2 ^ 32 := mt now.mpr later
  rw [SameRound] at *
  omega

def laws : Wheel.Laws clock where
  Dead := Slot.Dead
  Near := SameRound
  Held := Held
  linked := by
    intro ticks due order same
    refine .inr ⟨same, slotOf_inSlot ?_ (Nat.mod_lt _ (by decide))⟩
    rw [SameRound] at same
    omega
  tick := by
    intro ticks due slot held later unmoved
    rcases held with dead | ⟨same, inSlot⟩
    · exact .inl dead
    · by_cases dead : slot.Dead
      · exact .inl dead
      · obtain ⟨next, still⟩ := round_ends same inSlot later
        refine .inr ⟨still, ?_⟩
        rw [next] at unmoved ⊢
        exact inSlot.tick dead later unmoved
  moves := by
    intro ticks due slot held moved
    have live : ¬ slot.Dead := by
      rintro rfl
      rcases remapped_some moved with ⟨j, same, nonzero, _⟩ | ⟨j, same, _⟩
      · cases same
        exact nonzero rfl
      · cases same
    obtain ⟨same, inSlot⟩ := held.resolve_left live
    have later : slot ≠ .second (ticks % 2 ^ 32 % 60) := by
      rintro rfl
      rcases remapped_some moved with ⟨j, wrong, _⟩ | ⟨j, wrong, _⟩
      · cases wrong
      · cases wrong
    obtain ⟨next, still⟩ := round_ends same inSlot later
    rw [next] at moved ⊢
    obtain ⟨order, alive⟩ := inSlot.moves (Nat.mod_lt _ (by decide)) moved
    refine ⟨?_, still, alive⟩
    rw [SameRound] at same
    omega
  live := by
    intro ticks due slot held live
    obtain ⟨same, inSlot⟩ := held.resolve_left live
    obtain ⟨order, now⟩ := inSlot.order
    refine ⟨?_, same, now.trans ?_⟩
    · rw [SameRound] at same
      omega
    · rw [SameRound] at same
      omega
  executed := by
    intro time dead
    cases dead
  moved := by
    intro time slot moved
    rintro rfl
    rcases remapped_some moved with ⟨j, same, nonzero, _⟩ | ⟨j, same, _⟩
    · cases same
      exact nonzero rfl
    · cases same

end CppInfra.Timer.ClockTimer
