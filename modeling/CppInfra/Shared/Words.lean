import Mathlib.Data.Nat.ModEq

set_option autoImplicit false

namespace CppInfra.Words

def add (w a b : Nat) : Nat := (a + b) % 2 ^ w

def sub (w a b : Nat) : Nat := (a + (2 ^ w - b)) % 2 ^ w

def toSigned (w a : Nat) : Int :=
  if a % 2 ^ w < 2 ^ (w - 1) then (a % 2 ^ w : Nat) else ((a % 2 ^ w : Nat) : Int) - 2 ^ w

theorem add_lt (w a b : Nat) : add w a b < 2 ^ w := Nat.mod_lt _ (Nat.two_pow_pos w)

theorem add_exact {w a b : Nat} (fits : a + b < 2 ^ w) : add w a b = a + b := Nat.mod_eq_of_lt fits

theorem sub_exact {w a b : Nat} (order : b ≤ a) (fits : a < 2 ^ w) : sub w a b = a - b := by
  have total : a + (2 ^ w - b) = (a - b) + 2 ^ w := by omega
  rw [sub, total, Nat.add_mod_right, Nat.mod_eq_of_lt (by omega)]

theorem toSigned_exact {w a : Nat} (fits : a < 2 ^ (w - 1)) : toSigned w a = a := by
  have wider : 2 ^ (w - 1) ≤ 2 ^ w := Nat.pow_le_pow_right (by decide) (by omega)
  have low : a % 2 ^ w = a := Nat.mod_eq_of_lt (by omega)
  simp [toSigned, low, fits]

theorem toSigned_cases (w a : Nat) :
    a % 2 ^ w < 2 ^ (w - 1) ∧ toSigned w a = (a % 2 ^ w : Nat) ∨
      2 ^ (w - 1) ≤ a % 2 ^ w ∧ toSigned w a = ((a % 2 ^ w : Nat) : Int) - 2 ^ w := by
  by_cases low : a % 2 ^ w < 2 ^ (w - 1)
  · exact .inl ⟨low, if_pos low⟩
  · exact .inr ⟨Nat.le_of_not_lt low, if_neg low⟩

theorem toSigned_eq_zero {w a : Nat} : toSigned w a = 0 ↔ a % 2 ^ w = 0 := by
  have below := Nat.mod_lt a (Nat.two_pow_pos w)
  have positive := Nat.two_pow_pos (w - 1)
  have cast : ((2 ^ w : Nat) : Int) = 2 ^ w := by push_cast; rfl
  rcases toSigned_cases w a with ⟨low, same⟩ | ⟨high, same⟩
  · rw [same]
    omega
  · rw [same, ← cast]
    omega

theorem window_injective {c base i j : Nat} (lowI : base ≤ i) (highI : i < base + c) (lowJ : base ≤ j)
    (highJ : j < base + c) (same : i % c = j % c) : i = j := by
  have left : i - j = 0 := by
    have divides := Nat.sub_mod_eq_zero_of_mod_eq same
    rwa [Nat.mod_eq_of_lt (by omega)] at divides
  have right : j - i = 0 := by
    have divides := Nat.sub_mod_eq_zero_of_mod_eq same.symm
    rwa [Nat.mod_eq_of_lt (by omega)] at divides
  omega

theorem window_surjective {c j : Nat} (base : Nat) (bound : j < c) :
    ∃ i, base ≤ i ∧ i < base + c ∧ i % c = j := by
  have split := Nat.div_add_mod base c
  have below := Nat.mod_lt base (show 0 < c by omega)
  by_cases early : base % c ≤ j
  · refine ⟨c * (base / c) + j, by omega, by omega, ?_⟩
    rw [Nat.mul_add_mod, Nat.mod_eq_of_lt bound]
  · refine ⟨c * (base / c + 1) + j, ?_, ?_, ?_⟩
    · rw [Nat.mul_add, Nat.mul_one]
      omega
    · rw [Nat.mul_add, Nat.mul_one]
      omega
    · rw [Nat.mul_add_mod, Nat.mod_eq_of_lt bound]

end CppInfra.Words
