import Mathlib.Logic.Function.Basic
import CppInfra.Shared.Words

set_option autoImplicit false

namespace CppInfra.ByteMemory

abbrev Memory := Nat → UInt8

def load (memory : Memory) : Nat → Nat → Nat
  | _, 0 => 0
  | a, n + 1 => (memory a).toNat + 256 * load memory (a + 1) n

def store (memory : Memory) (a : Nat) : Nat → Nat → Memory
  | _, 0 => memory
  | v, n + 1 => Function.update (store memory (a + 1) (v / 256) n) a (UInt8.ofNat v)

def fill (memory : Memory) (a n : Nat) (byte : UInt8) : Memory :=
  fun b => if a ≤ b ∧ b < a + n then byte else memory b

def Apart (a n b k : Nat) : Prop := a + n ≤ b ∨ b + k ≤ a

theorem Apart.symm {a n b k : Nat} (apart : Apart a n b k) : Apart b k a n := Or.symm apart

theorem load_congr {memory other : Memory} {a n : Nat} (same : ∀ b, a ≤ b → b < a + n → other b = memory b) :
    load other a n = load memory a n := by
  induction n generalizing a with
  | zero => rfl
  | succ n ih =>
      have first : other a = memory a := same a (by omega) (by omega)
      have rest := ih (a := a + 1) fun b low high => same b (by omega) (by omega)
      rw [load, load, first, rest]

theorem store_outside {memory : Memory} {a v n b : Nat} (outside : b < a ∨ a + n ≤ b) :
    store memory a v n b = memory b := by
  induction n generalizing a v with
  | zero => rfl
  | succ n ih =>
      have other : b ≠ a := by omega
      rw [store, Function.update_of_ne other]
      apply ih
      omega

theorem load_store_same (memory : Memory) (a v n : Nat) : load (store memory a v n) a n = v % 256 ^ n := by
  induction n generalizing a v with
  | zero => simp [load, Nat.mod_one]
  | succ n ih =>
      have rest : load (store memory a v (n + 1)) (a + 1) n = load (store memory (a + 1) (v / 256) n) (a + 1) n := by
        apply load_congr
        intro b low _
        have other : b ≠ a := by omega
        rw [store, Function.update_of_ne other]
      have byte : (store memory a v (n + 1) a).toNat = v % 256 := by
        rw [store, Function.update_self]
        exact UInt8.toNat_ofNat'
      rw [load, rest, ih, byte, Nat.pow_succ, Nat.mul_comm (256 ^ n) 256, Nat.mod_mul]

end CppInfra.ByteMemory
