import CppInfra.Shared.Transition
import Mathlib.Data.List.Perm.Basic

set_option autoImplicit false

namespace CppInfra.Ledger

open Transition

inductive Call where
  | obtain (p : Nat)
  | free (p : Nat)
  deriving DecidableEq

-- `outstanding` are the addresses that were obtained and not freed. To free null does nothing.
def book (outstanding : List Nat) : Call → Option (List Nat)
  | .obtain p => if p = 0 ∨ p ∈ outstanding then none else some (p :: outstanding)
  | .free p =>
      if p = 0 then some outstanding
      else if p ∈ outstanding then some (outstanding.erase p)
      else none

def Leads (before : List Nat) (calls : List Call) (after : List Nat) : Prop :=
  ∃ outstanding, run book before calls = some outstanding ∧ outstanding.Perm after

theorem book_perm {first second next : List Nat} {call : Call} (same : first.Perm second)
    (booked : book first call = some next) : ∃ other, book second call = some other ∧ next.Perm other := by
  cases call with
  | obtain p =>
      simp only [book, same.mem_iff] at booked ⊢
      split at booked
      · cases booked
      · rename_i new
        obtain rfl := Option.some.inj booked
        exact ⟨p :: second, if_neg new, same.cons p⟩
  | free p =>
      simp only [book, same.mem_iff] at booked ⊢
      split at booked
      · rename_i null
        obtain rfl := Option.some.inj booked
        exact ⟨second, if_pos null, same⟩
      · rename_i nonnull
        split at booked
        · rename_i there
          obtain rfl := Option.some.inj booked
          exact ⟨second.erase p, by rw [if_neg nonnull, if_pos there], same.erase p⟩
        · cases booked

theorem Leads.perm {before other after : List Nat} {calls : List Call} (leads : Leads before calls after)
    (same : before.Perm other) : Leads other calls after := by
  obtain ⟨outstanding, ran, final⟩ := leads
  induction calls generalizing before other with
  | nil =>
      obtain rfl := Option.some.inj ran
      exact ⟨other, rfl, same.symm.trans final⟩
  | cons call rest ih =>
      obtain ⟨next, booked, later⟩ := run_cons.mp ran
      obtain ⟨next', booked', sameNext⟩ := book_perm same booked
      obtain ⟨outstanding', ran', final'⟩ := ih sameNext later
      exact ⟨outstanding', run_cons.mpr ⟨next', booked', ran'⟩, final'⟩

theorem Leads.nil {before after : List Nat} (same : before.Perm after) : Leads before [] after := ⟨before, rfl, same⟩

theorem Leads.append {before between after : List Nat} {first second : List Call} (early : Leads before first between)
    (late : Leads between second after) : Leads before (first ++ second) after := by
  obtain ⟨middle, ran, same⟩ := early
  obtain ⟨final, ranLater, sameLater⟩ := late.perm same.symm
  exact ⟨final, by rw [run_append, ran]; exact ranLater, sameLater⟩

theorem Leads.obtain {before : List Nat} {p : Nat} (nonnull : p ≠ 0) (new : p ∉ before) :
    Leads before [.obtain p] (p :: before) := by
  refine ⟨p :: before, ?_, List.Perm.refl _⟩
  simp [run, book, nonnull, new]

theorem Leads.free {before after : List Nat} {p : Nat} (nonnull : p ≠ 0) (same : before.Perm (p :: after)) :
    Leads before [.free p] after := by
  have there : p ∈ before := same.mem_iff.mpr (List.mem_cons_self ..)
  refine ⟨before.erase p, ?_, ?_⟩
  · simp [run, book, nonnull, there]
  · simpa using same.erase p

theorem Leads.freeNull (before : List Nat) : Leads before [.free 0] before := ⟨before, rfl, List.Perm.refl _⟩

theorem Leads.frees {before after : List Nat} {ps : List Nat} (nonnull : ∀ p ∈ ps, p ≠ 0)
    (same : before.Perm (ps ++ after)) : Leads before (ps.map .free) after := by
  induction ps generalizing before with
  | nil => exact Leads.nil same
  | cons p rest ih =>
      have first : Leads before [.free p] (rest ++ after) := Leads.free (nonnull p (List.mem_cons_self ..)) same
      exact first.append (ih (fun q member => nonnull q (List.mem_cons_of_mem p member)) (List.Perm.refl _))

theorem book_count {before after : List Nat} {call : Call} (booked : book before call = some after) (p : Nat)
    (nonnull : p ≠ 0) :
    before.count p + [call].count (.obtain p) = after.count p + [call].count (.free p) := by
  cases call with
  | obtain q =>
      simp only [book] at booked
      split at booked
      · cases booked
      · obtain rfl := Option.some.inj booked
        by_cases same : q = p
        · simp [same]
        · simp [same]
  | free q =>
      simp only [book] at booked
      split at booked
      · rename_i null
        obtain rfl := Option.some.inj booked
        simp [null, nonnull.symm]
      · split at booked
        · rename_i there
          obtain rfl := Option.some.inj booked
          by_cases same : q = p
          · subst same
            have some := List.count_pos_iff.mpr there
            simp only [List.count_erase_self, List.count_singleton_self]
            simp
            omega
          · simp [same, List.count_erase_of_ne (Ne.symm same)]
        · cases booked

theorem Leads.count {before after : List Nat} {calls : List Call} (leads : Leads before calls after) (p : Nat)
    (nonnull : p ≠ 0) : before.count p + calls.count (.obtain p) = after.count p + calls.count (.free p) := by
  obtain ⟨outstanding, ran, same⟩ := leads
  rw [← same.count_eq]
  induction calls generalizing before with
  | nil =>
      obtain rfl := Option.some.inj ran
      rfl
  | cons call rest ih =>
      obtain ⟨next, booked, later⟩ := run_cons.mp ran
      have here := book_count booked p nonnull
      have behind := ih later
      rw [List.count_cons, List.count_cons]
      simp only [List.count_cons, List.count_nil] at here
      omega

end CppInfra.Ledger
