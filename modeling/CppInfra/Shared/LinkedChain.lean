import Mathlib.Logic.Function.Basic
import Mathlib.Data.List.Nodup
import Mathlib.Data.List.Basic

set_option autoImplicit false

-- `next` reads a link: there may be no such node, and the link may be null.
namespace CppInfra.LinkedChain

variable {P : Type*} {next next' : P → Option (Option P)}

def Linked (next : P → Option (Option P)) : P → List P → Prop
  | x, [] => next x = some none
  | x, y :: rest => next x = some (some y) ∧ Linked next y rest

def final : P → List P → P
  | x, [] => x
  | _, y :: rest => final y rest

theorem final_append (x : P) (first second : List P) :
    final x (first ++ second) = final (final x first) second := by
  induction first generalizing x with
  | nil => rfl
  | cons y rest ih => exact ih y

theorem final_mem (x : P) (l : List P) : final x l ∈ x :: l := by
  induction l generalizing x with
  | nil => exact List.mem_singleton.mpr rfl
  | cons y rest ih => exact List.mem_cons_of_mem x (ih y)

theorem final_concat (x y : P) (l : List P) : final x (l ++ [y]) = y := by
  rw [final_append]
  rfl

theorem Linked.congr {x : P} {l : List P} (linked : Linked next x l) (same : ∀ y ∈ x :: l, next' y = next y) :
    Linked next' x l := by
  induction l generalizing x with
  | nil => exact (same x (List.mem_cons_self ..)).trans linked
  | cons y rest ih =>
      exact ⟨(same x (List.mem_cons_self ..)).trans linked.1,
        ih linked.2 fun z member => same z (List.mem_cons_of_mem x member)⟩

theorem Linked.drop {x : P} {first second : List P} (linked : Linked next x (first ++ second)) :
    Linked next (final x first) second := by
  induction first generalizing x with
  | nil => exact linked
  | cons y rest ih => exact ih linked.2

theorem Linked.splice {x : P} {first second rest : List P} (linked : Linked next x (first ++ second))
    (distinct : (x :: first).Nodup) (same : ∀ y ∈ x :: first, y ≠ final x first → next' y = next y)
    (behind : Linked next' (final x first) rest) : Linked next' x (first ++ rest) := by
  induction first generalizing x with
  | nil => exact behind
  | cons y first ih =>
      obtain ⟨outside, distinctRest⟩ := List.nodup_cons.mp distinct
      have apart : x ≠ final y first := by
        intro equal
        exact outside (equal ▸ final_mem y first)
      refine ⟨(same x (List.mem_cons_self ..) apart).trans linked.1, ih linked.2 distinctRest ?_ behind⟩
      intro z member
      exact same z (List.mem_cons_of_mem x member)

theorem Linked.start {x y : P} {l : List P} (linked : Linked next x l) (link : next' y = next x)
    (same : ∀ z ∈ l, next' z = next z) : Linked next' y l := by
  cases l with
  | nil => exact link.trans linked
  | cons z rest => exact ⟨link.trans linked.1, linked.2.congr same⟩

theorem nodup_parts {x : P} {first second : List P} (distinct : (x :: (first ++ second)).Nodup) :
    (x :: first).Nodup ∧ second.Nodup ∧ ∀ y ∈ second, y ≠ final x first := by
  obtain ⟨left, right, apart⟩ := List.nodup_append.mp (show ((x :: first) ++ second).Nodup from distinct)
  refine ⟨left, right, ?_⟩
  intro y member equal
  exact apart _ (final_mem x first) y member equal.symm

theorem Linked.append {x new : P} {l : List P} (linked : Linked next x l) (distinct : (x :: l).Nodup)
    (same : ∀ y ∈ x :: l, y ≠ final x l → next' y = next y) (last : next' (final x l) = some (some new))
    (end_ : next' new = some none) : Linked next' x (l ++ [new]) := by
  rw [← List.append_nil l] at linked
  exact linked.splice distinct same ⟨last, end_⟩

theorem Linked.of_mem {x y : P} {l : List P} (linked : Linked next x l) (member : y ∈ x :: l) :
    ∃ before rest, x :: l = before ++ y :: rest ∧ Linked next y rest ∧ final y rest = final x l := by
  rcases List.mem_cons.mp member with rfl | inside
  · exact ⟨[], l, rfl, linked, rfl⟩
  · obtain ⟨first, rest, rfl⟩ := List.append_of_mem inside
    refine ⟨x :: first, rest, rfl, linked.drop.2, ?_⟩
    rw [final_append]
    rfl

variable [DecidableEq P]

theorem Linked.insert {x new : P} {first second : List P} (linked : Linked next x (first ++ second))
    (distinct : (x :: (first ++ second)).Nodup) (fresh : new ∉ x :: (first ++ second)) :
    Linked (Function.update (Function.update next new (next (final x first))) (final x first) (some (some new)))
      x (first ++ new :: second) := by
  obtain ⟨left, _, apart⟩ := nodup_parts distinct
  have notNew (y : P) (member : y ∈ x :: (first ++ second)) : y ≠ new := fun equal => fresh (equal ▸ member)
  have early (y : P) (member : y ∈ x :: first) : y ∈ x :: (first ++ second) :=
    show y ∈ (x :: first) ++ second from List.mem_append_left second member
  have late (y : P) (member : y ∈ second) : y ∈ x :: (first ++ second) :=
    List.mem_append_right (x :: first) member
  refine linked.splice left ?_ ⟨Function.update_self .., ?_⟩
  · intro y member before
    rw [Function.update_of_ne before, Function.update_of_ne (notNew y (early y member))]
  · apply linked.drop.start
    · rw [Function.update_of_ne (notNew _ (early _ (final_mem x first))).symm, Function.update_self]
    · intro y member
      rw [Function.update_of_ne (apart y member), Function.update_of_ne (notNew y (late y member))]

theorem Linked.remove {x gone : P} {first second : List P} (linked : Linked next x (first ++ gone :: second))
    (distinct : (x :: (first ++ gone :: second)).Nodup) :
    Linked (Function.update next (final x first) (next gone)) x (first ++ second) := by
  obtain ⟨left, _, apart⟩ := nodup_parts distinct
  refine linked.splice left ?_ ?_
  · intro y _ before
    exact Function.update_of_ne before ..
  · apply linked.drop.2.start (Function.update_self ..)
    intro y member
    exact Function.update_of_ne (apart y (List.mem_cons_of_mem gone member)) ..

end CppInfra.LinkedChain
