import Mathlib.Data.List.Nodup
import Mathlib.Data.List.Perm.Subperm
import Mathlib.Logic.Function.Basic

set_option autoImplicit false

namespace CppInfra.DisjointLists

variable {C A : Type*} [DecidableEq C]

structure Scattered (cells : C → List A) : Prop where
  distinct : ∀ c, (cells c).Nodup
  unique : ∀ c d x, x ∈ cells c → x ∈ cells d → c = d

def put (cells : C → List A) (c : C) (x : A) : C → List A :=
  Function.update cells c (cells c ++ [x])

-- `moved` leaves the list at `c`, of which `rest` stays, and each `x` of it goes to the list at `target x`.
def deal (cells : C → List A) (c : C) (moved rest : List A) (target : A → C) : C → List A :=
  fun d => Function.update cells c rest d ++ moved.filter fun x => target x = d

theorem mem_put {cells : C → List A} {c d : C} {x y : A} :
    y ∈ put cells c x d ↔ y ∈ cells d ∨ c = d ∧ y = x := by
  by_cases same : d = c
  · subst same
    simp [put]
  · simp [put, Function.update_of_ne same, Ne.symm same]

theorem put_of_ne {cells : C → List A} {c d : C} {x : A} (differ : c ≠ d) : put cells c x d = cells d := by
  rw [put, Function.update_of_ne differ.symm]

theorem exists_mem_put {cells : C → List A} {c : C} {x y : A} :
    (∃ d, y ∈ put cells c x d) ↔ (∃ d, y ∈ cells d) ∨ y = x := by
  simp only [mem_put, exists_or]
  apply or_congr_right
  exact ⟨fun ⟨_, _, same⟩ => same, fun same => ⟨c, rfl, same⟩⟩

theorem foldl_put (target : A → C) (cells : C → List A) (moved : List A) :
    moved.foldl (fun cells x => put cells (target x) x) cells =
      fun d => cells d ++ moved.filter fun x => target x = d := by
  induction moved generalizing cells with
  | nil => simp
  | cons x rest ih =>
      rw [List.foldl_cons, ih]
      funext d
      by_cases chosen : d = target x
      · subst chosen
        simp [put]
      · simp [put, Function.update_of_ne chosen, Ne.symm chosen]

theorem mem_deal {cells : C → List A} {c d : C} {moved rest : List A} {target : A → C} {x : A} :
    x ∈ deal cells c moved rest target d ↔ x ∈ Function.update cells c rest d ∨ x ∈ moved ∧ target x = d := by
  simp [deal]

omit [DecidableEq C] in
theorem Scattered.empty : Scattered (fun _ : C => ([] : List A)) where
  distinct := fun _ => List.nodup_nil
  unique := by simp

theorem Scattered.put {cells : C → List A} (scattered : Scattered cells) {c : C} {x : A}
    (absent : ∀ d, x ∉ cells d) : Scattered (put cells c x) where
  distinct := by
    intro d
    by_cases same : d = c
    · subst same
      simp only [DisjointLists.put, Function.update_self]
      rw [← List.concat_eq_append]
      exact (scattered.distinct d).concat (absent d)
    · simp only [DisjointLists.put, Function.update_of_ne same]
      exact scattered.distinct d
  unique := by
    intro d e y first second
    rcases mem_put.mp first with old | ⟨rfl, rfl⟩ <;> rcases mem_put.mp second with other | ⟨rfl, same⟩
    · exact scattered.unique d e y old other
    · exact absurd (same ▸ old) (absent d)
    · exact absurd other (absent e)
    · rfl

theorem mem_update_split {cells : C → List A} {c d : C} {moved rest : List A} (split : cells c = moved ++ rest)
    {x : A} (member : x ∈ Function.update cells c rest d) : x ∈ cells d := by
  by_cases same : d = c
  · subst same
    rw [Function.update_self] at member
    rw [split]
    exact List.mem_append_right _ member
  · rwa [Function.update_of_ne same] at member

theorem Scattered.dealt_absent {cells : C → List A} (scattered : Scattered cells) {c : C} {moved rest : List A}
    (split : cells c = moved ++ rest) {x : A} (member : x ∈ moved) (d : C) :
    x ∉ Function.update cells c rest d := by
  intro again
  have here : x ∈ cells c := by
    rw [split]
    exact List.mem_append_left _ member
  obtain rfl := scattered.unique c d x here (mem_update_split split again)
  rw [Function.update_self] at again
  have distinct := scattered.distinct c
  rw [split] at distinct
  exact (List.nodup_append.mp distinct).2.2 x member x again rfl

theorem Scattered.update {cells : C → List A} (scattered : Scattered cells) {c : C} {l : List A} (distinct : l.Nodup)
    (away : ∀ x ∈ l, ∀ d ≠ c, x ∉ cells d) : Scattered (Function.update cells c l) where
  distinct := by
    intro d
    by_cases same : d = c
    · subst same
      rwa [Function.update_self]
    · rw [Function.update_of_ne same]
      exact scattered.distinct d
  unique := by
    intro d e x first second
    by_cases here : d = c <;> by_cases there : e = c
    · rw [here, there]
    · rw [here, Function.update_self] at first
      rw [Function.update_of_ne there] at second
      exact absurd second (away x first e there)
    · rw [Function.update_of_ne here] at first
      rw [there, Function.update_self] at second
      exact absurd first (away x second d here)
    · rw [Function.update_of_ne here] at first
      rw [Function.update_of_ne there] at second
      exact scattered.unique d e x first second

theorem Scattered.rest {cells : C → List A} (scattered : Scattered cells) {c : C} {moved rest : List A}
    (split : cells c = moved ++ rest) : Scattered (Function.update cells c rest) := by
  have distinct := scattered.distinct c
  rw [split] at distinct
  apply scattered.update (List.nodup_append.mp distinct).2.1
  intro x member d other inside
  have here : x ∈ cells c := by
    rw [split]
    exact List.mem_append_right _ member
  exact other (scattered.unique d c x inside here)

theorem Scattered.deal {cells : C → List A} (scattered : Scattered cells) {c : C} {moved rest : List A}
    (target : A → C) (split : cells c = moved ++ rest) : Scattered (deal cells c moved rest target) where
  distinct := by
    intro d
    have distinct := scattered.distinct c
    rw [split] at distinct
    apply List.Nodup.append
    · exact (scattered.rest split).distinct d
    · exact (List.nodup_append.mp distinct).1.filter _
    · intro x old new
      exact scattered.dealt_absent split (List.mem_of_mem_filter new) d old
  unique := by
    intro d e x first second
    rcases mem_deal.mp first with old | ⟨moving, goal⟩ <;> rcases mem_deal.mp second with other | ⟨again, aim⟩
    · exact (scattered.rest split).unique d e x old other
    · exact absurd old (scattered.dealt_absent split again d)
    · exact absurd other (scattered.dealt_absent split moving e)
    · rw [← goal, aim]

theorem exists_mem_deal {cells : C → List A} {c : C} {moved rest : List A} {target : A → C}
    (split : cells c = moved ++ rest) {x : A} :
    (∃ d, x ∈ deal cells c moved rest target d) ↔ ∃ d, x ∈ cells d := by
  constructor
  · rintro ⟨d, member⟩
    rcases mem_deal.mp member with old | ⟨moving, _⟩
    · exact ⟨d, mem_update_split split old⟩
    · exact ⟨c, by rw [split]; exact List.mem_append_left _ moving⟩
  · rintro ⟨d, member⟩
    by_cases moving : x ∈ moved
    · exact ⟨target x, mem_deal.mpr (.inr ⟨moving, rfl⟩)⟩
    · refine ⟨d, mem_deal.mpr (.inl ?_)⟩
      by_cases same : d = c
      · subst same
        rw [split] at member
        rw [Function.update_self]
        exact (List.mem_append.mp member).resolve_left moving
      · rwa [Function.update_of_ne same]

theorem length_le_of_below {n : Nat} {l : List Nat} (distinct : l.Nodup) (below : ∀ x ∈ l, x < n) : l.length ≤ n := by
  have inside : l ⊆ List.range n := fun x member => List.mem_range.mpr (below x member)
  calc l.length ≤ (List.range n).length := (List.Nodup.subperm distinct inside).length_le
    _ = n := List.length_range

end CppInfra.DisjointLists
