import Mathlib.Data.List.Nodup
import Mathlib.Logic.Function.Basic

set_option autoImplicit false

namespace CppInfra.Holders

variable {α β : Type} [DecidableEq α] [DecidableEq β] {holding : α → Option β} {live : List α} {x : α}

def count (holding : α → Option β) (live : List α) (b : β) : Nat := (live.map holding).count (some b)

omit [DecidableEq α] in
theorem count_pos_iff {b : β} : 0 < count holding live b ↔ ∃ y ∈ live, holding y = some b := by
  rw [count, List.count_pos_iff, List.mem_map]

omit [DecidableEq α] in
theorem count_le_length (holding : α → Option β) (live : List α) (b : β) : count holding live b ≤ live.length := by
  rw [count, ← List.length_map holding]
  exact List.count_le_length

omit [DecidableEq α] in
theorem count_cons (x : α) (b : β) :
    count holding (x :: live) b = count holding live b + if holding x = some b then 1 else 0 := by
  simp [count, List.count_cons]

theorem count_update_outside (outside : x ∉ live) (value : Option β) (b : β) :
    count (Function.update holding x value) live b = count holding live b := by
  have same : live.map (Function.update holding x value) = live.map holding := by
    apply List.map_congr_left
    intro y member
    refine Function.update_of_ne ?_ _ _
    rintro rfl
    exact outside member
  rw [count, same, count]

theorem count_update (holding : α → Option β) (distinct : live.Nodup) (member : x ∈ live) (value : Option β) (b : β) :
    count (Function.update holding x value) live b + (if holding x = some b then 1 else 0) =
      count holding live b + if value = some b then 1 else 0 := by
  induction live with
  | nil => cases member
  | cons y rest ih =>
      obtain ⟨outside, later⟩ := List.nodup_cons.mp distinct
      rw [count_cons, count_cons]
      by_cases same : x = y
      · subst same
        rw [count_update_outside outside, Function.update_self]
        omega
      · have inside : x ∈ rest := (List.mem_cons.mp member).resolve_left same
        have moved := ih later inside
        rw [Function.update_of_ne (Ne.symm same)]
        omega

omit [DecidableEq α] in
theorem count_append_none (none_ : holding x = none) (b : β) :
    count holding (live ++ [x]) b = count holding live b := by
  simp [count, List.count_append, none_]

theorem count_erase_none (none_ : holding x = none) (b : β) :
    count holding (live.erase x) b = count holding live b := by
  by_cases member : x ∈ live
  · have split_ := ((List.perm_cons_erase member).map holding).count_eq (some b)
    rw [List.map_cons, List.count_cons, none_] at split_
    simpa [count] using split_.symm
  · rw [List.erase_of_not_mem member]

omit [DecidableEq α] in
theorem count_perm {other : List α} (same : live.Perm other) (b : β) : count holding live b = count holding other b :=
  (same.map holding).count_eq (some b)

theorem count_split {gone : List α} (distinct : live.Nodup) (once : gone.Nodup) (among : ∀ y ∈ gone, y ∈ live) (b : β) :
    count holding live b = count holding gone b + count holding (live.filter (· ∉ gone)) b := by
  have parts : live.Perm (gone ++ live.filter (· ∉ gone)) := by
    refine (List.perm_ext_iff_of_nodup distinct ?_).mpr ?_
    · refine List.nodup_append.mpr ⟨once, distinct.filter _, ?_⟩
      rintro y there z behind rfl
      simp [there] at behind
    · intro y
      rw [List.mem_append, List.mem_filter]
      by_cases there : y ∈ gone
      · simp [there, among y there]
      · simp [there]
  rw [count_perm parts, count, List.map_append, List.count_append]
  rfl

theorem count_gone_iff {gone : List α} (distinct : live.Nodup) (once : gone.Nodup) (among : ∀ y ∈ gone, y ∈ live)
    (b : β) : count holding gone b = count holding live b ↔ ∀ y ∈ live, holding y = some b → y ∈ gone := by
  have parts : count holding live b = count holding gone b + count holding (live.filter (· ∉ gone)) b :=
    count_split distinct once among b
  constructor
  · intro equal y member holds
    by_contra left
    have some : 0 < count holding (live.filter (· ∉ gone)) b :=
      count_pos_iff.mpr ⟨y, List.mem_filter.mpr ⟨member, by simpa using left⟩, holds⟩
    omega
  · intro all
    have none : ¬ 0 < count holding (live.filter (· ∉ gone)) b := by
      intro some
      obtain ⟨y, member, holds⟩ := count_pos_iff.mp some
      obtain ⟨there, left⟩ := List.mem_filter.mp member
      have gone' := all y there holds
      simp [gone'] at left
    omega

end CppInfra.Holders
