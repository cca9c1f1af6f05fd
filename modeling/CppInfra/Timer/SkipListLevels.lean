import CppInfra.Timer.SkipList

set_option autoImplicit false

namespace CppInfra.Timer.SkipList

open LinkedChain

variable {H : Type} {s t u : Zskiplist H}

def Zskiplist.height (s : Zskiplist H) (x : Nat) : Option Nat := (s.nodes x).map fun node => node.forward.length

structure Same (s t : Zskiplist H) : Prop where
  score : t.score = s.score
  height : t.height = s.height
  allocated : t.allocated = s.allocated
  header : t.header = s.header
  length : t.length = s.length
  level : t.level = s.level

theorem Same.refl (s : Zskiplist H) : Same s s := ⟨rfl, rfl, rfl, rfl, rfl, rfl⟩

theorem Same.trans (first : Same s t) (second : Same t u) : Same s u :=
  ⟨second.score.trans first.score, second.height.trans first.height, second.allocated.trans first.allocated,
    second.header.trans first.header, second.length.trans first.length, second.level.trans first.level⟩

theorem forward_isSome {i x h : Nat} (height : s.height x = some h) (inside : i < h) :
    ∃ value, s.forward i x = some value := by
  obtain ⟨node, at_, rfl⟩ := Option.map_eq_some_iff.mp height
  exact ⟨_, by simp [Zskiplist.forward, at_, List.getElem?_eq_getElem inside]; rfl⟩

theorem setForward_spec {i x h : Nat} (height : s.height x = some h) (inside : i < h) (value : Option Nat) :
    ∃ t, s.setForward i x value = some t ∧ Same s t ∧
      t.forward i = Function.update (s.forward i) x (some value) ∧ ∀ j, j ≠ i → t.forward j = s.forward j := by
  obtain ⟨node, at_, rfl⟩ := Option.map_eq_some_iff.mp height
  have others (y : Nat) (apart : y ≠ x) (changed : Option (ZskiplistNode H)) :
      Function.update s.nodes x changed y = s.nodes y := Function.update_of_ne apart ..
  have written : s.setForward i x value =
      some { s with nodes := Function.update s.nodes x (some (node.withForward i value)) } := by
    simp only [Zskiplist.setForward, at_, Option.bind_eq_bind, Option.bind_some, if_pos inside]
  refine ⟨_, written, ⟨?_, ?_, rfl, rfl, rfl, rfl⟩, ?_, ?_⟩
  · funext y
    by_cases same : y = x
    · subst same
      simp [Zskiplist.score, at_, ZskiplistNode.withForward]
    · simp only [Zskiplist.score, others y same]
  · funext y
    by_cases same : y = x
    · subst same
      simp [Zskiplist.height, at_, ZskiplistNode.withForward]
    · simp only [Zskiplist.height, others y same]
  · funext y
    by_cases same : y = x
    · subst same
      simp [Zskiplist.forward, inside, ZskiplistNode.withForward]
    · simp only [Zskiplist.forward, others y same, Function.update_of_ne same]
  · intro j apart
    funext y
    by_cases same : y = x
    · subst same
      simp [Zskiplist.forward, at_, ZskiplistNode.withForward, List.getElem?_set_ne apart.symm]
    · simp only [Zskiplist.forward, others y same]

theorem levels_fold (body : Zskiplist H → Nat → Option (Zskiplist H))
    (goal : Nat → (Nat → Option (Option Nat)) → Prop) {levels : List Nat} (distinct : levels.Nodup)
    (each : ∀ i ∈ levels, ∀ u, Same s u → u.forward i = s.forward i →
      ∃ t, body u i = some t ∧ Same u t ∧ goal i (t.forward i) ∧ ∀ j, j ≠ i → t.forward j = u.forward j) :
    ∃ t, levels.foldlM body s = some t ∧ Same s t ∧ (∀ i ∈ levels, goal i (t.forward i)) ∧
      ∀ j, j ∉ levels → t.forward j = s.forward j := by
  suffices general : ∀ u, Same s u → (∀ i ∈ levels, u.forward i = s.forward i) →
      ∃ t, levels.foldlM body u = some t ∧ Same u t ∧ (∀ i ∈ levels, goal i (t.forward i)) ∧
        ∀ j, j ∉ levels → t.forward j = u.forward j from general s (.refl s) fun _ _ => rfl
  induction levels with
  | nil =>
      intro u _ _
      exact ⟨u, rfl, .refl u, by simp, fun _ _ => rfl⟩
  | cons i rest ih =>
      intro u same untouched
      obtain ⟨outside, distinctRest⟩ := List.nodup_cons.mp distinct
      obtain ⟨v, ran, sameV, done, others⟩ :=
        each i (List.mem_cons_self ..) u same (untouched i (List.mem_cons_self ..))
      have untouchedV (j : Nat) (member : j ∈ rest) : v.forward j = s.forward j := by
        have apart : j ≠ i := by
          rintro rfl
          exact outside member
        rw [others j apart, untouched j (List.mem_cons_of_mem i member)]
      obtain ⟨t, ranRest, sameT, doneRest, othersRest⟩ :=
        ih distinctRest (fun j member => each j (List.mem_cons_of_mem i member)) v (same.trans sameV) untouchedV
      refine ⟨t, by simp [List.foldlM_cons, ran, ranRest], sameV.trans sameT, ?_, ?_⟩
      · intro j member
        rcases List.mem_cons.mp member with rfl | later
        · rw [othersRest j outside]
          exact done
        · exact doneRest j later
      · intro j notMember
        simp only [List.mem_cons, not_or] at notMember
        rw [othersRest j notMember.2, others j notMember.1]

end CppInfra.Timer.SkipList
