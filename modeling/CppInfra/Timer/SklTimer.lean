import CppInfra.Shared.Dispatch
import CppInfra.Shared.Words
import CppInfra.Timer.SkipListRuns

set_option autoImplicit false

namespace CppInfra.Timer.SklTimer

open SkipList LinkedChain Words Transition Dispatch

variable {H : Type} {s t : Zskiplist H} {order : List Nat}

-- `msec` is a `uint32_t`: the sum is reduced before it becomes the score.
def addTimer (zsl : Zskiplist H) (msec currentTime : Nat) (func : H) (draws : List Nat) :
    Option (Nat × Zskiplist H) :=
  zslInsert zsl (add 32 msec currentTime) func draws

def delTimer (zsl : Zskiplist H) (zn : Nat) : Option (Zskiplist H) := zslDelete zsl zn

def levelNodes (s : Zskiplist H) (i : Nat) : Option (List Nat) := levelChain s i (s.allocated + 1) s.header

-- Every level that `zn` takes part in loses it, and nothing else changes.
def DeletesExactly (s : Zskiplist H) (zn : Nat) : Prop :=
  ∃ t, delTimer s zn = some t ∧ ∀ i < zskiplistMaxlevel,
    levelNodes t i = (levelNodes s i).map fun nodes => nodes.filter fun y => decide (y ≠ zn)

def FirstOfScore (s : Zskiplist H) (zn : Nat) : Prop :=
  ∀ y ∈ s.members.takeWhile (fun y => decide (y ≠ zn)), s.key y ≠ s.key zn

instance (s : Zskiplist H) (zn : Nat) : Decidable (FirstOfScore s zn) :=
  inferInstanceAs (Decidable (∀ y ∈ _, _))

theorem step_keeps_inv {event : SkipList.Event H} (inv : ∃ order, Inv s order) (allowed : Allowed s event)
    (stepped : SkipList.step s event = some t) : ∃ order, Inv t order := by
  have room : Room s event := by
    obtain ⟨order, inv⟩ := inv
    cases event with
    | insert score func draws =>
        by_contra full
        have fits := inv.fits
        simp only [Room, inv.members] at full
        have none_ := inv.zslInsert_full score func draws (by omega)
        simp [SkipList.step, none_] at stepped
    | delete zn => trivial
    | deleteHead => trivial
  obtain ⟨next, taken, invNext⟩ := SkipList.step_inv inv allowed room
  obtain rfl := Option.some.inj (stepped.symm.trans taken)
  exact invNext

theorem Inv.levelNodes (inv : Inv s order) {i : Nat} (bound : i < zskiplistMaxlevel) :
    levelNodes s i = some (s.tower order i) := by
  have short : (s.tower order i).length ≤ order.length := List.length_filter_le ..
  have total := inv.length_le
  exact levelChain_spec (inv.chains i bound) (by omega)

theorem filter_middle {first second : List Nat} {x : Nat} (distinct : (first ++ x :: second).Nodup) :
    (first ++ x :: second).filter (fun y => decide (y ≠ x)) = first ++ second := by
  have outside := (List.nodup_cons.mp (List.nodup_middle.mp distinct)).1
  rw [List.mem_append, not_or] at outside
  rw [List.filter_append, List.filter_cons_of_neg (by simp), List.filter_eq_self.mpr, List.filter_eq_self.mpr]
  · intro y member
    exact decide_eq_true fun same => outside.2 (same ▸ member)
  · intro y member
    exact decide_eq_true fun same => outside.1 (same ▸ member)

theorem deletesExactly_iff (inv : Inv s order) {zn : Nat} (member : zn ∈ order) :
    DeletesExactly s zn ↔ FirstOfScore s zn := by
  obtain ⟨t, x, second, deleted, split, equal, invT, kept, -⟩ := inv.zslDelete member
  have smaller (y : Nat) (early : y ∈ order.filter fun y => decide (s.key y < s.key zn)) :
      s.key y < s.key zn := of_decide_eq_true (List.mem_filter.mp early).2
  generalize order.filter (fun y => decide (s.key y < s.key zn)) = first at split invT kept smaller
  have distinct : (first ++ x :: second).Nodup := split ▸ (List.nodup_cons.mp inv.distinct).2
  have notEarly : ∀ y ∈ first, y ≠ zn := by
    rintro y early rfl
    exact absurd (smaller y early) (Nat.lt_irrefl _)
  have after (i : Nat) (bound : i < zskiplistMaxlevel) :
      SklTimer.levelNodes t i = some (s.tower (first ++ second) i) := by
    rw [Inv.levelNodes invT bound, tower_agree kept.height]
  constructor
  · rintro ⟨u, called, levels⟩
    obtain rfl := Option.some.inj (deleted.symm.trans called)
    have lowest := levels 0 (by decide)
    rw [after 0 (by decide), Inv.levelNodes inv (by decide), inv.tower_zero, Option.map_some,
      Option.some.injEq] at lowest
    have isZn : x = zn := by
      by_contra other
      have there : x ∈ order.filter fun y => decide (y ≠ zn) := by
        rw [split]
        simp [other]
      rw [← lowest] at there
      have gone := (List.nodup_cons.mp (List.nodup_middle.mp distinct)).1
      exact gone ((List.filter_sublist).subset there)
    subst isZn
    intro y front
    rw [inv.members, split, List.takeWhile_append_of_pos fun z early => decide_eq_true (notEarly z early),
      List.takeWhile_cons_of_neg (by simp), List.append_nil] at front
    exact Nat.ne_of_lt (smaller y front)
  · intro first_
    have isZn : x = zn := by
      by_contra other
      apply first_ x _ equal
      rw [inv.members, split, List.takeWhile_append_of_pos fun z early => decide_eq_true (notEarly z early),
        List.takeWhile_cons_of_pos (by simpa using other)]
      simp
    subst isZn
    refine ⟨t, deleted, fun i bound => ?_⟩
    rw [after i bound, Inv.levelNodes inv bound, Option.map_some, Option.some.injEq, Zskiplist.tower,
      Zskiplist.tower, List.filter_filter, ← filter_middle distinct, List.filter_filter, split]
    simp only [Bool.and_comm]

theorem delTimer_exact_iff (defaultHandler : H) (events : List (SkipList.Event H)) (zsl : Zskiplist H)
    (zn : Nat) (allowed : Along SkipList.step Allowed (zslCreate defaultHandler) events)
    (reached : run SkipList.step (zslCreate defaultHandler) events = some zsl) (member : zn ∈ zsl.members) :
    DeletesExactly zsl zn ↔ FirstOfScore zsl zn := by
  obtain ⟨order, inv⟩ := run_invariant_along (fun s => ∃ order, Inv s order)
    (fun _ _ _ inv met taken => step_keeps_inv inv met taken) ⟨[], initial_inv defaultHandler⟩ allowed reached
  rw [inv.members] at member
  exact deletesExactly_iff inv member

def twins : List (SkipList.Event Unit) := [.insert 5 () [20000], .insert 5 () [1, 20000], .insert 7 () []]

theorem delTimer_exact_iff_twins :
    ∃ zsl, run SkipList.step (zslCreate ()) twins = some zsl ∧ zsl.members = [2, 1, 3] ∧
      DeletesExactly zsl 2 ∧ DeletesExactly zsl 3 := by
  have allowed : Along SkipList.step Allowed (zslCreate ()) twins := by decide
  have results : (run SkipList.step (zslCreate ()) twins).map (fun s =>
      (s.members, decide (FirstOfScore s 2), decide (FirstOfScore s 3))) = some ([2, 1, 3], true, true) := by
    decide
  obtain ⟨zsl, reached, outcome⟩ := Option.map_eq_some_iff.mp results
  simp only [Prod.mk.injEq, decide_eq_true_eq] at outcome
  obtain ⟨members, second, third⟩ := outcome
  exact ⟨zsl, reached, members,
    (delTimer_exact_iff () twins zsl 2 allowed reached (by simp [members])).mpr second,
    (delTimer_exact_iff () twins zsl 3 allowed reached (by simp [members])).mpr third⟩

-- Asked for the first of them, `del_timer` takes out the other one.
theorem delTimer_wrong_twin :
    ∃ zsl, run SkipList.step (zslCreate ()) twins = some zsl ∧ 1 ∈ zsl.members ∧
      (delTimer zsl 1).map Zskiplist.members = some [1, 3] ∧ ¬ DeletesExactly zsl 1 := by
  have results : (run SkipList.step (zslCreate ()) twins).map (fun s =>
      (decide (1 ∈ s.members), (delTimer s 1).map Zskiplist.members,
        (delTimer s 1).bind (fun t => levelNodes t 0), levelNodes s 0)) =
        some (true, some [1, 3], some [1, 3], some [2, 1, 3]) := by
    decide
  obtain ⟨zsl, reached, outcome⟩ := Option.map_eq_some_iff.mp results
  simp only [Prod.mk.injEq, decide_eq_true_eq] at outcome
  obtain ⟨member, left, after, before⟩ := outcome
  refine ⟨zsl, reached, member, left, ?_⟩
  rintro ⟨t, deleted, levels⟩
  have lowest := levels 0 (by decide)
  rw [deleted, Option.bind_some] at after
  rw [after, before] at lowest
  revert lowest
  decide

end CppInfra.Timer.SklTimer
