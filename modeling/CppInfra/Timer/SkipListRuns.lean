import CppInfra.Timer.SkipListInsert
import CppInfra.Shared.Transition

set_option autoImplicit false

namespace CppInfra.Timer.SkipList

open LinkedChain Transition

variable {H : Type}

inductive Event (H : Type) where
  | insert (score : Nat) (func : H) (draws : List Nat)
  | delete (zn : Nat)
  | deleteHead

def step (s : Zskiplist H) : Event H → Option (Zskiplist H)
  | .insert score func draws => (zslInsert s score func draws).map Prod.snd
  | .delete zn => zslDelete s zn
  | .deleteHead => zslDeleteHead s

def levelChain (s : Zskiplist H) (i : Nat) : Nat → Nat → Option (List Nat)
  | 0, _ => none
  | turns + 1, x => do
      match ← s.forward i x with
      | none => some []
      | some next =>
          let rest ← levelChain s i turns next
          some (next :: rest)

def Zskiplist.members (s : Zskiplist H) : List Nat := (levelChain s 0 (s.allocated + 1) s.header).getD []

-- `zslDelete` is called with a node of the list.
def Allowed (s : Zskiplist H) : Event H → Prop
  | .delete zn => zn ∈ s.members
  | _ => True

instance allowedDecidable (s : Zskiplist H) (event : Event H) : Decidable (Allowed s event) :=
  match event with
  | .insert _ _ _ => inferInstanceAs (Decidable True)
  | .delete zn => inferInstanceAs (Decidable (zn ∈ s.members))
  | .deleteHead => inferInstanceAs (Decidable True)

def Room (s : Zskiplist H) : Event H → Prop
  | .insert _ _ _ => s.members.length + 1 < 2 ^ 31
  | _ => True

instance roomDecidable (s : Zskiplist H) (event : Event H) : Decidable (Room s event) :=
  match event with
  | .insert _ _ _ => inferInstanceAs (Decidable (s.members.length + 1 < 2 ^ 31))
  | .delete _ => inferInstanceAs (Decidable True)
  | .deleteHead => inferInstanceAs (Decidable True)

theorem levelChain_spec {s : Zskiplist H} {i turns x : Nat} {l : List Nat} (linked : Linked (s.forward i) x l)
    (enough : l.length < turns) : levelChain s i turns x = some l := by
  induction turns generalizing x l with
  | zero => omega
  | succ turns ih =>
      cases l with
      | nil =>
          have link : s.forward i x = some none := linked
          simp [levelChain, link]
      | cons y rest =>
          have later := ih linked.2 (by simpa using enough)
          simp [levelChain, linked.1, later]

theorem Inv.members {s : Zskiplist H} {order : List Nat} (inv : Inv s order) : s.members = order := by
  have chain := inv.chains 0 (by decide)
  have short := inv.length_le
  rw [inv.tower_zero] at chain
  rw [Zskiplist.members, levelChain_spec chain (by omega)]
  rfl

theorem initial_inv (defaultHandler : H) : Inv (zslCreate defaultHandler) [] where
  header := rfl
  distinct := List.nodup_singleton _
  allocated := by simp [zslCreate]
  heights := by simp
  sorted := List.Pairwise.nil
  chains := by
    intro i bound
    simp [Linked, Zskiplist.tower, Zskiplist.forward, zslCreate, bound]
  levelPositive := Nat.zero_lt_one
  levelBound := by simp [zslCreate, zskiplistMaxlevel]
  above := fun _ _ => rfl
  top := .inl rfl
  length := rfl
  fits := by decide

theorem step_inv {s : Zskiplist H} {event : Event H} (inv : ∃ order, Inv s order) (allowed : Allowed s event)
    (room : Room s event) : ∃ t, step s event = some t ∧ ∃ order, Inv t order := by
  obtain ⟨order, inv⟩ := inv
  cases event with
  | insert score func draws =>
      have bound : order.length + 1 < 2 ^ 31 := by
        rw [← inv.members]
        exact room
      obtain ⟨t, inserted, invT, -⟩ := inv.zslInsert score func draws bound
      exact ⟨t, by rw [step, inserted]; rfl, _, invT⟩
  | delete zn =>
      have member : zn ∈ order := by
        rw [← inv.members]
        exact allowed
      obtain ⟨t, x, second, deleted, -, -, invT, -⟩ := inv.zslDelete member
      exact ⟨t, deleted, _, invT⟩
  | deleteHead =>
      obtain ⟨t, deleted, invT, -⟩ := inv.zslDeleteHead
      exact ⟨t, deleted, _, invT⟩

theorem tower_succ {s : Zskiplist H} {order : List Nat} (i : Nat) :
    s.tower order (i + 1) = (s.tower order i).filter (s.tall (i + 1)) := by
  rw [Zskiplist.tower, Zskiplist.tower, List.filter_filter]
  apply List.filter_congr
  intro x _
  by_cases higher : i + 1 < (s.height x).getD 0
  · have lower : i < (s.height x).getD 0 := by omega
    simp [Zskiplist.tall, higher, lower]
  · simp [Zskiplist.tall, higher]

theorem Inv.least {s : Zskiplist H} {order : List Nat} (inv : Inv s order) {x : Nat}
    (head : order.head? = some x) : x ∈ order ∧ ∀ y ∈ order, s.key x ≤ s.key y := by
  obtain ⟨rest, rfl⟩ := List.head?_eq_some_iff.mp head
  refine ⟨List.mem_cons_self .., ?_⟩
  intro y member
  rcases List.mem_cons.mp member with rfl | later
  · exact Nat.le_refl _
  · exact (List.pairwise_cons.mp inv.sorted).1 y later

theorem skipList_invariant (defaultHandler : H) (events : List (Event H))
    (met : Along step (fun s event => Allowed s event ∧ Room s event) (zslCreate defaultHandler) events) :
    ∃ s, ∃ chain : Nat → List Nat, run step (zslCreate defaultHandler) events = some s ∧
      (∀ i < zskiplistMaxlevel, Linked (s.forward i) s.header (chain i)) ∧
      (s.header :: chain 0).Nodup ∧
      ((chain 0).Pairwise fun x y => s.key x ≤ s.key y) ∧
      (∀ x ∈ chain 0, s.tall 0 x = true) ∧
      (∀ i, chain (i + 1) = (chain i).filter (s.tall (i + 1))) ∧
      (∀ i, s.level ≤ i → i < zskiplistMaxlevel → s.forward i s.header = some none) ∧
      (s.level = 1 ∨ s.forward (s.level - 1) s.header ≠ some none) ∧
      s.length = (chain 0).length ∧
      (zslMin s = some none ↔ chain 0 = []) ∧
      (∀ x, zslMin s = some (some x) → x ∈ chain 0 ∧ ∀ y ∈ chain 0, s.key x ≤ s.key y) := by
  obtain ⟨s, ran, order, inv⟩ := run_possible (fun s => ∃ order, Inv s order)
    (fun _ _ inv meets => step_inv inv meets.1 meets.2) ⟨[], initial_inv defaultHandler⟩ met
  have whole := inv.tower_zero
  have least := inv.zslMin
  refine ⟨s, s.tower order, ran, inv.chains, ?_, ?_, ?_, tower_succ, ?_, ?_, ?_, ?_, ?_⟩
  · rw [whole]
    exact inv.distinct
  · rw [whole]
    exact inv.sorted
  · intro x member
    exact (mem_tower.mp member).2
  · intro i high bound
    have chain := inv.chains i bound
    rw [inv.above i high] at chain
    exact chain
  · have bound := inv.levelBound
    have positive := inv.levelPositive
    rcases inv.top with lowest | nonempty
    · exact .inl lowest
    · right
      rw [ne_eq, linked_nil_iff (inv.chains (s.level - 1) (by omega))]
      exact nonempty
  · rw [whole]
    exact inv.length
  · rw [whole, least]
    simp
  · intro x head
    rw [least] at head
    rw [whole]
    exact inv.least (Option.some.inj head)

def duplicates : List (Event Unit) :=
  [.insert 5 () [20000], .insert 7 () [], .insert 5 () [1, 2, 20000], .delete 2, .delete 1, .deleteHead]

theorem skipList_invariant_duplicates :
    ∃ s, ∃ chain : Nat → List Nat, run step (zslCreate ()) duplicates = some s ∧ s.length = 0 ∧
      (∀ i < zskiplistMaxlevel, Linked (s.forward i) s.header (chain i)) ∧ s.length = (chain 0).length := by
  have met : Along step (fun s event => Allowed s event ∧ Room s event) (zslCreate ()) duplicates := by decide
  have results : (run step (zslCreate ()) duplicates).map (fun s => s.length) = some 0 := by decide
  obtain ⟨s, chain, ran, linked, _, _, _, _, _, _, length, _⟩ := skipList_invariant () duplicates met
  rw [ran] at results
  exact ⟨s, chain, ran, Option.some.inj results, linked, length⟩

def filling (k : Nat) : List (Event Unit) := List.replicate k (.insert 0 () [])

theorem filling_allowed (s : Zskiplist Unit) (k : Nat) : Along step Allowed s (filling k) := by
  induction k generalizing s with
  | zero => trivial
  | succ k ih => exact ⟨trivial, fun next _ => ih next⟩

theorem filling_inv {k : Nat} (bound : k < 2 ^ 31) :
    ∃ s order, run step (zslCreate ()) (filling k) = some s ∧ Inv s order ∧ order.length = k := by
  induction k with
  | zero => exact ⟨_, [], rfl, initial_inv (), rfl⟩
  | succ k ih =>
      obtain ⟨s, order, ran, inv, length⟩ := ih (by omega)
      obtain ⟨t, inserted, invT, -⟩ := inv.zslInsert 0 () [] (by omega)
      refine ⟨t, _, ?_, invT, ?_⟩
      · rw [filling, List.replicate_succ', run_concat]
        exact ⟨s, ran, by rw [step, inserted]; rfl⟩
      · have split := split_sorted 0 inv.sorted
        have total := congrArg List.length split
        simp only [List.length_append, List.length_cons] at total ⊢
        omega

theorem filling_overflows {k : Nat} (count : k + 1 = 2 ^ 31) :
    Along step Allowed (zslCreate ()) (filling (k + 1)) ∧ run step (zslCreate ()) (filling (k + 1)) = none := by
  obtain ⟨s, order, ran, inv, length⟩ := filling_inv (show k < 2 ^ 31 by omega)
  refine ⟨filling_allowed _ _, ?_⟩
  have full := inv.zslInsert_full 0 () [] (by omega)
  rw [filling, List.replicate_succ', run_append]
  rw [filling] at ran
  rw [ran]
  simp [run, step, full]

theorem skipList_invariant_overflow :
    Along step Allowed (zslCreate ()) (filling (2 ^ 31)) ∧ run step (zslCreate ()) (filling (2 ^ 31)) = none :=
  filling_overflows (k := 2 ^ 31 - 1) rfl

end CppInfra.Timer.SkipList
