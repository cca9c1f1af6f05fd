import CppInfra.Timer.SkipListLevels
import Mathlib.Data.List.Sort

set_option autoImplicit false

namespace CppInfra.Timer.SkipList

open LinkedChain

variable {H : Type} {s t : Zskiplist H} {order : List Nat}

def Zskiplist.key (s : Zskiplist H) (x : Nat) : Nat := (s.score x).getD 0

def Zskiplist.tall (s : Zskiplist H) (i x : Nat) : Bool := decide (i < (s.height x).getD 0)

def Zskiplist.tower (s : Zskiplist H) (order : List Nat) (i : Nat) : List Nat := order.filter (s.tall i)

structure Inv (s : Zskiplist H) (order : List Nat) : Prop where
  header : s.height s.header = some zskiplistMaxlevel
  distinct : (s.header :: order).Nodup
  allocated : ∀ x ∈ s.header :: order, x < s.allocated
  heights : ∀ x ∈ order, ∃ h, s.height x = some h ∧ 0 < h ∧ h ≤ zskiplistMaxlevel
  sorted : order.Pairwise fun x y => s.key x ≤ s.key y
  chains : ∀ i < zskiplistMaxlevel, Linked (s.forward i) s.header (s.tower order i)
  levelPositive : 0 < s.level
  levelBound : s.level ≤ zskiplistMaxlevel
  above : ∀ i, s.level ≤ i → s.tower order i = []
  top : s.level = 1 ∨ s.tower order (s.level - 1) ≠ []
  length : s.length = order.length
  fits : order.length < 2 ^ 31

structure Kept (s t : Zskiplist H) (order : List Nat) : Prop where
  key : ∀ y ∈ order, t.key y = s.key y
  height : ∀ y ∈ order, t.height y = s.height y

section Sorted

variable {key : Nat → Nat} {l : List Nat} (c : Nat)

theorem takeWhile_sorted (sorted : l.Pairwise fun x y => key x ≤ key y) :
    l.takeWhile (fun x => decide (key x < c)) = l.filter fun x => decide (key x < c) := by
  induction l with
  | nil => rfl
  | cons x rest ih =>
      obtain ⟨least, sortedRest⟩ := List.pairwise_cons.mp sorted
      by_cases small : key x < c
      · simp [small, ih sortedRest]
      · have large (y : Nat) (member : y ∈ rest) : ¬ key y < c := by
          have := least y member
          omega
        have none_ : rest.filter (fun x => decide (key x < c)) = [] := by simpa using large
        simp [small, none_]

theorem split_sorted (sorted : l.Pairwise fun x y => key x ≤ key y) :
    l = l.filter (fun x => decide (key x < c)) ++ l.filter fun x => decide (¬ key x < c) := by
  rw [← takeWhile_sorted c sorted]
  induction l with
  | nil => rfl
  | cons x rest ih =>
      obtain ⟨least, sortedRest⟩ := List.pairwise_cons.mp sorted
      by_cases small : key x < c
      · simp only [small, decide_true, List.takeWhile_cons_of_pos, not_true_eq_false, decide_false,
          Bool.false_eq_true, not_false_eq_true, List.filter_cons_of_neg, List.cons_append]
        rw [← ih sortedRest]
      · have large (y : Nat) (member : y ∈ rest) : c ≤ key y := by
          have := least y member
          omega
        have all : rest.filter (fun x => decide (¬ key x < c)) = rest := by
          apply List.filter_eq_self.mpr
          simpa using large
        rw [List.takeWhile_cons_of_neg (by simpa using small), List.nil_append,
          List.filter_cons_of_pos (by simpa using small), all]

end Sorted

theorem Inv.score (inv : Inv s order) {x : Nat} (member : x ∈ order) : s.score x = some (s.key x) := by
  obtain ⟨h, height, _⟩ := inv.heights x member
  obtain ⟨node, at_, _⟩ := Option.map_eq_some_iff.mp height
  simp [Zskiplist.key, Zskiplist.score, at_]

theorem mem_tower {i x : Nat} : x ∈ s.tower order i ↔ x ∈ order ∧ s.tall i x = true := List.mem_filter

theorem tower_succ_mem {i x : Nat} (member : x ∈ s.tower order (i + 1)) : x ∈ s.tower order i := by
  rw [mem_tower] at member ⊢
  refine ⟨member.1, ?_⟩
  have higher := member.2
  simp only [Zskiplist.tall, decide_eq_true_eq] at higher ⊢
  omega

theorem height_agree {x : Nat} (node : t.nodes x = s.nodes x) : t.height x = s.height x := by
  simp [Zskiplist.height, node]

theorem tower_agree (heights : ∀ y ∈ order, t.height y = s.height y) (i : Nat) :
    t.tower order i = s.tower order i := by
  apply List.filter_congr
  intro y member
  rw [Zskiplist.tall, Zskiplist.tall, heights y member]

theorem linked_agree {i x : Nat} {l : List Nat} (linked : Linked (s.forward i) x l)
    (nodes : ∀ y ∈ x :: l, t.nodes y = s.nodes y) : Linked (t.forward i) x l := by
  apply linked.congr
  intro y member
  simp [Zskiplist.forward, nodes y member]

theorem key_agree {x : Nat} (node : t.nodes x = s.nodes x) : t.key x = s.key x := by
  simp [Zskiplist.key, Zskiplist.score, node]

theorem Inv.tower_sorted (inv : Inv s order) (i : Nat) :
    (s.tower order i).Pairwise fun x y => s.key x ≤ s.key y := inv.sorted.filter _

theorem Inv.length_le (inv : Inv s order) : order.length ≤ s.allocated := by
  have distinct := (List.nodup_cons.mp inv.distinct).2
  have inside : order ⊆ List.range s.allocated := by
    intro x member
    exact List.mem_range.mpr (inv.allocated x (List.mem_cons_of_mem _ member))
  have := (List.subperm_of_subset distinct inside).length_le
  rwa [List.length_range] at this

theorem walk_spec {i score turns x : Nat} {l : List Nat} (linked : Linked (s.forward i) x l)
    (scores : ∀ y ∈ l, s.score y = some (s.key y)) (enough : l.length < turns) :
    walk s i score turns x = some (final x (l.takeWhile fun y => decide (s.key y < score))) := by
  induction turns generalizing x l with
  | zero => omega
  | succ turns ih =>
      cases l with
      | nil =>
          have link : s.forward i x = some none := linked
          simp [walk, link, final]
      | cons y rest =>
          have scoreY := scores y (List.mem_cons_self ..)
          by_cases small : s.key y < score
          · have later := ih linked.2 (fun z member => scores z (List.mem_cons_of_mem y member))
              (by simpa using enough)
            simp [walk, linked.1, scoreY, small, later, final]
          · simp [walk, linked.1, scoreY, small, final]

def Zskiplist.pred (s : Zskiplist H) (order : List Nat) (score i : Nat) : Nat :=
  final s.header ((s.tower order i).filter fun x => decide (s.key x < score))

def Entry (s : Zskiplist H) (order : List Nat) (score i x : Nat) : Prop :=
  x = s.header ∨ x ∈ s.tower order i ∧ s.key x < score

theorem Inv.walk (inv : Inv s order) {i score x : Nat} (bound : i < zskiplistMaxlevel)
    (entry : Entry s order score i x) :
    walk s i score (s.allocated + 1) x = some (s.pred order score i) := by
  have linked := inv.chains i bound
  have sorted := inv.tower_sorted i
  have short : (s.tower order i).length ≤ order.length := List.length_filter_le ..
  have total := inv.length_le
  have scores (y : Nat) (member : y ∈ s.tower order i) : s.score y = some (s.key y) :=
    inv.score (mem_tower.mp member).1
  rcases entry with rfl | ⟨member, small⟩
  · rw [walk_spec linked scores (by omega), takeWhile_sorted score sorted]
    rfl
  · obtain ⟨first, second, split⟩ := List.append_of_mem member
    rw [split] at linked sorted short scores
    have linkedX : Linked (s.forward i) x second := by
      rw [List.append_cons] at linked
      have := linked.drop
      rwa [final_concat] at this
    have before (y : Nat) (earlier : y ∈ first) : s.key y < score := by
      have := (List.pairwise_append.mp sorted).2.2 y earlier x (List.mem_cons_self ..)
      omega
    have sortedX := (List.pairwise_cons.mp (List.pairwise_append.mp sorted).2.1).2
    have all : first.filter (fun y => decide (s.key y < score)) = first := by
      apply List.filter_eq_self.mpr
      simpa using before
    simp only [List.length_append, List.length_cons] at short
    rw [walk_spec linkedX (fun y later => scores y (by simp [later])) (by omega),
      takeWhile_sorted score sortedX, Zskiplist.pred, split, List.filter_append, all,
      List.filter_cons_of_pos (by simpa using small), final_append]
    rfl

theorem pred_entry {score i : Nat} : Entry s order score i (s.pred order score i) := by
  have member := final_mem s.header ((s.tower order i).filter fun x => decide (s.key x < score))
  rcases List.mem_cons.mp member with isHeader | inside
  · exact .inl isHeader
  · obtain ⟨inTower, small⟩ := List.mem_filter.mp inside
    exact .inr ⟨inTower, of_decide_eq_true small⟩

theorem Entry.down {score i x : Nat} (entry : Entry s order score (i + 1) x) : Entry s order score i x := by
  rcases entry with isHeader | ⟨member, small⟩
  · exact .inl isHeader
  · exact .inr ⟨tower_succ_mem member, small⟩

theorem Inv.search (inv : Inv s order) (score : Nat) {i x : Nat} (bound : i < zskiplistMaxlevel)
    (entry : Entry s order score i x) :
    ∃ update, search s score (i + 1) x = some (s.pred order score 0, update) ∧ update.length = i + 1 ∧
      ∀ j ≤ i, update[j]? = some (s.pred order score j) := by
  induction i generalizing x with
  | zero =>
      refine ⟨[s.pred order score 0], ?_, rfl, ?_⟩
      · simp [SkipList.search, inv.walk bound entry]
      · intro j lowest
        obtain rfl : j = 0 := by omega
        rfl
  | succ i ih =>
      obtain ⟨update, ran, length, correct⟩ := ih (by omega) pred_entry.down
      refine ⟨update ++ [s.pred order score (i + 1)], ?_, by simp [length], ?_⟩
      · rw [SkipList.search, inv.walk bound entry]
        simp [ran]
      · intro j below
        by_cases last : j = i + 1
        · subst last
          simp [length]
        · rw [List.getElem?_append_left (by omega)]
          exact correct j (by omega)

end CppInfra.Timer.SkipList
