import CppInfra.Timer.SkipListInvariant

set_option autoImplicit false

namespace CppInfra.Timer.SkipList

open LinkedChain

variable {H : Type} {s t u : Zskiplist H} {order first second : List Nat} {x : Nat}

theorem tower_append (s : Zskiplist H) (first second : List Nat) (i : Nat) :
    s.tower (first ++ second) i = s.tower first i ++ s.tower second i := List.filter_append ..

theorem tower_cons_tall {i : Nat} (tall : s.tall i x = true) : s.tower (x :: second) i = x :: s.tower second i :=
  List.filter_cons_of_pos tall

theorem tower_cons_low {i : Nat} (low : s.tall i x = false) : s.tower (x :: second) i = s.tower second i :=
  List.filter_cons_of_neg (by simp [low])

theorem Same.tower (same : Same s t) (order : List Nat) (i : Nat) : t.tower order i = s.tower order i :=
  tower_agree (fun y _ => congrFun same.height y) i

theorem Inv.tower_distinct (inv : Inv s order) (i : Nat) : (s.header :: s.tower order i).Nodup :=
  inv.distinct.sublist (List.filter_sublist.cons_cons s.header)

theorem Inv.tower_height (inv : Inv s order) {i y : Nat} (bound : i < zskiplistMaxlevel)
    (member : y ∈ s.header :: s.tower order i) : ∃ h, s.height y = some h ∧ i < h := by
  rcases List.mem_cons.mp member with rfl | inside
  · exact ⟨_, inv.header, bound⟩
  · obtain ⟨inOrder, tall⟩ := mem_tower.mp inside
    obtain ⟨h, height, _⟩ := inv.heights y inOrder
    refine ⟨h, height, ?_⟩
    simpa [Zskiplist.tall, height] using tall

theorem Inv.unlink (inv : Inv s (first ++ x :: second)) {i : Nat} (bound : i < zskiplistMaxlevel)
    (same : Same s u) (untouched : u.forward i = s.forward i) :
    ∃ t, unlink (final s.header (s.tower first i)) x u i = some t ∧ Same u t ∧
      Linked (t.forward i) s.header (s.tower (first ++ second) i) ∧ ∀ j, j ≠ i → t.forward j = u.forward j := by
  have linked := inv.chains i bound
  have distinct := inv.tower_distinct i
  rw [tower_append] at linked distinct
  have beforeMember : final s.header (s.tower first i) ∈ s.header :: s.tower (first ++ x :: second) i := by
    rw [tower_append]
    exact List.mem_append_left (s.tower (x :: second) i) (final_mem s.header (s.tower first i))
  obtain ⟨h, height, inside⟩ := inv.tower_height bound beforeMember
  rw [tower_append]
  by_cases tall : s.tall i x = true
  · rw [tower_cons_tall tall] at linked distinct
    have link : u.forward i (final s.header (s.tower first i)) = some (some x) := by
      rw [untouched]
      exact linked.drop.1
    obtain ⟨hx, heightX, insideX⟩ := inv.tower_height (y := x) bound (by
      simp [tower_append, tower_cons_tall tall])
    obtain ⟨behind, linkX⟩ := forward_isSome heightX insideX
    rw [← same.height] at height
    obtain ⟨t, written, sameT, forward, others⟩ := setForward_spec height inside behind
    refine ⟨t, ?_, sameT, ?_, others⟩
    · simp [SkipList.unlink, link, untouched, linkX, written]
    · rw [forward, untouched, ← linkX]
      exact linked.remove distinct
  · rw [tower_cons_low (by simpa using tall)] at linked distinct
    obtain ⟨after, link⟩ := forward_isSome height inside
    have notX : after ≠ some x := by
      rintro rfl
      have dropped := linked.drop
      cases rest : s.tower second i with
      | nil =>
          rw [rest] at dropped
          cases link.symm.trans dropped
      | cons y _ =>
          rw [rest] at dropped
          cases link.symm.trans dropped.1
          exact tall (mem_tower.mp (rest ▸ List.mem_cons_self ..)).2
    refine ⟨u, ?_, .refl u, untouched ▸ linked, fun _ _ => rfl⟩
    simp [SkipList.unlink, untouched, link, notX]

theorem lowerLevel_spec {level : Nat} (header : s.height s.header = some zskiplistMaxlevel) (positive : 0 < level)
    (bound : level ≤ zskiplistMaxlevel) :
    ∃ lower, lowerLevel s level = some { s with level := lower } ∧ 0 < lower ∧ lower ≤ level ∧
      (∀ i, lower ≤ i → i < level → s.forward i s.header = some none) ∧
      (lower = 1 ∨ s.forward (lower - 1) s.header ≠ some none) := by
  induction level with
  | zero => omega
  | succ level ih =>
      by_cases lowest : level + 1 > 1
      · obtain ⟨top, link⟩ := forward_isSome header (show level < zskiplistMaxlevel by omega)
        by_cases empty : top = none
        · subst empty
          obtain ⟨lower, ran, lowerPositive, below, between, tight⟩ := ih (by omega) (by omega)
          refine ⟨lower, ?_, lowerPositive, by omega, ?_, tight⟩
          · simp [lowerLevel, lowest, link, ran]
          · intro i low high
            by_cases last : i = level
            · exact last ▸ link
            · exact between i low (by omega)
        · refine ⟨level + 1, ?_, positive, Nat.le_refl _, by omega, .inr ?_⟩
          · simp [lowerLevel, lowest, link, empty]
          · rw [Nat.add_sub_cancel, link]
            simpa using empty
      · obtain rfl : level = 0 := by omega
        exact ⟨1, by simp [lowerLevel], Nat.zero_lt_one, Nat.le_refl _, by omega, .inl rfl⟩

theorem linked_nil_iff {i : Nat} {l : List Nat} (linked : Linked (s.forward i) s.header l) :
    s.forward i s.header = some none ↔ l = [] := by
  cases l with
  | nil => simpa using (show s.forward i s.header = some none from linked)
  | cons y rest => simp [linked.1]

theorem sublist_without (first second : List Nat) (x : Nat) : (first ++ second).Sublist (first ++ x :: second) :=
  (List.Sublist.refl first).append (List.sublist_cons_self x second)

theorem Inv.removed_empty (inv : Inv s (first ++ x :: second)) {i : Nat} (high : s.level ≤ i) :
    s.tower (first ++ second) i = [] := by
  have above := inv.above i high
  exact List.eq_nil_of_subset_nil (above ▸ ((sublist_without first second x).filter _).subset)

theorem Inv.removed_chains (inv : Inv s (first ++ x :: second))
    (chains : ∀ i < s.level, Linked (t.forward i) s.header (s.tower (first ++ second) i))
    (others : ∀ i, s.level ≤ i → t.forward i = s.forward i) (i : Nat) (bound : i < zskiplistMaxlevel) :
    Linked (t.forward i) s.header (s.tower (first ++ second) i) := by
  by_cases low : i < s.level
  · exact chains i low
  · have chain := inv.chains i bound
    rw [inv.above i (by omega)] at chain
    rw [others i (by omega), inv.removed_empty (by omega)]
    exact chain

theorem Inv.removed (inv : Inv s (first ++ x :: second)) (same : Same s t)
    (chains : ∀ i < s.level, Linked (t.forward i) s.header (s.tower (first ++ second) i))
    (others : ∀ i, s.level ≤ i → t.forward i = s.forward i) :
    ∃ v, (do let t ← lowerLevel t t.level; t.addLength (-1)) = some v ∧ Inv v (first ++ second) ∧
      v.score = s.score ∧ v.height = s.height ∧ v.allocated = s.allocated ∧ v.header = s.header := by
  have shorter := sublist_without first second x
  have linked := inv.removed_chains chains others
  have headerT : t.height t.header = some zskiplistMaxlevel := by
    rw [same.height, same.header]
    exact inv.header
  obtain ⟨lower, ran, positive, below, between, tight⟩ :=
    lowerLevel_spec headerT (same.level ▸ inv.levelPositive) (same.level ▸ inv.levelBound)
  rw [same.level] at below between
  rw [same.header] at between tight
  have levelBound := inv.levelBound
  have length := inv.length
  have fits := inv.fits
  simp only [List.length_append, List.length_cons] at length fits
  let v : Zskiplist H := { t with level := lower, length := t.length + -1 }
  have stepped : (do let t ← lowerLevel t t.level; t.addLength (-1)) = some v := by
    have range : -2 ^ 31 ≤ t.length + -1 ∧ t.length + -1 < 2 ^ 31 := by
      rw [same.length, length]
      omega
    rw [ran]
    exact if_pos range
  have towers (order : List Nat) (i : Nat) : v.tower order i = s.tower order i := same.tower order i
  have keys : v.key = s.key := by
    funext y
    exact congrArg (fun score => (score y).getD 0) same.score
  refine ⟨v, stepped, ?_, same.score, same.height, same.allocated, same.header⟩
  exact
    { header := headerT
      distinct := by
        have distinct := inv.distinct.sublist (shorter.cons_cons s.header)
        rwa [← same.header] at distinct
      allocated := by
        intro y member
        have old : y ∈ s.header :: (first ++ x :: second) :=
          (shorter.cons_cons s.header).subset (same.header ▸ member)
        have bound := inv.allocated y old
        rwa [← same.allocated] at bound
      heights := by
        intro y member
        obtain ⟨h, height, range⟩ := inv.heights y (shorter.subset member)
        exact ⟨h, by rw [← height]; exact congrFun same.height y, range⟩
      sorted := by
        rw [keys]
        exact inv.sorted.sublist shorter
      chains := by
        intro i bound
        rw [towers]
        have chain := linked i bound
        rwa [← same.header] at chain
      levelPositive := positive
      levelBound := Nat.le_trans below levelBound
      above := by
        intro i high
        rw [towers]
        by_cases low : i < s.level
        · exact (linked_nil_iff (s := t) (same.header ▸ linked i (by omega))).mp
            (same.header ▸ between i high low)
        · exact inv.removed_empty (by omega)
      top := by
        rcases tight with lowest | nonempty
        · exact .inl lowest
        · right
          rw [towers]
          intro nil
          apply nonempty
          have chain := linked (lower - 1) (by omega)
          rw [nil] at chain
          exact chain
      length := by
        simp only [List.length_append]
        show t.length + -1 = _
        rw [same.length, length]
        omega
      fits := by
        simp only [List.length_append]
        omega }

theorem Inv.tower_zero (inv : Inv s order) : s.tower order 0 = order := by
  apply List.filter_eq_self.mpr
  intro y member
  obtain ⟨h, height, positive, _⟩ := inv.heights y member
  simpa [Zskiplist.tall, height] using positive

theorem Inv.zslMin (inv : Inv s order) : zslMin s = some order.head? := by
  have chain := inv.chains 0 (by decide)
  rw [inv.tower_zero] at chain
  cases order with
  | nil => exact chain
  | cons x rest => exact chain.1

theorem kept_of_same (score : t.score = s.score) (height : t.height = s.height) (order : List Nat) :
    Kept s t order :=
  ⟨fun y _ => congrArg (Option.getD · 0) (congrFun score y), fun y _ => congrFun height y⟩

theorem Inv.zslDeleteHead (inv : Inv s order) :
    ∃ t, zslDeleteHead s = some t ∧ Inv t order.tail ∧ Kept s t order ∧ t.allocated = s.allocated := by
  have least := inv.zslMin
  cases order with
  | nil => exact ⟨s, by simp [SkipList.zslDeleteHead, least], inv, kept_of_same rfl rfl _, rfl⟩
  | cons x rest =>
      have invX : Inv s ([] ++ x :: rest) := inv
      have each (i : Nat) (member : i ∈ (List.range s.level).reverse) (u : Zskiplist H) (same : Same s u)
          (untouched : u.forward i = s.forward i) :=
        invX.unlink (Nat.lt_of_lt_of_le (by simpa using member) inv.levelBound) same untouched
      obtain ⟨t, ran, same, done, others⟩ := levels_fold (SkipList.unlink s.header x)
        (fun i next => Linked next s.header (s.tower ([] ++ rest) i)) (List.nodup_reverse.mpr List.nodup_range) each
      obtain ⟨v, lowered, invV, score, height, allocated, _⟩ := invX.removed same
        (fun i low => done i (by simpa using low)) (fun i high => others i (by simpa using high))
      refine ⟨v, ?_, invV, kept_of_same score height _, allocated⟩
      simp only [SkipList.zslDeleteHead, least, List.head?_cons, Option.bind_eq_bind, Option.bind_some, ran]
      exact lowered

theorem Inv.free (inv : Inv s order) (outside : x ∉ s.header :: order) :
    Inv { s with nodes := Function.update s.nodes x none } order := by
  have nodes (y : Nat) (member : y ∈ s.header :: order) : Function.update s.nodes x none y = s.nodes y := by
    apply Function.update_of_ne
    rintro rfl
    exact outside member
  have later (y : Nat) (member : y ∈ order) := nodes y (List.mem_cons_of_mem _ member)
  have towers (i : Nat) := tower_agree (t := { s with nodes := Function.update s.nodes x none })
    (fun y member => height_agree (later y member)) i
  have keys (y : Nat) (member : y ∈ order) :
      Zskiplist.key { s with nodes := Function.update s.nodes x none } y = s.key y := key_agree (later y member)
  exact
    { inv with
      header := (height_agree (nodes _ (List.mem_cons_self ..))).trans inv.header
      heights := by
        intro y member
        obtain ⟨h, height, range⟩ := inv.heights y member
        exact ⟨h, (height_agree (later y member)).trans height, range⟩
      sorted := by
        apply inv.sorted.imp_of_mem
        intro y z memberY memberZ le
        rwa [keys y memberY, keys z memberZ]
      chains := by
        intro i bound
        rw [towers]
        apply linked_agree (inv.chains i bound)
        intro y member
        apply nodes
        exact ((List.filter_sublist).cons_cons s.header).subset member
      above := by
        intro i high
        rw [towers]
        exact inv.above i high
      top := by
        rw [towers]
        exact inv.top }

theorem Inv.zslDeleteNode (inv : Inv s (first ++ x :: second)) {update : List Nat}
    (correct : ∀ i < s.level, update[i]? = some (final s.header (s.tower first i))) :
    ∃ t, zslDeleteNode s x update = some t ∧ Inv t (first ++ second) ∧ Kept s t (first ++ second) ∧
      t.allocated = s.allocated ∧ t.header = s.header := by
  have body (i : Nat) (member : i ∈ List.range s.level) (u : Zskiplist H) (same : Same s u)
      (untouched : u.forward i = s.forward i) :
      ∃ t, (do let before ← update[i]?; SkipList.unlink before x u i) = some t ∧ Same u t ∧
        Linked (t.forward i) s.header (s.tower (first ++ second) i) ∧ ∀ j, j ≠ i → t.forward j = u.forward j := by
    have low := List.mem_range.mp member
    rw [correct i low]
    exact inv.unlink (Nat.lt_of_lt_of_le low inv.levelBound) same untouched
  obtain ⟨t, ran, same, done, others⟩ := levels_fold
    (fun u i => do let before ← update[i]?; SkipList.unlink before x u i)
    (fun i next => Linked next s.header (s.tower (first ++ second) i)) List.nodup_range body
  obtain ⟨v, lowered, invV, score, height, allocated, header⟩ := inv.removed same
    (fun i low => done i (List.mem_range.mpr low)) (fun i high => others i (by simpa using high))
  refine ⟨v, ?_, invV, kept_of_same score height _, allocated, header⟩
  rw [SkipList.zslDeleteNode, ran]
  exact lowered

theorem pred_eq (s : Zskiplist H) (order : List Nat) (score i : Nat) :
    s.pred order score i = final s.header (s.tower (order.filter fun y => decide (s.key y < score)) i) := by
  unfold Zskiplist.pred Zskiplist.tower
  rw [List.filter_filter, List.filter_filter]
  simp only [Bool.and_comm]

theorem Inv.split_at (inv : Inv s order) {zn : Nat} (member : zn ∈ order) :
    ∃ x second, order = order.filter (fun y => decide (s.key y < s.key zn)) ++ x :: second ∧
      s.key x = s.key zn := by
  have split := split_sorted (s.key zn) inv.sorted
  have atEnd : zn ∈ order.filter fun y => decide (¬ s.key y < s.key zn) := by simp [member]
  obtain ⟨x, second, rest⟩ := List.exists_cons_of_ne_nil (List.ne_nil_of_mem atEnd)
  have atX : x ∈ order.filter fun y => decide (¬ s.key y < s.key zn) := rest ▸ List.mem_cons_self ..
  have notLess : ¬ s.key x < s.key zn := by simpa using (List.mem_filter.mp atX).2
  rw [rest] at split atEnd
  refine ⟨x, second, split, ?_⟩
  have sorted := inv.sorted
  rw [split] at sorted
  rcases List.mem_cons.mp atEnd with rfl | later
  · rfl
  · have := (List.pairwise_cons.mp (List.pairwise_append.mp sorted).2.1).1 zn later
    omega

theorem Inv.zslDelete (inv : Inv s order) {zn : Nat} (member : zn ∈ order) :
    ∃ t x second, zslDelete s zn = some t ∧
      order = order.filter (fun y => decide (s.key y < s.key zn)) ++ x :: second ∧ s.key x = s.key zn ∧
      Inv t (order.filter (fun y => decide (s.key y < s.key zn)) ++ second) ∧
      Kept s t (order.filter (fun y => decide (s.key y < s.key zn)) ++ second) ∧ t.allocated = s.allocated := by
  obtain ⟨x, second, split, equal⟩ := inv.split_at member
  generalize firstIs : order.filter (fun y => decide (s.key y < s.key zn)) = first at split
  have invX : Inv s (first ++ x :: second) := split ▸ inv
  have inOrder : x ∈ first ++ x :: second := by simp
  have preds (i : Nat) : s.pred order (s.key zn) i = final s.header (s.tower first i) := by
    rw [pred_eq, firstIs]
  obtain ⟨update, searched, _, correct⟩ := inv.search (s.key zn) (i := s.level - 1) (x := s.header)
    (Nat.lt_of_lt_of_le (Nat.sub_lt inv.levelPositive Nat.zero_lt_one) inv.levelBound) (.inl rfl)
  rw [Nat.sub_add_cancel inv.levelPositive, preds] at searched
  obtain ⟨t, deleted, invT, kept, allocated, header⟩ := invX.zslDeleteNode fun i low => by
    rw [correct i (by omega), preds]
  have outside : x ∉ t.header :: (first ++ second) := by
    have middle : ((s.header :: first) ++ x :: second).Nodup := invX.distinct
    rw [header]
    exact (List.nodup_cons.mp (List.nodup_middle.mp middle)).1
  have found : s.forward 0 (final s.header (s.tower first 0)) = some (some x) := by
    have chain := invX.chains 0 (by decide)
    obtain ⟨h, height, positive, _⟩ := invX.heights x inOrder
    rw [tower_append, tower_cons_tall (by simpa [Zskiplist.tall, height] using positive)] at chain
    exact chain.drop.1
  have others (y : Nat) (inside : y ∈ first ++ second) : Function.update t.nodes x none y = t.nodes y := by
    apply Function.update_of_ne
    rintro rfl
    exact outside (List.mem_cons_of_mem _ inside)
  refine ⟨{ t with nodes := Function.update t.nodes x none }, x, second, ?_, split, equal, invT.free outside,
    ⟨fun y inside => (key_agree (others y inside)).trans (kept.key y inside),
      fun y inside => (height_agree (others y inside)).trans (kept.height y inside)⟩, allocated⟩
  simp [SkipList.zslDelete, inv.score member, searched, found, invX.score inOrder, equal, deleted]

end CppInfra.Timer.SkipList
