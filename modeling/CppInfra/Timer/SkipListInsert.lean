import CppInfra.Timer.SkipListDelete

set_option autoImplicit false

namespace CppInfra.Timer.SkipList

open LinkedChain

variable {H : Type} {s t u : Zskiplist H} {order first second : List Nat}

theorem zslRandomLevel_range (draws : List Nat) :
    0 < zslRandomLevel draws ∧ zslRandomLevel draws ≤ zskiplistMaxlevel := by
  unfold zslRandomLevel
  dsimp only
  split_ifs with small
  · omega
  · exact ⟨by decide, Nat.le_refl _⟩

structure Created (s : Zskiplist H) (level score : Nat) (x : Nat) (t : Zskiplist H) : Prop where
  fresh : x = s.allocated
  others : ∀ y, y ≠ x → t.nodes y = s.nodes y
  height : t.height x = some level
  score : t.score x = some score
  allocated : t.allocated = s.allocated + 1
  header : t.header = s.header
  length : t.length = s.length
  level : t.level = max s.level level

theorem zslCreateNode_created (s : Zskiplist H) (level score : Nat) (func : H) :
    Created s level score s.allocated
      (zslCreateNode (if level > s.level then { s with level := level } else s) level score func).2 := by
  have fields : (if level > s.level then { s with level := level } else s).nodes = s.nodes ∧
      (if level > s.level then { s with level := level } else s).allocated = s.allocated ∧
      (if level > s.level then { s with level := level } else s).header = s.header ∧
      (if level > s.level then { s with level := level } else s).length = s.length ∧
      (if level > s.level then { s with level := level } else s).level = max s.level level := by
    split_ifs with higher
    · exact ⟨rfl, rfl, rfl, rfl, by rw [Nat.max_eq_right (by omega)]⟩
    · exact ⟨rfl, rfl, rfl, rfl, by rw [Nat.max_eq_left (by omega)]⟩
  obtain ⟨nodes, allocated, header, length, levels⟩ := fields
  constructor
  · rfl
  · intro y other
    simp only [zslCreateNode, nodes, allocated]
    exact Function.update_of_ne other ..
  · simp [zslCreateNode, Zskiplist.height, allocated]
  · simp [zslCreateNode, Zskiplist.score, allocated]
  · simp [zslCreateNode, allocated]
  · exact header
  · exact length
  · exact levels

variable {level score x : Nat}

theorem Inv.fresh (inv : Inv s order) (created : Created s level score x t) : x ∉ s.header :: order := by
  intro member
  have := inv.allocated x member
  have := created.fresh
  omega

theorem Inv.agree (inv : Inv s order) (created : Created s level score x t) {y : Nat}
    (member : y ∈ s.header :: order) : t.nodes y = s.nodes y := by
  apply created.others
  rintro rfl
  exact inv.fresh created member

theorem Inv.link (inv : Inv s (first ++ second)) (created : Created s level score x t) {update : List Nat} {i : Nat}
    (low : i < level) (bound : i < zskiplistMaxlevel)
    (before : update[i]? = some (final s.header (s.tower first i))) (same : Same t u)
    (untouched : u.forward i = t.forward i) :
    ∃ v, link update x u i = some v ∧ Same u v ∧
      Linked (v.forward i) s.header (s.tower first i ++ x :: s.tower second i) ∧
      ∀ j, j ≠ i → v.forward j = u.forward j := by
  have subset : s.header :: s.tower (first ++ second) i ⊆ s.header :: (first ++ second) :=
    (List.filter_sublist.cons_cons s.header).subset
  have chain : Linked (t.forward i) s.header (s.tower (first ++ second) i) := by
    apply linked_agree (inv.chains i bound)
    intro y member
    exact inv.agree created (subset member)
  have distinct := inv.tower_distinct i
  have fresh : x ∉ s.header :: s.tower (first ++ second) i := fun member => inv.fresh created (subset member)
  have beforeMember : final s.header (s.tower first i) ∈ s.header :: s.tower (first ++ second) i := by
    rw [tower_append]
    exact List.mem_append_left (s.tower second i) (final_mem s.header (s.tower first i))
  obtain ⟨h, height, inside⟩ := inv.tower_height bound beforeMember
  rw [← height_agree (inv.agree created (subset beforeMember)), ← same.height] at height
  obtain ⟨after, link⟩ := forward_isSome height inside
  have heightX := created.height
  rw [← same.height] at heightX
  obtain ⟨v, writtenX, sameV, forwardV, othersV⟩ := setForward_spec heightX low after
  rw [← sameV.height] at height
  obtain ⟨w, written, sameW, forwardW, othersW⟩ := setForward_spec height inside (some x)
  rw [tower_append] at chain distinct fresh
  refine ⟨w, ?_, sameV.trans sameW, ?_, ?_⟩
  · simp [SkipList.link, before, link, writtenX, written]
  · rw [forwardW, forwardV, untouched, ← link, untouched]
    exact chain.insert distinct fresh
  · intro j apart
    rw [othersW j apart, othersV j apart]

theorem Created.height_kept (created : Created s level score x t) (same : Same t u) : u.height x = some level :=
  (congrFun same.height x).trans created.height

theorem Created.key_kept (created : Created s level score x t) (same : Same t u) : u.key x = score := by
  rw [Zskiplist.key, same.score, created.score]
  rfl

theorem Inv.height_kept (inv : Inv s order) (created : Created s level score x t) (same : Same t u) {y : Nat}
    (member : y ∈ order) : u.height y = s.height y :=
  (congrFun same.height y).trans (height_agree (inv.agree created (List.mem_cons_of_mem _ member)))

theorem Inv.key_kept (inv : Inv s order) (created : Created s level score x t) (same : Same t u) {y : Nat}
    (member : y ∈ order) : u.key y = s.key y :=
  (congrArg (Option.getD · 0) (congrFun same.score y)).trans
    (key_agree (inv.agree created (List.mem_cons_of_mem _ member)))

theorem Inv.tower_low (inv : Inv s (first ++ second)) (created : Created s level score x t) (same : Same t u) {i : Nat}
    (low : i < level) : u.tower (first ++ x :: second) i = s.tower first i ++ x :: s.tower second i := by
  have tall : u.tall i x = true := by simpa [Zskiplist.tall, created.height_kept same] using low
  rw [tower_append, tower_cons_tall tall,
    tower_agree fun y member => inv.height_kept created same (List.mem_append_left second member),
    tower_agree fun y member => inv.height_kept created same (List.mem_append_right first member)]

theorem Inv.tower_high (inv : Inv s (first ++ second)) (created : Created s level score x t) (same : Same t u)
    {i : Nat} (high : level ≤ i) : u.tower (first ++ x :: second) i = s.tower (first ++ second) i := by
  have small : u.tall i x = false := by simpa [Zskiplist.tall, created.height_kept same] using high
  rw [tower_append, tower_cons_low small, ← tower_append,
    tower_agree fun y member => inv.height_kept created same member]

theorem Inv.inserted_heights (inv : Inv s (first ++ second)) (created : Created s level score x t) (same : Same t u)
    (positive : 0 < level) (bound : level ≤ zskiplistMaxlevel) :
    ∀ y ∈ first ++ x :: second, ∃ h, u.height y = some h ∧ 0 < h ∧ h ≤ zskiplistMaxlevel := by
  intro y member
  by_cases isX : y = x
  · subst isX
    exact ⟨level, created.height_kept same, positive, bound⟩
  · have old : y ∈ first ++ second := by simpa [isX] using member
    rw [inv.height_kept created same old]
    exact inv.heights y old

theorem Inv.inserted_sorted (inv : Inv s (first ++ second)) (created : Created s level score x t) (same : Same t u)
    (small : ∀ y ∈ first, s.key y ≤ score) (large : ∀ y ∈ second, score ≤ s.key y) :
    (first ++ x :: second).Pairwise fun y z => u.key y ≤ u.key z := by
  have keys : ∀ y ∈ first ++ second, u.key y = s.key y := fun y member => inv.key_kept created same member
  have sorted : (first ++ second).Pairwise fun y z => u.key y ≤ u.key z := by
    apply inv.sorted.imp_of_mem
    intro y z memberY memberZ le
    rwa [keys y memberY, keys z memberZ]
  obtain ⟨firstSorted, secondSorted, across⟩ := List.pairwise_append.mp sorted
  refine List.pairwise_append.mpr ⟨firstSorted, List.pairwise_cons.mpr ⟨?_, secondSorted⟩, ?_⟩
  · intro z member
    rw [created.key_kept same, keys z (List.mem_append_right first member)]
    exact large z member
  · intro y early z late
    rcases List.mem_cons.mp late with rfl | later
    · rw [created.key_kept same, keys y (List.mem_append_left second early)]
      exact small y early
    · exact across y early z later

theorem Inv.inserted (inv : Inv s (first ++ second)) (created : Created s level score x t) (same : Same t u)
    (positive : 0 < level) (bound : level ≤ zskiplistMaxlevel) (room : (first ++ second).length + 1 < 2 ^ 31)
    (small : ∀ y ∈ first, s.key y ≤ score) (large : ∀ y ∈ second, score ≤ s.key y)
    (chains : ∀ i < level, Linked (u.forward i) s.header (s.tower first i ++ x :: s.tower second i))
    (others : ∀ i, level ≤ i → u.forward i = t.forward i) :
    ∃ v, u.addLength 1 = some v ∧ Inv v (first ++ x :: second) ∧ Kept s v (first ++ second) ∧ v.key x = score ∧
      v.allocated = s.allocated + 1 := by
  have length := inv.length
  have range : -2 ^ 31 ≤ u.length + 1 ∧ u.length + 1 < 2 ^ 31 := by
    rw [same.length, created.length, length]
    omega
  have header : u.header = s.header := same.header.trans created.header
  have levels : u.level = max s.level level := same.level.trans created.level
  have heights := inv.inserted_heights created same positive bound
  have sorted := inv.inserted_sorted created same small large
  have newKey := created.key_kept same
  refine ⟨{ u with length := u.length + 1 }, if_pos range, ?_,
    ⟨fun y member => inv.key_kept created same member, fun y member => inv.height_kept created same member⟩,
    newKey, same.allocated.trans created.allocated⟩
  exact
    { header := by
        have agree := height_agree (inv.agree created (List.mem_cons_self ..))
        show u.height u.header = _
        rw [header, same.height, agree]
        exact inv.header
      distinct := by
        show (u.header :: (first ++ x :: second)).Nodup
        rw [header]
        have extended : (x :: (s.header :: first ++ second)).Nodup :=
          List.nodup_cons.mpr ⟨inv.fresh created, inv.distinct⟩
        exact List.nodup_middle.mpr extended
      allocated := by
        intro y member
        show y < u.allocated
        rw [same.allocated, created.allocated]
        by_cases isX : y = x
        · have := created.fresh
          omega
        · have old : y ∈ s.header :: (first ++ second) := by
            rw [← header]
            simpa [isX] using member
          have := inv.allocated y old
          omega
      heights := heights
      sorted := sorted
      chains := by
        intro i inside
        show Linked (u.forward i) u.header (u.tower (first ++ x :: second) i)
        rw [header]
        by_cases low : i < level
        · rw [inv.tower_low created same low]
          exact chains i low
        · rw [inv.tower_high created same (by omega), others i (by omega)]
          apply linked_agree (inv.chains i inside)
          intro y member
          exact inv.agree created ((List.filter_sublist.cons_cons s.header).subset member)
      levelPositive := by
        show 0 < u.level
        rw [levels]
        omega
      levelBound := by
        have levelBound := inv.levelBound
        show u.level ≤ _
        rw [levels]
        omega
      above := by
        intro i high
        have high' : u.level ≤ i := high
        rw [levels] at high'
        exact (inv.tower_high created same (by omega)).trans (inv.above i (by omega))
      top := by
        right
        show u.tower (first ++ x :: second) (u.level - 1) ≠ []
        rw [levels]
        by_cases higher : s.level ≤ level
        · rw [inv.tower_low created same (by omega)]
          simp
        · rw [inv.tower_high created same (by omega), Nat.max_eq_left (by omega)]
          exact inv.top.resolve_left (by omega)
      length := by
        show u.length + 1 = _
        rw [same.length, created.length, length]
        simp only [List.length_append, List.length_cons]
        omega
      fits := by
        simp only [List.length_append, List.length_cons] at room ⊢
        omega }

theorem Inv.zslInsert_links (inv : Inv s order) (score : Nat) (func : H) (draws : List Nat) :
    ∃ t : Zskiplist H, zslInsert s score func draws = (t.addLength 1).map (fun v => (s.allocated, v)) ∧
      t.length = s.length ∧
      (order.length + 1 < 2 ^ 31 → ∃ v, t.addLength 1 = some v ∧
        Inv v (order.filter (fun y => decide (s.key y < score)) ++
          s.allocated :: order.filter fun y => decide (¬ s.key y < score)) ∧
        Kept s v order ∧ v.key s.allocated = score ∧ v.allocated = s.allocated + 1) := by
  obtain ⟨positive, bound⟩ := zslRandomLevel_range draws
  have split := split_sorted score inv.sorted
  have small (y : Nat) (member : y ∈ order.filter fun y => decide (s.key y < score)) : s.key y ≤ score :=
    Nat.le_of_lt (of_decide_eq_true (List.mem_filter.mp member).2)
  have large (y : Nat) (member : y ∈ order.filter fun y => decide (¬ s.key y < score)) : score ≤ s.key y :=
    Nat.not_lt.mp (of_decide_eq_true (List.mem_filter.mp member).2)
  generalize firstIs : order.filter (fun y => decide (s.key y < score)) = first at split small ⊢
  generalize order.filter (fun y => decide (¬ s.key y < score)) = second at split large ⊢
  have invX : Inv s (first ++ second) := split ▸ inv
  have created := zslCreateNode_created s (zslRandomLevel draws) score func
  obtain ⟨update, searched, length, correct⟩ := inv.search score (i := s.level - 1) (x := s.header)
    (Nat.lt_of_lt_of_le (Nat.sub_lt inv.levelPositive Nat.zero_lt_one) inv.levelBound) (.inl rfl)
  rw [Nat.sub_add_cancel inv.levelPositive] at searched length
  have before (i : Nat) (low : i < zslRandomLevel draws) :
      (update ++ List.replicate (zslRandomLevel draws - s.level) s.header)[i]? =
        some (final s.header (s.tower first i)) := by
    by_cases searchedLevel : i < s.level
    · rw [List.getElem?_append_left (by omega), correct i (by omega), pred_eq, firstIs]
    · -- a level that the list has only now
      have none_ := invX.above i (by omega)
      rw [tower_append, List.append_eq_nil_iff] at none_
      rw [List.getElem?_append_right (by omega), none_.1, List.getElem?_replicate, if_pos (by omega)]
      rfl
  obtain ⟨t, ran, same, done, others⟩ := levels_fold
    (SkipList.link (update ++ List.replicate (zslRandomLevel draws - s.level) s.header) s.allocated)
    (fun i next => Linked next s.header (s.tower first i ++ s.allocated :: s.tower second i)) List.nodup_range
    (fun i member u sameU untouched => invX.link created (List.mem_range.mp member)
      (Nat.lt_of_lt_of_le (List.mem_range.mp member) bound) (before i (List.mem_range.mp member)) sameU untouched)
  have number : (zslCreateNode (if zslRandomLevel draws > s.level then { s with level := zslRandomLevel draws }
      else s) (zslRandomLevel draws) score func).1 = s.allocated := by
    unfold zslCreateNode
    split_ifs <;> rfl
  refine ⟨t, ?_, same.length.trans created.length, fun room => ?_⟩
  · simp only [SkipList.zslInsert, searched, Option.bind_eq_bind, Option.bind_some, number, ran]
    cases t.addLength 1 <;> rfl
  · rw [split]
    exact invX.inserted created same positive bound (split ▸ room) small large
      (fun i low => done i (List.mem_range.mpr low)) (fun i high => others i (by simpa using high))

theorem Inv.zslInsert (inv : Inv s order) (score : Nat) (func : H) (draws : List Nat)
    (room : order.length + 1 < 2 ^ 31) :
    ∃ t, zslInsert s score func draws = some (s.allocated, t) ∧
      Inv t (order.filter (fun y => decide (s.key y < score)) ++
        s.allocated :: order.filter fun y => decide (¬ s.key y < score)) ∧
      Kept s t order ∧ t.key s.allocated = score ∧ t.allocated = s.allocated + 1 := by
  obtain ⟨t, inserted, _, counted⟩ := inv.zslInsert_links score func draws
  obtain ⟨v, added, invV, kept⟩ := counted room
  exact ⟨v, by rw [inserted, added]; rfl, invV, kept⟩

theorem Inv.zslInsert_full (inv : Inv s order) (score : Nat) (func : H) (draws : List Nat)
    (full : order.length + 1 = 2 ^ 31) : SkipList.zslInsert s score func draws = none := by
  obtain ⟨t, inserted, same, _⟩ := inv.zslInsert_links score func draws
  have length := inv.length
  have overflow : t.addLength 1 = none := by
    apply if_neg
    rw [same, length]
    omega
  rw [inserted, overflow]
  rfl

end CppInfra.Timer.SkipList
