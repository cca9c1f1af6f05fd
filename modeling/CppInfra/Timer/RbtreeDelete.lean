import CppInfra.Timer.RbtreeUnlink

set_option autoImplicit false

namespace CppInfra.Timer.Rbtree

open RedBlackTree RedBlackTree.RbTree

variable {memory memory' : Memory} {context : List (Frame Nat)} {color d : Color} {x y : Nat}
  {tree left right : RbTree Nat} {frame : Frame Nat} {side : Side}

theorem Stored.congr (held : Stored memory context tree) (sentinel : memory'.sentinel = memory.sentinel)
    (root : memory'.root = memory.root)
    (link : ∀ s, ∀ z ∈ (plug context tree).toList, memory'.link s z = memory.link s z)
    (color : ∀ z ∈ memory.sentinel :: (plug context tree).toList, memory'.color z = memory.color z)
    (parent : ∀ z ∈ (plug context tree).toList, memory'.parent z = memory.parent z) :
    Stored memory' context tree := by
  have inside (z : Nat) (member : z ∈ tree.toList) : z ∈ (plug context tree).toList := mem_plug.mpr (.inl member)
  have outer (z : Nat) (member : z ∈ outside context) : z ∈ (plug context tree).toList := mem_plug.mpr (.inr member)
  refine ⟨?_, ?_, ?_, held.distinct, ?_, ?_, ?_⟩
  · rw [sentinel]
    exact held.around.congr (nodup_outside_of_plug held.distinct) sentinel root
      (fun s z member => link s z (outer z member)) (fun z member => color z (List.mem_cons_of_mem _ (outer z member)))
      fun z member => parent z (outer z member)
  · intro shape frame outermost
    rw [sentinel, parent _ (inside _ (address_mem _ shape))]
    exact held.above shape frame outermost
  · exact held.holds.congr (nodup_plug held.distinct).1 sentinel (fun s z member => link s z (inside z member))
      (fun z member => color z (List.mem_cons_of_mem _ (inside z member)))
      fun z member _ => parent z (inside z member)
  · rw [sentinel]
    exact held.proper
  · rw [sentinel]
    exact held.real
  · rw [sentinel, color _ (List.mem_cons_self ..)]
    exact held.black

def cleared (memory : Memory) (node : Nat) : Memory :=
  (((memory.withLink .left node 0).withLink .right node 0).withParent node 0).withKey node 0

theorem clear_eq (real : x ≠ 0) : clear memory x = some (cleared memory x) := by
  simp only [clear, setLink_of_ne _ _ _ real, setParent_of_ne _ _ real, setKey, if_neg real, Option.bind_eq_bind,
    Option.bind_some]
  rfl

theorem cleared_stored (held : Stored memory context tree) (absent : x ∉ (plug context tree).toList) :
    Stored (cleared memory x) context tree := by
  refine held.congr rfl rfl ?_ (fun _ _ => rfl) ?_
  · intro s z member
    simp [cleared, Memory.withKey, ne_of_notMem member absent]
  · intro z member
    simp [cleared, Memory.withKey, ne_of_notMem member absent, Memory.withParent, Memory.withLink]

-- The node is cleared, the keys of all others stay, and nothing outside the tree has changed.
structure Removed (memory memory' : Memory) (x : Nat) (own : List Nat) : Prop where
  sentinel : memory'.sentinel = memory.sentinel
  key : ∀ z, z ≠ x → memory'.key z = memory.key z
  zero : memory'.key x = 0 ∧ memory'.parent x = 0 ∧ ∀ s, memory'.link s x = 0
  link : ∀ s, ∀ z, z ∉ own → memory'.link s z = memory.link s z
  parent : ∀ z, z ∉ own → memory'.parent z = memory.parent z
  color : ∀ z, z ∉ own → memory'.color z = memory.color z

theorem removed_of_cleared {middle : Memory} {own rest : List Nat} (before : Spares memory middle own)
    (after : Spares (cleared middle x) memory' rest) (member : x ∈ own) (absent : x ∉ rest)
    (sub : ∀ z ∈ rest, z ∈ own) : Removed memory memory' x own where
  sentinel := after.sentinel.trans before.sentinel
  key z other := by
    rw [after.key, ← before.key]
    exact Function.update_of_ne other _ _
  zero := by
    refine ⟨?_, ?_, ?_⟩
    · rw [after.key]
      exact Function.update_self ..
    · rw [after.parent x absent]
      exact Function.update_self ..
    · intro s
      rw [after.link s x absent]
      cases s <;> simp [cleared, Memory.withKey]
  link s z out := by
    rw [after.link s z fun inside => out (sub z inside), ← before.link s z out]
    simp [cleared, Memory.withKey, (ne_of_notMem member out).symm]
  parent z out := by
    rw [after.parent z fun inside => out (sub z inside), ← before.parent z out]
    exact Function.update_of_ne (ne_of_notMem member out).symm _ _
  color z out := by
    rw [after.color z fun inside => out (sub z inside), ← before.color z out]
    rfl

theorem finish (held : Stored memory context tree) (tied : TiedTo memory context tree) (deeper : context ≠ [])
    (absent : x ∉ (plug context tree).toList) (real : x ≠ 0) (inner : x ≠ memory.sentinel) {turns : Nat}
    (enough : context.length < turns)
    (short : d = .black → ∃ n, Short tree n ∧ Around context .black (n + 1)) :
    ∃ memory',
      ((clear memory x).bind fun after =>
        if d = .red then some after else deleteLoop turns after (address memory.sentinel tree)) = some memory' ∧
      Stored memory' [] (unlink context d tree) ∧
      Spares (cleared memory x) memory' (memory.sentinel :: (plug context tree).toList) := by
  obtain ⟨frame, outer, rfl⟩ := List.exists_cons_of_ne_nil deeper
  have after := cleared_stored held absent
  rw [clear_eq real, Option.bind_some, unlink]
  cases d with
  | red =>
      rw [if_pos rfl, if_pos rfl]
      exact ⟨_, rfl, stored_focus.mp after, .refl ..⟩
  | black =>
      obtain ⟨n, isShort, around⟩ := short rfl
      have tiedAfter : TiedTo (cleared memory x) (frame :: outer) tree := by
        intro outermost first
        have other : address memory.sentinel tree ≠ x := by
          rintro rfl
          by_cases leaf : tree = .leaf
          · exact inner (held.address_eq_sentinel.mpr leaf)
          · exact absent (mem_plug.mpr (.inl (address_mem _ leaf)))
        rw [← tied outermost first]
        exact Function.update_of_ne other _ _
      obtain ⟨memory', looped, deletes⟩ := deleteLoop_deletes after tiedAfter isShort around enough
      rw [if_neg (by decide), if_neg (by decide)]
      exact ⟨memory', looped, deletes.stored, deletes.spares⟩

structure Deleted (memory memory' : Memory) (x : Nat) (whole whole' : RbTree Nat) : Prop where
  stored : Stored memory' [] whole'
  removed : Removed memory memory' x (memory.sentinel :: whole.toList)

theorem sublist_unlinked (context : List (Frame Nat)) (side : Side) (d : Color) (x : Nat) (tree : RbTree Nat) :
    (plug context tree).toList.Sublist (plug context (branch side d x .leaf tree)).toList :=
  sublist_plug (sublist_branch side d x .leaf tree) context

theorem Stored.absent (held : Stored memory context (branch side d x .leaf tree)) : x ∉ (plug context tree).toList := by
  obtain ⟨nodup, apart⟩ := nodup_plug held.distinct
  obtain ⟨-, -, -, absent, -⟩ := nodup_branch nodup
  intro inside
  rcases mem_plug.mp inside with below | out
  · exact absent below
  · exact apart x (mem_branch.mpr (.inl rfl)) out

theorem delete_oneChild {turns : Nat} (held : Stored memory context (branch side d x .leaf tree))
    (redBlack : RedBlack (plug context (branch side d x .leaf tree)))
    (chosen : chooseSubst turns memory x = some (x, address memory.sentinel tree)) (enough : context.length < turns) :
    ∃ memory', ngxRbtreeDelete turns memory x = some memory' ∧
      Deleted memory memory' x (plug context (branch side d x .leaf tree)) (unlink context d tree) := by
  obtain ⟨real, inner⟩ := held.root_real
  have absent := held.absent
  have inside : x ∈ memory.sentinel :: (plug context (branch side d x .leaf tree)).toList :=
    List.mem_cons_of_mem _ (mem_plug.mpr (.inl (mem_branch.mpr (.inl rfl))))
  have sub := (sublist_unlinked context side d x tree).subset
  have top := held.root_iff
  rw [address_branch] at top
  have owned (z : Nat) (member : z ∈ memory.sentinel :: (plug context tree).toList) :
      z ∈ memory.sentinel :: (plug context (branch side d x .leaf tree)).toList :=
    List.cons_subset_cons _ sub member
  have gone : x ∉ memory.sentinel :: (plug context tree).toList :=
    fun member => (List.mem_cons.mp member).elim inner absent
  cases context with
  | nil =>
      have raised : Stored (memory.withRoot (address memory.sentinel tree)) [] tree := by
        have parts := held.cut_parts
        refine ⟨rfl, ?_, ?_, held.distinct.sublist (sublist_unlinked [] side d x tree),
          fun z member => held.proper z (sub member), held.real, held.black⟩
        · rintro - _ ⟨⟩
        · exact parts.holds.congr parts.nodup rfl (fun _ _ _ => rfl) (fun _ _ => rfl) fun _ _ _ => rfl
      obtain ⟨m₁, painted, stored, spares⟩ := paintBlack_stored raised
      have absentPainted : x ∉ (plug [] (tree.paint .black)).toList := by
        rw [plug, toList_paint]
        exact absent
      have start : Spares memory (memory.withRoot (address memory.sentinel tree))
          (memory.sentinel :: (plug [] tree).toList) :=
        ⟨rfl, rfl, fun _ _ _ => rfl, fun _ _ => rfl, fun _ _ => rfl⟩
      have first : Spares memory m₁ (memory.sentinel :: (plug [] tree).toList) := start.trans spares
      refine ⟨cleared m₁ x, ?_, cleared_stored stored absentPainted, ?_⟩
      · have paint : setColor (memory.withRoot (address memory.sentinel tree)) (address memory.sentinel tree) .black =
            some m₁ := painted
        simp only [ngxRbtreeDelete, chosen, if_pos (top.mpr rfl), Option.bind_eq_bind, Option.bind_some, paint,
          clear_eq real]
      · exact removed_of_cleared (first.mono owned) (.refl _ []) inside (by simp) (by simp)
  | cons frame context =>
      have deeper := mt top.mp (List.cons_ne_nil _ _)
      have around := held.around
      have up := held.above (branch_ne_leaf _ _ _ _ _) frame rfl
      rw [address_branch] at around up
      have relinked := relink_eq around (fun z member => (held.proper z (mem_plug.mpr (.inr member))).1) inner
        held.cut_parts.absentOutside .left (address memory.sentinel tree)
      have realTree := held.onFar.address_ne
      obtain ⟨memory', finished, stored, spares⟩ := finish (d := d) (cut_stored held)
        (cut_tied memory frame context tree) (List.cons_ne_nil _ _) absent real inner enough
        (by rintro rfl; exact redBlack.unlinked)
      refine ⟨memory', ?_, stored, ?_⟩
      · simp only [ngxRbtreeDelete, chosen, if_neg deeper, deref_of_ne _ real, held.cell.painted, up, relinked,
          if_true, Memory.parent_withLink, setParent_of_ne _ _ realTree, Option.bind_eq_bind, Option.bind_some]
        exact finished
      · exact removed_of_cleared (.cut ..) spares inside gone owned

theorem chooseSubst_twoChildren {turns : Nat} {left' right' : RbTree Nat} {color' : Color} {x' : Nat}
    (held : Stored memory context (.node color left x (.node color' left' x' right'))) (full : left ≠ .leaf)
    (enough : left'.height < turns) :
    chooseSubst turns memory x = some ((leftmost color' left' x' right').value,
      address memory.sentinel (leftmost color' left' x' right').right) := by
  have sides : Stored memory context (branch .left color x left (.node color' left' x' right')) := held
  have real := sides.root_real.1
  have toLeft : memory.link .left x = address memory.sentinel left := sides.cell.toNear
  have toRight : memory.link .right x = x' := sides.cell.toFar
  have innerLeft := mt sides.onNear.address_eq_sentinel.mp full
  have innerRight : x' ≠ memory.sentinel := mt sides.onFar.address_eq_sentinel.mp nofun
  have first := ngxRbtreeMin_eq sides.onFar enough
  have successor : Stored memory ((leftmost color' left' x' right').path ++ ⟨.right, color, x, left⟩ :: context)
      (.node (leftmost color' left' x' right').color .leaf (leftmost color' left' x' right').value
        (leftmost color' left' x' right').right) := by
    rw [stored_append, plug_leftmost]
    exact sides.onFar
  have realY : (leftmost color' left' x' right').value ≠ 0 := successor.address_ne
  have leftOfY : memory.link .left (leftmost color' left' x' right').value = memory.sentinel := successor.holds.2.1
  have rightOfY := successor.holds.2.2.1
  simp only [chooseSubst, deref_of_ne _ real, toLeft, toRight, if_neg innerLeft, if_neg innerRight, first,
    deref_of_ne _ realY, leftOfY, rightOfY, if_true, Option.bind_eq_bind, Option.bind_some]

theorem mem_outside_of_mem (member : frame ∈ context) : frame.value ∈ outside context := by
  induction context with
  | nil => cases member
  | cons first context ih =>
      apply mem_outside_cons.mpr
      rcases List.mem_cons.mp member with rfl | later
      · exact .inl rfl
      · exact .inr (.inr (ih later))

structure CutSuccessor (memory memory' : Memory) (path context : List (Frame Nat)) (color : Color)
    (left : RbTree Nat) (x y : Nat) (tree : RbTree Nat) (own : List Nat) : Prop where
  parts : Parts memory' context color left x (plug path tree)
  tied : ∀ frame ∈ (path ++ ⟨.right, color, y, left⟩ :: context).head?,
    memory'.parent (address memory.sentinel tree) = frame.value
  spares : Spares memory memory' own

theorem cut_successor {path : List (Frame Nat)}
    (held : Stored memory (path ++ ⟨.right, color, x, left⟩ :: context) (branch .left d y .leaf tree)) :
    ∃ m₁ m₂, relink .left memory (memory.parent y) y (address memory.sentinel tree) = some m₁ ∧
      m₁.parent = memory.parent ∧
      setParent m₁ (address memory.sentinel tree) (if memory.parent y = x then y else memory.parent y) = some m₂ ∧
      CutSuccessor memory m₂ path context color left x y tree
        (memory.sentinel ::
          (plug (path ++ ⟨.right, color, x, left⟩ :: context) (branch .left d y .leaf tree)).toList) := by
  have realTree := held.onFar.address_ne
  have inner := held.root_real.2
  have around := held.around
  have above := held.above (branch_ne_leaf _ _ _ _ _)
  have absentOutside := held.cut_parts.absentOutside
  have proper := fun z member => (held.proper z (mem_plug.mpr (.inr member))).1
  have sub := sublist_unlinked (path ++ ⟨.right, color, x, left⟩ :: context) .left d y tree
  rw [address_branch] at around above
  cases path with
  | nil =>
      have up : memory.parent y = x := above _ rfl
      have relinked := relink_eq around proper inner absentOutside .left (address memory.sentinel tree)
      obtain ⟨⟨painted, toRight, toLeft, -, holdsLeft, aboveX, aroundX⟩, holds⟩ := cut_around held y
      rw [if_pos up, up]
      refine ⟨_, _, relinked, rfl, setParent_of_ne _ _ realTree, ⟨?_, ?_, .cut ..⟩⟩
      · exact
          { painted, toLeft, toRight, holdsLeft
            around := aroundX
            above := aboveX
            holdsRight := holds
            distinct := held.distinct.sublist sub
            proper := fun z member => held.proper z (sub.subset member)
            real := held.real
            black := held.black }
      · rintro _ ⟨⟩
        simp
  | cons frame path =>
      have up : memory.parent y = frame.value := above _ rfl
      have relinked := relink_eq around proper inner absentOutside .left (address memory.sentinel tree)
      have stored := cut_stored held
      have whole : Stored (cut memory frame tree frame.value) context
          (.node color left x (plug (frame :: path) tree)) :=
        stored_attach.mp (stored_append.mp (show Stored _ ((frame :: path) ++ _) _ from stored))
      have other : frame.value ≠ x := by
        have apart := (stored_attach.mp stored).address_outside
        rw [address_attach] at apart
        intro same
        apply apart
        rw [same]
        exact mem_outside_of_mem (List.mem_append_right path (List.mem_cons_self ..))
      rw [up, if_neg other]
      refine ⟨_, _, relinked, rfl, setParent_of_ne _ _ realTree, ⟨whole.parts, ?_, .cut ..⟩⟩
      rintro _ ⟨⟩
      simp

theorem Spares.taken {own : List Nat} (here : y ∈ own)
    (inside : ∀ z ∈ (plug context (.node color left x right)).toList, z ∈ own) :
    Spares memory (taken memory context color left x right y) own := by
  have inLeft (z : Nat) (member : z ∈ left.toList) : z ∈ own :=
    inside z (mem_plug.mpr (.inl (by simp [toList, member])))
  have inRight (z : Nat) (member : z ∈ right.toList) : z ∈ own :=
    inside z (mem_plug.mpr (.inl (by simp [toList, member])))
  exact (Spares.withLink memory here _ _).trans <| (Spares.withLink _ here _ _).trans <|
    (Spares.withParent _ here _).trans <| (Spares.withColor _ here _).trans <|
    (Spares.attached _ (fun z member => inside z (mem_plug.mpr (.inr member))) y).trans <|
    (Spares.adopted _ inLeft y).trans (Spares.adopted _ inRight y)

theorem taken_parent {z : Nat} (other : z ≠ y) (notLeft : z ∉ left.toList) (notRight : z ∉ right.toList) :
    (taken memory context color left x right y).parent z = memory.parent z := by
  simp only [taken]
  rw [parent_adopted_of_notMem notRight, parent_adopted_of_notMem notLeft, parent_attached]
  simp [copied, other]

theorem delete_twoChildren {turns : Nat} {path : List (Frame Nat)}
    (held : Stored memory (path ++ ⟨.right, color, x, left⟩ :: context) (branch .left d y .leaf tree))
    (chosen : chooseSubst turns memory x = some (y, address memory.sentinel tree))
    (enough : (path ++ ⟨.right, color, y, left⟩ :: context).length < turns)
    (short : d = .black → ∃ n, Short tree n ∧ Around (path ++ ⟨.right, color, y, left⟩ :: context) .black (n + 1)) :
    ∃ memory', ngxRbtreeDelete turns memory x = some memory' ∧
      Deleted memory memory' x (plug (path ++ ⟨.right, color, x, left⟩ :: context) (branch .left d y .leaf tree))
        (unlink (path ++ ⟨.right, color, y, left⟩ :: context) d tree) := by
  have absentY := held.absent
  have same : plug (path ++ ⟨.right, color, x, left⟩ :: context) tree =
      plug context (.node color left x (plug path tree)) := by
    rw [plug_append]
    rfl
  let above : Frame Nat := ⟨.right, color, x, left⟩
  have inX : above.value ∈ outside (path ++ above :: context) :=
    mem_outside_of_mem (List.mem_append_right path (List.mem_cons_self ..))
  obtain ⟨realX, innerX⟩ := held.proper x (mem_plug.mpr (.inr inX))
  obtain ⟨realY, innerY⟩ := held.root_real
  have xy : y ≠ x := by
    rintro rfl
    exact held.cut_parts.absentOutside inX
  have deeper : y ≠ memory.root := by
    have top := held.root_iff
    rw [address_branch] at top
    exact mt top.mp (by simp)
  obtain ⟨m₁, m₂, relinked, parents, tempParent, cut⟩ := cut_successor held
  have sentinel₂ := cut.spares.sentinel
  rw [same] at absentY
  have fresh : Fresh m₂ (plug context (.node color left x (plug path tree))) y :=
    ⟨realY, by rwa [sentinel₂], absentY⟩
  have taking := takePlace_eq cut.parts fresh
  have whole := taken_stored cut.parts fresh
  have stored : Stored (taken m₂ context color left x (plug path tree) y) (path ++ ⟨.right, color, y, left⟩ :: context)
      tree := stored_append.mpr (stored_attach.mpr whole)
  have sentinel₃ : (taken m₂ context color left x (plug path tree) y).sentinel = memory.sentinel := by
    simp [taken, copied, sentinel₂]
  have properNow (z : Nat) (member : z ∈ (plug context (.node color left y (plug path tree))).toList) :
      z ≠ memory.sentinel := by
    rw [← sentinel₃]
    exact (whole.proper z member).2
  have tied : TiedTo (taken m₂ context color left x (plug path tree) y) (path ++ ⟨.right, color, y, left⟩ :: context)
      tree := by
    intro frame first
    by_cases leaf : tree = .leaf
    · have place : address memory.sentinel tree = memory.sentinel := by
        rw [leaf]
        rfl
      rw [sentinel₃, ← cut.tied frame first, place]
      apply taken_parent
      · exact innerY.symm
      · exact fun inside => properNow _ (mem_plug.mpr (.inl (by simp [toList, inside]))) rfl
      · exact fun inside => properNow _ (mem_plug.mpr (.inl (by simp [toList, inside]))) rfl
    · exact stored.above leaf frame first
  have absentX : x ∉ (plug (path ++ ⟨.right, color, y, left⟩ :: context) tree).toList := by
    have before :=
      List.nodup_cons.mp ((perm_node context color left x (plug path tree)).nodup_iff.mp cut.parts.distinct)
    intro inside
    rw [plug_append] at inside
    rcases List.mem_cons.mp ((perm_node context color left y (plug path tree)).mem_iff.mp inside) with same | old
    · exact xy same.symm
    · exact before.1 old
  obtain ⟨memory', finished, final, spares⟩ := finish (d := d) stored tied (by simp) absentX realX
    (by rwa [sentinel₃]) enough short
  have owned : ∀ z ∈ (plug context (.node color left x (plug path tree))).toList,
      z ∈ memory.sentinel ::
        (plug (path ++ ⟨.right, color, x, left⟩ :: context) (branch .left d y .leaf tree)).toList := by
    intro z member
    rw [← same] at member
    exact List.mem_cons_of_mem _ ((sublist_unlinked _ .left d y tree).subset member)
  have inY : y ∈ memory.sentinel ::
      (plug (path ++ ⟨.right, color, x, left⟩ :: context) (branch .left d y .leaf tree)).toList :=
    List.mem_cons_of_mem _ (mem_plug.mpr (.inl (mem_branch.mpr (.inl rfl))))
  refine ⟨memory', ?_, final, removed_of_cleared (cut.spares.trans (.taken inY owned)) spares ?_ ?_ ?_⟩
  · rw [sentinel₃] at finished
    simp only [ngxRbtreeDelete, chosen, if_neg deeper, deref_of_ne _ realY, held.cell.painted, relinked, if_neg xy,
      parents, tempParent, taking, Option.bind_eq_bind, Option.bind_some]
    exact finished
  · exact List.mem_cons_of_mem _ (mem_plug.mpr (.inr inX))
  · rw [sentinel₃]
    exact fun member => (List.mem_cons.mp member).elim innerX absentX
  · intro z member
    rw [sentinel₃] at member
    rcases List.mem_cons.mp member with rfl | inside
    · exact List.mem_cons_self ..
    · rw [plug_append] at inside
      rcases List.mem_cons.mp ((perm_node context color left y (plug path tree)).mem_iff.mp inside) with rfl | old
      · exact inY
      · exact owned z ((perm_node context color left x (plug path tree)).mem_iff.mpr (List.mem_cons_of_mem x old))

theorem length_leftmost (color : Color) (left : RbTree Nat) (x : Nat) (right : RbTree Nat) :
    (leftmost color left x right).path.length ≤ left.height := by
  induction left generalizing color x right with
  | leaf => exact Nat.le_refl _
  | node color' left' x' right' ihLeft _ =>
      have deep := ihLeft color' x' right'
      simp only [leftmost, List.length_append, List.length_singleton, height]
      omega

theorem ngxRbtreeDelete_stored {turns : Nat} (held : Stored memory context (.node color left x right))
    (redBlack : RedBlack (plug context (.node color left x right)))
    (enough : (plug context (.node color left x right)).height ≤ turns) :
    ∃ memory', ngxRbtreeDelete turns memory x = some memory' ∧
      Deleted memory memory' x (plug context (.node color left x right)) (deleteNode context color left right) := by
  have deep := Nat.le_trans (height_plug context (.node color left x right)) enough
  rw [height] at deep
  have short : context.length < turns := by omega
  have sides : Stored memory context (branch .left color x left right) := held
  have real := sides.root_real.1
  have toLeft : memory.link .left x = address memory.sentinel left := sides.cell.toNear
  have toRight : memory.link .right x = address memory.sentinel right := sides.cell.toFar
  rw [deleteNode.eq_def]
  split
  case h_1 =>
    have chosen : chooseSubst turns memory x = some (x, address memory.sentinel right) := by
      simp only [chooseSubst, deref_of_ne _ real, toLeft, toRight, address, if_true, Option.bind_eq_bind,
        Option.bind_some]
    exact delete_oneChild sides redBlack chosen short
  case h_2 full =>
    have inner := mt sides.onNear.address_eq_sentinel.mp full
    have toSentinel : memory.link .right x = memory.sentinel := sides.cell.toFar
    have chosen : chooseSubst turns memory x = some (x, address memory.sentinel left) := by
      simp only [chooseSubst, deref_of_ne _ real, toLeft, toSentinel, if_neg inner, if_true, Option.bind_eq_bind,
        Option.bind_some]
    exact delete_oneChild (show Stored memory context (branch .right color x .leaf left) from held) redBlack chosen
      short
  case h_3 color' left' x' right' full =>
    have length := length_leftmost color' left' x' right'
    simp only [height] at deep
    have successor : Stored memory ((leftmost color' left' x' right').path ++ ⟨.right, color, x, left⟩ :: context)
        (branch .left (leftmost color' left' x' right').color (leftmost color' left' x' right').value .leaf
          (leftmost color' left' x' right').right) := by
      rw [stored_append, branch, plug_leftmost]
      exact sides.onFar
    have chosen := chooseSubst_twoChildren held full (show left'.height < turns by omega)
    have deleted := delete_twoChildren successor chosen
      (by simp only [List.length_append, List.length_cons]; omega)
      (by
        intro black
        have whole := redBlack.successor
        rw [black] at whole
        exact whole.unlinked)
    rw [plug_append, branch, plug_leftmost] at deleted
    exact deleted

theorem ngxRbtreeDelete_keepsTree {turns : Nat} {tree : RbTree Nat} (held : Stored memory [] tree)
    (redBlack : RedBlack tree) (member : x ∈ tree.toList) (enough : tree.height ≤ turns) :
    ∃ memory' tree' before after, ngxRbtreeDelete turns memory x = some memory' ∧
      Stored memory' [] tree' ∧ RedBlack tree' ∧
      tree.toList = before ++ x :: after ∧ tree'.toList = before ++ after ∧
      Removed memory memory' x (memory.sentinel :: tree.toList) := by
  obtain ⟨context, color, left, right, rfl⟩ := exists_focus member
  obtain ⟨memory', deleted, stored, removed⟩ := ngxRbtreeDelete_stored (stored_focus.mpr held) redBlack enough
  refine ⟨memory', deleteNode context color left right, leftOf context ++ left.toList, right.toList ++ rightOf context,
    deleted, stored, deleteNode_redBlack redBlack, ?_, ?_, removed⟩
  · rw [toList_plug]
    simp [toList]
  · rw [toList_deleteNode]
    simp

theorem ngxRbtreeDelete_keepsTree_pair :
    ∃ memory' tree', ngxRbtreeDelete 2 pair 1 = some memory' ∧ Stored memory' [] tree' ∧ RedBlack tree' ∧
      tree'.toList = [2] := by
  obtain ⟨memory', tree', before, after, deleted, stored, redBlack, whole, order, -⟩ :=
    ngxRbtreeDelete_keepsTree pair_stored pair_redBlack (by decide : 1 ∈ _) (by decide : _ ≤ 2)
  refine ⟨memory', tree', deleted, stored, redBlack, ?_⟩
  have alone : [] ++ 1 :: [2] = before ++ 1 :: after := whole
  obtain ⟨rfl, -, rfl⟩ := (List.append_cons_inj_of_notMem (by decide) (by decide)).mp alone
  exact order

end CppInfra.Timer.Rbtree
