import CppInfra.Timer.RbtreeRotate

set_option autoImplicit false

namespace CppInfra.Timer.Rbtree

open RedBlackTree RedBlackTree.RbTree

variable {memory : Memory} {context outer : List (Frame Nat)} {tree : RbTree Nat} {parent grandparent : Frame Nat}

theorem plug_mirror (frame : Frame Nat) (context : List (Frame Nat)) (tree : RbTree Nat) :
    plug (mirror frame tree :: context) frame.sibling = plug (frame :: context) tree := by
  rw [plug, plug, attach_mirror]

theorem recolour_eq (parent grandparent : Frame Nat) (tree : RbTree Nat) :
    ((mirror grandparent ((parent.attach tree).paint .black)).attach (grandparent.sibling.paint .black)).paint .red =
      recolour parent grandparent tree := by
  simp [Frame.attach, mirror, recolour, branch_swap]

structure TurnReads (memory : Memory) (parent grandparent : Frame Nat) (tree : RbTree Nat) : Prop where
  node : address memory.sentinel tree ≠ 0
  parentOf : memory.parent (address memory.sentinel tree) = parent.value
  realParent : parent.value ≠ 0
  grandparentOf : memory.parent parent.value = grandparent.value
  realGrandparent : grandparent.value ≠ 0
  uncle : memory.link grandparent.side.other grandparent.value = address memory.sentinel grandparent.sibling
  realUncle : address memory.sentinel grandparent.sibling ≠ 0
  color : memory.color (address memory.sentinel grandparent.sibling) = grandparent.sibling.color

theorem Stored.turnReads (held : Stored memory (parent :: grandparent :: outer) tree) (shape : tree ≠ .leaf) :
    TurnReads memory parent grandparent tree := by
  have above := stored_attach.mp held
  have up := above.parent (parent.attach_ne_leaf tree)
  rw [address_attach] at up
  exact
    { node := held.address_ne
      parentOf := held.parent shape
      realParent := held.frame_real.1
      grandparentOf := up
      realGrandparent := above.frame_real.1
      uncle := above.atFrame.toFar
      realUncle := above.opposite.address_ne
      color := above.opposite.color }

theorem insertTurn_recolour (held : Stored memory (parent :: grandparent :: outer) tree) (shape : tree ≠ .leaf)
    (uncle : grandparent.sibling.color = .red) :
    ∃ memory', insertTurn grandparent.side memory (address memory.sentinel tree) = some (memory', grandparent.value) ∧
      Becomes memory memory' (plug (parent :: grandparent :: outer) tree)
        (plug outer (recolour parent grandparent tree)) := by
  have reads := held.turnReads shape
  obtain ⟨m₁, paintParent, first⟩ := paint_becomes (stored_attach.mp held) (parent.attach_ne_leaf tree)
    (address_attach ..) .black
  have sentinel := first.spares.sentinel
  obtain ⟨m₂, paintUncle, second⟩ := paint_becomes first.at.opposite (ne_leaf_of_red uncle)
    (congrArg (address · grandparent.sibling) sentinel) .black
  rw [plug_mirror] at second
  obtain ⟨m₃, paintGrandparent, third⟩ := paint_becomes (stored_attach.mp second.at) (Frame.attach_ne_leaf _ _)
    (address_attach ..) .red
  refine ⟨m₃, ?_, ?_⟩
  · simp only [insertTurn, deref_of_ne _ reads.node, reads.parentOf, deref_of_ne _ reads.realParent,
      reads.grandparentOf, deref_of_ne _ reads.realGrandparent, reads.uncle, deref_of_ne _ reads.realUncle,
      reads.color, uncle, Option.bind_eq_bind, Option.bind_some, if_true, paintParent, paintUncle]
    rw [show grandparent.value = (mirror grandparent ((parent.attach tree).paint .black)).value from rfl,
      paintGrandparent]
    rfl
  · have whole := (first.trans second).trans third
    rw [recolour_eq] at whole
    exact whole

structure Settled (memory : Memory) (node : Nat) : Prop where
  real : node ≠ 0
  parent : memory.parent node ≠ 0
  color : memory.color (memory.parent node) = .black

theorem insertRotate_becomes {c : Color} {q node : Nat} {near far : RbTree Nat} {frame : Frame Nat}
    (held : Stored memory (frame :: outer) (branch frame.side c q near far)) (shape : near ≠ .leaf)
    (place : address memory.sentinel near = node) :
    ∃ memory', insertRotate frame.side memory node = some memory' ∧
      Becomes memory memory' (plug (frame :: outer) (branch frame.side c q near far))
        (plug outer (branch frame.side .black q near (branch frame.side .red frame.value far frame.sibling))) ∧
      Settled memory' node := by
  subst place
  have hangs := held.cell.hangsNear shape
  obtain ⟨realQ, -⟩ := held.root_real
  have realNode : address memory.sentinel near ≠ 0 :=
    (held.member (mem_branch.mpr (.inr (.inl (address_mem _ shape))))).1
  obtain ⟨m₁, paintQ, first⟩ := paint_becomes held (branch_ne_leaf _ _ _ _ _) (address_branch ..) .black
  rw [paint_branch] at first
  have up := first.at.parent (branch_ne_leaf _ _ _ _ _)
  rw [address_branch] at up
  obtain ⟨m₂, paintFrame, second⟩ := paint_becomes (stored_attach.mp first.at) (Frame.attach_ne_leaf _ _)
    (address_attach ..) .red
  rw [Frame.attach, paint_branch] at second
  obtain ⟨m₃, turned, third⟩ := rotate_other_becomes second.at
  refine ⟨m₃, ?_, first.trans (second.trans third), ?_⟩
  · simp only [insertRotate, deref_of_ne _ realNode, hangs, deref_of_ne _ realQ, Option.bind_eq_bind,
      Option.bind_some, paintQ, up, paintFrame, turned]
  · have top := third.at.cell
    have below := top.hangsNear shape
    have sentinel := (first.trans (second.trans third)).spares.sentinel
    rw [sentinel] at below
    exact ⟨realNode, by rw [below]; exact realQ, by rw [below]; exact top.painted⟩

theorem Stored.address_ne_sibling {frame : Frame Nat} (held : Stored memory (frame :: context) tree)
    (shape : tree ≠ .leaf) : address memory.sentinel tree ≠ address memory.sentinel frame.sibling := by
  have member := address_mem memory.sentinel shape
  intro same
  by_cases leaf : frame.sibling = .leaf
  · rw [leaf] at same
    exact (held.member member).2 same
  · apply (nodup_plug held.distinct).2 _ member
    rw [same]
    exact mem_outside_cons.mpr (.inr (.inl (address_mem _ leaf)))

theorem insertTurn_lift (held : Stored memory (parent :: grandparent :: outer) tree) (shape : tree ≠ .leaf)
    (red : parent.color = .red) (uncle : grandparent.sibling.color ≠ .red) :
    ∃ memory' node, insertTurn grandparent.side memory (address memory.sentinel tree) = some (memory', node) ∧
      Becomes memory memory' (plug (parent :: grandparent :: outer) tree)
        (plug outer (lift parent grandparent tree)) ∧ Settled memory' node := by
  have reads := held.turnReads shape
  have cell := held.atFrame
  by_cases straight : parent.side = grandparent.side
  · have far : memory.link grandparent.side.other parent.value = address memory.sentinel parent.sibling := by
      rw [← straight]
      exact cell.toFar
    have apart := held.address_ne_sibling shape
    have above := stored_attach.mp held
    rw [Frame.attach, straight] at above
    obtain ⟨m₁, turned, becomes, settled⟩ := insertRotate_becomes above shape rfl
    refine ⟨m₁, _, ?_, ?_, settled⟩
    · simp only [insertTurn, deref_of_ne _ reads.node, reads.parentOf, deref_of_ne _ reads.realParent,
        reads.grandparentOf, deref_of_ne _ reads.realGrandparent, reads.uncle, deref_of_ne _ reads.realUncle,
        reads.color, uncle, Option.bind_eq_bind, Option.bind_some, if_false, far, apart, turned]
    · rw [lift_straight straight, plug, Frame.attach, straight]
      exact becomes
  · have opposite := Side.eq_other straight
    cases tree with
    | leaf => exact absurd rfl shape
    | node c left x right =>
        rw [node_eq_branch grandparent.side] at held reads ⊢
        have above := stored_attach.mp held
        rw [Frame.attach, opposite, branch_swap, red] at above
        obtain ⟨m₁, bent, first⟩ := rotate_becomes above
        have lower := first.at
        obtain ⟨m₂, turned, second, settled⟩ := insertRotate_becomes lower (branch_ne_leaf _ _ _ _ _)
          (address_branch ..)
        have far : memory.link grandparent.side.other parent.value = x := by
          rw [← opposite, held.atFrame.toNear, address_branch]
        refine ⟨m₂, parent.value, ?_, ?_, settled⟩
        · have node := reads.node
          have up := reads.parentOf
          rw [address_branch] at node up ⊢
          simp only [insertTurn, deref_of_ne _ node, up, deref_of_ne _ reads.realParent, reads.grandparentOf,
            deref_of_ne _ reads.realGrandparent, reads.uncle, deref_of_ne _ reads.realUncle, reads.color, uncle,
            Option.bind_eq_bind, Option.bind_some, if_false, far, if_true, bent, turned]
        · rw [lift_bent straight, plug, Frame.attach, opposite, branch_swap, red]
          exact first.trans second

theorem Stored.root_iff (held : Stored memory context tree) :
    address memory.sentinel tree = memory.root ↔ context = [] := by
  apply held.around.root_eq
  intro inside
  by_cases leaf : tree = .leaf
  · have inner := (held.proper _ (mem_plug.mpr (.inr inside))).2
    exact inner (held.address_eq_sentinel.mpr leaf)
  · exact (nodup_plug held.distinct).2 _ (address_mem _ leaf) inside

theorem Stored.side_eq {frame : Frame Nat} (held : Stored memory (frame :: context) tree)
    (apart : address memory.sentinel tree ≠ address memory.sentinel frame.sibling) :
    (if address memory.sentinel tree = memory.link .left frame.value then Side.left else Side.right) = frame.side := by
  have cell := held.atFrame
  cases side : frame.side with
  | left =>
      have near := cell.toNear
      rw [side] at near
      exact if_pos near.symm
  | right =>
      have far := cell.toFar
      rw [side] at far
      apply if_neg
      rw [show memory.link .left frame.value = _ from far]
      exact apart

theorem Becomes.refl (held : Stored memory context tree) :
    Becomes memory memory (plug context tree) (plug context tree) :=
  ⟨stored_focus.mp held, rfl, .refl ..⟩

theorem insertLoop_settled {node : Nat} (settled : Settled memory node) {turns : Nat} (enough : 0 < turns) :
    insertLoop turns memory node = some memory := by
  obtain ⟨turns, rfl⟩ := Nat.exists_eq_succ_of_ne_zero (Nat.ne_of_gt enough)
  rw [insertLoop]
  split
  · rfl
  · simp only [deref_of_ne _ settled.real, deref_of_ne _ settled.parent, settled.color, Option.bind_eq_bind,
      Option.bind_some, if_true]

theorem Stored.settled (held : Stored memory (parent :: context) tree) (shape : tree ≠ .leaf)
    (black : parent.color = .black) : Settled memory (address memory.sentinel tree) := by
  have up := held.parent shape
  refine ⟨held.address_ne, ?_, ?_⟩
  · rw [up]
    exact held.frame_real.1
  · rw [up, held.atFrame.painted]
    exact black

theorem insertLoop_turn (held : Stored memory (parent :: grandparent :: outer) tree) (shape : tree ≠ .leaf)
    (notBlack : parent.color ≠ .black) {next : Memory × Nat}
    (turned : insertTurn grandparent.side memory (address memory.sentinel tree) = some next) (turns : Nat) :
    insertLoop (turns + 1) memory (address memory.sentinel tree) = insertLoop turns next.1 next.2 := by
  have reads := held.turnReads shape
  have deeper := mt held.root_iff.mp (List.cons_ne_nil _ _)
  have above := stored_attach.mp held
  have side := above.side_eq (above.address_ne_sibling (parent.attach_ne_leaf tree))
  rw [address_attach] at side
  rw [insertLoop, if_neg deeper]
  simp only [deref_of_ne _ reads.node, reads.parentOf, deref_of_ne _ reads.realParent, held.atFrame.painted, notBlack,
    reads.grandparentOf, deref_of_ne _ reads.realGrandparent, Option.bind_eq_bind, Option.bind_some, if_false, side,
    turned]

theorem insertLoop_becomes {turns : Nat} (held : Stored memory context tree) (red : tree.color = .red)
    (rooted : Rooted context) (enough : context.length < turns) :
    ∃ memory', insertLoop turns memory (address memory.sentinel tree) = some memory' ∧
      Becomes memory memory' (plug context tree) (insertFix context tree) := by
  induction context, tree using insertFix.induct generalizing memory turns with
  | case1 tree =>
      obtain ⟨turns, rfl⟩ := Nat.exists_eq_succ_of_ne_zero (Nat.ne_of_gt (Nat.zero_lt_of_lt enough))
      have top := held.root_iff.mpr rfl
      exact ⟨memory, by rw [insertLoop, if_pos top], .refl held⟩
  | case2 parent tree =>
      have settled := held.settled (ne_leaf_of_red red) (rooted parent rfl)
      exact ⟨memory, insertLoop_settled settled (Nat.zero_lt_of_lt enough), .refl held⟩
  | case3 parent grandparent outer tree black =>
      have settled := held.settled (ne_leaf_of_red red) black
      rw [insertFix, if_pos black]
      exact ⟨memory, insertLoop_settled settled (Nat.zero_lt_of_lt enough), .refl held⟩
  | case4 parent grandparent outer tree notBlack uncle ih =>
      obtain ⟨turns, rfl⟩ := Nat.exists_eq_succ_of_ne_zero (Nat.ne_of_gt (Nat.zero_lt_of_lt enough))
      have shape := ne_leaf_of_red red
      obtain ⟨m₁, turned, first⟩ := insertTurn_recolour held shape uncle
      have outermost : address m₁.sentinel (recolour parent grandparent tree) = grandparent.value :=
        address_branch ..
      obtain ⟨m₂, looped, second⟩ := ih first.at (color_branch ..) rooted.tail.tail
        (show outer.length < turns by simp only [List.length_cons] at enough; omega)
      rw [outermost] at looped
      refine ⟨m₂, ?_, ?_⟩
      · rw [insertLoop_turn held shape notBlack turned]
        exact looped
      · rw [insertFix, if_neg notBlack, if_pos uncle]
        exact first.trans second
  | case5 parent grandparent outer tree notBlack uncle =>
      obtain ⟨turns, rfl⟩ := Nat.exists_eq_succ_of_ne_zero (Nat.ne_of_gt (Nat.zero_lt_of_lt enough))
      have shape := ne_leaf_of_red red
      have parentRed : parent.color = .red := by
        cases color : parent.color
        · rfl
        · exact absurd color notBlack
      obtain ⟨m₁, node, turned, becomes, settled⟩ := insertTurn_lift held shape parentRed uncle
      rw [insertFix, if_neg notBlack, if_neg uncle]
      refine ⟨m₁, ?_, becomes⟩
      rw [insertLoop_turn held shape notBlack turned]
      exact insertLoop_settled settled (by simp only [List.length_cons] at enough; omega)

structure Fresh (memory : Memory) (tree : RbTree Nat) (node : Nat) : Prop where
  real : node ≠ 0
  inner : node ≠ memory.sentinel
  absent : node ∉ tree.toList

def placed (memory : Memory) (side : Side) (temp node : Nat) : Memory :=
  ((((memory.withLink side temp node).withParent node temp).withLink .left node memory.sentinel).withLink .right node
    memory.sentinel).withColor node .red

theorem placed_stored {frame : Frame Nat} {node : Nat} (held : Stored memory (frame :: context) .leaf)
    (fresh : Fresh memory (plug (frame :: context) .leaf) node) :
    Stored (placed memory frame.side frame.value node) (frame :: context) (.node .red .leaf node .leaf) := by
  have absent : node ∉ outside (frame :: context) := fun inside => fresh.absent (mem_plug.mpr (.inr inside))
  have order : (plug (frame :: context) (.node .red .leaf node .leaf)).toList.Perm
      (node :: (plug (frame :: context) .leaf).toList) := by
    simp only [toList_plug, toList, List.nil_append, List.append_assoc, List.cons_append]
    exact List.perm_middle
  have sentinel : (placed memory frame.side frame.value node).sentinel = memory.sentinel := rfl
  refine ⟨?_, ?_, ⟨by simp [placed], ?_, ?_, hangs_leaf _ _, hangs_leaf _ _, trivial, trivial⟩, ?_, ?_, held.real, ?_⟩
  · refine held.around.relink (nodup_outside_of_plug held.distinct) sentinel rfl ?_ ?_ ?_
    · intro side z member
      have other := ne_of_notMem member absent
      simp [placed, attached, other, address]
    · intro z member
      simp [placed, ne_of_notMem member absent]
    · intro z member
      simp [placed, ne_of_notMem member absent]
  · rintro - _ ⟨⟩
    simp [placed, address]
  · simp [placed, address]
  · simp [placed, address]
  · exact order.nodup_iff.mpr (List.nodup_cons.mpr ⟨fresh.absent, held.distinct⟩)
  · intro z member
    rcases List.mem_cons.mp (order.mem_iff.mp member) with rfl | old
    · exact ⟨fresh.real, fresh.inner⟩
    · exact held.proper z old
  · rw [sentinel]
    simp [placed, fresh.inner.symm, held.black]

theorem Spares.placed {own : List Nat} {temp node : Nat} (inside : temp ∈ own) (here : node ∈ own) (side : Side) :
    Spares memory (placed memory side temp node) own :=
  (Spares.withLink memory inside _ _).trans <| (Spares.withParent _ here _).trans <|
    (Spares.withLink _ here _ _).trans <| (Spares.withLink _ here _ _).trans (Spares.withColor _ here _)

structure Walked (less : Nat → Nat → Bool) (memory memory' : Memory) (context : List (Frame Nat)) (tree : RbTree Nat)
    (node : Nat) : Prop where
  stored : Stored memory' (descend (fun x => less (memory.key node) (memory.key x)) tree context)
    (.node .red .leaf node .leaf)
  spares : Spares memory memory' (node :: (plug context tree).toList)

theorem insertBy_step {less : Nat → Nat → Bool} {node turns : Nat} {frame : Frame Nat}
    (below : Stored memory (frame :: context) tree) (fresh : Fresh memory (plug (frame :: context) tree) node)
    (chosen : (if less (memory.key node) (memory.key frame.value) then Side.left else Side.right) = frame.side)
    (deeper : tree ≠ .leaf → ∃ memory',
      insertBy less turns memory (address memory.sentinel tree) node = some memory' ∧
        Walked less memory memory' (frame :: context) tree node) :
    ∃ memory', insertBy less (turns + 1) memory frame.value node = some memory' ∧
      Walked less memory memory' (frame :: context) tree node := by
  have near := below.atFrame.toNear
  have real := below.frame_real.1
  by_cases leaf : tree = .leaf
  · subst leaf
    refine ⟨_, ?_, placed_stored below fresh, .placed ?_ (List.mem_cons_self ..) _⟩
    · simp only [insertBy, deref_of_ne _ fresh.real, deref_of_ne _ real, chosen, near, address, Option.bind_eq_bind,
        Option.bind_some, if_true, setLink_of_ne _ _ _ real, setLink_of_ne _ _ _ fresh.real,
        setParent_of_ne _ _ fresh.real, setColor_of_ne _ _ fresh.real]
      rfl
    · exact List.mem_cons_of_mem _ (mem_plug.mpr (.inr (mem_outside_cons.mpr (.inl rfl))))
  · obtain ⟨memory', inserted, walked⟩ := deeper leaf
    refine ⟨memory', ?_, walked⟩
    have inner := mt below.address_eq_sentinel.mp leaf
    simp only [insertBy, deref_of_ne _ fresh.real, deref_of_ne _ real, chosen, near, Option.bind_eq_bind,
      Option.bind_some, if_neg inner, inserted]

theorem insertBy_walked (less : Nat → Nat → Bool) {node turns : Nat} (held : Stored memory context tree)
    (shape : tree ≠ .leaf) (fresh : Fresh memory (plug context tree) node) (enough : tree.height ≤ turns) :
    ∃ memory', insertBy less turns memory (address memory.sentinel tree) node = some memory' ∧
      Walked less memory memory' context tree node := by
  induction tree generalizing context turns with
  | leaf => exact absurd rfl shape
  | node color left x right ihLeft ihRight =>
      rw [height] at enough
      obtain ⟨turns, rfl⟩ := Nat.exists_eq_succ_of_ne_zero (show turns ≠ 0 by omega)
      have enoughLeft : left.height ≤ turns := by omega
      have enoughRight : right.height ≤ turns := by omega
      by_cases goes : less (memory.key node) (memory.key x) = true
      · have below : Stored memory (⟨.left, color, x, right⟩ :: context) left := stored_attach.mpr held
        obtain ⟨memory', inserted, stored, spares⟩ := insertBy_step below fresh (if_pos goes) fun inner =>
          ihLeft below inner fresh enoughLeft
        refine ⟨memory', inserted, ?_, spares⟩
        rw [descend, if_pos goes]
        exact stored
      · have below : Stored memory (⟨.right, color, x, left⟩ :: context) right := stored_attach.mpr held
        obtain ⟨memory', inserted, stored, spares⟩ := insertBy_step below fresh (if_neg goes) fun inner =>
          ihRight below inner fresh enoughRight
        refine ⟨memory', inserted, ?_, spares⟩
        rw [descend, if_neg goes]
        exact stored

theorem insertFix_ne_leaf (context : List (Frame Nat)) (shape : tree ≠ .leaf) : insertFix context tree ≠ .leaf := by
  intro leaf
  have order := toList_insertFix context tree
  have inside : address 0 tree ∈ (plug context tree).toList := mem_plug.mpr (.inl (address_mem 0 shape))
  rw [leaf] at order
  rw [← order] at inside
  cases inside

theorem Stored.root (held : Stored memory [] tree) : memory.root = address memory.sentinel tree := held.around

theorem Stored.root_eq_sentinel (held : Stored memory [] tree) : memory.root = memory.sentinel ↔ tree = .leaf := by
  rw [held.root]
  exact held.address_eq_sentinel

theorem insertEmpty_stored {node : Nat} (held : Stored memory [] .leaf) (fresh : Fresh memory .leaf node)
    (less : Nat → Nat → Bool) (turns : Nat) :
    ∃ memory', ngxRbtreeInsert (insertBy less) turns memory node = some memory' ∧
      Stored memory' [] (.node .black .leaf node .leaf) ∧ Spares memory memory' [node] := by
  let linked := ((memory.withParent node 0).withLink .left node memory.sentinel).withLink .right node memory.sentinel
  refine ⟨(linked.withColor node .black).withRoot node, ?_, ⟨rfl, nofun,
    ⟨?_, ?_, ?_, hangs_leaf _ _, hangs_leaf _ _, trivial, trivial⟩, ?_, ?_, held.real, ?_⟩, ?_⟩
  · rw [ngxRbtreeInsert, if_pos (held.root_eq_sentinel.mpr rfl)]
    simp only [setParent_of_ne _ _ fresh.real, setLink_of_ne _ _ _ fresh.real, setColor_of_ne _ _ fresh.real,
      Option.bind_eq_bind, Option.bind_some]
    rfl
  · simp [linked]
  · simp [linked, address]
  · simp [linked, address]
  · exact List.pairwise_singleton ..
  · intro z member
    rw [show z = node by simpa [plug, toList] using member]
    exact ⟨fresh.real, fresh.inner⟩
  · have other := fresh.inner.symm
    simp [linked, other, held.black]
  · have here : node ∈ [node] := List.mem_singleton.mpr rfl
    exact (Spares.withParent memory here 0).trans <| (Spares.withLink _ here _ _).trans <|
      (Spares.withLink _ here _ _).trans <| (Spares.withColor _ here _).trans
        ⟨rfl, rfl, fun _ _ _ => rfl, fun _ _ => rfl, fun _ _ => rfl⟩

theorem mem_descend {toLeft : Nat → Bool} {c : Color} {node z : Nat} :
    z ∈ (plug (descend toLeft tree []) (.node c .leaf node .leaf)).toList ↔ z ∈ node :: tree.toList := by
  rw [← leftOf_descend toLeft tree, mem_plug]
  simp only [outside, toList, List.nil_append, List.mem_cons, List.not_mem_nil, or_false]

theorem ngxRbtreeInsert_stored (less : Nat → Nat → Bool) {node turns : Nat} (held : Stored memory [] tree)
    (redBlack : RedBlack tree) (fresh : Fresh memory tree node) (enough : tree.height < turns) :
    ∃ memory', ngxRbtreeInsert (insertBy less) turns memory node = some memory' ∧
      Stored memory' [] (insertNode (fun x => less (memory.key node) (memory.key x)) tree node) ∧
      Spares memory memory' (node :: tree.toList) := by
  cases tree with
  | leaf => exact insertEmpty_stored held fresh less turns
  | node color left x right =>
      have full : memory.root ≠ memory.sentinel := mt held.root_eq_sentinel.mp nofun
      obtain ⟨m₁, walked, stored, first⟩ := insertBy_walked less held nofun fresh (Nat.le_of_lt enough)
      obtain ⟨n, balanced⟩ := redBlack
      have rooted := (around_descend (fun x => less (memory.key node) (memory.key x)) balanced .top).rooted
      have short := length_descend (fun x => less (memory.key node) (memory.key x)) (.node color left x right) []
      obtain ⟨m₂, looped, second⟩ :=
        insertLoop_becomes stored rfl rooted (Nat.lt_of_le_of_lt short (by simpa using enough))
      obtain ⟨m₃, painted, third⟩ := paint_becomes second.stored (insertFix_ne_leaf _ nofun) second.stored.root.symm
        .black
      refine ⟨m₃, ?_, third.stored, ?_⟩
      · rw [ngxRbtreeInsert, if_neg full, held.root]
        have start : address m₁.sentinel (.node .red .leaf node .leaf) = node := rfl
        rw [start] at looped
        simp only [walked, looped, painted, Option.bind_eq_bind, Option.bind_some]
      · refine first.trans ((second.spares.mono ?_).trans (third.spares.mono ?_))
        · intro z member
          exact mem_descend.mp member
        · intro z member
          rw [plug, second.order] at member
          exact mem_descend.mp member

theorem ngxRbtreeInsert_keepsTree (less : Nat → Nat → Bool) {node turns : Nat} (held : Stored memory [] tree)
    (redBlack : RedBlack tree) (fresh : Fresh memory tree node) (enough : tree.height < turns) :
    ∃ memory' tree' before after, ngxRbtreeInsert (insertBy less) turns memory node = some memory' ∧
      Stored memory' [] tree' ∧ RedBlack tree' ∧
      tree.toList = before ++ after ∧ tree'.toList = before ++ node :: after ∧
      (tree.toList.Pairwise (fun x y => less (memory.key node) (memory.key x) = true →
          less (memory.key node) (memory.key y) = true) →
        (∀ z ∈ before, less (memory.key node) (memory.key z) = false) ∧
          ∀ z ∈ after, less (memory.key node) (memory.key z) = true) ∧
      Spares memory memory' (node :: tree.toList) := by
  let toLeft := fun x => less (memory.key node) (memory.key x)
  obtain ⟨memory', inserted, stored, spares⟩ := ngxRbtreeInsert_stored less held redBlack fresh enough
  refine ⟨memory', insertNode toLeft tree node, leftOf (descend toLeft tree []), rightOf (descend toLeft tree []),
    inserted, stored, insertNode_redBlack _ _ redBlack, ?_, ?_, ?_, spares⟩
  · exact (leftOf_descend toLeft tree).symm
  · exact toList_insertNode toLeft tree node
  · intro monotone
    exact descend_between monotone (List.forall_mem_nil _) (List.forall_mem_nil _)

def pair : Memory where
  key := fun x => if x = 1 then 5 else if x = 2 then 7 else 6
  link := fun side x => if x = 1 ∧ side = .right then 2 else 9
  parent := fun x => if x = 2 then 1 else 0
  color := fun x => if x = 2 then .red else .black
  root := 1
  sentinel := 9

theorem pair_stored : Stored pair [] (.node .black .leaf 1 (.node .red .leaf 2 .leaf)) where
  around := rfl
  above _ frame member := by cases member
  holds := ⟨rfl, rfl, rfl, hangs_leaf _ _, fun _ => rfl, trivial, rfl, rfl, rfl, hangs_leaf _ _, hangs_leaf _ _,
    trivial, trivial⟩
  distinct := by decide
  proper := by decide
  real := by decide
  black := rfl

theorem pair_redBlack : RedBlack (.node .black .leaf 1 (.node .red .leaf 2 .leaf) : RbTree Nat) :=
  ⟨1, .black .leaf (.red .leaf .leaf)⟩

theorem ngxRbtreeInsert_keepsTree_pair :
    ∃ memory' tree' before after, ngxRbtreeInsert ngxRbtreeInsertValue 3 pair 3 = some memory' ∧
      Stored memory' [] tree' ∧ RedBlack tree' ∧ [1, 2] = before ++ after ∧ tree'.toList = before ++ 3 :: after ∧
      (∀ z ∈ before, pair.key z ≤ 6) ∧ ∀ z ∈ after, 6 < pair.key z := by
  have fresh : Fresh pair (.node .black .leaf 1 (.node .red .leaf 2 .leaf)) 3 := ⟨by decide, by decide, by decide⟩
  obtain ⟨memory', tree', before, after, inserted, stored, redBlack, whole, order, sides, -⟩ :=
    ngxRbtreeInsert_keepsTree (fun node temp => node < temp) pair_stored pair_redBlack fresh (show _ < 3 by decide)
  obtain ⟨front, behind⟩ := sides (by decide)
  refine ⟨memory', tree', before, after, inserted, stored, redBlack, whole, order, ?_, ?_⟩
  · intro z member
    simpa [pair] using front z member
  · intro z member
    simpa [pair] using behind z member

end CppInfra.Timer.Rbtree
