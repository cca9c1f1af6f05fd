import CppInfra.Timer.RbtreeInsert

set_option autoImplicit false

namespace CppInfra.Timer.Rbtree

open RedBlackTree RedBlackTree.RbTree

variable {memory : Memory} {context : List (Frame Nat)} {side : Side} {c d : Color} {p w temp : Nat}
  {tree near far : RbTree Nat}

theorem Stored.onNear (held : Stored memory context (branch side c p near far)) :
    Stored memory (⟨side, c, p, far⟩ :: context) near := stored_attach.mpr held

theorem plug_far (context : List (Frame Nat)) (side : Side) (c : Color) (p : Nat) (near far : RbTree Nat) :
    plug (⟨side.other, c, p, near⟩ :: context) far = plug context (branch side c p near far) := by
  rw [plug, Frame.attach, branch_swap]

theorem Stored.onFar (held : Stored memory context (branch side c p near far)) :
    Stored memory (⟨side.other, c, p, near⟩ :: context) far := by
  rw [stored_focus, plug_far, ← stored_focus]
  exact held

structure Tied (memory : Memory) (temp p : Nat) (tree : RbTree Nat) : Prop where
  place : address memory.sentinel tree = temp
  parent : memory.parent temp = p

theorem Tied.becomes {memory' : Memory} {whole : RbTree Nat} {sibling : RbTree Nat} (tied : Tied memory temp p tree)
    (before : Stored memory [] whole)
    (becomes : Becomes memory memory' whole (plug context (branch side c p tree sibling))) :
    Tied memory' temp p tree := by
  have sentinel := becomes.spares.sentinel
  refine ⟨by rw [sentinel]; exact tied.place, ?_⟩
  by_cases leaf : tree = .leaf
  · have place : memory.sentinel = temp := by
      rw [← tied.place, leaf]
      rfl
    rw [becomes.spares.parent, tied.parent]
    intro inside
    exact (before.proper temp inside).2 place.symm
  · have up := becomes.at.cell.hangsNear leaf
    rwa [sentinel, tied.place] at up

theorem paintParent_becomes (held : Stored memory context (branch side c p near far)) (c' : Color) :
    ∃ memory', setColor memory p c' = some memory' ∧
      Becomes memory memory' (plug context (branch side c p near far)) (plug context (branch side c' p near far)) := by
  have painted := paint_becomes held (branch_ne_leaf _ _ _ _ _) (address_branch ..) c'
  rwa [paint_branch] at painted

theorem paintSibling_becomes (held : Stored memory context (branch side c p tree (branch side d w near far)))
    (d' : Color) :
    ∃ memory', setColor memory w d' = some memory' ∧
      Becomes memory memory' (plug context (branch side c p tree (branch side d w near far)))
        (plug context (branch side c p tree (branch side d' w near far))) := by
  have painted := paintParent_becomes held.onFar d'
  rwa [plug_far, plug_far] at painted

theorem rotateSibling_becomes (held : Stored memory context (branch side c p tree (branch side d w near far)))
    (tied : Tied memory temp p tree) :
    ∃ memory', rotateSibling side memory temp w = some (memory', address memory.sentinel near) ∧
      Becomes memory memory' (plug context (branch side c p tree (branch side d w near far)))
        (plug context (branch side .black w (branch side .red p tree near) far)) := by
  have real : temp ≠ 0 := tied.place ▸ held.onNear.address_ne
  have realP := held.root_real.1
  obtain ⟨m₁, paintSibling, first⟩ := paintSibling_becomes held .black
  have tied₁ := tied.becomes (stored_focus.mp held) first
  obtain ⟨m₂, paintParent, second⟩ := paintParent_becomes first.at .red
  obtain ⟨m₃, turned, third⟩ := rotate_becomes second.at
  have whole := (first.trans second).trans third
  have below : Stored m₃ (⟨side, .black, w, far⟩ :: context) (branch side .red p tree near) := third.at.onNear
  have tied₃ : Tied m₃ temp p tree := tied.becomes (stored_focus.mp held)
    (show Becomes memory m₃ _ (plug (⟨side, .black, w, far⟩ :: context) (branch side .red p tree near)) from whole)
  refine ⟨m₃, ?_, whole⟩
  simp only [rotateSibling, paintSibling, paintParent, turned, deref_of_ne _ real, deref_of_ne _ realP, tied₁.parent,
    tied₃.parent, below.cell.toFar, whole.spares.sentinel, Option.bind_eq_bind, Option.bind_some]

theorem childrenBlack_eq {left right : RbTree Nat} (held : Stored memory context (.node d left w right)) :
    childrenBlack memory w = some (nephewsBlack (.node d left w right)) := by
  have sides : Stored memory context (branch .left d w left right) := held
  have cell := sides.cell
  have realW := sides.root_real.1
  have toLeft : memory.link .left w = address memory.sentinel left := cell.toNear
  have toRight : memory.link .right w = address memory.sentinel right := cell.toFar
  simp only [childrenBlack, deref_of_ne _ realW, toLeft, toRight, deref_of_ne _ sides.onNear.address_ne,
    deref_of_ne _ sides.onFar.address_ne, sides.onNear.color, sides.onFar.color, Option.bind_eq_bind,
    Option.bind_some, nephewsBlack]
  split <;> simp_all

theorem turnNephew_becomes {a b : RbTree Nat} {mid : Nat} {e : Color}
    (held : Stored memory context (branch side c p tree (branch side d w (branch side e mid a b) far)))
    (tied : Tied memory temp p tree) :
    ∃ memory', turnNephew side memory temp w = some (memory', mid) ∧
      Becomes memory memory' (plug context (branch side c p tree (branch side d w (branch side e mid a b) far)))
        (plug context (branch side c p tree (branch side .black mid a (branch side .red w b far)))) := by
  have real : temp ≠ 0 := tied.place ▸ held.onNear.address_ne
  have realP := held.root_real.1
  have realW := held.onFar.root_real.1
  have toMid : memory.link side w = mid := held.onFar.cell.toNear.trans (address_branch ..)
  obtain ⟨m₁, paintMid, first⟩ := paintParent_becomes held.onFar.onNear .black
  rw [plug, plug_far, plug, plug_far] at first
  obtain ⟨m₂, paintW, second⟩ := paintSibling_becomes first.at .red
  obtain ⟨m₃, turned, third⟩ := rotate_other_becomes second.at.onFar
  rw [plug_far, plug_far] at third
  have whole := (first.trans second).trans third
  have tied₃ := tied.becomes (stored_focus.mp held) whole
  have toSibling : m₃.link side.other p = mid := third.at.cell.toFar.trans (address_branch ..)
  refine ⟨m₃, ?_, whole⟩
  simp only [turnNephew, deref_of_ne _ realW, toMid, paintMid, paintW, turned, deref_of_ne _ real,
    deref_of_ne _ realP, tied₃.parent, toSibling, Option.bind_eq_bind, Option.bind_some]

theorem mendRotate_becomes (held : Stored memory context (branch side c p tree (branch side d w near far)))
    (tied : Tied memory temp p tree) (shape : far ≠ .leaf) :
    ∃ memory', mendRotate side memory temp w = some memory' ∧
      Becomes memory memory' (plug context (branch side c p tree (branch side d w near far)))
        (plug context (branch side c w (branch side .black p tree near) (far.paint .black))) := by
  have real : temp ≠ 0 := tied.place ▸ held.onNear.address_ne
  have realP := held.root_real.1
  have realW := held.onFar.root_real.1
  have paintedP := held.cell.painted
  obtain ⟨m₁, paintW, first⟩ := paintSibling_becomes held c
  obtain ⟨m₂, paintP, second⟩ := paintParent_becomes first.at .black
  have toFar := second.at.onFar.cell.toFar
  obtain ⟨m₃, paintFar, third⟩ := paint_becomes second.at.onFar.onFar shape rfl .black
  rw [plug_far, plug_far, plug_far, plug_far] at third
  obtain ⟨m₄, turned, fourth⟩ := rotate_becomes third.at
  refine ⟨m₄, ?_, ((first.trans second).trans third).trans fourth⟩
  simp only [mendRotate, deref_of_ne _ real, tied.parent, deref_of_ne _ realP, paintedP, paintW, paintP,
    deref_of_ne _ realW, toFar, paintFar, turned, Option.bind_eq_bind, Option.bind_some]

section Turn

variable {frame : Frame Nat} {left right : RbTree Nat}

theorem Stored.sibling (held : Stored memory (frame :: context) tree) (shape : frame.sibling = .node d left w right) :
    Stored memory context (branch frame.side frame.color frame.value tree
      (branch frame.side d w (pick frame.side left right) (pick frame.side.other left right))) := by
  rw [← node_eq_branch, ← shape]
  exact stored_attach.mp held

theorem plug_sibling (shape : frame.sibling = .node d left w right) :
    plug context (branch frame.side frame.color frame.value tree
      (branch frame.side d w (pick frame.side left right) (pick frame.side.other left right))) =
        plug (frame :: context) tree := by
  rw [← node_eq_branch, ← shape]
  rfl

theorem Stored.sibling_color (held : Stored memory (frame :: context) tree)
    (shape : frame.sibling = .node d left w right) : deref memory.color w = some d := by
  have around := held.sibling shape
  rw [deref_of_ne _ around.onFar.root_real.1, around.onFar.cell.painted]

theorem sibling_ne_leaf (shape : frame.sibling = .node d left w right) : frame.sibling ≠ .leaf := by
  intro leaf
  rw [leaf] at shape
  cases shape

theorem blackSibling_sink (held : Stored memory (frame :: context) tree) (tied : Tied memory temp frame.value tree)
    (shape : frame.sibling = .node d left w right) (calm : nephewsBlack frame.sibling = true) :
    ∃ memory', blackSibling frame.side memory temp w = some (memory', frame.value) ∧
      Becomes memory memory' (plug (frame :: context) tree) (plug context (sink frame tree)) := by
  have around := held.sibling shape
  have real : temp ≠ 0 := tied.place ▸ held.address_ne
  obtain ⟨m₁, painted, becomes⟩ := paintSibling_becomes around .red
  have tied₁ := tied.becomes (stored_focus.mp around) becomes
  have children := around.onFar
  rw [← node_eq_branch] at children
  have black := childrenBlack_eq children
  rw [← shape, calm] at black
  refine ⟨m₁, ?_, ?_⟩
  · simp only [blackSibling, black, painted, deref_of_ne _ real, tied₁.parent, Option.bind_eq_bind, Option.bind_some,
      if_true]
  · rw [plug_sibling shape, ← node_eq_branch] at becomes
    rw [sink, shape]
    exact becomes

theorem mendSibling_becomes (held : Stored memory (frame :: context) tree) (tied : Tied memory temp frame.value tree)
    (shape : frame.sibling = .node d left w right) (nephews : nephewsBlack frame.sibling = false) :
    ∃ memory', mendSibling frame.side memory temp w = some memory' ∧
      Becomes memory memory' (plug (frame :: context) tree) (plug context (mend frame tree)) := by
  have around := held.sibling shape
  have realW := around.onFar.root_real.1
  have toFar := around.onFar.cell.toFar
  have realFar := around.onFar.onFar.address_ne
  have farColor := around.onFar.onFar.color
  cases far : (pick frame.side.other left right).color with
  | red =>
      obtain ⟨m₁, turned, becomes⟩ := mendRotate_becomes around tied (ne_leaf_of_red far)
      refine ⟨m₁, ?_, ?_⟩
      · simp only [mendSibling, deref_of_ne _ realW, toFar, deref_of_ne _ realFar, farColor, far, Option.bind_eq_bind,
          Option.bind_some, reduceCtorEq, if_false, turned]
      · rw [mend_far shape far, ← plug_sibling shape]
        exact becomes
  | black =>
      have nearRed := near_red_of_far_black shape nephews far
      cases near : pick frame.side left right with
      | leaf =>
          rw [near] at nearRed
          cases nearRed
      | node e nearLeft mid nearRight =>
          rw [near, node_eq_branch frame.side e] at around
          obtain ⟨m₁, nephew, first⟩ := turnNephew_becomes around tied
          have tied₁ := tied.becomes (stored_focus.mp around) first
          obtain ⟨m₂, turned, second⟩ := mendRotate_becomes first.at tied₁ (branch_ne_leaf _ _ _ _ _)
          refine ⟨m₂, ?_, ?_⟩
          · simp only [mendSibling, deref_of_ne _ realW, toFar, deref_of_ne _ realFar, farColor, far,
              Option.bind_eq_bind, Option.bind_some, if_true, nephew, turned]
          · have whole := first.trans second
            rw [← node_eq_branch, ← near, plug_sibling shape, paint_branch] at whole
            rw [mend_near shape far near]
            exact whole

theorem blackSibling_mend (held : Stored memory (frame :: context) tree) (tied : Tied memory temp frame.value tree)
    (shape : frame.sibling = .node d left w right) (nephews : nephewsBlack frame.sibling = false) :
    ∃ memory', blackSibling frame.side memory temp w = some (memory', memory'.root) ∧
      Becomes memory memory' (plug (frame :: context) tree) (plug context (mend frame tree)) := by
  obtain ⟨m₁, mended, becomes⟩ := mendSibling_becomes held tied shape nephews
  have children := (held.sibling shape).onFar
  rw [← node_eq_branch] at children
  have black := childrenBlack_eq children
  rw [← shape, nephews] at black
  refine ⟨m₁, ?_, becomes⟩
  simp only [blackSibling, black, mended, Option.bind_eq_bind, Option.bind_some, Bool.false_eq_true, if_false]

theorem deleteTurn_black (held : Stored memory (frame :: context) tree) (tied : Tied memory temp frame.value tree)
    (shape : frame.sibling = .node .black left w right) :
    deleteTurn frame.side memory temp = blackSibling frame.side memory temp w := by
  have around := held.sibling shape
  have real : temp ≠ 0 := tied.place ▸ held.address_ne
  have toW : memory.link frame.side.other frame.value = w := around.cell.toFar.trans (address_branch ..)
  simp only [deleteTurn, deref_of_ne _ real, tied.parent, deref_of_ne _ held.frame_real.1, toW,
    held.sibling_color shape, Option.bind_eq_bind, Option.bind_some, reduceCtorEq, if_false]

theorem deleteTurn_red (held : Stored memory (frame :: context) tree) (tied : Tied memory temp frame.value tree)
    (shape : frame.sibling = .node .red left w right) :
    ∃ memory', deleteTurn frame.side memory temp =
        blackSibling frame.side memory' temp (address memory.sentinel (pick frame.side left right)) ∧
      Becomes memory memory' (plug (frame :: context) tree)
        (plug (frame.inner left right :: frame.outer left w right :: context) tree) := by
  have around := held.sibling shape
  have real : temp ≠ 0 := tied.place ▸ held.address_ne
  have toW : memory.link frame.side.other frame.value = w := around.cell.toFar.trans (address_branch ..)
  obtain ⟨m₁, rotated, becomes⟩ := rotateSibling_becomes around tied
  refine ⟨m₁, ?_, ?_⟩
  · simp only [deleteTurn, deref_of_ne _ real, tied.parent, deref_of_ne _ held.frame_real.1, toW,
      held.sibling_color shape, Option.bind_eq_bind, Option.bind_some, if_true, rotated]
  · rw [plug_sibling shape] at becomes
    exact becomes

end Turn

theorem paintBlack_stored (held : Stored memory context tree) :
    ∃ memory', setColor memory (address memory.sentinel tree) .black = some memory' ∧
      Stored memory' context (tree.paint .black) ∧
      Spares memory memory' (memory.sentinel :: (plug context tree).toList) := by
  by_cases leaf : tree = .leaf
  · subst leaf
    have same : memory.withColor memory.sentinel .black = memory := by
      rw [Memory.withColor, ← held.black, Function.update_eq_self]
    refine ⟨memory, ?_, held, .refl ..⟩
    rw [address, setColor_of_ne _ _ held.real, same]
  · obtain ⟨memory', painted, becomes⟩ := paint_becomes held leaf rfl .black
    exact ⟨memory', painted, becomes.at, becomes.spares.mono fun z => List.mem_cons_of_mem _⟩

theorem deleteLoop_root {turns : Nat} (held : Stored memory [] tree) (enough : 0 < turns) :
    ∃ memory', deleteLoop turns memory memory.root = some memory' ∧ Stored memory' [] (tree.paint .black) ∧
      Spares memory memory' (memory.sentinel :: tree.toList) := by
  obtain ⟨turns, rfl⟩ := Nat.exists_eq_succ_of_ne_zero (Nat.ne_of_gt enough)
  rw [deleteLoop, if_pos rfl, held.root]
  exact paintBlack_stored held

theorem deleteLoop_red {frame : Frame Nat} {turns : Nat} (held : Stored memory (frame :: context) tree)
    (red : tree.color = .red) (enough : 0 < turns) :
    ∃ memory', deleteLoop turns memory (address memory.sentinel tree) = some memory' ∧
      Stored memory' (frame :: context) (tree.paint .black) ∧
      Spares memory memory' (memory.sentinel :: (plug (frame :: context) tree).toList) := by
  obtain ⟨turns, rfl⟩ := Nat.exists_eq_succ_of_ne_zero (Nat.ne_of_gt enough)
  have deeper := mt held.root_iff.mp (List.cons_ne_nil _ _)
  rw [deleteLoop, if_neg deeper]
  simp only [deref_of_ne _ held.address_ne, held.color, red, Option.bind_eq_bind, Option.bind_some, if_true]
  exact paintBlack_stored held

theorem deleteLoop_turn {frame : Frame Nat} (held : Stored memory (frame :: context) tree)
    (tied : Tied memory temp frame.value tree) (black : tree.color ≠ .red) (sibling : frame.sibling ≠ .leaf)
    {next : Memory × Nat} (turned : deleteTurn frame.side memory temp = some next) (turns : Nat) :
    deleteLoop (turns + 1) memory temp = deleteLoop turns next.1 next.2 := by
  have deeper := mt held.root_iff.mp (List.cons_ne_nil _ _)
  have side := held.side_eq (Ne.symm (held.opposite.address_ne_sibling sibling))
  have real := held.address_ne
  have color := held.color
  rw [tied.place] at deeper side real color
  rw [deleteLoop, if_neg deeper]
  simp only [deref_of_ne _ real, color, black, tied.parent, deref_of_ne _ held.frame_real.1, Option.bind_eq_bind,
    Option.bind_some, if_false, side, turned]

def TiedTo (memory : Memory) (context : List (Frame Nat)) (tree : RbTree Nat) : Prop :=
  ∀ frame ∈ context.head?, memory.parent (address memory.sentinel tree) = frame.value

structure Deletes (memory memory' : Memory) (tree tree' : RbTree Nat) : Prop where
  stored : Stored memory' [] tree'
  spares : Spares memory memory' (memory.sentinel :: tree.toList)

theorem Becomes.deletes {first second third : Memory} {whole whole' whole'' : RbTree Nat}
    (becomes : Becomes first second whole whole') (deletes : Deletes second third whole' whole'') :
    Deletes first third whole whole'' where
  stored := deletes.stored
  spares := by
    have after := deletes.spares
    rw [becomes.order, becomes.spares.sentinel] at after
    exact (becomes.spares.mono fun z => List.mem_cons_of_mem _).trans after

theorem Deletes.mend {whole : RbTree Nat} {turns : Nat} {memory' : Memory} (becomes : Becomes memory memory' whole tree)
    (enough : 0 < turns) :
    ∃ memory'', deleteLoop turns memory' memory'.root = some memory'' ∧
      Deletes memory memory'' whole (tree.paint .black) := by
  obtain ⟨memory'', looped, stored, spares⟩ := deleteLoop_root becomes.stored enough
  exact ⟨memory'', looped, becomes.deletes ⟨stored, spares⟩⟩

theorem deleteLoop_redSibling {frame : Frame Nat} {left right : RbTree Nat} {n turns : Nat}
    (held : Stored memory (frame :: context) tree) (tied : Tied memory temp frame.value tree)
    (balanced : Balanced tree .black n) (shape : frame.sibling = .node .red left w right)
    (around : Around (frame :: context) c (n + 1)) (enough : 0 < turns) :
    ∃ memory', deleteLoop (turns + 1) memory temp = some memory' ∧
      Deletes memory memory' (plug (frame :: context) tree) (deleteFix (frame :: context) tree) := by
  have focus : tree.color ≠ .red := by
    rw [balanced.color]
    decide
  have full := sibling_ne_leaf shape
  obtain ⟨m₁, turned, first⟩ := deleteTurn_red held tied shape
  have lower : Stored m₁ (frame.inner left right :: frame.outer left w right :: context) tree := first.at
  have tied₁ : Tied m₁ temp (frame.inner left right).value tree := tied.becomes (stored_focus.mp held)
    (show Becomes memory m₁ _ (plug (frame.outer left w right :: context)
      (branch frame.side .red frame.value tree (pick frame.side left right))) from first)
  obtain ⟨rotated, near⟩ := around.rotated shape
  obtain ⟨nearLeft, v, nearRight, _, _, nearShape, -⟩ := near.split_black
  have place : address memory.sentinel (pick frame.side left right) = v := by
    rw [show pick frame.side left right = .node .black nearLeft v nearRight from nearShape]
    rfl
  rw [place] at turned
  rw [deleteFix_redSibling focus shape]
  cases calm : nephewsBlack (frame.inner left right).sibling with
  | true =>
      obtain ⟨m₂, sunk, second⟩ := blackSibling_sink lower tied₁ nearShape calm
      have red : (sink (frame.inner left right) tree).color = .red := color_branch ..
      obtain ⟨m₃, looped, stored, spares⟩ := deleteLoop_red second.at red enough
      have outermost : address m₂.sentinel (sink (frame.inner left right) tree) = (frame.inner left right).value :=
        address_branch ..
      rw [outermost] at looped
      refine ⟨m₃, ?_, (first.trans second).deletes ⟨stored_focus.mp stored, spares⟩⟩
      rw [deleteLoop_turn held tied focus full (turned.trans sunk)]
      exact looped
  | false =>
      obtain ⟨m₂, mended, second⟩ := blackSibling_mend lower tied₁ nearShape calm
      obtain ⟨m₃, looped, deletes⟩ := Deletes.mend (first.trans second) enough
      refine ⟨m₃, ?_, deletes⟩
      rw [deleteLoop_turn held tied focus full (turned.trans mended)]
      exact looped

theorem deleteLoop_deletes {n turns : Nat} (held : Stored memory context tree) (tied : TiedTo memory context tree)
    (short : Short tree n) (around : Around context .black (n + 1)) (enough : context.length < turns) :
    ∃ memory', deleteLoop turns memory (address memory.sentinel tree) = some memory' ∧
      Deletes memory memory' (plug context tree) (deleteFix context tree) := by
  induction context generalizing memory tree n turns with
  | nil =>
      obtain ⟨memory', looped, stored, spares⟩ := deleteLoop_root held (Nat.zero_lt_of_lt enough)
      rw [held.root] at looped
      exact ⟨memory', looped, stored, spares⟩
  | cons frame context ih =>
      by_cases red : tree.color = .red
      · obtain ⟨memory', looped, stored, spares⟩ := deleteLoop_red held red (Nat.zero_lt_of_lt enough)
        rw [deleteFix, if_pos red]
        exact ⟨memory', looped, stored_focus.mp stored, spares⟩
      · have balanced : Balanced tree .black n := by
          rcases short with balanced | ⟨isRed, -⟩
          · exact balanced
          · exact absurd isRed red
        obtain ⟨turns, rfl⟩ := Nat.exists_eq_succ_of_ne_zero (Nat.ne_of_gt (Nat.zero_lt_of_lt enough))
        have enoughRest : context.length < turns := by simpa using enough
        have more : 0 < turns := Nat.zero_lt_of_lt enoughRest
        have tie : Tied memory (address memory.sentinel tree) frame.value tree := ⟨rfl, tied frame rfl⟩
        obtain ⟨d, sibling⟩ := around.sibling
        cases shape : frame.sibling with
        | leaf =>
            rw [shape] at sibling
            cases sibling
        | node e left w right =>
            have full := sibling_ne_leaf shape
            cases e with
            | red => exact deleteLoop_redSibling held tie balanced shape around more
            | black =>
                have black : d = .black := by
                  rw [← sibling.color, shape]
                  rfl
                subst black
                have turn := deleteTurn_black held tie shape
                rw [deleteFix_blackSibling red shape]
                cases calm : nephewsBlack frame.sibling with
                | true =>
                    obtain ⟨m₁, sunk, first⟩ := blackSibling_sink held tie shape calm
                    obtain ⟨m, shortRest, fits⟩ := sink_short balanced sibling calm around
                    have outermost : address m₁.sentinel (sink frame tree) = frame.value := address_branch ..
                    have tiedRest : TiedTo m₁ context (sink frame tree) := first.at.above (branch_ne_leaf _ _ _ _ _)
                    obtain ⟨m₂, looped, deletes⟩ := ih first.at tiedRest shortRest fits enoughRest
                    rw [outermost] at looped
                    refine ⟨m₂, ?_, first.deletes deletes⟩
                    rw [deleteLoop_turn held tie red full (turn.trans sunk)]
                    exact looped
                | false =>
                    obtain ⟨m₁, mended, first⟩ := blackSibling_mend held tie shape calm
                    obtain ⟨m₂, looped, deletes⟩ := Deletes.mend first more
                    refine ⟨m₂, ?_, deletes⟩
                    rw [deleteLoop_turn held tie red full (turn.trans mended)]
                    exact looped

end CppInfra.Timer.Rbtree
