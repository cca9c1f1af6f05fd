import CppInfra.Shared.RedBlackTree
import Mathlib.Data.List.TakeWhile

set_option autoImplicit false

namespace CppInfra.RedBlackTree

open RbTree

variable {α : Type*}

-- The path to the leaf where a value belongs that goes to the left of some values.
def descend (toLeft : α → Bool) : RbTree α → List (Frame α) → List (Frame α)
  | .leaf, context => context
  | .node color left value right, context =>
      if toLeft value then descend toLeft left (⟨.left, color, value, right⟩ :: context)
      else descend toLeft right (⟨.right, color, value, left⟩ :: context)

def lift (parent grandparent : Frame α) (tree : RbTree α) : RbTree α :=
  if parent.side = grandparent.side then
    branch grandparent.side .black parent.value tree
      (branch grandparent.side .red grandparent.value parent.sibling grandparent.sibling)
  else
    match tree with
    | .leaf => grandparent.attach (parent.attach .leaf)
    | .node _ left value right =>
        branch grandparent.side .black value
          (branch grandparent.side .red parent.value parent.sibling (pick grandparent.side left right))
          (branch grandparent.side .red grandparent.value (pick grandparent.side.other left right) grandparent.sibling)

theorem lift_straight {parent grandparent : Frame α} {tree : RbTree α} (straight : parent.side = grandparent.side) :
    lift parent grandparent tree = branch grandparent.side .black parent.value tree
      (branch grandparent.side .red grandparent.value parent.sibling grandparent.sibling) := if_pos straight

theorem lift_bent {parent grandparent : Frame α} {near far : RbTree α} {color : Color} {value : α}
    (bent : parent.side ≠ grandparent.side) :
    lift parent grandparent (branch grandparent.side color value near far) =
      branch grandparent.side .black value (branch grandparent.side .red parent.value parent.sibling near)
        (branch grandparent.side .red grandparent.value far grandparent.sibling) := by
  cases side : grandparent.side <;> rw [side] at bent <;> simp [lift, branch, pick, Side.other, side, bent]

def recolour (parent grandparent : Frame α) (tree : RbTree α) : RbTree α :=
  branch grandparent.side .red grandparent.value (branch parent.side .black parent.value tree parent.sibling)
    (grandparent.sibling.paint .black)

def insertFix : List (Frame α) → RbTree α → RbTree α
  | [], tree => tree
  | [parent], tree => parent.attach tree
  | parent :: grandparent :: outer, tree =>
      if parent.color = .black then plug (parent :: grandparent :: outer) tree
      else if grandparent.sibling.color = .red then insertFix outer (recolour parent grandparent tree)
      else plug outer (lift parent grandparent tree)

def insertNode (toLeft : α → Bool) (tree : RbTree α) (value : α) : RbTree α :=
  match tree with
  | .leaf => .node .black .leaf value .leaf
  | tree => (insertFix (descend toLeft tree []) (.node .red .leaf value .leaf)).paint .black

theorem plug_descend (toLeft : α → Bool) (tree : RbTree α) (context : List (Frame α)) :
    plug (descend toLeft tree context) .leaf = plug context tree := by
  induction tree generalizing context with
  | leaf => rfl
  | node color left value right ihLeft ihRight =>
      rw [descend]
      split
      · exact ihLeft _
      · exact ihRight _

theorem length_descend (toLeft : α → Bool) (tree : RbTree α) (context : List (Frame α)) :
    (descend toLeft tree context).length ≤ context.length + tree.height := by
  induction tree generalizing context with
  | leaf => exact Nat.le_refl _
  | node color left value right ihLeft ihRight =>
      rw [descend, height]
      split
      · have deep := ihLeft (⟨.left, color, value, right⟩ :: context)
        rw [List.length_cons] at deep
        omega
      · have deep := ihRight (⟨.right, color, value, left⟩ :: context)
        rw [List.length_cons] at deep
        omega

theorem toList_lift (parent grandparent : Frame α) (tree : RbTree α) :
    (lift parent grandparent tree).toList = (grandparent.attach (parent.attach tree)).toList := by
  obtain ⟨side, color, value, sibling⟩ := parent
  obtain ⟨side', color', value', sibling'⟩ := grandparent
  cases side <;> cases side' <;> cases tree <;> simp [lift, Frame.attach, branch, pick, toList, Side.other]

theorem toList_recolour (parent grandparent : Frame α) (tree : RbTree α) :
    (recolour parent grandparent tree).toList = (grandparent.attach (parent.attach tree)).toList := by
  obtain ⟨side, color, value, sibling⟩ := parent
  obtain ⟨side', color', value', sibling'⟩ := grandparent
  cases side <;> cases side' <;> simp [recolour, Frame.attach, branch, toList]

theorem toList_insertFix (context : List (Frame α)) (tree : RbTree α) :
    (insertFix context tree).toList = (plug context tree).toList := by
  induction context, tree using insertFix.induct with
  | case1 tree => rfl
  | case2 parent tree => rfl
  | case3 parent grandparent outer tree black => rw [insertFix, if_pos black]
  | case4 parent grandparent outer tree red uncle ih =>
      rw [insertFix, if_neg red, if_pos uncle, ih]
      exact plug_toList_congr outer (toList_recolour parent grandparent tree)
  | case5 parent grandparent outer tree red uncle =>
      rw [insertFix, if_neg red, if_neg uncle]
      exact plug_toList_congr outer (toList_lift parent grandparent tree)

theorem balanced_pick {left right : RbTree α} {n : Nat} (onLeft : Balanced left .black n)
    (onRight : Balanced right .black n) (side : Side) : Balanced (pick side left right) .black n := by
  cases side
  · exact onLeft
  · exact onRight

theorem balanced_lift {parent grandparent : Frame α} {tree : RbTree α} {n : Nat} (balanced : Balanced tree .red n)
    (sibling : Balanced parent.sibling .black n) (uncle : Balanced grandparent.sibling .black n) :
    Balanced (lift parent grandparent tree) .black (n + 1) := by
  unfold lift
  split
  · exact .blackBranch _ _ balanced (.redBranch _ _ sibling uncle)
  · cases balanced with
    | red onLeft onRight =>
        have inner (side : Side) := balanced_pick onLeft onRight side
        exact .blackBranch _ _ (.redBranch _ _ sibling (inner _)) (.redBranch _ _ (inner _) uncle)

-- The red root of the focus is all that may be wrong, and only against the frame above it.
theorem insertFix_balanced {context : List (Frame α)} {tree : RbTree α} {n : Nat} (balanced : Balanced tree .red n)
    (around : Around context .black n) : RedBlack ((insertFix context tree).paint .black) := by
  induction context, tree using insertFix.induct generalizing n with
  | case1 tree => exact ⟨_, balanced.blacken⟩
  | case2 parent tree =>
      cases around with
      | red color sibling outer => cases outer
      | black color sibling outer =>
          rw [insertFix, Frame.attach, color, paint_branch]
          exact ⟨_, .blackBranch _ _ balanced sibling⟩
  | case3 parent grandparent outer tree black =>
      rw [insertFix, if_pos black]
      cases around with
      | red color sibling outer => rw [black] at color; cases color
      | black color sibling above =>
          exact (balanced.plug (.black color sibling above)).blacken
  | case4 parent grandparent outer tree red uncle ih =>
      rw [insertFix, if_neg red, if_pos uncle]
      cases around with
      | black color sibling above => exact absurd color red
      | red color sibling above =>
          obtain ⟨_, _, d, same, -, uncleBalanced, beyond⟩ := above.under_red
          cases same
          have colored := uncleBalanced.color
          rw [uncle] at colored
          subst colored
          exact ih (.redBranch _ _ (.blackBranch _ _ balanced sibling) uncleBalanced.blacken) beyond
  | case5 parent grandparent outer tree red uncle =>
      rw [insertFix, if_neg red, if_neg uncle]
      cases around with
      | black color sibling above => exact absurd color red
      | red color sibling above =>
          obtain ⟨_, _, d, same, -, uncleBalanced, beyond⟩ := above.under_red
          cases same
          have black : d = .black := by
            rw [← uncleBalanced.color]
            exact Color.eq_black uncle
          subst black
          exact ((balanced_lift balanced sibling uncleBalanced).plug beyond).blacken

theorem around_descend (toLeft : α → Bool) {tree : RbTree α} {context : List (Frame α)} {c : Color} {n : Nat}
    (balanced : Balanced tree c n) (around : Around context c n) : Around (descend toLeft tree context) .black 0 := by
  induction balanced generalizing context with
  | leaf => exact around
  | red onLeft onRight ihLeft ihRight =>
      rw [descend]
      split
      · exact ihLeft (.red rfl onRight around)
      · exact ihRight (.red rfl onLeft around)
  | black onLeft onRight ihLeft ihRight =>
      rw [descend]
      split
      · exact ihLeft (.black rfl onRight around)
      · exact ihRight (.black rfl onLeft around)

theorem insertNode_redBlack (toLeft : α → Bool) {tree : RbTree α} (value : α) (redBlack : RedBlack tree) :
    RedBlack (insertNode toLeft tree value) := by
  obtain ⟨n, balanced⟩ := redBlack
  cases tree with
  | leaf => exact ⟨1, .black .leaf .leaf⟩
  | node color left other right =>
      exact insertFix_balanced (.red .leaf .leaf) (around_descend toLeft balanced .top)

theorem toList_insertNode (toLeft : α → Bool) (tree : RbTree α) (value : α) :
    (insertNode toLeft tree value).toList =
      leftOf (descend toLeft tree []) ++ value :: rightOf (descend toLeft tree []) := by
  cases tree with
  | leaf => rfl
  | node color left other right =>
      have shape : insertNode toLeft (.node color left other right) value =
          (insertFix (descend toLeft (.node color left other right) []) (.node .red .leaf value .leaf)).paint .black :=
        rfl
      rw [shape, toList_paint, toList_insertFix, toList_plug]
      simp [toList]

theorem leftOf_descend (toLeft : α → Bool) (tree : RbTree α) :
    leftOf (descend toLeft tree []) ++ rightOf (descend toLeft tree []) = tree.toList := by
  have whole := toList_plug (descend toLeft tree []) .leaf
  rw [plug_descend] at whole
  simpa [toList, plug] using whole.symm

theorem descend_between {toLeft : α → Bool} {tree : RbTree α} {context : List (Frame α)}
    (monotone : tree.toList.Pairwise fun x y => toLeft x = true → toLeft y = true)
    (before : ∀ x ∈ leftOf context, toLeft x = false) (after : ∀ x ∈ rightOf context, toLeft x = true) :
    (∀ x ∈ leftOf (descend toLeft tree context), toLeft x = false) ∧
      ∀ x ∈ rightOf (descend toLeft tree context), toLeft x = true := by
  induction tree generalizing context with
  | leaf => exact ⟨before, after⟩
  | node color left value right ihLeft ihRight =>
      obtain ⟨monotoneLeft, rest, across⟩ := List.pairwise_append.mp monotone
      obtain ⟨behind, monotoneRight⟩ := List.pairwise_cons.mp rest
      rw [descend]
      split
      case isTrue goesLeft =>
        refine ihLeft monotoneLeft before ?_
        intro x member
        rcases List.mem_append.mp member with here | outside
        · rcases List.mem_cons.mp here with rfl | sibling
          · exact goesLeft
          · exact behind x sibling goesLeft
        · exact after x outside
      case isFalse goesRight =>
        have notLeft : toLeft value = false := by simpa using goesRight
        refine ihRight monotoneRight ?_ after
        intro x member
        rcases List.mem_append.mp member with outside | here
        · exact before x outside
        · rcases List.mem_append.mp here with sibling | last
          · have order := across x sibling value (List.mem_cons_self ..)
            by_contra goes
            rw [order (by simpa using goes)] at notLeft
            cases notLeft
          · rw [List.mem_singleton.mp last]
            exact notLeft

-- The sibling takes the red that the focus lacks in black.
def sink (frame : Frame α) (tree : RbTree α) : RbTree α :=
  branch frame.side frame.color frame.value tree (frame.sibling.paint .red)

def nephewsBlack : RbTree α → Bool
  | .leaf => true
  | .node _ left _ right => left.color = .black && right.color = .black

def mend (frame : Frame α) (tree : RbTree α) : RbTree α :=
  match frame.sibling with
  | .leaf => frame.attach tree
  | .node _ left value right =>
      if (pick frame.side.other left right).color = .black then
        match pick frame.side left right with
        | .leaf => frame.attach tree
        | .node _ nearLeft middle nearRight =>
            branch frame.side frame.color middle
              (branch frame.side .black frame.value tree (pick frame.side nearLeft nearRight))
              (branch frame.side .black value (pick frame.side.other nearLeft nearRight)
                (pick frame.side.other left right))
      else
        branch frame.side frame.color value
          (branch frame.side .black frame.value tree (pick frame.side left right))
          ((pick frame.side.other left right).paint .black)

def Frame.inner (frame : Frame α) (left right : RbTree α) : Frame α :=
  ⟨frame.side, .red, frame.value, pick frame.side left right⟩

def Frame.outer (frame : Frame α) (left : RbTree α) (value : α) (right : RbTree α) : Frame α :=
  ⟨frame.side, .black, value, pick frame.side.other left right⟩

def deleteFix : List (Frame α) → RbTree α → RbTree α
  | [], tree => tree.paint .black
  | frame :: context, tree =>
      if tree.color = .red then plug (frame :: context) (tree.paint .black)
      else
        match frame.sibling with
        | .node .red left value right =>
            if nephewsBlack (frame.inner left right).sibling then
              plug (frame.outer left value right :: context) ((sink (frame.inner left right) tree).paint .black)
            else (plug (frame.outer left value right :: context) (mend (frame.inner left right) tree)).paint .black
        | _ =>
            if nephewsBlack frame.sibling then deleteFix context (sink frame tree)
            else (plug context (mend frame tree)).paint .black

def unlink (context : List (Frame α)) (color : Color) (tree : RbTree α) : RbTree α :=
  match context with
  | [] => tree.paint .black
  | frame :: outer => if color = .red then plug (frame :: outer) tree else deleteFix (frame :: outer) tree

structure Leftmost (α : Type*) where
  path : List (Frame α)
  color : Color
  value : α
  right : RbTree α

def leftmost (color : Color) (left : RbTree α) (value : α) (right : RbTree α) : Leftmost α :=
  match left with
  | .leaf => ⟨[], color, value, right⟩
  | .node color' left' value' right' =>
      let first := leftmost color' left' value' right'
      { first with path := first.path ++ [⟨.left, color, value, right⟩] }

def deleteNode (context : List (Frame α)) (color : Color) (left right : RbTree α) : RbTree α :=
  match left, right with
  | .leaf, right => unlink context color right
  | left, .leaf => unlink context color left
  | left, .node color' left' value' right' =>
      let first := leftmost color' left' value' right'
      unlink (first.path ++ ⟨.right, color, first.value, left⟩ :: context) first.color first.right

theorem toList_sink (frame : Frame α) (tree : RbTree α) : (sink frame tree).toList = (frame.attach tree).toList := by
  obtain ⟨side, color, value, sibling⟩ := frame
  cases side <;> simp [sink, Frame.attach, branch, toList]

theorem mend_near {frame : Frame α} {tree left right nearLeft nearRight : RbTree α} {color color' : Color}
    {value middle : α} (sibling : frame.sibling = .node color left value right)
    (far : (pick frame.side.other left right).color = .black)
    (near : pick frame.side left right = .node color' nearLeft middle nearRight) :
    mend frame tree = branch frame.side frame.color middle
      (branch frame.side .black frame.value tree (pick frame.side nearLeft nearRight))
      (branch frame.side .black value (pick frame.side.other nearLeft nearRight)
        (pick frame.side.other left right)) := by
  simp only [mend, sibling, far, near, if_true]

theorem mend_far {frame : Frame α} {tree left right : RbTree α} {color : Color} {value : α}
    (sibling : frame.sibling = .node color left value right) (far : (pick frame.side.other left right).color = .red) :
    mend frame tree = branch frame.side frame.color value
      (branch frame.side .black frame.value tree (pick frame.side left right))
      ((pick frame.side.other left right).paint .black) := by
  simp only [mend, sibling, far, reduceCtorEq, if_false]

theorem toList_mend (frame : Frame α) (tree : RbTree α) : (mend frame tree).toList = (frame.attach tree).toList := by
  obtain ⟨side, color, value, sibling⟩ := frame
  cases sibling with
  | leaf => rfl
  | node color' left value' right =>
      cases far : (pick side.other left right).color with
      | red =>
          rw [mend_far rfl far]
          cases side <;> simp [Frame.attach, branch, toList, pick, Side.other]
      | black =>
          cases near : pick side left right with
          | leaf => simp [mend, far, near]
          | node color'' nearLeft middle nearRight =>
              rw [mend_near rfl far near]
              cases side <;> simp only [pick] at near <;> subst near <;>
                simp [Frame.attach, branch, toList, pick, Side.other]

theorem toList_rotated {frame : Frame α} {left right : RbTree α} {value : α} {color : Color}
    (sibling : frame.sibling = .node color left value right) (tree : RbTree α) :
    ((frame.outer left value right).attach ((frame.inner left right).attach tree)).toList =
      (frame.attach tree).toList := by
  obtain ⟨side, color', value', sibling'⟩ := frame
  cases sibling
  cases side <;> simp [Frame.outer, Frame.inner, Frame.attach, branch, toList, pick, Side.other]

theorem deleteFix_redSibling {frame : Frame α} {context : List (Frame α)} {tree left right : RbTree α} {value : α}
    (focus : tree.color ≠ .red) (sibling : frame.sibling = .node .red left value right) :
    deleteFix (frame :: context) tree =
      if nephewsBlack (frame.inner left right).sibling then
        plug (frame.outer left value right :: context) ((sink (frame.inner left right) tree).paint .black)
      else (plug (frame.outer left value right :: context) (mend (frame.inner left right) tree)).paint .black := by
  rw [deleteFix, if_neg focus, sibling]

theorem deleteFix_blackSibling {frame : Frame α} {context : List (Frame α)} {tree left right : RbTree α} {value : α}
    (focus : tree.color ≠ .red) (sibling : frame.sibling = .node .black left value right) :
    deleteFix (frame :: context) tree =
      if nephewsBlack frame.sibling then deleteFix context (sink frame tree)
      else (plug context (mend frame tree)).paint .black := by
  rw [deleteFix, if_neg focus, sibling]

theorem toList_deleteFix (context : List (Frame α)) (tree : RbTree α) :
    (deleteFix context tree).toList = (plug context tree).toList := by
  induction context generalizing tree with
  | nil => exact toList_paint ..
  | cons frame context ih =>
      rw [deleteFix]
      split
      · exact plug_toList_congr _ (toList_paint ..)
      · split
        case h_1 left value right sibling =>
          have rotated (inside : RbTree α) (same : inside.toList = ((frame.inner left right).attach tree).toList) :
              (plug (frame.outer left value right :: context) inside).toList = (plug (frame :: context) tree).toList :=
            (plug_toList_congr _ same).trans (plug_toList_congr context (toList_rotated sibling tree))
          split
          · exact rotated _ (by rw [toList_paint, toList_sink])
          · rw [toList_paint]
            exact rotated _ (toList_mend ..)
        case h_2 =>
          split
          · rw [ih]
            exact plug_toList_congr _ (toList_sink frame tree)
          · rw [toList_paint]
            exact plug_toList_congr _ (toList_mend frame tree)

theorem toList_unlink (context : List (Frame α)) (color : Color) (tree : RbTree α) :
    (unlink context color tree).toList = (plug context tree).toList := by
  cases context with
  | nil => exact toList_paint ..
  | cons frame outer =>
      rw [unlink]
      split
      · rfl
      · exact toList_deleteFix ..

theorem plug_leftmost (color : Color) (left : RbTree α) (value : α) (right : RbTree α) :
    plug (leftmost color left value right).path
        (.node (leftmost color left value right).color .leaf (leftmost color left value right).value
          (leftmost color left value right).right) = .node color left value right := by
  induction left generalizing color value right with
  | leaf => rfl
  | node color' left' value' right' ihLeft _ =>
      rw [leftmost, plug_append, ihLeft]
      rfl

theorem leftOf_append_left (context : List (Frame α)) (color : Color) (value : α) (right : RbTree α) :
    leftOf (context ++ [⟨.left, color, value, right⟩]) = leftOf context := by
  induction context with
  | nil => rfl
  | cons frame context ih =>
      rw [List.cons_append, leftOf, leftOf, ih]

theorem leftOf_leftmost (color : Color) (left : RbTree α) (value : α) (right : RbTree α) :
    leftOf (leftmost color left value right).path = [] := by
  induction left generalizing color value right with
  | leaf => rfl
  | node color' left' value' right' ihLeft _ =>
      rw [leftmost, leftOf_append_left]
      exact ihLeft ..

theorem toList_deleteNode (context : List (Frame α)) (color : Color) (left right : RbTree α) :
    (deleteNode context color left right).toList =
      leftOf context ++ (left.toList ++ right.toList) ++ rightOf context := by
  rw [deleteNode.eq_def]
  split
  case h_1 => rw [toList_unlink, toList_plug]; rfl
  case h_2 => rw [toList_unlink, toList_plug, toList, List.append_nil]
  case h_3 color' left' value' right' _ =>
    have inner := congrArg toList (plug_leftmost color' left' value' right')
    rw [toList_plug] at inner
    rw [toList_unlink, plug_append, plug, toList_plug, ← inner]
    simp [Frame.attach, branch, toList, toList_plug, leftOf_leftmost]

-- The focus lacks one black node, or is a red node that may be painted.
def Short (tree : RbTree α) (n : Nat) : Prop :=
  Balanced tree .black n ∨ tree.color = .red ∧ Balanced (tree.paint .black) .black (n + 1)

theorem Balanced.split_black {tree : RbTree α} {n : Nat} (balanced : Balanced tree .black (n + 1)) :
    ∃ left value right c d, tree = .node .black left value right ∧ Balanced left c n ∧ Balanced right d n := by
  cases balanced with
  | black onLeft onRight => exact ⟨_, _, _, _, _, rfl, onLeft, onRight⟩

theorem Balanced.split_red {tree : RbTree α} {n : Nat} (balanced : Balanced tree .red n) :
    ∃ left value right, tree = .node .red left value right ∧ Balanced left .black n ∧ Balanced right .black n := by
  cases balanced with
  | red onLeft onRight => exact ⟨_, _, _, rfl, onLeft, onRight⟩

theorem Balanced.pick {left right : RbTree α} {c d : Color} {n : Nat} (onLeft : Balanced left c n)
    (onRight : Balanced right d n) (side : Side) :
    Balanced (RbTree.pick side left right) (RbTree.pick side left right).color n := by
  cases side
  · exact onLeft.color ▸ onLeft
  · exact onRight.color ▸ onRight

theorem sink_short {frame : Frame α} {context : List (Frame α)} {tree : RbTree α} {c : Color} {n : Nat}
    (balanced : Balanced tree .black n) (sibling : Balanced frame.sibling .black (n + 1))
    (calm : nephewsBlack frame.sibling = true) (around : Around (frame :: context) c (n + 1)) :
    ∃ m, Short (sink frame tree) m ∧ Around context .black (m + 1) := by
  obtain ⟨left, value, right, c, d, shape, onLeft, onRight⟩ := sibling.split_black
  rw [shape] at calm
  obtain ⟨leftBlack, rightBlack⟩ : left.color = .black ∧ right.color = .black := by simpa [nephewsBlack] using calm
  have painted : Balanced (frame.sibling.paint .red) .red n := by
    rw [shape]
    exact .red (leftBlack ▸ onLeft.color ▸ onLeft) (rightBlack ▸ onRight.color ▸ onRight)
  cases around with
  | red color _ outer =>
      refine ⟨n, .inr ⟨?_, ?_⟩, outer.soften⟩
      · rw [sink, color_branch, color]
      · rw [sink, paint_branch]
        exact .blackBranch _ _ balanced painted
  | black color _ outer =>
      refine ⟨n + 1, .inl ?_, outer⟩
      rw [sink, color]
      exact .blackBranch _ _ balanced painted

theorem near_red_of_far_black {frame : Frame α} {left right : RbTree α} {color : Color} {value : α}
    (shape : frame.sibling = .node color left value right) (nephews : nephewsBlack frame.sibling = false)
    (far : (pick frame.side.other left right).color = .black) : (pick frame.side left right).color = .red := by
  by_contra notRed
  have near := Color.eq_black notRed
  have both : left.color = .black ∧ right.color = .black := by
    cases side : frame.side <;> rw [side] at near far
    · exact ⟨near, far⟩
    · exact ⟨far, near⟩
  rw [shape] at nephews
  simp [nephewsBlack, both] at nephews

theorem mend_balanced {frame : Frame α} {context : List (Frame α)} {tree : RbTree α} {c : Color} {n : Nat}
    (balanced : Balanced tree .black n) (sibling : Balanced frame.sibling .black (n + 1))
    (nephews : nephewsBlack frame.sibling = false) (around : Around (frame :: context) c (n + 1)) :
    RedBlack (plug context (mend frame tree)) := by
  obtain ⟨left, value, right, c, d, shape, onLeft, onRight⟩ := sibling.split_black
  have child (side : Side) := onLeft.pick onRight side
  cases far : (pick frame.side.other left right).color with
  | red =>
      rw [mend_far shape far]
      have opposite := child frame.side.other
      rw [far] at opposite
      exact around.fill _ _ (.blackBranch _ _ balanced (child frame.side)) opposite.blacken
  | black =>
      have nearRed := near_red_of_far_black shape nephews far
      have near := child frame.side
      rw [nearRed] at near
      cases nearShape : pick frame.side left right with
      | leaf => rw [nearShape] at nearRed; cases nearRed
      | node color nearLeft middle nearRight =>
          rw [mend_near shape far nearShape]
          rw [nearShape] at near
          cases near with
          | red inner outer =>
              exact around.fill _ _ (.blackBranch _ _ balanced (inner.pick outer frame.side))
                (.blackBranch _ _ (inner.pick outer frame.side.other) (child frame.side.other))

theorem Around.sibling {frame : Frame α} {context : List (Frame α)} {c : Color} {n : Nat}
    (around : Around (frame :: context) c n) : ∃ d, Balanced frame.sibling d n := by
  cases around with
  | red color sibling outer => exact ⟨_, sibling⟩
  | black color sibling outer => exact ⟨_, sibling⟩

theorem Around.rotated {frame : Frame α} {context : List (Frame α)} {left right : RbTree α} {value : α} {c : Color}
    {n : Nat} (around : Around (frame :: context) c n) (shape : frame.sibling = .node .red left value right) :
    Around (frame.inner left right :: frame.outer left value right :: context) .black n ∧
      Balanced (frame.inner left right).sibling .black n := by
  cases around with
  | red color sibling outer =>
      rw [shape] at sibling
      cases sibling
  | black color sibling outer =>
      rw [shape] at sibling
      cases sibling with
      | red onLeft onRight =>
          exact ⟨.red rfl (balanced_pick onLeft onRight _) (.black rfl (balanced_pick onLeft onRight _) outer),
            balanced_pick onLeft onRight _⟩

theorem sink_inner {frame : Frame α} {context : List (Frame α)} {tree left right : RbTree α} {c : Color} {n : Nat}
    (balanced : Balanced tree .black n) (near : Balanced (frame.inner left right).sibling .black (n + 1))
    (calm : nephewsBlack (frame.inner left right).sibling = true)
    (rotated : Around (frame.inner left right :: context) c (n + 1)) :
    ∃ m, Balanced ((sink (frame.inner left right) tree).paint .black) .black (m + 1) ∧
      Around context .black (m + 1) := by
  obtain ⟨m, sunk, fits⟩ := sink_short balanced near calm rotated
  rcases sunk with black | ⟨-, painted⟩
  · have red := black.color
    rw [sink, color_branch] at red
    cases red
  · exact ⟨m, painted, fits⟩

theorem deleteFix_balanced {context : List (Frame α)} {tree : RbTree α} {n : Nat} (short : Short tree n)
    (around : Around context .black (n + 1)) : RedBlack (deleteFix context tree) := by
  induction context generalizing tree n with
  | nil =>
      rcases short with balanced | ⟨-, painted⟩
      · exact RedBlack.blacken ⟨n, balanced⟩
      · exact ⟨n + 1, painted⟩
  | cons frame context ih =>
      rw [deleteFix]
      rcases short with balanced | ⟨red, painted⟩
      case inr =>
        rw [if_pos red]
        exact painted.plug around
      rw [if_neg (by rw [balanced.color]; decide)]
      split
      case h_1 left value right shape =>
        obtain ⟨rotated, near⟩ := around.rotated shape
        split
        case isTrue calm =>
          obtain ⟨m, painted, fits⟩ := sink_inner balanced near calm rotated
          exact painted.plug fits
        case isFalse nephews => exact (mend_balanced balanced near (by simpa using nephews) rotated).blacken
      case h_2 notRed =>
        obtain ⟨d, sibling⟩ := around.sibling
        have black : d = .black := by
          cases d with
          | black => rfl
          | red =>
              obtain ⟨left, value, right, shape, -⟩ := sibling.split_red
              exact absurd shape (notRed left value right)
        subst black
        split
        case isTrue calm =>
          obtain ⟨m, sunk, fits⟩ := sink_short balanced sibling calm around
          exact ih sunk fits
        case isFalse nephews => exact (mend_balanced balanced sibling (by simpa using nephews) around).blacken

theorem RedBlack.unlinked {context : List (Frame α)} {tree : RbTree α} {side : Side} {value : α}
    (redBlack : RedBlack (plug context (branch side .black value .leaf tree))) :
    ∃ n, Short tree n ∧ Around context .black (n + 1) := by
  obtain ⟨c, n, balanced, around⟩ := redBlack.split
  obtain ⟨rfl, below, c, d, rfl, onSide, opposite⟩ := balanced_blackBranch balanced
  cases onSide
  refine ⟨0, ?_, around⟩
  cases d with
  | red => exact .inr ⟨opposite.color, opposite.blacken⟩
  | black => exact .inl opposite

theorem unlink_redBlack {context : List (Frame α)} {color : Color} {tree : RbTree α} (side : Side) (value : α)
    (redBlack : RedBlack (plug context (branch side color value .leaf tree))) :
    RedBlack (unlink context color tree) := by
  cases color with
  | red =>
      obtain ⟨c, n, balanced, around⟩ := redBlack.split
      obtain ⟨rfl, onSide, opposite⟩ := balanced_redBranch.mp balanced
      cases context with
      | nil => cases around
      | cons frame outer =>
          rw [unlink, if_pos rfl]
          exact opposite.plug around.soften
  | black =>
      obtain ⟨n, short, around⟩ := redBlack.unlinked
      cases context with
      | nil => exact deleteFix_balanced short around
      | cons frame outer =>
          rw [unlink, if_neg (by decide)]
          exact deleteFix_balanced short around

theorem RedBlack.revalue {context : List (Frame α)} {color : Color} {left right : RbTree α} {value : α}
    (redBlack : RedBlack (plug context (.node color left value right))) (value' : α) :
    RedBlack (plug context (.node color left value' right)) := by
  obtain ⟨c, n, balanced, around⟩ := redBlack.split
  cases balanced with
  | red onLeft onRight => exact (Balanced.red onLeft onRight).plug around
  | black onLeft onRight => exact (Balanced.black onLeft onRight).plug around

theorem RedBlack.successor {context : List (Frame α)} {color color' : Color} {left left' right' : RbTree α}
    {value value' : α}
    (redBlack : RedBlack (plug context (.node color left value (.node color' left' value' right')))) :
    RedBlack (plug ((leftmost color' left' value' right').path ++
        ⟨.right, color, (leftmost color' left' value' right').value, left⟩ :: context)
      (branch .left (leftmost color' left' value' right').color (leftmost color' left' value' right').value .leaf
        (leftmost color' left' value' right').right)) := by
  rw [plug_append, plug, branch, plug_leftmost]
  exact redBlack.revalue _

theorem deleteNode_redBlack {context : List (Frame α)} {color : Color} {left right : RbTree α} {value : α}
    (redBlack : RedBlack (plug context (.node color left value right))) :
    RedBlack (deleteNode context color left right) := by
  rw [deleteNode.eq_def]
  split
  case h_1 => exact unlink_redBlack .left _ redBlack
  case h_2 => exact unlink_redBlack .right _ redBlack
  case h_3 color' left' value' right' _ =>
    exact unlink_redBlack .left (leftmost color' left' value' right').value redBlack.successor

end CppInfra.RedBlackTree
