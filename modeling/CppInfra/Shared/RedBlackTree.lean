import Mathlib.Data.List.Basic
import Mathlib.Data.Nat.Log
import Mathlib.Tactic.Ring

set_option autoImplicit false

-- A tree with a focus is a subtree below a list of frames, the innermost frame first.
namespace CppInfra.RedBlackTree

inductive Color where
  | red
  | black
  deriving DecidableEq, Repr

theorem Color.eq_black {color : Color} (notRed : color ≠ .red) : color = .black := by
  cases color
  · exact absurd rfl notRed
  · rfl

inductive Side where
  | left
  | right
  deriving DecidableEq, Repr

def Side.other : Side → Side
  | .left => .right
  | .right => .left

@[simp] theorem Side.other_other (side : Side) : side.other.other = side := by
  cases side <;> rfl

@[simp] theorem Side.other_ne (side : Side) : side.other ≠ side := by
  cases side <;> decide

@[simp] theorem Side.ne_other (side : Side) : side ≠ side.other := side.other_ne.symm

theorem Side.eq_other {side side' : Side} (apart : side ≠ side') : side = side'.other := by
  cases side <;> cases side' <;> first | rfl | exact absurd rfl apart

inductive RbTree (α : Type*) where
  | leaf
  | node (color : Color) (left : RbTree α) (value : α) (right : RbTree α)
  deriving DecidableEq, Repr

variable {α : Type*}

namespace RbTree

def toList : RbTree α → List α
  | .leaf => []
  | .node _ left value right => left.toList ++ value :: right.toList

def color : RbTree α → Color
  | .leaf => .black
  | .node color _ _ _ => color

def paint : RbTree α → Color → RbTree α
  | .leaf, _ => .leaf
  | .node _ left value right, color => .node color left value right

def height : RbTree α → Nat
  | .leaf => 0
  | .node _ left _ right => max left.height right.height + 1

def branch (side : Side) (color : Color) (value : α) (near far : RbTree α) : RbTree α :=
  match side with
  | .left => .node color near value far
  | .right => .node color far value near

def pick (side : Side) (left right : RbTree α) : RbTree α :=
  match side with
  | .left => left
  | .right => right

theorem node_eq_branch (side : Side) (color : Color) (left : RbTree α) (value : α) (right : RbTree α) :
    node color left value right = branch side color value (pick side left right) (pick side.other left right) := by
  cases side <;> rfl

theorem branch_swap (side : Side) (color : Color) (value : α) (near far : RbTree α) :
    branch side.other color value near far = branch side color value far near := by
  cases side <;> rfl

@[simp] theorem branch_ne_leaf (side : Side) (color : Color) (value : α) (near far : RbTree α) :
    branch side color value near far ≠ leaf := by
  cases side <;> nofun

@[simp] theorem color_branch (side : Side) (color : Color) (value : α) (near far : RbTree α) :
    (branch side color value near far).color = color := by
  cases side <;> rfl

@[simp] theorem paint_branch (side : Side) (color color' : Color) (value : α) (near far : RbTree α) :
    (branch side color value near far).paint color' = branch side color' value near far := by
  cases side <;> rfl

@[simp] theorem toList_paint (tree : RbTree α) (color : Color) : (tree.paint color).toList = tree.toList := by
  cases tree <;> rfl

@[simp] theorem paint_paint (tree : RbTree α) (color color' : Color) :
    (tree.paint color).paint color' = tree.paint color' := by
  cases tree <;> rfl

@[simp] theorem paint_color (tree : RbTree α) : tree.paint tree.color = tree := by
  cases tree <;> rfl

theorem ne_leaf_of_red {tree : RbTree α} (red : tree.color = .red) : tree ≠ leaf := by
  rintro rfl
  cases red

end RbTree

open RbTree

-- One step of a path: the side it took, the node it passed and the subtree it left aside.
structure Frame (α : Type*) where
  side : Side
  color : Color
  value : α
  sibling : RbTree α
  deriving DecidableEq, Repr

def Frame.attach (frame : Frame α) (tree : RbTree α) : RbTree α :=
  branch frame.side frame.color frame.value tree frame.sibling

theorem Frame.attach_ne_leaf (frame : Frame α) (tree : RbTree α) : frame.attach tree ≠ .leaf :=
  branch_ne_leaf _ _ _ _ _

def plug : List (Frame α) → RbTree α → RbTree α
  | [], tree => tree
  | frame :: context, tree => plug context (frame.attach tree)

theorem height_attach (frame : Frame α) (tree : RbTree α) : tree.height + 1 ≤ (frame.attach tree).height := by
  obtain ⟨side, color, value, sibling⟩ := frame
  cases side <;> simp only [Frame.attach, branch, height] <;> omega

theorem height_plug (context : List (Frame α)) (tree : RbTree α) :
    context.length + tree.height ≤ (plug context tree).height := by
  induction context generalizing tree with
  | nil => simp [plug]
  | cons frame context ih =>
      have outer := ih (frame.attach tree)
      have inner := height_attach frame tree
      rw [plug, List.length_cons]
      omega

theorem plug_append (inner outer : List (Frame α)) (tree : RbTree α) :
    plug (inner ++ outer) tree = plug outer (plug inner tree) := by
  induction inner generalizing tree with
  | nil => rfl
  | cons frame inner ih => exact ih (frame.attach tree)

theorem height_le_length (tree : RbTree α) : tree.height ≤ tree.toList.length := by
  induction tree with
  | leaf => exact Nat.le_refl _
  | node color left value right ihLeft ihRight =>
      simp only [height, toList, List.length_append, List.length_cons]
      omega

theorem exists_focus {tree : RbTree α} {value : α} (member : value ∈ tree.toList) :
    ∃ context color left right, tree = plug context (.node color left value right) := by
  induction tree with
  | leaf => cases member
  | node color left other right ihLeft ihRight =>
      rcases List.mem_append.mp member with onLeft | rest
      · obtain ⟨context, c, l, r, shape⟩ := ihLeft onLeft
        refine ⟨context ++ [⟨.left, color, other, right⟩], c, l, r, ?_⟩
        rw [plug_append, ← shape]
        rfl
      · rcases List.mem_cons.mp rest with rfl | onRight
        · exact ⟨[], color, left, right, rfl⟩
        · obtain ⟨context, c, l, r, shape⟩ := ihRight onRight
          refine ⟨context ++ [⟨.right, color, other, left⟩], c, l, r, ?_⟩
          rw [plug_append, ← shape]
          rfl

def leftOf : List (Frame α) → List α
  | [] => []
  | frame :: context =>
      match frame.side with
      | .left => leftOf context
      | .right => leftOf context ++ (frame.sibling.toList ++ [frame.value])

def rightOf : List (Frame α) → List α
  | [] => []
  | frame :: context =>
      match frame.side with
      | .left => frame.value :: frame.sibling.toList ++ rightOf context
      | .right => rightOf context

theorem toList_plug (context : List (Frame α)) (tree : RbTree α) :
    (plug context tree).toList = leftOf context ++ tree.toList ++ rightOf context := by
  induction context generalizing tree with
  | nil => simp [plug, leftOf, rightOf]
  | cons frame context ih =>
      obtain ⟨side, color, value, sibling⟩ := frame
      cases side <;> simp [plug, ih, Frame.attach, branch, leftOf, rightOf, toList]

theorem plug_toList_congr (context : List (Frame α)) {tree tree' : RbTree α} (same : tree.toList = tree'.toList) :
    (plug context tree).toList = (plug context tree').toList := by
  rw [toList_plug, toList_plug, same]

inductive Balanced : RbTree α → Color → Nat → Prop where
  | leaf : Balanced .leaf .black 0
  | red {left right : RbTree α} {value : α} {n : Nat} (onLeft : Balanced left .black n)
      (onRight : Balanced right .black n) : Balanced (.node .red left value right) .red n
  | black {left right : RbTree α} {value : α} {c d : Color} {n : Nat} (onLeft : Balanced left c n)
      (onRight : Balanced right d n) : Balanced (.node .black left value right) .black (n + 1)

def RedBlack (tree : RbTree α) : Prop := ∃ n, Balanced tree .black n

-- The context leads to a red-black tree when its hole is filled with a tree of this colour and black height.
inductive Around : List (Frame α) → Color → Nat → Prop where
  | top {n : Nat} : Around [] .black n
  | red {frame : Frame α} {context : List (Frame α)} {n : Nat} (color : frame.color = .red)
      (sibling : Balanced frame.sibling .black n) (outer : Around context .red n) : Around (frame :: context) .black n
  | black {frame : Frame α} {context : List (Frame α)} {c d : Color} {n : Nat} (color : frame.color = .black)
      (sibling : Balanced frame.sibling d n) (outer : Around context .black (n + 1)) : Around (frame :: context) c n

theorem Balanced.color {tree : RbTree α} {c : Color} {n : Nat} (balanced : Balanced tree c n) : tree.color = c := by
  cases balanced <;> rfl

theorem Balanced.redBranch {near far : RbTree α} {n : Nat} (side : Side) (value : α) (onSide : Balanced near .black n)
    (opposite : Balanced far .black n) : Balanced (branch side .red value near far) .red n := by
  cases side
  · exact .red onSide opposite
  · exact .red opposite onSide

theorem Balanced.blackBranch {near far : RbTree α} {c d : Color} {n : Nat} (side : Side) (value : α)
    (onSide : Balanced near c n) (opposite : Balanced far d n) :
    Balanced (branch side .black value near far) .black (n + 1) := by
  cases side
  · exact .black onSide opposite
  · exact .black opposite onSide

theorem balanced_redBranch {near far : RbTree α} {value : α} {c : Color} {n : Nat} {side : Side} :
    Balanced (branch side .red value near far) c n ↔ c = .red ∧ Balanced near .black n ∧ Balanced far .black n := by
  constructor
  · intro balanced
    cases side
    all_goals
      cases balanced with
      | red onLeft onRight => first | exact ⟨rfl, onLeft, onRight⟩ | exact ⟨rfl, onRight, onLeft⟩
  · rintro ⟨rfl, onSide, opposite⟩
    exact .redBranch side value onSide opposite

theorem balanced_blackBranch {near far : RbTree α} {value : α} {c : Color} {n : Nat} {side : Side}
    (balanced : Balanced (branch side .black value near far) c n) :
    c = .black ∧ ∃ below c d, n = below + 1 ∧ Balanced near c below ∧ Balanced far d below := by
  cases side
  all_goals
    cases balanced with
    | black onLeft onRight =>
        first
          | exact ⟨rfl, _, _, _, rfl, onLeft, onRight⟩
          | exact ⟨rfl, _, _, _, rfl, onRight, onLeft⟩

theorem Balanced.blacken {tree : RbTree α} {n : Nat} (balanced : Balanced tree .red n) :
    Balanced (tree.paint .black) .black (n + 1) := by
  cases balanced with
  | red onLeft onRight => exact .black onLeft onRight

theorem Balanced.plug {context : List (Frame α)} {tree : RbTree α} {c : Color} {n : Nat} (balanced : Balanced tree c n)
    (around : Around context c n) : RedBlack (plug context tree) := by
  induction around generalizing tree with
  | top => exact ⟨_, balanced⟩
  | @red frame context n color sibling outer ih =>
      apply ih
      rw [Frame.attach, color]
      exact .redBranch frame.side frame.value balanced sibling
  | @black frame context c d n color sibling outer ih =>
      apply ih
      rw [Frame.attach, color]
      exact .blackBranch frame.side frame.value balanced sibling

theorem Around.fill {frame : Frame α} {context : List (Frame α)} {c : Color} {n : Nat}
    (around : Around (frame :: context) c n) (side : Side) (value : α) {near far : RbTree α}
    (onSide : Balanced near .black n) (opposite : Balanced far .black n) :
    RedBlack (RedBlackTree.plug context (branch side frame.color value near far)) := by
  cases around with
  | red color sibling outer =>
      rw [color]
      exact (onSide.redBranch side value opposite).plug outer
  | black color sibling outer =>
      rw [color]
      exact (onSide.blackBranch side value opposite).plug outer

theorem RedBlack.split {context : List (Frame α)} {tree : RbTree α} (redBlack : RedBlack (plug context tree)) :
    ∃ c n, Balanced tree c n ∧ Around context c n := by
  induction context generalizing tree with
  | nil =>
      obtain ⟨n, balanced⟩ := redBlack
      exact ⟨_, n, balanced, .top⟩
  | cons frame context ih =>
      obtain ⟨c, n, attached, around⟩ := ih redBlack
      obtain ⟨side, color, value, sibling⟩ := frame
      cases color with
      | red =>
          obtain ⟨rfl, onSide, opposite⟩ := balanced_redBranch.mp attached
          exact ⟨_, n, onSide, .red rfl opposite around⟩
      | black =>
          obtain ⟨rfl, below, c, d, rfl, onSide, opposite⟩ := balanced_blackBranch attached
          exact ⟨c, below, onSide, .black rfl opposite around⟩

theorem Around.soften {context : List (Frame α)} {c : Color} {n : Nat} (around : Around context c n) :
    Around context .black n := by
  cases around with
  | top => exact .top
  | red color sibling outer => exact .red color sibling outer
  | black color sibling outer => exact .black color sibling outer

theorem Around.under_red {context : List (Frame α)} {n : Nat} (around : Around context .red n) :
    ∃ frame outer d, context = frame :: outer ∧ frame.color = .black ∧ Balanced frame.sibling d n ∧
      Around outer .black (n + 1) := by
  cases around with
  | black color sibling outer => exact ⟨_, _, _, rfl, color, sibling, outer⟩

def Rooted (context : List (Frame α)) : Prop := ∀ frame ∈ context.getLast?, frame.color = .black

theorem Rooted.tail {frame : Frame α} {context : List (Frame α)} (rooted : Rooted (frame :: context)) :
    Rooted context := by
  cases context with
  | nil => nofun
  | cons next context => exact rooted

theorem Around.rooted {context : List (Frame α)} {c : Color} {n : Nat} (around : Around context c n) :
    Rooted context := by
  induction around with
  | top => nofun
  | @red frame context n color sibling outer ih =>
      obtain ⟨next, rest, -, rfl, -⟩ := outer.under_red
      exact ih
  | @black frame context c d n color sibling outer ih =>
      cases context with
      | nil =>
          intro last member
          simp only [List.getLast?_singleton, Option.mem_def, Option.some.injEq] at member
          rw [← member]
          exact color
      | cons next rest => exact ih

theorem Balanced.two_pow_le {tree : RbTree α} {c : Color} {n : Nat} (balanced : Balanced tree c n) :
    2 ^ n ≤ tree.toList.length + 1 := by
  induction balanced with
  | leaf => simp [toList]
  | red onLeft onRight ihLeft ihRight =>
      simp only [toList, List.length_append, List.length_cons]
      omega
  | black onLeft onRight ihLeft ihRight =>
      simp only [toList, List.length_append, List.length_cons, Nat.pow_succ]
      omega

theorem Balanced.height_le {tree : RbTree α} {c : Color} {n : Nat} (balanced : Balanced tree c n) :
    tree.height ≤ 2 * n + (if c = .red then 1 else 0) := by
  induction balanced with
  | leaf => simp [height]
  | red onLeft onRight ihLeft ihRight =>
      simp only [height, reduceCtorEq, if_false, if_true] at *
      omega
  | @black left right value c d n onLeft onRight ihLeft ihRight =>
      simp only [height, reduceCtorEq, if_false]
      have one (e : Color) : (if e = .red then 1 else 0) ≤ 1 := by split <;> omega
      have oneLeft := one c
      have oneRight := one d
      omega

theorem RedBlack.blacken {tree : RbTree α} (redBlack : RedBlack tree) : RedBlack (tree.paint .black) := by
  obtain ⟨n, balanced⟩ := redBlack
  have same := tree.paint_color
  rw [balanced.color] at same
  exact ⟨n, by rwa [same]⟩

theorem RedBlack.height_le {tree : RbTree α} (redBlack : RedBlack tree) :
    tree.height ≤ 2 * Nat.log 2 (tree.toList.length + 1) := by
  obtain ⟨n, balanced⟩ := redBlack
  have deep : tree.height ≤ 2 * n := by simpa using balanced.height_le
  have wide : n ≤ Nat.log 2 (tree.toList.length + 1) :=
    Nat.le_log_of_pow_le (by omega) balanced.two_pow_le
  omega

end CppInfra.RedBlackTree
