import CppInfra.Shared.RedBlackFix
import CppInfra.Shared.Words

set_option autoImplicit false

namespace CppInfra.Timer.Rbtree

open RedBlackTree Words

-- The fields of the nodes by the address of the node, and those of the tree. The address 0 is NULL.
structure Memory where
  key : Nat → Nat
  link : Side → Nat → Nat
  parent : Nat → Nat
  color : Nat → Color
  root : Nat
  sentinel : Nat

namespace Memory

def withLink (memory : Memory) (side : Side) (node value : Nat) : Memory :=
  { memory with link := fun s x => if x = node ∧ s = side then value else memory.link s x }

def withParent (memory : Memory) (node value : Nat) : Memory :=
  { memory with parent := Function.update memory.parent node value }

def withColor (memory : Memory) (node : Nat) (value : Color) : Memory :=
  { memory with color := Function.update memory.color node value }

def withKey (memory : Memory) (node value : Nat) : Memory :=
  { memory with key := Function.update memory.key node value }

def withRoot (memory : Memory) (value : Nat) : Memory :=
  { memory with root := value }

end Memory

def deref {β : Type} (field : Nat → β) (node : Nat) : Option β :=
  if node = 0 then none else some (field node)

def setLink (memory : Memory) (side : Side) (node value : Nat) : Option Memory :=
  if node = 0 then none else some (memory.withLink side node value)

def setParent (memory : Memory) (node value : Nat) : Option Memory :=
  if node = 0 then none else some (memory.withParent node value)

def setColor (memory : Memory) (node : Nat) (value : Color) : Option Memory :=
  if node = 0 then none else some (memory.withColor node value)

def setKey (memory : Memory) (node value : Nat) : Option Memory :=
  if node = 0 then none else some (memory.withKey node value)

def ngxRbtreeInit (memory : Memory) (sentinel : Nat) : Option Memory := do
  let memory ← setColor memory sentinel .black
  some { memory with root := sentinel, sentinel := sentinel }

-- `if (child != sentinel) child->parent = node`
def adopt (memory : Memory) (child node : Nat) : Option Memory :=
  if child = memory.sentinel then some memory else setParent memory child node

-- `temp` takes the place of `node` below `up`; the child on `side` is looked at first.
def relink (side : Side) (memory : Memory) (up node temp : Nat) : Option Memory := do
  if node = (← deref (memory.link side) up) then setLink memory side up temp
  else setLink memory side.other up temp

def replaceChild (side : Side) (memory : Memory) (node temp : Nat) : Option Memory :=
  if node = memory.root then some (memory.withRoot temp)
  else do
    let up ← deref memory.parent node
    relink side memory up node temp

-- The two rotations are mirror images: `side` is where the node goes down.
def rotate (side : Side) (memory : Memory) (node : Nat) : Option Memory := do
  let temp ← deref (memory.link side.other) node
  let inner ← deref (memory.link side) temp
  let memory ← setLink memory side.other node inner
  let memory ← adopt memory inner node
  let memory ← setParent memory temp (← deref memory.parent node)
  let memory ← replaceChild side memory node temp
  let memory ← setLink memory side temp node
  setParent memory node temp

def ngxRbtreeLeftRotate : Memory → Nat → Option Memory := rotate .left

def ngxRbtreeRightRotate : Memory → Nat → Option Memory := rotate .right

def ngxRbtreeMin : Nat → Memory → Nat → Option Nat
  | 0, _, _ => none
  | turns + 1, memory, node => do
      let left ← deref (memory.link .left) node
      if left = memory.sentinel then some node else ngxRbtreeMin turns memory left

-- The common text of `ngx_rbtree_insert_value` and `ngx_rbtree_insert_timer_value`.
def insertBy (less : Nat → Nat → Bool) : Nat → Memory → Nat → Nat → Option Memory
  | 0, _, _, _ => none
  | turns + 1, memory, temp, node => do
      let side := if less (← deref memory.key node) (← deref memory.key temp) then Side.left else Side.right
      let p ← deref (memory.link side) temp
      if p = memory.sentinel then do
        let memory ← setLink memory side temp node
        let memory ← setParent memory node temp
        let memory ← setLink memory .left node memory.sentinel
        let memory ← setLink memory .right node memory.sentinel
        setColor memory node .red
      else insertBy less turns memory p node

def ngxRbtreeInsertValue : Nat → Memory → Nat → Nat → Option Memory :=
  insertBy fun node temp => node < temp

-- `(ngx_rbtree_key_int_t) (node->key - temp->key) < 0`
def timerLess (node temp : Nat) : Bool := toSigned 32 (sub 32 node temp) < 0

def ngxRbtreeInsertTimerValue : Nat → Memory → Nat → Nat → Option Memory :=
  insertBy timerLess

-- The last three statements of a turn of `ngx_rbtree_insert` that finds a black uncle.
def insertRotate (side : Side) (memory : Memory) (node : Nat) : Option Memory := do
  let parent ← deref memory.parent node
  let memory ← setColor memory parent .black
  let grandparent ← deref memory.parent parent
  let memory ← setColor memory grandparent .red
  rotate side.other memory grandparent

-- One turn of the loop of `ngx_rbtree_insert`, where the parent is the child of the grandparent on `side`.
def insertTurn (side : Side) (memory : Memory) (node : Nat) : Option (Memory × Nat) := do
  let parent ← deref memory.parent node
  let grandparent ← deref memory.parent parent
  let temp ← deref (memory.link side.other) grandparent
  if (← deref memory.color temp) = .red then do
    let memory ← setColor memory parent .black
    let memory ← setColor memory temp .black
    let memory ← setColor memory grandparent .red
    some (memory, grandparent)
  else do
    let (memory, node) ←
      if node = (← deref (memory.link side.other) parent) then do
        let memory ← rotate side memory parent
        some (memory, parent)
      else some (memory, node)
    let memory ← insertRotate side memory node
    some (memory, node)

def insertLoop : Nat → Memory → Nat → Option Memory
  | 0, _, _ => none
  | turns + 1, memory, node =>
      if node = memory.root then some memory
      else do
        let parent ← deref memory.parent node
        if (← deref memory.color parent) = .black then some memory
        else do
          let grandparent ← deref memory.parent parent
          let side := if parent = (← deref (memory.link .left) grandparent) then Side.left else Side.right
          let (memory, node) ← insertTurn side memory node
          insertLoop turns memory node

def ngxRbtreeInsert (insert : Nat → Memory → Nat → Nat → Option Memory) (turns : Nat) (memory : Memory)
    (node : Nat) : Option Memory :=
  if memory.root = memory.sentinel then do
    let memory ← setParent memory node 0
    let memory ← setLink memory .left node memory.sentinel
    let memory ← setLink memory .right node memory.sentinel
    let memory ← setColor memory node .black
    some (memory.withRoot node)
  else do
    let memory ← insert turns memory memory.root node
    let memory ← insertLoop turns memory node
    setColor memory memory.root .black

-- `ngx_rbt_is_black(w->left) && ngx_rbt_is_black(w->right)`
def childrenBlack (memory : Memory) (w : Nat) : Option Bool := do
  if (← deref memory.color (← deref (memory.link .left) w)) = .black then
    let right ← deref memory.color (← deref (memory.link .right) w)
    some (right = .black)
  else some false

-- The lines of a turn for a red sibling, and the sibling after them.
def rotateSibling (side : Side) (memory : Memory) (temp w : Nat) : Option (Memory × Nat) := do
  let memory ← setColor memory w .black
  let parent ← deref memory.parent temp
  let memory ← setColor memory parent .red
  let memory ← rotate side memory parent
  let w ← deref (memory.link side.other) (← deref memory.parent temp)
  some (memory, w)

-- The lines that leave a red child on the far side of the sibling.
def turnNephew (side : Side) (memory : Memory) (temp w : Nat) : Option (Memory × Nat) := do
  let memory ← setColor memory (← deref (memory.link side) w) .black
  let memory ← setColor memory w .red
  let memory ← rotate side.other memory w
  let w ← deref (memory.link side.other) (← deref memory.parent temp)
  some (memory, w)

-- The last lines of a turn whose sibling has a red child.
def mendRotate (side : Side) (memory : Memory) (temp w : Nat) : Option Memory := do
  let parent ← deref memory.parent temp
  let memory ← setColor memory w (← deref memory.color parent)
  let memory ← setColor memory parent .black
  let memory ← setColor memory (← deref (memory.link side.other) w) .black
  rotate side memory parent

def mendSibling (side : Side) (memory : Memory) (temp w : Nat) : Option Memory := do
  let (memory, w) ←
    if (← deref memory.color (← deref (memory.link side.other) w)) = .black then turnNephew side memory temp w
    else some (memory, w)
  mendRotate side memory temp w

-- The second half of a turn, when the sibling `w` is black.
def blackSibling (side : Side) (memory : Memory) (temp w : Nat) : Option (Memory × Nat) := do
  if ← childrenBlack memory w then do
    let memory ← setColor memory w .red
    let parent ← deref memory.parent temp
    some (memory, parent)
  else do
    let memory ← mendSibling side memory temp w
    some (memory, memory.root)

-- One turn of the delete fix-up, where `temp` is the child of its parent on `side`.
def deleteTurn (side : Side) (memory : Memory) (temp : Nat) : Option (Memory × Nat) := do
  let w ← deref (memory.link side.other) (← deref memory.parent temp)
  let (memory, w) ←
    if (← deref memory.color w) = .red then rotateSibling side memory temp w else some (memory, w)
  blackSibling side memory temp w

def deleteLoop : Nat → Memory → Nat → Option Memory
  | 0, _, _ => none
  | turns + 1, memory, temp =>
      if temp = memory.root then setColor memory temp .black
      else do
        if (← deref memory.color temp) = .red then setColor memory temp .black
        else do
          let left ← deref (memory.link .left) (← deref memory.parent temp)
          let side := if temp = left then Side.left else Side.right
          let (memory, temp) ← deleteTurn side memory temp
          deleteLoop turns memory temp

-- The lines marked as debugging.
def clear (memory : Memory) (node : Nat) : Option Memory := do
  let memory ← setLink memory .left node 0
  let memory ← setLink memory .right node 0
  let memory ← setParent memory node 0
  setKey memory node 0

-- The node to take out of its place, and the child that takes that place.
def chooseSubst (turns : Nat) (memory : Memory) (node : Nat) : Option (Nat × Nat) := do
  let left ← deref (memory.link .left) node
  let right ← deref (memory.link .right) node
  if left = memory.sentinel then some (node, right)
  else if right = memory.sentinel then some (node, left)
  else do
    let subst ← ngxRbtreeMin turns memory right
    let left ← deref (memory.link .left) subst
    if left = memory.sentinel then some (subst, ← deref (memory.link .right) subst) else some (subst, left)

-- `subst` takes the place, the children and the colour of `node`.
def takePlace (memory : Memory) (subst node : Nat) : Option Memory := do
  let memory ← setLink memory .left subst (← deref (memory.link .left) node)
  let memory ← setLink memory .right subst (← deref (memory.link .right) node)
  let memory ← setParent memory subst (← deref memory.parent node)
  let memory ← setColor memory subst (← deref memory.color node)
  let memory ← replaceChild .left memory node subst
  let memory ← adopt memory (← deref (memory.link .left) subst) subst
  adopt memory (← deref (memory.link .right) subst) subst

def ngxRbtreeDelete (turns : Nat) (memory : Memory) (node : Nat) : Option Memory := do
  let (subst, temp) ← chooseSubst turns memory node
  if subst = memory.root then do
    let memory ← setColor (memory.withRoot temp) temp .black
    clear memory node
  else do
    let color ← deref memory.color subst
    let up ← deref memory.parent subst
    let memory ← relink .left memory up subst temp
    let memory ←
      if subst = node then setParent memory temp (← deref memory.parent subst)
      else do
        let up ← deref memory.parent subst
        let memory ← setParent memory temp (if up = node then subst else up)
        takePlace memory subst node
    let memory ← clear memory node
    if color = .red then some memory else deleteLoop turns memory temp

-- The climb of `ngx_rbtree_next`; the answer 0 is NULL.
def climb : Nat → Memory → Nat → Option Nat
  | 0, _, _ => none
  | turns + 1, memory, node => do
      let parent ← deref memory.parent node
      if node = memory.root then some 0
      else if node = (← deref (memory.link .left) parent) then some parent
      else climb turns memory parent

def ngxRbtreeNext (turns : Nat) (memory : Memory) (node : Nat) : Option Nat := do
  let right ← deref (memory.link .right) node
  if right = memory.sentinel then climb turns memory node else ngxRbtreeMin turns memory right

end CppInfra.Timer.Rbtree
