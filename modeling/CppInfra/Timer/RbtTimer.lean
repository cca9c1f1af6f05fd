import CppInfra.Shared.Words
import Mathlib.Data.List.Perm.Basic

set_option autoImplicit false

namespace CppInfra.Timer.RbtTimer

open Words

structure TimerEntry where
  key : Nat
  id : Nat
  deriving DecidableEq, Repr

inductive Tree where
  | sentinel
  | node (left : Tree) (entry : TimerEntry) (right : Tree)
  deriving DecidableEq, Repr

def Tree.order : Tree → List TimerEntry
  | .sentinel => []
  | .node left entry right => left.order ++ entry :: right.order

-- `(ngx_rbtree_key_int_t) (node->key - temp->key) < 0`
def before (node temp : TimerEntry) : Bool := decide (toSigned 32 (sub 32 node.key temp.key) < 0)

def ngxRbtreeInsertTimerValue : Tree → TimerEntry → Tree
  | .sentinel, node => .node .sentinel node .sentinel
  | .node left temp right, node =>
      if before node temp then .node (ngxRbtreeInsertTimerValue left node) temp right
      else .node left temp (ngxRbtreeInsertTimerValue right node)

def ngxRbtreeMin : Tree → Option TimerEntry
  | .sentinel => none
  | .node .sentinel entry _ => some entry
  | .node (.node left entry right) _ _ => ngxRbtreeMin (.node left entry right)

-- The re-balancing of `ngx_rbtree_insert` and all of `ngx_rbtree_delete` are known only by what they do to
-- the order of the nodes.
structure Nginx where
  balance : Tree → Tree
  delete : Tree → TimerEntry → Tree
  balance_order : ∀ tree, (balance tree).order = tree.order
  delete_order : ∀ tree entry, entry ∈ tree.order → (delete tree entry).order = tree.order.erase entry

def ngxRbtreeInsert (nginx : Nginx) (tree : Tree) (node : TimerEntry) : Tree :=
  match tree with
  | .sentinel => .node .sentinel node .sentinel
  | tree => nginx.balance (ngxRbtreeInsertTimerValue tree node)

def addTimer (nginx : Nginx) (tree : Tree) (msec currentTime id : Nat) : Tree :=
  ngxRbtreeInsert nginx tree { key := add 32 msec currentTime, id := id }

def delTimer (nginx : Nginx) (tree : Tree) (te : TimerEntry) : Tree := nginx.delete tree te

-- The handlers that ran, in order, and the tree that is left. A handler does not touch the tree.
def expireTimer (nginx : Nginx) (now : Nat) : Nat → Tree → Option (List TimerEntry × Tree)
  | 0, _ => none
  | turns + 1, tree =>
      match ngxRbtreeMin tree with
      | none => some ([], tree)
      | some node =>
          if node.key > now then some ([], tree)
          else do
            let (ran, rest) ← expireTimer nginx now turns (nginx.delete tree node)
            some (node :: ran, rest)

theorem ngxRbtreeMin_eq (tree : Tree) : ngxRbtreeMin tree = tree.order.head? := by
  induction tree using ngxRbtreeMin.induct with
  | case1 => rfl
  | case2 entry right => rfl
  | case3 left entry right other rest ih =>
      rw [ngxRbtreeMin, ih]
      simp [Tree.order]

def remaining (now : Nat) (entry : TimerEntry) : Int := toSigned 32 (sub 32 entry.key now)

-- The keys as the insertion compares them. `ngx_rbtree_insert_timer_value` leaves no node in front of one that
-- it takes to be smaller.
def Placed (order : List TimerEntry) : Prop :=
  order.Pairwise fun first second => before second first = false

theorem remaining_cases {now : Nat} {entry : TimerEntry} (key : entry.key < 2 ^ 32) (word : now < 2 ^ 32) :
    -2 ^ 31 ≤ remaining now entry ∧ remaining now entry < 2 ^ 31 ∧
      ((entry.key : Int) = now + remaining now entry ∨ (entry.key : Int) = now + remaining now entry - 2 ^ 32 ∨
        (entry.key : Int) = now + remaining now entry + 2 ^ 32) := by
  have cases := toSigned_cases 32 (sub 32 entry.key now)
  rw [remaining]
  rw [sub] at cases ⊢
  omega

theorem before_iff {x y : TimerEntry} :
    before x y = true ↔ remaining y.key x < 0 := by
  simp [before, remaining]

theorem before_window {now : Nat} {x y : TimerEntry} (word : now < 2 ^ 32) (left : x.key < 2 ^ 32)
    (right : y.key < 2 ^ 32) (narrow : remaining now x - remaining now y < 2 ^ 31)
    (wide : -2 ^ 31 ≤ remaining now x - remaining now y) :
    before x y = true ↔ remaining now x < remaining now y := by
  rw [before_iff]
  have keyX := remaining_cases left word
  have keyY := remaining_cases right word
  have gap := remaining_cases left right
  omega

end CppInfra.Timer.RbtTimer
