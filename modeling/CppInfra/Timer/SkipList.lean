import CppInfra.Shared.LinkedChain
import Mathlib.Data.Int.ModEq

set_option autoImplicit false

namespace CppInfra.Timer.SkipList

open LinkedChain

def zskiplistMaxlevel : Nat := 32

structure ZskiplistNode (H : Type) where
  score : Nat
  handler : H
  forward : List (Option Nat)

-- `nodes` is the memory of the list: nodes are numbered as they are created, a freed node is gone.
-- `length` is an `int`.
structure Zskiplist (H : Type) where
  nodes : Nat → Option (ZskiplistNode H)
  allocated : Nat
  header : Nat
  length : Int
  level : Nat

variable {H : Type}

-- `malloc` leaves the forward pointers of a new node unset; every one is written before it is read.
def zslCreateNode (zsl : Zskiplist H) (level score : Nat) (func : H) : Nat × Zskiplist H :=
  (zsl.allocated,
    { zsl with
      nodes := Function.update zsl.nodes zsl.allocated (some ⟨score, func, List.replicate level none⟩)
      allocated := zsl.allocated + 1 })

def zslCreate (defaultHandler : H) : Zskiplist H :=
  { nodes := Function.update (fun _ => none) 0
      (some ⟨0, defaultHandler, List.replicate zskiplistMaxlevel none⟩)
    allocated := 1
    header := 0
    length := 0
    level := 1 }

-- `x->level[i].forward`
def Zskiplist.forward (zsl : Zskiplist H) (i x : Nat) : Option (Option Nat) := do
  let node ← zsl.nodes x
  node.forward[i]?

def ZskiplistNode.withForward (node : ZskiplistNode H) (i : Nat) (value : Option Nat) : ZskiplistNode H :=
  { node with forward := node.forward.set i value }

-- `x->level[i].forward = value`
def Zskiplist.setForward (zsl : Zskiplist H) (i x : Nat) (value : Option Nat) : Option (Zskiplist H) := do
  let node ← zsl.nodes x
  if i < node.forward.length then
    some { zsl with nodes := Function.update zsl.nodes x (some (node.withForward i value)) }
  else none

def Zskiplist.score (zsl : Zskiplist H) (x : Nat) : Option Nat := do
  let node ← zsl.nodes x
  some node.score

-- `length += change`; leaving the range of `int` is undefined.
def Zskiplist.addLength (zsl : Zskiplist H) (change : Int) : Option (Zskiplist H) :=
  if -2 ^ 31 ≤ zsl.length + change ∧ zsl.length + change < 2 ^ 31 then
    some { zsl with length := zsl.length + change }
  else none

-- `ZSKIPLIST_P * 0xFFFF` is 16383.75. `draws` are the results of `rand()`; the loop ends at the first that
-- is too large.
def zslRandomLevel (draws : List Nat) : Nat :=
  let level := 1 + (draws.takeWhile fun draw => draw % 2 ^ 16 < 16384).length
  if level < zskiplistMaxlevel then level else zskiplistMaxlevel

-- The inner loop of the search. There are never more turns than nodes.
def walk (zsl : Zskiplist H) (i score : Nat) : Nat → Nat → Option Nat
  | 0, _ => none
  | turns + 1, x => do
      match ← zsl.forward i x with
      | none => some x
      | some next =>
          let nextScore ← zsl.score next
          if nextScore < score then walk zsl i score turns next else some x

-- The search that `zslInsert` and `zslDelete` begin with, for the levels below `i`: where it ends, and
-- `update[0..i-1]`.
def search (zsl : Zskiplist H) (score : Nat) : Nat → Nat → Option (Nat × List Nat)
  | 0, x => some (x, [])
  | i + 1, x => do
      let x ← walk zsl i score (zsl.allocated + 1) x
      let (last, update) ← search zsl score i x
      some (last, update ++ [x])

def link (update : List Nat) (x : Nat) (zsl : Zskiplist H) (i : Nat) : Option (Zskiplist H) := do
  let before ← update[i]?
  let after ← zsl.forward i before
  let zsl ← zsl.setForward i x after
  zsl.setForward i before (some x)

def zslInsert (zsl : Zskiplist H) (score : Nat) (func : H) (draws : List Nat) : Option (Nat × Zskiplist H) := do
  let (_, update) ← search zsl score zsl.level zsl.header
  let level := zslRandomLevel draws
  let update := update ++ List.replicate (level - zsl.level) zsl.header
  let zsl := if level > zsl.level then { zsl with level := level } else zsl
  let (x, zsl) := zslCreateNode zsl level score func
  let zsl ← (List.range level).foldlM (link update x) zsl
  let zsl ← zsl.addLength 1
  some (x, zsl)

def zslMin (zsl : Zskiplist H) : Option (Option Nat) := zsl.forward 0 zsl.header

def unlink (before x : Nat) (zsl : Zskiplist H) (i : Nat) : Option (Zskiplist H) := do
  let after ← zsl.forward i before
  if after = some x then
    let behind ← zsl.forward i x
    zsl.setForward i before behind
  else some zsl

-- `while (zsl->level > 1 && zsl->header->level[zsl->level-1].forward == NULL) zsl->level--`
def lowerLevel (zsl : Zskiplist H) : Nat → Option (Zskiplist H)
  | 0 => some { zsl with level := 0 }
  | level + 1 =>
      if level + 1 > 1 then do
        let top ← zsl.forward level zsl.header
        if top = none then lowerLevel zsl level else some { zsl with level := level + 1 }
      else some { zsl with level := level + 1 }

def zslDeleteHead (zsl : Zskiplist H) : Option (Zskiplist H) := do
  match ← zslMin zsl with
  | none => some zsl
  | some x =>
      let zsl ← (List.range zsl.level).reverse.foldlM (unlink zsl.header x) zsl
      let zsl ← lowerLevel zsl zsl.level
      zsl.addLength (-1)

def zslDeleteNode (zsl : Zskiplist H) (x : Nat) (update : List Nat) : Option (Zskiplist H) := do
  let zsl ← (List.range zsl.level).foldlM
    (fun zsl i => do
      let before ← update[i]?
      unlink before x zsl i) zsl
  let zsl ← lowerLevel zsl zsl.level
  zsl.addLength (-1)

def zslDelete (zsl : Zskiplist H) (zn : Nat) : Option (Zskiplist H) := do
  let score ← zsl.score zn
  let (last, update) ← search zsl score zsl.level zsl.header
  match ← zsl.forward 0 last with
  | none => some zsl
  | some x =>
      let xScore ← zsl.score x
      if score = xScore then
        let zsl ← zslDeleteNode zsl x update
        some { zsl with nodes := Function.update zsl.nodes x none }
      else some zsl

end CppInfra.Timer.SkipList
