import CppInfra.Shared.BinaryHeap
import CppInfra.Shared.Words

set_option autoImplicit false

namespace CppInfra.Timer.MinHeap

open BinaryHeap Words

-- `p` is the block of `a` cells that the heap owns; a cell that was never written holds nothing. `time`
-- and `minHeapIdx` are the fields of the entries.
structure Heap (E : Type) where
  p : Nat → Option E
  n : Nat
  a : Nat
  time : E → Nat
  minHeapIdx : E → Nat

-- -1 in a `uint32_t`
def absent : Nat := 2 ^ 32 - 1

variable {E : Type} [DecidableEq E]

-- `s->p[i]`, with no value outside the block
def Heap.load (s : Heap E) (i : Nat) : Option E := if i < s.a then s.p i else none

-- `(s->p[i] = e)->min_heap_idx = i`
def Heap.place (s : Heap E) (i : Nat) (e : E) : Option (Heap E) :=
  if i < s.a then
    some { s with
      p := Function.update s.p i (some e)
      minHeapIdx := Function.update s.minHeapIdx e i }
  else none

def minHeapElemGreater (s : Heap E) (x y : E) : Bool := decide (s.time x > s.time y)

def minHeapCtor (time minHeapIdx : E → Nat) : Heap E :=
  { p := fun _ => none, n := 0, a := 0, time := time, minHeapIdx := minHeapIdx }

-- `e->time = time`, done by the caller of `min_heap_adjust_`
def Heap.setTime (s : Heap E) (e : E) (time : Nat) : Heap E :=
  { s with time := Function.update s.time e time }

def parentOf (holeIndex : Nat) : Nat := sub 32 holeIndex 1 / 2

-- The index shrinks every turn, so it bounds their number.
def shiftUpTurns : Nat → Heap E → Nat → E → Option (Heap E)
  | 0, _, _, _ => none
  | turns + 1, s, holeIndex, e => do
      if holeIndex = 0 then s.place holeIndex e
      else
        let above ← s.load (parentOf holeIndex)
        if minHeapElemGreater s above e then
          let s ← s.place holeIndex above
          shiftUpTurns turns s (parentOf holeIndex) e
        else s.place holeIndex e

def minHeapShiftUp (s : Heap E) (holeIndex : Nat) (e : E) : Option (Heap E) :=
  shiftUpTurns (holeIndex + 1) s holeIndex e

-- After its first turn the `do` loop tests what `min_heap_shift_up_` tests.
def minHeapShiftUpUnconditional (s : Heap E) (holeIndex : Nat) (e : E) : Option (Heap E) := do
  let above ← s.load (parentOf holeIndex)
  let s ← s.place holeIndex above
  minHeapShiftUp s (parentOf holeIndex) e

-- `min_child -= min_child == s->n || min_heap_elem_greater(...)`
def leastChild (s : Heap E) (minChild : Nat) : Option Nat :=
  if minChild = s.n then some (sub 32 minChild 1)
  else do
    let right ← s.load minChild
    let left ← s.load (sub 32 minChild 1)
    some (if minHeapElemGreater s right left then sub 32 minChild 1 else minChild)

def shiftDownTurns : Nat → Heap E → Nat → E → Option (Heap E)
  | 0, _, _, _ => none
  | turns + 1, s, holeIndex, e => do
      let minChild := 2 * (holeIndex + 1) % 2 ^ 32
      if minChild ≤ s.n then
        let minChild ← leastChild s minChild
        let child ← s.load minChild
        if minHeapElemGreater s e child then
          let s ← s.place holeIndex child
          shiftDownTurns turns s minChild e
        else s.place holeIndex e
      else s.place holeIndex e

-- As long as no index wraps, the holes of one call are different.
def minHeapShiftDown (s : Heap E) (holeIndex : Nat) (e : E) : Option (Heap E) :=
  shiftDownTurns (2 ^ 32) s holeIndex e

def minHeapReserve (s : Heap E) (n : Nat) (realloc : Bool) : Int × Heap E :=
  if s.a < n then
    let a := if s.a ≠ 0 then s.a * 2 % 2 ^ 32 else 8
    let a := if a < n then n else a
    if realloc then (0, { s with a := a }) else (-1, s)
  else (0, s)

def minHeapPush (s : Heap E) (e : E) (realloc : Bool) : Option (Int × Heap E) := do
  let (failed, s) := minHeapReserve s (add 32 s.n 1) realloc
  if failed ≠ 0 then some (-1, s)
  else
    let s ← minHeapShiftUp { s with n := add 32 s.n 1 } s.n e
    some (0, s)

def minHeapTop (s : Heap E) : Option E := if s.n ≠ 0 then s.load 0 else none

def minHeapPop (s : Heap E) : Option (Option E × Heap E) := do
  if s.n ≠ 0 then
    let e ← s.load 0
    let last ← s.load (s.n - 1)
    let s ← minHeapShiftDown { s with n := s.n - 1 } 0 last
    some (some e, { s with minHeapIdx := Function.update s.minHeapIdx e absent })
  else some (none, s)

-- The choice that `min_heap_erase_` and `min_heap_adjust_` make for the entry put in the hole.
def shiftEither (s : Heap E) (holeIndex : Nat) (e : E) : Option (Heap E) := do
  let up ←
    if 0 < holeIndex then do
      let above ← s.load (parentOf holeIndex)
      some (minHeapElemGreater s above e)
    else some false
  if up then minHeapShiftUpUnconditional s holeIndex e else minHeapShiftDown s holeIndex e

def minHeapErase (s : Heap E) (e : E) : Option (Int × Heap E) := do
  if s.minHeapIdx e ≠ absent then
    let n := sub 32 s.n 1
    let last ← s.load n
    let s ← shiftEither { s with n := n } (s.minHeapIdx e) last
    some (0, { s with minHeapIdx := Function.update s.minHeapIdx e absent })
  else some (-1, s)

def minHeapAdjust (s : Heap E) (e : E) (realloc : Bool) : Option (Int × Heap E) := do
  if s.minHeapIdx e = absent then minHeapPush s e realloc
  else
    let s ← shiftEither s (s.minHeapIdx e) e
    some (0, s)

theorem parentOf_eq {i : Nat} (positive : 0 < i) (word : i < 2 ^ 32) : parentOf i = parent i := by
  rw [parentOf, sub_exact (by omega) word, parent]

structure Holed (s : Heap E) (hole : Nat) (e : E) : Prop where
  others : ∀ i < s.n, i ≠ hole → ∃ x, s.p i = some x ∧ s.minHeapIdx x = i ∧ x ≠ e
  inside : hole < s.a
  size : s.n ≤ s.a
  word : s.a < 2 ^ 32

def filled (s : Heap E) (hole : Nat) (e : E) : Nat → Option E := Function.update s.p hole (some e)

structure Sifted (s : Heap E) (hole : Nat) (e : E) (t : Heap E) : Prop where
  n : t.n = s.n
  a : t.a = s.a
  time : t.time = s.time
  entries : ∀ i < s.n, ∃ x, t.p i = some x ∧ t.minHeapIdx x = i
  content : (stored t.p s.n).Perm (stored (filled s hole e) s.n)
  frame : ∀ x, x ∉ stored (filled s hole e) s.n → x ≠ e → t.minHeapIdx x = s.minHeapIdx x
  ordered : Ordered s.time t.p s.n

end CppInfra.Timer.MinHeap
