import CppInfra.AtomicLock.SharedPtr

set_option autoImplicit false

namespace CppInfra.AtomicLock.SharedPtrHeap

open Words Holders SharedPtr

inductive Handle where
  | root (x : Nat)
  | field (o i : Nat)
  deriving DecidableEq

def Handle.owner : Handle → Option Nat
  | .root _ => none
  | .field o _ => some o

-- `live` are the handles in memory that was not freed, those of an object in the order of their declarations;
-- `objects` and `counters` were allocated and not deleted. A counter is called as the object it was made for.
structure Heap where
  cells : Handle → Cell
  live : List Handle
  objects : List Nat
  counters : List Nat
  count : Nat → Nat

-- `fuel` bounds how deep destructors nest; `dangling` is an access to memory that was freed.
inductive Fault where
  | fuel
  | dangling
  deriving DecidableEq

def Heap.holding (m : Heap) (h : Handle) : Option Nat := (m.cells h).ptr

def Heap.fields (m : Heap) (u : Nat) : List Handle := m.live.filter fun h => h.owner = some u

def destroyFields (release : Heap → Handle → Except Fault Heap) : Heap → List Handle → Except Fault Heap
  | m, [] => .ok m
  | m, h :: rest => (release m h).bind fun m => destroyFields release m rest

def Heap.remove (m : Heap) (u : Nat) : Heap :=
  { m with objects := m.objects.filter (· ≠ u), live := m.live.filter fun h => h.owner ≠ some u }

-- `delete ptr_`: the members are destroyed in reverse order, then the memory is freed.
def deletePtr (release : Heap → Handle → Except Fault Heap) (m : Heap) : Option Nat → Except Fault Heap
  | none => .ok m
  | some u =>
      if u ∈ m.objects then (destroyFields release m (m.fields u).reverse).map fun m => m.remove u
      else .error .dangling

def deleteCount (m : Heap) : Option Nat → Except Fault Heap
  | none => .ok m
  | some c =>
      if c ∈ m.counters then .ok { m with counters := m.counters.filter (· ≠ c) } else .error .dangling

-- `this` is read again for `delete ref_count_`.
def release : Nat → Heap → Handle → Except Fault Heap
  | 0, _, _ => .error .fuel
  | fuel + 1, m, this =>
      if this ∈ m.live then
        match (m.cells this).refCount with
        | none => .ok m
        | some c =>
            if c ∈ m.counters then
              let counted := { m with count := Function.update m.count c (sub 64 (m.count c) 1) }
              if m.count c = 1 then
                (deletePtr (release fuel) counted (m.cells this).ptr).bind fun m =>
                  if this ∈ m.live then deleteCount m (m.cells this).refCount else .error .dangling
              else .ok counted
            else .error .dangling
      else .error .dangling

def addCount (m : Heap) : Option Nat → Except Fault Heap
  | none => .ok m
  | some c =>
      if c ∈ m.counters then .ok { m with count := Function.update m.count c (add 64 (m.count c) 1) }
      else .error .dangling

-- The copy assignment, and the move assignment.
def assign (move : Bool) (fuel : Nat) (m : Heap) (this other : Handle) : Except Fault Heap :=
  if this = other then .ok m
  else
    (release fuel m this).bind fun m =>
      if this ∈ m.live ∧ other ∈ m.live then
        let taken := { m with cells := Function.update m.cells this (m.cells other) }
        if move then .ok { taken with cells := Function.update taken.cells other ⟨none, none⟩ }
        else addCount taken (taken.cells this).refCount
      else .error .dangling

structure Exact (m : Heap) : Prop where
  once : m.live.Nodup
  owners : ∀ h ∈ m.live, ∀ o, h.owner = some o → o ∈ m.objects
  linked : ∀ h ∈ m.live, m.cells h = ⟨none, none⟩ ∨ ∃ u ∈ m.objects, m.cells h = ⟨some u, some u⟩
  counted : ∀ u ∈ m.objects, u ∈ m.counters ∧ m.count u = Holders.count m.holding m.live u
  few : m.live.length < 2 ^ 64

-- The objects that `release()` of `a` destroys: nobody holds them but `a` and members of such objects.
inductive Dies (m : Heap) (a : Handle) : Nat → Prop where
  | intro {u : Nat} (held : ∃ h ∈ m.live, m.holding h = some u)
      (roots : ∀ h ∈ m.live, m.holding h = some u → h ≠ a → h.owner ≠ none)
      (fields : ∀ h ∈ m.live, m.holding h = some u → h ≠ a → ∀ o, h.owner = some o → Dies m a o) : Dies m a u

end CppInfra.AtomicLock.SharedPtrHeap
