import CppInfra.Shared.ByteMemory
import CppInfra.Shared.Transition

set_option autoImplicit false

namespace CppInfra.MemPool.MpPool

open Words Transition ByteMemory

def mpAlignment : Nat := 32

def mpMaxAllocFromPool : Nat := 4095

def sizeofLarge : Nat := 16

def sizeofNode : Nat := 32

def sizeofPool : Nat := 24

-- The low bits are cleared; the alignment is a power of two.
def mpAlignPtr (p alignment : Nat) : Nat := add 64 p (alignment - 1) / alignment * alignment

structure Large where
  next : Nat
  alloc : Nat
  deriving DecidableEq

structure Node where
  last : Nat
  end_ : Nat
  next : Nat
  failed : Nat
  deriving DecidableEq

structure Region where
  start : Nat
  size : Nat
  deriving DecidableEq

def Region.Apart (r t : Region) : Prop := ByteMemory.Apart r.start r.size t.start t.size

instance apartDecidable (r t : Region) : Decidable (r.Apart t) :=
  inferInstanceAs (Decidable (_ ∨ _))

structure Block where
  node : Nat
  region : Region
  deriving DecidableEq

structure Small where
  node : Nat
  region : Region
  deriving DecidableEq

-- `nodes` and `records` are the memory, read as one or the other struct. The rest is what the pool does not
-- store itself: its blocks in the order of their allocation, the memory from `malloc` and `posix_memalign` that
-- is outstanding, what was cut out since the last reset, and the records among it.
structure Pool where
  max : Nat
  current : Nat
  large : Nat
  head : Nat
  nodes : Nat → Node
  records : Nat → Large
  blocks : List Block
  larges : List Region
  smalls : List Small
  made : List Nat

-- Either the walk along a list does not end, or the answers are not those of an allocator.
inductive Fault where
  | loops
  | refused
  deriving DecidableEq

-- The answers of `malloc` and `posix_memalign` to the calls to come.
abbrev Answers := List (Option Nat)

def Pool.live (s : Pool) : List Region := s.blocks.map Block.region ++ s.larges

-- New memory has an address of its own, lies in the lower half of the address space and is outside of all that
-- is outstanding.
def Fresh (live : List Region) (alignment size p : Nat) : Prop :=
  0 < p ∧ p + size < 2 ^ 63 ∧ p % alignment = 0 ∧ ∀ r ∈ live, r.start ≠ p ∧ r.Apart ⟨p, size⟩

instance freshDecidable (live : List Region) (alignment size p : Nat) : Decidable (Fresh live alignment size p) :=
  inferInstanceAs (Decidable (_ ∧ _))

-- `nodes` is what the memory held before.
def mpCreatePool (size : Nat) (nodes : Nat → Node) (records : Nat → Large) : Option Nat → Except Fault (Option Pool)
  | none => .ok none
  | some p =>
      let psize := add 64 (add 64 size sizeofPool) sizeofNode
      if Fresh [] mpAlignment psize p then
        let head := add 64 p sizeofPool
        let last := add 64 (add 64 p sizeofPool) sizeofNode
        .ok (some
          { max := if size < mpMaxAllocFromPool then size else mpMaxAllocFromPool
            current := head
            large := 0
            head := head
            nodes := Function.update nodes head
              { last := last, end_ := add 64 last size, next := (nodes head).next, failed := 0 }
            records := records
            blocks := [⟨head, ⟨p, psize⟩⟩]
            larges := []
            smalls := []
            made := [] })
      else .error .refused

-- The loops of `mp_alloc` and `mp_nalloc`, which differ in where in the block they would cut. The inner `none`
-- is a list without room.
def search (nodes : Nat → Node) (place : Nat → Nat) (size : Nat) : Nat → Nat → Option (Option Nat)
  | 0, _ => none
  | turns + 1, p =>
      if sub 64 (nodes p).end_ (place (nodes p).last) ≥ size then some (some p)
      else if (nodes p).next = 0 then some none
      else search nodes place size turns (nodes p).next

-- The loop of `mp_alloc_block`: the counters, `current`, and the node at the end.
def countFailed : Nat → (Nat → Node) → Nat → Nat → Option ((Nat → Node) × Nat × Nat)
  | 0, _, _, _ => none
  | turns + 1, nodes, current, p =>
      if (nodes p).next = 0 then some (nodes, current, p)
      else
        countFailed turns (Function.update nodes p { nodes p with failed := add 64 (nodes p).failed 1 })
          (if (nodes p).failed > 4 then (nodes p).next else current) (nodes p).next

def mpAllocBlock (s : Pool) (size : Nat) : Answers → Except Fault (Nat × Pool × Answers)
  | [] => .error .refused
  | none :: rest => .ok (0, s, rest)
  | some m :: rest =>
      let psize := sub 64 (s.nodes s.head).end_ s.head
      if Fresh s.live mpAlignment psize m then
        let first := mpAlignPtr (add 64 m sizeofNode) mpAlignment
        let nodes := Function.update s.nodes m
          { last := add 64 first size, end_ := add 64 m psize, next := 0, failed := 0 }
        match countFailed s.blocks.length nodes s.current s.current with
        | none => .error .loops
        | some (nodes, current, p) =>
            .ok (first,
              { s with
                nodes := Function.update nodes p { nodes p with next := m }
                current := if current ≠ 0 then current else m
                blocks := s.blocks ++ [⟨m, ⟨m, psize⟩⟩]
                smalls := ⟨m, ⟨first, size⟩⟩ :: s.smalls }, rest)
      else .error .refused

def allocSmall (place : Nat → Nat) (s : Pool) (size : Nat) (answers : Answers) :
    Except Fault (Nat × Pool × Answers) :=
  match search s.nodes place size s.blocks.length s.current with
  | none => .error .loops
  | some none => mpAllocBlock s size answers
  | some (some p) =>
      let m := place (s.nodes p).last
      .ok (m,
        { s with
          nodes := Function.update s.nodes p { s.nodes p with last := add 64 m size }
          smalls := ⟨p, ⟨m, size⟩⟩ :: s.smalls }, answers)

-- A record without a block among the first five.
def freeRecord (records : Nat → Large) : Nat → Nat → Option Nat
  | 0, _ => none
  | turns + 1, large =>
      if large = 0 then none
      else if (records large).alloc = 0 then some large
      else freeRecord records turns (records large).next

def Pool.free (s : Pool) (p : Nat) : Pool := { s with larges := s.larges.filter fun r => r.start ≠ p }

-- The end of `mp_alloc_large` and `mp_memalign`: the record, or the block back.
def keepLarge (p : Nat) : Nat × Pool × Answers → Nat × Pool × Answers
  | (large, s, answers) =>
      if large = 0 then (0, s.free p, answers)
      else
        (p,
          { s with
            records := Function.update s.records large { next := s.large, alloc := p }
            large := large
            made := large :: s.made }, answers)

-- `record` is `mp_alloc(pool, sizeof(struct mp_large_s))`.
def mpAllocLarge (record : Pool → Except Fault (Nat × Pool × Answers)) (s : Pool) (size : Nat) (rest : Answers) :
    Option Nat → Except Fault (Nat × Pool × Answers)
  | none => .ok (0, s, rest)
  | some p =>
      if Fresh s.live 1 size p then
        let s := { s with larges := ⟨p, size⟩ :: s.larges }
        match freeRecord s.records 5 s.large with
        | some large =>
            .ok (p, { s with records := Function.update s.records large { s.records large with alloc := p } }, rest)
        | none => (record s).map (keepLarge p)
      else .error .refused

def mpAlloc : Answers → Pool → Nat → Except Fault (Nat × Pool × Answers)
  | [], s, size =>
      if size ≤ s.max then allocSmall (mpAlignPtr · mpAlignment) s size [] else .error .refused
  | answer :: rest, s, size =>
      if size ≤ s.max then allocSmall (mpAlignPtr · mpAlignment) s size (answer :: rest)
      else mpAllocLarge (fun s => mpAlloc rest s sizeofLarge) s size rest answer

def mpNalloc (answers : Answers) (s : Pool) (size : Nat) : Except Fault (Nat × Pool × Answers) :=
  if size ≤ s.max then allocSmall id s size answers
  else
    match answers with
    | [] => .error .refused
    | answer :: rest => mpAllocLarge (fun s => mpAlloc rest s sizeofLarge) s size rest answer

-- The `memset` stays inside what was just cut out or obtained.
def mpCalloc (answers : Answers) (s : Pool) (size : Nat) : Except Fault (Nat × Pool × Answers) :=
  mpAlloc answers s size

def mpMemalign (answers : Answers) (s : Pool) (size alignment : Nat) : Except Fault (Nat × Pool × Answers) :=
  match answers with
  | [] => .error .refused
  | none :: rest => .ok (0, s, rest)
  | some p :: rest =>
      if Fresh s.live alignment size p then
        (mpAlloc rest { s with larges := ⟨p, size⟩ :: s.larges } sizeofLarge).map (keepLarge p)
      else .error .refused

def findRecord (records : Nat → Large) (p : Nat) : Nat → Nat → Option (Option Nat)
  | 0, _ => none
  | turns + 1, large =>
      if large = 0 then some none
      else if p = (records large).alloc then some (some large)
      else findRecord records p turns (records large).next

def mpFree (s : Pool) (p : Nat) : Except Fault Pool :=
  match findRecord s.records p (s.made.length + 1) s.large with
  | none => .error .loops
  | some none => .ok s
  | some (some large) =>
      .ok { s.free p with records := Function.update s.records large { s.records large with alloc := 0 } }

def freeLarges : Nat → Pool → Nat → Option Pool
  | 0, _, _ => none
  | turns + 1, s, large =>
      if large = 0 then some s
      else
        freeLarges turns (if (s.records large).alloc ≠ 0 then s.free (s.records large).alloc else s)
          (s.records large).next

def resetNodes : Nat → (Nat → Node) → Nat → Option (Nat → Node)
  | 0, _, _ => none
  | turns + 1, nodes, h =>
      if h = 0 then some nodes
      else resetNodes turns (Function.update nodes h { nodes h with last := add 64 h sizeofNode }) (nodes h).next

def mpResetPool (s : Pool) : Except Fault Pool :=
  match freeLarges (s.made.length + 1) s s.large with
  | none => .error .loops
  | some s =>
      match resetNodes (s.blocks.length + 1) s.nodes s.head with
      | none => .error .loops
      | some nodes => .ok { s with large := 0, nodes := nodes, smalls := [], made := [] }

inductive Event where
  | alloc (size : Nat) (answers : Answers)
  | nalloc (size : Nat) (answers : Answers)
  | calloc (size : Nat) (answers : Answers)
  | memalign (size alignment : Nat) (answers : Answers)
  | free (p : Nat)
  | reset

def called : Nat × Pool × Answers → Except Fault Pool
  | (_, s, []) => .ok s
  | (_, _, _ :: _) => .error .refused

def call (s : Pool) : Event → Except Fault Pool
  | .alloc size answers => (mpAlloc answers s size).bind called
  | .nalloc size answers => (mpNalloc answers s size).bind called
  | .calloc size answers => (mpCalloc answers s size).bind called
  | .memalign size alignment answers => (mpMemalign answers s size alignment).bind called
  | .free p => mpFree s p
  | .reset => mpResetPool s

def step (s : Pool) (event : Event) : Option Pool := (call s event).toOption

end CppInfra.MemPool.MpPool
