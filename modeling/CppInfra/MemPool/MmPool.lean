import CppInfra.Shared.ByteMemory
import CppInfra.Shared.Transition

set_option autoImplicit false

namespace CppInfra.MemPool.MmPool

open Words Transition ByteMemory

def memPageSize : Nat := 0x1000

def sizeofPtr : Nat := 8

-- `written` lists the bytes, as a start and a length, that the pool itself has stored to.
structure Mempool where
  blocksize : Nat
  freecount : Nat
  freePtr : Nat
  mem : Nat
  memory : Memory
  written : List (Nat × Nat)

-- `*(char **)ptr = value`
def Mempool.storePtr (m : Mempool) (ptr value : Nat) : Mempool :=
  { m with
    memory := store m.memory ptr value sizeofPtr
    written := m.written ++ [(ptr, sizeofPtr)] }

-- `*(char **)ptr`
def Mempool.loadPtr (m : Mempool) (ptr : Nat) : Nat := load m.memory ptr sizeofPtr

-- `*(char **)ptr = ptr + block_size; ptr += block_size;`, so many turns
def linkBlocks : Nat → Mempool → Nat → Mempool × Nat
  | 0, m, ptr => (m, ptr)
  | turns + 1, m, ptr =>
      let next := add 64 ptr m.blocksize
      linkBlocks turns (m.storePtr ptr next) next

-- `mem` is what `malloc` returned.
def mempCreate (blockSize : Nat) (malloc : Option Nat) (memory : Memory) : Int × Option Mempool :=
  match malloc with
  | none => (-2, none)
  | some mem =>
      let m : Mempool :=
        { blocksize := blockSize
          freecount := memPageSize
          freePtr := mem
          mem := mem
          memory := fill memory mem memPageSize 0
          written := [(mem, memPageSize)] }
      let linked := linkBlocks m.freecount m mem
      (0, some (linked.1.storePtr linked.2 0))

-- NULL is 0.
def mempAlloc (m : Mempool) : Nat × Mempool :=
  if m.freecount = 0 then (0, m)
  else (m.freePtr, { m with freePtr := m.loadPtr m.freePtr, freecount := m.freecount - 1 })

def mempFree (m : Mempool) (ptr : Nat) : Mempool :=
  let m := m.storePtr ptr m.freePtr
  { m with freePtr := ptr, freecount := m.freecount + 1 }

structure State where
  pool : Mempool
  out : List Nat
  returned : List Nat

inductive Event where
  | alloc
  | free (ptr : Nat)
  | write (a : Nat) (byte : UInt8)

def InBlock (m : Mempool) (block a : Nat) : Prop := block ≤ a ∧ a < block + m.blocksize

instance inBlockDecidable (m : Mempool) (block a : Nat) : Decidable (InBlock m block a) :=
  inferInstanceAs (Decidable (block ≤ a ∧ a < block + m.blocksize))

-- The client frees and writes only blocks that are handed out.
def step (s : State) : Event → Option State
  | .alloc =>
      let (ptr, pool) := mempAlloc s.pool
      some
        { pool := pool
          out := if ptr = 0 then s.out else ptr :: s.out
          returned := s.returned ++ [ptr] }
  | .free ptr => if ptr ∈ s.out then some { s with pool := mempFree s.pool ptr, out := s.out.erase ptr } else none
  | .write a byte =>
      if s.out.any (fun block => InBlock s.pool block a) then
        some { s with pool := { s.pool with memory := Function.update s.pool.memory a byte } }
      else none

def created (blockSize page : Nat) (memory : Memory) : Option State :=
  (mempCreate blockSize (some page) memory).2.map fun pool => { pool := pool, out := [], returned := [] }

end CppInfra.MemPool.MmPool
