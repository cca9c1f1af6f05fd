import CppInfra.MemPool.MmPool
import Mathlib.Data.List.Perm.Basic

set_option autoImplicit false

namespace CppInfra.MemPool.MmPool

open Words Transition ByteMemory

def blocks (size : Nat) : Nat → Nat → List Nat
  | _, 0 => []
  | start, count + 1 => start :: blocks size (start + size) count

theorem mem_blocks {size start count block : Nat} :
    block ∈ blocks size start count ↔ ∃ i < count, block = start + i * size := by
  induction count generalizing start with
  | zero => simp [blocks]
  | succ count ih =>
      rw [blocks, List.mem_cons, ih]
      constructor
      · rintro (rfl | ⟨i, bound, rfl⟩)
        · exact ⟨0, by omega, by simp⟩
        · exact ⟨i + 1, by omega, by rw [Nat.add_mul]; omega⟩
      · rintro ⟨i, bound, rfl⟩
        cases i with
        | zero => exact .inl (by simp)
        | succ i => exact .inr ⟨i, by omega, by rw [Nat.add_mul]; omega⟩

theorem blocks_length (size start count : Nat) : (blocks size start count).length = count := by
  induction count generalizing start with
  | zero => rfl
  | succ count ih => rw [blocks, List.length_cons, ih]

theorem blocks_append (size start first second : Nat) :
    blocks size start (first + second) = blocks size start first ++ blocks size (start + first * size) second := by
  induction first generalizing start with
  | zero => simp [blocks]
  | succ first ih =>
      have shape : first + 1 + second = (first + second) + 1 := by omega
      have place : start + (first + 1) * size = start + size + first * size := by
        rw [Nat.add_mul]
        omega
      rw [shape, blocks, blocks, ih, place, List.cons_append]

theorem blocks_apart {size start count x y : Nat} (left : x ∈ blocks size start count)
    (right : y ∈ blocks size start count) (differ : x ≠ y) : Apart x size y size := by
  obtain ⟨i, _, rfl⟩ := mem_blocks.mp left
  obtain ⟨j, _, rfl⟩ := mem_blocks.mp right
  rcases Nat.lt_trichotomy i j with less | same | more
  · have scaled := Nat.mul_le_mul_right size (show i + 1 ≤ j by omega)
    rw [Nat.add_mul] at scaled
    left
    omega
  · exact absurd (by rw [same]) differ
  · have scaled := Nat.mul_le_mul_right size (show j + 1 ≤ i by omega)
    rw [Nat.add_mul] at scaled
    right
    omega

theorem blocks_nodup {size : Nat} (positive : 0 < size) (start count : Nat) : (blocks size start count).Nodup := by
  induction count generalizing start with
  | zero => exact List.nodup_nil
  | succ count ih =>
      refine List.nodup_cons.mpr ⟨?_, ih _⟩
      intro again
      obtain ⟨i, _, same⟩ := mem_blocks.mp again
      omega

def FreeChain (memory : Memory) : Nat → List Nat → Prop
  | ptr, [] => ptr = 0
  | ptr, block :: rest => ptr = block ∧ FreeChain memory (load memory block sizeofPtr) rest

theorem FreeChain.congr {memory other : Memory} {ptr : Nat} {stack : List Nat} (chain : FreeChain memory ptr stack)
    (same : ∀ block ∈ stack, ∀ a, block ≤ a → a < block + sizeofPtr → other a = memory a) :
    FreeChain other ptr stack := by
  induction stack generalizing ptr with
  | nil => exact chain
  | cons block rest ih =>
      have link : load other block sizeofPtr = load memory block sizeofPtr :=
        load_congr (same block (List.mem_cons_self ..))
      refine ⟨chain.1, ?_⟩
      rw [link]
      exact ih chain.2 fun later member => same later (List.mem_cons_of_mem block member)

def linked (turns : Nat) (m : Mempool) (ptr : Nat) : Mempool :=
  (linkBlocks turns m ptr).1.storePtr (linkBlocks turns m ptr).2 0

theorem linked_succ {turns ptr : Nat} {m : Mempool} (fits : ptr + m.blocksize < 2 ^ 64) :
    linked (turns + 1) m ptr = linked turns (m.storePtr ptr (ptr + m.blocksize)) (ptr + m.blocksize) := by
  have next : add 64 ptr m.blocksize = ptr + m.blocksize := add_exact fits
  rw [linked, linkBlocks, next]
  rfl

theorem linked_below {turns ptr a : Nat} {m : Mempool} (fits : ptr + turns * m.blocksize < 2 ^ 64)
    (below : a < ptr) : (linked turns m ptr).memory a = m.memory a := by
  induction turns generalizing m ptr with
  | zero => exact store_outside (.inl below)
  | succ turns ih =>
      rw [Nat.add_mul] at fits
      rw [linked_succ (by omega)]
      have rest : ptr + m.blocksize + turns * m.blocksize < 2 ^ 64 := by omega
      apply (ih (m := m.storePtr ptr (ptr + m.blocksize)) rest (by omega)).trans
      exact store_outside (.inl below)

theorem linked_chain {turns ptr : Nat} {m : Mempool} (room : sizeofPtr ≤ m.blocksize)
    (fits : ptr + turns * m.blocksize < 2 ^ 64) :
    FreeChain (linked turns m ptr).memory ptr (blocks m.blocksize ptr (turns + 1)) := by
  induction turns generalizing m ptr with
  | zero => exact ⟨rfl, load_store_same m.memory ptr 0 sizeofPtr⟩
  | succ turns ih =>
      rw [Nat.add_mul] at fits
      have rest : ptr + m.blocksize + turns * m.blocksize < 2 ^ 64 := by omega
      have link : load (linked turns (m.storePtr ptr (ptr + m.blocksize)) (ptr + m.blocksize)).memory ptr sizeofPtr =
          ptr + m.blocksize := by
        calc
          load (linked turns (m.storePtr ptr (ptr + m.blocksize)) (ptr + m.blocksize)).memory ptr sizeofPtr =
              load (m.storePtr ptr (ptr + m.blocksize)).memory ptr sizeofPtr :=
            load_congr fun a _ high => linked_below rest (by omega)
          _ = (ptr + m.blocksize) % 256 ^ sizeofPtr := load_store_same ..
          _ = ptr + m.blocksize := Nat.mod_eq_of_lt (by rw [sizeofPtr]; omega)
      rw [linked_succ (by omega)]
      refine ⟨rfl, ?_⟩
      rw [link]
      exact ih (m := m.storePtr ptr (ptr + m.blocksize)) room rest

theorem linked_fields (turns : Nat) (m : Mempool) (ptr : Nat) :
    (linked turns m ptr).blocksize = m.blocksize ∧ (linked turns m ptr).freecount = m.freecount ∧
      (linked turns m ptr).freePtr = m.freePtr := by
  have same : (linkBlocks turns m ptr).1.blocksize = m.blocksize ∧
      (linkBlocks turns m ptr).1.freecount = m.freecount ∧ (linkBlocks turns m ptr).1.freePtr = m.freePtr := by
    induction turns generalizing m ptr with
    | zero => exact ⟨rfl, rfl, rfl⟩
    | succ turns ih => exact ih ..
  exact same

theorem linked_written {turns ptr : Nat} {m : Mempool} (fits : ptr + turns * m.blocksize < 2 ^ 64) :
    (ptr + turns * m.blocksize, sizeofPtr) ∈ (linked turns m ptr).written := by
  induction turns generalizing m ptr with
  | zero => simp [linked, linkBlocks, Mempool.storePtr]
  | succ turns ih =>
      rw [Nat.add_mul] at fits
      rw [linked_succ (by omega)]
      have rest : ptr + m.blocksize + turns * m.blocksize < 2 ^ 64 := by omega
      have place : ptr + m.blocksize + turns * m.blocksize = ptr + (turns + 1) * m.blocksize := by
        rw [Nat.add_mul]
        omega
      rw [← place]
      exact ih (m := m.storePtr ptr (ptr + m.blocksize)) rest

end CppInfra.MemPool.MmPool
