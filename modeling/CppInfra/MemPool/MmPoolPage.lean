import CppInfra.MemPool.MmPoolRuns

set_option autoImplicit false

namespace CppInfra.MemPool.MmPool

open Transition ByteMemory

def InPage (page a n : Nat) : Prop := page ≤ a ∧ a + n ≤ page + memPageSize

def WritesInPage (blockSize page : Nat) (memory : Memory) : Prop :=
  ∀ s, created blockSize page memory = some s → ∀ w ∈ s.pool.written, InPage page w.1 w.2

def ReturnsInPage (blockSize page : Nat) (memory : Memory) : Prop :=
  ∀ first s events, created blockSize page memory = some first → run step first events = some s →
    ∀ ptr ∈ s.returned, ptr ≠ 0 → InPage page ptr blockSize

-- `memp_alloc` fails exactly when as many blocks are handed out as fit in the page.
def NullWhenFull (blockSize page : Nat) (memory : Memory) : Prop :=
  ∀ first s events, created blockSize page memory = some first → run step first events = some s →
    ((mempAlloc s.pool).1 = 0 ↔ s.out.length = memPageSize / blockSize)

theorem Setup.writes_beyond (c : Setup) : ¬ WritesInPage c.size c.page c.memory := by
  obtain ⟨s, start, _, _, written, _⟩ := c.created_inv
  intro inside
  have last := (inside s start _ written).2
  have scaled := Nat.mul_le_mul_left memPageSize c.positive
  simp only [sizeofPtr] at last
  omega

theorem Setup.alloc_beyond (c : Setup) :
    ∃ first s, created c.size c.page c.memory = some first ∧
      run step first (List.replicate (memPageSize / c.size) .alloc) = some s ∧ s.out.length = memPageSize / c.size ∧
      (mempAlloc s.pool).1 = c.page + memPageSize / c.size * c.size ∧
      ∃ t, step s .alloc = some t ∧ c.page + memPageSize / c.size * c.size ∈ t.returned := by
  have fewer : memPageSize / c.size < memPageSize := by
    have room := c.room
    rw [sizeofPtr] at room
    exact Nat.div_lt_self (by decide) (by omega)
  obtain ⟨first, s, start, ran, _, length, inv⟩ := c.allocs (Nat.le_of_lt fewer)
  have left : s.pool.freecount ≠ 0 := by
    have total := inv.count
    rw [blocks_length] at total
    omega
  obtain ⟨block, rest, top, _, result, stepped, _⟩ := inv.alloc left
  have shape : memPageSize + 1 - memPageSize / c.size = (memPageSize - memPageSize / c.size) + 1 := by omega
  rw [shape, blocks] at top
  obtain ⟨rfl, _⟩ := List.cons.inj top
  exact ⟨first, s, start, ran, length, by rw [result], _, stepped, by simp [allocated]⟩

theorem Setup.outside_page (c : Setup) : ¬ InPage c.page (c.page + memPageSize / c.size * c.size) c.size := by
  intro inside
  have split := Nat.div_add_mod memPageSize c.size
  have below := Nat.mod_lt memPageSize c.positive
  have last := inside.2
  rw [Nat.mul_comm] at split
  omega

theorem Setup.returns_beyond (c : Setup) : ¬ ReturnsInPage c.size c.page c.memory := by
  obtain ⟨first, s, start, ran, _, _, t, stepped, returned⟩ := c.alloc_beyond
  intro inside
  apply c.outside_page
  apply inside first t _ start (run_concat.mpr ⟨s, ran, stepped⟩) _ returned
  have nonnull := c.nonnull
  omega

theorem Setup.null_late (c : Setup) : ¬ NullWhenFull c.size c.page c.memory := by
  obtain ⟨first, s, start, ran, length, result, _⟩ := c.alloc_beyond
  intro full
  have null := (full first s _ start ran).mpr length
  have nonnull := c.nonnull
  omega

theorem mmPool_leavesPage (blockSize page : Nat) (memory : Memory) (low : 8 ≤ blockSize) (high : blockSize ≤ 4096)
    (nonnull : 0 < page) (lower : page < 2 ^ 63) :
    ¬ WritesInPage blockSize page memory ∧ ¬ ReturnsInPage blockSize page memory ∧
      ¬ NullWhenFull blockSize page memory := by
  let c : Setup :=
    { size := blockSize
      page := page
      memory := memory
      room := low
      int := by omega
      nonnull := nonnull
      low := lower }
  exact ⟨c.writes_beyond, c.returns_beyond, c.null_late⟩

theorem mmPool_leavesPage_whole :
    ¬ WritesInPage 4096 0x1000 (fun _ => 0) ∧ ¬ ReturnsInPage 4096 0x1000 (fun _ => 0) ∧
      ¬ NullWhenFull 4096 0x1000 (fun _ => 0) :=
  mmPool_leavesPage 4096 0x1000 (fun _ => 0) (by decide) (by decide) (by decide) (by decide)

theorem mmPool_leavesPage_demo :
    ¬ (WritesInPage 32 0x1000 (fun _ => 0) ∧ ReturnsInPage 32 0x1000 (fun _ => 0) ∧
      NullWhenFull 32 0x1000 fun _ => 0) := by
  intro stays
  exact demo.writes_beyond stays.1

end CppInfra.MemPool.MmPool
