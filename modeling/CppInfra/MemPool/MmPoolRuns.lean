import CppInfra.MemPool.MmPoolBlocks

set_option autoImplicit false

namespace CppInfra.MemPool.MmPool

open Words Transition ByteMemory

-- What `malloc` returns lies in the lower half of the address space.
structure Setup where
  size : Nat
  page : Nat
  memory : Memory
  room : sizeofPtr ≤ size
  int : size < 2 ^ 31
  nonnull : 0 < page
  low : page < 2 ^ 63

-- The loop of `memp_create` links one block for each byte of the page, and one more.
def Setup.all (c : Setup) : List Nat := blocks c.size c.page (memPageSize + 1)

structure Inv (c : Setup) (s : State) (stack : List Nat) : Prop where
  size : s.pool.blocksize = c.size
  chain : FreeChain s.pool.memory s.pool.freePtr stack
  count : stack.length = s.pool.freecount + 1
  whole : (stack ++ s.out).Perm c.all

theorem Setup.positive (c : Setup) : 0 < c.size := by
  have room := c.room
  rw [sizeofPtr] at room
  omega

theorem Setup.bounds (c : Setup) {block : Nat} (member : block ∈ c.all) : 0 < block ∧ block < 2 ^ 64 := by
  obtain ⟨i, bound, rfl⟩ := mem_blocks.mp member
  have nonnull := c.nonnull
  have low := c.low
  have scaled : i * c.size ≤ 2 ^ 12 * 2 ^ 31 :=
    Nat.mul_le_mul (by rw [memPageSize] at bound; omega) (Nat.le_of_lt c.int)
  omega

variable {c : Setup} {s : State} {stack : List Nat}

theorem Inv.distinct (inv : Inv c s stack) : (stack ++ s.out).Nodup :=
  inv.whole.nodup_iff.mpr (blocks_nodup c.positive _ _)

theorem Inv.stack_mem (inv : Inv c s stack) {block : Nat} (member : block ∈ stack) : block ∈ c.all :=
  inv.whole.mem_iff.mp (List.mem_append_left _ member)

theorem Inv.out_mem (inv : Inv c s stack) {block : Nat} (member : block ∈ s.out) : block ∈ c.all :=
  inv.whole.mem_iff.mp (List.mem_append_right _ member)

theorem Inv.apart (inv : Inv c s stack) {free block : Nat} (left : free ∈ stack) (right : block ∈ s.out) :
    Apart free c.size block c.size := by
  apply blocks_apart (inv.stack_mem left) (inv.out_mem right)
  exact (List.nodup_append.mp inv.distinct).2.2 free left block right

theorem Inv.out_apart (inv : Inv c s stack) {x y : Nat} (left : x ∈ s.out) (right : y ∈ s.out) (differ : x ≠ y) :
    Apart x c.size y c.size :=
  blocks_apart (inv.out_mem left) (inv.out_mem right) differ

theorem Inv.chain_of_writes (inv : Inv c s stack) {other : Memory} {block : Nat} (member : block ∈ s.out)
    (same : ∀ a, a < block ∨ block + c.size ≤ a → other a = s.pool.memory a) :
    FreeChain other s.pool.freePtr stack := by
  apply inv.chain.congr
  intro free left a low high
  apply same
  have room := c.room
  rcases inv.apart left member with below | above <;> omega

def allocated (s : State) (block : Nat) : State :=
  { pool := { s.pool with freePtr := s.pool.loadPtr block, freecount := s.pool.freecount - 1 }
    out := block :: s.out
    returned := s.returned ++ [block] }

theorem Inv.alloc (inv : Inv c s stack) (left : s.pool.freecount ≠ 0) :
    ∃ block rest, stack = block :: rest ∧ block ≠ 0 ∧ mempAlloc s.pool = (block, (allocated s block).pool) ∧
      step s .alloc = some (allocated s block) ∧ Inv c (allocated s block) rest := by
  have count := inv.count
  have chain := inv.chain
  cases stack with
  | nil => simp at count
  | cons block rest =>
      have nonnull : block ≠ 0 := by
        have bounds := c.bounds (inv.stack_mem (List.mem_cons_self ..))
        omega
      have first : s.pool.freePtr = block := chain.1
      have result : mempAlloc s.pool = (block, (allocated s block).pool) := by
        rw [mempAlloc, if_neg left, first]
        rfl
      have stepped : step s .alloc = some (allocated s block) := by
        simp only [step, result, nonnull, if_false]
        rfl
      refine ⟨block, rest, rfl, nonnull, result, stepped, ?_⟩
      constructor
      · exact inv.size
      · exact chain.2
      · simp only [allocated, List.length_cons] at count ⊢
        omega
      · exact List.perm_middle.trans inv.whole

theorem alloc_empty (none : s.pool.freecount = 0) :
    mempAlloc s.pool = (0, s.pool) ∧ step s .alloc = some { s with returned := s.returned ++ [0] } := by
  have result : mempAlloc s.pool = (0, s.pool) := by simp [mempAlloc, none]
  refine ⟨result, ?_⟩
  simp [step, result]

theorem Inv.free (inv : Inv c s stack) {ptr : Nat} (member : ptr ∈ s.out) :
    Inv c { s with pool := mempFree s.pool ptr, out := s.out.erase ptr } (ptr :: stack) where
  size := inv.size
  chain := by
    have fits : s.pool.freePtr < 256 ^ sizeofPtr := by
      have chain := inv.chain
      cases stack with
      | nil =>
          have null : s.pool.freePtr = 0 := chain
          simp [null, sizeofPtr]
      | cons block rest =>
          have bounds := c.bounds (inv.stack_mem (List.mem_cons_self ..))
          rw [chain.1, sizeofPtr]
          omega
    have stored := load_store_same s.pool.memory ptr s.pool.freePtr sizeofPtr
    rw [Nat.mod_eq_of_lt fits] at stored
    refine ⟨rfl, ?_⟩
    simp only [mempFree, Mempool.storePtr, stored]
    apply inv.chain_of_writes member
    intro a outside
    apply store_outside
    have room := c.room
    omega
  count := by
    have count := inv.count
    simp only [mempFree, Mempool.storePtr, List.length_cons]
    omega
  whole := by
    have back : (stack ++ ptr :: s.out.erase ptr).Perm (stack ++ s.out) :=
      (List.perm_cons_erase member).symm.append_left stack
    exact List.perm_middle.symm.trans (back.trans inv.whole)

theorem Inv.write (inv : Inv c s stack) {block a : Nat} (byte : UInt8) (member : block ∈ s.out)
    (inside : InBlock s.pool block a) :
    Inv c { s with pool := { s.pool with memory := Function.update s.pool.memory a byte } } stack where
  size := inv.size
  chain := by
    apply inv.chain_of_writes member
    intro b outside
    have other : b ≠ a := by
      have size := inv.size
      simp only [InBlock] at inside
      omega
    exact Function.update_of_ne other ..
  count := inv.count
  whole := inv.whole

theorem Setup.created_inv (c : Setup) :
    ∃ s, created c.size c.page c.memory = some s ∧ s.out = [] ∧ s.returned = [] ∧
      (c.page + memPageSize * c.size, sizeofPtr) ∈ s.pool.written ∧ Inv c s c.all := by
  have fits : c.page + memPageSize * c.size < 2 ^ 64 := by
    have low := c.low
    have int := c.int
    rw [memPageSize]
    omega
  let m : Mempool :=
    { blocksize := c.size
      freecount := memPageSize
      freePtr := c.page
      mem := c.page
      memory := fill c.memory c.page memPageSize 0
      written := [(c.page, memPageSize)] }
  obtain ⟨size, freecount, freePtr⟩ := linked_fields memPageSize m c.page
  refine ⟨{ pool := linked memPageSize m c.page, out := [], returned := [] }, rfl, rfl, rfl, ?_, ?_⟩
  · exact linked_written (m := m) fits
  · constructor
    · exact size
    · rw [freePtr]
      exact linked_chain (m := m) c.room fits
    · rw [freecount, Setup.all, blocks_length]
    · simp

theorem step_inv {t : State} {event : Event} (inv : ∃ stack, Inv c s stack) (taken : step s event = some t) :
    ∃ stack, Inv c t stack := by
  obtain ⟨stack, inv⟩ := inv
  cases event with
  | alloc =>
      by_cases none : s.pool.freecount = 0
      · rw [(alloc_empty none).2] at taken
        obtain rfl := Option.some.inj taken
        exact ⟨stack, inv.size, inv.chain, inv.count, inv.whole⟩
      · obtain ⟨block, rest, _, _, _, stepped, later⟩ := inv.alloc none
        rw [stepped] at taken
        obtain rfl := Option.some.inj taken
        exact ⟨rest, later⟩
  | free ptr =>
      rw [step] at taken
      split at taken
      · rename_i member
        obtain rfl := Option.some.inj taken
        exact ⟨_, inv.free member⟩
      · cases taken
  | write a byte =>
      rw [step] at taken
      split at taken
      · rename_i client
        obtain rfl := Option.some.inj taken
        obtain ⟨block, member, inside⟩ := List.any_eq_true.mp client
        exact ⟨stack, inv.write byte member (of_decide_eq_true inside)⟩
      · cases taken

theorem run_inv {events : List Event} {first t : State} (start : created c.size c.page c.memory = some first)
    (ran : run step first events = some t) : ∃ stack, Inv c t stack := by
  obtain ⟨s, same, _, _, _, inv⟩ := c.created_inv
  rw [same] at start
  obtain rfl := Option.some.inj start
  exact run_invariant (fun s => ∃ stack, Inv c s stack) (fun _ _ _ held taken => step_inv held taken) ⟨_, inv⟩ ran

theorem Inv.writes (inv : Inv c s stack) {writes : List Event} {t : State}
    (client : ∀ event ∈ writes, ∃ a byte, event = .write a byte) (ran : run step s writes = some t) :
    Inv c t stack ∧ t.pool.freecount = s.pool.freecount := by
  induction writes generalizing s with
  | nil =>
      obtain rfl := Option.some.inj ran
      exact ⟨inv, rfl⟩
  | cons event rest ih =>
      obtain ⟨a, byte, rfl⟩ := client event (List.mem_cons_self ..)
      obtain ⟨u, taken, later⟩ := run_cons.mp ran
      rw [step] at taken
      split at taken
      · rename_i owned
        obtain rfl := Option.some.inj taken
        obtain ⟨block, member, inside⟩ := List.any_eq_true.mp owned
        have written := inv.write byte member (of_decide_eq_true inside)
        have kept := ih written (fun event member => client event (List.mem_cons_of_mem _ member)) later
        exact kept
      · cases taken

theorem Inv.freed_first (inv : Inv c s stack) {ptr : Nat} (member : ptr ∈ s.out) {writes : List Event} {t : State}
    (client : ∀ event ∈ writes, ∃ a byte, event = .write a byte)
    (ran : run step s (.free ptr :: writes) = some t) : (mempAlloc t.pool).1 = ptr := by
  obtain ⟨u, taken, later⟩ := run_cons.mp ran
  rw [step, if_pos member] at taken
  obtain rfl := Option.some.inj taken
  obtain ⟨kept, count⟩ := (inv.free member).writes client later
  have positive : t.pool.freecount ≠ 0 := by
    rw [count]
    exact Nat.succ_ne_zero _
  obtain ⟨block, rest, top, _, result, _⟩ := kept.alloc positive
  rw [result]
  exact (List.cons.inj top).1.symm

theorem Inv.freePtr_nonnull (inv : Inv c s stack) (left : 0 < s.pool.freecount) : s.pool.freePtr ≠ 0 := by
  obtain ⟨block, rest, rfl, nonnull, _⟩ := inv.alloc (by omega)
  rw [inv.chain.1]
  exact nonnull

theorem Inv.alloc_apart (inv : Inv c s stack) (handed : (mempAlloc s.pool).1 ≠ 0) {block : Nat}
    (member : block ∈ s.out) : Apart (mempAlloc s.pool).1 c.size block c.size := by
  have left : s.pool.freecount ≠ 0 := by
    intro none
    rw [(alloc_empty none).1] at handed
    exact handed rfl
  obtain ⟨ptr, rest, rfl, _, result, _⟩ := inv.alloc left
  rw [result]
  exact inv.apart (List.mem_cons_self ..) member

theorem Inv.free_frame (inv : Inv c s stack) {ptr block a : Nat} (freed : ptr ∈ s.out) (member : block ∈ s.out)
    (stays : block ≠ ptr) (inside : InBlock s.pool block a) : (mempFree s.pool ptr).memory a = s.pool.memory a := by
  apply store_outside
  have room := c.room
  have size := inv.size
  simp only [InBlock] at inside
  rcases inv.out_apart member freed stays with below | above <;> omega

theorem alloc_frame (m : Mempool) : (mempAlloc m).2.memory = m.memory := by
  rw [mempAlloc]
  split <;> rfl

theorem mmPool_separate (c : Setup) (first s : State) (events : List Event)
    (start : created c.size c.page c.memory = some first) (ran : run step first events = some s) :
    (0 < s.pool.freecount → s.pool.freePtr ≠ 0) ∧
      ((mempAlloc s.pool).1 ≠ 0 → ∀ block ∈ s.out, Apart (mempAlloc s.pool).1 c.size block c.size) ∧
      (∀ x ∈ s.out, ∀ y ∈ s.out, x ≠ y → Apart x c.size y c.size) ∧
      (∀ ptr ∈ s.out, ∀ writes t, (∀ event ∈ writes, ∃ a byte, event = .write a byte) →
        run step s (.free ptr :: writes) = some t → (mempAlloc t.pool).1 = ptr) ∧
      (∀ block ∈ s.out, ∀ a, InBlock s.pool block a → (mempAlloc s.pool).2.memory a = s.pool.memory a) ∧
      (∀ ptr ∈ s.out, ∀ block ∈ s.out, block ≠ ptr → ∀ a, InBlock s.pool block a →
        (mempFree s.pool ptr).memory a = s.pool.memory a) := by
  obtain ⟨stack, inv⟩ := run_inv start ran
  refine ⟨inv.freePtr_nonnull, fun handed block => inv.alloc_apart handed, ?_, ?_, ?_, ?_⟩
  · intro x left y right differ
    exact inv.out_apart left right differ
  · intro ptr member writes t client later
    exact inv.freed_first member client later
  · intro block _ a _
    rw [alloc_frame]
  · intro ptr freed block member stays a inside
    exact inv.free_frame freed member stays inside

theorem Setup.allocs (c : Setup) {count : Nat} (bound : count ≤ memPageSize) :
    ∃ first s, created c.size c.page c.memory = some first ∧
      run step first (List.replicate count .alloc) = some s ∧ s.returned = blocks c.size c.page count ∧
      s.out.length = count ∧ Inv c s (blocks c.size (c.page + count * c.size) (memPageSize + 1 - count)) := by
  induction count with
  | zero =>
      obtain ⟨s, start, out, returned, _, inv⟩ := c.created_inv
      refine ⟨s, s, start, rfl, returned, by rw [out]; rfl, ?_⟩
      simpa [Setup.all] using inv
  | succ count ih =>
      obtain ⟨first, s, start, ran, returned, length, inv⟩ := ih (by omega)
      have left : s.pool.freecount ≠ 0 := by
        have total := inv.count
        rw [blocks_length] at total
        omega
      obtain ⟨block, rest, top, _, _, stepped, later⟩ := inv.alloc left
      have shape : memPageSize + 1 - count = (memPageSize - count) + 1 := by omega
      rw [shape, blocks] at top
      obtain ⟨rfl, rfl⟩ := List.cons.inj top
      refine ⟨first, allocated s (c.page + count * c.size), start, ?_, ?_, congrArg (· + 1) length, ?_⟩
      · rw [List.replicate_succ', run_concat]
        exact ⟨s, ran, stepped⟩
      · rw [blocks_append, ← returned]
        rfl
      · have place : c.page + (count + 1) * c.size = c.page + count * c.size + c.size := by
          rw [Nat.add_mul]
          omega
        have remaining : memPageSize + 1 - (count + 1) = memPageSize - count := by omega
        rw [place, remaining]
        exact later

def demo : Setup :=
  { size := 32
    page := 0x1000
    memory := fun _ => 0
    room := by decide
    int := by decide
    nonnull := by decide
    low := by decide }

theorem mmPool_separate_demo :
    ∃ first s, created 32 0x1000 (fun _ => 0) = some first ∧ run step first [.alloc, .alloc] = some s ∧
      s.returned = [0x1000, 0x1020] ∧ (0 < s.pool.freecount → s.pool.freePtr ≠ 0) ∧
      ∀ ptr ∈ s.out, ∀ block ∈ s.out, block ≠ ptr → ∀ a, InBlock s.pool block a →
        (mempFree s.pool ptr).memory a = s.pool.memory a := by
  obtain ⟨first, s, start, ran, returned, _⟩ := demo.allocs (show 2 ≤ memPageSize by decide)
  obtain ⟨nonnull, _, _, _, _, frame⟩ := mmPool_separate demo first s _ start ran
  exact ⟨first, s, start, ran, returned, nonnull, frame⟩

end CppInfra.MemPool.MmPool
