import CppInfra.MemPool.MpPoolFreed

set_option autoImplicit false

namespace CppInfra.MemPool.MpPool

open Words Transition ByteMemory LinkedChain Ledger

variable {size : Nat} {s : Pool}

-- The list from `head` is that of the pool's own blocks and ends in null, and `current` is a place in it; the headers
-- lie in the memory of the blocks and no record overlaps one; what `mp_destory_pool` frees is what is outstanding.
structure OwnChain (s : Pool) : Prop where
  chain : ∃ rest, s.addresses = s.head :: rest ∧ Linked (link s.nodes) s.head rest
  once : s.addresses.Nodup
  current : ∃ before rest, s.addresses = before ++ s.current :: rest ∧ Linked (link s.nodes) s.current rest
  headers : ∀ b ∈ s.blocks, b.node + sizeofNode ≤ b.region.start + b.region.size
  records : ∀ large ∈ s.made, ∀ b ∈ s.blocks, Region.Apart ⟨large, sizeofLarge⟩ b.header
  destroyed : ∃ freed : List Nat, mpDestoryPool s = some (freed.map .free) ∧ freed.Perm s.starts ∧ s.starts.Nodup

theorem Placed.header {nodes : Nat → Node} {b : Block} (placed : Placed size nodes b) :
    b.node + sizeofNode ≤ b.region.start + b.region.size := by
  have stop := placed.stop
  omega

theorem Inv.header_within (inv : Inv size s) {b : Block} (there : b ∈ s.blocks) :
    b.header.start + b.header.size = b.node + sizeofNode ∧
      b.header.start + b.header.size ≤ b.region.start + b.region.size := by
  have placed := inv.chained.block b there
  have start := placed.start
  have stop := placed.header
  simp only [Block.header]
  omega

theorem Inv.noOverlap (inv : Inv size s) : NoOverlap s := by
  obtain ⟨blocks, -, across⟩ := List.pairwise_append.mp inv.live
  refine ⟨fun b there => (inv.chained.block b there).header, ?_⟩
  refine List.pairwise_append.mpr ⟨inv.separate.apart, ?_, ?_⟩
  · refine List.pairwise_map.mpr ((List.pairwise_map.mp blocks).imp_of_mem ?_)
    intro b c left right apart
    exact apart.within (Nat.le_refl _) (inv.header_within left).2 (Nat.le_refl _) (inv.header_within right).2
  · intro r either h headers
    obtain ⟨b, there, rfl⟩ := List.mem_map.mp headers
    obtain ⟨stop, inside⟩ := inv.header_within there
    rcases List.mem_append.mp either with small | large
    · obtain ⟨a, member, rfl⟩ := List.mem_map.mp small
      by_cases same : a.node = b.node
      · have header := (inv.small a member).header
        exact .inr (by omega)
      · obtain ⟨c, place, node, low, high⟩ := inv.small_block member
        have apart := inv.blocks_apart place there (by rw [node]; exact same)
        exact apart.within low high (Nat.le_refl _) inside
    · have apart := across b.region (List.mem_map_of_mem there) r large
      exact apart.symm.within (Nat.le_refl _) (Nat.le_refl _) (Nat.le_refl _) inside

theorem Sound.ownChain (sound : Sound size s) (separate : NoOverlap s) : OwnChain s where
  chain := sound.chained.head
  once := sound.chained.distinct
  current := sound.chained.current_split
  headers := separate.headers
  records := by
    intro large member b there
    obtain ⟨node, small⟩ := sound.recorded.made large member
    have across := (List.pairwise_append.mp separate.apart).2.2
    exact across _ (List.mem_append_left _ (List.mem_map_of_mem small)) _ (List.mem_map_of_mem there)
  destroyed := by
    obtain ⟨freed, destroyed, same⟩ := sound.chained.mpDestoryPool sound.owned sound.recorded
    exact ⟨freed, destroyed, same, sound.owned.once⟩

structure Bare (size : Nat) (s : Pool) : Prop where
  chained : Chained size s
  owned : Owned s
  small : s.max < sizeofLarge
  large : s.large = 0
  larges : s.larges = []
  made : s.made = []

theorem Bare.recorded (bare : Bare size s) : Recorded s where
  records := by
    rw [bare.made]
    exact bare.large
  made := by
    rw [bare.made]
    simp
  distinct := by
    rw [bare.made]
    exact List.nodup_nil
  held := by
    rw [Pool.allocs, bare.made, bare.larges]
    exact List.Perm.refl _

theorem Bare.ownChain (bare : Bare size s) : OwnChain s where
  chain := bare.chained.head
  once := bare.chained.distinct
  current := bare.chained.current_split
  headers := fun b there => (bare.chained.block b there).header
  records := by
    rw [bare.made]
    simp
  destroyed := by
    obtain ⟨freed, destroyed, same⟩ := bare.chained.mpDestoryPool bare.owned bare.recorded
    exact ⟨freed, destroyed, same, bare.owned.once⟩

theorem free_obtained {alignment n p : Nat} (fresh : Fresh s.live alignment n p) : (s.obtained p n).free p = s := by
  have others : s.larges.filter (fun r => decide (r.start ≠ p)) = s.larges := by
    refine List.filter_eq_self.mpr ?_
    intro r there
    simpa using (fresh.2.2.2 r (List.mem_append_right _ there)).1
  rw [Pool.free, Pool.obtained, List.filter_cons, if_neg (by simp), others]

def Failed (s : Pool) (result : Nat × Pool × Answers) : Prop := result.1 = 0 ∧ result.2.1 = s

theorem record_fails {alignment n p : Nat} {outcome : Except Fault (Nat × Pool × Answers)}
    (fresh : Fresh s.live alignment n p) (fails : Fine (Failed (s.obtained p n)) outcome) :
    Fine (Failed s) (outcome.map (keepLarge p)) := by
  refine fails.map ?_
  rintro ⟨large, t, rest⟩ ⟨null, same⟩
  simp only at null same
  rw [keepLarge, if_pos null, same, free_obtained fresh]
  exact ⟨rfl, rfl⟩

theorem mpAllocLarge_fails {record : Pool → Except Fault (Nat × Pool × Answers)} (none : s.large = 0) (n : Nat)
    (rest : Answers) (answer : Option Nat) (fails : ∀ p, Fine (Failed (s.obtained p n)) (record (s.obtained p n))) :
    Fine (Failed s) (mpAllocLarge record s n rest answer) := by
  cases answer with
  | none => exact ⟨rfl, rfl⟩
  | some p =>
      rw [mpAllocLarge]
      by_cases fresh : Fresh s.live 1 n p
      · rw [if_pos fresh]
        have nothing : freeRecord s.records 5 s.large = .none := by
          rw [none]
          rfl
        simp only [nothing]
        exact record_fails fresh (fails p)
      · rw [if_neg fresh]
        trivial

theorem mpAlloc_fails {n : Nat} (small : s.max < sizeofLarge) (none : s.large = 0) (large : ¬ n ≤ s.max)
    (answers : Answers) : Fine (Failed s) (mpAlloc answers s n) := by
  induction answers generalizing s n with
  | nil =>
      rw [mpAlloc, if_neg large]
      trivial
  | cons answer rest ih =>
      rw [mpAlloc, if_neg large]
      refine mpAllocLarge_fails none n rest answer fun p => ih small none ?_
      show ¬ sizeofLarge ≤ s.max
      omega

theorem Failed.bare {result : Nat × Pool × Answers} (failed : Failed s result) (bare : Bare size s) :
    Bare size result.2.1 := by
  rw [failed.2]
  exact bare

theorem Booked.bare {n : Nat} {made : List Call} {result : Nat × Pool × Answers}
    (booked : Booked size s n made result) (bare : Bare size s) : Bare size result.2.1 := by
  obtain ⟨max, -, large, chain, larges, -⟩ := booked.served.kept
  exact ⟨booked.served.chained bare.chained, booked.owned, max ▸ bare.small, large.trans bare.large,
    larges.trans bare.larges, chain.trans bare.made⟩

theorem Bare.mpAlloc (bare : Bare size s) (n : Nat) (answers : Answers) :
    Fine (fun result => Bare size result.2.1) (mpAlloc answers s n) := by
  by_cases small : n ≤ s.max
  · exact (bare.owned.mpAlloc_small bare.chained small answers).mono fun _ booked => booked.bare bare
  · exact (mpAlloc_fails bare.small bare.large small answers).mono fun _ failed => failed.bare bare

theorem Bare.mpNalloc (bare : Bare size s) (n : Nat) (answers : Answers) :
    Fine (fun result => Bare size result.2.1) (mpNalloc answers s n) := by
  rw [MpPool.mpNalloc.eq_def]
  have small := bare.small
  split
  · exact (bare.owned.allocSmall bare.chained id n answers).mono fun _ booked => booked.bare bare
  · cases answers with
    | nil => trivial
    | cons answer rest =>
        have record : ∀ p, Fine (Failed (s.obtained p n))
            ((fun t => MpPool.mpAlloc rest t sizeofLarge) (s.obtained p n)) :=
          fun p => mpAlloc_fails (s := s.obtained p n) small bare.large (by show ¬ _ ≤ s.max; omega) rest
        exact (mpAllocLarge_fails bare.large n rest answer record).mono fun _ failed => failed.bare bare

theorem Bare.mpMemalign (bare : Bare size s) (n alignment : Nat) (answers : Answers) :
    Fine (fun result => Bare size result.2.1) (mpMemalign answers s n alignment) := by
  have small := bare.small
  match answers with
  | [] => trivial
  | none :: rest => exact bare
  | some p :: rest =>
      rw [MpPool.mpMemalign]
      split
      · rename_i fresh
        have fails := mpAlloc_fails (s := s.obtained p n) (n := sizeofLarge) small bare.large
          (by show ¬ _ ≤ s.max; omega) rest
        exact (record_fails fresh fails).mono fun _ failed => failed.bare bare
      · trivial

theorem Bare.mpFree (bare : Bare size s) (p : Nat) : mpFree s p = .ok s := by
  rw [MpPool.mpFree, bare.made, bare.large]
  rfl

theorem Bare.mpResetPool (bare : Bare size s) {t : Pool} (done : mpResetPool s = .ok t) : Bare size t := by
  have chained := bare.chained.mpResetPool done
  rw [MpPool.mpResetPool, bare.made, bare.large] at done
  obtain ⟨reset, rest, ran, -, -⟩ := bare.chained.resetNodes
  simp only [freeLarges, ran, if_true, List.length_nil] at done
  obtain rfl := Except.ok.inj done
  exact ⟨chained, bare.owned.congr rfl rfl rfl, bare.small, rfl, bare.larges, rfl⟩

theorem step_bare {t : Pool} {event : Event} (bare : Bare size s) (taken : step s event = some t) : Bare size t := by
  have done := step_ok taken
  cases event with
  | alloc n answers => exact (bare.mpAlloc n answers).of_called done
  | nalloc n answers => exact (bare.mpNalloc n answers).of_called done
  | calloc n answers => exact (bare.mpAlloc n answers).of_called done
  | memalign n alignment answers => exact (bare.mpMemalign n alignment answers).of_called done
  | free p =>
      obtain rfl := Except.ok.inj ((bare.mpFree p).symm.trans done)
      exact bare
  | reset => exact bare.mpResetPool done

theorem created_bare {p : Nat} {nodes : Nat → Node} {records : Nat → Large} (few : size < sizeofLarge)
    (fits : size + sizeofPool + sizeofNode < 2 ^ 64) (zeroed : (nodes (p + sizeofPool)).next = 0)
    (created : mpCreatePool size nodes records (some p) = .ok (some s)) : Bare size s := by
  have chained := created_chained fits zeroed created
  have owned := created_owned fits created
  obtain ⟨rfl, -, -⟩ := created_eq fits created
  have most : mpMaxAllocFromPool = 4095 := rfl
  have record : sizeofLarge = 16 := rfl
  refine ⟨chained, owned, ?_, rfl, rfl, rfl⟩
  simp only [emptyPool]
  split
  · exact few
  · omega

theorem run_ownChain {t : Pool} {p : Nat} {nodes : Nat → Node} {records : Nat → Large} {events : List Event}
    (fits : size + sizeofPool + sizeofNode < 2 ^ 64) (zeroed : (nodes (p + sizeofPool)).next = 0)
    (created : mpCreatePool size nodes records (some p) = .ok (some s))
    (inside : Along step StaysInside s events) (ran : run step s events = some t) : OwnChain t := by
  by_cases enough : sizeofLarge ≤ size
  · have initial : Inv size s ∧ Sound size s :=
      ⟨created_inv enough fits zeroed created, created_sound enough fits zeroed created⟩
    have reached := run_invariant_along (fun u => Inv size u ∧ Sound size u) (fun _ _ _ both stays taken => by
      have inv := step_inv both.1 stays taken
      exact ⟨inv, (step_sound both.2 taken inv.noOverlap).1⟩) initial inside ran
    exact reached.2.ownChain reached.1.noOverlap
  · have initial := created_bare (Nat.lt_of_not_le enough) fits zeroed created
    exact (run_invariant (Bare size) (fun _ _ _ bare taken => step_bare bare taken) initial ran).ownChain

theorem mpPool_ownChain (size p : Nat) (nodes : Nat → Node) (records : Nat → Large) (s : Pool) (word : size < 2 ^ 64)
    (created : mpCreatePool size nodes records (some p) = .ok (some s)) :
    (∀ events t, Along step StaysInside s events → run step s events = some t → OwnChain t) ↔
      (nodes (p + sizeofPool)).next = 0 ∧ size + sizeofPool + sizeofNode < 2 ^ 64 := by
  constructor
  · intro all
    have own := all [] s trivial rfl
    have fits := created_fits word created own.headers
    obtain ⟨rfl, -, -⟩ := created_eq fits created
    obtain ⟨rest, shape, linked⟩ := own.chain
    obtain ⟨-, rfl⟩ := List.cons.inj shape
    refine ⟨?_, fits⟩
    simpa [emptyPool] using link_none linked
  · rintro ⟨zeroed, fits⟩ events t inside ran
    exact run_ownChain fits zeroed created inside ran

def chainMixed : List Event :=
  [.alloc 60 [], .alloc 64 [some 0x2000], .alloc 100 [some 0x8000, some 0x3000], .reset, .alloc 64 []]

theorem mpPool_ownChain_mixed :
    ∃ s t, onZeros 72 0x1000 = .ok (some s) ∧ run step s chainMixed = some t ∧
      t.addresses = [0x1018, 0x2000, 0x3000] ∧ OwnChain t := by
  have possible : ((onZeros 72 0x1000).toOption.join.bind fun s =>
      (run step s chainMixed).bind fun t =>
        if Along step StaysInside s chainMixed ∧ t.addresses = [0x1018, 0x2000, 0x3000] then some t
        else none).isSome := by decide
  obtain ⟨t, all⟩ := Option.isSome_iff_exists.mp possible
  obtain ⟨s, created, after⟩ := Option.bind_eq_some_iff.mp all
  obtain ⟨u, ran, rest⟩ := Option.bind_eq_some_iff.mp after
  split at rest
  · rename_i facts
    obtain ⟨inside, blocks⟩ := facts
    have own := (mpPool_ownChain 72 0x1000 _ _ s (by decide) (onZeros_created created)).mpr ⟨rfl, by decide⟩
    exact ⟨s, u, onZeros_created created, ran, blocks, own chainMixed u inside ran⟩
  · cases rest

-- Memory that was used before: `mp_destory_pool` frees an address that the pool never got.
theorem mpPool_ownChain_recycled :
    ∃ s, mpCreatePool 4096 (fun q => ⟨0, 0, if q = 0x1018 then 0x5000 else 0, 0⟩) (fun _ => ⟨0, 0⟩) (some 0x1000) =
        .ok (some s) ∧
      s.starts = [0x1000] ∧ mpDestoryPool s = some [.free 0x5000, .free 0x1000] ∧ ¬ OwnChain s := by
  refine ⟨_, rfl, by decide, by decide, ?_⟩
  intro own
  obtain ⟨rest, shape, linked⟩ := own.chain
  obtain ⟨-, rfl⟩ := List.cons.inj shape
  exact absurd (link_none linked) (by decide)

end CppInfra.MemPool.MpPool
