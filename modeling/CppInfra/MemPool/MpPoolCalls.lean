import CppInfra.MemPool.MpPoolInvariant

set_option autoImplicit false

namespace CppInfra.MemPool.MpPool

open Words ByteMemory LinkedChain

variable {size : Nat} {s : Pool}

def Allocated (size : Nat) (s : Pool) (n : Nat) (result : Nat × Pool × Answers) : Prop :=
  (result.1 = 0 ∧ result.2.1 = s) ∨ (Inv size result.2.1 ∧ Cut s n result.1 result.2.1)

theorem Inv.mpAllocBlock (inv : Inv size s) {n : Nat} (fits : n ≤ size) (answers : Answers) :
    Fine (Allocated size s n) (mpAllocBlock s n answers) := by
  refine (inv.chained.mpAllocBlock n answers).mono ?_
  intro result grows
  rcases grows with failed | ⟨m, grown⟩
  · exact .inl failed
  · obtain ⟨positive, low, -, -⟩ := grown.fresh
    have last : add 64 (m + sizeofNode) n = m + sizeofNode + n := add_exact (by omega)
    refine .inr ⟨?_, ?_⟩
    · rw [grown.pool]
      exact inv.grown grown.fresh fits grown.same (last ▸ grown.new) grown.linked grown.current
    · rw [grown.pool, grown.first]
      exact ⟨⟨m, rfl⟩, by omega, rfl, rfl, rfl, rfl⟩

theorem visitsInside_of {nodes : Nat → Node} {place : Nat → Nat} {n p : Nat} {rest : List Nat} (turns : Nat)
    (linked : Linked (link nodes) p rest) (inside : ∀ q ∈ p :: rest, place (nodes q).last ≤ (nodes q).end_) :
    VisitsInside nodes place n turns p := by
  induction turns generalizing p rest with
  | zero => trivial
  | succ turns ih =>
      refine ⟨inside p (List.mem_cons_self ..), ?_⟩
      intro _ more
      cases rest with
      | nil => exact absurd (link_none linked) more
      | cons next rest =>
          rw [(link_some linked.1).1]
          exact ih linked.2 fun q member => inside q (List.mem_cons_of_mem p member)

theorem Inv.visits_last (inv : Inv size s) (n : Nat) :
    VisitsInside s.nodes id n s.blocks.length s.current := by
  obtain ⟨rest, linked, -, members⟩ := inv.chained.rest
  apply visitsInside_of _ linked
  intro q member
  obtain ⟨b, -, rfl, ok⟩ := inv.node_block (members q member)
  exact ok.last

theorem Inv.allocSmall (inv : Inv size s) {place : Nat → Nat} {n : Nat} (fits : n ≤ size)
    (behind : ∀ q, q < 2 ^ 63 → q ≤ place q)
    (inside : VisitsInside s.nodes place n s.blocks.length s.current) (answers : Answers) :
    Fine (Allocated size s n) (allocSmall place s n answers) := by
  obtain ⟨rest, linked, enough, members⟩ := inv.chained.rest
  have low : ∀ q ∈ s.current :: rest, (s.nodes q).end_ < 2 ^ 63 := by
    intro q member
    obtain ⟨b, -, rfl, ok⟩ := inv.node_block (members q member)
    rw [ok.end_, ok.stop]
    exact ok.low
  rw [MpPool.allocSmall]
  rcases search_spec linked low inside enough with none | ⟨q, member, found, room⟩
  · rw [none]
    exact inv.mpAllocBlock fits answers
  · rw [found]
    obtain ⟨b, -, rfl, ok⟩ := inv.node_block (members q member)
    have bound := low _ member
    have last := ok.last
    have header := ok.header
    have positive := ok.positive
    have start := behind (s.nodes b.node).last (by omega)
    refine .inr ⟨inv.cut (members _ member) start room, ⟨b.node, rfl⟩, ?_, rfl, rfl, rfl, rfl⟩
    simp only
    omega

def Pool.SearchInside (s : Pool) (n : Nat) : Prop :=
  VisitsInside s.nodes (mpAlignPtr · mpAlignment) n s.blocks.length s.current

instance searchInsideDecidable (s : Pool) (n : Nat) : Decidable (s.SearchInside n) :=
  inferInstanceAs (Decidable (VisitsInside ..))

theorem Inv.mpAlloc_small (inv : Inv size s) {n : Nat} (small : n ≤ s.max) (inside : s.SearchInside n)
    (answers : Answers) : Fine (Allocated size s n) (mpAlloc answers s n) := by
  have fits := Nat.le_trans small inv.most
  have aligned := inv.allocSmall fits (fun q bound => (mpAlignPtr_bounds bound).1) inside
  cases answers with
  | nil =>
      rw [MpPool.mpAlloc, if_pos small]
      exact aligned []
  | cons answer rest =>
      rw [MpPool.mpAlloc, if_pos small]
      exact aligned (answer :: rest)

theorem Inv.free (inv : Inv size s) (p : Nat) : Inv size (s.free p) :=
  { inv with live := inv.live.sublist (List.filter_sublist.append_left _) }

theorem Inv.obtained (inv : Inv size s) {alignment n p : Nat} (fresh : Fresh s.live alignment n p) :
    Inv size { s with larges := ⟨p, n⟩ :: s.larges } :=
  { inv with live := fresh.live inv.live }

theorem Inv.setAlloc (inv : Inv size s) (large p : Nat) :
    Inv size { s with records := Function.update s.records large { s.records large with alloc := p } } := by
  refine { inv with records := inv.records.congr ?_ }
  intro r _
  by_cases same : r = large
  · simp [same]
  · simp [same]

theorem Allocated.keepLarge {result : Nat × Pool × Answers} (inv : Inv size s)
    (allocated : Allocated size s sizeofLarge result) (p : Nat) : Inv size (keepLarge p result).2.1 := by
  obtain ⟨large, t, rest⟩ := result
  rcases allocated with ⟨null, same⟩ | ⟨held, cut⟩
  · simp only at null same
    rw [MpPool.keepLarge, if_pos null, same]
    exact inv.free p
  · have nonnull := cut.nonnull
    simp only at held nonnull
    rw [MpPool.keepLarge, if_neg nonnull]
    obtain ⟨node, smalls⟩ := cut.smalls
    simp only at smalls
    have absent : large ∉ t.made := by
      intro again
      rw [cut.made] at again
      obtain ⟨other, there⟩ := inv.made large again
      have apart := held.apart
      rw [smalls] at apart
      have overlap := (List.pairwise_cons.mp apart).1 _ there
      have positive : sizeofLarge = 16 := rfl
      rcases overlap with before | behind
      · simp only at before
        omega
      · simp only at behind
        omega
    exact
      { held with
        records := by
          refine ⟨rfl, nonnull, ?_⟩
          simp only [Function.update_self]
          apply held.records.congr
          intro r member
          have different : r ≠ large := fun equal => absent (equal ▸ member)
          rw [Function.update_of_ne different]
        made := by
          intro r member
          rcases List.mem_cons.mp member with rfl | older
          · exact ⟨node, by rw [smalls]; exact List.mem_cons_self ..⟩
          · exact held.made r older
        once := List.nodup_cons.mpr ⟨absent, held.once⟩ }

end CppInfra.MemPool.MpPool
