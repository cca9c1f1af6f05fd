import CppInfra.MemPool.MpPoolChain

set_option autoImplicit false

namespace CppInfra.MemPool.MpPool

open Words ByteMemory LinkedChain

def VisitsInside (nodes : Nat → Node) (place : Nat → Nat) (size : Nat) : Nat → Nat → Prop
  | 0, _ => True
  | turns + 1, p =>
      place (nodes p).last ≤ (nodes p).end_ ∧
        ((nodes p).end_ - place (nodes p).last < size → (nodes p).next ≠ 0 →
          VisitsInside nodes place size turns (nodes p).next)

instance visitsInsideDecidable (nodes : Nat → Node) (place : Nat → Nat) (size turns p : Nat) :
    Decidable (VisitsInside nodes place size turns p) :=
  match turns with
  | 0 => .isTrue trivial
  | turns + 1 =>
      have := visitsInsideDecidable nodes place size turns (nodes p).next
      inferInstanceAs (Decidable (_ ∧ _))

theorem search_spec {nodes : Nat → Node} {place : Nat → Nat} {size turns p : Nat} {rest : List Nat}
    (linked : Linked (link nodes) p rest) (low : ∀ q ∈ p :: rest, (nodes q).end_ < 2 ^ 63)
    (inside : VisitsInside nodes place size turns p) (enough : rest.length < turns) :
    search nodes place size turns p = some none ∨
      ∃ q ∈ p :: rest, search nodes place size turns p = some (some q) ∧
        place (nodes q).last + size ≤ (nodes q).end_ := by
  induction rest generalizing p turns with
  | nil =>
      obtain ⟨turns, rfl⟩ := Nat.exists_eq_succ_of_ne_zero (Nat.ne_of_gt enough)
      have bound := low p (List.mem_cons_self ..)
      rw [search, sub_exact inside.1 (by omega)]
      by_cases fits : (nodes p).end_ - place (nodes p).last ≥ size
      · refine .inr ⟨p, List.mem_cons_self .., if_pos fits, ?_⟩
        have order := inside.1
        omega
      · rw [if_neg fits, if_pos (link_none linked)]
        exact .inl rfl
  | cons next rest ih =>
      obtain ⟨turns, rfl⟩ := Nat.exists_eq_succ_of_ne_zero (Nat.ne_of_gt (Nat.zero_lt_of_lt enough))
      have bound := low p (List.mem_cons_self ..)
      obtain ⟨here, more⟩ := link_some linked.1
      rw [search, sub_exact inside.1 (by omega)]
      by_cases fits : (nodes p).end_ - place (nodes p).last ≥ size
      · refine .inr ⟨p, List.mem_cons_self .., if_pos fits, ?_⟩
        have order := inside.1
        omega
      · have further := inside.2 (by omega) (by rw [here]; exact more)
        rw [here] at further
        rw [if_neg fits, if_neg (by rw [here]; exact more), here]
        rcases ih linked.2 (fun q member => low q (List.mem_cons_of_mem p member)) further (by simpa using enough)
          with none | ⟨q, member, found, room⟩
        · exact .inl none
        · exact .inr ⟨q, List.mem_cons_of_mem p member, found, room⟩

theorem Region.Apart.symm {r t : Region} (apart : r.Apart t) : t.Apart r := ByteMemory.Apart.symm apart

theorem Region.Apart.within {r t inner outer : Region} (apart : r.Apart t) (innerLow : r.start ≤ inner.start)
    (innerHigh : inner.start + inner.size ≤ r.start + r.size) (outerLow : t.start ≤ outer.start)
    (outerHigh : outer.start + outer.size ≤ t.start + t.size) : inner.Apart outer := by
  rcases apart with before | behind
  · exact .inl (by omega)
  · exact .inr (by omega)

structure BlockOk (size : Nat) (nodes : Nat → Node) (b : Block) : Prop where
  start : b.region.start ≤ b.node
  positive : 0 < b.node
  stop : b.node + sizeofNode + size = b.region.start + b.region.size
  low : b.region.start + b.region.size < 2 ^ 63
  end_ : (nodes b.node).end_ = b.node + sizeofNode + size
  header : b.node + sizeofNode ≤ (nodes b.node).last
  last : (nodes b.node).last ≤ (nodes b.node).end_

structure SmallOk (addresses : List Nat) (nodes : Nat → Node) (a : Small) : Prop where
  node : a.node ∈ addresses
  header : a.node + sizeofNode ≤ a.region.start
  last : a.region.start + a.region.size ≤ (nodes a.node).last

structure Inv (size : Nat) (s : Pool) : Prop where
  head : ∃ rest, s.addresses = s.head :: rest ∧ Linked (link s.nodes) s.head rest
  current : s.current ∈ s.addresses
  distinct : s.addresses.Nodup
  block : ∀ b ∈ s.blocks, BlockOk size s.nodes b
  small : ∀ a ∈ s.smalls, SmallOk s.addresses s.nodes a
  apart : s.smalls.Pairwise fun a b => a.region.Apart b.region
  live : s.live.Pairwise Region.Apart
  most : s.max ≤ size
  record : sizeofLarge ≤ s.max
  records : Records s.records s.large s.made
  made : ∀ large ∈ s.made, ∃ node, ⟨node, ⟨large, sizeofLarge⟩⟩ ∈ s.smalls
  once : s.made.Nodup

variable {size : Nat} {s : Pool}

theorem Inv.chained (inv : Inv size s) : Chained size s where
  head := inv.head
  current := inv.current
  distinct := inv.distinct
  block := by
    intro b there
    have ok := inv.block b there
    exact ⟨ok.start, ok.positive, ok.stop, ok.low, ok.end_⟩

theorem Inv.node_block (inv : Inv size s) {p : Nat} (member : p ∈ s.addresses) :
    ∃ b ∈ s.blocks, b.node = p ∧ BlockOk size s.nodes b := by
  obtain ⟨b, inside, same⟩ := List.mem_map.mp member
  exact ⟨b, inside, same, inv.block b inside⟩

theorem Inv.small_block (inv : Inv size s) {a : Small} (member : a ∈ s.smalls) :
    ∃ b ∈ s.blocks, b.node = a.node ∧ b.region.start ≤ a.region.start ∧
      a.region.start + a.region.size ≤ b.region.start + b.region.size := by
  have ok := inv.small a member
  obtain ⟨b, inside, same, block⟩ := inv.node_block ok.node
  have header := ok.header
  have below := ok.last
  have start := block.start
  have stop := block.stop
  have end_ := block.end_
  have last := block.last
  rw [same] at start stop end_ last
  exact ⟨b, inside, same, by omega, by omega⟩

theorem Inv.blocks_apart (inv : Inv size s) {b c : Block} (left : b ∈ s.blocks) (right : c ∈ s.blocks)
    (differ : b.node ≠ c.node) : b.region.Apart c.region := by
  have pairs := List.pairwise_map.mp (List.pairwise_append.mp inv.live).1
  have symmetric : Std.Symm fun b c : Block => b.region.Apart c.region := ⟨fun _ _ apart => apart.symm⟩
  exact pairs.forall left right fun same => differ (by rw [same])

structure Cut (s : Pool) (size p : Nat) (t : Pool) : Prop where
  smalls : ∃ node, t.smalls = ⟨node, ⟨p, size⟩⟩ :: s.smalls
  nonnull : p ≠ 0
  records : t.records = s.records
  large : t.large = s.large
  made : t.made = s.made
  larges : t.larges = s.larges

theorem Inv.made_kept (inv : Inv size s) {smalls : List Small} (kept : ∀ a ∈ s.smalls, a ∈ smalls) :
    ∀ large ∈ s.made, ∃ node, ⟨node, ⟨large, sizeofLarge⟩⟩ ∈ smalls := by
  intro large member
  obtain ⟨node, there⟩ := inv.made large member
  exact ⟨node, kept _ there⟩

theorem Inv.cut (inv : Inv size s) {p m n : Nat} (member : p ∈ s.addresses) (behind : (s.nodes p).last ≤ m)
    (room : m + n ≤ (s.nodes p).end_) :
    Inv size { s with
      nodes := Function.update s.nodes p { s.nodes p with last := add 64 m n }
      smalls := ⟨p, ⟨m, n⟩⟩ :: s.smalls } := by
  obtain ⟨b, inside, rfl, ok⟩ := inv.node_block member
  have low := ok.low
  have stop := ok.stop
  have end_ := ok.end_
  have header := ok.header
  have start := ok.start
  have fits : add 64 m n = m + n := add_exact (by omega)
  have field : ∀ q, link (Function.update s.nodes b.node { s.nodes b.node with last := m + n }) q = link s.nodes q := by
    intro q
    by_cases same : q = b.node
    · simp [link, same]
    · simp [link, same]
  rw [fits]
  exact
    { inv with
      head := by
        obtain ⟨rest, shape, linked⟩ := inv.head
        exact ⟨rest, shape, linked.congr fun q _ => field q⟩
      block := by
        intro c there
        have old := inv.block c there
        by_cases same : c.node = b.node
        · refine ⟨old.start, old.positive, old.stop, old.low, ?_, ?_, ?_⟩
          · simpa [same] using end_
          · simp only [same, Function.update_self]
            omega
          · simp only [same, Function.update_self]
            omega
        · refine ⟨old.start, old.positive, old.stop, old.low, ?_, ?_, ?_⟩
          · simpa [same] using old.end_
          · simpa [same] using old.header
          · simpa [same] using old.last
      small := by
        intro a there
        rcases List.mem_cons.mp there with rfl | older
        · refine ⟨member, ?_, ?_⟩
          · show b.node + sizeofNode ≤ m
            omega
          · simp
        · have old := inv.small a older
          refine ⟨old.node, old.header, ?_⟩
          have last := old.last
          by_cases same : a.node = b.node
          · rw [same] at last
            simp only [same, Function.update_self]
            omega
          · simpa [same] using last
      apart := by
        refine List.pairwise_cons.mpr ⟨?_, inv.apart⟩
        intro a older
        have old := inv.small a older
        have last := old.last
        by_cases same : a.node = b.node
        · rw [same] at last
          exact .inr (by simp only; omega)
        · obtain ⟨c, there, equal, low', high'⟩ := inv.small_block older
          have blocks := inv.blocks_apart inside there (by rw [equal]; exact Ne.symm same)
          exact blocks.within (by simp only; omega) (by simp only; omega) low' high'
      made := inv.made_kept fun a there => List.mem_cons_of_mem _ there }

theorem Fresh.live {blocks larges : List Region} {alignment n p : Nat}
    (fresh : Fresh (blocks ++ larges) alignment n p) (apart : (blocks ++ larges).Pairwise Region.Apart) :
    (blocks ++ ⟨p, n⟩ :: larges).Pairwise Region.Apart := by
  obtain ⟨-, -, -, outside⟩ := fresh
  obtain ⟨left, right, across⟩ := List.pairwise_append.mp apart
  refine List.pairwise_append.mpr ⟨left, List.pairwise_cons.mpr ⟨?_, right⟩, ?_⟩
  · intro r there
    exact (outside r (List.mem_append_right _ there)).2.symm
  · intro r there t behind
    rcases List.mem_cons.mp behind with rfl | large
    · exact (outside r (List.mem_append_left _ there)).2
    · exact across r there t large

theorem Inv.grown (inv : Inv size s) {m n current : Nat} (fresh : Fresh s.live mpAlignment (sizeofNode + size) m)
    (fits : n ≤ size) {nodes : Nat → Node}
    (same : ∀ q, q ≠ m → (nodes q).last = (s.nodes q).last ∧ (nodes q).end_ = (s.nodes q).end_)
    (new : (nodes m).last = m + sizeofNode + n ∧ (nodes m).end_ = m + sizeofNode + size)
    (linked : ∃ rest, s.addresses = s.head :: rest ∧ Linked (link nodes) s.head (rest ++ [m]))
    (inList : current ∈ s.addresses) :
    Inv size { s with
      nodes := nodes
      current := current
      blocks := s.blocks ++ [⟨m, ⟨m, sizeofNode + size⟩⟩]
      smalls := ⟨m, ⟨m + sizeofNode, n⟩⟩ :: s.smalls } := by
  have absent := inv.chained.fresh_address fresh
  have live := fresh.live inv.live
  obtain ⟨positive, low, -, outside⟩ := fresh
  have other : ∀ b ∈ s.blocks, b.node ≠ m := fun b there equal => absent (equal ▸ List.mem_map_of_mem there)
  have addresses : s.addresses ++ [m] = (s.blocks ++ [(⟨m, ⟨m, sizeofNode + size⟩⟩ : Block)]).map Block.node := by
    simp [Pool.addresses]
  exact
    { inv with
      head := by
        obtain ⟨rest, shape, chain⟩ := linked
        refine ⟨rest ++ [m], ?_, chain⟩
        rw [Pool.addresses, ← addresses, shape]
        rfl
      current := by
        rw [Pool.addresses, ← addresses]
        exact List.mem_append_left _ inList
      distinct := by
        rw [Pool.addresses, ← addresses]
        simpa using inv.distinct.concat absent
      block := by
        intro b there
        rcases List.mem_append.mp there with older | last
        · have old := inv.block b older
          obtain ⟨lastSame, endSame⟩ := same b.node (other b older)
          exact ⟨old.start, old.positive, old.stop, old.low, endSame.trans old.end_, lastSame ▸ old.header,
            by rw [lastSame, endSame]; exact old.last⟩
        · obtain rfl := List.mem_singleton.mp last
          refine ⟨Nat.le_refl _, positive, Nat.add_assoc .., low, new.2, ?_, ?_⟩
          · simp only [new.1]
            omega
          · simp only [new.1, new.2]
            omega
      small := by
        intro a there
        rw [Pool.addresses, ← addresses]
        rcases List.mem_cons.mp there with rfl | older
        · exact ⟨List.mem_append_right _ (List.mem_singleton_self m), Nat.le_refl _, Nat.le_of_eq new.1.symm⟩
        · have old := inv.small a older
          have apart : a.node ≠ m := fun equal => absent (equal ▸ old.node)
          exact ⟨List.mem_append_left _ old.node, old.header, (same a.node apart).1 ▸ old.last⟩
      apart := by
        refine List.pairwise_cons.mpr ⟨?_, inv.apart⟩
        intro a older
        obtain ⟨b, there, -, low', high'⟩ := inv.small_block older
        have apart := (outside b.region (List.mem_append_left _ (List.mem_map_of_mem there))).2
        exact apart.symm.within (by simp) (by simp only; omega) low' high'
      live := by
        rw [Pool.live, List.map_append, List.append_assoc]
        exact live
      made := inv.made_kept fun a there => List.mem_cons_of_mem _ there }

end CppInfra.MemPool.MpPool
