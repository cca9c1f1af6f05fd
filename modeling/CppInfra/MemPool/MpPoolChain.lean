import CppInfra.MemPool.MpPool
import CppInfra.Shared.LinkedChain
import Mathlib.Data.List.Pairwise

set_option autoImplicit false

namespace CppInfra.MemPool.MpPool

open Words ByteMemory LinkedChain

def Fine {A : Type} (good : A → Prop) : Except Fault A → Prop
  | .ok result => good result
  | .error .refused => True
  | .error .loops => False

theorem Fine.map {A B : Type} {good : A → Prop} {better : B → Prop} {f : A → B} {outcome : Except Fault A}
    (fine : Fine good outcome) (next : ∀ result, good result → better (f result)) : Fine better (outcome.map f) := by
  cases outcome with
  | ok result => exact next result fine
  | error fault =>
      cases fault with
      | loops => exact fine
      | refused => trivial

theorem Fine.mono {A : Type} {good better : A → Prop} {outcome : Except Fault A} (fine : Fine good outcome)
    (implies : ∀ result, good result → better result) : Fine better outcome := by
  cases outcome with
  | ok result => exact implies result fine
  | error fault =>
      cases fault with
      | loops => exact fine
      | refused => trivial

theorem mpAlignPtr_bounds {p : Nat} (low : p < 2 ^ 63) :
    p ≤ mpAlignPtr p mpAlignment ∧ mpAlignPtr p mpAlignment < p + 32 := by
  rw [mpAlignPtr, mpAlignment, add_exact (by omega)]
  omega

theorem mpAlignPtr_aligned {p : Nat} (low : p < 2 ^ 63) (aligned : p % mpAlignment = 0) :
    mpAlignPtr p mpAlignment = p := by
  rw [mpAlignPtr]
  rw [mpAlignment] at *
  rw [add_exact (by omega)]
  omega

def link (nodes : Nat → Node) (p : Nat) : Option (Option Nat) :=
  some (if (nodes p).next = 0 then none else some (nodes p).next)

theorem link_none {nodes : Nat → Node} {p : Nat} (linked : link nodes p = some none) : (nodes p).next = 0 := by
  by_contra more
  simp [link, more] at linked

theorem link_some {nodes : Nat → Node} {p q : Nat} (linked : link nodes p = some (some q)) :
    (nodes p).next = q ∧ q ≠ 0 := by
  by_cases last : (nodes p).next = 0
  · simp [link, last] at linked
  · simp only [link, last, if_false, Option.some.injEq] at linked
    exact ⟨linked, linked ▸ last⟩

def SameNodes (first second : Nat → Node) : Prop :=
  ∀ p, (first p).last = (second p).last ∧ (first p).end_ = (second p).end_ ∧ (first p).next = (second p).next

theorem SameNodes.link {first second : Nat → Node} (same : SameNodes first second) (p : Nat) :
    link first p = link second p := by
  rw [MpPool.link, MpPool.link, (same p).2.2]

theorem countFailed_spec {nodes : Nat → Node} {p : Nat} {rest : List Nat} (turns current : Nat)
    (linked : Linked (link nodes) p rest) (enough : rest.length < turns) :
    ∃ nodes' current', countFailed turns nodes current p = some (nodes', current', final p rest) ∧
      SameNodes nodes' nodes ∧ (current' = current ∨ current' ∈ rest) := by
  induction rest generalizing nodes p turns current with
  | nil =>
      obtain ⟨turns, rfl⟩ := Nat.exists_eq_succ_of_ne_zero (Nat.ne_of_gt enough)
      refine ⟨nodes, current, ?_, fun q => ⟨rfl, rfl, rfl⟩, .inl rfl⟩
      rw [countFailed, if_pos (link_none linked)]
      rfl
  | cons next rest ih =>
      obtain ⟨turns, rfl⟩ := Nat.exists_eq_succ_of_ne_zero (Nat.ne_of_gt (Nat.zero_lt_of_lt enough))
      obtain ⟨here, more⟩ := link_some linked.1
      have counted : SameNodes
          (Function.update nodes p { nodes p with failed := add 64 (nodes p).failed 1 }) nodes := by
        intro q
        by_cases equal : q = p
        · subst equal
          simp
        · simp [equal]
      have relinked := linked.2.congr fun q _ => counted.link q
      obtain ⟨nodes', current', ran, same, where_⟩ :=
        ih turns (if (nodes p).failed > 4 then next else current) relinked (by simpa using enough)
      refine ⟨nodes', current', ?_, ?_, ?_⟩
      · rw [countFailed, if_neg (by rw [here]; exact more), here]
        exact ran
      · intro q
        obtain ⟨last, end_, link⟩ := same q
        obtain ⟨last', end', link'⟩ := counted q
        exact ⟨last.trans last', end_.trans end', link.trans link'⟩
      · rcases where_ with unchanged | later
        · rw [unchanged]
          split
          · exact .inr (List.mem_cons_self ..)
          · exact .inl rfl
        · exact .inr (List.mem_cons_of_mem next later)

structure Reset (nodes reset : Nat → Node) (visited : List Nat) : Prop where
  links : ∀ q, (reset q).next = (nodes q).next
  ends : ∀ q, (reset q).end_ = (nodes q).end_
  headers : ∀ q ∈ visited, (reset q).last = add 64 q sizeofNode
  others : ∀ q, q ∉ visited → (reset q).last = (nodes q).last

theorem Reset.next {nodes reset : Nat → Node} {visited : List Nat} {h : Nat}
    (rest : Reset (Function.update nodes h { nodes h with last := add 64 h sizeofNode }) reset visited)
    (once : h ∉ visited) : Reset nodes reset (h :: visited) := by
  refine ⟨?_, ?_, ?_, ?_⟩
  · intro q
    rw [rest.links]
    by_cases same : q = h
    · simp [same]
    · simp [same]
  · intro q
    rw [rest.ends]
    by_cases same : q = h
    · simp [same]
    · simp [same]
  · intro q member
    rcases List.mem_cons.mp member with rfl | later
    · rw [rest.others q once, Function.update_self]
    · exact rest.headers q later
  · intro q absent
    obtain ⟨different, later⟩ := not_or.mp (mt List.mem_cons.mpr absent)
    rw [rest.others q later, Function.update_of_ne different]

theorem resetNodes_spec {nodes : Nat → Node} {h : Nat} {rest : List Nat} (turns : Nat)
    (linked : Linked (link nodes) h rest) (nonnull : h ≠ 0) (distinct : (h :: rest).Nodup)
    (enough : rest.length + 1 < turns) :
    ∃ reset, resetNodes turns nodes h = some reset ∧ Reset nodes reset (h :: rest) := by
  induction rest generalizing nodes h turns with
  | nil =>
      obtain ⟨turns, rfl⟩ : ∃ more, turns = more + 2 := ⟨turns - 2, by rw [List.length_nil] at enough; omega⟩
      refine ⟨Function.update nodes h { nodes h with last := add 64 h sizeofNode }, ?_, ?_⟩
      · rw [resetNodes, if_neg nonnull, link_none linked, resetNodes, if_pos rfl]
      · refine Reset.next ⟨fun _ => rfl, fun _ => rfl, ?_, fun _ _ => rfl⟩ (by simp)
        simp
  | cons next rest ih =>
      obtain ⟨turns, rfl⟩ := Nat.exists_eq_succ_of_ne_zero (Nat.ne_of_gt (Nat.zero_lt_of_lt enough))
      obtain ⟨here, more⟩ := link_some linked.1
      obtain ⟨once, distinctRest⟩ := List.nodup_cons.mp distinct
      have relinked :
          Linked (link (Function.update nodes h { nodes h with last := add 64 h sizeofNode })) next rest := by
        apply linked.2.congr
        intro q member
        have different : q ≠ h := fun equal => once (equal ▸ member)
        rw [link, link, Function.update_of_ne different]
      obtain ⟨reset, ran, restReset⟩ := ih turns relinked more distinctRest (by simpa using enough)
      refine ⟨reset, ?_, restReset.next once⟩
      rw [resetNodes, if_neg nonnull, here]
      exact ran

def Pool.addresses (s : Pool) : List Nat := s.blocks.map Block.node

def Records (records : Nat → Large) : Nat → List Nat → Prop
  | large, [] => large = 0
  | large, record :: rest => large = record ∧ record ≠ 0 ∧ Records records (records record).next rest

theorem Records.congr {records other : Nat → Large} {large : Nat} {made : List Nat}
    (chain : Records records large made) (same : ∀ r ∈ made, (other r).next = (records r).next) :
    Records other large made := by
  induction made generalizing large with
  | nil => exact chain
  | cons record rest ih =>
      obtain ⟨here, nonnull, behind⟩ := chain
      refine ⟨here, nonnull, ?_⟩
      rw [same record (List.mem_cons_self ..)]
      exact ih behind fun r member => same r (List.mem_cons_of_mem record member)

theorem findRecord_ends {records : Nat → Large} {p turns large : Nat} {made : List Nat}
    (chain : Records records large made) (enough : made.length < turns) :
    (findRecord records p turns large).isSome := by
  induction made generalizing large turns with
  | nil =>
      obtain ⟨turns, rfl⟩ := Nat.exists_eq_succ_of_ne_zero (Nat.ne_of_gt enough)
      obtain rfl := chain
      rfl
  | cons record rest ih =>
      obtain ⟨turns, rfl⟩ := Nat.exists_eq_succ_of_ne_zero (Nat.ne_of_gt (Nat.zero_lt_of_lt enough))
      obtain ⟨rfl, nonnull, behind⟩ := chain
      rw [findRecord, if_neg nonnull]
      split
      · rfl
      · exact ih behind (by simpa using enough)

theorem freeLarges_spec {turns large : Nat} {made : List Nat} {t : Pool} (chain : Records t.records large made)
    (enough : made.length < turns) :
    freeLarges turns t large = some { t with
      larges := t.larges.filter fun r => r.start ∉ (made.map fun l => (t.records l).alloc).filter (· ≠ 0) } := by
  induction made generalizing large turns t with
  | nil =>
      obtain ⟨turns, rfl⟩ := Nat.exists_eq_succ_of_ne_zero (Nat.ne_of_gt enough)
      obtain rfl := chain
      simp [freeLarges]
  | cons record rest ih =>
      obtain ⟨turns, rfl⟩ := Nat.exists_eq_succ_of_ne_zero (Nat.ne_of_gt (Nat.zero_lt_of_lt enough))
      obtain ⟨rfl, nonnull, behind⟩ := chain
      rw [freeLarges, if_neg nonnull]
      by_cases empty : (t.records large).alloc = 0
      · rw [if_neg (not_not.mpr empty), ih behind (by simpa using enough)]
        simp [empty]
      · rw [if_pos empty, ih (t := t.free (t.records large).alloc) behind (by simpa using enough)]
        simp [Pool.free, empty, List.filter_filter, Bool.and_comm]

structure Placed (size : Nat) (nodes : Nat → Node) (b : Block) : Prop where
  start : b.region.start ≤ b.node
  positive : 0 < b.node
  stop : b.node + sizeofNode + size = b.region.start + b.region.size
  low : b.region.start + b.region.size < 2 ^ 63
  end_ : (nodes b.node).end_ = b.node + sizeofNode + size

structure Chained (size : Nat) (s : Pool) : Prop where
  head : ∃ rest, s.addresses = s.head :: rest ∧ Linked (link s.nodes) s.head rest
  current : s.current ∈ s.addresses
  distinct : s.addresses.Nodup
  block : ∀ b ∈ s.blocks, Placed size s.nodes b

variable {size : Nat} {s : Pool}

theorem Chained.node_block (chained : Chained size s) {p : Nat} (member : p ∈ s.addresses) :
    ∃ b ∈ s.blocks, b.node = p ∧ Placed size s.nodes b := by
  obtain ⟨b, inside, same⟩ := List.mem_map.mp member
  exact ⟨b, inside, same, chained.block b inside⟩

theorem Chained.nonnull (chained : Chained size s) {p : Nat} (member : p ∈ s.addresses) : p ≠ 0 := by
  obtain ⟨b, -, rfl, ok⟩ := chained.node_block member
  exact Nat.ne_of_gt ok.positive

theorem Chained.head_mem (chained : Chained size s) : s.head ∈ s.addresses := by
  obtain ⟨rest, shape, -⟩ := chained.head
  rw [shape]
  exact List.mem_cons_self ..

theorem Chained.current_split (chained : Chained size s) :
    ∃ before rest, s.addresses = before ++ s.current :: rest ∧ Linked (link s.nodes) s.current rest := by
  obtain ⟨tail, shape, linked⟩ := chained.head
  have member := chained.current
  rw [shape] at member ⊢
  obtain ⟨before, rest, split, behind, -⟩ := linked.of_mem member
  exact ⟨before, rest, split, behind⟩

theorem Chained.rest (chained : Chained size s) :
    ∃ rest, Linked (link s.nodes) s.current rest ∧ rest.length < s.blocks.length ∧
      ∀ q ∈ s.current :: rest, q ∈ s.addresses := by
  obtain ⟨before, rest, split, behind⟩ := chained.current_split
  have length := congrArg List.length split
  rw [Pool.addresses, List.length_map, List.length_append, List.length_cons] at length
  refine ⟨rest, behind, by omega, ?_⟩
  intro q member
  rw [split]
  exact List.mem_append_right before member

theorem Chained.psize (chained : Chained size s) : sub 64 (s.nodes s.head).end_ s.head = sizeofNode + size := by
  obtain ⟨b, -, same, ok⟩ := chained.node_block chained.head_mem
  have end_ := ok.end_
  have low := ok.low
  have stop := ok.stop
  rw [same] at end_ stop
  rw [end_, sub_exact (by omega) (by omega)]
  omega

theorem Chained.fresh_address (chained : Chained size s) {m n : Nat}
    (fresh : Fresh s.live mpAlignment (sizeofNode + n) m) : m ∉ s.addresses := by
  intro member
  obtain ⟨b, inside, rfl, ok⟩ := chained.node_block member
  obtain ⟨-, -, -, outside⟩ := fresh
  have apart := (outside b.region (List.mem_append_left _ (List.mem_map_of_mem inside))).2
  have start := ok.start
  have stop := ok.stop
  have positive : sizeofNode = 32 := rfl
  rcases apart with before | behind
  · simp only at before
    omega
  · simp only at behind
    omega

theorem Chained.relinked (chained : Chained size s) {m : Nat} {nodes : Nat → Node} (absent : m ∉ s.addresses)
    (nonnull : m ≠ 0) (old : ∀ q, q ≠ m → nodes q = s.nodes q) (new : (nodes m).next = 0) :
    ∃ counted current last, countFailed s.blocks.length nodes s.current s.current = some (counted, current, last) ∧
      SameNodes counted nodes ∧ current ∈ s.addresses ∧ (current = s.head → s.current = s.head) ∧ last ≠ m ∧
      ∃ tail, s.addresses = s.head :: tail ∧
        Linked (link (Function.update counted last { counted last with next := m })) s.head (tail ++ [m]) := by
  obtain ⟨tail, shape, chain⟩ := chained.head
  have links : ∀ q ∈ s.head :: tail, link nodes q = link s.nodes q := by
    intro q member
    have different : q ≠ m := fun equal => absent (by rw [shape, ← equal]; exact member)
    rw [link, link, old q different]
  have member := chained.current
  have nodup := chained.distinct
  rw [shape] at member nodup
  have rechained := chain.congr links
  obtain ⟨before, rest, split, behind, sameEnd⟩ := rechained.of_mem member
  have length := congrArg List.length (shape.trans split)
  rw [Pool.addresses, List.length_map, List.length_append, List.length_cons] at length
  obtain ⟨counted, current, ran, same, where_⟩ := countFailed_spec s.blocks.length s.current behind (by omega)
  have different : final s.head tail ≠ m := by
    intro equal
    exact absent (by rw [shape, ← equal]; exact final_mem s.head tail)
  refine ⟨counted, current, final s.head tail, by rw [ran, sameEnd], same, ?_, ?_, different, tail, shape, ?_⟩
  · rcases where_ with unchanged | later
    · rw [unchanged]
      exact chained.current
    · rw [shape, split]
      exact List.mem_append_right before (List.mem_cons_of_mem _ later)
  · intro atHead
    rcases where_ with unchanged | later
    · exact unchanged.symm.trans atHead
    · rw [atHead] at later
      cases before with
      | nil => exact (List.cons.inj split).1.symm
      | cons first before =>
          rw [← (List.cons.inj split).1] at split
          rw [split] at nodup
          exact absurd (List.mem_append_right before (List.mem_cons_of_mem _ later)) (List.nodup_cons.mp nodup).1
  · apply rechained.append nodup
    · intro q _ apart
      rw [link, Function.update_of_ne apart]
      exact same.link q
    · simp [link, nonnull]
    · rw [link, Function.update_of_ne different.symm, (same m).2.2, new]
      rfl

structure Grown (size : Nat) (s : Pool) (n m p : Nat) (t : Pool) : Prop where
  fresh : Fresh s.live mpAlignment (sizeofNode + size) m
  first : p = m + sizeofNode
  pool : t = { s with
    nodes := t.nodes
    current := t.current
    blocks := s.blocks ++ [⟨m, ⟨m, sizeofNode + size⟩⟩]
    smalls := ⟨m, ⟨m + sizeofNode, n⟩⟩ :: s.smalls }
  same : ∀ q, q ≠ m → (t.nodes q).last = (s.nodes q).last ∧ (t.nodes q).end_ = (s.nodes q).end_
  new : (t.nodes m).last = add 64 (m + sizeofNode) n ∧ (t.nodes m).end_ = m + sizeofNode + size
  linked : ∃ rest, s.addresses = s.head :: rest ∧ Linked (link t.nodes) s.head (rest ++ [m])
  current : t.current ∈ s.addresses
  stays : t.current = s.head → s.current = s.head

theorem Chained.grows (chained : Chained size s) (n m : Nat) (rest : Answers) :
    Fine (fun result => Grown size s n m result.1 result.2.1) (mpAllocBlock s n (some m :: rest)) := by
  rw [MpPool.mpAllocBlock]
  simp only [chained.psize]
  by_cases fresh : Fresh s.live mpAlignment (sizeofNode + size) m
  · rw [if_pos fresh]
    have absent := chained.fresh_address fresh
    obtain ⟨positive, low, aligned, -⟩ := id fresh
    have header : sizeofNode = 32 := rfl
    have first : mpAlignPtr (add 64 m sizeofNode) mpAlignment = m + sizeofNode := by
      rw [add_exact (by omega)]
      apply mpAlignPtr_aligned (by omega)
      rw [mpAlignment] at *
      omega
    have end_ : add 64 m (sizeofNode + size) = m + sizeofNode + size := by
      rw [add_exact (by omega)]
      omega
    rw [first, end_]
    generalize written : Function.update s.nodes m
      { last := add 64 (m + sizeofNode) n, end_ := m + sizeofNode + size, next := 0, failed := 0 } = nodes
    have old : ∀ q, q ≠ m → nodes q = s.nodes q := by
      intro q different
      rw [← written, Function.update_of_ne different]
    have new : nodes m =
        { last := add 64 (m + sizeofNode) n, end_ := m + sizeofNode + size, next := 0, failed := 0 } := by
      rw [← written, Function.update_self]
    obtain ⟨counted, current, end', ran, same, inList, stays, different, linked⟩ :=
      chained.relinked absent (Nat.ne_of_gt positive) old (by rw [new])
    rw [ran]
    simp only [ne_eq, chained.nonnull inList, not_false_eq_true, if_true]
    refine ⟨fresh, rfl, rfl, ?_, ?_, linked, inList, stays⟩
    · intro q apart
      obtain ⟨lastSame, endSame, -⟩ := same q
      rw [old q apart] at lastSame endSame
      by_cases equal : q = end'
      · subst equal
        simp only [Function.update_self]
        exact ⟨lastSame, endSame⟩
      · simp only [Function.update_of_ne equal]
        exact ⟨lastSame, endSame⟩
    · obtain ⟨lastSame, endSame, -⟩ := same m
      rw [new] at lastSame endSame
      simp only [Function.update_of_ne different.symm]
      exact ⟨lastSame, endSame⟩
  · rw [if_neg fresh]
    trivial

theorem Chained.mpAllocBlock (chained : Chained size s) (n : Nat) (answers : Answers) :
    Fine (fun result => (result.1 = 0 ∧ result.2.1 = s) ∨ ∃ m, Grown size s n m result.1 result.2.1)
      (mpAllocBlock s n answers) := by
  match answers with
  | [] => trivial
  | none :: rest => exact .inl ⟨rfl, rfl⟩
  | some m :: rest => exact (chained.grows n m rest).mono fun result grown => .inr ⟨m, grown⟩

theorem Grown.addresses {n m p : Nat} {t : Pool} (grown : Grown size s n m p t) :
    t.addresses = s.addresses ++ [m] := by
  rw [grown.pool]
  simp [Pool.addresses]

theorem Grown.chained {n m p : Nat} {t : Pool} (grown : Grown size s n m p t) (chained : Chained size s) :
    Chained size t := by
  have absent := chained.fresh_address grown.fresh
  have addresses := grown.addresses
  obtain ⟨positive, low, -, -⟩ := grown.fresh
  have head : t.head = s.head := by rw [grown.pool]
  exact
    { head := by
        obtain ⟨rest, shape, chain⟩ := grown.linked
        refine ⟨rest ++ [m], ?_, ?_⟩
        · rw [addresses, shape, head]
          rfl
        · rw [head]
          exact chain
      current := by
        rw [addresses]
        exact List.mem_append_left _ grown.current
      distinct := by
        rw [addresses]
        simpa using chained.distinct.concat absent
      block := by
        intro b there
        rw [grown.pool] at there
        rcases List.mem_append.mp there with older | last
        · have old := chained.block b older
          have different : b.node ≠ m := fun equal => absent (equal ▸ List.mem_map_of_mem older)
          exact ⟨old.start, old.positive, old.stop, old.low, (grown.same b.node different).2.trans old.end_⟩
        · obtain rfl := List.mem_singleton.mp last
          exact ⟨Nat.le_refl _, positive, Nat.add_assoc .., low, grown.new.2⟩ }

theorem Chained.congr {t : Pool} (chained : Chained size s) (head : t.head = s.head) (current : t.current = s.current)
    (blocks : t.blocks = s.blocks)
    (nodes : ∀ q, (t.nodes q).next = (s.nodes q).next ∧ (t.nodes q).end_ = (s.nodes q).end_) : Chained size t := by
  have addresses : t.addresses = s.addresses := by rw [Pool.addresses, blocks, Pool.addresses]
  exact
    { head := by
        obtain ⟨rest, shape, linked⟩ := chained.head
        rw [addresses, head]
        exact ⟨rest, shape, linked.congr fun q _ => by rw [link, link, (nodes q).1]⟩
      current := by
        rw [addresses, current]
        exact chained.current
      distinct := by
        rw [addresses]
        exact chained.distinct
      block := by
        intro b there
        rw [blocks] at there
        have old := chained.block b there
        exact ⟨old.start, old.positive, old.stop, old.low, (nodes b.node).2.trans old.end_⟩ }

theorem lastWritten (nodes : Nat → Node) (p last q : Nat) :
    (Function.update nodes p { nodes p with last := last } q).next = (nodes q).next ∧
      (Function.update nodes p { nodes p with last := last } q).end_ = (nodes q).end_ := by
  by_cases same : q = p
  · simp [same]
  · simp [same]

def hasRoom (nodes : Nat → Node) (place : Nat → Nat) (size q : Nat) : Bool :=
  decide (sub 64 (nodes q).end_ (place (nodes q).last) ≥ size)

theorem search_find {nodes : Nat → Node} {place : Nat → Nat} {size turns p : Nat} {rest : List Nat}
    (linked : Linked (link nodes) p rest) (enough : rest.length < turns) :
    search nodes place size turns p = some ((p :: rest).find? (hasRoom nodes place size)) := by
  induction rest generalizing p turns with
  | nil =>
      obtain ⟨turns, rfl⟩ := Nat.exists_eq_succ_of_ne_zero (Nat.ne_of_gt enough)
      rw [search]
      split
      · rename_i room
        simp [hasRoom, room]
      · rename_i full
        rw [if_pos (link_none linked)]
        simpa [hasRoom] using full
  | cons next rest ih =>
      obtain ⟨turns, rfl⟩ := Nat.exists_eq_succ_of_ne_zero (Nat.ne_of_gt (Nat.zero_lt_of_lt enough))
      obtain ⟨here, more⟩ := link_some linked.1
      rw [search]
      split
      · rename_i room
        simp [hasRoom, room]
      · rename_i full
        rw [if_neg (by rw [here]; exact more), here, ih linked.2 (by simpa using enough)]
        rw [List.find?_cons_of_neg (a := p) (by simpa [hasRoom] using full)]

theorem search_ends {nodes : Nat → Node} {place : Nat → Nat} {size turns p : Nat} {rest : List Nat}
    (linked : Linked (link nodes) p rest) (enough : rest.length < turns) :
    search nodes place size turns p = some none ∨
      ∃ q ∈ p :: rest, search nodes place size turns p = some (some q) := by
  rw [search_find linked enough]
  cases found : (p :: rest).find? (hasRoom nodes place size) with
  | none => exact .inl rfl
  | some q => exact .inr ⟨q, List.mem_of_find?_eq_some found, rfl⟩

structure Extended (s : Pool) (n p : Nat) (t : Pool) : Prop where
  smalls : ∃ node, t.smalls = ⟨node, ⟨p, n⟩⟩ :: s.smalls
  max : t.max = s.max
  records : t.records = s.records
  large : t.large = s.large
  made : t.made = s.made
  larges : t.larges = s.larges

def Served (size : Nat) (s : Pool) (n : Nat) (result : Nat × Pool × Answers) : Prop :=
  (result.1 = 0 ∧ result.2.1 = s) ∨ (Chained size result.2.1 ∧ Extended s n result.1 result.2.1)

theorem Grown.extended {n m p : Nat} {t : Pool} (grown : Grown size s n m p t) : Extended s n p t := by
  rw [grown.pool, grown.first]
  exact ⟨⟨m, rfl⟩, rfl, rfl, rfl, rfl, rfl⟩

theorem Chained.allocSmall (chained : Chained size s) (place : Nat → Nat) (n : Nat) (answers : Answers) :
    Fine (Served size s n) (allocSmall place s n answers) := by
  obtain ⟨rest, linked, enough, -⟩ := chained.rest
  rw [MpPool.allocSmall]
  rcases search_ends linked enough with none | ⟨q, -, found⟩
  · rw [none]
    refine (chained.mpAllocBlock n answers).mono ?_
    intro result served
    rcases served with failed | ⟨m, grown⟩
    · exact .inl failed
    · exact .inr ⟨grown.chained chained, grown.extended⟩
  · rw [found]
    refine .inr ⟨?_, ⟨q, rfl⟩, rfl, rfl, rfl, rfl, rfl⟩
    exact chained.congr rfl rfl rfl (lastWritten s.nodes q _)

theorem Served.chained {n : Nat} {result : Nat × Pool × Answers} (served : Served size s n result)
    (chained : Chained size s) : Chained size result.2.1 := by
  rcases served with ⟨-, same⟩ | ⟨after, -⟩
  · rw [same]
    exact chained
  · exact after

theorem freeLarges_same {turns large : Nat} {t : Pool} (freed : freeLarges turns s large = some t) :
    t = { s with larges := t.larges } := by
  induction turns generalizing s large with
  | zero => cases freed
  | succ turns ih =>
      rw [freeLarges] at freed
      split at freed
      · obtain rfl := Option.some.inj freed
        rfl
      · have same := ih freed
        split at same
        · exact same
        · exact same

theorem Chained.resetNodes (chained : Chained size s) :
    ∃ reset rest, resetNodes (s.blocks.length + 1) s.nodes s.head = some reset ∧
      s.addresses = s.head :: rest ∧ Reset s.nodes reset (s.head :: rest) := by
  obtain ⟨rest, shape, linked⟩ := chained.head
  have length := congrArg List.length shape
  rw [Pool.addresses, List.length_map, List.length_cons] at length
  obtain ⟨reset, ran, nodes⟩ := resetNodes_spec (s.blocks.length + 1) linked (chained.nonnull chained.head_mem)
    (by rw [← shape]; exact chained.distinct) (by omega)
  exact ⟨reset, rest, ran, shape, nodes⟩

theorem Chained.mpResetPool (chained : Chained size s) {t : Pool} (done : mpResetPool s = .ok t) : Chained size t := by
  rw [MpPool.mpResetPool] at done
  split at done
  · cases done
  · rename_i u freed
    rw [freeLarges_same freed] at done
    obtain ⟨reset, rest, ran, -, nodes⟩ := chained.resetNodes
    simp only [ran] at done
    obtain rfl := Except.ok.inj done
    exact chained.congr rfl rfl rfl fun q => ⟨nodes.links q, nodes.ends q⟩

theorem Fine.done {good : Pool → Prop} {outcome : Except Fault (Nat × Pool × Answers)}
    (fine : Fine (fun result => good result.2.1) outcome) : Fine good (outcome.bind called) := by
  cases outcome with
  | ok result =>
      obtain ⟨p, t, rest⟩ := result
      cases rest with
      | nil => exact fine
      | cons answer rest => trivial
  | error fault =>
      cases fault with
      | loops => exact fine
      | refused => trivial

theorem Fine.of_called {good : Pool → Prop} {outcome : Except Fault (Nat × Pool × Answers)} {t : Pool}
    (fine : Fine (fun result => good result.2.1) outcome) (done : outcome.bind called = .ok t) : good t := by
  cases outcome with
  | error fault => cases done
  | ok result =>
      obtain ⟨p, u, rest⟩ := result
      cases rest with
      | nil =>
          obtain rfl := Except.ok.inj done
          exact fine
      | cons answer rest => cases done

theorem step_ok {t : Pool} {event : Event} (taken : step s event = some t) : call s event = .ok t := by
  rw [step] at taken
  cases outcome : call s event with
  | ok u =>
      rw [outcome] at taken
      exact congrArg Except.ok (Option.some.inj taken)
  | error fault =>
      rw [outcome] at taken
      cases taken

def emptyPool (size p : Nat) (nodes : Nat → Node) (records : Nat → Large) : Pool :=
  { max := if size < mpMaxAllocFromPool then size else mpMaxAllocFromPool
    current := p + sizeofPool
    large := 0
    head := p + sizeofPool
    nodes := Function.update nodes (p + sizeofPool)
      { last := p + sizeofPool + sizeofNode
        end_ := p + sizeofPool + sizeofNode + size
        next := (nodes (p + sizeofPool)).next
        failed := 0 }
    records := records
    blocks := [⟨p + sizeofPool, ⟨p, size + sizeofPool + sizeofNode⟩⟩]
    larges := []
    smalls := []
    made := [] }

theorem created_eq {p : Nat} {nodes : Nat → Node} {records : Nat → Large}
    (fits : size + sizeofPool + sizeofNode < 2 ^ 64)
    (created : mpCreatePool size nodes records (some p) = .ok (some s)) :
    s = emptyPool size p nodes records ∧ 0 < p ∧ p + (size + sizeofPool + sizeofNode) < 2 ^ 63 := by
  have poolSize : sizeofPool = 24 := rfl
  have nodeSize : sizeofNode = 32 := rfl
  have psize : add 64 (add 64 size sizeofPool) sizeofNode = size + sizeofPool + sizeofNode := by
    rw [show add 64 size sizeofPool = size + sizeofPool from add_exact (by omega), add_exact (by omega)]
  rw [mpCreatePool] at created
  simp only [psize] at created
  split at created
  · rename_i memory
    obtain ⟨positive, low, -, -⟩ := memory
    have head : add 64 p sizeofPool = p + sizeofPool := add_exact (by omega)
    have last : add 64 (p + sizeofPool) sizeofNode = p + sizeofPool + sizeofNode := add_exact (by omega)
    have end_ : add 64 (p + sizeofPool + sizeofNode) size = p + sizeofPool + sizeofNode + size := add_exact (by omega)
    rw [head, last, end_] at created
    obtain rfl := Option.some.inj (Except.ok.inj created)
    exact ⟨rfl, positive, low⟩
  · cases created

theorem created_fits {p : Nat} {nodes : Nat → Node} {records : Nat → Large} (word : size < 2 ^ 64)
    (created : mpCreatePool size nodes records (some p) = .ok (some s))
    (headers : ∀ b ∈ s.blocks, b.node + sizeofNode ≤ b.region.start + b.region.size) :
    size + sizeofPool + sizeofNode < 2 ^ 64 := by
  have poolSize : sizeofPool = 24 := rfl
  have nodeSize : sizeofNode = 32 := rfl
  rw [mpCreatePool] at created
  simp only at created
  split at created
  · rename_i memory
    obtain ⟨-, low, -, -⟩ := memory
    obtain rfl := Option.some.inj (Except.ok.inj created)
    have inside := headers _ (List.mem_singleton_self _)
    rw [poolSize, nodeSize] at inside low ⊢
    have head : add 64 p 24 = p + 24 := add_exact (by omega)
    simp only [head] at inside
    rw [add, add] at inside
    omega
  · cases created

theorem created_chained {p : Nat} {nodes : Nat → Node} {records : Nat → Large}
    (fits : size + sizeofPool + sizeofNode < 2 ^ 64) (zeroed : (nodes (p + sizeofPool)).next = 0)
    (created : mpCreatePool size nodes records (some p) = .ok (some s)) : Chained size s := by
  obtain ⟨rfl, positive, low⟩ := created_eq fits created
  exact
    { head := ⟨[], rfl, by simp [emptyPool, Linked, link, zeroed]⟩
      current := List.mem_singleton_self _
      distinct := List.nodup_singleton _
      block := by
        intro b member
        obtain rfl := List.mem_singleton.mp member
        refine ⟨?_, ?_, ?_, ?_, ?_⟩
        · simp
        · simp only
          omega
        · simp only
          omega
        · simp only
          omega
        · simp [emptyPool] }

end CppInfra.MemPool.MpPool
