import CppInfra.MemPool.MpPoolChain
import CppInfra.Shared.Ledger

set_option autoImplicit false

namespace CppInfra.MemPool.MpPool

open Words Transition ByteMemory LinkedChain Ledger

-- The calls of `malloc`, `posix_memalign` and `free` that a call of the pool makes, those without success left out.
def mpAllocBlockCalls : Answers → List Call
  | some m :: _ => [.obtain m]
  | _ => []

def allocSmallCalls (place : Nat → Nat) (s : Pool) (size : Nat) (answers : Answers) : List Call :=
  match search s.nodes place size s.blocks.length s.current with
  | some none => mpAllocBlockCalls answers
  | _ => []

-- `large == NULL`
def undoCalls (p : Nat) : Except Fault (Nat × Pool × Answers) → List Call
  | .ok (large, _, _) => if large = 0 then [.free p] else []
  | .error _ => []

def mpAllocLargeCalls (recordCalls : Pool → List Call) (record : Pool → Except Fault (Nat × Pool × Answers))
    (s : Pool) (size : Nat) : Option Nat → List Call
  | none => []
  | some p =>
      let s := { s with larges := ⟨p, size⟩ :: s.larges }
      match freeRecord s.records 5 s.large with
      | some _ => [.obtain p]
      | none => .obtain p :: (recordCalls s ++ undoCalls p (record s))

def mpAllocCalls : Answers → Pool → Nat → List Call
  | [], s, size => if size ≤ s.max then allocSmallCalls (mpAlignPtr · mpAlignment) s size [] else []
  | answer :: rest, s, size =>
      if size ≤ s.max then allocSmallCalls (mpAlignPtr · mpAlignment) s size (answer :: rest)
      else
        mpAllocLargeCalls (fun s => mpAllocCalls rest s sizeofLarge) (fun s => mpAlloc rest s sizeofLarge) s size
          answer

def mpNallocCalls (answers : Answers) (s : Pool) (size : Nat) : List Call :=
  if size ≤ s.max then allocSmallCalls id s size answers
  else
    match answers with
    | [] => []
    | answer :: rest =>
        mpAllocLargeCalls (fun s => mpAllocCalls rest s sizeofLarge) (fun s => mpAlloc rest s sizeofLarge) s size
          answer

def mpMemalignCalls (answers : Answers) (s : Pool) (size : Nat) : List Call :=
  match answers with
  | some p :: rest =>
      let s := { s with larges := ⟨p, size⟩ :: s.larges }
      .obtain p :: (mpAllocCalls rest s sizeofLarge ++ undoCalls p (mpAlloc rest s sizeofLarge))
  | _ => []

def mpFreeCalls (s : Pool) (p : Nat) : List Call :=
  match findRecord s.records p (s.made.length + 1) s.large with
  | some (some _) => [.free p]
  | _ => []

-- The loop over the records with which `mp_reset_pool` and `mp_destory_pool` begin.
def freeLargesCalls (records : Nat → Large) : Nat → Nat → Option (List Call)
  | 0, _ => none
  | turns + 1, large =>
      if large = 0 then some []
      else
        (freeLargesCalls records turns (records large).next).map fun rest =>
          if (records large).alloc ≠ 0 then .free (records large).alloc :: rest else rest

def mpResetPoolCalls (s : Pool) : List Call := (freeLargesCalls s.records (s.made.length + 1) s.large).getD []

def calls (s : Pool) : Event → List Call
  | .alloc size answers => mpAllocCalls answers s size
  | .nalloc size answers => mpNallocCalls answers s size
  | .calloc size answers => mpAllocCalls answers s size
  | .memalign size _ answers => mpMemalignCalls answers s size
  | .free p => mpFreeCalls s p
  | .reset => mpResetPoolCalls s

def history : Pool → List Event → List Call
  | _, [] => []
  | s, event :: rest =>
      match step s event with
      | none => []
      | some t => calls s event ++ history t rest

def freeBlocksCalls (nodes : Nat → Node) : Nat → Nat → Option (List Call)
  | 0, _ => none
  | turns + 1, h =>
      if h = 0 then some [] else (freeBlocksCalls nodes turns (nodes h).next).map fun rest => .free h :: rest

-- The pool lies in front of `head`.
def mpDestoryPool (s : Pool) : Option (List Call) := do
  let larges ← freeLargesCalls s.records (s.made.length + 1) s.large
  let blocks ← freeBlocksCalls s.nodes (s.blocks.length + 1) (s.nodes s.head).next
  some (larges ++ blocks ++ [.free (sub 64 s.head sizeofPool)])

def Pool.starts (s : Pool) : List Nat := s.live.map Region.start

def Pool.allocs (s : Pool) : List Nat := s.made.map fun large => (s.records large).alloc

structure Owned (s : Pool) : Prop where
  blocks : s.blocks.map (fun b => b.region.start) = (s.head - sizeofPool) :: s.addresses.tail
  room : sizeofPool < s.head
  once : s.starts.Nodup
  nonnull : ∀ p ∈ s.starts, p ≠ 0

structure Recorded (s : Pool) : Prop where
  records : Records s.records s.large s.made
  made : ∀ large ∈ s.made, ∃ node, ⟨node, ⟨large, sizeofLarge⟩⟩ ∈ s.smalls
  distinct : s.made.Nodup
  held : (s.allocs.filter (· ≠ 0)).Perm (s.larges.map Region.start)

variable {size : Nat} {s : Pool}

theorem Pool.starts_eq (s : Pool) :
    s.starts = s.blocks.map (fun b => b.region.start) ++ s.larges.map Region.start := by
  simp [Pool.starts, Pool.live]

theorem Owned.congr {t : Pool} (owned : Owned s) (blocks : t.blocks = s.blocks) (head : t.head = s.head)
    (larges : t.larges = s.larges) : Owned t := by
  have addresses : t.addresses = s.addresses := by rw [Pool.addresses, blocks, Pool.addresses]
  have starts : t.starts = s.starts := by rw [Pool.starts, Pool.live, blocks, larges, Pool.starts, Pool.live]
  exact
    { blocks := by
        rw [blocks, head, addresses]
        exact owned.blocks
      room := by
        rw [head]
        exact owned.room
      once := by
        rw [starts]
        exact owned.once
      nonnull := by
        rw [starts]
        exact owned.nonnull }

theorem Grown.starts {n m p : Nat} {t : Pool} (grown : Grown size s n m p t) : t.starts.Perm (m :: s.starts) := by
  rw [grown.pool, Pool.starts_eq, Pool.starts_eq]
  simp only [List.map_append, List.map_cons, List.map_nil, List.append_assoc, List.singleton_append]
  exact List.perm_middle

theorem Fresh.new {alignment n p : Nat} (fresh : Fresh s.live alignment n p) : p ≠ 0 ∧ p ∉ s.starts := by
  obtain ⟨positive, -, -, outside⟩ := fresh
  refine ⟨Nat.ne_of_gt positive, ?_⟩
  intro member
  obtain ⟨r, there, start⟩ := List.mem_map.mp member
  exact (outside r there).1 start

theorem Owned.add {t : Pool} {p : Nat} (owned : Owned s) (new : p ≠ 0 ∧ p ∉ s.starts)
    (starts : t.starts.Perm (p :: s.starts)) : t.starts.Nodup ∧ ∀ q ∈ t.starts, q ≠ 0 := by
  refine ⟨starts.nodup_iff.mpr (List.nodup_cons.mpr ⟨new.2, owned.once⟩), ?_⟩
  intro q member
  rcases List.mem_cons.mp (starts.mem_iff.mp member) with rfl | older
  · exact new.1
  · exact owned.nonnull q older

theorem Grown.owned {n m p : Nat} {t : Pool} (grown : Grown size s n m p t) (owned : Owned s) : Owned t := by
  obtain ⟨once, nonnull⟩ := owned.add grown.fresh.new grown.starts
  have head : t.head = s.head := by rw [grown.pool]
  exact
    { blocks := by
        obtain ⟨rest, shape, -⟩ := grown.linked
        rw [grown.addresses, head, shape]
        have old := owned.blocks
        rw [shape] at old
        rw [grown.pool]
        simp only [List.map_append, old]
        rfl
      room := by
        rw [head]
        exact owned.room
      once := once
      nonnull := nonnull }

structure Booked (size : Nat) (s : Pool) (n : Nat) (made : List Call) (result : Nat × Pool × Answers) : Prop where
  served : Served size s n result
  owned : Owned result.2.1
  leads : Leads s.starts made result.2.1.starts

theorem Owned.allocSmall (owned : Owned s) (chained : Chained size s) (place : Nat → Nat) (n : Nat)
    (answers : Answers) :
    Fine (Booked size s n (allocSmallCalls place s n answers)) (MpPool.allocSmall place s n answers) := by
  have stays : Leads s.starts [] s.starts := Leads.nil (List.Perm.refl _)
  obtain ⟨rest, linked, enough, -⟩ := chained.rest
  rw [MpPool.allocSmall, allocSmallCalls]
  rcases search_ends linked enough with nothing | ⟨q, -, found⟩
  · rw [nothing]
    cases answers with
    | nil => trivial
    | cons answer rest =>
        cases answer with
        | none => exact ⟨.inl ⟨rfl, rfl⟩, owned, stays⟩
        | some m =>
            refine (chained.grows n m rest).mono ?_
            intro result grown
            refine ⟨.inr ⟨grown.chained chained, grown.extended⟩, grown.owned owned, ?_⟩
            obtain ⟨nonnull, new⟩ := grown.fresh.new
            exact (Leads.obtain nonnull new).append (Leads.nil grown.starts.symm)
  · rw [found]
    refine ⟨.inr ⟨?_, ⟨q, rfl⟩, rfl, rfl, rfl, rfl, rfl⟩, owned.congr rfl rfl rfl, stays⟩
    exact chained.congr rfl rfl rfl (lastWritten s.nodes q _)

def Block.header (b : Block) : Region := ⟨b.region.start, b.node + sizeofNode - b.region.start⟩

-- What was cut out of the blocks overlaps nothing: not each other, no large block and no header, and the headers lie
-- in the memory of their blocks.
structure NoOverlap (s : Pool) : Prop where
  headers : ∀ b ∈ s.blocks, b.node + sizeofNode ≤ b.region.start + b.region.size
  apart : (s.smalls.map Small.region ++ s.larges ++ s.blocks.map Block.header).Pairwise Region.Apart

instance noOverlapDecidable (s : Pool) : Decidable (NoOverlap s) :=
  decidable_of_iff ((∀ b ∈ s.blocks, b.node + sizeofNode ≤ b.region.start + b.region.size) ∧
      (s.smalls.map Small.region ++ s.larges ++ s.blocks.map Block.header).Pairwise Region.Apart)
    ⟨fun ⟨headers, apart⟩ => ⟨headers, apart⟩, fun separate => ⟨separate.headers, separate.apart⟩⟩

theorem record_absent {large node : Nat} {smalls : List Small} {made : List Nat}
    (apart : (Small.mk node ⟨large, sizeofLarge⟩ :: smalls).Pairwise fun a b => a.region.Apart b.region)
    (recorded : ∀ r ∈ made, ∃ node, ⟨node, ⟨r, sizeofLarge⟩⟩ ∈ smalls) : large ∉ made := by
  intro again
  obtain ⟨other, there⟩ := recorded large again
  have overlap := (List.pairwise_cons.mp apart).1 _ there
  have positive : sizeofLarge = 16 := rfl
  rcases overlap with before | behind
  · simp only at before
    omega
  · simp only at behind
    omega

theorem NoOverlap.smalls {t : Pool} (separate : NoOverlap t) :
    t.smalls.Pairwise fun a b => a.region.Apart b.region :=
  List.pairwise_map.mp (List.pairwise_append.mp (List.pairwise_append.mp separate.apart).1).1

theorem allocs_set {records : Nat → Large} {made : List Nat} {large : Nat} (member : large ∈ made)
    (distinct : made.Nodup) (p : Nat) :
    ∃ before after, made.map (fun r => (records r).alloc) = before ++ (records large).alloc :: after ∧
      made.map (fun r => (Function.update records large { records large with alloc := p } r).alloc) =
        before ++ p :: after := by
  obtain ⟨first, second, rfl⟩ := List.append_of_mem member
  obtain ⟨-, behind, apart⟩ := List.nodup_append.mp distinct
  obtain ⟨absent, -⟩ := List.nodup_cons.mp behind
  have kept : ∀ r ∈ first ++ second,
      (Function.update records large { records large with alloc := p } r).alloc = (records r).alloc := by
    intro r there
    have different : r ≠ large := by
      rintro rfl
      rcases List.mem_append.mp there with early | late
      · exact apart r early r (List.mem_cons_self ..) rfl
      · exact absent late
    rw [Function.update_of_ne different]
  refine ⟨first.map fun r => (records r).alloc, second.map fun r => (records r).alloc, by simp, ?_⟩
  rw [List.map_append, List.map_cons, Function.update_self]
  rw [List.map_congr_left fun r there => kept r (List.mem_append_left _ there)]
  rw [List.map_congr_left fun r there => kept r (List.mem_append_right _ there)]

theorem freeRecord_spec {records : Nat → Large} {turns large found : Nat} {made : List Nat}
    (chain : Records records large made) (free : freeRecord records turns large = some found) :
    found ∈ made ∧ (records found).alloc = 0 := by
  induction turns generalizing large made with
  | zero => cases free
  | succ turns ih =>
      rw [freeRecord] at free
      cases made with
      | nil =>
          rw [if_pos (show large = 0 from chain)] at free
          cases free
      | cons record rest =>
          obtain ⟨rfl, nonnull, behind⟩ := chain
          rw [if_neg nonnull] at free
          split at free
          · rename_i empty
            obtain rfl := Option.some.inj free
            exact ⟨List.mem_cons_self .., empty⟩
          · obtain ⟨member, empty⟩ := ih behind free
            exact ⟨List.mem_cons_of_mem _ member, empty⟩

theorem findRecord_spec {records : Nat → Large} {p turns large found : Nat} {made : List Nat}
    (chain : Records records large made) (finds : findRecord records p turns large = some (some found)) :
    found ∈ made ∧ (records found).alloc = p := by
  induction turns generalizing large made with
  | zero => cases finds
  | succ turns ih =>
      rw [findRecord] at finds
      cases made with
      | nil =>
          rw [if_pos (show large = 0 from chain)] at finds
          cases finds
      | cons record rest =>
          obtain ⟨rfl, nonnull, behind⟩ := chain
          rw [if_neg nonnull] at finds
          split at finds
          · rename_i same
            obtain rfl := Option.some.inj (Option.some.inj finds)
            exact ⟨List.mem_cons_self .., same.symm⟩
          · obtain ⟨member, same⟩ := ih behind finds
            exact ⟨List.mem_cons_of_mem _ member, same⟩

theorem Records.setAlloc {records : Nat → Large} {large : Nat} {made : List Nat} (chain : Records records large made)
    (record p : Nat) : Records (Function.update records record { records record with alloc := p }) large made := by
  apply chain.congr
  intro r _
  by_cases same : r = record
  · simp [same]
  · simp [same]

theorem Recorded.reuse {large p n : Nat} (recorded : Recorded s) (nonnull : p ≠ 0)
    (free : freeRecord s.records 5 s.large = some large) :
    Recorded { s with
      larges := ⟨p, n⟩ :: s.larges
      records := Function.update s.records large { s.records large with alloc := p } } := by
  obtain ⟨member, empty⟩ := freeRecord_spec recorded.records free
  obtain ⟨before, after, old, new⟩ := allocs_set member recorded.distinct p
  have held := recorded.held
  rw [Pool.allocs, old] at held
  exact
    { recorded with
      records := recorded.records.setAlloc large p
      held := by
        rw [Pool.allocs, new]
        simp only [empty, List.filter_append, List.filter_cons, List.map_cons] at held ⊢
        simp only [nonnull, ne_eq, not_true_eq_false, not_false_eq_true, decide_false, decide_true, if_true] at held ⊢
        exact List.perm_middle.trans (held.cons p) }

structure Booking (size : Nat) (s : Pool) (made : List Call) (t : Pool) : Prop where
  chained : Chained size t
  owned : Owned t
  recorded : NoOverlap t → Recorded t
  leads : Leads s.starts made t.starts
  most : t.max = s.max

theorem Owned.obtained {alignment n p : Nat} (owned : Owned s) (fresh : Fresh s.live alignment n p) :
    Owned { s with larges := ⟨p, n⟩ :: s.larges } ∧
      Leads s.starts [.obtain p] (Pool.starts { s with larges := ⟨p, n⟩ :: s.larges }) := by
  have starts : (Pool.starts { s with larges := ⟨p, n⟩ :: s.larges }).Perm (p :: s.starts) := by
    rw [Pool.starts_eq, Pool.starts_eq]
    exact List.perm_middle
  obtain ⟨once, nonnull⟩ := owned.add fresh.new starts
  exact ⟨⟨owned.blocks, owned.room, once, nonnull⟩,
    (Leads.obtain fresh.new.1 fresh.new.2).append (Leads.nil starts.symm)⟩

theorem Owned.freed {p n : Nat} {larges : List Region} (owned : Owned s) (there : s.larges.Perm (⟨p, n⟩ :: larges)) :
    (s.free p).larges.Perm larges ∧ Owned (s.free p) ∧ Leads s.starts [.free p] (s.free p).starts := by
  have starts : s.starts.Perm (p :: (s.blocks.map (fun b => b.region.start) ++ larges.map Region.start)) := by
    rw [Pool.starts_eq]
    exact ((there.map Region.start).append_left _).trans List.perm_middle
  obtain ⟨absent, once⟩ := List.nodup_cons.mp (starts.nodup_iff.mp owned.once)
  have nonnull : p ≠ 0 := owned.nonnull p (starts.mem_iff.mpr (List.mem_cons_self ..))
  have left : (s.free p).larges.Perm larges := by
    have kept : larges.filter (fun r => decide (r.start ≠ p)) = larges := by
      rw [List.filter_eq_self]
      intro r member
      have different : r.start ≠ p := by
        rintro rfl
        exact absent (List.mem_append_right _ (List.mem_map_of_mem member))
      simpa using different
    have filtered := there.filter fun r => decide (r.start ≠ p)
    rw [List.filter_cons, kept] at filtered
    simpa [Pool.free] using filtered
  have rest : (s.free p).starts.Perm (s.blocks.map (fun b => b.region.start) ++ larges.map Region.start) := by
    rw [Pool.starts_eq]
    exact (left.map Region.start).append_left _
  refine ⟨left, ⟨owned.blocks, owned.room, rest.nodup_iff.mpr once, ?_⟩, ?_⟩
  · intro q member
    exact owned.nonnull q (starts.mem_iff.mpr (List.mem_cons_of_mem p (rest.mem_iff.mp member)))
  · exact Leads.free nonnull (starts.trans (rest.symm.cons p))

theorem Recorded.congr {t : Pool} (recorded : Recorded s) (records : t.records = s.records) (large : t.large = s.large)
    (made : t.made = s.made) (smalls : ∀ a ∈ s.smalls, a ∈ t.smalls)
    (larges : (t.larges.map Region.start).Perm (s.larges.map Region.start)) : Recorded t where
  records := by
    rw [records, large, made]
    exact recorded.records
  made := by
    intro r member
    rw [made] at member
    obtain ⟨node, there⟩ := recorded.made r member
    exact ⟨node, smalls _ there⟩
  distinct := by
    rw [made]
    exact recorded.distinct
  held := by
    rw [Pool.allocs, made, records]
    exact recorded.held.trans larges.symm

theorem Served.kept {n : Nat} {result : Nat × Pool × Answers} (served : Served size s n result) :
    result.2.1.max = s.max ∧ result.2.1.records = s.records ∧ result.2.1.large = s.large ∧
      result.2.1.made = s.made ∧ result.2.1.larges = s.larges ∧ ∀ a ∈ s.smalls, a ∈ result.2.1.smalls := by
  rcases served with ⟨-, same⟩ | ⟨-, extended⟩
  · rw [same]
    exact ⟨rfl, rfl, rfl, rfl, rfl, fun a there => there⟩
  · refine ⟨extended.max, extended.records, extended.large, extended.made, extended.larges, ?_⟩
    intro a there
    obtain ⟨node, smalls⟩ := extended.smalls
    rw [smalls]
    exact List.mem_cons_of_mem _ there

theorem Booked.booking {n : Nat} {made : List Call} {result : Nat × Pool × Answers}
    (booked : Booked size s n made result) (chained : Chained size s) (recorded : Recorded s) :
    Booking size s made result.2.1 := by
  obtain ⟨max, records, large, chain, larges, smalls⟩ := booked.served.kept
  exact
    { chained := booked.served.chained chained
      owned := booked.owned
      recorded := fun _ => recorded.congr records large chain smalls (by rw [larges])
      leads := booked.leads
      most := max }

theorem Recorded.put {u : Pool} {large p n node : Nat} (recorded : Recorded s) (nonnull : p ≠ 0) (real : large ≠ 0)
    (pairs : (Small.mk node ⟨large, sizeofLarge⟩ :: s.smalls).Pairwise fun a b => a.region.Apart b.region)
    (records : u.records = Function.update s.records large { next := s.large, alloc := p }) (list : u.large = large)
    (made : u.made = large :: s.made) (smalls : u.smalls = ⟨node, ⟨large, sizeofLarge⟩⟩ :: s.smalls)
    (larges : u.larges = ⟨p, n⟩ :: s.larges) : Recorded u := by
  have absent : large ∉ s.made := record_absent pairs recorded.made
  have here : u.records large = { next := s.large, alloc := p } := by rw [records, Function.update_self]
  have others : ∀ r ∈ s.made, u.records r = s.records r := by
    intro r member
    have different : r ≠ large := fun equal => absent (equal ▸ member)
    rw [records, Function.update_of_ne different]
  exact
    { records := by
        rw [made, list]
        refine ⟨rfl, real, ?_⟩
        rw [here]
        exact recorded.records.congr fun r member => by rw [others r member]
      made := by
        intro r member
        rw [made] at member
        rw [smalls]
        rcases List.mem_cons.mp member with rfl | older
        · exact ⟨node, List.mem_cons_self ..⟩
        · obtain ⟨other, there⟩ := recorded.made r older
          exact ⟨other, List.mem_cons_of_mem _ there⟩
      distinct := by
        rw [made]
        exact List.nodup_cons.mpr ⟨absent, recorded.distinct⟩
      held := by
        have same : s.made.map (fun r => (u.records r).alloc) = s.allocs :=
          List.map_congr_left fun r member => by rw [others r member]
        rw [Pool.allocs, made, List.map_cons, here, same, larges, List.filter_cons, if_pos (by simpa using nonnull)]
        exact recorded.held.cons p }

theorem Booked.keepLarge {p n : Nat} {made : List Call} {result : Nat × Pool × Answers}
    (booked : Booked size { s with larges := ⟨p, n⟩ :: s.larges } sizeofLarge made result)
    (chained : Chained size s) (recorded : Recorded s) (nonnull : p ≠ 0)
    (obtained : Leads s.starts [.obtain p] (Pool.starts { s with larges := ⟨p, n⟩ :: s.larges })) :
    Booking size s (.obtain p :: (made ++ undoCalls p (.ok result))) (keepLarge p result).2.1 := by
  obtain ⟨max, records, list, chain, larges, smalls⟩ := booked.served.kept
  have held := chained.congr (t := { s with larges := ⟨p, n⟩ :: s.larges }) rfl rfl rfl fun _ => ⟨rfl, rfl⟩
  have after := booked.served.chained held
  have early := obtained.append booked.leads
  have owned := booked.owned
  obtain ⟨large, t, rest⟩ := result
  simp only at max records list chain larges smalls after early owned
  by_cases null : large = 0
  · obtain ⟨left, freed, leads⟩ := owned.freed (List.Perm.of_eq larges)
    rw [MpPool.keepLarge, undoCalls, if_pos null, if_pos null]
    exact
      { chained := after.congr rfl rfl rfl fun _ => ⟨rfl, rfl⟩
        owned := freed
        recorded := fun _ => recorded.congr records list chain smalls (left.map Region.start)
        leads := early.append leads
        most := max }
  · have extended : Extended { s with larges := ⟨p, n⟩ :: s.larges } sizeofLarge large t := by
      rcases booked.served with ⟨zero, -⟩ | ⟨-, extended⟩
      · exact absurd zero null
      · exact extended
    rw [MpPool.keepLarge, undoCalls, if_neg null, if_neg null, List.append_nil]
    exact
      { chained := after.congr rfl rfl rfl fun _ => ⟨rfl, rfl⟩
        owned := owned.congr rfl rfl rfl
        recorded := by
          intro separate
          obtain ⟨node, cut⟩ := extended.smalls
          have pairs := separate.smalls
          simp only [cut] at pairs
          exact recorded.put nonnull null pairs (by rw [records, list]) rfl (by rw [chain]) cut larges
        leads := early
        most := max }

end CppInfra.MemPool.MpPool
