import CppInfra.MemPool.MpPoolHeap
import CppInfra.MemPool.MpPoolRuns

set_option autoImplicit false

namespace CppInfra.MemPool.MpPool

open Words Transition ByteMemory LinkedChain Ledger

variable {size : Nat} {s : Pool}

structure Sound (size : Nat) (s : Pool) : Prop where
  chained : Chained size s
  owned : Owned s
  recorded : Recorded s
  most : sizeofLarge ≤ s.max

theorem Owned.mpAlloc_small (owned : Owned s) (chained : Chained size s) {n : Nat} (small : n ≤ s.max)
    (answers : Answers) : Fine (Booked size s n (mpAllocCalls answers s n)) (mpAlloc answers s n) := by
  cases answers with
  | nil =>
      rw [mpAllocCalls, MpPool.mpAlloc, if_pos small, if_pos small]
      exact owned.allocSmall chained _ n []
  | cons answer rest =>
      rw [mpAllocCalls, MpPool.mpAlloc, if_pos small, if_pos small]
      exact owned.allocSmall chained _ n (answer :: rest)

def Pool.obtained (s : Pool) (p n : Nat) : Pool := { s with larges := ⟨p, n⟩ :: s.larges }

theorem Sound.record (sound : Sound size s) {alignment n p : Nat} (fresh : Fresh s.live alignment n p)
    (rest : Answers) :
    Fine (fun result => Booking size s (.obtain p :: (mpAllocCalls rest (s.obtained p n) sizeofLarge ++
        undoCalls p (mpAlloc rest (s.obtained p n) sizeofLarge))) result.2.1)
      ((mpAlloc rest (s.obtained p n) sizeofLarge).map (keepLarge p)) := by
  obtain ⟨owned, leads⟩ := sound.owned.obtained fresh
  have chained : Chained size (s.obtained p n) := sound.chained.congr rfl rfl rfl fun _ => ⟨rfl, rfl⟩
  have booked := owned.mpAlloc_small chained sound.most rest
  cases outcome : mpAlloc rest (s.obtained p n) sizeofLarge with
  | ok result =>
      rw [Pool.obtained] at outcome
      rw [outcome] at booked
      exact booked.keepLarge sound.chained sound.recorded fresh.new.1 leads
  | error fault =>
      rw [Pool.obtained] at outcome
      rw [outcome] at booked
      cases fault with
      | loops => exact booked
      | refused => trivial

theorem Sound.unchanged (sound : Sound size s) : Booking size s [] s :=
  ⟨sound.chained, sound.owned, fun _ => sound.recorded, Leads.nil (List.Perm.refl _), rfl⟩

theorem Sound.mpAllocLarge (sound : Sound size s) (n : Nat) (rest : Answers) (answer : Option Nat) :
    Fine (fun result => Booking size s
        (mpAllocLargeCalls (fun s => mpAllocCalls rest s sizeofLarge) (fun s => mpAlloc rest s sizeofLarge) s n answer)
        result.2.1)
      (mpAllocLarge (fun s => mpAlloc rest s sizeofLarge) s n rest answer) := by
  cases answer with
  | none => exact sound.unchanged
  | some p =>
      rw [MpPool.mpAllocLarge, mpAllocLargeCalls]
      by_cases fresh : Fresh s.live 1 n p
      · rw [if_pos fresh]
        simp only
        cases free : freeRecord s.records 5 s.large with
        | some large =>
            obtain ⟨owned, leads⟩ := sound.owned.obtained fresh
            exact
              { chained := sound.chained.congr rfl rfl rfl fun _ => ⟨rfl, rfl⟩
                owned := owned.congr rfl rfl rfl
                recorded := fun _ => sound.recorded.reuse fresh.new.1 free
                leads := leads
                most := rfl }
        | none => exact sound.record fresh rest
      · rw [if_neg fresh]
        trivial

theorem Sound.mpAlloc (sound : Sound size s) (n : Nat) (answers : Answers) :
    Fine (fun result => Booking size s (mpAllocCalls answers s n) result.2.1) (mpAlloc answers s n) := by
  by_cases small : n ≤ s.max
  · exact (sound.owned.mpAlloc_small sound.chained small answers).mono fun result booked =>
      booked.booking sound.chained sound.recorded
  · cases answers with
    | nil =>
        rw [MpPool.mpAlloc, if_neg small]
        trivial
    | cons answer rest =>
        rw [MpPool.mpAlloc, mpAllocCalls, if_neg small, if_neg small]
        exact sound.mpAllocLarge n rest answer

theorem Sound.mpNalloc (sound : Sound size s) (n : Nat) (answers : Answers) :
    Fine (fun result => Booking size s (mpNallocCalls answers s n) result.2.1) (mpNalloc answers s n) := by
  rw [MpPool.mpNalloc.eq_def, mpNallocCalls.eq_def]
  by_cases small : n ≤ s.max
  · rw [if_pos small, if_pos small]
    exact (sound.owned.allocSmall sound.chained id n answers).mono fun result booked =>
      booked.booking sound.chained sound.recorded
  · rw [if_neg small, if_neg small]
    cases answers with
    | nil => trivial
    | cons answer rest => exact sound.mpAllocLarge n rest answer

theorem Sound.mpMemalign (sound : Sound size s) (n alignment : Nat) (answers : Answers) :
    Fine (fun result => Booking size s (mpMemalignCalls answers s n) result.2.1)
      (mpMemalign answers s n alignment) := by
  match answers with
  | [] => trivial
  | none :: rest => exact sound.unchanged
  | some p :: rest =>
      rw [MpPool.mpMemalign]
      split
      · rename_i fresh
        exact sound.record fresh rest
      · trivial

theorem Sound.freeNull (sound : Sound size s) {large : Nat} (holds : (s.records large).alloc = 0) :
    Booking size s [.free 0]
      { s.free 0 with records := Function.update s.records large { s.records large with alloc := 0 } } := by
  have larges : (s.free 0).larges = s.larges := by
    refine List.filter_eq_self.mpr ?_
    intro r there
    have nonnull := sound.owned.nonnull r.start
      (by rw [Pool.starts_eq]; exact List.mem_append_right _ (List.mem_map_of_mem there))
    simpa using nonnull
  have records : Function.update s.records large { s.records large with alloc := 0 } = s.records := by
    rw [← holds]
    exact Function.update_eq_self ..
  have same : { s.free 0 with
      records := Function.update s.records large { s.records large with alloc := 0 } } = s := by
    rw [records]
    exact congrArg (fun larges => { s with larges := larges }) larges
  rw [same]
  exact ⟨sound.chained, sound.owned, fun _ => sound.recorded, Leads.freeNull _, rfl⟩

theorem Sound.freeHeld (sound : Sound size s) {large p : Nat} (member : large ∈ s.made)
    (holds : (s.records large).alloc = p) (nonnull : p ≠ 0) :
    Booking size s [.free p]
      { s.free p with records := Function.update s.records large { s.records large with alloc := 0 } } := by
  obtain ⟨before, after, old, new⟩ := allocs_set member sound.recorded.distinct 0
  have held := sound.recorded.held
  rw [Pool.allocs, old, holds, List.filter_append, List.filter_cons, if_pos (by simpa using nonnull)] at held
  have outstanding : p ∈ s.larges.map Region.start :=
    held.mem_iff.mp (List.mem_append_right _ (List.mem_cons_self ..))
  obtain ⟨r, there, rfl⟩ := List.mem_map.mp outstanding
  obtain ⟨first, second, split⟩ := List.append_of_mem there
  have apart : s.larges.Perm (⟨r.start, r.size⟩ :: (first ++ second)) := by
    rw [split]
    exact List.perm_middle
  obtain ⟨left, owned, leads⟩ := sound.owned.freed apart
  exact
    { chained := sound.chained.congr rfl rfl rfl fun _ => ⟨rfl, rfl⟩
      owned := owned.congr rfl rfl rfl
      recorded := fun _ =>
        { sound.recorded with
          records := sound.recorded.records.setAlloc large 0
          held := by
            have allocs : Pool.allocs { s.free r.start with
                records := Function.update s.records large { s.records large with alloc := 0 } } =
                before ++ 0 :: after := new
            rw [allocs, List.filter_append, List.filter_cons, if_neg (by simp)]
            have rest := (List.perm_middle.symm.trans held).trans (apart.map Region.start)
            exact rest.cons_inv.trans (left.map Region.start).symm }
      leads := leads
      most := rfl }

theorem Sound.mpFree (sound : Sound size s) (p : Nat) : Fine (Booking size s (mpFreeCalls s p)) (mpFree s p) := by
  have ends : (findRecord s.records p (s.made.length + 1) s.large).isSome :=
    findRecord_ends sound.recorded.records (Nat.lt_succ_self _)
  rw [MpPool.mpFree, mpFreeCalls]
  cases finds : findRecord s.records p (s.made.length + 1) s.large with
  | none =>
      rw [finds] at ends
      cases ends
  | some found =>
      cases found with
      | none => exact sound.unchanged
      | some large =>
          obtain ⟨member, holds⟩ := findRecord_spec sound.recorded.records finds
          by_cases null : p = 0
          · subst null
            exact sound.freeNull holds
          · exact sound.freeHeld member holds null

theorem freeLargesCalls_spec {records : Nat → Large} {turns large : Nat} {made : List Nat}
    (chain : Records records large made) (enough : made.length < turns) :
    freeLargesCalls records turns large =
      some (((made.map fun l => (records l).alloc).filter (· ≠ 0)).map .free) := by
  induction made generalizing large turns with
  | nil =>
      obtain ⟨turns, rfl⟩ := Nat.exists_eq_succ_of_ne_zero (Nat.ne_of_gt enough)
      obtain rfl := chain
      rfl
  | cons record rest ih =>
      obtain ⟨turns, rfl⟩ := Nat.exists_eq_succ_of_ne_zero (Nat.ne_of_gt (Nat.zero_lt_of_lt enough))
      obtain ⟨rfl, nonnull, behind⟩ := chain
      rw [freeLargesCalls, if_neg nonnull, ih behind (by simpa using enough)]
      by_cases empty : (records large).alloc = 0
      · simp [empty]
      · simp [empty]

theorem Sound.larges_freed (sound : Sound size s) :
    freeLargesCalls s.records (s.made.length + 1) s.large = some ((s.allocs.filter (· ≠ 0)).map .free) ∧
      Leads s.starts ((s.allocs.filter (· ≠ 0)).map .free) (s.blocks.map fun b => b.region.start) := by
  refine ⟨freeLargesCalls_spec sound.recorded.records (Nat.lt_succ_self _), ?_⟩
  refine Leads.frees (fun p member => by simpa using (List.mem_filter.mp member).2) ?_
  rw [Pool.starts_eq]
  exact List.perm_append_comm.trans (sound.recorded.held.symm.append_right _)

theorem Sound.mpResetPool (sound : Sound size s) :
    Fine (Booking size s (mpResetPoolCalls s)) (mpResetPool s) := by
  obtain ⟨freed, leads⟩ := sound.larges_freed
  have none_left : s.larges.filter (fun r => decide (r.start ∉
      (s.made.map fun l => (s.records l).alloc).filter (· ≠ 0))) = [] := by
    rw [List.filter_eq_nil_iff]
    intro r there
    have recorded := sound.recorded.held.mem_iff.mpr (List.mem_map_of_mem there)
    rw [Pool.allocs] at recorded
    rw [decide_eq_true_eq, not_not]
    exact recorded
  have done := freeLarges_spec sound.recorded.records (Nat.lt_succ_self _)
  rw [none_left] at done
  obtain ⟨reset, rest, ran, -, nodes⟩ := sound.chained.resetNodes
  rw [MpPool.mpResetPool, done, mpResetPoolCalls, freed]
  simp only [ran]
  have starts : Pool.starts { s with larges := [], large := 0, nodes := reset, smalls := [], made := [] } =
      s.blocks.map fun b => b.region.start := by simp [Pool.starts_eq]
  have blocks : (s.blocks.map fun b => b.region.start).Sublist s.starts := by
    rw [Pool.starts_eq]
    exact List.sublist_append_left ..
  exact
    { chained := sound.chained.congr rfl rfl rfl fun q => ⟨nodes.links q, nodes.ends q⟩
      owned :=
        { blocks := sound.owned.blocks
          room := sound.owned.room
          once := by
            rw [starts]
            exact sound.owned.once.sublist blocks
          nonnull := by
            rw [starts]
            exact fun p member => sound.owned.nonnull p (blocks.subset member) }
      recorded := fun _ => ⟨rfl, by simp, List.nodup_nil, List.Perm.refl _⟩
      leads := by
        rw [starts]
        exact leads
      most := rfl }

theorem freeBlocksCalls_spec {nodes : Nat → Node} {h turns : Nat} {rest : List Nat}
    (linked : Linked (link nodes) h rest) (enough : rest.length < turns) :
    freeBlocksCalls nodes turns (nodes h).next = some (rest.map .free) := by
  induction rest generalizing h turns with
  | nil =>
      obtain ⟨turns, rfl⟩ := Nat.exists_eq_succ_of_ne_zero (Nat.ne_of_gt enough)
      rw [freeBlocksCalls, if_pos (link_none linked)]
      rfl
  | cons next rest ih =>
      obtain ⟨turns, rfl⟩ := Nat.exists_eq_succ_of_ne_zero (Nat.ne_of_gt (Nat.zero_lt_of_lt enough))
      obtain ⟨here, more⟩ := link_some linked.1
      rw [freeBlocksCalls, here, if_neg more, ih linked.2 (by simpa using enough)]
      rfl

theorem Chained.mpDestoryPool (chained : Chained size s) (owned : Owned s) (recorded : Recorded s) :
    ∃ freed : List Nat, mpDestoryPool s = some (freed.map .free) ∧ freed.Perm s.starts := by
  have larges := freeLargesCalls_spec recorded.records (Nat.lt_succ_self _)
  obtain ⟨rest, shape, linked⟩ := chained.head
  have length := congrArg List.length shape
  rw [Pool.addresses, List.length_map, List.length_cons] at length
  have blocks := freeBlocksCalls_spec linked (show rest.length < s.blocks.length + 1 by omega)
  have room := owned.room
  have pool : sub 64 s.head sizeofPool = s.head - sizeofPool := by
    obtain ⟨b, -, same, ok⟩ := chained.node_block chained.head_mem
    have low := ok.low
    have stop := ok.stop
    exact sub_exact (by omega) (by omega)
  refine ⟨s.allocs.filter (· ≠ 0) ++ rest ++ [s.head - sizeofPool], ?_, ?_⟩
  · simp [MpPool.mpDestoryPool, Pool.allocs, larges, blocks, pool]
  · have starts := owned.blocks
    rw [shape, List.tail_cons] at starts
    rw [Pool.starts_eq, starts, List.append_assoc]
    refine List.perm_append_comm.trans (List.Perm.append ?_ recorded.held)
    exact List.perm_append_singleton (s.head - sizeofPool) rest

theorem Sound.call (sound : Sound size s) (event : Event) :
    Fine (Booking size s (calls s event)) (call s event) := by
  cases event with
  | alloc n answers => exact (sound.mpAlloc n answers).done
  | nalloc n answers => exact (sound.mpNalloc n answers).done
  | calloc n answers => exact (sound.mpAlloc n answers).done
  | memalign n alignment answers => exact (sound.mpMemalign n alignment answers).done
  | free p => exact sound.mpFree p
  | reset => exact sound.mpResetPool

theorem step_sound {t : Pool} {event : Event} (sound : Sound size s) (taken : step s event = some t)
    (separate : NoOverlap t) : Sound size t ∧ Leads s.starts (calls s event) t.starts := by
  have booking := sound.call event
  rw [step_ok taken] at booking
  exact ⟨⟨booking.chained, booking.owned, booking.recorded separate, booking.most ▸ sound.most⟩, booking.leads⟩

theorem run_sound {t : Pool} {events : List Event} (sound : Sound size s)
    (separate : Along step (fun u _ => NoOverlap u) s events) (ran : run step s events = some t)
    (last : NoOverlap t) : Sound size t ∧ Leads s.starts (history s events) t.starts := by
  induction events generalizing s with
  | nil =>
      obtain rfl := Option.some.inj ran
      exact ⟨sound, Leads.nil (List.Perm.refl _)⟩
  | cons event rest ih =>
      obtain ⟨next, taken, later⟩ := run_cons.mp ran
      have behind := separate.2 next taken
      have here : NoOverlap next := by
        cases rest with
        | nil =>
            obtain rfl := Option.some.inj later
            exact last
        | cons event rest => exact behind.1
      obtain ⟨after, leads⟩ := step_sound sound taken here
      obtain ⟨final, leadsLater⟩ := ih after behind later
      refine ⟨final, ?_⟩
      rw [history, taken]
      exact leads.append leadsLater

theorem created_owned {p : Nat} {nodes : Nat → Node} {records : Nat → Large}
    (fits : size + sizeofPool + sizeofNode < 2 ^ 64)
    (created : mpCreatePool size nodes records (some p) = .ok (some s)) : Owned s := by
  obtain ⟨rfl, positive, -⟩ := created_eq fits created
  have starts : (emptyPool size p nodes records).starts = [p] := rfl
  refine ⟨?_, ?_, ?_, ?_⟩
  · simp [emptyPool, Pool.addresses]
  · simp only [emptyPool]
    omega
  · rw [starts]
    exact List.nodup_singleton p
  · rw [starts]
    simpa using Nat.ne_of_gt positive

theorem created_sound {p : Nat} {nodes : Nat → Node} {records : Nat → Large} (enough : sizeofLarge ≤ size)
    (fits : size + sizeofPool + sizeofNode < 2 ^ 64) (zeroed : (nodes (p + sizeofPool)).next = 0)
    (created : mpCreatePool size nodes records (some p) = .ok (some s)) : Sound size s := by
  have chained := created_chained fits zeroed created
  have owned := created_owned fits created
  obtain ⟨rfl, -, -⟩ := created_eq fits created
  have most : mpMaxAllocFromPool = 4095 := rfl
  have record : sizeofLarge = 16 := rfl
  refine ⟨chained, owned, ⟨rfl, by simp [emptyPool], List.nodup_nil, List.Perm.refl _⟩, ?_⟩
  simp only [emptyPool]
  split
  · exact enough
  · omega

theorem Sound.one_record (sound : Sound size s) {block : Region} (there : block ∈ s.larges) :
    ∃! record, record ∈ s.made ∧ (s.records record).alloc = block.start := by
  have held := sound.recorded.held
  have larges : (s.larges.map Region.start).Nodup := by
    have once := sound.owned.once
    rw [Pool.starts_eq] at once
    exact (List.nodup_append.mp once).2.1
  have listed := held.mem_iff.mpr (List.mem_map_of_mem there)
  obtain ⟨among, nonnull⟩ := List.mem_filter.mp listed
  obtain ⟨record, member, holds⟩ := List.mem_map.mp among
  refine ⟨record, ⟨member, holds⟩, ?_⟩
  rintro other ⟨otherMember, otherHolds⟩
  have distinct := held.nodup_iff.mpr larges
  rw [Pool.allocs, List.filter_map] at distinct
  refine List.inj_on_of_nodup_map distinct ?_ ?_ (otherHolds.trans holds.symm)
  · exact List.mem_filter.mpr ⟨otherMember, by simpa [otherHolds] using nonnull⟩
  · exact List.mem_filter.mpr ⟨member, by simpa [holds] using nonnull⟩

theorem mpPool_larges_freedOnce (size p : Nat) (nodes : Nat → Node) (records : Nat → Large) (s t : Pool)
    (events : List Event) (enough : 16 ≤ size) (word : size < 2 ^ 64) (zeroed : (nodes (p + sizeofPool)).next = 0)
    (created : mpCreatePool size nodes records (some p) = .ok (some s))
    (separate : Along step (fun u _ => NoOverlap u) s events) (ran : run step s events = some t)
    (last : NoOverlap t) :
    (Records t.records t.large t.made ∧ t.made.Nodup ∧
        ∀ block ∈ t.larges, ∃! record, record ∈ t.made ∧ (t.records record).alloc = block.start) ∧
      (∀ event, call t event ≠ .error .loops) ∧
      (∃ outstanding, run book [] (.obtain p :: history s events) = some outstanding ∧
        outstanding.Perm t.starts) ∧
      ∃ freed, mpDestoryPool t = some freed ∧
        run book [] (.obtain p :: history s events ++ freed) = some [] ∧
        ∀ q ≠ 0, (Call.obtain p :: history s events ++ freed).count (.obtain q) =
          (Call.obtain p :: history s events ++ freed).count (.free q) := by
  have first : NoOverlap s := by
    cases events with
    | nil =>
        obtain rfl := Option.some.inj ran
        exact last
    | cons event rest => exact separate.1
  have fits := created_fits word created first.headers
  have initial := created_sound enough fits zeroed created
  have starts : s.starts = [p] := by
    obtain ⟨rfl, -, -⟩ := created_eq fits created
    rfl
  have nonnull : p ≠ 0 := initial.owned.nonnull p (by rw [starts]; exact List.mem_singleton_self p)
  obtain ⟨sound, leads⟩ := run_sound initial separate ran last
  rw [starts] at leads
  have whole : Leads [] (.obtain p :: history s events) t.starts :=
    (Leads.obtain nonnull List.not_mem_nil).append leads
  obtain ⟨freed, destroyed, same⟩ := sound.chained.mpDestoryPool sound.owned sound.recorded
  have ends : Leads t.starts (freed.map .free) [] := by
    refine Leads.frees (fun q member => sound.owned.nonnull q (same.mem_iff.mp member)) ?_
    rw [List.append_nil]
    exact same.symm
  have all := whole.append ends
  refine ⟨⟨sound.recorded.records, sound.recorded.distinct, fun block there => sound.one_record there⟩, ?_, whole,
    _, destroyed, ?_, ?_⟩
  · intro event loops
    have fine := sound.call event
    rw [loops] at fine
    exact fine
  · obtain ⟨outstanding, booked, none⟩ := all
    rw [List.perm_nil.mp none] at booked
    exact booked
  · intro q real
    simpa using all.count q real

-- A record that cannot be made, one in a new block, a block freed twice and an address that is none of the pool's,
-- a record used again, an aligned block, a reset, and a block that is outstanding at the end.
def largesMixed : List Event :=
  [.alloc 4095 [], .memalign 64 64 [some 0x10040, none], .alloc 9000 [some 0x10000, some 0x8000], .free 0x10000,
    .free 0x10000, .free 5, .alloc 5000 [some 0x20000], .memalign 64 64 [some 0x10040], .reset,
    .alloc 9000 [some 0x10000]]

theorem mpPool_larges_freedOnce_mixed :
    ∃ s t freed, onZeros 4104 0x1000 = .ok (some s) ∧ run step s largesMixed = some t ∧
      t.larges = [⟨0x10000, 9000⟩] ∧ mpDestoryPool t = some freed ∧
      run book [] (.obtain 0x1000 :: history s largesMixed ++ freed) = some [] := by
  have possible : ((onZeros 4104 0x1000).toOption.join.bind fun s =>
      (run step s largesMixed).bind fun t =>
        if Along step (fun u _ => NoOverlap u) s largesMixed ∧ NoOverlap t ∧ t.larges = [⟨0x10000, 9000⟩] then some t
        else none).isSome := by decide
  obtain ⟨t, all⟩ := Option.isSome_iff_exists.mp possible
  obtain ⟨s, created, after⟩ := Option.bind_eq_some_iff.mp all
  obtain ⟨u, ran, rest⟩ := Option.bind_eq_some_iff.mp after
  split at rest
  · rename_i facts
    obtain ⟨separate, last, larges⟩ := facts
    obtain ⟨-, -, -, freed, destroyed, booked, -⟩ := mpPool_larges_freedOnce 4104 0x1000 _ _ s u largesMixed
      (by decide) (by decide) rfl (onZeros_created created) separate ran last
    exact ⟨s, u, freed, onZeros_created created, ran, larges, destroyed, booked⟩
  · cases rest

end CppInfra.MemPool.MpPool
