import CppInfra.MemPool.MpPoolCalls

set_option autoImplicit false

namespace CppInfra.MemPool.MpPool

open Words Transition ByteMemory LinkedChain

variable {size : Nat} {s : Pool}

def Kept (size : Nat) (result : Nat × Pool × Answers) : Prop := Inv size result.2.1

theorem Inv.record_kept (inv : Inv size s) {alignment n p : Nat} (fresh : Fresh s.live alignment n p)
    (inside : s.SearchInside sizeofLarge) (rest : Answers) :
    Fine (Kept size) ((mpAlloc rest { s with larges := ⟨p, n⟩ :: s.larges } sizeofLarge).map (keepLarge p)) := by
  have held := inv.obtained fresh
  exact (held.mpAlloc_small held.record inside rest).map fun result allocated => allocated.keepLarge held p

theorem Inv.mpAllocLarge (inv : Inv size s) {n : Nat} (rest : Answers) (answer : Option Nat)
    (inside : answer ≠ none → freeRecord s.records 5 s.large = none → s.SearchInside sizeofLarge) :
    Fine (Kept size) (mpAllocLarge (fun s => mpAlloc rest s sizeofLarge) s n rest answer) := by
  cases answer with
  | none => exact inv
  | some p =>
      rw [MpPool.mpAllocLarge]
      split
      · rename_i fresh
        simp only
        split
        · exact (inv.obtained fresh).setAlloc _ p
        · rename_i nothing
          exact inv.record_kept fresh (inside (by simp) nothing) rest
      · trivial

-- The request that a call makes to the loop of `mp_alloc`: its own, or that for a record.
def recordRequest (s : Pool) : Answers → Option Nat
  | some _ :: _ => if freeRecord s.records 5 s.large = none then some sizeofLarge else none
  | _ => none

def alignedRequest (s : Pool) : Event → Option Nat
  | .alloc n answers => if n ≤ s.max then some n else recordRequest s answers
  | .calloc n answers => if n ≤ s.max then some n else recordRequest s answers
  | .nalloc n answers => if n ≤ s.max then none else recordRequest s answers
  | .memalign _ _ (some _ :: _) => some sizeofLarge
  | _ => none

-- No block that the loop looks at has its next aligned address behind its end.
def StaysInside (s : Pool) (event : Event) : Prop := ∀ n ∈ alignedRequest s event, s.SearchInside n

instance staysInsideDecidable (s : Pool) (event : Event) : Decidable (StaysInside s event) :=
  inferInstanceAs (Decidable (∀ n ∈ alignedRequest s event, s.SearchInside n))

theorem Inv.mpAlloc_large (inv : Inv size s) {n : Nat} (rest : Answers) (answer : Option Nat)
    (inside : ∀ n ∈ recordRequest s (answer :: rest), s.SearchInside n) :
    Fine (Kept size) (MpPool.mpAllocLarge (fun s => mpAlloc rest s sizeofLarge) s n rest answer) := by
  apply inv.mpAllocLarge
  intro memory nothing
  obtain ⟨p, rfl⟩ := Option.ne_none_iff_exists'.mp memory
  exact inside _ (by simp [recordRequest, nothing])

theorem Allocated.kept {n : Nat} {result : Nat × Pool × Answers} (inv : Inv size s)
    (allocated : Allocated size s n result) : Kept size result := by
  rcases allocated with ⟨-, same⟩ | ⟨held, -⟩
  · rw [Kept, same]
    exact inv
  · exact held

theorem Inv.mpAlloc (inv : Inv size s) {n : Nat} (answers : Answers)
    (inside : ∀ m ∈ (if n ≤ s.max then some n else recordRequest s answers), s.SearchInside m) :
    Fine (Kept size) (mpAlloc answers s n) := by
  by_cases small : n ≤ s.max
  · rw [if_pos small] at inside
    exact (inv.mpAlloc_small small (inside n rfl) answers).mono fun _ allocated => allocated.kept inv
  · rw [if_neg small] at inside
    cases answers with
    | nil =>
        rw [MpPool.mpAlloc, if_neg small]
        trivial
    | cons answer rest =>
        rw [MpPool.mpAlloc, if_neg small]
        exact inv.mpAlloc_large rest answer inside

theorem Inv.mpNalloc (inv : Inv size s) {n : Nat} (answers : Answers)
    (inside : ∀ m ∈ (if n ≤ s.max then none else recordRequest s answers), s.SearchInside m) :
    Fine (Kept size) (mpNalloc answers s n) := by
  rw [mpNalloc.eq_def]
  by_cases small : n ≤ s.max
  · rw [if_pos small]
    have fits := Nat.le_trans small inv.most
    have cut := inv.allocSmall fits (fun q _ => Nat.le_refl q) (inv.visits_last n) answers
    exact cut.mono fun _ allocated => allocated.kept inv
  · rw [if_neg small] at inside ⊢
    cases answers with
    | nil => trivial
    | cons answer rest => exact inv.mpAlloc_large rest answer inside

theorem Inv.mpMemalign (inv : Inv size s) {n alignment : Nat} (answers : Answers)
    (inside : ∀ m ∈ alignedRequest s (.memalign n alignment answers), s.SearchInside m) :
    Fine (Kept size) (mpMemalign answers s n alignment) := by
  match answers with
  | [] => trivial
  | none :: rest => exact inv
  | some p :: rest =>
      rw [MpPool.mpMemalign]
      split
      · rename_i fresh
        exact inv.record_kept fresh (inside sizeofLarge rfl) rest
      · trivial

theorem Inv.mpFree (inv : Inv size s) (p : Nat) : Fine (Inv size) (mpFree s p) := by
  have ends : (findRecord s.records p (s.made.length + 1) s.large).isSome :=
    findRecord_ends inv.records (Nat.lt_succ_self _)
  rw [MpPool.mpFree]
  split
  · rename_i missing
    rw [missing] at ends
    cases ends
  · exact inv
  · exact (inv.free p).setAlloc _ 0

theorem Inv.mpResetPool (inv : Inv size s) : Fine (Inv size) (mpResetPool s) := by
  have freed := freeLarges_spec inv.records (Nat.lt_succ_self _)
  obtain ⟨reset, rest, ran, shape, nodes⟩ := inv.chained.resetNodes
  rw [MpPool.mpResetPool, freed]
  simp only [ran]
  exact
    { inv with
      head := by
        obtain ⟨tail, shape, linked⟩ := inv.head
        exact ⟨tail, shape, linked.congr fun q _ => by simp only [link, nodes.links]⟩
      block := by
        intro c inside
        have old := inv.block c inside
        have listed : c.node ∈ s.head :: rest := by rw [← shape]; exact List.mem_map_of_mem inside
        have low := old.low
        have stop := old.stop
        have header : sizeofNode = 32 := rfl
        have last := nodes.headers c.node listed
        rw [add_exact (by omega)] at last
        have end_ := (nodes.ends c.node).trans old.end_
        exact ⟨old.start, old.positive, old.stop, old.low, end_, by rw [last], by rw [last, end_]; omega⟩
      small := by simp
      apart := List.Pairwise.nil
      live := inv.live.sublist (List.filter_sublist.append_left _)
      records := rfl
      made := by simp
      once := List.nodup_nil }

theorem Inv.call (inv : Inv size s) {event : Event} (inside : StaysInside s event) :
    Fine (Inv size) (call s event) := by
  cases event with
  | alloc n answers => exact (inv.mpAlloc answers inside).done
  | nalloc n answers => exact (inv.mpNalloc answers inside).done
  | calloc n answers => exact (inv.mpAlloc answers inside).done
  | memalign n alignment answers => exact (inv.mpMemalign answers inside).done
  | free p => exact inv.mpFree p
  | reset => exact inv.mpResetPool

theorem step_inv {t : Pool} {event : Event} (inv : Inv size s) (inside : StaysInside s event)
    (taken : step s event = some t) : Inv size t := by
  have fine := inv.call inside
  rw [step_ok taken] at fine
  exact fine

theorem created_inv {p : Nat} {nodes : Nat → Node} {records : Nat → Large} (enough : sizeofLarge ≤ size)
    (fits : size + sizeofPool + sizeofNode < 2 ^ 64) (zeroed : (nodes (p + sizeofPool)).next = 0)
    (created : mpCreatePool size nodes records (some p) = .ok (some s)) : Inv size s := by
  have chained := created_chained fits zeroed created
  obtain ⟨rfl, -, -⟩ := created_eq fits created
  have most : mpMaxAllocFromPool = 4095 := rfl
  have record : sizeofLarge = 16 := rfl
  exact
    { head := chained.head
      current := chained.current
      distinct := chained.distinct
      block := by
        intro b member
        have placed := chained.block b member
        obtain rfl := List.mem_singleton.mp member
        exact ⟨placed.start, placed.positive, placed.stop, placed.low, placed.end_, by simp [emptyPool],
          by simp [emptyPool]⟩
      small := by simp [emptyPool]
      apart := List.Pairwise.nil
      live := List.pairwise_singleton ..
      most := by
        simp only [emptyPool]
        split
        · exact Nat.le_refl _
        · omega
      record := by
        simp only [emptyPool]
        split
        · exact enough
        · omega
      records := rfl
      made := by simp [emptyPool]
      once := List.nodup_nil }

-- What was cut out of a block lies behind its header and in front of its end, which is where its memory ends;
-- nothing that is handed out overlaps.
structure Separate (s : Pool) : Prop where
  inside : ∀ a ∈ s.smalls, ∃ b ∈ s.blocks, a.node = b.node ∧ b.node + sizeofNode ≤ a.region.start ∧
    a.region.start + a.region.size ≤ (s.nodes b.node).end_
  last : ∀ b ∈ s.blocks, (s.nodes b.node).last ≤ (s.nodes b.node).end_ ∧
    (s.nodes b.node).end_ = b.region.start + b.region.size
  apart : (s.smalls.map Small.region ++ s.larges).Pairwise Region.Apart

theorem Inv.separate (inv : Inv size s) : Separate s where
  inside := by
    intro a member
    have ok := inv.small a member
    obtain ⟨b, there, same, block⟩ := inv.node_block ok.node
    refine ⟨b, there, same.symm, ?_, ?_⟩
    · rw [same]
      exact ok.header
    · have last := block.last
      rw [same] at last ⊢
      exact Nat.le_trans ok.last last
  last := by
    intro b member
    have block := inv.block b member
    exact ⟨block.last, block.end_.trans block.stop⟩
  apart := by
    obtain ⟨-, larges, across⟩ := List.pairwise_append.mp inv.live
    refine List.pairwise_append.mpr ⟨List.pairwise_map.mpr inv.apart, larges, ?_⟩
    intro r left t right
    obtain ⟨a, member, rfl⟩ := List.mem_map.mp left
    obtain ⟨b, there, -, low, high⟩ := inv.small_block member
    have outer := across b.region (List.mem_map_of_mem there) t right
    exact outer.within low high (Nat.le_refl _) (Nat.le_refl _)

theorem mpPool_inside (size p : Nat) (nodes : Nat → Node) (records : Nat → Large) (s t : Pool) (events : List Event)
    (enough : 16 ≤ size) (fits : size + sizeofPool + sizeofNode < 2 ^ 64)
    (zeroed : (nodes (p + sizeofPool)).next = 0)
    (created : mpCreatePool size nodes records (some p) = .ok (some s))
    (inside : Along step StaysInside s events) (ran : run step s events = some t) :
    Separate t ∧ ∀ event, StaysInside t event → call t event ≠ .error .loops := by
  have inv := run_invariant_along (Inv size) (fun _ _ _ inv stays taken => step_inv inv stays taken)
    (created_inv enough fits zeroed created) inside ran
  refine ⟨inv.separate, ?_⟩
  intro event stays loops
  have fine := inv.call stays
  rw [loops] at fine
  exact fine

def onZeros (size p : Nat) : Except Fault (Option Pool) :=
  mpCreatePool size (fun _ => ⟨0, 0, 0, 0⟩) (fun _ => ⟨0, 0⟩) (some p)

theorem onZeros_created {size p : Nat} {s : Pool} (created : s ∈ (onZeros size p).toOption.join) :
    onZeros size p = .ok (some s) := by
  cases outcome : onZeros size p with
  | error fault =>
      rw [outcome] at created
      cases created
  | ok pool =>
      rw [outcome] at created
      exact congrArg Except.ok created

def mixed : List Event :=
  [.alloc 512 [], .nalloc 100 [], .calloc 3000 [], .alloc 3000 [some 0x8000], .alloc 9000 [some 0x10000],
    .free 0x10000, .alloc 5000 [some 0x20000], .memalign 64 64 [some 0x10040], .alloc 7000 [none], .reset,
    .alloc 4000 []]

theorem mpPool_inside_mixed :
    ∃ s t, onZeros 4096 0x1000 = .ok (some s) ∧ run step s mixed = some t ∧ Separate t := by
  have possible : ((onZeros 4096 0x1000).toOption.join.bind fun s =>
      if Along step StaysInside s mixed then run step s mixed else none).isSome := by decide
  obtain ⟨t, both⟩ := Option.isSome_iff_exists.mp possible
  obtain ⟨s, created, rest⟩ := Option.bind_eq_some_iff.mp both
  split at rest
  · rename_i inside
    obtain ⟨separate, -⟩ := mpPool_inside 4096 0x1000 _ _ s t mixed (by decide) (by decide) rfl
      (onZeros_created created) inside rest
    exact ⟨s, t, onZeros_created created, rest, separate⟩
  · cases rest

-- A pool of 16 bytes: 8 bytes end at the end of the block, and the next aligned address is behind it.
theorem mpPool_inside_behind :
    ∃ s t, onZeros 16 0x1000 = .ok (some s) ∧ run step s [.alloc 8 [], .alloc 1 []] = some t ∧
      t.blocks = [⟨0x1018, ⟨0x1000, 72⟩⟩] ∧ t.smalls = [⟨0x1018, ⟨0x1060, 1⟩⟩, ⟨0x1018, ⟨0x1040, 8⟩⟩] ∧
      ¬ Separate t := by
  have result : ((onZeros 16 0x1000).toOption.join.bind fun s =>
      (run step s [.alloc 8 [], .alloc 1 []]).bind fun t =>
        if t.blocks = [⟨0x1018, ⟨0x1000, 72⟩⟩] ∧ t.smalls = [⟨0x1018, ⟨0x1060, 1⟩⟩, ⟨0x1018, ⟨0x1040, 8⟩⟩] ∧
          (t.nodes 0x1018).last = 0x1061 ∧ (t.nodes 0x1018).end_ = 0x1048 then some t else none).isSome := by
    decide
  obtain ⟨found, all⟩ := Option.isSome_iff_exists.mp result
  obtain ⟨s, created, after⟩ := Option.bind_eq_some_iff.mp all
  obtain ⟨t, ran, rest⟩ := Option.bind_eq_some_iff.mp after
  split at rest
  · rename_i facts
    obtain ⟨blocks, smalls, last, end_⟩ := facts
    refine ⟨s, t, onZeros_created created, ran, blocks, smalls, ?_⟩
    intro separate
    have order := (separate.last ⟨0x1018, ⟨0x1000, 72⟩⟩ (by rw [blocks]; exact List.mem_singleton_self _)).1
    simp only [last, end_] at order
    omega
  · cases rest

end CppInfra.MemPool.MpPool
