import CppInfra.MemPool.MpPoolRuns
import Mathlib.Data.List.Find

set_option autoImplicit false

namespace CppInfra.MemPool.MpPool

open Words Transition ByteMemory LinkedChain

-- A request for `size` bytes, with the memory that `posix_memalign` returns if it needs a new block.
structure Request where
  size : Nat
  block : Option Nat

def Request.answers (request : Request) : Answers :=
  match request.block with
  | none => []
  | some m => [some m]

def Request.first (request : Request) : Event := .alloc request.size request.answers

def Request.again (request : Request) : Event := .alloc request.size []

def place (last : Nat) : Nat := mpAlignPtr last mpAlignment

def cut (s : Pool) (q n : Nat) : Pool :=
  { s with
    nodes := Function.update s.nodes q { s.nodes q with last := add 64 (place (s.nodes q).last) n }
    smalls := ⟨q, ⟨place (s.nodes q).last, n⟩⟩ :: s.smalls }

variable {size : Nat} {s t : Pool}

theorem step_small {n : Nat} (small : n ≤ s.max) (answers : Answers) :
    step s (.alloc n answers) = ((allocSmall place s n answers).bind called).toOption := by
  cases answers with
  | nil =>
      rw [step, call, mpAlloc, if_pos small]
      rfl
  | cons answer rest =>
      rw [step, call, mpAlloc, if_pos small]
      rfl

theorem Chained.small_step (chained : Chained size s) {request : Request} (small : request.size ≤ s.max)
    (taken : step s request.first = some t) :
    ∃ before rest, s.addresses = before ++ s.current :: rest ∧ Linked (link s.nodes) s.current rest ∧
      ((∃ q, (s.current :: rest).find? (hasRoom s.nodes place request.size) = some q ∧ t = cut s q request.size) ∨
        ∃ m p, (s.current :: rest).find? (hasRoom s.nodes place request.size) = none ∧
          Grown size s request.size m p t) := by
  obtain ⟨before, rest, split, linked⟩ := chained.current_split
  refine ⟨before, rest, split, linked, ?_⟩
  have length := congrArg List.length split
  rw [Pool.addresses, List.length_map, List.length_append, List.length_cons] at length
  rw [Request.first, step_small small, MpPool.allocSmall, search_find linked (by omega)] at taken
  cases found : (s.current :: rest).find? (hasRoom s.nodes place request.size) with
  | some q =>
      rw [found] at taken
      cases block : request.block with
      | none =>
          simp only [Request.answers, block] at taken
          obtain rfl := Option.some.inj taken
          exact .inl ⟨q, rfl, rfl⟩
      | some m =>
          simp only [Request.answers, block] at taken
          cases taken
  | none =>
      rw [found] at taken
      cases block : request.block with
      | none =>
          simp only [Request.answers, block] at taken
          cases taken
      | some m =>
          simp only [Request.answers, block] at taken
          have grows := chained.grows request.size m []
          cases outcome : MpPool.mpAllocBlock s request.size [some m] with
          | error fault =>
              rw [outcome] at taken
              cases taken
          | ok result =>
              rw [outcome] at taken grows
              obtain ⟨p, u, left⟩ := result
              cases left with
              | nil =>
                  obtain rfl := Option.some.inj taken
                  exact .inr ⟨m, p, rfl, grows⟩
              | cons answer left => cases taken

structure Grows (s t : Pool) : Prop where
  addresses : s.addresses <+: t.addresses
  aligned : ∀ q ∈ t.addresses, q ∈ s.addresses ∨ q % mpAlignment = 0
  max : t.max = s.max
  head : t.head = s.head
  large : t.large = s.large
  made : t.made = s.made
  current : t.current = t.head → s.current = s.head

theorem Grows.refl (s : Pool) : Grows s s := ⟨List.prefix_refl _, fun _ old => .inl old, rfl, rfl, rfl, rfl, id⟩

theorem Grows.trans {u : Pool} (early : Grows s t) (late : Grows t u) : Grows s u where
  addresses := early.addresses.trans late.addresses
  aligned := by
    intro q member
    rcases late.aligned q member with known | aligned
    · exact early.aligned q known
    · exact .inr aligned
  max := late.max.trans early.max
  head := late.head.trans early.head
  large := late.large.trans early.large
  made := late.made.trans early.made
  current := fun atHead => early.current (late.current atHead)

theorem cut_grows (s : Pool) (q n : Nat) : Grows s (cut s q n) :=
  ⟨List.prefix_refl _, fun _ old => .inl old, rfl, rfl, rfl, rfl, id⟩

theorem Grown.grows {n m p : Nat} (grown : Grown size s n m p t) : Grows s t where
  addresses := by
    rw [grown.addresses]
    exact List.prefix_append ..
  aligned := by
    intro q member
    rw [grown.addresses] at member
    rcases List.mem_append.mp member with known | new
    · exact .inl known
    · obtain rfl := List.mem_singleton.mp new
      exact .inr grown.fresh.2.2.1
  max := grown.extended.max
  head := by rw [grown.pool]
  large := grown.extended.large
  made := grown.extended.made
  current := by
    intro atHead
    have head : t.head = s.head := by rw [grown.pool]
    exact grown.stays (atHead.trans head)

theorem Chained.cut (chained : Chained size s) (q n : Nat) : Chained size (cut s q n) :=
  chained.congr rfl rfl rfl (lastWritten s.nodes q _)

theorem Chained.small_grows (chained : Chained size s) {request : Request} (small : request.size ≤ s.max)
    (taken : step s request.first = some t) : Chained size t ∧ Grows s t := by
  obtain ⟨_, _, _, _, served⟩ := chained.small_step small taken
  rcases served with ⟨q, -, rfl⟩ | ⟨m, p, -, grown⟩
  · exact ⟨chained.cut q request.size, cut_grows s q request.size⟩
  · exact ⟨grown.chained chained, grown.grows⟩

theorem Chained.pass_grows (chained : Chained size s) {requests : List Request}
    (small : ∀ request ∈ requests, request.size ≤ s.max) (ran : run step s (requests.map Request.first) = some t) :
    Chained size t ∧ Grows s t := by
  induction requests generalizing s with
  | nil =>
      obtain rfl := Option.some.inj ran
      exact ⟨chained, Grows.refl s⟩
  | cons request rest ih =>
      obtain ⟨next, taken, later⟩ := run_cons.mp ran
      obtain ⟨after, grows⟩ := chained.small_grows (small request (List.mem_cons_self ..)) taken
      obtain ⟨final, more⟩ := ih after (fun request member => by
        rw [grows.max]
        exact small request (List.mem_cons_of_mem _ member)) later
      exact ⟨final, grows.trans more⟩

theorem Chained.at_head (chained : Chained size s) (atHead : s.current = s.head) {before rest : List Nat}
    (split : s.addresses = before ++ s.current :: rest) : s.addresses = s.current :: rest := by
  cases before with
  | nil => exact split
  | cons first before =>
      obtain ⟨tail, shape, -⟩ := chained.head
      have distinct := chained.distinct
      rw [shape] at split distinct
      obtain ⟨-, rfl⟩ := List.cons.inj split
      rw [atHead] at distinct
      exact absurd (List.mem_append_right before (List.mem_cons_self ..)) (List.nodup_cons.mp distinct).1

theorem Chained.again (chained : Chained size s) (atHead : s.current = s.head) {request : Request} {q : Nat}
    (small : request.size ≤ s.max) (found : s.addresses.find? (hasRoom s.nodes place request.size) = some q) :
    step s request.again = some (MpPool.cut s q request.size) := by
  obtain ⟨before, rest, split, linked⟩ := chained.current_split
  have all := chained.at_head atHead split
  have length := congrArg List.length all
  rw [Pool.addresses, List.length_map, List.length_cons] at length
  rw [all] at found
  rw [Request.again, step_small small, MpPool.allocSmall, search_find linked (by omega), found]
  rfl

structure Follows (size : Nat) (first second : Pool) : Prop where
  chained : Chained size second
  current : second.current = second.head
  head : second.head = first.head
  max : second.max = first.max
  large : second.large = 0
  made : second.made = []
  last : ∀ q ∈ first.addresses, (second.nodes q).last = (first.nodes q).last
  later : ∃ later, second.addresses = first.addresses ++ later ∧
    ∀ q ∈ later, (second.nodes q).last = q + sizeofNode ∧ q % mpAlignment = 0

theorem Chained.end_of (chained : Chained size s) {q : Nat} (member : q ∈ s.addresses) :
    (s.nodes q).end_ = q + sizeofNode + size ∧ q + sizeofNode + size < 2 ^ 63 := by
  obtain ⟨b, -, rfl, ok⟩ := chained.node_block member
  have stop := ok.stop
  have low := ok.low
  exact ⟨ok.end_, by omega⟩

theorem Follows.same_room {first second : Pool} (follows : Follows size first second) (chained : Chained size first)
    {q : Nat} (n : Nat) (member : q ∈ first.addresses) :
    hasRoom second.nodes place n q = hasRoom first.nodes place n q := by
  obtain ⟨later, addresses, -⟩ := follows.later
  have there : q ∈ second.addresses := by
    rw [addresses]
    exact List.mem_append_left _ member
  rw [hasRoom, hasRoom, follows.last q member, (chained.end_of member).1, (follows.chained.end_of there).1]

theorem Follows.find {first second : Pool} (follows : Follows size first second) (chained : Chained size first)
    (n : Nat) :
    first.addresses.find? (hasRoom second.nodes place n) = first.addresses.find? (hasRoom first.nodes place n) :=
  List.find?_congr fun _ member => follows.same_room chained n member

theorem Follows.empty_room {first second : Pool} (follows : Follows size first second) {q n : Nat}
    (member : q ∈ second.addresses) (empty : (second.nodes q).last = q + sizeofNode) (aligned : q % mpAlignment = 0)
    (fits : n ≤ size) : hasRoom second.nodes place n q = true ∧ place (second.nodes q).last = q + sizeofNode := by
  obtain ⟨end_, low⟩ := follows.chained.end_of member
  have node : sizeofNode = 32 := rfl
  have start : place (q + sizeofNode) = q + sizeofNode := by
    apply mpAlignPtr_aligned (by omega)
    rw [mpAlignment] at *
    omega
  rw [hasRoom, empty, start, end_, sub_exact (by omega) (by omega)]
  exact ⟨by simp; omega, rfl⟩

theorem Follows.cut {first second : Pool} (follows : Follows size first second) {q n : Nat}
    (member : q ∈ first.addresses) : Follows size (cut first q n) (MpPool.cut second q n) := by
  obtain ⟨later, addresses, empty⟩ := follows.later
  have apart : ∀ x ∈ later, x ≠ q := by
    rintro x behind rfl
    have distinct := follows.chained.distinct
    rw [addresses] at distinct
    exact (List.nodup_append.mp distinct).2.2 x member x behind rfl
  exact
    { chained := follows.chained.cut q n
      current := follows.current
      head := follows.head
      max := follows.max
      large := follows.large
      made := follows.made
      last := by
        intro x there
        by_cases same : x = q
        · subst same
          simp [MpPool.cut, follows.last x there]
        · simpa [MpPool.cut, same] using follows.last x there
      later := by
        refine ⟨later, addresses, ?_⟩
        intro x behind
        simpa [MpPool.cut, apart x behind] using empty x behind }

theorem Follows.grown {first second next : Pool} (follows : Follows size first second) {n m p : Nat}
    (grown : Grown size first n m p next) (known : next.addresses <+: second.addresses) (fits : n ≤ size) :
    (∃ later, second.addresses = first.addresses ++ m :: later) ∧ hasRoom second.nodes place n m = true ∧
      Follows size next (MpPool.cut second m n) := by
  obtain ⟨later, addresses, empty⟩ := follows.later
  obtain ⟨behind, rfl⟩ : ∃ behind, later = m :: behind := by
    obtain ⟨behind, same⟩ := known
    rw [grown.addresses, addresses, List.append_assoc] at same
    exact ⟨behind, (List.append_cancel_left same).symm⟩
  have member : m ∈ second.addresses := by
    rw [addresses]
    exact List.mem_append_right _ (List.mem_cons_self ..)
  obtain ⟨emptyHere, aligned⟩ := empty m (List.mem_cons_self ..)
  obtain ⟨room, start⟩ := follows.empty_room member emptyHere aligned fits
  have distinct := follows.chained.distinct
  rw [addresses] at distinct
  obtain ⟨-, distinctLater, apart⟩ := List.nodup_append.mp distinct
  refine ⟨⟨behind, addresses⟩, room, ?_⟩
  exact
    { chained := follows.chained.cut m n
      current := follows.current
      head := follows.head.trans grown.grows.head.symm
      max := follows.max.trans grown.extended.max.symm
      large := follows.large
      made := follows.made
      last := by
        intro x there
        rw [grown.addresses] at there
        rcases List.mem_append.mp there with older | here
        · have different : x ≠ m := apart x older m (List.mem_cons_self ..)
          rw [(grown.same x different).1]
          simpa [MpPool.cut, different] using follows.last x older
        · obtain rfl := List.mem_singleton.mp here
          rw [grown.new.1]
          simp [MpPool.cut, start]
      later := by
        refine ⟨behind, ?_, ?_⟩
        · rw [grown.addresses, List.append_assoc]
          exact addresses
        · intro x there
          have different : x ≠ m := by
            rintro rfl
            exact (List.nodup_cons.mp distinctLater).1 there
          simpa [MpPool.cut, different] using empty x (List.mem_cons_of_mem m there) }

theorem Follows.step {first second next : Pool} (follows : Follows size first second) (chained : Chained size first)
    {request : Request} (small : request.size ≤ first.max) (fits : request.size ≤ size)
    (taken : step first request.first = some next) (atHead : first.current = first.head)
    (known : next.addresses <+: second.addresses) :
    ∃ after, MpPool.step second request.again = some after ∧ Follows size next after ∧
      after.blocks = second.blocks := by
  obtain ⟨before, rest, split, linked, served⟩ := chained.small_step small taken
  have all := chained.at_head atHead split
  rw [← all] at served
  have smallAgain : request.size ≤ second.max := by
    rw [follows.max]
    exact small
  rcases served with ⟨q, found, rfl⟩ | ⟨m, p, nothing, grown⟩
  · obtain ⟨later, addresses, -⟩ := follows.later
    have again : second.addresses.find? (hasRoom second.nodes place request.size) = some q := by
      rw [addresses, List.find?_append, follows.find chained, found]
      rfl
    exact ⟨_, follows.chained.again follows.current smallAgain again,
      follows.cut (List.mem_of_find?_eq_some found), rfl⟩
  · obtain ⟨⟨later, addresses⟩, room, after⟩ := follows.grown grown known fits
    have again : second.addresses.find? (hasRoom second.nodes place request.size) = some m := by
      rw [addresses, List.find?_append, follows.find chained, nothing, List.find?_cons_of_pos room]
      rfl
    exact ⟨_, follows.chained.again follows.current smallAgain again, after, rfl⟩

theorem Follows.pass {first second final : Pool} (follows : Follows size first second) (chained : Chained size first)
    {requests : List Request} (small : ∀ request ∈ requests, request.size ≤ first.max) (most : first.max ≤ size)
    (ran : run MpPool.step first (requests.map Request.first) = some final) (atHead : final.current = final.head)
    (same : final.addresses = second.addresses) :
    ∃ after, run MpPool.step second (requests.map Request.again) = some after ∧ Follows size final after ∧
      after.blocks = second.blocks := by
  induction requests generalizing first second with
  | nil =>
      obtain rfl := Option.some.inj ran
      exact ⟨second, rfl, follows, rfl⟩
  | cons request rest ih =>
      obtain ⟨next, taken, later⟩ := run_cons.mp ran
      have here := small request (List.mem_cons_self ..)
      obtain ⟨chainedNext, grows⟩ := chained.small_grows here taken
      have smallNext : ∀ request ∈ rest, request.size ≤ next.max := by
        intro request member
        rw [grows.max]
        exact small request (List.mem_cons_of_mem _ member)
      obtain ⟨-, more⟩ := chainedNext.pass_grows smallNext later
      obtain ⟨middle, takenAgain, followsNext, blocks⟩ := follows.step chained here (Nat.le_trans here most) taken
        (grows.current (more.current atHead)) (same ▸ more.addresses)
      have sameNext : final.addresses = middle.addresses := by
        rw [same, Pool.addresses, Pool.addresses, blocks]
      obtain ⟨after, ranAgain, followsFinal, blocksFinal⟩ :=
        ih followsNext chainedNext smallNext (grows.max ▸ most) later sameNext
      exact ⟨after, run_cons.mpr ⟨middle, takenAgain, ranAgain⟩, followsFinal, blocksFinal.trans blocks⟩

structure Ready (size : Nat) (final s : Pool) : Prop where
  chained : Chained size s
  current : s.current = s.head
  head : s.head = final.head
  max : s.max = final.max
  large : s.large = 0
  made : s.made = []
  blocks : s.blocks = final.blocks

theorem Ready.reset {p : Nat} {nodes : Nat → Node} {records : Nat → Large} {final : Pool} (ready : Ready size final s)
    (grows : Grows (emptyPool size p nodes records) final) :
    ∃ u, step s .reset = some u ∧ Follows size (emptyPool size p nodes records) u ∧ u.blocks = final.blocks := by
  have head : s.head = p + sizeofPool := ready.head.trans grows.head
  obtain ⟨reset, rest, ran, shape, nodesReset⟩ := ready.chained.resetNodes
  have done : mpResetPool s = .ok { s with large := 0, nodes := reset, smalls := [], made := [] } := by
    rw [mpResetPool, ready.large, ready.made]
    simp [freeLarges, ran]
  have chained := ready.chained.mpResetPool done
  have empty : ∀ q ∈ s.addresses, (reset q).last = q + sizeofNode := by
    intro q member
    obtain ⟨-, low⟩ := ready.chained.end_of member
    rw [nodesReset.headers q (shape ▸ member), add_exact (by omega)]
  have addresses : s.addresses = final.addresses := by rw [Pool.addresses, ready.blocks, Pool.addresses]
  refine ⟨{ s with large := 0, nodes := reset, smalls := [], made := [] }, ?_, ?_, ready.blocks⟩
  · rw [step, call, done]
    rfl
  exact
    { chained := chained
      current := ready.current
      head := head
      max := ready.max.trans grows.max
      large := rfl
      made := rfl
      last := by
        intro q member
        obtain rfl := List.mem_singleton.mp member
        have there : p + sizeofPool ∈ s.addresses := by
          rw [← head]
          exact ready.chained.head_mem
        show (reset (p + sizeofPool)).last = _
        rw [empty _ there]
        simp [emptyPool]
      later := by
        refine ⟨rest, ?_, ?_⟩
        · show s.addresses = [p + sizeofPool] ++ rest
          rw [shape, head]
          rfl
        · intro q behind
          have member : q ∈ s.addresses := by
            rw [shape]
            exact List.mem_cons_of_mem _ behind
          refine ⟨empty q member, ?_⟩
          rcases grows.aligned q (addresses ▸ member) with first | aligned
          · have distinct := ready.chained.distinct
            rw [shape] at distinct
            rw [List.mem_singleton.mp first, ← head] at behind
            exact absurd behind (List.nodup_cons.mp distinct).1
          · exact aligned }

theorem Follows.ready {final after : Pool} (follows : Follows size final after) (blocks : after.blocks = final.blocks) :
    Ready size final after :=
  ⟨follows.chained, follows.current, follows.head, follows.max, follows.large, follows.made, blocks⟩

theorem Ready.round {p : Nat} {nodes : Nat → Node} {records : Nat → Large} {requests : List Request}
    (ready : Ready size t s) (chained : Chained size (emptyPool size p nodes records))
    (small : ∀ request ∈ requests, request.size ≤ (emptyPool size p nodes records).max)
    (ran : run step (emptyPool size p nodes records) (requests.map Request.first) = some t)
    (atHead : t.current = t.head) :
    ∃ u, run step s (.reset :: requests.map Request.again) = some u ∧ Ready size t u := by
  have most : (emptyPool size p nodes records).max ≤ size := by
    have bound : mpMaxAllocFromPool = 4095 := rfl
    simp only [emptyPool]
    split
    · exact Nat.le_refl _
    · omega
  obtain ⟨-, grows⟩ := chained.pass_grows small ran
  obtain ⟨empty, taken, follows, blocks⟩ := ready.reset grows
  have same : t.addresses = empty.addresses := by rw [Pool.addresses, Pool.addresses, blocks]
  obtain ⟨after, ranAgain, followsLast, kept⟩ := follows.pass chained small most ran atHead same
  exact ⟨after, run_cons.mpr ⟨empty, taken, ranAgain⟩, followsLast.ready (kept.trans blocks)⟩

theorem mpResetPool_reusable (size p : Nat) (nodes : Nat → Node) (records : Nat → Large) (s t : Pool)
    (requests : List Request) (fits : size + sizeofPool + sizeofNode < 2 ^ 64)
    (zeroed : (nodes (p + sizeofPool)).next = 0)
    (created : mpCreatePool size nodes records (some p) = .ok (some s))
    (small : ∀ request ∈ requests, request.size ≤ s.max)
    (ran : run step s (requests.map Request.first) = some t) (atHead : t.current = t.head) (rounds : Nat) :
    ∃ u, run step t (List.replicate rounds (.reset :: requests.map Request.again)).flatten = some u ∧
      u.blocks = t.blocks := by
  have chained := created_chained fits zeroed created
  obtain ⟨rfl, -, -⟩ := created_eq fits created
  obtain ⟨chainedLast, grows⟩ := chained.pass_grows small ran
  have every : ∀ b, Ready size t b → ∃ u,
      run step b (List.replicate rounds (.reset :: requests.map Request.again)).flatten = some u ∧
        Ready size t u := by
    induction rounds with
    | zero => exact fun b ready => ⟨b, rfl, ready⟩
    | succ rounds ih =>
        intro b ready
        obtain ⟨middle, first, readyMiddle⟩ := ready.round chained small ran atHead
        obtain ⟨u, rest, readyLast⟩ := ih middle readyMiddle
        refine ⟨u, ?_, readyLast⟩
        rw [List.replicate_succ, List.flatten_cons, run_append, first]
        exact rest
  obtain ⟨u, rerun, ready⟩ := every t ⟨chainedLast, atHead, rfl, rfl, grows.large, grows.made, rfl⟩
  exact ⟨u, rerun, ready.blocks⟩

def threeBlocks : List Request := [⟨60, none⟩, ⟨30, some 0x2000⟩, ⟨72, some 0x3000⟩, ⟨16, none⟩]

theorem mpResetPool_reusable_threeBlocks :
    ∃ s t u, onZeros 72 0x1000 = .ok (some s) ∧ run step s (threeBlocks.map Request.first) = some t ∧
      t.blocks.length = 3 ∧
      run step t (List.replicate 5 (.reset :: threeBlocks.map Request.again)).flatten = some u ∧
      u.blocks = t.blocks := by
  have possible : ((onZeros 72 0x1000).toOption.join.bind fun s =>
      (run step s (threeBlocks.map Request.first)).bind fun t =>
        if (∀ request ∈ threeBlocks, request.size ≤ s.max) ∧ t.current = t.head ∧ t.blocks.length = 3 then some t
        else none).isSome := by decide
  obtain ⟨found, all⟩ := Option.isSome_iff_exists.mp possible
  obtain ⟨s, created, after⟩ := Option.bind_eq_some_iff.mp all
  obtain ⟨t, ran, rest⟩ := Option.bind_eq_some_iff.mp after
  split at rest
  · rename_i facts
    obtain ⟨small, atHead, blocks⟩ := facts
    obtain ⟨u, rerun, same⟩ := mpResetPool_reusable 72 0x1000 _ _ s t threeBlocks (by decide) rfl
      (onZeros_created created) small ran atHead 5
    exact ⟨s, t, u, onZeros_created created, ran, blocks, rerun, same⟩
  · cases rest

-- Eight blocks of one request each: `current` has moved to the second of them, and the second pass is one short.
def eightBlocks : List Request := (List.range 8).map fun i => ⟨64, some (0x2000 + 0x1000 * i)⟩

theorem mpResetPool_reusable_moved :
    ∃ s t, onZeros 64 0x1000 = .ok (some s) ∧ run step s (eightBlocks.map Request.first) = some t ∧
      t.blocks.length = 9 ∧ t.current = 0x3000 ∧
      run step t (.reset :: eightBlocks.map Request.again) = none ∧
      (run step t (.reset :: List.replicate 7 (.alloc 64 []) ++ [.alloc 64 [some 0xA000]])).map
        (fun u => u.blocks.length) = some 10 := by
  have result : ((onZeros 64 0x1000).toOption.join.bind fun s =>
      (run step s (eightBlocks.map Request.first)).bind fun t =>
        if t.blocks.length = 9 ∧ t.current = 0x3000 ∧
          (run step t (.reset :: eightBlocks.map Request.again)).isNone = true ∧
          (run step t (.reset :: List.replicate 7 (.alloc 64 []) ++ [.alloc 64 [some 0xA000]])).map
            (fun u => u.blocks.length) = some 10 then some t
        else none).isSome := by decide +kernel
  obtain ⟨found, all⟩ := Option.isSome_iff_exists.mp result
  obtain ⟨s, created, after⟩ := Option.bind_eq_some_iff.mp all
  obtain ⟨t, ran, rest⟩ := Option.bind_eq_some_iff.mp after
  split at rest
  · rename_i facts
    obtain ⟨blocks, moved, short, longer⟩ := facts
    exact ⟨s, t, onZeros_created created, ran, blocks, moved, Option.isNone_iff_eq_none.mp short, longer⟩
  · cases rest

end CppInfra.MemPool.MpPool
