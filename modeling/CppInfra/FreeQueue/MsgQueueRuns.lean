import CppInfra.FreeQueue.MsgQueueSteps

set_option autoImplicit false

namespace CppInfra.FreeQueue.MsgQueue

open ConditionVariable Transition Words LinkedChain

variable {Thread : Type} [DecidableEq Thread] {s s' : State Thread} {thread : Thread} {choice : Option Thread}
  {maxlen : Nat}

structure Setup (head1 head2 linkoff : Nat) : Prop where
  first : head1 ≠ 0 ∧ head1 < 2 ^ 64
  second : head2 ≠ 0 ∧ head2 < 2 ^ 64
  differ : head1 ≠ head2
  offset : linkoff < 2 ^ 64

omit [DecidableEq Thread] in
theorem create_good {head1 head2 linkoff : Nat} (setup : Setup head1 head2 linkoff) (memory : Nat → Nat) :
    Good (State.create memory head1 head2 maxlen linkoff : State Thread) := by
  refine ⟨head1, [], [], [], ⟨.inl ⟨rfl, rfl⟩, ?_, ?_, ?_, ?_, rfl, rfl⟩, rfl, nofun, rfl, nofun, nofun, fun _ => rfl,
    nofun, setup.offset⟩
  · exact next_none.mpr ((Function.update_of_ne setup.differ ..).trans (Function.update_self ..))
  · exact next_none.mpr (Function.update_self ..)
  · simp [nodes, State.create, Queue.create, setup.differ]
  · intro x member
    rcases mem_nodes.mp member with (rfl | ⟨⟨⟩⟩) | (rfl | ⟨⟨⟩⟩)
    · exact setup.first
    · exact setup.second

-- One message goes through the queue: thread 0 puts it, thread 1 swaps the lists and gets it.
def one : List (Event Nat) :=
  [.put 0 100, .get 1, .step 0 none, .step 1 none, .step 1 none, .step 0 none, .step 0 (some 1), .step 1 none,
    .step 1 none]

theorem setup_one : Setup 8 16 4 := ⟨by decide, by decide, by decide, by decide⟩

theorem putLocked_cases {msg : Nat} (put : s.putLocked thread msg = some s') :
    (s.queue.full = true ∧ s.queue.nonblock = false ∧ s' = { s with
        queue := { s.queue with putCond := s.queue.putCond.wait thread }
        calls := Function.update s.calls thread (some (.waitingPut msg)) }) ∨
      ((s.queue.full = true → s.queue.nonblock = true) ∧ s' = { s with
        queue := s.queue.appended (s.queue.link msg)
        calls := Function.update s.calls thread (some .signalling)
        puts := s.puts ++ [msg] }) := by
  rw [State.putLocked, Queue.putLocked] at put
  cases blocks : s.queue.full && !s.queue.nonblock with
  | true =>
      simp only [blocks, if_true, Option.bind_eq_bind, Option.bind_some, reduceCtorEq, if_false] at put
      obtain ⟨full, mode⟩ := Bool.and_eq_true_iff.mp blocks
      exact .inl ⟨full, by simpa using mode, (Option.some.inj put).symm⟩
  | false =>
      simp only [blocks, Bool.false_eq_true, if_false, Option.bind_eq_bind, Queue.store] at put
      split at put
      · cases put
      · simp only [Option.bind_some, if_true] at put
        refine .inr ⟨?_, (Option.some.inj put).symm⟩
        intro full
        simpa [full] using blocks

theorem swapLocked_cases (s : State Thread) (thread : Thread) (getHead : Nat) :
    (s.queue.msgCnt = 0 ∧ s.queue.nonblock = false ∧ s.swapLocked thread getHead = { s with
        queue := { s.queue with getCond := s.queue.getCond.wait thread }
        calls := Function.update s.calls thread (some (.waitingGet getHead)) }) ∨
      ((s.queue.msgCnt = 0 → s.queue.nonblock = true) ∧ s.swapLocked thread getHead = { s with
        queue := { s.queue.exchanged getHead with
          putCond := if s.queue.full then s.queue.putCond.notifyAll else s.queue.putCond }
        calls := Function.update s.calls thread (some (.swapped s.queue.msgCnt)) }) := by
  rw [State.swapLocked, Queue.swapLocked]
  cases blocks : s.queue.msgCnt == 0 && !s.queue.nonblock with
  | true =>
      obtain ⟨none, mode⟩ := Bool.and_eq_true_iff.mp blocks
      exact .inl ⟨by simpa using none, by simpa using mode, rfl⟩
  | false =>
      refine .inr ⟨?_, rfl⟩
      intro none
      simpa [none] using blocks

theorem leaveGet_cases {found : Bool} (left : s.leaveGet thread found = some s') :
    ∃ memory result, (result = none → found = false) ∧ s' = { s with
      queue := { s.queue with memory := memory, getMutex := none }
      calls := Function.update s.calls thread none
      gets := s.gets ++ [result] } := by
  cases found with
  | false =>
      obtain rfl := Option.some.inj left
      exact ⟨s.queue.memory, none, fun _ => rfl, rfl⟩
  | true =>
      obtain ⟨⟨queue, msg⟩, taken, same⟩ := Option.bind_eq_some_iff.mp left
      obtain ⟨first, loaded, rest⟩ := Option.bind_eq_some_iff.mp taken
      obtain ⟨second, loadedToo, last⟩ := Option.bind_eq_some_iff.mp rest
      obtain ⟨stored, written, final⟩ := Option.bind_eq_some_iff.mp last
      obtain ⟨-, update⟩ := Option.ite_none_left_eq_some.mp written
      obtain rfl := Option.some.inj update
      obtain ⟨rfl, rfl⟩ := Prod.mk.inj (Option.some.inj final)
      exact ⟨_, some _, nofun, (Option.some.inj same).symm⟩

theorem enterGet_cases (entered : s.enterGet thread = some s') :
    s.queue.getMutex = none ∧ (s.leaveGet thread true = some s' ∨ s' = { s with
      queue := { s.queue with getMutex := some thread, getHead := s.queue.putHead }
      calls := Function.update s.calls thread (some (.swapping s.queue.getHead)) }) := by
  obtain ⟨open_, rest⟩ := Option.ite_none_right_eq_some.mp entered
  refine ⟨open_, ?_⟩
  obtain ⟨first, -, chosen⟩ := Option.bind_eq_some_iff.mp rest
  split at chosen
  · exact .inl chosen
  · exact .inr (Option.some.inj chosen).symm

structure Bounded (maxlen : Nat) (s : State Thread) : Prop where
  positive : 0 < maxlen
  word : maxlen < 2 ^ 64
  max : s.queue.msgMax = maxlen
  mode : s.queue.nonblock = false
  room : s.queue.msgCnt ≤ maxlen
  ahead : s.puts.length ≤ s.gets.length + maxlen + s.queue.msgCnt
  filled : ∀ thread cnt, s.calls thread = some (.swapped cnt) → 0 < cnt
  found : none ∉ s.gets

omit [DecidableEq Thread] in
theorem Bounded.full_iff (bounded : Bounded maxlen s) : s.queue.full = true ↔ maxlen ≤ s.queue.msgCnt := by
  have positive := bounded.positive
  rw [Queue.full, bounded.max, sub_exact positive bounded.word, decide_eq_true_eq]
  omega

theorem filled_update {c : Option Call} (filled : ∀ thread cnt, s.calls thread = some (.swapped cnt) → 0 < cnt)
    (here : ∀ cnt, c = some (.swapped cnt) → 0 < cnt) (other : Thread) (cnt : Nat)
    (called : Function.update s.calls thread c other = some (.swapped cnt)) : 0 < cnt := by
  by_cases same : other = thread
  · rw [same, Function.update_self] at called
    exact here cnt called
  · rw [Function.update_of_ne same] at called
    exact filled other cnt called

theorem Bounded.quiet (bounded : Bounded maxlen s) {q : Queue Thread} {c : Option Call}
    (max : q.msgMax = s.queue.msgMax) (cnt : q.msgCnt = s.queue.msgCnt) (mode : q.nonblock = false)
    (here : ∀ cnt, c = some (.swapped cnt) → 0 < cnt) :
    Bounded maxlen { s with queue := q, calls := Function.update s.calls thread c } where
  positive := bounded.positive
  word := bounded.word
  max := max.trans bounded.max
  mode := mode
  room := cnt ▸ bounded.room
  ahead := cnt ▸ bounded.ahead
  filled := filled_update bounded.filled here
  found := bounded.found

theorem Bounded.putLocked (bounded : Bounded maxlen s) {msg : Nat} (put : s.putLocked thread msg = some s') :
    Bounded maxlen s' := by
  obtain ⟨-, mode, rfl⟩ | ⟨hasRoom, rfl⟩ := putLocked_cases put
  · exact bounded.quiet rfl rfl mode nofun
  · have few : s.queue.msgCnt < maxlen := by
      by_contra many
      have nonblock := hasRoom (bounded.full_iff.mpr (by omega))
      rw [bounded.mode] at nonblock
      cases nonblock
    have word := bounded.word
    have ahead := bounded.ahead
    have more : add 64 s.queue.msgCnt 1 = s.queue.msgCnt + 1 := add_exact (by omega)
    refine ⟨bounded.positive, word, bounded.max, bounded.mode, ?_, ?_, filled_update bounded.filled nofun,
      bounded.found⟩
    · rw [Queue.appended, more]
      exact few
    · simp only [Queue.appended, more, List.length_append, List.length_singleton]
      omega

theorem Bounded.swapLocked (bounded : Bounded maxlen s) (getHead : Nat)
    (pending : s.puts.length ≤ s.gets.length + s.queue.msgCnt) : Bounded maxlen (s.swapLocked thread getHead) := by
  obtain ⟨-, mode, same⟩ | ⟨filled, same⟩ := swapLocked_cases s thread getHead
  · rw [same]
    exact bounded.quiet rfl rfl mode nofun
  · rw [same]
    have positive : 0 < s.queue.msgCnt := by
      by_contra none
      have nonblock := filled (by omega)
      rw [bounded.mode] at nonblock
      cases nonblock
    have room := bounded.room
    refine ⟨bounded.positive, bounded.word, bounded.max, bounded.mode, Nat.zero_le _, ?_,
      filled_update bounded.filled ?_, bounded.found⟩
    · simp only [Queue.exchanged]
      omega
    · rintro cnt ⟨⟩
      exact positive

theorem Bounded.leaveGet (bounded : Bounded maxlen s) {found : Bool} (there : found = true)
    (left : s.leaveGet thread found = some s') : Bounded maxlen s' := by
  obtain ⟨memory, result, missing, rfl⟩ := leaveGet_cases left
  have ahead := bounded.ahead
  refine ⟨bounded.positive, bounded.word, bounded.max, bounded.mode, bounded.room, ?_,
    filled_update bounded.filled nofun, ?_⟩
  · simp only [List.length_append, List.length_singleton]
    omega
  · intro member
    rcases List.mem_append.mp member with old | new
    · exact bounded.found old
    · rw [missing (List.mem_singleton.mp new).symm] at there
      cases there

omit [DecidableEq Thread] in
theorem Inv.pending_length {head : Nat} {back pending : List Nat} (inv : Inv s head [] back pending) :
    s.puts.length ≤ s.gets.length + s.queue.msgCnt := by
  have links := congrArg List.length inv.links
  have puts := congrArg List.length inv.puts
  have few := List.reduceOption_length_le s.gets
  rw [List.nil_append, List.length_map] at links
  rw [List.length_append] at puts
  rw [inv.shape.count]
  omega

theorem advance_bounded (good : Good s) (bounded : Bounded maxlen s) {call : Call} (called : s.calls thread = some call)
    (taken : s.advance thread choice call = some s') : Bounded maxlen s' := by
  obtain ⟨head, front, back, pending, inv⟩ := good
  have loc := inv.locals thread call called
  cases call with
  | put msg =>
      obtain ⟨queue, stored, same⟩ := Option.bind_eq_some_iff.mp taken
      obtain rfl := Option.some.inj same
      obtain ⟨-, update⟩ := Option.ite_none_left_eq_some.mp stored
      obtain rfl := Option.some.inj update
      exact bounded.quiet rfl rfl bounded.mode nofun
  | putting msg => exact bounded.putLocked taken
  | waitingPut msg =>
      obtain ⟨putCond, -, locked⟩ := Option.bind_eq_some_iff.mp taken
      have resumed : Bounded maxlen { s with queue := { s.queue with putCond := putCond } } :=
        ⟨bounded.positive, bounded.word, bounded.max, bounded.mode, bounded.room, bounded.ahead, bounded.filled,
          bounded.found⟩
      exact resumed.putLocked locked
  | signalling =>
      obtain ⟨getCond, -, same⟩ := Option.bind_eq_some_iff.mp taken
      obtain rfl := Option.some.inj same
      exact bounded.quiet rfl rfl bounded.mode nofun
  | get =>
      obtain ⟨-, left | rfl⟩ := enterGet_cases taken
      · exact bounded.leaveGet rfl left
      · exact bounded.quiet rfl rfl bounded.mode nofun
  | swapping getHead =>
      obtain rfl := Option.some.inj taken
      obtain ⟨-, -, -, rfl⟩ := loc
      exact bounded.swapLocked getHead inv.pending_length
  | waitingGet getHead =>
      obtain ⟨getCond, -, same⟩ := Option.bind_eq_some_iff.mp taken
      obtain rfl := Option.some.inj same
      obtain ⟨-, -, -, rfl⟩ := loc
      have resumed : Bounded maxlen { s with queue := { s.queue with getCond := getCond } } :=
        ⟨bounded.positive, bounded.word, bounded.max, bounded.mode, bounded.room, bounded.ahead, bounded.filled,
          bounded.found⟩
      exact resumed.swapLocked getHead inv.pending_length
  | swapped cnt => exact bounded.leaveGet (decide_eq_true (bounded.filled thread cnt called)) taken
  | setting =>
      obtain ⟨getCond, -, same⟩ := Option.bind_eq_some_iff.mp taken
      obtain rfl := Option.some.inj same
      exact bounded.quiet rfl rfl bounded.mode nofun

def Blocking (s : State Thread) (event : Event Thread) : Prop :=
  Proper s event ∧ ∀ thread, event ≠ .setNonblock thread

theorem begin_bounded (bounded : Bounded maxlen s) {call : Call} (begun : s.begin thread call = some s')
    (new : ∀ cnt, call ≠ .swapped cnt) : Bounded maxlen s' := by
  obtain ⟨-, same⟩ := Option.ite_none_right_eq_some.mp begun
  obtain rfl := Option.some.inj same
  exact bounded.quiet rfl rfl bounded.mode fun cnt called => absurd (Option.some.inj called) (new cnt)

theorem step_bounded (s : State Thread) (event : Event Thread) (s' : State Thread) (kept : Good s ∧ Bounded maxlen s)
    (blocking : Blocking s event) (taken : s.step event = some s') : Good s' ∧ Bounded maxlen s' := by
  obtain ⟨good, bounded⟩ := kept
  refine ⟨step_good s event s' good blocking.1 taken, ?_⟩
  have same (queue : Queue Thread) (max : queue.msgMax = s.queue.msgMax) (cnt : queue.msgCnt = s.queue.msgCnt)
      (mode : queue.nonblock = false) : Bounded maxlen { s with queue := queue } :=
    ⟨bounded.positive, bounded.word, max.trans bounded.max, mode, cnt ▸ bounded.room, cnt ▸ bounded.ahead,
      bounded.filled, bounded.found⟩
  cases event with
  | put thread msg => exact begin_bounded bounded taken nofun
  | get thread => exact begin_bounded bounded taken nofun
  | setNonblock thread => exact absurd rfl (blocking.2 thread)
  | setBlock thread =>
      obtain ⟨-, update⟩ := Option.ite_none_right_eq_some.mp taken
      obtain rfl := Option.some.inj update
      exact same _ rfl rfl rfl
  | step thread choice =>
      obtain ⟨call, called, advanced⟩ := Option.bind_eq_some_iff.mp taken
      exact advance_bounded good bounded called advanced
  | wakeUp thread =>
      have woke : s.wakeUp thread = some s' := taken
      rw [State.wakeUp] at woke
      split at woke
      · obtain ⟨putCond, -, update⟩ := Option.bind_eq_some_iff.mp woke
        obtain rfl := Option.some.inj update
        exact same _ rfl rfl bounded.mode
      · obtain ⟨getCond, -, update⟩ := Option.bind_eq_some_iff.mp woke
        obtain rfl := Option.some.inj update
        exact same _ rfl rfl bounded.mode
      · cases woke
  | write address value =>
      obtain rfl := Option.some.inj taken
      exact same _ rfl rfl bounded.mode

theorem msgQueue_bounded {head1 head2 linkoff : Nat} {memory : Nat → Nat} {events : List (Event Thread)}
    (setup : Setup head1 head2 linkoff) (positive : 0 < maxlen) (word : maxlen < 2 ^ 64)
    (blocking : Along State.step Blocking (State.create memory head1 head2 maxlen linkoff) events)
    (ran : run State.step (State.create memory head1 head2 maxlen linkoff) events = some s) :
    s.puts.length ≤ s.gets.reduceOption.length + 2 * maxlen ∧ none ∉ s.gets := by
  have start : Bounded maxlen (State.create memory head1 head2 maxlen linkoff : State Thread) :=
    ⟨positive, word, rfl, rfl, Nat.zero_le _, Nat.zero_le _, nofun, nofun⟩
  obtain ⟨-, bounded⟩ := run_invariant_along (fun s => Good s ∧ Bounded maxlen s) step_bounded
    ⟨create_good setup memory, start⟩ blocking ran
  have whole : s.gets.reduceOption.length = s.gets.length := by
    refine List.reduceOption_length_eq_iff.mpr ?_
    intro result member
    cases result with
    | none => exact absurd member bounded.found
    | some msg => rfl
  have ahead := bounded.ahead
  have room := bounded.room
  refine ⟨?_, bounded.found⟩
  omega

theorem msgQueue_bounded_one :
    ∃ s, run State.step (State.create (fun _ => 7) 8 16 2 4) one = some s ∧ s.puts.length ≤ 1 + 2 * 2 ∧
      none ∉ s.gets := by
  have blocking : Along State.step Blocking (State.create (fun _ => 7) 8 16 2 4) one := by
    refine ⟨⟨⟨by decide, by decide, by decide, by decide, by decide, nofun⟩, nofun⟩, fun _ _ => ?_⟩
    simp [Along, Blocking, Proper]
  exact ⟨_, rfl, msgQueue_bounded setup_one (by decide) (by decide) blocking rfl⟩

end CppInfra.FreeQueue.MsgQueue
