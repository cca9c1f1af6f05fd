import CppInfra.FreeQueue.MsgQueueInvariant

set_option autoImplicit false

namespace CppInfra.FreeQueue.MsgQueue

open ConditionVariable Transition Words LinkedChain

variable {Thread : Type} [DecidableEq Thread] {s : State Thread} {head : Nat} {front back pending : List Nat}
  {thread : Thread}

def Good (s : State Thread) : Prop := ∃ head front back pending, Inv s head front back pending

def Queue.withConditions (q : Queue Thread) (nonblock : Bool) (getCond putCond : Condition Thread) : Queue Thread :=
  { q with nonblock := nonblock, getCond := getCond, putCond := putCond }

omit [DecidableEq Thread] in
theorem Shape.withConditions {q : Queue Thread} (shape : Shape q head front back) (nonblock : Bool)
    (getCond putCond : Condition Thread) : Shape (q.withConditions nonblock getCond putCond) head front back :=
  ⟨shape.heads, shape.onFront, shape.onBack, shape.distinct, shape.real, shape.tail, shape.count⟩

omit [DecidableEq Thread] in
theorem Local.withConditions {q : Queue Thread} {call : Call} (loc : Local q head front back thread call)
    (nonblock : Bool) (getCond putCond : Condition Thread) :
    Local (q.withConditions nonblock getCond putCond) head front back thread call :=
  loc.frame rfl (fun _ holds => ⟨(loc.own holds).outside, id⟩) fun _ => ⟨rfl, rfl, rfl, rfl, rfl⟩

omit [DecidableEq Thread] in
theorem Inv.withConditions (inv : Inv s head front back pending) (nonblock : Bool)
    (getCond putCond : Condition Thread) :
    Inv { s with queue := s.queue.withConditions nonblock getCond putCond } head front back pending where
  shape := inv.shape.withConditions nonblock getCond putCond
  links := inv.links
  words := inv.words
  puts := inv.puts
  locals other call called := (inv.locals other call called).withConditions nonblock getCond putCond
  apart := inv.apart
  free := inv.free
  locked := inv.locked
  offset := inv.offset

theorem Inv.locked_update (inv : Inv s head front back pending) {call : Call} {c : Option Call}
    (called : s.calls thread = some call) (unlocked : call.locks = false) (other : Thread)
    (owner : s.queue.getMutex = some other) :
    ∃ call, Function.update s.calls thread c other = some call ∧ call.locks = true := by
  obtain ⟨call', called', locks⟩ := inv.locked other owner
  have differ : other ≠ thread := by
    rintro rfl
    rw [called] at called'
    obtain rfl := Option.some.inj called'
    rw [unlocked] at locks
    cases locks
  exact ⟨call', by rw [Function.update_of_ne differ, called'], locks⟩

theorem Inv.clear (inv : Inv s head front back pending) {msg : Nat} (choice : Option Thread)
    (call : s.calls thread = some (.put msg)) :
    ∃ s', s.advance thread choice (.put msg) = some s' ∧ Inv s' head front back pending := by
  have own : Own s.queue head front back msg := inv.locals thread _ call
  have cleared (x : Nat) (null : s.queue.memory x = 0) :
      Function.update s.queue.memory (s.queue.link msg) 0 x = 0 := by
    by_cases same : x = s.queue.link msg
    · rw [same, Function.update_self]
    · rw [Function.update_of_ne same, null]
  refine ⟨_, ?_, inv.next thread (some (.putting msg)) (inv.shape.write 0 own.outside) inv.links inv.words inv.puts
    rfl ?_ ?_ ?_ inv.free ?_⟩
  · simp only [State.advance, Queue.store, if_neg own.real, Option.bind_eq_bind, Option.bind_some]
  · rintro _ ⟨⟩
    exact ⟨⟨own.word, own.real, own.outside⟩, Function.update_self ..⟩
  · intro other otherCall _ called
    have loc := inv.locals other otherCall called
    exact loc.frame rfl (fun m holds => ⟨(loc.own holds).outside, cleared _⟩) fun _ => ⟨rfl, rfl, rfl, rfl, rfl⟩
  · intro m holds
    rw [State.held, call]
    exact holds
  · exact inv.locked_update call rfl

theorem Call.unlocked_of_holds {call : Call} {msg : Nat} (holds : call.holds = some msg) : call.locks = false := by
  cases call <;> first | rfl | cases holds

theorem Inv.append (inv : Inv s head front back pending) {call : Call} {msg : Nat}
    (called : s.calls thread = some call) (holds : call.holds = some msg) (own : Own s.queue head front back msg)
    (cleared : s.queue.memory (s.queue.link msg) = 0) :
    Inv { s with
      queue := s.queue.appended (s.queue.link msg)
      calls := Function.update s.calls thread (some .signalling)
      puts := s.puts ++ [msg] } head front (back ++ [s.queue.link msg]) (pending ++ [msg]) := by
  have shape := inv.shape.append (add_lt ..) own.real own.outside cleared
  refine inv.next thread (some .signalling) shape ?_ ?_ ?_ rfl ?_ ?_ nofun inv.free
    (inv.locked_update called (Call.unlocked_of_holds holds))
  · rw [← List.append_assoc, inv.links, List.map_append]
    rfl
  · intro m member
    rcases List.mem_append.mp member with old | new
    · exact inv.words m old
    · obtain rfl := List.mem_singleton.mp new
      exact own.word
  · rw [inv.puts, List.append_assoc]
  · rintro _ ⟨⟩
    trivial
  · intro other otherCall differ otherCalled
    have loc := inv.locals other otherCall otherCalled
    refine loc.frame rfl ?_ fun _ => ⟨rfl, rfl, rfl, rfl, rfl⟩
    intro m otherHolds
    have outside := (loc.own otherHolds).outside
    have apart : s.queue.link m ≠ s.queue.link msg := by
      apply inv.apart other thread m msg differ
      · rw [State.held, otherCalled]
        exact otherHolds
      · rw [State.held, called]
        exact holds
    have notTail : s.queue.link m ≠ s.queue.putTail := by
      intro same
      exact outside (same ▸ List.mem_append_right _ inv.shape.tail_mem)
    constructor
    · rw [Queue.appended, nodes_append, List.mem_append, List.mem_singleton]
      rintro (inside | same)
      · exact outside inside
      · exact apart same
    · intro null
      exact (Function.update_of_ne notTail ..).trans null

theorem Inv.putLocked (inv : Inv s head front back pending) {call : Call} {msg : Nat}
    (called : s.calls thread = some call) (holds : call.holds = some msg) (own : Own s.queue head front back msg)
    (cleared : s.queue.memory (s.queue.link msg) = 0) : ∃ s', s.putLocked thread msg = some s' ∧ Good s' := by
  cases blocks : s.queue.full && !s.queue.nonblock with
  | true =>
      have shape := inv.shape.withConditions s.queue.nonblock s.queue.getCond (s.queue.putCond.wait thread)
      refine ⟨_, ?_, head, front, back, pending, inv.next thread (some (.waitingPut msg)) shape inv.links
        inv.words inv.puts rfl ?_ ?_ ?_ inv.free (inv.locked_update called (Call.unlocked_of_holds holds))⟩
      · simp only [State.putLocked, Queue.putLocked, blocks, if_true, Option.bind_eq_bind, Option.bind_some,
          reduceCtorEq, if_false]
        rfl
      · rintro _ ⟨⟩
        exact ⟨⟨own.word, own.real, own.outside⟩, cleared⟩
      · intro other otherCall _ otherCalled
        exact (inv.locals other otherCall otherCalled).withConditions ..
      · intro m same
        rw [State.held, called]
        exact holds.trans same
  | false =>
      refine ⟨_, ?_, head, front, _, _, inv.append called holds own cleared⟩
      simp only [State.putLocked, Queue.putLocked, blocks, Queue.store, if_neg inv.shape.tail_real,
        Option.bind_eq_bind, Option.bind_some, Bool.false_eq_true, if_false, if_true]
      rfl

def Alone (s : State Thread) (thread : Thread) : Prop :=
  ∀ other call, other ≠ thread → s.calls other = some call → call.locks = false

omit [DecidableEq Thread] in
theorem Inv.alone (inv : Inv s head front back pending) (owner : s.queue.getMutex = some thread) : Alone s thread := by
  intro other call differ called
  cases locks : call.locks with
  | false => rfl
  | true =>
      have same := (inv.locals other call called).locked locks
      rw [owner] at same
      exact absurd (Option.some.inj same).symm differ

omit [DecidableEq Thread] in
theorem Inv.alone_of_none (inv : Inv s head front back pending) (thread : Thread)
    (open_ : s.queue.getMutex = none) :
    Alone s thread := by
  intro other call _ called
  cases locks : call.locks with
  | false => rfl
  | true =>
      have owner := (inv.locals other call called).locked locks
      rw [open_] at owner
      cases owner

theorem sub_add_word {msg linkoff : Nat} (word : msg < 2 ^ 64) (offset : linkoff < 2 ^ 64) :
    sub 64 (add 64 msg linkoff) linkoff = msg := by
  rw [sub, add, Nat.mod_add_mod, show msg + linkoff + (2 ^ 64 - linkoff) = msg + 2 ^ 64 by omega, Nat.add_mod_right,
    Nat.mod_eq_of_lt word]

def Queue.withMutex (q : Queue Thread) (getMutex : Option Thread) (getHead : Nat) : Queue Thread :=
  { q with getMutex := getMutex, getHead := getHead }

omit [DecidableEq Thread] in
theorem Shape.withMutex {q : Queue Thread} (shape : Shape q head front back) (getMutex : Option Thread)
    (getHead : Nat) : Shape (q.withMutex getMutex getHead) head front back :=
  ⟨shape.heads, shape.onFront, shape.onBack, shape.distinct, shape.real, shape.tail, shape.count⟩

theorem Inv.leaveGet (inv : Inv s head front back pending) {found : Bool} (settled : s.queue.getHead = head)
    (filled : found = true → front ≠ []) (alone : Alone s thread) :
    ∃ s', s.leaveGet thread found = some s' ∧ Good s' := by
  cases found with
  | false =>
      have shape := inv.shape.withMutex none s.queue.getHead
      refine ⟨_, rfl, head, front, back, pending, inv.next thread none shape inv.links inv.words ?_ rfl nofun ?_ nofun
        (fun _ => settled) nofun⟩
      · rw [inv.puts]
        simp [List.reduceOption_append]
      · intro other call differ called
        have loc := inv.locals other call called
        refine loc.frame rfl (fun m holds => ⟨(loc.own holds).outside, id⟩) fun locks => ?_
        rw [alone other call differ called] at locks
        cases locks
  | true =>
      obtain ⟨x, rest, rfl⟩ := List.exists_cons_of_ne_nil (filled rfl)
      obtain ⟨taken, after⟩ := inv.shape.take settled
      have shape := after.withMutex none s.queue.getHead
      have links := inv.links
      cases pending with
      | nil => cases links
      | cons msg later =>
          rw [List.map_cons, List.cons_append] at links
          obtain ⟨rfl, restLinks⟩ := List.cons.inj links
          have word := inv.words msg (List.mem_cons_self ..)
          have same : sub 64 (s.queue.link msg) s.queue.linkoff = msg := sub_add_word word inv.offset
          have puts : s.puts = (s.gets ++ [some msg]).reduceOption ++ later := by
            rw [inv.puts]
            simp [List.reduceOption_append]
          refine ⟨_, ?_, head, rest, back, later, inv.next thread none shape restLinks
            (fun m member => inv.words m (List.mem_cons_of_mem msg member)) puts rfl nofun ?_ nofun (fun _ => settled)
            nofun⟩
          · simp only [State.leaveGet, if_true, taken, same, Option.bind_eq_bind, Option.bind_some]
            rfl
          · intro other call differ called
            have loc := inv.locals other call called
            refine loc.frame rfl ?_ fun locks => ?_
            · intro m holds
              have outside := (loc.own holds).outside
              constructor
              · intro inside
                refine outside (mem_nodes.mpr ?_)
                rcases mem_nodes.mp inside with (atHead | onFront) | onBack
                · exact .inl (.inl atHead)
                · exact .inl (.inr (List.mem_cons_of_mem _ onFront))
                · exact .inr onBack
              · intro null
                refine (Function.update_of_ne ?_ ..).trans null
                intro atHead
                exact outside (mem_nodes.mpr (.inl (.inl (atHead.trans settled))))
            · rw [alone other call differ called] at locks
              cases locks

theorem Inv.enterGet (inv : Inv s head front back pending) (thread : Thread) (open_ : s.queue.getMutex = none) :
    ∃ s', s.enterGet thread = some s' ∧ Good s' := by
  have settled := inv.free open_
  have first := inv.shape.front_nil settled
  have alone := inv.alone_of_none thread open_
  cases front with
  | nil =>
      refine ⟨_, ?_, head, [], back, pending, inv.next thread (some (.swapping s.queue.getHead))
        (inv.shape.withMutex (some thread) s.queue.putHead) inv.links inv.words inv.puts rfl ?_ ?_ nofun nofun ?_⟩
      · simp only [State.enterGet, if_pos open_, first, List.headD_nil, ne_eq, not_true_eq_false, if_false,
          Option.bind_eq_bind, Option.bind_some]
        rfl
      · rintro _ ⟨⟩
        exact ⟨rfl, settled, rfl, rfl⟩
      · intro other call differ otherCalled
        have loc := inv.locals other call otherCalled
        refine loc.frame rfl (fun m holds => ⟨(loc.own holds).outside, id⟩) fun locks => ?_
        rw [alone other call differ otherCalled] at locks
        cases locks
      · rintro other ⟨⟩
        exact ⟨_, Function.update_self .., rfl⟩
  | cons x rest =>
      have real : x ≠ 0 := (inv.shape.real x (mem_nodes.mpr (.inl (.inr (List.mem_cons_self ..))))).1
      have filled : true = true → x :: rest ≠ [] := fun _ => List.cons_ne_nil x rest
      obtain ⟨s', left, good⟩ := inv.leaveGet settled filled alone
      refine ⟨s', ?_, good⟩
      simp only [State.enterGet, if_pos open_, first, List.headD_cons, ne_eq, if_pos real, left, Option.bind_eq_bind,
        Option.bind_some]

theorem Inv.swapLocked (inv : Inv s head front back pending) {getHead : Nat}
    (swapping : Swapping s.queue head front thread getHead) : Good (s.swapLocked thread getHead) := by
  obtain ⟨owner, rfl, toPut, rfl⟩ := swapping
  have alone := inv.alone owner
  have stays (c : Call) (locks : c.locks = true) (other : Thread) (same : s.queue.getMutex = some other) :
      ∃ call, Function.update s.calls thread (some c) other = some call ∧ call.locks = true := by
    rw [owner] at same
    obtain rfl := Option.some.inj same
    exact ⟨c, Function.update_self .., locks⟩
  cases blocks : s.queue.msgCnt == 0 && !s.queue.nonblock with
  | true =>
      have shape := inv.shape.withConditions s.queue.nonblock (s.queue.getCond.wait thread) s.queue.putCond
      have after := inv.next thread (some (.waitingGet getHead)) shape inv.links inv.words inv.puts rfl
        (by rintro _ ⟨⟩; exact ⟨owner, rfl, toPut, rfl⟩)
        (fun other call _ called => (inv.locals other call called).withConditions ..) nofun inv.free (stays _ rfl)
      refine ⟨getHead, [], back, pending, ?_⟩
      simp only [State.swapLocked, Queue.swapLocked, blocks, if_true]
      exact after
  | false =>
      have shape := inv.shape.exchange.withConditions s.queue.nonblock s.queue.getCond
        (if s.queue.full then s.queue.putCond.notifyAll else s.queue.putCond)
      have after := inv.next thread (some (.swapped s.queue.msgCnt)) shape ((List.append_nil back).trans inv.links)
        inv.words inv.puts rfl
        (by rintro _ ⟨⟩; exact ⟨owner, toPut, inv.shape.count⟩)
        (by
          intro other call differ called
          have loc := inv.locals other call called
          refine loc.frame rfl ?_ fun locks => ?_
          · intro m holds
            refine ⟨?_, id⟩
            intro inside
            refine (loc.own holds).outside (mem_nodes.mpr ?_)
            rcases mem_nodes.mp inside with (atPut | onBack) | (atHead | onFront)
            · exact .inr (.inl atPut)
            · exact .inr (.inr onBack)
            · exact .inl (.inl atHead)
            · cases onFront
          · rw [alone other call differ called] at locks
            cases locks)
        nofun (fun open_ => absurd (owner.symm.trans open_) nofun) (stays _ rfl)
      refine ⟨s.queue.putHead, back, [], pending, ?_⟩
      simp only [State.swapLocked, Queue.swapLocked, blocks, Bool.false_eq_true, if_false]
      exact after

-- What callers must not do: put a message whose link is still in use, or write to a link that they have put.
def Free (s : State Thread) (address : Nat) : Prop :=
  address ≠ s.queue.head1 ∧ address ≠ s.queue.head2 ∧
    address ∉ (s.puts.drop s.gets.reduceOption.length).map s.queue.link ∧
    ∀ thread msg, s.held thread = some msg → s.queue.link msg ≠ address

def Proper (s : State Thread) : Event Thread → Prop
  | .put _ msg => msg < 2 ^ 64 ∧ s.queue.link msg ≠ 0 ∧ Free s (s.queue.link msg)
  | .write address _ => Free s address
  | _ => True

omit [DecidableEq Thread] in
theorem Inv.outside (inv : Inv s head front back pending) {address : Nat} (free : Free s address) :
    address ∉ nodes head front s.queue.putHead back := by
  obtain ⟨notFirst, notSecond, notPending, -⟩ := free
  rw [inv.puts, List.drop_left, ← inv.links, List.mem_append, not_or] at notPending
  intro inside
  rcases mem_nodes.mp inside with (atHead | onFront) | (atPut | onBack)
  · obtain ⟨first, -⟩ | ⟨second, -⟩ := inv.shape.heads
    · exact notFirst (atHead.trans first)
    · exact notSecond (atHead.trans second)
  · exact notPending.1 onFront
  · obtain ⟨-, second⟩ | ⟨-, first⟩ := inv.shape.heads
    · exact notSecond (atPut.trans second)
    · exact notFirst (atPut.trans first)
  · exact notPending.2 onBack

omit [DecidableEq Thread] in
theorem Inv.write (inv : Inv s head front back pending) {address : Nat} (value : Nat) (free : Free s address) :
    Inv { s with queue := { s.queue with memory := Function.update s.queue.memory address value } } head front back
      pending where
  shape := inv.shape.write value (inv.outside free)
  links := inv.links
  words := inv.words
  puts := inv.puts
  apart := inv.apart
  free := inv.free
  locked := inv.locked
  offset := inv.offset
  locals other call called := by
    have loc := inv.locals other call called
    refine loc.frame rfl ?_ fun _ => ⟨rfl, rfl, rfl, rfl, rfl⟩
    intro m holds
    refine ⟨(loc.own holds).outside, ?_⟩
    intro null
    refine (Function.update_of_ne ?_ ..).trans null
    apply free.2.2.2 other m
    rw [State.held, called]
    exact holds

theorem Inv.beginPut (inv : Inv s head front back pending) {msg : Nat} (idle : s.calls thread = none)
    (word : msg < 2 ^ 64) (real : s.queue.link msg ≠ 0) (free : Free s (s.queue.link msg)) :
    Inv (s.goto thread (some (.put msg))) head front back pending where
  shape := inv.shape
  links := inv.links
  words := inv.words
  puts := inv.puts
  free := inv.free
  offset := inv.offset
  locals other call called := by
    have now : Function.update s.calls thread (some (.put msg)) other = some call := called
    by_cases same : other = thread
    · rw [same, Function.update_self] at now
      obtain rfl := Option.some.inj now
      exact ⟨word, real, inv.outside free⟩
    · rw [Function.update_of_ne same] at now
      exact inv.locals other call now
  apart x y m m' differ heldX heldY := by
    rw [State.held, State.goto, held_update] at heldX heldY
    split at heldX
    · rename_i here
      rw [if_neg (here ▸ differ.symm)] at heldY
      obtain rfl := Option.some.inj heldX
      exact (free.2.2.2 y m' heldY).symm
    · split at heldY
      · obtain rfl := Option.some.inj heldY
        exact free.2.2.2 x m heldX
      · exact inv.apart x y m m' differ heldX heldY
  locked other owner := by
    obtain ⟨call, called, locks⟩ := inv.locked other owner
    have differ : other ≠ thread := by
      rintro rfl
      rw [idle] at called
      cases called
    exact ⟨call, (Function.update_of_ne differ ..).trans called, locks⟩

theorem Inv.finish (inv : Inv s head front back pending) {call : Call} (called : s.calls thread = some call)
    (unlocked : call.locks = false) (getCond putCond : Condition Thread) :
    Inv { s with
      queue := s.queue.withConditions s.queue.nonblock getCond putCond
      calls := Function.update s.calls thread none } head front back pending :=
  inv.next thread none (inv.shape.withConditions ..) inv.links inv.words inv.puts rfl nofun
    (fun other call _ called => (inv.locals other call called).withConditions ..) nofun inv.free
    (inv.locked_update called unlocked)

theorem advance_good (good : Good s) {call : Call} {choice : Option Thread} {s' : State Thread}
    (called : s.calls thread = some call) (taken : s.advance thread choice call = some s') : Good s' := by
  obtain ⟨head, front, back, pending, inv⟩ := good
  have loc := inv.locals thread call called
  cases call with
  | put msg =>
      obtain ⟨after, cleared, kept⟩ := inv.clear choice called
      obtain rfl := Option.some.inj (cleared.symm.trans taken)
      exact ⟨head, front, back, pending, kept⟩
  | putting msg =>
      obtain ⟨after, put, kept⟩ := inv.putLocked called rfl loc.1 loc.2
      obtain rfl := Option.some.inj (put.symm.trans taken)
      exact kept
  | waitingPut msg =>
      obtain ⟨putCond, -, locked⟩ := Option.bind_eq_some_iff.mp taken
      have resumed := inv.withConditions s.queue.nonblock s.queue.getCond putCond
      have own := loc.withConditions s.queue.nonblock s.queue.getCond putCond
      obtain ⟨after, put, kept⟩ := resumed.putLocked called rfl own.1 own.2
      obtain rfl := Option.some.inj (put.symm.trans locked)
      exact kept
  | signalling =>
      obtain ⟨getCond, -, same⟩ := Option.bind_eq_some_iff.mp taken
      obtain rfl := Option.some.inj same
      exact ⟨head, front, back, pending, inv.finish called rfl getCond s.queue.putCond⟩
  | get =>
      cases owner : s.queue.getMutex with
      | some other =>
          have stuck : s.enterGet thread = none := if_neg (by rw [owner]; nofun)
          exact absurd (stuck.symm.trans taken) nofun
      | none =>
          obtain ⟨after, entered, kept⟩ := inv.enterGet thread owner
          obtain rfl := Option.some.inj (entered.symm.trans taken)
          exact kept
  | swapping getHead =>
      obtain rfl := Option.some.inj taken
      exact inv.swapLocked loc
  | waitingGet getHead =>
      obtain ⟨getCond, -, same⟩ := Option.bind_eq_some_iff.mp taken
      obtain rfl := Option.some.inj same
      have resumed := inv.withConditions s.queue.nonblock getCond s.queue.putCond
      exact resumed.swapLocked loc
  | swapped cnt =>
      obtain ⟨owner, settled, length⟩ := loc
      have filled : decide (0 < cnt) = true → front ≠ [] := by
        rintro some rfl
        rw [length] at some
        cases some
      obtain ⟨after, left, kept⟩ := inv.leaveGet settled filled (inv.alone owner)
      obtain rfl := Option.some.inj (left.symm.trans taken)
      exact kept
  | setting =>
      obtain ⟨getCond, -, same⟩ := Option.bind_eq_some_iff.mp taken
      obtain rfl := Option.some.inj same
      exact ⟨head, front, back, pending, inv.finish called rfl getCond s.queue.putCond.notifyAll⟩

theorem begin_good (good : Good s) {call : Call} {s' : State Thread} (begun : s.begin thread call = some s')
    (here : ∀ (q : Queue Thread) head front back, Local q head front back thread call)
    (fewer : call.holds = none) : Good s' := by
  obtain ⟨head, front, back, pending, inv⟩ := good
  obtain ⟨idle, same⟩ := Option.ite_none_right_eq_some.mp begun
  obtain rfl := Option.some.inj same
  refine ⟨head, front, back, pending, inv.next thread (some call) inv.shape inv.links inv.words inv.puts rfl
    (by rintro _ ⟨⟩; exact here ..) (fun other call _ called => inv.locals other call called) ?_ inv.free ?_⟩
  · intro msg holds
    rw [Option.bind_some, fewer] at holds
    cases holds
  · intro other owner
    obtain ⟨call', called, locks⟩ := inv.locked other owner
    have differ : other ≠ thread := by
      rintro rfl
      rw [idle] at called
      cases called
    exact ⟨call', (Function.update_of_ne differ ..).trans called, locks⟩

omit [DecidableEq Thread] in
theorem Good.withConditions (good : Good s) (nonblock : Bool) (getCond putCond : Condition Thread) :
    Good { s with queue := s.queue.withConditions nonblock getCond putCond } := by
  obtain ⟨head, front, back, pending, inv⟩ := good
  exact ⟨head, front, back, pending, inv.withConditions nonblock getCond putCond⟩

theorem step_good (s : State Thread) (event : Event Thread) (s' : State Thread) (good : Good s)
    (proper : Proper s event) (taken : s.step event = some s') : Good s' := by
  cases event with
  | put thread msg =>
      obtain ⟨head, front, back, pending, inv⟩ := good
      obtain ⟨idle, same⟩ := Option.ite_none_right_eq_some.mp taken
      obtain rfl := Option.some.inj same
      exact ⟨head, front, back, pending, inv.beginPut idle proper.1 proper.2.1 proper.2.2⟩
  | get thread => exact begin_good good taken (fun _ _ _ _ => trivial) rfl
  | setNonblock thread =>
      obtain ⟨middle, begun, same⟩ := Option.bind_eq_some_iff.mp taken
      obtain rfl := Option.some.inj same
      exact (begin_good good begun (fun _ _ _ _ => trivial) rfl).withConditions true ..
  | setBlock thread =>
      obtain ⟨-, same⟩ := Option.ite_none_right_eq_some.mp taken
      obtain rfl := Option.some.inj same
      exact good.withConditions false ..
  | step thread choice =>
      obtain ⟨call, called, advanced⟩ := Option.bind_eq_some_iff.mp taken
      exact advance_good good called advanced
  | wakeUp thread =>
      have woke : s.wakeUp thread = some s' := taken
      rw [State.wakeUp] at woke
      split at woke
      · obtain ⟨putCond, -, same⟩ := Option.bind_eq_some_iff.mp woke
        obtain rfl := Option.some.inj same
        exact good.withConditions s.queue.nonblock s.queue.getCond putCond
      · obtain ⟨getCond, -, same⟩ := Option.bind_eq_some_iff.mp woke
        obtain rfl := Option.some.inj same
        exact good.withConditions s.queue.nonblock getCond s.queue.putCond
      · cases woke
  | write address value =>
      obtain ⟨head, front, back, pending, inv⟩ := good
      obtain rfl := Option.some.inj taken
      exact ⟨head, front, back, pending, inv.write value proper⟩

end CppInfra.FreeQueue.MsgQueue
