import CppInfra.FreeQueue.MsgQueueRuns

set_option autoImplicit false

namespace CppInfra.FreeQueue.MsgQueue

open ConditionVariable Transition Words LinkedChain

variable {Thread : Type} [DecidableEq Thread] {s s' : State Thread} {thread : Thread} {choice : Option Thread}
  {maxlen : Nat}

def Call.waitsGet : Call → Bool
  | .waitingGet _ => true
  | _ => false

def Call.waitsPut : Call → Bool
  | .waitingPut _ => true
  | _ => false

structure Inside (calls : Thread → Option Call) (waits : Call → Bool) (inside : List Thread) : Prop where
  distinct : inside.Nodup
  members : ∀ thread, thread ∈ inside ↔ ∃ call, calls thread = some call ∧ waits call = true

variable {calls : Thread → Option Call} {waits : Call → Bool} {inside inside' : List Thread}

omit [DecidableEq Thread] in
theorem Inside.perm (known : Inside calls waits inside) (same : inside'.Perm inside) : Inside calls waits inside' :=
  ⟨same.nodup_iff.mpr known.distinct, fun thread => same.mem_iff.trans (known.members thread)⟩

theorem called_update {c : Option Call} {other : Thread} {call : Call} :
    Function.update calls thread c other = some call ↔
      other = thread ∧ c = some call ∨ other ≠ thread ∧ calls other = some call := by
  by_cases same : other = thread
  · subst same
    simp
  · simp [same]

theorem Inside.leave (known : Inside calls waits inside) (moved : inside.Perm (thread :: inside')) :
    Inside (Function.update calls thread none) waits inside' := by
  obtain ⟨absent, distinct⟩ := List.nodup_cons.mp (moved.nodup_iff.mp known.distinct)
  refine ⟨distinct, ?_⟩
  intro other
  constructor
  · intro member
    obtain ⟨call, called, waiting⟩ := (known.members other).mp (moved.mem_iff.mpr (List.mem_cons_of_mem _ member))
    have differ : other ≠ thread := by
      rintro rfl
      exact absent member
    exact ⟨call, called_update.mpr (.inr ⟨differ, called⟩), waiting⟩
  · rintro ⟨call, called, waiting⟩
    obtain ⟨-, ⟨⟩⟩ | ⟨differ, before⟩ := called_update.mp called
    have member := moved.mem_iff.mp ((known.members other).mpr ⟨call, before, waiting⟩)
    exact (List.mem_cons.mp member).resolve_left differ

theorem Inside.out (known : Inside calls waits inside)
    (outside : ∀ call, calls thread = some call → waits call = false) :
    Inside (Function.update calls thread none) waits inside := by
  refine ⟨known.distinct, ?_⟩
  intro other
  constructor
  · intro member
    obtain ⟨call, called, waiting⟩ := (known.members other).mp member
    have differ : other ≠ thread := by
      rintro rfl
      rw [outside call called] at waiting
      cases waiting
    exact ⟨call, called_update.mpr (.inr ⟨differ, called⟩), waiting⟩
  · rintro ⟨call, called, waiting⟩
    obtain ⟨-, ⟨⟩⟩ | ⟨-, before⟩ := called_update.mp called
    exact (known.members other).mpr ⟨call, before, waiting⟩

theorem Inside.stay {c : Option Call} (known : Inside (Function.update calls thread none) waits inside)
    (outside : ∀ call, c = some call → waits call = false) : Inside (Function.update calls thread c) waits inside := by
  refine ⟨known.distinct, ?_⟩
  intro other
  refine (known.members other).trans ?_
  constructor
  · rintro ⟨call, called, waiting⟩
    obtain ⟨-, ⟨⟩⟩ | later := called_update.mp called
    exact ⟨call, called_update.mpr (.inr later), waiting⟩
  · rintro ⟨call, called, waiting⟩
    obtain ⟨-, here⟩ | later := called_update.mp called
    · rw [outside call here] at waiting
      cases waiting
    · exact ⟨call, called_update.mpr (.inr later), waiting⟩

theorem Inside.enter {call : Call} (known : Inside (Function.update calls thread none) waits inside)
    (waiting : waits call = true) : Inside (Function.update calls thread (some call)) waits (thread :: inside) := by
  have absent : thread ∉ inside := by
    intro member
    obtain ⟨other, called, -⟩ := (known.members thread).mp member
    rw [Function.update_self] at called
    cases called
  refine ⟨List.nodup_cons.mpr ⟨absent, known.distinct⟩, ?_⟩
  intro other
  rw [List.mem_cons, known.members other]
  constructor
  · rintro (rfl | ⟨call', called, inner⟩)
    · exact ⟨call, Function.update_self .., waiting⟩
    · obtain ⟨-, ⟨⟩⟩ | later := called_update.mp called
      exact ⟨call', called_update.mpr (.inr later), inner⟩
  · rintro ⟨call', called, inner⟩
    obtain ⟨here, -⟩ | later := called_update.mp called
    · exact .inl here
    · exact .inr ⟨call', called_update.mpr (.inr later), inner⟩

structure Awake (s : State Thread) : Prop where
  getters : Inside s.calls Call.waitsGet s.queue.getCond.inside
  putters : Inside s.calls Call.waitsPut s.queue.putCond.inside
  room : s.queue.putCond.waiting ≠ [] → s.queue.full = true
  putMode : s.queue.putCond.waiting ≠ [] → s.queue.nonblock = true → ∃ setter, s.calls setter = some .setting
  getMode : s.queue.getCond.waiting ≠ [] → s.queue.nonblock = true → ∃ setter, s.calls setter = some .setting
  work : s.queue.getCond.waiting ≠ [] → s.queue.msgCnt ≠ 0 → ∃ producer, s.calls producer = some .signalling

theorem elsewhere {call : Call} (c : Option Call) :
    (∃ other, Function.update calls thread none other = some call) →
      ∃ other, Function.update calls thread c other = some call := by
  rintro ⟨other, called⟩
  obtain ⟨-, ⟨⟩⟩ | later := called_update.mp called
  exact ⟨other, called_update.mpr (.inr later)⟩

theorem without {call : Call} (differ : calls thread ≠ some call) (somewhere : ∃ other, calls other = some call) :
    ∃ other, Function.update calls thread none other = some call := by
  obtain ⟨other, called⟩ := somewhere
  refine ⟨other, called_update.mpr (.inr ⟨?_, called⟩)⟩
  rintro rfl
  exact differ called

theorem Awake.away (awake : Awake s) {c : Option Call} (called : s.calls thread = c)
    (notGet : ∀ call, c = some call → call.waitsGet = false) (notPut : ∀ call, c = some call → call.waitsPut = false)
    (notSetting : c ≠ some .setting) (notSignalling : c ≠ some .signalling) : Awake (s.goto thread none) where
  getters := awake.getters.out fun call here => notGet call (called.symm.trans here)
  putters := awake.putters.out fun call here => notPut call (called.symm.trans here)
  room := awake.room
  putMode sleeping mode := without (called ▸ notSetting) (awake.putMode sleeping mode)
  getMode sleeping mode := without (called ▸ notSetting) (awake.getMode sleeping mode)
  work sleeping some := without (called ▸ notSignalling) (awake.work sleeping some)

theorem Awake.resumePut (awake : Awake s) {msg : Nat} (called : s.calls thread = some (.waitingPut msg))
    {putCond : Condition Thread} (moved : s.queue.putCond.resume thread = some putCond) :
    Awake (({ s with queue := { s.queue with putCond := putCond } } : State Thread).goto thread none) := by
  have waiting := resume_waiting moved
  refine ⟨awake.getters.out ?_, awake.putters.leave (resume_inside moved), ?_, ?_, ?_, ?_⟩
  · intro call here
    obtain rfl := Option.some.inj (called.symm.trans here)
    rfl
  · intro sleeping
    exact awake.room (waiting ▸ sleeping)
  · intro sleeping mode
    exact without (by rw [called]; nofun) (awake.putMode (waiting ▸ sleeping) mode)
  · intro sleeping mode
    exact without (by rw [called]; nofun) (awake.getMode sleeping mode)
  · intro sleeping some
    exact without (by rw [called]; nofun) (awake.work sleeping some)

theorem Awake.resumeGet (awake : Awake s) {getHead : Nat} (called : s.calls thread = some (.waitingGet getHead))
    {getCond : Condition Thread} (moved : s.queue.getCond.resume thread = some getCond) :
    Awake (({ s with queue := { s.queue with getCond := getCond } } : State Thread).goto thread none) := by
  have waiting := resume_waiting moved
  refine ⟨awake.getters.leave (resume_inside moved), awake.putters.out ?_, awake.room, ?_, ?_, ?_⟩
  · intro call here
    obtain rfl := Option.some.inj (called.symm.trans here)
    rfl
  · intro sleeping mode
    exact without (by rw [called]; nofun) (awake.putMode sleeping mode)
  · intro sleeping mode
    exact without (by rw [called]; nofun) (awake.getMode (waiting ▸ sleeping) mode)
  · intro sleeping some
    exact without (by rw [called]; nofun) (awake.work (waiting ▸ sleeping) some)

theorem Awake.quiet (awake : Awake (s.goto thread none)) {q : Queue Thread} {c : Option Call} {puts : List Nat}
    {gets : List (Option Nat)} (getCond : q.getCond = s.queue.getCond) (putCond : q.putCond = s.queue.putCond)
    (full : q.full = s.queue.full) (cnt : q.msgCnt = s.queue.msgCnt) (nonblock : q.nonblock = s.queue.nonblock)
    (notGet : ∀ call, c = some call → call.waitsGet = false) (notPut : ∀ call, c = some call → call.waitsPut = false) :
    Awake { queue := q, calls := Function.update s.calls thread c, puts := puts, gets := gets } where
  getters := getCond ▸ awake.getters.stay notGet
  putters := putCond ▸ awake.putters.stay notPut
  room sleeping := full.trans (awake.room (putCond ▸ sleeping))
  putMode sleeping mode := elsewhere c (awake.putMode (putCond ▸ sleeping) (nonblock.symm.trans mode))
  getMode sleeping mode := elsewhere c (awake.getMode (getCond ▸ sleeping) (nonblock.symm.trans mode))
  work sleeping some := elsewhere c (awake.work (getCond ▸ sleeping) (cnt ▸ some))

theorem Awake.putLocked (awake : Awake (s.goto thread none)) {msg : Nat}
    (few : s.queue.msgCnt + 1 < 2 ^ 64) (put : s.putLocked thread msg = some s') : Awake s' := by
  obtain ⟨full, mode, rfl⟩ | ⟨-, rfl⟩ := putLocked_cases put
  · refine ⟨awake.getters.stay ?_, awake.putters.enter rfl, fun _ => full, ?_, ?_, ?_⟩
    · rintro _ ⟨⟩
      rfl
    · intro _ nonblock
      exact absurd (mode.symm.trans nonblock) nofun
    · intro _ nonblock
      exact absurd (mode.symm.trans nonblock) nofun
    · intro sleeping some
      exact elsewhere _ (awake.work sleeping some)
  · refine ⟨awake.getters.stay ?_, awake.putters.stay ?_, ?_, ?_, ?_, ?_⟩
    · rintro _ ⟨⟩
      rfl
    · rintro _ ⟨⟩
      rfl
    · intro sleeping
      have full : s.queue.full = true := awake.room sleeping
      rw [Queue.full, decide_eq_true_eq] at full
      rw [Queue.full, Queue.appended, decide_eq_true_eq]
      dsimp only
      rw [add_exact few]
      omega
    · intro sleeping mode
      exact elsewhere _ (awake.putMode sleeping mode)
    · intro sleeping mode
      exact elsewhere _ (awake.getMode sleeping mode)
    · intro _ _
      exact ⟨thread, Function.update_self ..⟩

theorem Awake.swapLocked (awake : Awake (s.goto thread none)) (getHead : Nat) :
    Awake (s.swapLocked thread getHead) := by
  obtain ⟨none, mode, same⟩ | ⟨-, same⟩ := swapLocked_cases s thread getHead
  · rw [same]
    refine ⟨awake.getters.enter rfl, awake.putters.stay ?_, awake.room, ?_, ?_, ?_⟩
    · rintro _ ⟨⟩
      rfl
    · intro _ nonblock
      exact absurd (mode.symm.trans nonblock) nofun
    · intro _ nonblock
      exact absurd (mode.symm.trans nonblock) nofun
    · intro _ some
      exact absurd none some
  · rw [same]
    -- Producers sleep only while the queue is full, and then all of them are notified.
    have rested : (if s.queue.full then s.queue.putCond.notifyAll else s.queue.putCond).waiting = [] := by
      by_cases full : s.queue.full = true
      · rw [if_pos full]
        rfl
      · rw [if_neg full]
        by_contra sleeping
        exact full (awake.room sleeping)
    have inside : (if s.queue.full then s.queue.putCond.notifyAll else s.queue.putCond).inside =
        s.queue.putCond.inside := by
      split
      · exact notifyAll_inside _
      · rfl
    refine ⟨awake.getters.stay ?_, (awake.putters.perm (.of_eq inside)).stay ?_, ?_, ?_, ?_, ?_⟩
    · rintro _ ⟨⟩
      rfl
    · rintro _ ⟨⟩
      rfl
    · intro sleeping
      exact absurd rested sleeping
    · intro sleeping
      exact absurd rested sleeping
    · intro sleeping nonblock
      exact elsewhere _ (awake.getMode sleeping nonblock)
    · intro _ some
      exact absurd rfl some

theorem Awake.leaveGet (awake : Awake (s.goto thread none)) {found : Bool} (left : s.leaveGet thread found = some s') :
    Awake s' := by
  obtain ⟨memory, result, -, rfl⟩ := leaveGet_cases left
  exact awake.quiet rfl rfl rfl rfl rfl nofun nofun

omit [DecidableEq Thread] in
theorem Awake.single (awake : Awake s) (good : Good s) : s.queue.getCond.waiting.length ≤ 1 := by
  obtain ⟨head, front, back, pending, inv⟩ := good
  have owner (sleeper : Thread) (member : sleeper ∈ s.queue.getCond.waiting) : s.queue.getMutex = some sleeper := by
    obtain ⟨call, called, waits⟩ := (awake.getters.members sleeper).mp (List.mem_append_left _ member)
    refine (inv.locals sleeper call called).locked ?_
    cases call <;> first | rfl | cases waits
  have distinct : s.queue.getCond.waiting.Nodup := (List.nodup_append.mp awake.getters.distinct).1
  cases sleepers : s.queue.getCond.waiting with
  | nil => exact Nat.zero_le 1
  | cons first rest =>
      rw [sleepers] at owner distinct
      cases rest with
      | nil => exact Nat.le_refl 1
      | cons second rest =>
          have same := (owner first (List.mem_cons_self ..)).symm.trans
            (owner second (List.mem_cons_of_mem _ (List.mem_cons_self ..)))
          obtain rfl := Option.some.inj same
          exact absurd (List.mem_cons_self ..) (List.nodup_cons.mp distinct).1

theorem Awake.notify (awake : Awake s) (good : Good s) {call : Call} {getCond putCond : Condition Thread}
    (called : s.calls thread = some call) (notGet : call.waitsGet = false) (notPut : call.waitsPut = false)
    (moved : s.queue.getCond.notifyOne choice = some getCond) (same : putCond.inside = s.queue.putCond.inside)
    (sleeping : putCond.waiting ≠ [] → putCond = s.queue.putCond ∧ call ≠ .setting) :
    Awake { s with
      queue := { s.queue with getCond := getCond, putCond := putCond }
      calls := Function.update s.calls thread none } := by
  have rested := notifyOne_single (awake.single good) moved
  refine ⟨(awake.getters.perm (notifyOne_inside moved)).out ?_, (awake.putters.perm (.of_eq same)).out ?_,
    ?_, ?_, ?_, ?_⟩
  · intro other here
    obtain rfl := Option.some.inj (called.symm.trans here)
    exact notGet
  · intro other here
    obtain rfl := Option.some.inj (called.symm.trans here)
    exact notPut
  · intro some
    obtain ⟨rfl, -⟩ := sleeping some
    exact awake.room some
  · intro some mode
    obtain ⟨rfl, notSetting⟩ := sleeping some
    refine without ?_ (awake.putMode some mode)
    rw [called]
    intro setting
    exact notSetting (Option.some.inj setting)
  · intro some
    exact absurd rested some
  · intro some
    exact absurd rested some

omit [DecidableEq Thread] in
theorem Inv.short {head : Nat} {front back pending : List Nat} (inv : Inv s head front back pending) {call : Call}
    {msg : Nat} (called : s.calls thread = some call) (holds : call.holds = some msg) :
    s.queue.msgCnt + 1 < 2 ^ 64 := by
  have own := (inv.locals thread call called).own holds
  rw [inv.shape.count]
  exact inv.shape.short (add_lt ..) own.real own.outside

theorem advance_awake (good : Good s) (awake : Awake s) {call : Call} (called : s.calls thread = some call)
    (taken : s.advance thread choice call = some s') : Awake s' := by
  obtain ⟨head, front, back, pending, inv⟩ := good
  have away (notGet : call.waitsGet = false) (notPut : call.waitsPut = false) (notSetting : call ≠ .setting)
      (notSignalling : call ≠ .signalling) : Awake (s.goto thread none) :=
    awake.away called (by rintro _ ⟨⟩; exact notGet) (by rintro _ ⟨⟩; exact notPut)
      (fun same => notSetting (Option.some.inj same)) fun same => notSignalling (Option.some.inj same)
  cases call with
  | put msg =>
      obtain ⟨queue, stored, same⟩ := Option.bind_eq_some_iff.mp taken
      obtain rfl := Option.some.inj same
      obtain ⟨-, update⟩ := Option.ite_none_left_eq_some.mp stored
      obtain rfl := Option.some.inj update
      exact (away rfl rfl nofun nofun).quiet rfl rfl rfl rfl rfl (by rintro _ ⟨⟩; rfl) (by rintro _ ⟨⟩; rfl)
  | putting msg => exact (away rfl rfl nofun nofun).putLocked (inv.short called rfl) taken
  | waitingPut msg =>
      obtain ⟨putCond, moved, locked⟩ := Option.bind_eq_some_iff.mp taken
      exact (awake.resumePut called moved).putLocked (inv.short called rfl) locked
  | signalling =>
      obtain ⟨getCond, moved, same⟩ := Option.bind_eq_some_iff.mp taken
      obtain rfl := Option.some.inj same
      exact awake.notify ⟨head, front, back, pending, inv⟩ called rfl rfl moved rfl fun _ => ⟨rfl, nofun⟩
  | get =>
      obtain ⟨-, left | rfl⟩ := enterGet_cases taken
      · exact (away rfl rfl nofun nofun).leaveGet left
      · exact (away rfl rfl nofun nofun).quiet rfl rfl rfl rfl rfl (by rintro _ ⟨⟩; rfl) (by rintro _ ⟨⟩; rfl)
  | swapping getHead =>
      obtain rfl := Option.some.inj taken
      exact (away rfl rfl nofun nofun).swapLocked getHead
  | waitingGet getHead =>
      obtain ⟨getCond, moved, same⟩ := Option.bind_eq_some_iff.mp taken
      obtain rfl := Option.some.inj same
      exact (awake.resumeGet called moved).swapLocked getHead
  | swapped cnt => exact (away rfl rfl nofun nofun).leaveGet taken
  | setting =>
      obtain ⟨getCond, moved, same⟩ := Option.bind_eq_some_iff.mp taken
      obtain rfl := Option.some.inj same
      exact awake.notify ⟨head, front, back, pending, inv⟩ called rfl rfl moved (notifyAll_inside _)
        fun sleeping => absurd rfl sleeping

theorem begin_awake (awake : Awake s) {call : Call} (begun : s.begin thread call = some s')
    (notGet : call.waitsGet = false) (notPut : call.waitsPut = false) : Awake s' := by
  obtain ⟨idle, same⟩ := Option.ite_none_right_eq_some.mp begun
  obtain rfl := Option.some.inj same
  exact (awake.away idle nofun nofun nofun nofun).quiet rfl rfl rfl rfl rfl (by rintro _ ⟨⟩; exact notGet)
    (by rintro _ ⟨⟩; exact notPut)

theorem wakeUp_awake (awake : Awake s) (taken : s.wakeUp thread = some s') : Awake s' := by
  rw [State.wakeUp] at taken
  split at taken
  · obtain ⟨putCond, moved, same⟩ := Option.bind_eq_some_iff.mp taken
    obtain rfl := Option.some.inj same
    have slept (sleeping : putCond.waiting ≠ []) : s.queue.putCond.waiting ≠ [] := fun none =>
      sleeping (wakeUp_quiet none moved)
    exact ⟨awake.getters, awake.putters.perm (wakeUp_inside moved), fun some => awake.room (slept some),
      fun some => awake.putMode (slept some), awake.getMode, awake.work⟩
  · obtain ⟨getCond, moved, same⟩ := Option.bind_eq_some_iff.mp taken
    obtain rfl := Option.some.inj same
    have slept (sleeping : getCond.waiting ≠ []) : s.queue.getCond.waiting ≠ [] := fun none =>
      sleeping (wakeUp_quiet none moved)
    exact ⟨awake.getters.perm (wakeUp_inside moved), awake.putters, awake.room, awake.putMode,
      fun some => awake.getMode (slept some), fun some => awake.work (slept some)⟩
  · cases taken

theorem step_awake (s : State Thread) (event : Event Thread) (s' : State Thread) (kept : Good s ∧ Awake s)
    (proper : Proper s event) (taken : s.step event = some s') : Good s' ∧ Awake s' := by
  obtain ⟨good, awake⟩ := kept
  refine ⟨step_good s event s' good proper taken, ?_⟩
  cases event with
  | put thread msg => exact begin_awake awake taken rfl rfl
  | get thread => exact begin_awake awake taken rfl rfl
  | setNonblock thread =>
      obtain ⟨middle, begun, same⟩ := Option.bind_eq_some_iff.mp taken
      obtain rfl := Option.some.inj same
      have started := begin_awake awake begun rfl rfl
      obtain ⟨-, update⟩ := Option.ite_none_right_eq_some.mp begun
      obtain rfl := Option.some.inj update
      have here : ∃ setter, Function.update s.calls thread (some .setting) setter = some .setting :=
        ⟨thread, Function.update_self ..⟩
      exact ⟨started.getters, started.putters, started.room, fun _ _ => here, fun _ _ => here, started.work⟩
  | setBlock thread =>
      obtain ⟨-, update⟩ := Option.ite_none_right_eq_some.mp taken
      obtain rfl := Option.some.inj update
      exact ⟨awake.getters, awake.putters, awake.room, nofun, nofun, awake.work⟩
  | step thread choice =>
      obtain ⟨call, called, advanced⟩ := Option.bind_eq_some_iff.mp taken
      exact advance_awake good awake called advanced
  | wakeUp thread => exact wakeUp_awake awake taken
  | write address value =>
      obtain rfl := Option.some.inj taken
      exact ⟨awake.getters, awake.putters, awake.room, awake.putMode, awake.getMode, awake.work⟩

omit [DecidableEq Thread] in
theorem create_awake (memory : Nat → Nat) (head1 head2 maxlen linkoff : Nat) :
    Awake (State.create memory head1 head2 maxlen linkoff : State Thread) := by
  refine ⟨⟨List.nodup_nil, ?_⟩, ⟨List.nodup_nil, ?_⟩, ?_, ?_, ?_, ?_⟩
  · intro thread
    simp [State.create, Queue.create, Condition.empty, Condition.inside]
  · intro thread
    simp [State.create, Queue.create, Condition.empty, Condition.inside]
  all_goals
    intro sleeping
    exact absurd rfl sleeping

-- No call that is under way can go on, whichever thread a signal would wake up.
def Stuck (s : State Thread) : Prop := ∀ thread choice, s.step (.step thread choice) = none

theorem notifyOne_possible (c : Condition Thread) : ∃ choice d, c.notifyOne choice = some d := by
  cases sleepers : c.waiting with
  | nil => exact ⟨none, c, if_pos sleepers⟩
  | cons first rest => exact ⟨some first, _, if_pos (sleepers ▸ List.mem_cons_self ..)⟩

theorem resume_possible {c : Condition Thread} (member : thread ∈ c.inside) (notAsleep : thread ∉ c.waiting) :
    ∃ d, c.resume thread = some d := by
  rw [Condition.resume]
  by_cases notified : thread ∈ c.notified
  · exact ⟨_, if_pos notified⟩
  · rw [if_neg notified]
    have woken : thread ∈ c.woken := by
      rcases List.mem_append.mp member with asleep | rest
      · exact absurd asleep notAsleep
      · exact (List.mem_append.mp rest).resolve_left notified
    exact ⟨_, if_pos woken⟩

def State.moves (s : State Thread) (thread : Thread) : Prop := ∃ choice, (s.step (.step thread choice)).isSome

theorem Good.moves (good : Good s) (awake : Awake s) {call : Call} (called : s.calls thread = some call) :
    s.moves thread ∨
      (∃ msg, call = .waitingPut msg ∧ thread ∈ s.queue.putCond.waiting) ∨
      (∃ getHead, call = .waitingGet getHead ∧ thread ∈ s.queue.getCond.waiting) ∨
      call = .get ∧ ∃ other, s.queue.getMutex = some other := by
  obtain ⟨head, front, back, pending, inv⟩ := good
  have moves (choice : Option Thread) (s' : State Thread) (taken : s.advance thread choice call = some s') :
      s.moves thread := by
    refine ⟨choice, ?_⟩
    rw [State.step, called, Option.bind_some, taken]
    rfl
  have loc := inv.locals thread call called
  cases call with
  | put msg =>
      obtain ⟨s', taken, -⟩ := inv.clear none called
      exact .inl (moves none s' taken)
  | putting msg =>
      obtain ⟨s', taken, -⟩ := inv.putLocked called rfl loc.1 loc.2
      exact .inl (moves none s' taken)
  | waitingPut msg =>
      by_cases asleep : thread ∈ s.queue.putCond.waiting
      · exact .inr (.inl ⟨msg, rfl, asleep⟩)
      · have member := (awake.putters.members thread).mpr ⟨_, called, rfl⟩
        obtain ⟨putCond, moved⟩ := resume_possible member asleep
        have resumed := inv.withConditions s.queue.nonblock s.queue.getCond putCond
        have own := loc.withConditions s.queue.nonblock s.queue.getCond putCond
        obtain ⟨s', taken, -⟩ := resumed.putLocked called rfl own.1 own.2
        exact .inl (moves none s' (Option.bind_eq_some_iff.mpr ⟨putCond, moved, taken⟩))
  | signalling =>
      obtain ⟨choice, getCond, moved⟩ := notifyOne_possible s.queue.getCond
      exact .inl (moves choice _ (Option.bind_eq_some_iff.mpr ⟨getCond, moved, rfl⟩))
  | get =>
      cases owner : s.queue.getMutex with
      | some other => exact .inr (.inr (.inr ⟨rfl, other, rfl⟩))
      | none =>
          obtain ⟨s', taken, -⟩ := inv.enterGet thread owner
          exact .inl (moves none s' taken)
  | swapping getHead => exact .inl (moves none _ rfl)
  | waitingGet getHead =>
      by_cases asleep : thread ∈ s.queue.getCond.waiting
      · exact .inr (.inr (.inl ⟨getHead, rfl, asleep⟩))
      · have member := (awake.getters.members thread).mpr ⟨_, called, rfl⟩
        obtain ⟨getCond, moved⟩ := resume_possible member asleep
        exact .inl (moves none _ (Option.bind_eq_some_iff.mpr ⟨getCond, moved, rfl⟩))
  | swapped cnt =>
      obtain ⟨owner, settled, length⟩ := loc
      have filled : decide (0 < cnt) = true → front ≠ [] := by
        rintro some rfl
        rw [length] at some
        cases some
      obtain ⟨s', taken, -⟩ := inv.leaveGet settled filled (inv.alone owner)
      exact .inl (moves none s' taken)
  | setting =>
      obtain ⟨choice, getCond, moved⟩ := notifyOne_possible s.queue.getCond
      exact .inl (moves choice _ (Option.bind_eq_some_iff.mpr ⟨getCond, moved, rfl⟩))

theorem Stuck.cases (stuck : Stuck s) (good : Good s) (awake : Awake s) {call : Call}
    (called : s.calls thread = some call) :
    (∃ msg, call = .waitingPut msg ∧ thread ∈ s.queue.putCond.waiting) ∨
      (∃ getHead, call = .waitingGet getHead ∧ thread ∈ s.queue.getCond.waiting) ∨
      call = .get ∧ ∃ other, s.queue.getMutex = some other := by
  refine (good.moves awake called).resolve_left ?_
  rintro ⟨choice, moved⟩
  rw [stuck thread choice] at moved
  cases moved

theorem run_awake {head1 head2 linkoff : Nat} {memory : Nat → Nat} {events : List (Event Thread)}
    (setup : Setup head1 head2 linkoff)
    (proper : Along State.step Proper (State.create memory head1 head2 maxlen linkoff) events)
    (ran : run State.step (State.create memory head1 head2 maxlen linkoff) events = some s) : Good s ∧ Awake s :=
  run_invariant_along (fun s => Good s ∧ Awake s) step_awake ⟨create_good setup memory, create_awake ..⟩ proper ran

theorem msgQueue_noLostWakeUp {head1 head2 linkoff : Nat} {memory : Nat → Nat} {events : List (Event Thread)}
    (setup : Setup head1 head2 linkoff)
    (proper : Along State.step Proper (State.create memory head1 head2 maxlen linkoff) events)
    (ran : run State.step (State.create memory head1 head2 maxlen linkoff) events = some s) :
    (s.queue.putCond.waiting ≠ [] → s.queue.full = true) ∧
      (s.queue.getCond.waiting ≠ [] → s.queue.msgCnt = 0 ∨ ∃ producer, s.calls producer = some .signalling) ∧
      (s.queue.putCond.waiting ≠ [] ∨ s.queue.getCond.waiting ≠ [] →
        s.queue.nonblock = false ∨ ∃ setter, s.calls setter = some .setting) := by
  obtain ⟨-, awake⟩ := run_awake setup proper ran
  refine ⟨awake.room, ?_, ?_⟩
  · intro sleeping
    by_cases none : s.queue.msgCnt = 0
    · exact .inl none
    · exact .inr (awake.work sleeping none)
  · intro sleeping
    cases mode : s.queue.nonblock with
    | false => exact .inl rfl
    | true =>
        rcases sleeping with producers | consumers
        · exact .inr (awake.putMode producers mode)
        · exact .inr (awake.getMode consumers mode)

def sleepy : List (Event Nat) := [.get 1, .step 1 none, .step 1 none]

theorem proper_sleepy : Along State.step Proper (State.create (fun _ => 7) 8 16 2 4) sleepy := by
  simp [sleepy, Along, Proper]

theorem msgQueue_noLostWakeUp_sleepy :
    ∃ s, run State.step (State.create (fun _ => 7) 8 16 2 4) sleepy = some s ∧ s.queue.getCond.waiting = [1] ∧
      (s.queue.msgCnt = 0 ∨ ∃ producer, s.calls producer = some .signalling) :=
  ⟨_, rfl, rfl, (msgQueue_noLostWakeUp setup_one proper_sleepy rfl).2.1 nofun⟩

theorem Stuck.idle (stuck : Stuck s) (good : Good s) (awake : Awake s) {call : Call}
    (signals : call = .signalling ∨ call = .setting) : ¬ ∃ other, s.calls other = some call := by
  rintro ⟨other, called⟩
  rcases stuck.cases good awake called with ⟨_, rfl, -⟩ | ⟨_, rfl, -⟩ | ⟨rfl, -⟩
  · exact signals.elim nofun nofun
  · exact signals.elim nofun nofun
  · exact signals.elim nofun nofun

theorem msgQueue_progress {head1 head2 linkoff : Nat} {memory : Nat → Nat} {events : List (Event Thread)}
    (setup : Setup head1 head2 linkoff)
    (proper : Along State.step Proper (State.create memory head1 head2 maxlen linkoff) events)
    (ran : run State.step (State.create memory head1 head2 maxlen linkoff) events = some s) :
    (∀ thread call, s.calls thread = some call → s.moves thread ∨
      (∃ msg, call = .waitingPut msg ∧ thread ∈ s.queue.putCond.waiting) ∨
      (∃ getHead, call = .waitingGet getHead ∧ thread ∈ s.queue.getCond.waiting) ∨
      call = .get ∧ ∃ other, s.queue.getMutex = some other) ∧
    (Stuck s →
      (∀ thread, s.calls thread = none) ∨
      (s.puts = s.gets.reduceOption ∧ s.queue.nonblock = false ∧
        ∀ thread call, s.calls thread = some call → call = .get ∨ ∃ getHead, call = .waitingGet getHead) ∨
      s.queue.full = true ∧ s.queue.nonblock = false ∧
        ∀ thread call, s.calls thread = some call → ∃ msg, call = .waitingPut msg) := by
  obtain ⟨good, awake⟩ := run_awake setup proper ran
  refine ⟨fun thread call called => good.moves awake called, fun stuck => ?_⟩
  have noSignal := stuck.idle good awake (.inl rfl)
  have noSetting := stuck.idle good awake (.inr rfl)
  by_cases asleep : ∃ thread getHead, s.calls thread = some (.waitingGet getHead)
  · obtain ⟨sleeper, getHead, called⟩ := asleep
    have sleeping : s.queue.getCond.waiting ≠ [] := by
      rcases stuck.cases good awake called with ⟨_, ⟨⟩, -⟩ | ⟨_, -, member⟩ | ⟨⟨⟩, -⟩
      exact List.ne_nil_of_mem member
    have empty : s.queue.msgCnt = 0 := by
      by_contra some
      exact noSignal (awake.work sleeping some)
    have mode : s.queue.nonblock = false := Bool.eq_false_iff.mpr fun nonblock =>
      noSetting (awake.getMode sleeping nonblock)
    refine .inr (.inl ⟨?_, mode, ?_⟩)
    · obtain ⟨head, front, back, pending, inv⟩ := good
      obtain ⟨-, -, -, rfl⟩ := inv.locals sleeper _ called
      have none : back = [] := List.eq_nil_of_length_eq_zero (inv.shape.count.symm.trans empty)
      have links := inv.links
      rw [none] at links
      have nothing : pending = [] := List.map_eq_nil_iff.mp links.symm
      rw [inv.puts, nothing, List.append_nil]
    · intro thread call here
      rcases stuck.cases good awake here with ⟨msg, rfl, member⟩ | ⟨h, rfl, -⟩ | ⟨rfl, -⟩
      · have full := awake.room (List.ne_nil_of_mem member)
        rw [Queue.full, empty] at full
        exact absurd (of_decide_eq_true full) (Nat.not_lt_zero _)
      · exact .inr ⟨h, rfl⟩
      · exact .inl rfl
  · have onlyPuts (thread : Thread) (call : Call) (here : s.calls thread = some call) :
        ∃ msg, call = .waitingPut msg ∧ thread ∈ s.queue.putCond.waiting := by
      rcases stuck.cases good awake here with put | ⟨h, rfl, -⟩ | ⟨rfl, other, owner⟩
      · exact put
      · exact absurd ⟨thread, h, here⟩ asleep
      · -- The owner of the mutex could go on if it did not sleep.
        obtain ⟨head, front, back, pending, inv⟩ := good
        obtain ⟨call, called, locks⟩ := inv.locked other owner
        rcases stuck.cases ⟨head, front, back, pending, inv⟩ awake called with ⟨_, rfl, -⟩ | ⟨h, rfl, -⟩ | ⟨rfl, -⟩
        · cases locks
        · exact absurd ⟨other, h, called⟩ asleep
        · cases locks
    by_cases idle : ∀ thread, s.calls thread = none
    · exact .inl idle
    · obtain ⟨thread, busy⟩ := not_forall.mp idle
      obtain ⟨call, here⟩ := Option.ne_none_iff_exists'.mp busy
      obtain ⟨msg, -, member⟩ := onlyPuts thread call here
      have sleeping := List.ne_nil_of_mem member
      refine .inr (.inr ⟨awake.room sleeping, ?_, ?_⟩)
      · exact Bool.eq_false_iff.mpr fun nonblock => noSetting (awake.putMode sleeping nonblock)
      · intro other call here
        obtain ⟨msg, same, -⟩ := onlyPuts other call here
        exact ⟨msg, same⟩

theorem stuck_sleepy {s : State Nat}
    (ran : run State.step (State.create (fun _ => 7) 8 16 2 4) sleepy = some s) : Stuck s := by
  obtain rfl := Option.some.inj ran
  intro thread choice
  by_cases same : thread = 1
  · subst same
    rfl
  · simp [State.step, State.swapLocked, State.goto, State.create, same]

theorem msgQueue_progress_sleepy :
    ∃ s, run State.step (State.create (fun _ => 7) 8 16 2 4) sleepy = some s ∧ 1 ∈ s.queue.getCond.waiting ∧
      ∀ thread call, s.calls thread = some call → call = .get ∨ ∃ getHead, call = .waitingGet getHead := by
  obtain ⟨moves, stops⟩ := msgQueue_progress setup_one proper_sleepy rfl
  refine ⟨_, rfl, ?_, ?_⟩
  · rcases moves 1 _ rfl with moved | ⟨msg, wrong, -⟩ | ⟨getHead, -, asleep⟩ | ⟨wrong, -⟩
    · obtain ⟨choice, taken⟩ := moved
      rw [stuck_sleepy rfl 1 choice] at taken
      cases taken
    · cases wrong
    · exact asleep
    · cases wrong
  · rcases stops (stuck_sleepy rfl) with idle | ⟨-, -, gets⟩ | ⟨full, -, -⟩
    · exact absurd (idle 1) nofun
    · exact gets
    · exact absurd full (by decide)

end CppInfra.FreeQueue.MsgQueue
