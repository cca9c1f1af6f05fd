import CppInfra.Shared.ConditionVariable
import CppInfra.Shared.Transition

set_option autoImplicit false

namespace CppInfra.ThreadPool

open ConditionVariable Transition

structure BlockingQueue (T Thread : Type) where
  nonblock : Bool
  queue : List T
  notEmpty : Condition Thread
  deriving DecidableEq

namespace BlockingQueue

variable {T Thread : Type} [DecidableEq Thread]

-- How far `Pop` comes while it has the mutex: into the wait set, or to its `return`. `none` is `return false`.
inductive Outcome (T : Type) where
  | waits
  | returns (result : Option T)
  deriving DecidableEq

def create (nonblock : Bool) : BlockingQueue T Thread :=
  { nonblock := nonblock, queue := [], notEmpty := .empty }

def push (q : BlockingQueue T Thread) (value : T) (choice : Option Thread) : Option (BlockingQueue T Thread) := do
  let notEmpty ← q.notEmpty.notifyOne choice
  some { q with queue := q.queue ++ [value], notEmpty := notEmpty }

-- `!queue_.empty() || nonblock_`
def ready (q : BlockingQueue T Thread) : Bool := !q.queue.isEmpty || q.nonblock

-- `Pop` from the moment it has the mutex: the test of `wait`, and the rest if it succeeds.
def popLocked (q : BlockingQueue T Thread) (thread : Thread) : BlockingQueue T Thread × Outcome T :=
  if q.ready then
    if q.queue.isEmpty && q.nonblock then (q, .returns none)
    else ({ q with queue := q.queue.tail }, .returns q.queue.head?)
  else ({ q with notEmpty := q.notEmpty.wait thread }, .waits)

def pop (q : BlockingQueue T Thread) (thread : Thread) : Option (BlockingQueue T Thread × Outcome T) :=
  if thread ∈ q.notEmpty.inside then none else some (q.popLocked thread)

def resume (q : BlockingQueue T Thread) (thread : Thread) : Option (BlockingQueue T Thread × Outcome T) := do
  let notEmpty ← q.notEmpty.resume thread
  some ({ q with notEmpty := notEmpty }.popLocked thread)

def wakeUp (q : BlockingQueue T Thread) (thread : Thread) : Option (BlockingQueue T Thread) := do
  let notEmpty ← q.notEmpty.wakeUp thread
  some { q with notEmpty := notEmpty }

def cancel (q : BlockingQueue T Thread) : BlockingQueue T Thread :=
  { q with nonblock := true, notEmpty := q.notEmpty.notifyAll }

theorem push_spec {q r : BlockingQueue T Thread} {value : T} {choice : Option Thread}
    (pushed : q.push value choice = some r) :
    ∃ notEmpty, q.notEmpty.notifyOne choice = some notEmpty ∧
      r = { q with queue := q.queue ++ [value], notEmpty := notEmpty } := by
  obtain ⟨notEmpty, moved, rest⟩ := Option.bind_eq_some_iff.mp pushed
  exact ⟨notEmpty, moved, (Option.some.inj rest).symm⟩

theorem wakeUp_spec {q r : BlockingQueue T Thread} {thread : Thread} (woke : q.wakeUp thread = some r) :
    ∃ notEmpty, q.notEmpty.wakeUp thread = some notEmpty ∧ r = { q with notEmpty := notEmpty } := by
  obtain ⟨notEmpty, moved, rest⟩ := Option.bind_eq_some_iff.mp woke
  exact ⟨notEmpty, moved, (Option.some.inj rest).symm⟩

theorem resume_spec {q : BlockingQueue T Thread} {result : BlockingQueue T Thread × Outcome T} {thread : Thread}
    (resumed : q.resume thread = some result) :
    ∃ notEmpty, q.notEmpty.resume thread = some notEmpty ∧
      result = { q with notEmpty := notEmpty }.popLocked thread := by
  obtain ⟨notEmpty, moved, rest⟩ := Option.bind_eq_some_iff.mp resumed
  exact ⟨notEmpty, moved, (Option.some.inj rest).symm⟩

omit [DecidableEq Thread] in
theorem popLocked_cases (q : BlockingQueue T Thread) (thread : Thread) :
    (∃ value rest, q.queue = value :: rest ∧
        q.popLocked thread = ({ q with queue := rest }, .returns (some value))) ∨
      (q.queue = [] ∧ q.nonblock = true ∧ q.popLocked thread = (q, .returns none)) ∨
      (q.queue = [] ∧ q.nonblock = false ∧
        q.popLocked thread = ({ q with notEmpty := q.notEmpty.wait thread }, .waits)) := by
  cases content : q.queue with
  | cons value rest => exact .inl ⟨value, rest, rfl, by simp [popLocked, ready, content]⟩
  | nil =>
      cases mode : q.nonblock with
      | true => exact .inr (.inl ⟨rfl, rfl, by simp [popLocked, ready, content, mode]⟩)
      | false => exact .inr (.inr ⟨rfl, rfl, by simp [popLocked, ready, content, mode]⟩)

inductive Event (T Thread : Type) where
  | push (value : T) (choice : Option Thread)
  | pop (thread : Thread)
  | resume (thread : Thread)
  | wakeUp (thread : Thread)
  | cancel

def step (q : BlockingQueue T Thread) : Event T Thread → Option (BlockingQueue T Thread)
  | .push value choice => q.push value choice
  | .pop thread => (q.pop thread).map Prod.fst
  | .resume thread => (q.resume thread).map Prod.fst
  | .wakeUp thread => q.wakeUp thread
  | .cancel => some q.cancel

structure Awake (q : BlockingQueue T Thread) : Prop where
  accounted : Accounted q.notEmpty q.queue.length
  quiet : q.nonblock = true → q.notEmpty.waiting = []

omit [DecidableEq Thread] in
theorem create_awake (nonblock : Bool) : Awake (create nonblock : BlockingQueue T Thread) :=
  ⟨fun sleeping => absurd rfl sleeping, fun _ => rfl⟩

omit [DecidableEq Thread] in
theorem Awake.popLocked {q : BlockingQueue T Thread} {work : Nat} (accounted : Accounted q.notEmpty work)
    (enough : q.queue.length ≤ work + 1) (quiet : q.nonblock = true → q.notEmpty.waiting = []) (thread : Thread) :
    Awake (q.popLocked thread).1 := by
  obtain ⟨value, rest, content, result⟩ | ⟨content, mode, result⟩ | ⟨content, mode, result⟩ :=
    popLocked_cases q thread
  · rw [result]
    rw [content, List.length_cons] at enough
    exact ⟨accounted.fewer (Nat.le_of_succ_le_succ enough), quiet⟩
  · rw [result]
    refine ⟨?_, quiet⟩
    rw [content]
    exact accounted.fewer (Nat.zero_le _)
  · rw [result]
    refine ⟨?_, ?_⟩
    · simp only [content]
      exact .of_wait
    · intro nonblock
      rw [mode] at nonblock
      cases nonblock

theorem Awake.step {q r : BlockingQueue T Thread} {event : Event T Thread} (awake : Awake q)
    (taken : step q event = some r) : Awake r := by
  cases event with
  | push value choice =>
      obtain ⟨notEmpty, moved, rfl⟩ := push_spec taken
      refine ⟨?_, fun mode => notifyOne_quiet (awake.quiet mode) moved⟩
      rw [List.length_append]
      exact awake.accounted.of_notifyOne moved
  | pop thread =>
      obtain ⟨result, popped, rfl⟩ := Option.map_eq_some_iff.mp taken
      rw [BlockingQueue.pop] at popped
      split at popped
      · cases popped
      · obtain rfl := Option.some.inj popped
        exact Awake.popLocked awake.accounted (Nat.le_succ _) awake.quiet thread
  | resume thread =>
      obtain ⟨result, resumed, rfl⟩ := Option.map_eq_some_iff.mp taken
      obtain ⟨notEmpty, moved, rfl⟩ := resume_spec resumed
      apply Awake.popLocked (awake.accounted.of_resume moved)
      · simp only
        omega
      · intro mode
        have sleeping := awake.quiet mode
        rw [← resume_waiting moved] at sleeping
        exact sleeping
  | wakeUp thread =>
      obtain ⟨notEmpty, moved, rfl⟩ := wakeUp_spec taken
      exact ⟨awake.accounted.of_wakeUp moved, fun mode => wakeUp_quiet (awake.quiet mode) moved⟩
  | cancel =>
      obtain rfl := Option.some.inj taken
      exact ⟨.of_notifyAll, fun _ => rfl⟩

theorem run_awake {nonblock : Bool} {events : List (Event T Thread)} {q : BlockingQueue T Thread}
    (ran : run step (create nonblock) events = some q) : Awake q :=
  run_invariant Awake (fun _ _ _ awake taken => awake.step taken) (create_awake nonblock) ran

end BlockingQueue

end CppInfra.ThreadPool
