import CppInfra.ThreadPool.BlockingQueue
import CppInfra.ThreadPool.BlockingQueuePro

set_option autoImplicit false

namespace CppInfra.ThreadPool.BlockingQueuePro

open ConditionVariable Simulation Transition Words

variable {T Thread : Type} [DecidableEq Thread]

def view (q : BlockingQueuePro T Thread) : Fifo T Thread :=
  { nonblock := q.nonblock
    content := q.consQueue ++ q.prodQueue
    refused := fun thread => decide (q.phase thread = .swapped 0) }

structure Inv (q : BlockingQueuePro T Thread) : Prop where
  holder : ∀ thread, q.phase thread ≠ .outside → q.consMutex = some thread
  inside : ∀ thread ∈ q.notEmpty.inside, q.phase thread = .sleeping
  single : q.notEmpty.inside.length ≤ 1
  drained : ∀ thread, q.phase thread = .swapping ∨ q.phase thread = .sleeping → q.consQueue = []
  size : ∀ thread size, q.phase thread = .swapped size → size = toSigned 32 q.consQueue.length
  asleep : q.notEmpty.waiting ≠ [] → q.prodQueue = [] ∧ q.nonblock = false

omit [DecidableEq Thread] in
theorem create_inv (nonblock : Bool) : Inv (create nonblock : BlockingQueuePro T Thread) where
  holder thread inPop := absurd rfl inPop
  inside thread member := by simp [create, Condition.empty, Condition.inside] at member
  single := Nat.zero_le _
  drained thread _ := rfl
  size thread size swapped := by cases swapped
  asleep sleeping := absurd rfl sleeping

omit [DecidableEq Thread] in
theorem Inv.others {q : BlockingQueuePro T Thread} (inv : Inv q) {thread : Thread} (inPop : q.phase thread ≠ .outside)
    {other : Thread} (different : other ≠ thread) : q.phase other = .outside := by
  by_contra busy
  have mine := inv.holder thread inPop
  have theirs := inv.holder other busy
  rw [mine] at theirs
  exact different (Option.some.inj theirs).symm

theorem update_outside {phase : Thread → Phase} {thread : Thread} {mine : Phase}
    (others : ∀ other, other ≠ thread → phase other = .outside) {other : Thread} {at_ : Phase}
    (busy : at_ ≠ .outside) (here : Function.update phase thread mine other = at_) : other = thread ∧ mine = at_ := by
  by_cases same : other = thread
  · subst same
    rw [Function.update_self] at here
    exact ⟨rfl, here⟩
  · rw [Function.update_of_ne same, others other same] at here
    exact absurd here.symm busy

theorem refused_update (phase : Thread → Phase) (thread : Thread) (mine : Phase) :
    (fun other => decide (Function.update phase thread mine other = .swapped 0)) =
      Function.update (fun other => decide (phase other = .swapped 0)) thread (decide (mine = .swapped 0)) := by
  funext other
  by_cases same : other = thread
  · subst same
    simp
  · simp [same]

theorem refused_kept (phase : Thread → Phase) (thread : Thread) (mine : Phase) (before : phase thread ≠ .swapped 0)
    (after : mine ≠ .swapped 0) :
    (fun other => decide (Function.update phase thread mine other = .swapped 0)) =
      fun other => decide (phase other = .swapped 0) := by
  rw [refused_update, decide_eq_false after]
  apply Function.update_eq_self_iff.mpr
  exact (decide_eq_false before).symm

structure Locked (q : BlockingQueuePro T Thread) (thread : Thread) : Prop where
  mutex : q.consMutex = some thread
  phase : q.phase thread = .swapping ∨ q.phase thread = .sleeping
  others : ∀ other, other ≠ thread → q.phase other = .outside
  nobody : q.notEmpty.inside = []
  drained : q.consQueue = []

theorem Locked.swaps_inv {q : BlockingQueuePro T Thread} {thread : Thread} (locked : Locked q thread) :
    Inv (q.swapLocked thread).1 := by
  have nobody : q.notEmpty.waiting = [] := (List.append_eq_nil_iff.mp locked.nobody).1
  rw [swapLocked]
  split
  · exact
      { holder := fun other inPop => by
          obtain ⟨rfl, -⟩ := update_outside locked.others inPop rfl
          exact locked.mutex
        inside := fun other member => by
          rw [locked.nobody] at member
          cases member
        single := by simp [locked.nobody]
        drained := fun other at_ => by
          rcases at_ with at_ | at_
          · cases (update_outside locked.others (by simp) at_).2
          · cases (update_outside locked.others (by simp) at_).2
        size := fun other size at_ => by
          obtain ⟨-, same⟩ := update_outside locked.others (by simp) at_
          exact (Phase.swapped.inj same).symm
        asleep := fun sleeping => absurd nobody sleeping }
  · rename_i blocked
    have empty : q.prodQueue = [] ∧ q.nonblock = false := by
      simpa [BlockingQueuePro.ready] using blocked
    have inside : (q.notEmpty.wait thread).inside = [thread] := congrArg (thread :: ·) locked.nobody
    exact
      { holder := fun other inPop => by
          obtain ⟨rfl, -⟩ := update_outside locked.others inPop rfl
          exact locked.mutex
        inside := fun other member => by
          rw [inside, List.mem_singleton] at member
          subst member
          exact Function.update_self ..
        single := by simp [inside]
        drained := fun _ _ => locked.drained
        size := fun other size at_ => by cases (update_outside locked.others (by simp) at_).2
        asleep := fun _ => empty }

-- The `int` is 0 for a queue that is not empty when its size is a multiple of 2 ^ 32.
def Counts (l : List T) : Prop := l.length % 2 ^ 32 = 0 → l = []

instance countsDecidable (l : List T) : Decidable (Counts l) :=
  decidable_of_iff (l.length % 2 ^ 32 = 0 → l.isEmpty = true) (by simp [Counts])

theorem counts_iff {l : List T} : Counts l ↔ (toSigned 32 l.length = 0 → l = []) := by
  rw [Counts, toSigned_eq_zero]

theorem Locked.swaps_iff {q : BlockingQueuePro T Thread} {thread : Thread} (locked : Locked q thread)
    (a : Fifo T Thread) :
    (view q).Move (q.swapLocked thread).2 a ↔ Counts q.prodQueue ∧ a = view (q.swapLocked thread).1 := by
  have notRefused : q.phase thread ≠ .swapped 0 := by
    rcases locked.phase with at_ | at_ <;> simp [at_]
  have content : (view q).content = q.prodQueue := by rw [view, locked.drained, List.nil_append]
  rw [counts_iff, swapLocked]
  split
  · rename_i ready
    by_cases zero : toSigned 32 q.prodQueue.length = 0
    · rw [if_pos zero]
      by_cases nothing : q.prodQueue = []
      · have mode : q.nonblock = true := by simpa [BlockingQueuePro.ready, nothing] using ready
        rw [and_iff_right fun _ => nothing]
        apply Fifo.move_iff
        refine ⟨mode, content.trans nothing, ?_⟩
        simp [view, refused_update, locked.drained, nothing, toSigned_eq_zero]
      · refine iff_of_false ?_ ?_
        · rintro ⟨-, empty, -⟩
          exact nothing (content.symm.trans empty)
        · rintro ⟨counts, -⟩
          exact nothing (counts zero)
    · have kept := refused_kept q.phase thread (.swapped (toSigned 32 q.prodQueue.length)) notRefused
        (by simpa using zero)
      rw [if_neg zero, and_iff_right fun absent => absurd absent zero]
      simp only [Fifo.Move, view, kept, locked.drained, List.append_nil, List.nil_append]
  · rename_i blocked
    have empty : q.prodQueue = [] ∧ q.nonblock = false := by
      simpa [BlockingQueuePro.ready] using blocked
    have kept := refused_kept q.phase thread .sleeping notRefused (by simp)
    rw [and_iff_right fun _ => empty.1]
    simp only [Fifo.Move, view, kept]

omit [DecidableEq Thread] in
theorem Inv.nobody {q : BlockingQueuePro T Thread} (inv : Inv q) {thread : Thread} (inPop : q.phase thread ≠ .outside)
    (awake : q.phase thread ≠ .sleeping) : q.notEmpty.inside = [] := by
  apply List.eq_nil_iff_forall_not_mem.mpr
  intro other member
  have sleeping := inv.inside other member
  by_cases same : other = thread
  · subst same
    exact awake sleeping
  · rw [inv.others inPop same] at sleeping
    cases sleeping

omit [DecidableEq Thread] in
theorem Inv.shared {q : BlockingQueuePro T Thread} (inv : Inv q) {notEmpty : Condition Thread}
    (same : notEmpty.inside.Perm q.notEmpty.inside) (nonblock : Bool) (prodQueue : List T)
    (asleep : notEmpty.waiting ≠ [] → prodQueue = [] ∧ nonblock = false) :
    Inv { q with nonblock := nonblock, prodQueue := prodQueue, notEmpty := notEmpty } where
  holder := inv.holder
  inside := fun thread member => inv.inside thread (same.mem_iff.mp member)
  single := by rw [same.length_eq]; exact inv.single
  drained := inv.drained
  size := inv.size
  asleep := asleep

theorem Inv.released {q : BlockingQueuePro T Thread} (inv : Inv q) {thread : Thread} {size : Int}
    (at_ : q.phase thread = .swapped size) (consQueue : List T) :
    Inv { q with
      consQueue := consQueue
      consMutex := none
      phase := Function.update q.phase thread .outside } := by
  have inPop : q.phase thread ≠ .outside := by simp [at_]
  have nobody := inv.nobody inPop (by simp [at_])
  have outside : ∀ other, Function.update q.phase thread .outside other = .outside := by
    intro other
    by_contra busy
    obtain ⟨-, contradiction⟩ := update_outside (fun other different => inv.others inPop different) busy rfl
    exact busy contradiction.symm
  exact
    { holder := fun other busy => absurd (outside other) busy
      inside := fun other member => by
        rw [nobody] at member
        cases member
      single := by simp [nobody]
      drained := fun other busy => by simp [outside] at busy
      size := fun other size busy => by simp [outside] at busy
      asleep := fun sleeping => absurd (List.append_eq_nil_iff.mp nobody).1 sleeping }

omit [DecidableEq Thread] in
theorem Inv.waiting_single {q : BlockingQueuePro T Thread} (inv : Inv q) : q.notEmpty.waiting.length ≤ 1 := by
  have single := inv.single
  rw [Condition.inside, List.length_append] at single
  omega

theorem pop_simulates {q r : BlockingQueuePro T Thread} {thread : Thread} {label : Label T Thread} (inv : Inv q)
    (taken : step q (.pop thread) = some (r, label)) : Inv r ∧ (view q).Move label (view r) := by
  simp only [step] at taken
  split at taken
  · rename_i entered
    obtain ⟨free, here⟩ := entered
    have outside : ∀ other, q.phase other = .outside := by
      intro other
      by_contra busy
      have mutex := inv.holder other busy
      rw [free] at mutex
      cases mutex
    have nobody : q.notEmpty.inside = [] := by
      apply List.eq_nil_iff_forall_not_mem.mpr
      intro other member
      have sleeping := inv.inside other member
      rw [outside] at sleeping
      cases sleeping
    split at taken
    · rename_i content
      obtain ⟨rfl, rfl⟩ := Prod.mk.inj (Option.some.inj taken)
      have kept := refused_kept q.phase thread .swapping (by simp [here]) (by simp)
      refine ⟨?_, by simp only [Fifo.Move, view, kept]⟩
      exact
        { holder := fun other inPop => by
            obtain ⟨rfl, -⟩ := update_outside (fun other _ => outside other) inPop rfl
            rfl
          inside := fun other member => by
            rw [nobody] at member
            cases member
          single := inv.single
          drained := fun _ _ => content
          size := fun other size at_ => by
            cases (update_outside (fun other _ => outside other) (by simp) at_).2
          asleep := inv.asleep }
    · rename_i value rest content
      obtain ⟨rfl, rfl⟩ := Prod.mk.inj (Option.some.inj taken)
      refine ⟨?_, by simp [Fifo.Move, view, content]⟩
      exact
        { holder := inv.holder
          inside := inv.inside
          single := inv.single
          drained := fun other at_ => by simp [outside] at at_
          size := fun other size at_ => by simp [outside] at at_
          asleep := inv.asleep }
  · cases taken

theorem finish_simulates {q r : BlockingQueuePro T Thread} {thread : Thread} {label : Label T Thread} (inv : Inv q)
    (taken : step q (.finish thread) = some (r, label)) : Inv r ∧ (view q).Move label (view r) := by
  simp only [step] at taken
  split at taken
  · rename_i size at_
    split at taken
    · rename_i zero
      obtain rfl := zero
      obtain ⟨rfl, rfl⟩ := Prod.mk.inj (Option.some.inj taken)
      refine ⟨inv.released at_ q.consQueue, by simp [view, at_], ?_⟩
      simp [view, refused_update]
    · rename_i nonzero
      split at taken
      · cases taken
      · rename_i value rest content
        obtain ⟨rfl, rfl⟩ := Prod.mk.inj (Option.some.inj taken)
        have kept := refused_kept q.phase thread .outside (by simpa [at_] using nonzero) (by simp)
        refine ⟨inv.released at_ rest, by simp [view, content], rfl, kept⟩
  · cases taken

def Counted (q : BlockingQueuePro T Thread) : Event T Thread → Prop
  | .swap _ => Counts q.prodQueue
  | .resume _ => Counts q.prodQueue
  | _ => True

instance countedDecidable (q : BlockingQueuePro T Thread) (event : Event T Thread) : Decidable (Counted q event) :=
  match event with
  | .swap _ => inferInstanceAs (Decidable (Counts q.prodQueue))
  | .resume _ => inferInstanceAs (Decidable (Counts q.prodQueue))
  | .push _ _ => inferInstanceAs (Decidable True)
  | .pop _ => inferInstanceAs (Decidable True)
  | .wakeUp _ => inferInstanceAs (Decidable True)
  | .finish _ => inferInstanceAs (Decidable True)
  | .cancel => inferInstanceAs (Decidable True)

theorem step_exact {q r : BlockingQueuePro T Thread} {event : Event T Thread} {label : Label T Thread} (inv : Inv q)
    (taken : step q event = some (r, label)) :
    Inv r ∧ ∀ a, (view q).Move label a ↔ Counted q event ∧ a = view r := by
  have exact (moved : (view q).Move label (view r)) (counted : Counted q event) (a : Fifo T Thread) :
      (view q).Move label a ↔ Counted q event ∧ a = view r :=
    (Fifo.move_iff moved a).trans (and_iff_right counted).symm
  cases event with
  | push value choice =>
      obtain ⟨notEmpty, moved, rest⟩ := Option.bind_eq_some_iff.mp taken
      obtain ⟨rfl, rfl⟩ := Prod.mk.inj (Option.some.inj rest)
      have nobody := notifyOne_single inv.waiting_single moved
      refine ⟨inv.shared (notifyOne_inside moved) _ _ fun sleeping => absurd nobody sleeping, exact ?_ trivial⟩
      simp [Fifo.Move, view]
  | pop thread =>
      obtain ⟨kept, moved⟩ := pop_simulates inv taken
      exact ⟨kept, exact moved trivial⟩
  | swap thread =>
      simp only [step] at taken
      split at taken
      · rename_i at_
        have inPop : q.phase thread ≠ .outside := by simp [at_]
        have locked : Locked q thread :=
          { mutex := inv.holder thread inPop
            phase := .inl at_
            others := fun other different => inv.others inPop different
            nobody := inv.nobody inPop (by simp [at_])
            drained := inv.drained thread (.inl at_) }
        have kept := locked.swaps_inv
        have moves := locked.swaps_iff
        rw [Option.some.inj taken] at kept moves
        exact ⟨kept, moves⟩
      · cases taken
  | resume thread =>
      obtain ⟨notEmpty, moved, rest⟩ := Option.bind_eq_some_iff.mp taken
      have left := resume_inside moved
      have at_ := inv.inside thread (left.mem_iff.mpr (List.mem_cons_self ..))
      have inPop : q.phase thread ≠ .outside := by simp [at_]
      have single := inv.single
      rw [left.length_eq, List.length_cons] at single
      have locked : Locked { q with notEmpty := notEmpty } thread :=
        { mutex := inv.holder thread inPop
          phase := .inr at_
          others := fun other different => inv.others inPop different
          nobody := List.eq_nil_of_length_eq_zero (by simp only; omega)
          drained := inv.drained thread (.inr at_) }
      have kept := locked.swaps_inv
      have moves := locked.swaps_iff
      rw [Option.some.inj rest] at kept moves
      exact ⟨kept, moves⟩
  | wakeUp thread =>
      obtain ⟨notEmpty, moved, rest⟩ := Option.bind_eq_some_iff.mp taken
      obtain ⟨rfl, rfl⟩ := Prod.mk.inj (Option.some.inj rest)
      obtain ⟨member, -⟩ := wakeUp_cases moved
      have asleep := inv.asleep (List.ne_nil_of_mem member)
      exact ⟨inv.shared (wakeUp_inside moved) _ _ fun _ => asleep, exact rfl trivial⟩
  | finish thread =>
      obtain ⟨kept, moved⟩ := finish_simulates inv taken
      exact ⟨kept, exact moved trivial⟩
  | cancel =>
      obtain ⟨rfl, rfl⟩ := Prod.mk.inj (Option.some.inj taken)
      have same : q.notEmpty.notifyAll.inside.Perm q.notEmpty.inside := by rw [notifyAll_inside]
      exact ⟨inv.shared same _ _ fun sleeping => absurd rfl sleeping, exact rfl trivial⟩

theorem trace_exact {nonblock : Bool} {events : List (Event T Thread)} {q : BlockingQueuePro T Thread}
    {labels : List (Label T Thread)} (ran : trace step (create nonblock) events = some (q, labels)) :
    Inv q ∧
      (Moves Fifo.Move (Fifo.create nonblock) labels (view q) ↔
        Along (unlabelled step) Counted (create nonblock) events) :=
  trace_moves_iff Inv Counted view (fun _ _ _ _ inv taken => step_exact inv taken) (create_inv nonblock) ran

theorem Inv.finishes {q : BlockingQueuePro T Thread} (inv : Inv q) {thread : Thread} {size : Int}
    (at_ : q.phase thread = .swapped size) : (step q (.finish thread)).isSome := by
  have content := inv.size thread size at_
  by_cases zero : size = 0
  · simp [step, at_, zero]
  · cases shape : q.consQueue with
    | nil =>
        rw [shape] at content
        exact absurd content zero
    | cons value rest => simp [step, at_, zero, shape]

theorem blockingQueuePro_fifo (nonblock : Bool) (events : List (Event T Thread)) (q : BlockingQueuePro T Thread)
    (labels : List (Label T Thread)) (ran : trace step (create nonblock) events = some (q, labels)) :
    (Moves Fifo.Move (Fifo.create nonblock) labels (view q) ∧
      Fifo.pushes labels = Fifo.takes labels ++ (q.consQueue ++ q.prodQueue) ∧
      (∀ first thread rest, labels = first ++ .returnsFalse thread :: rest →
        ∃ early late, first = early ++ .findsNothing thread :: late ∧ .returnsFalse thread ∉ late ∧
          Fifo.takes early = Fifo.pushes early ∧ (nonblock = true ∨ .cancel ∈ early)) ∧
      (∀ thread size, q.phase thread = .swapped size → (step q (.finish thread)).isSome)) ↔
      Along (unlabelled step) Counted (create nonblock) events := by
  obtain ⟨inv, counted⟩ := trace_exact ran
  rw [← counted]
  refine ⟨And.left, fun moves => ⟨moves, ?_, ?_, fun thread size at_ => inv.finishes at_⟩⟩
  · have content := Fifo.moves_content moves
    exact content
  · intro first thread rest split
    rw [split] at moves
    exact Fifo.moves_returnsFalse moves

-- Thread 0 sleeps in `Pop`, wakes up by itself, sleeps again and is notified; two elements go over with one
-- swap. After `Cancel` the second is still delivered, and then thread 1 gives up.
def cancelled : List (Event Nat Nat) :=
  [.pop 0, .swap 0, .wakeUp 0, .resume 0, .push 7 (some 0), .push 8 none, .resume 0, .finish 0, .cancel,
    .pop 1, .pop 1, .swap 1, .finish 1]

def cancelledLabels : List (Label Nat Nat) :=
  [.internal, .internal, .internal, .internal, .push 7, .push 8, .internal, .takes 0 7, .cancel, .takes 1 8,
    .internal, .findsNothing 1, .returnsFalse 1]

theorem counted_cancelled : Along (unlabelled step) Counted (create false : BlockingQueuePro Nat Nat) cancelled := by
  decide

theorem blockingQueuePro_fifo_cancelled :
    ∃ q : BlockingQueuePro Nat Nat, trace step (create false) cancelled = some (q, cancelledLabels) ∧
      Moves Fifo.Move (Fifo.create false) cancelledLabels (view q) ∧
      Fifo.pushes cancelledLabels = [7, 8] ++ (q.consQueue ++ q.prodQueue) := by
  have possible : (trace step (create false) cancelled).map Prod.snd = some cancelledLabels := by decide
  obtain ⟨⟨q, labels⟩, ran, rfl⟩ := Option.map_eq_some_iff.mp possible
  obtain ⟨moves, content, -, -⟩ := (blockingQueuePro_fifo false cancelled q _ ran).mpr counted_cancelled
  exact ⟨q, ran, moves, content⟩

def counting (n : Nat) : List (Event Nat Nat) := List.replicate n (.push 7 none) ++ [.pop 0, .swap 0, .finish 0]

theorem trace_pushes {q : BlockingQueuePro T Thread} (nobody : q.notEmpty.waiting = []) (value : T) (n : Nat) :
    trace step q (List.replicate n (.push value none)) =
      some ({ q with prodQueue := q.prodQueue ++ List.replicate n value }, List.replicate n (.push value)) := by
  induction n generalizing q with
  | zero => simp [trace]
  | succ n ih =>
      have pushed : step q (.push value none) =
          some ({ q with prodQueue := q.prodQueue ++ [value] }, .push value) := by
        simp [step, Condition.notifyOne, nobody]
      have rest : trace step { q with prodQueue := q.prodQueue ++ [value] } (List.replicate n (.push value none)) =
          some ({ q with prodQueue := q.prodQueue ++ [value] ++ List.replicate n value },
            List.replicate n (.push value)) := ih nobody
      rw [List.replicate_succ, trace, pushed, Option.bind_some, rest, List.append_assoc]
      rfl

theorem counting_refused {n : Nat} (positive : 0 < n) (wraps : n % 2 ^ 32 = 0) :
    ∃ (q : BlockingQueuePro Nat Nat) (labels : List (Label Nat Nat)),
      trace step (create false) (counting n) = some (q, labels ++ [.returnsFalse 0]) ∧
      q.nonblock = false ∧ q.consQueue.length = n ∧
      ¬ Moves Fifo.Move (Fifo.create false) (labels ++ [.returnsFalse 0]) (view q) := by
  have pushed := trace_pushes (show (create false : BlockingQueuePro Nat Nat).notEmpty.waiting = [] from rfl) 7 n
  have zero : toSigned 32 n = 0 := toSigned_eq_zero.mpr wraps
  have filled : n ≠ 0 := Nat.ne_of_gt positive
  let last : BlockingQueuePro Nat Nat :=
    { (create false) with
      consQueue := List.replicate n 7
      phase := Function.update (Function.update (Function.update (fun _ => .outside) 0 .swapping) 0 (.swapped 0)) 0
        .outside }
  have ran : trace step (create false) (counting n) =
      some (last, List.replicate n (.push 7) ++ [.internal, .findsNothing 0] ++ [.returnsFalse 0]) := by
    rw [counting, trace_append pushed]
    simp [trace, step, create, swapLocked, BlockingQueuePro.ready, filled, zero, last]
  refine ⟨last, _, ran, rfl, List.length_replicate, ?_⟩
  intro moves
  obtain ⟨early, late, first, -, -, nonblock | cancelled⟩ := Fifo.moves_returnsFalse moves
  · cases nonblock
  · have member : Label.cancel ∈ List.replicate n (.push 7) ++ [Label.internal, .findsNothing 0] := by
      rw [first]
      exact List.mem_append_left _ cancelled
    simp [List.mem_replicate] at member

-- After 2 ^ 32 calls of `Push` the first `Pop` returns false, although nobody has called `Cancel`.
theorem blockingQueuePro_fifo_full :
    ∃ (q : BlockingQueuePro Nat Nat) (labels : List (Label Nat Nat)),
      trace step (create false) (counting (2 ^ 32)) = some (q, labels ++ [.returnsFalse 0]) ∧
      q.nonblock = false ∧ q.consQueue.length = 2 ^ 32 ∧
      ¬ Moves Fifo.Move (Fifo.create false) (labels ++ [.returnsFalse 0]) (view q) :=
  counting_refused (Nat.two_pow_pos 32) (Nat.mod_self _)

theorem blockingQueues_noLostWakeup (T Thread : Type) [DecidableEq Thread] :
    (∀ (nonblock : Bool) (events : List (BlockingQueue.Event T Thread)) (q : BlockingQueue T Thread),
        Transition.run BlockingQueue.step (.create nonblock) events = some q →
        q.notEmpty.waiting ≠ [] → q.queue ≠ [] ∨ q.nonblock = true → q.notEmpty.notified ≠ []) ∧
      ∀ (nonblock : Bool) (events : List (Event T Thread)) (q : BlockingQueuePro T Thread)
        (labels : List (Label T Thread)), trace step (create nonblock) events = some (q, labels) →
        (q.notEmpty.waiting ≠ [] → q.prodQueue ≠ [] ∨ q.nonblock = true → q.notEmpty.notified ≠ []) ∧
          q.notEmpty.waiting.length ≤ 1 := by
  constructor
  · intro nonblock events q ran sleeping work
    have awake := BlockingQueue.run_awake ran
    rcases work with elements | mode
    · have notified := awake.accounted sleeping
      have some := List.length_pos_iff.mpr elements
      exact List.length_pos_iff.mp (by omega)
    · exact absurd (awake.quiet mode) sleeping
  · intro nonblock events q labels ran
    obtain ⟨inv, -⟩ := trace_exact ran
    refine ⟨?_, inv.waiting_single⟩
    intro sleeping work
    obtain ⟨empty, blocking⟩ := inv.asleep sleeping
    rcases work with elements | mode
    · exact absurd empty elements
    · rw [blocking] at mode
      cases mode

-- Three consumers sleep, one is notified for the element and has not run: the others may sleep on.
theorem blockingQueues_noLostWakeup_notified :
    ∃ q : BlockingQueue Nat Nat, Transition.run BlockingQueue.step (.create false)
        [.pop 0, .pop 1, .pop 2, .wakeUp 2, .push 7 (some 1)] = some q ∧
      q.notEmpty.waiting = [0] ∧ q.queue = [7] ∧ q.notEmpty.notified ≠ [] := by
  refine ⟨_, rfl, rfl, rfl, ?_⟩
  exact (blockingQueues_noLostWakeup Nat Nat).1 false [.pop 0, .pop 1, .pop 2, .wakeUp 2, .push 7 (some 1)] _ rfl
    (by decide)
    (.inl (by decide))

end CppInfra.ThreadPool.BlockingQueuePro
