import CppInfra.FreeQueue.MPSCQueueIntrusiveSteps

set_option autoImplicit false

namespace CppInfra.FreeQueue.MPSCQueueIntrusive

open Transition PendingChain

variable {P : Type} [DecidableEq P] {dummyPtr : P} {s t : State P}

theorem Inv.accesses_queued (inv : Inv dummyPtr s) {event : Event P} {x : P} {k : Nat}
    (accessed : (x, k) ∈ accesses dummyPtr s event) (object : x ≠ dummyPtr) :
    s.moved ≤ k ∧ s.order[k]? = some x := by
  have ok := inv.consumer
  cases event with
  | enqueue p input => simp [accesses] at accessed
  | dequeue => simp [accesses] at accessed
  | producer p =>
      cases at_ : s.producers p <;> simp only [accesses, at_, List.not_mem_nil, List.mem_singleton,
        Prod.mk.injEq] at accessed
      obtain ⟨rfl, rfl⟩ := accessed
      rename_i input
      have ok : ProducerOk dummyPtr s (.exchanged input x k) := at_ ▸ inv.producers p
      exact ⟨(inv.chain.bounds k (.inl ⟨p, by rw [at_]; rfl⟩)).1, ok.2.1⟩
  | consumer =>
      cases at_ : s.consumer <;> simp only [accesses, at_, List.not_mem_nil, List.mem_singleton,
        Prod.mk.injEq] at accessed <;> obtain ⟨rfl, rfl⟩ := accessed <;> simp only [ConsumerOk, at_] at ok
      case loadedTail => exact ⟨Nat.le_refl _, ok ▸ inv.tail⟩
      case reload => exact ⟨Nat.le_refl _, ok.1 ▸ inv.tail⟩
      case reexamine => exact ⟨Nat.le_refl _, ok.1 ▸ inv.tail⟩
      case dummyClear => exact absurd rfl object
      case dummyLink tail => exact ⟨(inv.chain.bounds k (.inr (by rw [at_]; rfl))).1, ok.2.2.1⟩

theorem Inv.atLast (inv : Inv dummyPtr s) (quiet : ∀ p, s.producers p = .idle)
    (idle : s.consumer.stores = none) (missing : s.link s.tail = none) :
    s.moved + 1 = s.order.length := by
  apply inv.chain.atEnd (Nat.le_refl _) inv.tail missing
  rintro (⟨p, there⟩ | there)
  · rw [quiet p] at there
    cases there
  · rw [idle] at there
    cases there

theorem Inv.drained (inv : Inv dummyPtr s) (last : s.moved + 1 = s.order.length)
    (isDummy : s.tail = dummyPtr) : s.returned = s.enqueued dummyPtr := by
  have whole : s.order = s.order.take s.moved ++ [dummyPtr] := by
    rw [← isDummy]
    calc s.order = s.order.take (s.moved + 1) := by rw [last, List.take_length]
      _ = s.order.take s.moved ++ [s.tail] := by rw [List.take_add_one, inv.tail]; rfl
  rw [State.enqueued, whole, List.filter_append, ← inv.returned]
  simp

structure Quiet (dummyPtr : P) (s : State P) : Prop where
  inv : Inv dummyPtr s
  producers : ∀ p, s.producers p = .idle
  checkHead : ∀ tail, s.consumer = .checkHead tail → s.link tail = none

theorem Quiet.consumerStep (quiet : Quiet dummyPtr s) (taken : consumerStep dummyPtr s = some t) :
    Quiet dummyPtr t ∧ (t.consumer ≠ .idle → t.returned = s.returned) ∧
      (t.consumer = .idle → t.returned = s.returned → t.returned = t.enqueued dummyPtr) := by
  have inv := quiet.inv
  have ok := inv.consumer
  have invT := consumer_inv inv taken
  unfold MPSCQueueIntrusive.consumerStep at taken
  cases at_ : s.consumer with
  | idle => simp [at_] at taken
  | skipDummy _ | found _ _ | dummyClear _ | dummyExchange _ | dummyLink _ _ _ =>
      simp only [at_] at taken
      obtain rfl := Option.some.inj taken
      exact ⟨⟨invT, quiet.producers, by simp⟩, by simp, by simp⟩
  | loadedTail tail =>
      simp only [ConsumerOk, at_] at ok
      subst ok
      by_cases isDummy : s.tail = dummyPtr
      · cases link : s.link s.tail <;> simp only [at_, if_pos isDummy, link] at taken <;>
          obtain rfl := Option.some.inj taken
        · have last := inv.atLast quiet.producers (by rw [at_]; rfl) link
          exact ⟨⟨invT, quiet.producers, by simp⟩, by simp, fun _ _ => inv.drained last isDummy⟩
        · exact ⟨⟨invT, quiet.producers, by simp⟩, by simp, by simp⟩
      · cases link : s.link s.tail <;> simp only [at_, if_neg isDummy, link] at taken <;>
          obtain rfl := Option.some.inj taken <;>
          exact ⟨⟨invT, quiet.producers, by simp [link]⟩, by simp, by simp⟩
  | reload tail =>
      cases link : s.link tail <;> simp only [at_, link] at taken <;>
        obtain rfl := Option.some.inj taken <;>
        exact ⟨⟨invT, quiet.producers, by simp [link]⟩, by simp, by simp⟩
  | checkHead tail =>
      simp only [ConsumerOk, at_] at ok
      obtain ⟨rfl, _⟩ := ok
      have last := inv.atLast quiet.producers (by rw [at_]; rfl) (quiet.checkHead _ at_)
      have place : s.order.length - 1 = s.moved := by omega
      have same : s.tail = s.head := by
        have head := inv.head
        rw [place, inv.tail] at head
        exact Option.some.inj head
      simp only [at_, same, ne_eq, not_true_eq_false, if_false] at taken
      obtain rfl := Option.some.inj taken
      exact ⟨⟨invT, quiet.producers, by simp⟩, by simp, by simp⟩
  | reexamine tail =>
      simp only [ConsumerOk, at_] at ok
      obtain ⟨rfl, object, i, low, atDummy⟩ := ok
      cases link : s.link s.tail <;> simp only [at_, link] at taken <;>
        obtain rfl := Option.some.inj taken
      · -- the dummy stands behind the tail
        have last := inv.atLast quiet.producers (by rw [at_]; rfl) link
        have bound := (List.getElem?_eq_some_iff.mp atDummy).1
        obtain rfl : i = s.moved := by omega
        exact absurd (Option.some.inj (inv.tail.symm.trans atDummy)) object
      · exact ⟨⟨invT, quiet.producers, by simp⟩, by simp, by simp⟩

theorem Quiet.call (quiet : Quiet dummyPtr s) (busy : s.consumer ≠ .idle) {n : Nat}
    (ran : run (step dummyPtr) s (List.replicate n .consumer) = some t) (ended : t.consumer = .idle)
    (failed : t.returned = s.returned) : t.returned = t.enqueued dummyPtr := by
  induction n generalizing s with
  | zero =>
      obtain rfl := Option.some.inj ran
      exact absurd ended busy
  | succ n ih =>
      obtain ⟨u, taken, rest⟩ := run_cons.mp ran
      obtain ⟨quietU, same, exits⟩ := quiet.consumerStep taken
      by_cases more : u.consumer = .idle
      · -- no further step of the consumer is possible after the return
        cases n with
        | zero =>
            obtain rfl := Option.some.inj rest
            exact exits more failed
        | succ n =>
            obtain ⟨_, impossible, _⟩ := run_cons.mp rest
            simp [step, MPSCQueueIntrusive.consumerStep, more] at impossible
      · exact ih quietU more rest (failed.trans (same more).symm)

theorem mpscQueueIntrusive_fifo (dummyPtr : P) (events : List (Event P)) (s : State P)
    (ran : run (step dummyPtr) (.initial dummyPtr) events = some s) :
    s.returned <+: s.enqueued dummyPtr ∧
      dummyPtr ∉ s.returned ∧
      (s.order.drop s.moved).count dummyPtr ≤ 1 ∧
      s.returned = (s.order.take s.moved).filter (· ≠ dummyPtr) ∧
      (∀ event x k, (x, k) ∈ accesses dummyPtr s event → x ≠ dummyPtr →
        s.moved ≤ k ∧ s.order[k]? = some x) ∧
      (∀ n t, s.consumer = .idle → (∀ p, s.producers p = .idle) →
        run (step dummyPtr) s (.dequeue :: List.replicate n .consumer) = some t → t.consumer = .idle →
        t.returned = s.returned → t.returned = t.enqueued dummyPtr) := by
  have inv := run_inv ran
  refine ⟨?_, ?_, ?_, inv.returned, fun _ _ _ accessed => inv.accesses_queued accessed, ?_⟩
  · rw [inv.returned]
    exact (List.take_prefix _ _).filter _
  · rw [inv.returned]
    simp
  · exact List.nodup_iff_count_le_one.mp inv.chain.nodup dummyPtr
  · intro n t idle producers call ended failed
    obtain ⟨u, taken, rest⟩ := run_cons.mp call
    have invU := dequeue_inv inv taken
    simp only [step, idle, if_true] at taken
    obtain rfl := Option.some.inj taken
    exact Quiet.call ⟨invU, producers, by simp⟩ (by simp) rest ended failed

-- Object 6 slips in before the exchange of the dummy, and its link is missing when the consumer looks
-- again: that call fails, the next one returns 5.
def slippedIn : List (Event Nat) :=
  [.enqueue 1 5, .producer 1, .producer 1, .dequeue, .consumer, .consumer, .consumer, .consumer,
    .enqueue 2 6, .producer 2, .consumer, .consumer, .consumer, .consumer, .producer 2, .dequeue,
    .consumer, .consumer]

theorem mpscQueueIntrusive_fifo_slippedIn :
    ∃ s : State Nat, run (step 0) (.initial 0) slippedIn = some s ∧ s.returned = [5] ∧
      s.order = [0, 5, 6, 0] ∧ s.returned <+: s.enqueued 0 ∧ (s.order.drop s.moved).count 0 ≤ 1 := by
  have results : (run (step 0) (.initial 0) slippedIn).map (fun s => (s.returned, s.order)) =
      some ([5], [0, 5, 6, 0]) := by
    decide
  obtain ⟨s, ran, pair⟩ := Option.map_eq_some_iff.mp results
  obtain ⟨order, -, single, -⟩ := mpscQueueIntrusive_fifo 0 slippedIn s ran
  obtain ⟨returned, exchanges⟩ : s.returned = [5] ∧ s.order = [0, 5, 6, 0] := by simpa using pair
  exact ⟨s, ran, returned, exchanges, order, single⟩

end CppInfra.FreeQueue.MPSCQueueIntrusive
