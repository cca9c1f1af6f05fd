import CppInfra.FreeQueue.MPSCQueueIntrusive

set_option autoImplicit false

namespace CppInfra.FreeQueue.MPSCQueueIntrusive

open Transition PendingChain

variable {P : Type} [DecidableEq P] {dummyPtr : P} {s t : State P}

theorem enqueue_inv {p : Nat} {input : P} (inv : Inv dummyPtr s)
    (taken : step dummyPtr s (.enqueue p input) = some t) : Inv dummyPtr t := by
  simp only [step, Option.ite_none_right_eq_some, Option.some.injEq] at taken
  obtain ⟨⟨at_, object, free⟩, rfl⟩ := taken
  have outside : ¬ Queued s.order s.moved input := by
    intro queued
    rw [inv.busy input queued object] at free
    cases free
  have tailApart : s.tail ≠ input := fun same => outside ⟨s.moved, Nat.le_refl _, same ▸ inv.tail⟩
  exact
    { chain := (inv.chain.write outside none).congr fun i => by
        unfold State.Pending
        rw [pending_update, pending_others (i := p) (by rw [at_]; rfl)]
        simp only [Producer.stores, reduceCtorEq, false_or]
      head := inv.head
      tail := inv.tail
      returned := inv.returned
      busy := by
        intro other queued otherObject
        have differs : other ≠ input := by
          rintro rfl
          exact outside queued
        dsimp only
        rw [Function.update_of_ne differs]
        exact inv.busy other queued otherObject
      producers := by
        intro q
        by_cases same : q = p
        · subst same
          simp [ProducerOk, object, outside]
        · simp only [Function.update_of_ne same]
          refine (inv.producers q).frame (fun _ _ here => here) ?_
          intro other _ _ busy apart empty
          have differs : other ≠ input := by
            rintro rfl
            rw [busy] at free
            cases free
          simp only [Function.update_of_ne differs]
          exact ⟨busy, apart, empty⟩
      owners := owners_update inv.owners fun q other _ isNew isOld => by
        obtain rfl : input = other := Option.some.inj isNew
        rw [(inv.own_busy isOld).2] at free
        cases free
      consumer := by
        refine inv.consumer.frame rfl rfl rfl (fun _ _ here => here) (fun queued => queued) ?_ ?_
        · intro x link
          dsimp only
          rwa [Function.update_of_ne tailApart]
        · intro _ empty
          dsimp only
          rwa [Function.update_of_ne object.symm] }

theorem exchange_inv {p : Nat} {input : P} (inv : Inv dummyPtr s) (at_ : s.producers p = .cleared input)
    (taken : step dummyPtr s (.producer p) = some t) : Inv dummyPtr t := by
  simp only [step, at_] at taken
  obtain rfl := Option.some.inj taken
  obtain ⟨object, busy, outside, empty⟩ : ProducerOk dummyPtr s (.cleared input) := at_ ▸ inv.producers p
  have inside := inv.chain.inside
  have queuedCases (x : P) (queued : Queued (s.order ++ [input]) s.moved x) :
      Queued s.order s.moved x ∨ x = input := by
    obtain ⟨i, low, here⟩ := queued
    rcases concat_cases here with ⟨_, old⟩ | ⟨_, same⟩
    · exact .inl ⟨i, low, old⟩
    · exact .inr same.symm
  exact
    { chain := (inv.chain.exchange outside empty).congr fun i => by
        have last : i + 1 = s.order.length ↔ s.order.length - 1 = i := by omega
        unfold State.Pending
        rw [pending_update, pending_others (i := p) (by rw [at_]; rfl), last, or_right_comm]
        simp only [Producer.stores, Option.some.injEq]
        exact or_congr_left or_comm
      head := by simp
      tail := concat_get input inv.tail
      returned := by
        dsimp only
        rw [List.take_append_of_le_length (by omega)]
        exact inv.returned
      busy := by
        intro other queued otherObject
        rcases queuedCases other queued with old | rfl
        · exact inv.busy other old otherObject
        · exact busy
      producers := by
        intro q
        by_cases same : q = p
        · subst same
          simp only [Function.update_self, ProducerOk]
          refine ⟨object, concat_get input inv.head, ?_⟩
          rw [Nat.sub_add_cancel (by omega)]
          simp
        · simp only [Function.update_of_ne same]
          refine (inv.producers q).frame (fun _ _ here => concat_get input here) ?_
          intro other there _ otherBusy apart otherEmpty
          refine ⟨otherBusy, fun queued => ?_, otherEmpty⟩
          rcases queuedCases other queued with old | rfl
          · exact apart old
          · exact same (inv.owners q p other (by rw [there]; rfl) (by rw [at_]; rfl))
      owners := owners_update inv.owners fun q other differs isMine isTheirs =>
        differs (inv.owners q p other isTheirs (by rw [at_]; exact isMine))
      consumer := by
        refine inv.consumer.frame rfl rfl rfl (fun _ _ here => concat_get input here) ?_
          (fun _ link => link) (fun _ empty => empty)
        intro queued
        rcases queuedCases dummyPtr queued with old | same
        · exact old
        · exact absurd same.symm object }

theorem link_inv {p : Nat} {input prevHead : P} {position : Nat} (inv : Inv dummyPtr s)
    (at_ : s.producers p = .exchanged input prevHead position)
    (taken : step dummyPtr s (.producer p) = some t) : Inv dummyPtr t := by
  simp only [step, at_] at taken
  obtain rfl := Option.some.inj taken
  obtain ⟨object, atPrev, atInput⟩ : ProducerOk dummyPtr s (.exchanged input prevHead position) :=
    at_ ▸ inv.producers p
  have storing : (s.producers p).stores = some position := by rw [at_]; rfl
  have waiting : s.Pending position := .inl ⟨p, storing⟩
  have low := (inv.chain.bounds position waiting).1
  have queued : Queued s.order s.moved prevHead := ⟨position, low, atPrev⟩
  have missing := inv.chain.missing position prevHead low atPrev (.inl waiting)
  -- nobody else is about to store the same link, neither another producer nor the consumer
  have alone (q : Nat) (differs : q ≠ p) : (s.producers q).stores ≠ some position := by
    intro also
    obtain ⟨input', prevHead', there⟩ := Producer.stores_some also
    have ok : ProducerOk dummyPtr s (.exchanged input' prevHead' position) := there ▸ inv.producers q
    obtain rfl : input' = input := Option.some.inj (ok.2.2.symm.trans atInput)
    exact differs (inv.owners q p input' (by rw [there]; rfl) (by rw [at_]; rfl))
  have notDummy : s.consumer.stores ≠ some position := by
    intro also
    have ok := inv.consumer
    cases there : s.consumer <;> simp only [there, Consumer.stores, reduceCtorEq, Option.some.injEq] at also
    subst also
    simp only [ConsumerOk, there] at ok
    exact object (Option.some.inj (atInput.symm.trans ok.2.2.2))
  exact
    { chain := (inv.chain.link waiting atPrev atInput).congr fun i => by
        unfold State.Pending
        rw [pending_update]
        simp only [Producer.stores, reduceCtorEq, false_or]
        constructor
        · rintro ⟨⟨q, there⟩ | there, elsewhere⟩
          · refine .inl ⟨q, ?_, there⟩
            rintro rfl
            exact elsewhere (Option.some.inj (there.symm.trans storing))
          · exact .inr there
        · rintro (⟨q, differs, there⟩ | there)
          · exact ⟨.inl ⟨q, there⟩, fun same => alone q differs (same ▸ there)⟩
          · exact ⟨.inr there, fun same => notDummy (same ▸ there)⟩
      head := inv.head
      tail := inv.tail
      returned := inv.returned
      busy := inv.busy
      producers := by
        intro q
        by_cases same : q = p
        · subst same
          simp only [Function.update_self, ProducerOk]
        · simp only [Function.update_of_ne same]
          refine (inv.producers q).frame (fun _ _ here => here) ?_
          intro other _ _ busy apart empty
          have differs : other ≠ prevHead := by
            rintro rfl
            exact apart queued
          refine ⟨busy, apart, ?_⟩
          dsimp only
          rwa [Function.update_of_ne differs]
      owners := owners_update inv.owners fun q other _ isMine => by
        simp [Producer.own] at isMine
      consumer := by
        refine inv.consumer.frame rfl rfl rfl (fun _ _ here => here) (fun queued => queued) ?_ ?_
        · intro x link
          have differs : s.tail ≠ prevHead := by
            intro same
            rw [same, missing] at link
            cases link
          dsimp only
          rwa [Function.update_of_ne differs]
        · intro outside empty
          have differs : dummyPtr ≠ prevHead := by
            rintro rfl
            exact outside queued
          dsimp only
          rwa [Function.update_of_ne differs] }

theorem Inv.setConsumer (inv : Inv dummyPtr s) {pc : Consumer P}
    (linking : s.consumer.stores = pc.stores)
    (ok : ConsumerOk dummyPtr { s with consumer := pc }) : Inv dummyPtr { s with consumer := pc } :=
  { inv with
    chain := inv.chain.congr fun i => by simp only [State.Pending, linking]
    producers := inv.producers
    consumer := ok }

theorem dequeue_inv (inv : Inv dummyPtr s) (taken : step dummyPtr s .dequeue = some t) :
    Inv dummyPtr t := by
  simp only [step, Option.ite_none_right_eq_some, Option.some.injEq] at taken
  obtain ⟨at_, rfl⟩ := taken
  exact inv.setConsumer (by rw [at_]; rfl) rfl

theorem Inv.advance (inv : Inv dummyPtr s) {next : P} (link : s.link s.tail = some next) :
    Chain s.link s.order (s.moved + 1) s.Pending ∧ s.order[s.moved + 1]? = some next ∧
      next ≠ s.tail ∧ ¬ Queued s.order (s.moved + 1) s.tail := by
  have follow := (inv.chain.follow (Nat.le_refl _) inv.tail link).1
  refine ⟨inv.chain.advance inv.tail link, follow, ?_, ?_⟩
  · rintro rfl
    have := inv.chain.distinct _ _ _ (Nat.le_refl _) (Nat.le_succ _) inv.tail follow
    omega
  · rintro ⟨i, low, at_⟩
    have := inv.chain.distinct _ _ _ (Nat.le_refl _) (by omega) inv.tail at_
    omega

theorem skipDummy_inv {next : P} (inv : Inv dummyPtr s) (at_ : s.consumer = .skipDummy next)
    (taken : consumerStep dummyPtr s = some t) : Inv dummyPtr t := by
  simp only [consumerStep, at_] at taken
  obtain rfl := Option.some.inj taken
  have ok := inv.consumer
  simp only [ConsumerOk, at_] at ok
  obtain ⟨isDummy, link⟩ := ok
  obtain ⟨chain, atNext, differs, _⟩ := inv.advance link
  exact
    { chain := chain.congr fun i => by simp [State.Pending, at_, Consumer.stores]
      head := inv.head
      tail := atNext
      returned := by
        dsimp only
        rw [List.take_add_one, List.filter_append, ← inv.returned, inv.tail, isDummy]
        simp
      busy := fun input queued => inv.busy input queued.before
      producers := fun p => (inv.producers p).frame (fun _ _ here => here)
        fun _ _ _ busy outside empty => ⟨busy, fun queued => outside queued.before, empty⟩
      owners := inv.owners
      consumer := ⟨rfl, isDummy ▸ differs⟩ }

theorem found_inv {tail next : P} (inv : Inv dummyPtr s) (at_ : s.consumer = .found tail next)
    (taken : consumerStep dummyPtr s = some t) : Inv dummyPtr t := by
  simp only [consumerStep, at_] at taken
  obtain rfl := Option.some.inj taken
  have ok := inv.consumer
  simp only [ConsumerOk, at_] at ok
  obtain ⟨rfl, object, link⟩ := ok
  obtain ⟨chain, atNext, _, gone⟩ := inv.advance link
  exact
    { chain := chain.congr fun i => by simp [State.Pending, at_, Consumer.stores]
      head := inv.head
      tail := atNext
      returned := by
        dsimp only
        rw [List.take_add_one, List.filter_append, ← inv.returned, inv.tail]
        simp [object]
      busy := by
        intro input queued isObject
        have differs : input ≠ s.tail := by
          rintro rfl
          exact gone queued
        dsimp only
        rw [Function.update_of_ne differs]
        exact inv.busy input queued.before isObject
      producers := by
        intro p
        refine (inv.producers p).frame (fun _ _ here => here) ?_
        intro input _ _ busy outside empty
        have differs : input ≠ s.tail := by
          rintro rfl
          exact outside ⟨s.moved, Nat.le_refl _, inv.tail⟩
        refine ⟨?_, fun queued => outside queued.before, empty⟩
        dsimp only
        rwa [Function.update_of_ne differs]
      owners := inv.owners
      consumer := trivial }

theorem dummyClear_inv {tail : P} (inv : Inv dummyPtr s) (at_ : s.consumer = .dummyClear tail)
    (taken : consumerStep dummyPtr s = some t) : Inv dummyPtr t := by
  simp only [consumerStep, at_] at taken
  obtain rfl := Option.some.inj taken
  have ok := inv.consumer
  simp only [ConsumerOk, at_] at ok
  obtain ⟨rfl, object, outside⟩ := ok
  exact
    { chain := (inv.chain.write outside none).congr fun i => by simp [State.Pending, at_, Consumer.stores]
      head := inv.head
      tail := inv.tail
      returned := inv.returned
      busy := inv.busy
      producers := by
        intro p
        refine (inv.producers p).frame (fun _ _ here => here) ?_
        intro input _ isObject busy apart empty
        refine ⟨busy, apart, ?_⟩
        dsimp only
        rwa [Function.update_of_ne isObject]
      owners := inv.owners
      consumer := ⟨rfl, object, outside, Function.update_self ..⟩ }

theorem dummyExchange_inv {tail : P} (inv : Inv dummyPtr s) (at_ : s.consumer = .dummyExchange tail)
    (taken : consumerStep dummyPtr s = some t) : Inv dummyPtr t := by
  simp only [consumerStep, at_] at taken
  obtain rfl := Option.some.inj taken
  have ok := inv.consumer
  simp only [ConsumerOk, at_] at ok
  obtain ⟨rfl, object, outside, empty⟩ := ok
  have inside := inv.chain.inside
  have objects (x : P) (queued : Queued (s.order ++ [dummyPtr]) s.moved x) (isObject : x ≠ dummyPtr) :
      Queued s.order s.moved x := by
    obtain ⟨i, low, here⟩ := queued
    rcases concat_cases here with ⟨_, old⟩ | ⟨_, same⟩
    · exact ⟨i, low, old⟩
    · exact absurd same.symm isObject
  exact
    { chain := (inv.chain.exchange outside empty).congr fun i => by
        have last : i + 1 = s.order.length ↔ s.order.length - 1 = i := by omega
        simp [State.Pending, at_, last, Consumer.stores]
      head := by simp
      tail := concat_get dummyPtr inv.tail
      returned := by
        dsimp only
        rw [List.take_append_of_le_length (by omega)]
        exact inv.returned
      busy := fun input queued isObject => inv.busy input (objects input queued isObject) isObject
      producers := by
        intro p
        refine (inv.producers p).frame (fun _ _ here => concat_get dummyPtr here) ?_
        intro input _ isObject busy apart otherEmpty
        exact ⟨busy, fun queued => apart (objects input queued isObject), otherEmpty⟩
      owners := inv.owners
      consumer := by
        refine ⟨rfl, object, concat_get dummyPtr inv.head, ?_⟩
        rw [Nat.sub_add_cancel (by omega)]
        simp }

theorem dummyLink_inv {tail prevHead : P} {position : Nat} (inv : Inv dummyPtr s)
    (at_ : s.consumer = .dummyLink tail prevHead position)
    (taken : consumerStep dummyPtr s = some t) : Inv dummyPtr t := by
  simp only [consumerStep, at_] at taken
  obtain rfl := Option.some.inj taken
  have ok := inv.consumer
  simp only [ConsumerOk, at_] at ok
  obtain ⟨rfl, object, atPrev, atDummy⟩ := ok
  have waiting : s.Pending position := .inr (by rw [at_]; rfl)
  have low := (inv.chain.bounds position waiting).1
  -- a producer about to store the same link would be linking the dummy
  have alone (p : Nat) : (s.producers p).stores ≠ some position := by
    intro also
    obtain ⟨input, prevHead', there⟩ := Producer.stores_some also
    have ok : ProducerOk dummyPtr s (.exchanged input prevHead' position) := there ▸ inv.producers p
    exact ok.1 (Option.some.inj (ok.2.2.symm.trans atDummy))
  exact
    { chain := (inv.chain.link waiting atPrev atDummy).congr fun i => by
        simp only [State.Pending, at_, Consumer.stores, reduceCtorEq, or_false, Option.some.injEq]
        constructor
        · rintro ⟨there | rfl, elsewhere⟩
          · exact there
          · exact absurd rfl elsewhere
        · rintro ⟨p, there⟩
          exact ⟨.inl ⟨p, there⟩, fun same => alone p (same ▸ there)⟩
      head := inv.head
      tail := inv.tail
      returned := inv.returned
      busy := inv.busy
      producers := by
        intro p
        refine (inv.producers p).frame (fun _ _ here => here) ?_
        intro input _ _ busy apart empty
        have differs : input ≠ prevHead := by
          rintro rfl
          exact apart ⟨position, low, atPrev⟩
        refine ⟨busy, apart, ?_⟩
        dsimp only
        rwa [Function.update_of_ne differs]
      owners := inv.owners
      consumer := ⟨rfl, object, position + 1, Nat.le_succ_of_le low, atDummy⟩ }

theorem checkHead_inv {tail : P} (inv : Inv dummyPtr s) (at_ : s.consumer = .checkHead tail)
    (taken : consumerStep dummyPtr s = some t) : Inv dummyPtr t := by
  have ok := inv.consumer
  simp only [ConsumerOk, at_] at ok
  obtain ⟨rfl, object⟩ := ok
  by_cases last : s.tail ≠ s.head
  · simp only [consumerStep, at_, if_pos last] at taken
    obtain rfl := Option.some.inj taken
    exact inv.setConsumer (by rw [at_]; rfl) trivial
  · simp only [consumerStep, at_, if_neg last] at taken
    obtain rfl := Option.some.inj taken
    have inside := inv.chain.inside
    have atHead : s.order[s.order.length - 1]? = some s.tail := by
      rw [inv.head, not_not.mp last]
    have single := inv.chain.distinct _ _ _ (Nat.le_refl _) (by omega) inv.tail atHead
    have outside : ¬ Queued s.order s.moved dummyPtr := by
      rintro ⟨i, low, atDummy⟩
      have bound := (List.getElem?_eq_some_iff.mp atDummy).1
      obtain rfl : i = s.moved := by omega
      exact object (Option.some.inj (inv.tail.symm.trans atDummy))
    exact inv.setConsumer (by rw [at_]; rfl) ⟨rfl, object, outside⟩

theorem consumer_inv (inv : Inv dummyPtr s) (taken : consumerStep dummyPtr s = some t) : Inv dummyPtr t := by
  have ok := inv.consumer
  cases at_ : s.consumer with
  | idle => simp [consumerStep, at_] at taken
  | skipDummy next => exact skipDummy_inv inv at_ taken
  | found tail next => exact found_inv inv at_ taken
  | checkHead tail => exact checkHead_inv inv at_ taken
  | dummyClear tail => exact dummyClear_inv inv at_ taken
  | dummyExchange tail => exact dummyExchange_inv inv at_ taken
  | dummyLink tail prevHead position => exact dummyLink_inv inv at_ taken
  | loadedTail tail =>
      simp only [ConsumerOk, at_] at ok
      subst ok
      by_cases isDummy : s.tail = dummyPtr
      · cases link : s.link s.tail <;> simp only [consumerStep, at_, if_pos isDummy, link] at taken <;>
          obtain rfl := Option.some.inj taken <;> apply inv.setConsumer (by rw [at_]; rfl)
        · trivial
        · exact ⟨isDummy, link⟩
      · cases link : s.link s.tail <;> simp only [consumerStep, at_, if_neg isDummy, link] at taken <;>
          obtain rfl := Option.some.inj taken <;> apply inv.setConsumer (by rw [at_]; rfl)
        · exact ⟨rfl, isDummy⟩
        · exact ⟨rfl, isDummy, link⟩
  | reload tail =>
      simp only [ConsumerOk, at_] at ok
      obtain ⟨rfl, object⟩ := ok
      cases link : s.link s.tail <;> simp only [consumerStep, at_, link] at taken <;>
        obtain rfl := Option.some.inj taken <;> apply inv.setConsumer (by rw [at_]; rfl)
      · exact ⟨rfl, object⟩
      · exact ⟨rfl, object, link⟩
  | reexamine tail =>
      simp only [ConsumerOk, at_] at ok
      obtain ⟨rfl, object, _⟩ := ok
      cases link : s.link s.tail <;> simp only [consumerStep, at_, link] at taken <;>
        obtain rfl := Option.some.inj taken <;> apply inv.setConsumer (by rw [at_]; rfl)
      · trivial
      · exact ⟨rfl, object, link⟩

theorem step_inv {event : Event P} (inv : Inv dummyPtr s) (taken : step dummyPtr s event = some t) :
    Inv dummyPtr t := by
  cases event with
  | enqueue p input => exact enqueue_inv inv taken
  | producer p =>
      cases at_ : s.producers p with
      | idle => simp [step, at_] at taken
      | cleared input => exact exchange_inv inv at_ taken
      | exchanged input prevHead position => exact link_inv inv at_ taken
  | dequeue => exact dequeue_inv inv taken
  | consumer => exact consumer_inv inv taken

theorem run_inv {events : List (Event P)} (ran : run (step dummyPtr) (.initial dummyPtr) events = some s) :
    Inv dummyPtr s :=
  run_invariant (Inv dummyPtr) (fun _ _ _ inv taken => step_inv inv taken) initial_inv ran

end CppInfra.FreeQueue.MPSCQueueIntrusive
