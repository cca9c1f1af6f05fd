import CppInfra.FreeQueue.MPSCQueueNonIntrusive

set_option autoImplicit false

namespace CppInfra.FreeQueue.MPSCQueueNonIntrusive

open Transition PendingChain

variable {T : Type}

theorem enqueue_inv {s t : State T} {p : Nat} {input : T} (inv : Inv s)
    (taken : step s (.enqueue p input) = some t) : Inv t := by
  cases at_ : s.producers p <;> simp only [step, at_, reduceCtorEq] at taken
  obtain rfl := Option.some.inj taken
  have unused : s.allocated ∉ s.order := fun member => Nat.lt_irrefl _ (inv.allocated _ member)
  have outside : ¬ Queued s.order s.moved s.allocated :=
    fun ⟨_, _, here⟩ => unused (List.mem_of_getElem? here)
  have member {i node : Nat} (here : s.order[i]? = some node) : node ≠ s.allocated :=
    fun same => unused (same ▸ List.mem_of_getElem? here)
  exact
    { chain := (inv.chain.write outside none).congr fun i => by
        unfold State.Pending
        rw [pending_update, pending_others (i := p) (by rw [at_]; rfl)]
        simp only [Producer.stores, reduceCtorEq, false_or]
      head := inv.head
      tail := inv.tail
      deleted := inv.deleted
      nodup := inv.nodup
      allocated := fun node here => Nat.lt_succ_of_lt (inv.allocated node here)
      size := inv.size
      data := by
        intro k node here
        dsimp only
        rw [Function.update_of_ne (member here)]
        exact inv.data k node here
      dequeued := inv.dequeued
      producers := by
        intro q
        by_cases same : q = p
        · subst same
          simp [ProducerOk, unused]
        · simp only [Function.update_of_ne same]
          refine (inv.producers q).frame (Nat.le_succ _) (fun _ _ here => here) ?_
          intro node input _ apart empty bound
          have differs : node ≠ s.allocated := Nat.ne_of_lt bound
          simp only [Function.update_of_ne differs]
          exact ⟨apart, empty, trivial⟩
      consumer := by
        refine inv.consumer.frame rfl rfl rfl (fun _ _ here => here) (fun _ _ here => here) ?_
        intro x link
        dsimp only
        rwa [Function.update_of_ne (member inv.tail)]
      owners := owners_update inv.owners fun q node _ isNew isOld => by
        have old := inv.own_lt isOld
        simp only [Producer.own, Option.some.injEq] at isNew
        omega }

theorem exchange_inv {s t : State T} {p node : Nat} {input : T} (inv : Inv s)
    (at_ : s.producers p = .created node input) (taken : step s (.producer p) = some t) : Inv t := by
  simp only [step, at_] at taken
  obtain rfl := Option.some.inj taken
  obtain ⟨bound, unused, empty, content⟩ : ProducerOk s (.created node input) := at_ ▸ inv.producers p
  have nonempty : 0 < s.order.length := by rw [inv.size]; omega
  have outside : ¬ Queued s.order s.moved node :=
    fun ⟨_, _, here⟩ => unused (List.mem_of_getElem? here)
  exact
    { chain := (inv.chain.exchange outside empty).congr fun i => by
        have last : i + 1 = s.order.length ↔ s.order.length - 1 = i := by omega
        unfold State.Pending
        rw [pending_update, pending_others (i := p) (by rw [at_]; rfl), or_comm, last]
        simp only [Producer.stores, Option.some.injEq]
      head := by simp
      tail := concat_get node inv.tail
      deleted := by
        have inside := inv.chain.inside
        unfold State.moved at inside
        dsimp only
        rw [List.take_append_of_le_length (by omega)]
        exact inv.deleted
      nodup := by simpa using inv.nodup.concat unused
      allocated := by
        intro x member
        rcases List.mem_append.mp member with old | new
        · exact inv.allocated x old
        · exact List.mem_singleton.mp new ▸ bound
      size := by simp [inv.size]
      data := by
        intro k x here
        rcases concat_cases here with ⟨early, old⟩ | ⟨end_, rfl⟩
        · rw [inv.data k x old]
          exact (List.getElem?_append_left (by have := inv.size; omega)).symm
        · have place : k = s.inputs.length := by have := inv.size; omega
          simp [content, place]
      dequeued := by
        have inside := inv.chain.inside
        have size := inv.size
        unfold State.moved at inside
        dsimp only
        rw [List.take_append_of_le_length (by omega)]
        exact inv.dequeued
      producers := by
        intro q
        by_cases same : q = p
        · subst same
          simp only [Function.update_self, ProducerOk]
          refine ⟨concat_get node inv.head, ?_⟩
          rw [Nat.sub_add_cancel nonempty]
          simp
        · simp only [Function.update_of_ne same]
          refine (inv.producers q).frame (Nat.le_refl _) (fun _ _ here => concat_get node here) ?_
          intro other otherInput there apart otherEmpty _
          refine ⟨?_, otherEmpty, rfl⟩
          intro member
          rcases List.mem_append.mp member with old | new
          · exact apart old
          · obtain rfl := List.mem_singleton.mp new
            exact same (inv.owners q p other (by rw [there]; rfl) (by rw [at_]; rfl))
      consumer := by
        refine inv.consumer.frame rfl rfl rfl (fun _ _ here => concat_get node here)
          (fun _ _ here => concat_get input here) ?_
        exact fun _ link => link
      owners := owners_update inv.owners fun q other differs isMine isTheirs =>
        differs (inv.owners q p other isTheirs (by rw [at_]; exact isMine)) }

theorem link_inv {s t : State T} {p node prevHead position : Nat} (inv : Inv s)
    (at_ : s.producers p = .exchanged node prevHead position)
    (taken : step s (.producer p) = some t) : Inv t := by
  simp only [step, at_] at taken
  obtain rfl := Option.some.inj taken
  obtain ⟨atPrev, atNode⟩ : ProducerOk s (.exchanged node prevHead position) := at_ ▸ inv.producers p
  have storing : (s.producers p).stores = some position := by rw [at_]; rfl
  have waiting : s.Pending position := ⟨p, storing⟩
  have alone (q : Nat) (differs : q ≠ p) : (s.producers q).stores ≠ some position := by
    intro also
    obtain ⟨node', prevHead', there⟩ := Producer.stores_some also
    have ok : ProducerOk s (.exchanged node' prevHead' position) := there ▸ inv.producers q
    obtain rfl : node' = node := Option.some.inj (ok.2.symm.trans atNode)
    exact differs (inv.owners q p node' (by rw [there]; rfl) (by rw [at_]; rfl))
  exact
    { chain := (inv.chain.link waiting atPrev atNode).congr fun i => by
        unfold State.Pending
        rw [pending_update]
        simp only [Producer.stores, reduceCtorEq, false_or]
        constructor
        · rintro ⟨⟨q, there⟩, elsewhere⟩
          refine ⟨q, ?_, there⟩
          rintro rfl
          exact elsewhere (Option.some.inj (there.symm.trans storing))
        · rintro ⟨q, differs, there⟩
          exact ⟨⟨q, there⟩, fun same => alone q differs (same ▸ there)⟩
      head := inv.head
      tail := inv.tail
      deleted := inv.deleted
      nodup := inv.nodup
      allocated := inv.allocated
      size := inv.size
      data := inv.data
      dequeued := inv.dequeued
      producers := by
        intro q
        by_cases same : q = p
        · subst same
          simp only [Function.update_self, ProducerOk]
        · simp only [Function.update_of_ne same]
          refine (inv.producers q).frame (Nat.le_refl _) (fun _ _ here => here) ?_
          intro other otherInput _ apart empty _
          refine ⟨apart, ?_, rfl⟩
          have differs : other ≠ prevHead := by
            rintro rfl
            exact apart (List.mem_of_getElem? atPrev)
          dsimp only
          rwa [Function.update_of_ne differs]
      consumer := by
        refine inv.consumer.frame rfl rfl rfl (fun _ _ here => here) (fun _ _ here => here) ?_
        intro x link
        dsimp only
        rw [Function.update_of_ne]
        · exact link
        · -- a link that is there is not the one that is missing
          intro same
          have low := (inv.chain.bounds position waiting).1
          rw [same, inv.chain.missing position prevHead low atPrev (.inl waiting)] at link
          cases link
      owners := owners_update inv.owners fun q other _ isMine => by
        simp [Producer.own] at isMine }

theorem dequeue_inv {s t : State T} (inv : Inv s) (taken : step s .dequeue = some t) : Inv t := by
  cases at_ : s.consumer <;> simp only [step, at_, reduceCtorEq] at taken
  obtain rfl := Option.some.inj taken
  have chain := inv.chain
  have tailAt := inv.tail
  simp only [State.moved, at_, Consumer.ahead] at chain tailAt
  exact { inv with chain := chain, tail := tailAt, consumer := rfl }

theorem consumer_inv {s t : State T} (inv : Inv s) (taken : step s .consumer = some t) : Inv t := by
  have ok := inv.consumer
  have chain := inv.chain
  have tailAt := inv.tail
  cases at_ : s.consumer with
  | idle => simp [step, at_] at taken
  | loadedTail tail =>
      simp only [State.moved, at_, Consumer.ahead, ConsumerOk] at ok chain tailAt
      cases link : s.next tail <;> simp only [step, at_, link] at taken <;>
        obtain rfl := Option.some.inj taken
      · exact { inv with chain := chain, tail := tailAt, consumer := trivial }
      · exact { inv with chain := chain, tail := tailAt, consumer := ⟨ok, link⟩ }
  | loadedNext tail next =>
      simp only [State.moved, at_, Consumer.ahead, ConsumerOk] at ok chain tailAt
      simp only [step, at_] at taken
      obtain ⟨result, content, taken⟩ := Option.bind_eq_some_iff.mp taken
      obtain rfl := Option.some.inj taken
      obtain ⟨rfl, link⟩ := ok
      have follow := (chain.follow (Nat.le_refl _) tailAt link).1
      have carried : s.inputs[s.deleted.length]? = some result := (inv.data _ _ follow).symm.trans content
      exact { inv with chain := chain, tail := tailAt, consumer := ⟨⟨rfl, link⟩, carried⟩ }
  | readData tail next result =>
      simp only [State.moved, at_, Consumer.ahead, ConsumerOk] at ok chain tailAt
      simp only [step, at_] at taken
      obtain rfl := Option.some.inj taken
      obtain ⟨⟨rfl, link⟩, carried⟩ := ok
      have follow := (chain.follow (Nat.le_refl _) tailAt link).1
      exact { inv with
        chain := chain.advance tailAt link
        tail := follow
        consumer := ⟨tailAt, carried⟩ }
  | storedTail tail result =>
      simp only [State.moved, at_, Consumer.ahead, ConsumerOk] at ok chain tailAt
      simp only [step, at_] at taken
      obtain rfl := Option.some.inj taken
      have moved : (s.deleted ++ [tail]).length + 0 = s.deleted.length + 1 := by simp
      exact { inv with
        chain := by
          simp only [State.moved, Consumer.ahead, moved]
          exact chain
        tail := by
          simp only [State.moved, Consumer.ahead, moved]
          exact tailAt
        deleted := by
          simp only [List.length_append, List.length_singleton, List.take_add_one, ok.1]
          rw [← inv.deleted]
          rfl
        dequeued := by
          simp only [List.length_append, List.length_singleton, List.take_add_one, ok.2]
          rw [← inv.dequeued]
          rfl
        consumer := trivial }

theorem step_inv {s t : State T} {event : Event T} (inv : Inv s) (taken : step s event = some t) : Inv t := by
  cases event with
  | enqueue p input => exact enqueue_inv inv taken
  | producer p =>
      cases at_ : s.producers p with
      | idle => simp [step, at_] at taken
      | created node input => exact exchange_inv inv at_ taken
      | exchanged node prevHead position => exact link_inv inv at_ taken
  | dequeue => exact dequeue_inv inv taken
  | consumer => exact consumer_inv inv taken

theorem run_inv {events : List (Event T)} {s : State T} (ran : run step .initial events = some s) : Inv s :=
  run_invariant Inv (fun _ _ _ inv taken => step_inv inv taken) initial_inv ran

theorem Inv.empty {s : State T} (inv : Inv s) {tail : Nat} (at_ : s.consumer = .loadedTail tail)
    (missing : s.next tail = none) (quiet : ∀ p, s.producers p = .idle) : s.dequeued = s.inputs := by
  have ok := inv.consumer
  have chain := inv.chain
  have tailAt := inv.tail
  simp only [State.moved, at_, Consumer.ahead, ConsumerOk] at ok chain tailAt
  have settled : ¬ s.Pending s.deleted.length := by
    rintro ⟨p, there⟩
    rw [quiet p] at there
    cases there
  have last := chain.atEnd (Nat.le_refl _) tailAt (ok ▸ missing) settled
  have size := inv.size
  rw [inv.dequeued]
  exact List.take_of_length_le (by omega)

end CppInfra.FreeQueue.MPSCQueueNonIntrusive
