import CppInfra.Timer.MhTimer

set_option autoImplicit false

namespace CppInfra.Timer.MhTimer

open MinHeap BinaryHeap Words Transition Dispatch

theorem expireTimer_lawful : Lawful expireTimer Good (fun t x => x < t.allocated) allowed where
  distinct := fun good => good.sound.distinct
  known := fun good member => good.known _ member
  top := by
    intro t good
    by_cases empty : t.heap.n = 0
    · have nothing : t.heap.content = [] := List.length_eq_zero_iff.mp (by rw [good.sound.content_length, empty])
      exact .inl ⟨nothing, by simp [expireTimer, top, minHeapTop, empty]⟩
    · obtain ⟨x, member, root, isTop⟩ := good.root_mem empty
      exact .inr ⟨x, member, isTop, good.sound.least root⟩
  remove := by
    intro t x good isTop
    obtain ⟨next, removed, goodNext, content, time, allocated, -⟩ := popAndFree_spec good isTop
    refine ⟨next, removed, goodNext, content, fun y _ => congrFun time y, ?_⟩
    intro y known
    rw [allocated]
    exact known
  change := by
    intro t handled a good meets isTop
    cases a with
    | addTimer msec currentTime malloc realloc =>
        obtain ⟨result, next, ran, added⟩ := addTimer_spec good meets.1 msec currentTime malloc realloc
        refine ⟨next, by simp [expireTimer, change, ran], added.good, ?_, ?_, ?_, ?_⟩
        · intro y member
          rcases added.fresh y member with old | rfl
          · exact .inl old
          · exact .inr (Nat.lt_irrefl _)
        · intro y old _
          exact added.times y (good.known y old)
        · intro y known
          exact Nat.lt_of_lt_of_le known added.allocated
        · intro x isHandled
          obtain ⟨nonempty, member, root⟩ := good.top_root (isTop x isHandled)
          have kept := added.root x nonempty root (meets.2 x isHandled)
          refine added.good.top_of_root kept ?_
          have stays := List.length_pos_of_mem (added.kept x member)
          rw [added.good.sound.content_length] at stays
          omega
    | delTimer e =>
        obtain ⟨member, other⟩ := meets
        obtain ⟨next, ran, deleted⟩ := delTimer_spec good member
        refine ⟨next, by simp [expireTimer, change, ran], deleted.good, ?_, ?_, ?_, ?_⟩
        · intro y stays
          exact .inl (deleted.content.mem_iff.mp (List.mem_cons_of_mem e stays))
        · intro y _ _
          exact congrFun deleted.time y
        · intro y known
          rw [deleted.allocated]
          exact known
        · intro x isHandled
          have apart : x ≠ e := by
            rintro rfl
            exact other isHandled
          obtain ⟨nonempty, inside, root⟩ := good.top_root (isTop x isHandled)
          refine deleted.good.top_of_root (deleted.root x apart root) ?_
          have stays : x ∈ next.heap.content :=
            (List.mem_cons.mp (deleted.content.mem_iff.mpr inside)).resolve_left apart
          have long := List.length_pos_of_mem stays
          rw [deleted.good.sound.content_length] at long
          omega

def named (events : List (Dispatch.Event Change)) : List Nat :=
  events.filterMap fun
    | .change (.delTimer e) => some e
    | _ => none

theorem step_named {s next : State Timers Nat} {event : Dispatch.Event Change}
    (accounted : Accounted expireTimer Good (fun t x => x < t.allocated) s) (meets : Meets allowed s event)
    (stepped : expireTimer.step s event = some next) : next.deleted = s.deleted ++ named [event] := by
  cases event with
  | change a =>
      have enabled := meets.1
      have permitted := meets.2 a rfl
      cases a with
      | addTimer msec currentTime malloc realloc =>
          obtain ⟨result, queue, ran, added⟩ :=
            addTimer_spec accounted.good permitted.1 msec currentTime malloc realloc
          have changed : expireTimer.change s.queue (.addTimer msec currentTime malloc realloc) = some queue := by
            simp [expireTimer, change, ran]
          obtain rfl := Option.some.inj ((step_change expireTimer enabled changed).symm.trans stepped)
          have none_ : expireTimer.gone s.queue queue = [] := by
            refine List.filter_eq_nil_iff.mpr fun y member => ?_
            have stays : y ∈ expireTimer.pending queue := added.kept y member
            simp [stays]
          simp [none_, named]
      | delTimer e =>
          obtain ⟨queue, ran, deleted⟩ := delTimer_spec accounted.good permitted.1
          have changed : expireTimer.change s.queue (.delTimer e) = some queue := by
            simp [expireTimer, change, ran]
          obtain rfl := Option.some.inj ((step_change expireTimer enabled changed).symm.trans stepped)
          have only : expireTimer.gone s.queue queue = [e] :=
            gone_removed accounted.good.sound.distinct deleted.content
          simp [only, named]
  | dispatch now =>
      have idle : s.phase = .idle := meets.1
      simp only [Operations.step, idle, Option.some.injEq] at stepped
      subst stepped
      simp [named]
  | look =>
      obtain ⟨now, looking⟩ := meets.1
      obtain ⟨seen, looked, -, outcome⟩ := look_accounted expireTimer_lawful accounted looking
      obtain rfl := Option.some.inj (looked.symm.trans stepped)
      rcases outcome with ⟨rfl, -⟩ | ⟨x, rfl, -⟩ <;> simp [named]
  | finish =>
      obtain ⟨now, x, handling⟩ := meets.1
      have isTop := accounted.top x (by simp [handling, Phase.current])
      obtain ⟨queue, removed, -⟩ := popAndFree_spec accounted.good isTop
      obtain rfl := Option.some.inj ((step_finish expireTimer handling removed).symm.trans stepped)
      simp [named]

def TakesHandled (s : State Timers Nat) (x : Nat) : Prop :=
  ∃ after, expireTimer.step s .finish = some after ∧
    (x :: after.queue.heap.content).Perm s.queue.heap.content ∧ x ∉ after.queue.heap.content ∧
    after.queue.freed = s.queue.freed ++ [x]

theorem finish_takesHandled {s : State Timers Nat} {now x : Nat}
    (accounted : Accounted expireTimer Good (fun t x => x < t.allocated) s)
    (handling : s.phase = .handling now x) : TakesHandled s x := by
  have isTop := accounted.top x (by simp [handling, Phase.current])
  obtain ⟨queue, removed, -, content, -, -, freed⟩ := popAndFree_spec accounted.good isTop
  have gone : x ∉ queue.heap.content :=
    (List.nodup_cons.mp (content.nodup_iff.mpr accounted.good.sound.distinct)).1
  exact ⟨_, step_finish expireTimer handling removed, content, gone, freed⟩

theorem expireTimer_reentrant (events : List (Dispatch.Event Change))
    (met : Along expireTimer.step (Meets allowed) (expireTimer.start initTimer) events) :
    ∃ s, run expireTimer.step (expireTimer.start initTimer) events = some s ∧
      s.entered.Perm (s.queue.heap.content ++ s.taken ++ s.deleted) ∧
      (s.fired.Nodup ∧ s.fired = s.taken ++ s.phase.current) ∧ s.deleted = named events ∧
      (∀ x ∈ s.queue.freed, x ∉ s.queue.heap.content) ∧
      ∀ now x, s.phase = .handling now x → TakesHandled s x := by
  have initial : Accounted expireTimer Good (fun t x => x < t.allocated) (expireTimer.start initTimer) ∧
      (expireTimer.start initTimer).deleted = named [] :=
    ⟨start_accounted expireTimer_lawful initTimer_good, rfl⟩
  obtain ⟨s, ran, accounted, deleted⟩ := run_total
    (fun past s => Accounted expireTimer Good (fun t x => x < t.allocated) s ∧ s.deleted = named past)
    (fun past s event kept meets => by
      obtain ⟨next, stepped, accounted⟩ := step_accounted expireTimer_lawful s event kept.1 meets
      refine ⟨next, stepped, accounted, ?_⟩
      rw [step_named kept.1 meets stepped, kept.2, named, named, named, List.filterMap_append])
    initial met
  exact ⟨s, ran, accounted.balance, ⟨accounted.fired_nodup expireTimer_lawful, accounted.fired⟩, deleted,
    accounted.good.live, fun now x handling => finish_takesHandled accounted handling⟩

def rescheduling : List (Dispatch.Event Change) :=
  [.change (.addTimer 10 90 true true), .change (.addTimer 20 90 true true), .dispatch 100, .look,
    .change (.delTimer 1), .change (.addTimer 0 100 true true), .change (.addTimer 5 100 true true), .finish, .look,
    .finish, .look]

theorem expireTimer_reentrant_rescheduling :
    ∃ s, run expireTimer.step (expireTimer.start initTimer) rescheduling = some s ∧ s.fired = [0, 2] ∧
      s.queue.heap.content = [3] ∧ s.queue.freed = [0, 2] ∧ s.deleted = [1] ∧ s.fired.Nodup := by
  have met : Along expireTimer.step (Meets allowed) (expireTimer.start initTimer) rescheduling := by decide
  have results : (run expireTimer.step (expireTimer.start initTimer) rescheduling).map (fun s =>
      (s.fired, s.queue.heap.content, s.queue.freed)) = some ([0, 2], [3], [0, 2]) := by
    decide
  obtain ⟨s, ran, -, ⟨distinct, -⟩, deleted, -⟩ := expireTimer_reentrant rescheduling met
  rw [ran, Option.map_some, Option.some.injEq] at results
  simp only [Prod.mk.injEq] at results
  exact ⟨s, ran, results.1, results.2.1, results.2.2, deleted, distinct⟩

-- A handler that deletes its own timer: the heap's next one goes in its place, unfired.
def selfDeleting : List (Dispatch.Event Change) :=
  [.change (.addTimer 10 90 true true), .change (.addTimer 20 90 true true), .dispatch 100, .look,
    .change (.delTimer 0), .finish, .look]

theorem expireTimer_drops_next :
    ∃ s, run expireTimer.step (expireTimer.start initTimer) selfDeleting = some s ∧ s.entered = [0, 1] ∧
      s.fired = [0] ∧ s.taken = [1] ∧ s.deleted = [0] ∧ 1 ∉ s.fired ∧ 1 ∉ named selfDeleting ∧
      s.queue.heap.content = [] := by
  have results : (run expireTimer.step (expireTimer.start initTimer) selfDeleting).map (fun s =>
      (s.entered, s.fired, s.taken, s.deleted, s.queue.heap.content)) = some ([0, 1], [0], [1], [0], []) := by
    decide
  obtain ⟨s, ran, outcome⟩ := Option.map_eq_some_iff.mp results
  simp only [Prod.mk.injEq] at outcome
  obtain ⟨entered, fired, taken, deleted, content⟩ := outcome
  exact ⟨s, ran, entered, fired, taken, deleted, by simp [fired], by decide, content⟩

end CppInfra.Timer.MhTimer
