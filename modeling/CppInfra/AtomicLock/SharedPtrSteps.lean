import CppInfra.AtomicLock.SharedPtrLife
import Mathlib.Data.List.Perm.Subperm
import Mathlib.Data.List.Range

set_option autoImplicit false

namespace CppInfra.AtomicLock.SharedPtr

open Words Transition Holders

theorem live_length {live : List Object} (distinct : live.Nodup) : live.length ≤ 2 ^ 61 := by
  have slots : (live.map Object.slot).Nodup := by
    refine List.Nodup.map_on ?_ distinct
    rintro ⟨a, _⟩ _ ⟨b, _⟩ _ same
    simpa using same
  have inside : live.map Object.slot ⊆ List.range (2 ^ 61) := by
    intro n member
    obtain ⟨x, -, rfl⟩ := List.mem_map.mp member
    exact List.mem_range.mpr x.fits
  have bound := (List.subperm_of_subset slots inside).length_le
  rwa [List.length_map, List.length_range] at bound

variable {Thread : Type}

theorem Fields.count_le {holding : Object → Option Nat} {s : State Thread} (fields : Fields holding s) (p : Nat) :
    count holding s.live p ≤ 2 ^ 61 :=
  (count_le_length ..).trans (live_length fields.distinct)

theorem Fields.live_of_holding {holding : Object → Option Nat} {s : State Thread} (fields : Fields holding s)
    {x : Object} {p : Nat} (has : holding x = some p) : x ∈ s.live := by
  by_contra notLive
  rw [fields.outside x notLive] at has
  cases has

theorem Life.counter_of_holding {phase : Nat → Phase Thread} {holding : Object → Option Nat} {s : State Thread}
    (life : Life phase holding s) (fields : Fields holding s) {x : Object} {p : Nat} (has : holding x = some p) :
    phase p = .alive ∧ 0 < count holding s.live p ∧ s.counters p = some (count holding s.live p) := by
  have positive : 0 < count holding s.live p := count_pos_iff.mpr ⟨x, fields.live_of_holding has, has⟩
  have alive := (life.stock p).held.mp positive
  have counter := (life.stock p).counter
  rw [alive] at counter
  exact ⟨alive, positive, counter⟩

theorem frame_this {task : Task} {β : Type} {f : Object → β} (value : β) :
    ∀ x, x ∉ task.modified → Function.update f task.this value x = f x := by
  intro x outside
  refine Function.update_of_ne ?_ _ _
  rintro rfl
  exact outside (this_modified _)

def Good (s : State Thread) : Prop := ∃ phase holding, Fields holding s ∧ Life phase holding s

variable [DecidableEq Thread]

theorem own_goto {s : State Thread} (s' : State Thread) {thread : Thread} {task : Task}
    (here : s.threads thread = some task) (threads : s'.threads = s.threads)
    (cells : ∀ x, x ∉ task.modified → s'.cells x = s.cells x) (point : Point) :
    OwnStep s (s'.goto thread task point) thread task where
  here := here
  threads other different := by
    simp only [State.goto, Function.update_of_ne different, threads]
  cells := cells

theorem own_done {s : State Thread} (s' : State Thread) {thread : Thread} {task : Task}
    (here : s.threads thread = some task) (threads : s'.threads = s.threads)
    (cells : ∀ x, x ∉ task.modified → s'.cells x = s.cells x) :
    OwnStep s (s'.done thread) thread task where
  here := here
  threads other different := by
    simp only [State.done, Function.update_of_ne different, threads]
  cells := cells

theorem goto_thread (s : State Thread) (thread : Thread) (task : Task) (point : Point) :
    (s.goto thread task point).threads thread = some { task with point := point } :=
  Function.update_self ..

theorem done_thread (s : State Thread) (thread : Thread) : (s.done thread).threads thread = none :=
  Function.update_self ..

theorem goto_busy (s : State Thread) (thread : Thread) (task : Task) (point : Point) :
    (s.goto thread task point).threads thread ≠ none := by
  simp [goto_thread]

theorem done_idle (s : State Thread) (thread : Thread) (task : Task) : (s.done thread).threads thread ≠ some task := by
  simp [done_thread]

theorem begin_ne (rest : Rest) : rest.begin ≠ .deletePtr ∧ rest.begin ≠ .deleteCount := by
  cases rest <;> simp [Rest.begin]

theorem goto_good {phase : Nat → Phase Thread} {holding : Object → Option Nat} {s : State Thread}
    {thread : Thread} {task : Task} {point : Point} {cells : Object → Cell} (fields : Fields holding s)
    (life : Life phase holding s) (here : s.threads thread = some task)
    (frame : ∀ x, x ∉ task.modified → cells x = s.cells x) (ok : TaskOk cells holding { task with point := point })
    (before : task.point ≠ .deletePtr ∧ task.point ≠ .deleteCount)
    (after : point ≠ .deletePtr ∧ point ≠ .deleteCount) :
    Good ({ s with cells := cells }.goto thread task point) := by
  have own : OwnStep s ({ s with cells := cells }.goto thread task point) thread task :=
    own_goto { s with cells := cells } here rfl frame point
  refine ⟨phase, holding, fields.advance own rfl (goto_thread ..) (fun _ _ => rfl) ok, ?_⟩
  refine life.same fields own (fun p => ⟨Iff.rfl, rfl, rfl, Iff.rfl, Iff.rfl⟩) before.1 before.2 ?_ ?_ rfl rfl
  · intro task' goes
    rw [goto_thread, Option.some.injEq] at goes
    subst goes
    exact ⟨rfl, after⟩
  · exact fun gone => absurd gone (goto_busy _ _ _ _)

theorem done_good {phase : Nat → Phase Thread} {holding : Object → Option Nat} {s : State Thread}
    {thread : Thread} {task : Task} {cells : Object → Cell} (fields : Fields holding s)
    (life : Life phase holding s) (holding' : Object → Option Nat) (here : s.threads thread = some task)
    (frame : ∀ x, x ∉ task.modified → cells x = s.cells x)
    (same : ∀ x, x ∉ task.modified → holding' x = holding x)
    (settled : ∀ x ∈ task.modified, Settled cells holding' x)
    (counts : ∀ p, count holding' s.live p = count holding s.live p)
    (before : task.point ≠ .deletePtr ∧ task.point ≠ .deleteCount) (rest : ∀ p, task.rest ≠ .write (some p)) :
    Good ({ s with cells := cells }.done thread) := by
  have own : OwnStep s ({ s with cells := cells }.done thread) thread task :=
    own_done { s with cells := cells } here rfl frame
  refine ⟨phase, holding', ?_, ?_⟩
  · refine fields.finish own (done_thread ..) fields.distinct (fun _ isLive => isLive) ?_ same ?_
    · intro x isLive notLive
      exact absurd isLive notLive
    · intro x modifies _
      exact settled x modifies
  · refine life.same fields own (fun p => ⟨Iff.rfl, rfl, counts p, Iff.rfl, Iff.rfl⟩) before.1 before.2 ?_
      (fun _ => rest) rfl rfl
    exact fun task' goes => absurd goes (done_idle _ _ _)

theorem setPtr_good {phase : Nat → Phase Thread} {holding : Object → Option Nat} {s : State Thread}
    {thread : Thread} {this : Object} {rest : Rest} (fields : Fields holding s) (life : Life phase holding s)
    (here : s.threads thread = some ⟨this, rest, .setPtr⟩) :
    ∃ next, s.perform thread ⟨this, rest, .setPtr⟩ = some next ∧ Good next := by
  have ok := fields.tasks thread _ here
  cases rest with
  | leave => cases ok
  | write p =>
      refine ⟨_, rfl, goto_good fields life here (frame_this _) ?_ (by simp) (by simp)⟩
      have released : holding this = none := ok
      exact ⟨released, by simp⟩
  | take other move =>
      have another : other ≠ this := fields.another thread _ other move here rfl
      obtain ⟨released, settled⟩ := ok
      refine ⟨_, rfl, goto_good fields life here (frame_this _) ⟨released, ?_, ?_⟩ (by simp) (by simp)⟩
      · rw [Settled, Function.update_of_ne another]
        exact settled
      · simp only [Function.update_self]
        rw [settled]

theorem setCount_take_good {phase : Nat → Phase Thread} {holding : Object → Option Nat} {s : State Thread}
    {thread : Thread} {this other : Object} {move : Bool} (fields : Fields holding s) (life : Life phase holding s)
    (here : s.threads thread = some ⟨this, .take other move, .setCount⟩) :
    ∃ next, s.perform thread ⟨this, .take other move, .setCount⟩ = some next ∧ Good next := by
  obtain ⟨released, settled, took⟩ := fields.tasks thread _ here
  have another : other ≠ this := fields.another thread _ other move here rfl
  let cells := Function.update s.cells this { s.cells this with refCount := (s.cells other).refCount }
  have otherCell : Settled cells holding other := by
    simp only [Settled, cells, Function.update_of_ne another]
    exact settled
  have thisCell : cells this = ⟨holding other, holding other⟩ := by
    have count : (s.cells other).refCount = holding other := by rw [settled]
    simp only [cells, Function.update_self, count]
    rw [← took]
  cases move with
  | false =>
      exact ⟨_, rfl, goto_good fields life here (frame_this _) ⟨released, otherCell, thisCell⟩ (by simp) (by simp)⟩
  | true =>
      exact ⟨_, rfl, goto_good fields life here (frame_this _) ⟨released, otherCell, thisCell⟩ (by simp) (by simp)⟩

theorem setCount_null_good {phase : Nat → Phase Thread} {holding : Object → Option Nat} {s : State Thread}
    {thread : Thread} {this : Object} (fields : Fields holding s) (life : Life phase holding s)
    (here : s.threads thread = some ⟨this, .write none, .setCount⟩) :
    ∃ next, s.perform thread ⟨this, .write none, .setCount⟩ = some next ∧ Good next := by
  obtain ⟨released, wrote⟩ := fields.tasks thread _ here
  refine ⟨_, rfl, done_good fields life holding here (frame_this _) (fun _ _ => rfl) ?_ (fun _ => rfl) (by simp)
    (by simp)⟩
  intro x modifies
  obtain rfl : x = this := by simpa [Task.modified] using modifies
  simp only at released wrote
  simp only [Settled, Function.update_self, released, wrote]

theorem nullPtr_good {phase : Nat → Phase Thread} {holding : Object → Option Nat} {s : State Thread}
    {thread : Thread} {this other : Object} (fields : Fields holding s) (life : Life phase holding s)
    (here : s.threads thread = some ⟨this, .take other true, .nullPtr⟩) :
    ∃ next, s.perform thread ⟨this, .take other true, .nullPtr⟩ = some next ∧ Good next := by
  obtain ⟨released, settled, took⟩ := fields.tasks thread _ here
  have another : other ≠ this := fields.another thread _ other true here rfl
  refine ⟨_, rfl, goto_good fields life here ?_ ⟨released, ?_, ?_⟩ (by simp) (by simp)⟩
  · intro x outside
    refine Function.update_of_ne ?_ _ _
    rintro rfl
    exact outside (other_modified rfl)
  · simp only [Function.update_self]
    rw [settled]
  · rw [Function.update_of_ne another.symm]
    exact took

theorem nullCount_good {phase : Nat → Phase Thread} {holding : Object → Option Nat} {s : State Thread}
    {thread : Thread} {this other : Object} (fields : Fields holding s) (life : Life phase holding s)
    (here : s.threads thread = some ⟨this, .take other true, .nullCount⟩) :
    ∃ next, s.perform thread ⟨this, .take other true, .nullCount⟩ = some next ∧ Good next := by
  obtain ⟨released, cleared, took⟩ := fields.tasks thread _ here
  have another : other ≠ this := fields.another thread _ other true here rfl
  have thisLive := fields.used thread _ here this (this_used _)
  have otherLive := fields.used thread _ here other (other_used rfl)
  let passed := Function.update holding this (holding other)
  let holding' := Function.update passed other none
  have thisHolds : holding' this = holding other := by
    simp only [holding', passed, Function.update_of_ne another.symm, Function.update_self]
  have outside : ∀ x, x ∉ Task.modified ⟨this, .take other true, .nullCount⟩ → x ≠ this ∧ x ≠ other := by
    intro x notModified
    simpa [Task.modified] using notModified
  refine ⟨_, rfl, done_good fields life holding' here ?_ ?_ ?_ ?_ (by simp) (by simp)⟩
  · intro x notModified
    exact Function.update_of_ne (outside x notModified).2 _ _
  · intro x notModified
    simp only [holding', passed, Function.update_of_ne (outside x notModified).1,
      Function.update_of_ne (outside x notModified).2]
  · intro x modifies
    have which : x = this ∨ x = other := by simpa [Task.modified] using modifies
    rcases which with rfl | rfl
    · rw [Settled, thisHolds, Function.update_of_ne another.symm]
      exact took
    · simp only [Settled, Function.update_self, holding', cleared]
  · intro p
    have one := count_update holding fields.distinct thisLive (holding other) p
    have two := count_update passed fields.distinct otherLive none p
    have otherPassed : passed other = holding other := Function.update_of_ne another _ _
    simp only at released
    rw [otherPassed] at two
    rw [released] at one
    simp only [reduceCtorEq, if_false, Nat.add_zero] at one two
    simp only [holding', passed] at one two ⊢
    omega

theorem Ready.update {cells : Object → Cell} {holding : Object → Option Nat} {rest : Rest} {this : Object}
    {value : Option Nat} (ready : Ready cells holding rest)
    (another : ∀ other move, rest = .take other move → other ≠ this) :
    Ready cells (Function.update holding this value) rest := by
  cases rest with
  | take other move =>
      simp only [Ready, Settled, Function.update_of_ne (another other move rfl)]
      exact ready
  | write p => trivial
  | leave => trivial

theorem release_good {phase : Nat → Phase Thread} {holding : Object → Option Nat} {s : State Thread}
    {thread : Thread} {this : Object} {rest : Rest} {c : Nat} (fields : Fields holding s) (life : Life phase holding s)
    (here : s.threads thread = some ⟨this, rest, .fetchSub⟩) (has : holding this = some c) :
    Good ({ s with
      counters := Function.update s.counters c (some (count holding s.live c - 1)) }.goto thread
        ⟨this, rest, .fetchSub⟩ (if count holding s.live c = 1 then .deletePtr else rest.begin)) := by
  obtain ⟨settled, ready⟩ := fields.tasks thread _ here
  have cell : s.cells this = ⟨some c, some c⟩ := has ▸ settled
  obtain ⟨alive, positive, -⟩ := life.counter_of_holding fields has
  have isLive := fields.used thread _ here this (this_used _)
  let n := count holding s.live c
  let holding' := Function.update holding this none
  let point := if n = 1 then .deletePtr else rest.begin
  let base : State Thread := { s with counters := Function.update s.counters c (some (n - 1)) }
  let next := base.goto thread ⟨this, rest, .fetchSub⟩ point
  have counts : ∀ q, count holding' s.live q + (if some c = some q then 1 else 0) = count holding s.live q := by
    intro q
    have moved := count_update holding fields.distinct isLive none q
    rw [has] at moved
    simpa [holding'] using moved
  have left : count holding' s.live c = n - 1 := Nat.eq_sub_of_add_eq (by simpa using counts c)
  have released : holding' this = none := Function.update_self ..
  have own : OwnStep s next thread ⟨this, rest, .fetchSub⟩ := own_goto base here rfl (fun _ _ => rfl) point
  have same : ∀ x, x ∉ Task.modified ⟨this, rest, .fetchSub⟩ → holding' x = holding x := frame_this none
  have ready' : Ready s.cells holding' rest :=
    ready.update fun other move taking => fields.another thread _ other move here taking
  have ok : TaskOk s.cells holding' ⟨this, rest, point⟩ := by
    by_cases last : n = 1
    · rw [show point = .deletePtr from if_pos last]
      exact ⟨released, ready'⟩
    · rw [show point = rest.begin from if_neg last]
      exact TaskOk.begin released ready'
  change Good next
  refine ⟨Function.update phase c (if n = 1 then .dying thread else .alive), holding',
    fields.advance own rfl (goto_thread ..) same ok, ?_⟩
  have before : Stock holding s c .alive := alive ▸ life.stock c
  have counter : next.counters c = some (count holding' s.live c) := by
    rw [left]
    exact Function.update_self ..
  have stock : Stock holding' next c (if n = 1 then .dying thread else .alive) := by
    by_cases last : n = 1
    · have zero : count holding' s.live c = 0 := by omega
      rw [if_pos last]
      rw [zero] at counter
      exact before.counts trivial trivial rfl rfl rfl counter (iff_of_false (Nat.not_lt.mpr zero.le) (by simp))
    · have more : 0 < count holding' s.live c := by omega
      rw [if_neg last]
      exact before.counts trivial trivial rfl rfl rfl counter (iff_of_true more rfl)
  have linked : Linked next c (if n = 1 then .dying thread else .alive) := by
    by_cases last : n = 1
    · rw [if_pos last]
      exact ⟨_, goto_thread .., if_pos last, cell⟩
    · rw [if_neg last]
      trivial
  refine life.update fields own ?_ stock linked ?_ (by simp) ?_ ?_ life.ptrsOnce life.countsOnce
  · intro q other
    refine ⟨Iff.rfl, Function.update_of_ne other _ _, ?_, Iff.rfl, Iff.rfl⟩
    have kept := counts q
    rw [if_neg (fun same => other (Option.some.inj same).symm)] at kept
    exact kept
  · simp [alive]
  · intro task' goes
    rw [goto_thread, Option.some.injEq] at goes
    subst goes
    refine ⟨rfl, by simp [alive], ?_, ?_⟩
    · intro deletes
      by_cases last : n = 1
      · rw [if_pos last]
      · simp only [point, if_neg last] at deletes
        exact absurd deletes (begin_ne rest).1
    · intro deletes
      by_cases last : n = 1
      · simp [point, last] at deletes
      · simp only [point, if_neg last] at deletes
        exact absurd deletes (begin_ne rest).2
  · exact fun gone => absurd gone (goto_busy _ _ _ _)

theorem fetchSub_good {phase : Nat → Phase Thread} {holding : Object → Option Nat} {s : State Thread}
    {thread : Thread} {this : Object} {rest : Rest} (fields : Fields holding s) (life : Life phase holding s)
    (here : s.threads thread = some ⟨this, rest, .fetchSub⟩) :
    ∃ next, s.perform thread ⟨this, rest, .fetchSub⟩ = some next ∧ Good next := by
  obtain ⟨settled, ready⟩ := fields.tasks thread _ here
  have cell : s.cells this = ⟨holding this, holding this⟩ := settled
  cases has : holding this with
  | none =>
      refine ⟨s.goto thread ⟨this, rest, .fetchSub⟩ rest.begin, by simp [State.perform, cell, has], ?_⟩
      exact goto_good fields life here (fun _ _ => rfl) (TaskOk.begin has ready) (by simp) (begin_ne rest)
  | some c =>
      obtain ⟨-, positive, counter⟩ := life.counter_of_holding fields has
      have bound := fields.count_le c
      have exact_ : sub 64 (count holding s.live c) 1 = count holding s.live c - 1 := sub_exact (by omega) (by omega)
      refine ⟨_, ?_, release_good fields life here has⟩
      simp [State.perform, cell, has, counter, exact_]

theorem deletePtr_good {phase : Nat → Phase Thread} {holding : Object → Option Nat} {s : State Thread}
    {thread : Thread} {this : Object} {rest : Rest} (fields : Fields holding s) (life : Life phase holding s)
    (here : s.threads thread = some ⟨this, rest, .deletePtr⟩) :
    ∃ next, s.perform thread ⟨this, rest, .deletePtr⟩ = some next ∧ Good next := by
  obtain ⟨p, dying⟩ := life.deletePtr thread _ here rfl
  have linked := life.linked p
  have waits : Stock holding s p (.dying thread) := dying ▸ life.stock p
  rw [dying] at linked
  obtain ⟨task, there, -, cell⟩ := linked
  rw [here, Option.some.injEq] at there
  subst there
  simp only at cell
  obtain ⟨isGiven, notDeleted, stillCounts⟩ := waits.undeleted trivial
  let base : State Thread := { s with deletedPtrs := s.deletedPtrs ++ [p] }
  let next := base.goto thread ⟨this, rest, .deletePtr⟩ .deleteCount
  have stepped : s.perform thread ⟨this, rest, .deletePtr⟩ = some next := by
    simp [State.perform, cell, isGiven, notDeleted, next, base]
  have own : OwnStep s next thread ⟨this, rest, .deletePtr⟩ := own_goto base here rfl (fun _ _ => rfl) _
  have before := fields.tasks thread _ here
  have ok : TaskOk s.cells holding ⟨this, rest, .deleteCount⟩ := before
  refine ⟨next, stepped, Function.update phase p (.deleting thread), holding,
    fields.advance own rfl (goto_thread ..) (fun _ _ => rfl) ok, ?_⟩
  have stock : Stock holding next p (.deleting thread) :=
    { given := iff_of_true isGiven (by simp)
      counter := waits.counter
      held := iff_of_false (fun positive => by simpa using waits.held.mp positive) (by simp)
      ptr := iff_of_true (List.mem_append_right _ (List.mem_singleton_self p)) (.inr ⟨thread, rfl⟩)
      refCount := iff_of_false stillCounts (by simp) }
  refine life.update fields own ?_ stock ?_ ?_ ?_ ?_ ?_ ?_ life.countsOnce
  · intro q other
    refine ⟨Iff.rfl, rfl, rfl, ?_, Iff.rfl⟩
    simp [next, State.goto, base, other]
  · refine ⟨_, goto_thread .., rfl, ?_⟩
    simp only [next, State.goto, base, cell]
  · intro t different
    simp [dying, Ne.symm different]
  · intro _
    simp only [cell]
  · intro task' goes
    rw [goto_thread, Option.some.injEq] at goes
    subst goes
    exact ⟨rfl, by simp [dying], by simp, by simp⟩
  · exact fun gone => absurd gone (goto_busy _ _ _ _)
  · have grown : (s.deletedPtrs ++ [p]).Nodup := by simpa using life.ptrsOnce.concat notDeleted
    exact grown

theorem deleteCount_good {phase : Nat → Phase Thread} {holding : Object → Option Nat} {s : State Thread}
    {thread : Thread} {this : Object} {rest : Rest} (fields : Fields holding s) (life : Life phase holding s)
    (here : s.threads thread = some ⟨this, rest, .deleteCount⟩) :
    ∃ next, s.perform thread ⟨this, rest, .deleteCount⟩ = some next ∧ Good next := by
  obtain ⟨p, deleting⟩ := life.deleteCount thread _ here rfl
  have linked := life.linked p
  obtain ⟨given, counter, held, ptr, refCount⟩ := life.stock p
  rw [deleting] at linked given counter held ptr refCount
  obtain ⟨task, there, -, cell⟩ := linked
  rw [here, Option.some.injEq] at there
  subst there
  simp only [Phase.counter] at cell counter
  have isGiven : p ∈ s.given := given.mpr (by simp)
  have isDeleted : p ∈ s.deletedPtrs := ptr.mpr (.inr ⟨thread, rfl⟩)
  have stillCounts : p ∉ s.deletedCounts := fun member => by simpa using refCount.mp member
  let base : State Thread :=
    { s with
      counters := Function.update s.counters p none
      deletedCounts := s.deletedCounts ++ [p] }
  let next := base.goto thread ⟨this, rest, .deleteCount⟩ rest.begin
  have stepped : s.perform thread ⟨this, rest, .deleteCount⟩ = some next := by
    simp [State.perform, cell, counter, next, base]
  have own : OwnStep s next thread ⟨this, rest, .deleteCount⟩ := own_goto base here rfl (fun _ _ => rfl) _
  obtain ⟨released, ready⟩ := fields.tasks thread _ here
  refine ⟨next, stepped, Function.update phase p .dead, holding,
    fields.advance own rfl (goto_thread ..) (fun _ _ => rfl) (TaskOk.begin released ready), ?_⟩
  have stock : Stock holding next p .dead :=
    { given := iff_of_true isGiven (by simp)
      counter := by simp [next, State.goto, base, Phase.counter]
      held := iff_of_false (fun positive => by simpa using held.mp positive) (by simp)
      ptr := iff_of_true isDeleted (.inl rfl)
      refCount := iff_of_true (List.mem_append_right _ (List.mem_singleton_self p)) rfl }
  refine life.update fields own ?_ stock trivial ?_ ?_ ?_ ?_ life.ptrsOnce ?_
  · intro q other
    refine ⟨Iff.rfl, Function.update_of_ne other _ _, rfl, Iff.rfl, ?_⟩
    simp [next, State.goto, base, other]
  · intro t different
    simp [deleting, Ne.symm different]
  · intro _
    exact cell
  · intro task' goes
    rw [goto_thread, Option.some.injEq] at goes
    subst goes
    refine ⟨rfl, by simp [deleting], ?_, ?_⟩
    · intro deletes
      exact absurd deletes (begin_ne rest).1
    · intro deletes
      exact absurd deletes (begin_ne rest).2
  · exact fun gone => absurd gone (goto_busy _ _ _ _)
  · have grown : (s.deletedCounts ++ [p]).Nodup := by simpa using life.countsOnce.concat stillCounts
    exact grown

theorem gain_good {phase : Nat → Phase Thread} {holding : Object → Option Nat} {s : State Thread}
    {thread : Thread} {task : Task} {c : Nat} {cells : Object → Cell} (fields : Fields holding s)
    (life : Life phase holding s) (here : s.threads thread = some task)
    (frame : ∀ x, x ∉ task.modified → cells x = s.cells x) (only : task.modified = [task.this])
    (released : holding task.this = none) (took : cells task.this = ⟨some c, some c⟩)
    (made : phase c = .alive ∨ phase c = .reserved thread)
    (before : task.point ≠ .deletePtr ∧ task.point ≠ .deleteCount)
    (rest : ∀ q, q ≠ c → task.rest ≠ .write (some q)) :
    Good ({ s with
      cells := cells
      counters := Function.update s.counters c (some (count holding s.live c + 1)) }.done thread) := by
  have isLive := fields.used thread _ here task.this (this_used _)
  let holding' := Function.update holding task.this (some c)
  let base : State Thread :=
    { s with cells := cells, counters := Function.update s.counters c (some (count holding s.live c + 1)) }
  have own : OwnStep s (base.done thread) thread task := own_done base here rfl frame
  have counts : ∀ q, count holding' s.live q = count holding s.live q + if some c = some q then 1 else 0 := by
    intro q
    have moved := count_update holding fields.distinct isLive (some c) q
    rw [released] at moved
    simpa [holding'] using moved
  have gained : count holding' s.live c = count holding s.live c + 1 := by simpa using counts c
  have same : ∀ x, x ∉ task.modified → holding' x = holding x := frame_this (some c)
  have kept : (phase c).kept := by
    rcases made with h | h
    · rw [h]
      trivial
    · rw [h]
      trivial
  have stock : Stock holding' (base.done thread) c .alive := by
    refine (life.stock c).counts kept trivial rfl rfl rfl ?_ (iff_of_true ?_ rfl)
    · have counter : base.counters c = some (count holding s.live c + 1) := Function.update_self ..
      rw [← gained] at counter
      exact counter
    · exact Nat.lt_of_lt_of_eq (Nat.succ_pos _) gained.symm
  refine ⟨Function.update phase c .alive, holding', ?_, ?_⟩
  · refine fields.finish own (done_thread ..) fields.distinct (fun _ isLive => isLive) ?_ same ?_
    · intro x isLive notLive
      exact absurd isLive notLive
    · intro x modifies _
      rw [only, List.mem_singleton] at modifies
      subst modifies
      simp only [Settled, holding', Function.update_self]
      exact took
  · refine life.update fields own ?_ stock trivial ?_ ?_ ?_ (fun _ => rest) life.ptrsOnce life.countsOnce
    · intro q other
      refine ⟨Iff.rfl, Function.update_of_ne other _ _, ?_, Iff.rfl, Iff.rfl⟩
      have kept := counts q
      rw [if_neg (fun equal => other (Option.some.inj equal).symm)] at kept
      exact kept
    · intro t different
      rcases made with h | h <;> simp [h, Ne.symm different]
    · rintro (deletes | deletes)
      · exact absurd deletes before.1
      · exact absurd deletes before.2
    · exact fun task' goes => absurd goes (done_idle _ _ _)

theorem setCount_new_good {phase : Nat → Phase Thread} {holding : Object → Option Nat} {s : State Thread}
    {thread : Thread} {this : Object} {p : Nat} (fields : Fields holding s) (life : Life phase holding s)
    (here : s.threads thread = some ⟨this, .write (some p), .setCount⟩) :
    ∃ next, s.perform thread ⟨this, .write (some p), .setCount⟩ = some next ∧ Good next := by
  obtain ⟨released, wrote⟩ := fields.tasks thread _ here
  simp only at released wrote
  have reserved := life.reserved thread _ p here rfl
  have nobody : count holding s.live p = 0 := by
    refine Nat.eq_zero_of_not_pos fun positive => ?_
    have alive := (life.stock p).held.mp positive
    rw [reserved] at alive
    cases alive
  let cells := Function.update s.cells this { s.cells this with refCount := some p }
  have took : cells this = ⟨some p, some p⟩ := by simp [cells, wrote]
  have good := gain_good fields life here (frame_this _) rfl released took (.inr reserved) (by simp)
    (fun q other => by simpa using Ne.symm other)
  rw [nobody] at good
  exact ⟨_, rfl, good⟩

theorem fetchAdd_good {phase : Nat → Phase Thread} {holding : Object → Option Nat} {s : State Thread}
    {thread : Thread} {this other : Object} (fields : Fields holding s) (life : Life phase holding s)
    (here : s.threads thread = some ⟨this, .take other false, .fetchAdd⟩) :
    ∃ next, s.perform thread ⟨this, .take other false, .fetchAdd⟩ = some next ∧ Good next := by
  obtain ⟨released, -, took⟩ := fields.tasks thread _ here
  simp only at released took
  cases has : holding other with
  | none =>
      rw [has] at took
      refine ⟨s.done thread, by simp [State.perform, took], ?_⟩
      refine done_good fields life holding here (fun _ _ => rfl) (fun _ _ => rfl) ?_ (fun _ => rfl) (by simp) (by simp)
      intro x modifies
      obtain rfl : x = this := by simpa [Task.modified] using modifies
      rw [Settled, released]
      exact took
  | some c =>
      rw [has] at took
      obtain ⟨alive, -, counter⟩ := life.counter_of_holding fields has
      have good := gain_good fields life here (fun _ _ => rfl) rfl released took (.inl alive) (by simp) (by simp)
      refine ⟨_, ?_, good⟩
      have bound := fields.count_le c
      have exact_ : add 64 (count holding s.live c) 1 = count holding s.live c + 1 := add_exact (by omega)
      simp [State.perform, took, counter, exact_]

theorem endLife_good {phase : Nat → Phase Thread} {holding : Object → Option Nat} {s : State Thread}
    {thread : Thread} {this : Object} (fields : Fields holding s) (life : Life phase holding s)
    (here : s.threads thread = some ⟨this, .leave, .endLife⟩) :
    ∃ next, s.perform thread ⟨this, .leave, .endLife⟩ = some next ∧ Good next := by
  have released : holding this = none := fields.tasks thread _ here
  let base : State Thread := { s with live := s.live.erase this }
  have own : OwnStep s (base.done thread) thread ⟨this, .leave, .endLife⟩ :=
    own_done base here rfl (fun _ _ => rfl)
  refine ⟨base.done thread, rfl, phase, holding, ?_, ?_⟩
  · refine fields.finish own (done_thread ..) (fields.distinct.erase this) ?_ ?_ (fun _ _ => rfl) ?_
    · intro x stays
      exact List.mem_of_mem_erase stays
    · intro x isLive notLive
      by_cases same : x = this
      · exact ⟨same, same ▸ released⟩
      · exact absurd ((List.mem_erase_of_ne same).mpr isLive) notLive
    · intro x modifies stays
      obtain rfl : x = this := by simpa [Task.modified] using modifies
      exact absurd stays fields.distinct.not_mem_erase
  · refine life.same fields own ?_ (by simp) (by simp) ?_ (by simp) rfl rfl
    · intro p
      exact ⟨Iff.rfl, rfl, count_erase_none released p, Iff.rfl, Iff.rfl⟩
    · exact fun task' goes => absurd goes (done_idle _ _ _)

theorem perform_good {s : State Thread} {thread : Thread} {task : Task} (good : Good s)
    (here : s.threads thread = some task) : ∃ next, s.perform thread task = some next ∧ Good next := by
  obtain ⟨phase, holding, fields, life⟩ := good
  obtain ⟨this, rest, point⟩ := task
  have ok := fields.tasks thread _ here
  cases point with
  | fetchSub => exact fetchSub_good fields life here
  | deletePtr => exact deletePtr_good fields life here
  | deleteCount => exact deleteCount_good fields life here
  | setPtr => exact setPtr_good fields life here
  | setCount =>
      match rest with
      | .take other move => exact setCount_take_good fields life here
      | .write none => exact setCount_null_good fields life here
      | .write (some p) => exact setCount_new_good fields life here
      | .leave => cases ok
  | fetchAdd =>
      match rest with
      | .take other false => exact fetchAdd_good fields life here
      | .take other true | .write p | .leave => cases ok
  | nullPtr =>
      match rest with
      | .take other true => exact nullPtr_good fields life here
      | .take other false | .write p | .leave => cases ok
  | nullCount =>
      match rest with
      | .take other true => exact nullCount_good fields life here
      | .take other false | .write p | .leave => cases ok
  | endLife =>
      match rest with
      | .leave => exact endLife_good fields life here
      | .take other move | .write p => cases ok

end CppInfra.AtomicLock.SharedPtr
