import CppInfra.AtomicLock.SharedPtrInvariant

set_option autoImplicit false

namespace CppInfra.AtomicLock.SharedPtr

open Words Transition Holders

-- The life of a raw pointer and of its counter: handed over to an operation that has not made the counter yet,
-- counted, or to be deleted by the operation whose `fetch_sub` returned 1, the object first.
inductive Phase (Thread : Type) where
  | unmade
  | reserved (thread : Thread)
  | alive
  | dying (thread : Thread)
  | deleting (thread : Thread)
  | dead

variable {Thread : Type}

def Phase.counter (count : Nat) : Phase Thread → Option Nat
  | .alive => some count
  | .dying _ | .deleting _ => some 0
  | _ => none

structure Stock (holding : Object → Option Nat) (s : State Thread) (p : Nat) (phase : Phase Thread) : Prop where
  given : p ∈ s.given ↔ phase ≠ .unmade
  counter : s.counters p = phase.counter (count holding s.live p)
  held : 0 < count holding s.live p ↔ phase = .alive
  ptr : p ∈ s.deletedPtrs ↔ phase = .dead ∨ ∃ thread, phase = .deleting thread
  refCount : p ∈ s.deletedCounts ↔ phase = .dead

def Linked (s : State Thread) (p : Nat) : Phase Thread → Prop
  | .reserved thread => ∃ task, s.threads thread = some task ∧ task.rest = .write (some p)
  | .dying thread => ∃ task, s.threads thread = some task ∧ task.point = .deletePtr ∧
      s.cells task.this = ⟨some p, some p⟩
  | .deleting thread => ∃ task, s.threads thread = some task ∧ task.point = .deleteCount ∧
      (s.cells task.this).refCount = some p
  | _ => True

structure Life (phase : Nat → Phase Thread) (holding : Object → Option Nat) (s : State Thread) : Prop where
  stock : ∀ p, Stock holding s p (phase p)
  linked : ∀ p, Linked s p (phase p)
  reserved : ∀ thread task p, s.threads thread = some task → task.rest = .write (some p) →
    phase p = .reserved thread
  deletePtr : ∀ thread task, s.threads thread = some task → task.point = .deletePtr → ∃ p, phase p = .dying thread
  deleteCount : ∀ thread task, s.threads thread = some task → task.point = .deleteCount →
    ∃ p, phase p = .deleting thread
  ptrsOnce : s.deletedPtrs.Nodup
  countsOnce : s.deletedCounts.Nodup

structure SameStock (holding holding' : Object → Option Nat) (s s' : State Thread) (p : Nat) : Prop where
  given : p ∈ s'.given ↔ p ∈ s.given
  counter : s'.counters p = s.counters p
  count : count holding' s'.live p = count holding s.live p
  ptr : p ∈ s'.deletedPtrs ↔ p ∈ s.deletedPtrs
  refCount : p ∈ s'.deletedCounts ↔ p ∈ s.deletedCounts

theorem Stock.same {holding holding' : Object → Option Nat} {s s' : State Thread} {p : Nat} {phase : Phase Thread}
    (stock : Stock holding s p phase) (same : SameStock holding holding' s s' p) : Stock holding' s' p phase where
  given := same.given.trans stock.given
  counter := by
    rw [same.counter, same.count]
    exact stock.counter
  held := by
    rw [same.count]
    exact stock.held
  ptr := same.ptr.trans stock.ptr
  refCount := same.refCount.trans stock.refCount

def Phase.kept : Phase Thread → Prop
  | .reserved _ | .alive | .dying _ => True
  | .unmade | .deleting _ | .dead => False

theorem Stock.undeleted {holding : Object → Option Nat} {s : State Thread} {p : Nat} {phase : Phase Thread}
    (stock : Stock holding s p phase) (kept : phase.kept) :
    p ∈ s.given ∧ p ∉ s.deletedPtrs ∧ p ∉ s.deletedCounts := by
  cases phase with
  | unmade | deleting t | dead => cases kept
  | reserved t | alive | dying t =>
      refine ⟨stock.given.mpr (by simp), ?_, ?_⟩
      · rw [stock.ptr]
        simp
      · rw [stock.refCount]
        simp

theorem Stock.counts {holding holding' : Object → Option Nat} {s s' : State Thread} {p : Nat}
    {phase phase' : Phase Thread} (stock : Stock holding s p phase) (kept : phase.kept) (kept' : phase'.kept)
    (given : s'.given = s.given) (ptrs : s'.deletedPtrs = s.deletedPtrs)
    (deletedCounts : s'.deletedCounts = s.deletedCounts)
    (counter : s'.counters p = phase'.counter (count holding' s'.live p))
    (held : 0 < count holding' s'.live p ↔ phase' = .alive) : Stock holding' s' p phase' := by
  obtain ⟨isGiven, notDeleted, stillCounts⟩ := stock.undeleted kept
  rw [← given] at isGiven
  rw [← ptrs] at notDeleted
  rw [← deletedCounts] at stillCounts
  refine ⟨iff_of_true isGiven ?_, counter, held, iff_of_false notDeleted ?_, iff_of_false stillCounts ?_⟩
  · rintro rfl
    cases kept'
  · rintro (rfl | ⟨t, rfl⟩)
    · cases kept'
    · cases kept'
  · rintro rfl
    cases kept'

theorem Linked.kept {holding : Object → Option Nat} {s s' : State Thread} {thread : Thread} {task : Task} {p : Nat}
    {phase : Phase Thread} (linked : Linked s p phase) (fields : Fields holding s) (own : OwnStep s s' thread task)
    (rest : phase = .reserved thread → ∃ task', s'.threads thread = some task' ∧ task'.rest = task.rest)
    (notDying : phase ≠ .dying thread) (notDeleting : phase ≠ .deleting thread) : Linked s' p phase := by
  cases phase with
  | unmade | alive | dead => trivial
  | reserved t =>
      obtain ⟨old, there, writes⟩ := linked
      by_cases mine : t = thread
      · subst mine
        rw [own.here, Option.some.injEq] at there
        subst there
        obtain ⟨task', goes, sameRest⟩ := rest rfl
        exact ⟨task', goes, sameRest.trans writes⟩
      · exact ⟨old, (own.threads t mine).trans there, writes⟩
  | dying t =>
      obtain ⟨old, there, point, cell⟩ := linked
      have different : t ≠ thread := by
        rintro rfl
        exact notDying rfl
      refine ⟨old, (own.threads t different).trans there, point, ?_⟩
      rw [own.cells _ (fields.not_modified different own.here there (this_used old))]
      exact cell
  | deleting t =>
      obtain ⟨old, there, point, cell⟩ := linked
      have different : t ≠ thread := by
        rintro rfl
        exact notDeleting rfl
      refine ⟨old, (own.threads t different).trans there, point, ?_⟩
      rw [own.cells _ (fields.not_modified different own.here there (this_used old))]
      exact cell

theorem Life.same {phase : Nat → Phase Thread} {holding holding' : Object → Option Nat} {s s' : State Thread}
    {thread : Thread} {task : Task} (life : Life phase holding s) (fields : Fields holding s)
    (own : OwnStep s s' thread task) (same : ∀ p, SameStock holding holding' s s' p)
    (notDying : task.point ≠ .deletePtr) (notDeleting : task.point ≠ .deleteCount)
    (goes : ∀ task', s'.threads thread = some task' →
      task'.rest = task.rest ∧ task'.point ≠ .deletePtr ∧ task'.point ≠ .deleteCount)
    (finished : s'.threads thread = none → ∀ p, task.rest ≠ .write (some p))
    (ptrs : s'.deletedPtrs = s.deletedPtrs) (counts : s'.deletedCounts = s.deletedCounts) :
    Life phase holding' s' where
  stock p := (life.stock p).same (same p)
  linked p := by
    refine (life.linked p).kept fields own ?_ ?_ ?_
    · intro reserved
      have linked := life.linked p
      rw [reserved] at linked
      obtain ⟨old, there, writes⟩ := linked
      rw [own.here, Option.some.injEq] at there
      subst there
      cases after : s'.threads thread with
      | none => exact absurd writes (finished after p)
      | some task' => exact ⟨task', rfl, (goes task' after).1⟩
    · intro dying
      have linked := life.linked p
      rw [dying] at linked
      obtain ⟨old, there, point, -⟩ := linked
      rw [own.here, Option.some.injEq] at there
      exact notDying (there ▸ point)
    · intro deleting
      have linked := life.linked p
      rw [deleting] at linked
      obtain ⟨old, there, point, -⟩ := linked
      rw [own.here, Option.some.injEq] at there
      exact notDeleting (there ▸ point)
  reserved t task' p there writes := by
    by_cases mine : t = thread
    · subst mine
      exact life.reserved t task p own.here ((goes task' there).1.symm.trans writes)
    · exact life.reserved t task' p ((own.threads t mine).symm.trans there) writes
  deletePtr t task' there point := by
    by_cases mine : t = thread
    · subst mine
      exact absurd point (goes task' there).2.1
    · exact life.deletePtr t task' ((own.threads t mine).symm.trans there) point
  deleteCount t task' there point := by
    by_cases mine : t = thread
    · subst mine
      exact absurd point (goes task' there).2.2
    · exact life.deleteCount t task' ((own.threads t mine).symm.trans there) point
  ptrsOnce := by
    rw [ptrs]
    exact life.ptrsOnce
  countsOnce := by
    rw [counts]
    exact life.countsOnce

theorem Life.update {phase : Nat → Phase Thread} {holding holding' : Object → Option Nat} {s s' : State Thread}
    {thread : Thread} {task : Task} {p : Nat} {next : Phase Thread} (life : Life phase holding s)
    (fields : Fields holding s) (own : OwnStep s s' thread task)
    (same : ∀ q, q ≠ p → SameStock holding holding' s s' q) (stock : Stock holding' s' p next)
    (linked : Linked s' p next)
    (free : ∀ t, t ≠ thread → phase p ≠ .reserved t ∧ phase p ≠ .dying t ∧ phase p ≠ .deleting t)
    (about : task.point = .deletePtr ∨ task.point = .deleteCount → (s.cells task.this).refCount = some p)
    (goes : ∀ task', s'.threads thread = some task' → task'.rest = task.rest ∧ phase p ≠ .reserved thread ∧
      (task'.point = .deletePtr → next = .dying thread) ∧ (task'.point = .deleteCount → next = .deleting thread))
    (finished : s'.threads thread = none → ∀ q, q ≠ p → task.rest ≠ .write (some q))
    (ptrs : s'.deletedPtrs.Nodup) (counts : s'.deletedCounts.Nodup) :
    Life (Function.update phase p next) holding' s' where
  stock q := by
    by_cases here : q = p
    · subst here
      rw [Function.update_self]
      exact stock
    · rw [Function.update_of_ne here]
      exact (life.stock q).same (same q here)
  linked q := by
    by_cases here : q = p
    · subst here
      rw [Function.update_self]
      exact linked
    · rw [Function.update_of_ne here]
      have link := life.linked q
      refine link.kept fields own ?_ ?_ ?_
      · intro reserved
        rw [reserved] at link
        obtain ⟨old, there, writes⟩ := link
        rw [own.here, Option.some.injEq] at there
        subst there
        cases after : s'.threads thread with
        | none => exact absurd writes (finished after q here)
        | some task' => exact ⟨task', rfl, (goes task' after).1⟩
      · intro dying
        rw [dying] at link
        obtain ⟨old, there, point, cell⟩ := link
        rw [own.here, Option.some.injEq] at there
        subst there
        have mine := about (.inl point)
        rw [cell, Option.some.injEq] at mine
        exact here mine
      · intro deleting
        rw [deleting] at link
        obtain ⟨old, there, point, cell⟩ := link
        rw [own.here, Option.some.injEq] at there
        subst there
        have mine := about (.inr point)
        rw [cell, Option.some.injEq] at mine
        exact here mine
  reserved t task' q there writes := by
    have was : phase q = .reserved t := by
      by_cases mine : t = thread
      · subst mine
        exact life.reserved t task q own.here ((goes task' there).1.symm.trans writes)
      · exact life.reserved t task' q ((own.threads t mine).symm.trans there) writes
    have other : q ≠ p := by
      rintro rfl
      by_cases mine : t = thread
      · subst mine
        exact (goes task' there).2.1 was
      · exact (free t mine).1 was
    rw [Function.update_of_ne other]
    exact was
  deletePtr t task' there point := by
    by_cases mine : t = thread
    · subst mine
      exact ⟨p, by rw [Function.update_self]; exact (goes task' there).2.2.1 point⟩
    · obtain ⟨q, dying⟩ := life.deletePtr t task' ((own.threads t mine).symm.trans there) point
      have other : q ≠ p := by
        rintro rfl
        exact (free t mine).2.1 dying
      exact ⟨q, by rw [Function.update_of_ne other]; exact dying⟩
  deleteCount t task' there point := by
    by_cases mine : t = thread
    · subst mine
      exact ⟨p, by rw [Function.update_self]; exact (goes task' there).2.2.2 point⟩
    · obtain ⟨q, deleting⟩ := life.deleteCount t task' ((own.threads t mine).symm.trans there) point
      have other : q ≠ p := by
        rintro rfl
        exact (free t mine).2.2 deleting
      exact ⟨q, by rw [Function.update_of_ne other]; exact deleting⟩
  ptrsOnce := ptrs
  countsOnce := counts

end CppInfra.AtomicLock.SharedPtr
