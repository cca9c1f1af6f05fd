import CppInfra.AtomicLock.SharedPtr

set_option autoImplicit false

namespace CppInfra.AtomicLock.SharedPtr

open Words Transition Holders

-- `holding` says which counter an object is counted in. Between operations it is the one in the object's field.
def Settled (cells : Object → Cell) (holding : Object → Option Nat) (x : Object) : Prop :=
  cells x = ⟨holding x, holding x⟩

def Ready (cells : Object → Cell) (holding : Object → Option Nat) : Rest → Prop
  | .take other _ => Settled cells holding other
  | _ => True

def TaskOk (cells : Object → Cell) (holding : Object → Option Nat) (task : Task) : Prop :=
  match task.point, task.rest with
  | .fetchSub, rest => Settled cells holding task.this ∧ Ready cells holding rest
  | .deletePtr, rest => holding task.this = none ∧ Ready cells holding rest
  | .deleteCount, rest => holding task.this = none ∧ Ready cells holding rest
  | .setPtr, .take other _ => holding task.this = none ∧ Settled cells holding other
  | .setPtr, .write _ => holding task.this = none
  | .setCount, .take other _ =>
      holding task.this = none ∧ Settled cells holding other ∧ (cells task.this).ptr = holding other
  | .setCount, .write p => holding task.this = none ∧ (cells task.this).ptr = p
  | .fetchAdd, .take other false =>
      holding task.this = none ∧ Settled cells holding other ∧ cells task.this = ⟨holding other, holding other⟩
  | .nullPtr, .take other true =>
      holding task.this = none ∧ Settled cells holding other ∧ cells task.this = ⟨holding other, holding other⟩
  | .nullCount, .take other true =>
      holding task.this = none ∧ cells other = ⟨none, holding other⟩ ∧
        cells task.this = ⟨holding other, holding other⟩
  | .endLife, .leave => holding task.this = none
  | _, _ => False

theorem TaskOk.begin {cells : Object → Cell} {holding : Object → Option Nat} {this : Object} {rest : Rest}
    (released : holding this = none) (ready : Ready cells holding rest) :
    TaskOk cells holding ⟨this, rest, rest.begin⟩ := by
  cases rest with
  | take other move => exact ⟨released, ready⟩
  | write p => exact released
  | leave => exact released

theorem this_used (task : Task) : task.this ∈ task.used := by
  rw [Task.used]
  split <;> simp

theorem this_modified (task : Task) : task.this ∈ task.modified := by
  rw [Task.modified]
  split <;> simp

theorem modified_used {task : Task} {x : Object} (member : x ∈ task.modified) : x ∈ task.used := by
  obtain ⟨this, rest, point⟩ := task
  cases rest with
  | take other move => cases move <;> simp_all [Task.modified, Task.used]
  | write p => exact member
  | leave => exact member

theorem other_used {task : Task} {other : Object} {move : Bool} (taking : task.rest = .take other move) :
    other ∈ task.used := by
  simp [Task.used, taking]

theorem other_modified {task : Task} {other : Object} (taking : task.rest = .take other true) :
    other ∈ task.modified := by
  simp [Task.modified, taking]

theorem TaskOk.frame {cells cells' : Object → Cell} {holding holding' : Object → Option Nat} {task : Task}
    (ok : TaskOk cells holding task) (sameCells : ∀ x ∈ task.used, cells' x = cells x)
    (sameHolding : ∀ x ∈ task.used, holding' x = holding x) : TaskOk cells' holding' task := by
  obtain ⟨this, rest, point⟩ := task
  have thisCell := sameCells this (this_used _)
  have thisHolding := sameHolding this (this_used _)
  have same : TaskOk cells' holding' ⟨this, rest, point⟩ ↔ TaskOk cells holding ⟨this, rest, point⟩ := by
    cases rest with
    | take other move =>
        have otherCell := sameCells other (other_used rfl)
        have otherHolding := sameHolding other (other_used rfl)
        cases point <;> cases move <;>
          simp only [TaskOk, Ready, Settled, thisCell, thisHolding, otherCell, otherHolding]
    | write p => cases point <;> simp only [TaskOk, Ready, Settled, thisCell, thisHolding]
    | leave => cases point <;> simp only [TaskOk, Ready, Settled, thisCell, thisHolding]
  exact same.mpr ok

variable {Thread : Type}

structure Fields (holding : Object → Option Nat) (s : State Thread) : Prop where
  distinct : s.live.Nodup
  used : ∀ thread task, s.threads thread = some task → ∀ x ∈ task.used, x ∈ s.live
  another : ∀ thread task other move, s.threads thread = some task → task.rest = .take other move →
    other ≠ task.this
  apart : ∀ thread other task task', thread ≠ other → s.threads thread = some task →
    s.threads other = some task' → Compatible task task'
  outside : ∀ x, x ∉ s.live → holding x = none
  settled : ∀ x ∈ s.live, (∀ thread task, s.threads thread = some task → x ∉ task.modified) →
    Settled s.cells holding x
  tasks : ∀ thread task, s.threads thread = some task → TaskOk s.cells holding task

structure OwnStep (s s' : State Thread) (thread : Thread) (task : Task) : Prop where
  here : s.threads thread = some task
  threads : ∀ other, other ≠ thread → s'.threads other = s.threads other
  cells : ∀ x, x ∉ task.modified → s'.cells x = s.cells x

theorem Fields.not_modified {holding : Object → Option Nat} {s : State Thread} (fields : Fields holding s)
    {thread other : Thread} {task task' : Task} (different : other ≠ thread) (here : s.threads thread = some task)
    (there : s.threads other = some task') {x : Object} (uses : x ∈ task'.used) : x ∉ task.modified := by
  intro modifies
  exact (fields.apart thread other task task' different.symm here there).1 x modifies uses

theorem Fields.advance {holding holding' : Object → Option Nat} {s s' : State Thread} {thread : Thread}
    {task : Task} {point : Point} (fields : Fields holding s) (own : OwnStep s s' thread task)
    (live : s'.live = s.live) (goes : s'.threads thread = some { task with point := point })
    (same : ∀ x, x ∉ task.modified → holding' x = holding x)
    (ok : TaskOk s'.cells holding' { task with point := point }) : Fields holding' s' := by
  have before : ∀ t task', s'.threads t = some task' →
      ∃ old, s.threads t = some old ∧ old.this = task'.this ∧ old.rest = task'.rest ∧
        old.used = task'.used ∧ old.modified = task'.modified := by
    intro t task' there
    by_cases mine : t = thread
    · subst mine
      rw [goes, Option.some.injEq] at there
      subst there
      exact ⟨task, own.here, rfl, rfl, rfl, rfl⟩
    · rw [own.threads t mine] at there
      exact ⟨task', there, rfl, rfl, rfl, rfl⟩
  exact
    { distinct := by
        rw [live]
        exact fields.distinct
      used := by
        intro t task' there x uses
        obtain ⟨old, was, -, -, sameUsed, -⟩ := before t task' there
        rw [live]
        exact fields.used t old was x (sameUsed ▸ uses)
      another := by
        intro t task' other move there taking
        obtain ⟨old, was, sameThis, sameRest, -, -⟩ := before t task' there
        rw [← sameThis]
        exact fields.another t old other move was (sameRest.trans taking)
      apart := by
        intro t t' a b different there there'
        obtain ⟨oldA, wasA, -, -, usedA, modifiedA⟩ := before t a there
        obtain ⟨oldB, wasB, -, -, usedB, modifiedB⟩ := before t' b there'
        have compatible := fields.apart t t' oldA oldB different wasA wasB
        rw [Compatible, usedA, modifiedA, usedB, modifiedB] at compatible
        exact compatible
      outside := by
        intro x notLive
        rw [live] at notLive
        rw [same x fun modifies => notLive (fields.used thread task own.here x (modified_used modifies))]
        exact fields.outside x notLive
      settled := by
        intro x isLive free
        rw [live] at isLive
        have free' := free thread _ goes
        have untouched : x ∉ task.modified := free'
        have old := fields.settled x isLive fun t old was => by
          by_cases mine : t = thread
          · subst mine
            rw [own.here, Option.some.injEq] at was
            exact was ▸ untouched
          · rw [← own.threads t mine] at was
            exact free t old was
        rw [Settled, own.cells x untouched, same x untouched]
        exact old
      tasks := by
        intro t task' there
        by_cases mine : t = thread
        · subst mine
          rw [goes, Option.some.injEq] at there
          exact there ▸ ok
        · rw [own.threads t mine] at there
          refine (fields.tasks t task' there).frame ?_ ?_
          · intro x uses
            exact own.cells x (fields.not_modified mine own.here there uses)
          · intro x uses
            exact same x (fields.not_modified mine own.here there uses) }

theorem Fields.finish {holding holding' : Object → Option Nat} {s s' : State Thread} {thread : Thread}
    {task : Task} (fields : Fields holding s) (own : OwnStep s s' thread task) (gone : s'.threads thread = none)
    (distinct : s'.live.Nodup) (fewer : ∀ x ∈ s'.live, x ∈ s.live)
    (stays : ∀ x ∈ s.live, x ∉ s'.live → x = task.this ∧ holding' x = none)
    (same : ∀ x, x ∉ task.modified → holding' x = holding x)
    (settled : ∀ x ∈ task.modified, x ∈ s'.live → Settled s'.cells holding' x) : Fields holding' s' := by
  have others : ∀ t task', s'.threads t = some task' → t ≠ thread ∧ s.threads t = some task' := by
    intro t task' there
    have different : t ≠ thread := by
      rintro rfl
      rw [gone] at there
      cases there
    exact ⟨different, (own.threads t different).symm.trans there⟩
  exact
    { distinct := distinct
      used := by
        intro t task' there x uses
        obtain ⟨different, was⟩ := others t task' there
        have isLive := fields.used t task' was x uses
        by_contra notLive
        obtain ⟨rfl, -⟩ := stays x isLive notLive
        exact fields.not_modified different own.here was uses (this_modified task)
      another := by
        intro t task' other move there taking
        exact fields.another t task' other move (others t task' there).2 taking
      apart := by
        intro t t' a b different there there'
        exact fields.apart t t' a b different (others t a there).2 (others t' b there').2
      outside := by
        intro x notLive
        by_cases wasLive : x ∈ s.live
        · exact (stays x wasLive notLive).2
        · rw [same x fun modifies => wasLive (fields.used thread task own.here x (modified_used modifies))]
          exact fields.outside x wasLive
      settled := by
        intro x isLive free
        by_cases mine : x ∈ task.modified
        · exact settled x mine isLive
        · have old := fields.settled x (fewer x isLive) fun t old was => by
            by_cases here : t = thread
            · subst here
              rw [own.here, Option.some.injEq] at was
              exact was ▸ mine
            · rw [← own.threads t here] at was
              exact free t old was
          rw [Settled, own.cells x mine, same x mine]
          exact old
      tasks := by
        intro t task' there
        obtain ⟨different, was⟩ := others t task' there
        refine (fields.tasks t task' was).frame ?_ ?_
        · intro x uses
          exact own.cells x (fields.not_modified different own.here was uses)
        · intro x uses
          exact same x (fields.not_modified different own.here was uses) }

end CppInfra.AtomicLock.SharedPtr
