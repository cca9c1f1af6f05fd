import CppInfra.Shared.Dispatch
import CppInfra.Timer.MinHeapFrame

set_option autoImplicit false

namespace CppInfra.Timer.MhTimer

open MinHeap BinaryHeap Words Transition Dispatch

-- The global heap and the memory of the entries, which are numbered as `malloc` hands them out. An entry's
-- handler is what the changes made while it is handled say.
structure Timers where
  heap : Heap Nat
  allocated : Nat
  freed : List Nat

def initTimer : Timers := { heap := minHeapCtor (fun _ => 0) fun _ => 0, allocated := 0, freed := [] }

-- `free(te)`, undefined for an entry that is free already.
def Timers.free (t : Timers) (te : Nat) : Option Timers :=
  if te ∈ t.freed then none else some { t with freed := t.freed ++ [te] }

def Timers.newEntry (t : Timers) (time : Nat) : Heap Nat :=
  { t.heap with
    time := Function.update t.heap.time t.allocated time
    minHeapIdx := Function.update t.heap.minHeapIdx t.allocated 0 }

def addTimer (t : Timers) (msec currentTime : Nat) (malloc realloc : Bool) : Option (Option Nat × Timers) :=
  if malloc then do
    let te := t.allocated
    let (code, heap) ← minHeapPush (t.newEntry (add 32 currentTime msec)) te realloc
    let t := { t with heap := heap, allocated := te + 1 }
    if code ≠ 0 then do
      let t ← t.free te
      some (none, t)
    else some (some te, t)
  else some (none, t)

def delTimer (t : Timers) (e : Nat) : Option (Bool × Timers) := do
  if e ∈ t.freed then none
  else
    let (code, heap) ← minHeapErase t.heap e
    some (decide (code = 0), { t with heap := heap })

inductive Change where
  | addTimer (msec currentTime : Nat) (malloc realloc : Bool)
  | delTimer (e : Nat)
  deriving DecidableEq, Repr

def change (t : Timers) : Change → Option Timers
  | .addTimer msec currentTime malloc realloc => (addTimer t msec currentTime malloc realloc).map Prod.snd
  | .delTimer e => (delTimer t e).map Prod.snd

-- `min_heap_top_`, whose result is dereferenced at once.
def top (t : Timers) : Option (Option Nat) :=
  match minHeapTop t.heap with
  | none => some none
  | some te => if te ∈ t.freed then none else some (some te)

-- `min_heap_pop_(&min_heap); free(te);`
def popAndFree (t : Timers) (te : Nat) : Option Timers := do
  let (_, heap) ← minHeapPop t.heap
  Timers.free { t with heap := heap } te

-- The loop of `expire_timer`, with what the handlers do between `look` and `finish`.
def expireTimer : Operations Timers Nat Change where
  top := top
  key t te := t.heap.time te
  remove := popAndFree
  change := change
  pending t := t.heap.content

structure Stored (t : Timers) : Prop where
  sound : Sound t.heap
  live : ∀ x ∈ t.freed, x ∉ t.heap.content
  words : ∀ x ∈ t.heap.content, t.heap.time x < 2 ^ 32

structure Good (t : Timers) : Prop extends Stored t where
  small : t.heap.n < 2 ^ 31
  known : ∀ x ∈ t.heap.content, x < t.allocated
  freed : ∀ x ∈ t.freed, x < t.allocated

-- There is room in the heap, and a handler neither deletes the timer it handles nor adds an earlier one.
def allowed (t : Timers) (handled : List Nat) : Change → Prop
  | .addTimer msec currentTime _ _ =>
      t.heap.n + 1 < 2 ^ 31 ∧ ∀ x ∈ handled, t.heap.time x ≤ add 32 currentTime msec
  | .delTimer e => e ∈ t.heap.content ∧ e ∉ handled

instance allowedDecidable (t : Timers) (handled : List Nat) (a : Change) : Decidable (allowed t handled a) := by
  cases a <;> unfold allowed <;> infer_instance

variable {t : Timers} {x : Nat}

theorem initTimer_good : Good initTimer where
  sound := (initial_inv (fun _ => 0) fun _ => 0).sound
  live := by simp [initTimer]
  words := by simp [initTimer, minHeapCtor, Heap.content, stored]
  small := by decide
  known := by simp [initTimer, minHeapCtor, Heap.content, stored]
  freed := by simp [initTimer]

theorem Stored.root_mem (stored : Stored t) (nonempty : t.heap.n ≠ 0) :
    ∃ x ∈ t.heap.content, t.heap.p 0 = some x ∧ top t = some (some x) := by
  obtain ⟨x, root⟩ := stored.sound.full 0 (by omega)
  have member : x ∈ t.heap.content := mem_stored.mpr ⟨0, by omega, root⟩
  have size := stored.sound.size
  have loaded := Heap.load_some (show 0 < t.heap.a by omega) root
  have live : x ∉ t.freed := fun freed => stored.live x freed member
  exact ⟨x, member, root, by simp [top, minHeapTop, nonempty, loaded, live]⟩

theorem Stored.top_root (stored : Stored t) (isTop : top t = some (some x)) :
    t.heap.n ≠ 0 ∧ x ∈ t.heap.content ∧ t.heap.p 0 = some x := by
  by_cases empty : t.heap.n = 0
  · simp [top, minHeapTop, empty] at isTop
  · obtain ⟨y, member, root, same⟩ := stored.root_mem empty
    obtain rfl : y = x := by
      rw [same] at isTop
      simpa using isTop
    exact ⟨empty, member, root⟩

theorem Stored.top_of_root (stored : Stored t) (root : t.heap.p 0 = some x) (nonempty : t.heap.n ≠ 0) :
    top t = some (some x) := by
  obtain ⟨y, -, same, isTop⟩ := stored.root_mem nonempty
  obtain rfl := Option.some.inj (root.symm.trans same)
  exact isTop

theorem popAndFree_spec (good : Good t) (isTop : top t = some (some x)) :
    ∃ next, popAndFree t x = some next ∧ Good next ∧ (x :: next.heap.content).Perm t.heap.content ∧
      next.heap.time = t.heap.time ∧ next.allocated = t.allocated ∧ next.freed = t.freed ++ [x] := by
  obtain ⟨nonempty, member, root⟩ := good.top_root isTop
  obtain ⟨e, heap, popped, sameRoot, removed⟩ := pop_spec good.sound good.small nonempty
  obtain rfl : x = e := Option.some.inj (root.symm.trans sameRoot)
  have live : x ∉ t.freed := fun freed => good.live x freed member
  have time := pop_time popped
  have inside (y : Nat) (stays : y ∈ heap.content) : y ∈ t.heap.content :=
    removed.content.mem_iff.mp (List.mem_cons_of_mem x stays)
  have gone : x ∉ heap.content := (List.nodup_cons.mp (removed.content.nodup_iff.mpr good.sound.distinct)).1
  refine ⟨{ t with heap := heap, freed := t.freed ++ [x] }, by simp [popAndFree, popped, Timers.free, live], ?_,
    removed.content, time, rfl, rfl⟩
  have shorter : heap.n < 2 ^ 31 := by
    have lengths := removed.content.length_eq
    rw [List.length_cons, removed.sound.content_length, good.sound.content_length] at lengths
    have small := good.small
    omega
  refine ⟨⟨removed.sound, ?_, ?_⟩, shorter, fun y stays => good.known y (inside y stays), ?_⟩
  · intro y freed
    rcases List.mem_append.mp freed with early | last
    · exact fun stays => good.live y early (inside y stays)
    · rw [List.mem_singleton.mp last]
      exact gone
  · intro y stays
    rw [time]
    exact good.words y (inside y stays)
  · intro y freed
    rcases List.mem_append.mp freed with early | last
    · exact good.freed y early
    · rw [List.mem_singleton.mp last]
      exact good.known x member

theorem Good.fresh (good : Good t) : t.allocated ∉ t.heap.content :=
  fun member => absurd (good.known _ member) (Nat.lt_irrefl _)

theorem Good.newEntry_sound (good : Good t) (time : Nat) : Sound (t.newEntry time) := by
  have other (i : Nat) (y : Nat) (inside : i < t.heap.n) (at_ : t.heap.p i = some y) : y ≠ t.allocated := by
    rintro rfl
    exact good.fresh (mem_stored.mpr ⟨i, inside, at_⟩)
  have timed := good.sound.setTime good.fresh time
  refine ⟨?_, timed.ordered, good.sound.size, good.sound.word⟩
  intro i inside
  obtain ⟨y, at_, index⟩ := good.sound.entries i inside
  exact ⟨y, at_, (Function.update_of_ne (other i y inside at_) ..).trans index⟩

structure Added (t : Timers) (time : Nat) (result : Option Nat) (next : Timers) : Prop where
  good : Good next
  fresh : ∀ y ∈ next.heap.content, y ∈ t.heap.content ∨ y = t.allocated
  kept : ∀ y ∈ t.heap.content, y ∈ next.heap.content
  times : ∀ y < t.allocated, next.heap.time y = t.heap.time y
  allocated : t.allocated ≤ next.allocated
  new : ∀ te, result = some te → te = t.allocated ∧ te ∈ next.heap.content ∧ next.heap.time te = time
  root : ∀ x, t.heap.n ≠ 0 → t.heap.p 0 = some x → t.heap.time x ≤ time → next.heap.p 0 = some x

theorem addTimer_spec (good : Good t) (room : t.heap.n + 1 < 2 ^ 31) (msec currentTime : Nat)
    (malloc realloc : Bool) :
    ∃ result next, addTimer t msec currentTime malloc realloc = some (result, next) ∧
      Added t (add 32 currentTime msec) result next := by
  cases malloc with
  | false =>
      refine ⟨none, t, rfl, good, fun y member => .inl member, fun y member => member, fun _ _ => rfl,
        Nat.le_refl _, by simp, fun x _ root _ => root⟩
  | true =>
      have sound := good.newEntry_sound (add 32 currentTime msec)
      have old (y : Nat) (early : y < t.allocated) :
          (t.newEntry (add 32 currentTime msec)).time y = t.heap.time y :=
        Function.update_of_ne (Nat.ne_of_lt early) ..
      have new : (t.newEntry (add 32 currentTime msec)).time t.allocated = add 32 currentTime msec :=
        Function.update_self ..
      have rootOld (x : Nat) (nonempty : t.heap.n ≠ 0) (root : t.heap.p 0 = some x) :
          (t.newEntry (add 32 currentTime msec)).time x = t.heap.time x :=
        old x (good.known x (mem_stored.mpr ⟨0, by omega, root⟩))
      rcases push_spec sound (show t.heap.n + 1 < 2 ^ 32 by omega) good.fresh realloc with
        failed | ⟨heap, pushed, outcome⟩
      · -- The entry is freed again.
        have live : t.allocated ∉ t.freed := fun freed => absurd (good.freed _ freed) (Nat.lt_irrefl _)
        refine ⟨none, ⟨t.newEntry (add 32 currentTime msec), t.allocated + 1, t.freed ++ [t.allocated]⟩,
          by simp [addTimer, failed, Timers.free, live], ?_, fun y member => .inl member,
          fun y member => member, old, Nat.le_succ _, by simp, fun x _ root _ => root⟩
        refine ⟨⟨sound, ?_, ?_⟩, good.small, fun y member => Nat.lt_succ_of_lt (good.known y member), ?_⟩
        · intro y freed
          rcases List.mem_append.mp freed with early | last
          · exact good.live y early
          · rw [List.mem_singleton.mp last]
            exact good.fresh
        · intro y member
          rw [old y (good.known y member)]
          exact good.words y member
        · intro y freed
          rcases List.mem_append.mp freed with early | last
          · exact Nat.lt_succ_of_lt (good.freed y early)
          · rw [List.mem_singleton.mp last]
            exact Nat.lt_succ_self _
      · have time := push_time pushed
        have content := outcome.content
        have members (y : Nat) : y ∈ heap.content ↔ y = t.allocated ∨ y ∈ t.heap.content := by
          rw [content.mem_iff, List.mem_cons]
          rfl
        have small : heap.n < 2 ^ 31 := by
          have lengths := content.length_eq
          rw [List.length_cons, outcome.sound.content_length, sound.content_length] at lengths
          rw [lengths]
          exact room
        refine ⟨some t.allocated, { t with heap := heap, allocated := t.allocated + 1 },
          by simp [addTimer, pushed], ⟨⟨outcome.sound, ?_, ?_⟩, small, ?_, ?_⟩, ?_, ?_, ?_, Nat.le_succ _, ?_, ?_⟩
        · intro y freed member
          exact ((members y).mp member).elim (Nat.ne_of_lt (good.freed y freed)) (good.live y freed)
        · intro y member
          rw [congrFun time y]
          rcases (members y).mp member with rfl | before
          · rw [new]
            exact add_lt 32 _ _
          · rw [old y (good.known y before)]
            exact good.words y before
        · intro y member
          rcases (members y).mp member with rfl | before
          · exact Nat.lt_succ_self _
          · exact Nat.lt_succ_of_lt (good.known y before)
        · intro y freed
          exact Nat.lt_succ_of_lt (good.freed y freed)
        · intro y member
          exact ((members y).mp member).symm
        · intro y member
          exact (members y).mpr (.inr member)
        · intro y early
          exact (congrFun time y).trans (old y early)
        · rintro te ⟨⟩
          exact ⟨rfl, (members _).mpr (.inl rfl), (congrFun time _).trans new⟩
        · intro x nonempty root order
          have later : (t.newEntry (add 32 currentTime msec)).time x ≤
              (t.newEntry (add 32 currentTime msec)).time t.allocated := by
            rw [rootOld x nonempty root, new]
            exact order
          exact push_root (s := t.newEntry (add 32 currentTime msec)) (Nat.pos_of_ne_zero nonempty) root later pushed

structure Deleted (t : Timers) (e : Nat) (next : Timers) : Prop where
  good : Good next
  content : (e :: next.heap.content).Perm t.heap.content
  time : next.heap.time = t.heap.time
  allocated : next.allocated = t.allocated
  root : ∀ x, x ≠ e → t.heap.p 0 = some x → next.heap.p 0 = some x

theorem delTimer_spec (good : Good t) {e : Nat} (member : e ∈ t.heap.content) :
    ∃ next, delTimer t e = some (true, next) ∧ Deleted t e next := by
  obtain ⟨heap, erased, removed⟩ := erase_spec good.sound good.small member
  have live : e ∉ t.freed := fun freed => good.live e freed member
  have time := erase_time erased
  have inside (y : Nat) (stays : y ∈ heap.content) : y ∈ t.heap.content :=
    removed.content.mem_iff.mp (List.mem_cons_of_mem e stays)
  have shorter : heap.n < 2 ^ 31 := by
    have lengths := removed.content.length_eq
    rw [List.length_cons, removed.sound.content_length, good.sound.content_length] at lengths
    have small := good.small
    omega
  refine ⟨{ t with heap := heap }, by simp [delTimer, live, erased], ?_, removed.content, time, rfl, ?_⟩
  · refine ⟨⟨removed.sound, fun y freed stays => good.live y freed (inside y stays), ?_⟩, shorter,
      fun y stays => good.known y (inside y stays), good.freed⟩
    intro y stays
    rw [time]
    exact good.words y (inside y stays)
  · intro x other root
    exact erase_root good.sound good.small member root (Ne.symm other) erased

end CppInfra.Timer.MhTimer
