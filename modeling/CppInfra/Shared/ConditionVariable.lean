import Mathlib.Data.List.Nodup

set_option autoImplicit false

-- The threads that were notified or woke up by themselves have not taken the mutex again yet.
namespace CppInfra.ConditionVariable

structure Condition (Thread : Type) where
  waiting : List Thread
  notified : List Thread
  woken : List Thread
  deriving DecidableEq

variable {Thread : Type} [DecidableEq Thread]

namespace Condition

def empty : Condition Thread := { waiting := [], notified := [], woken := [] }

def inside (c : Condition Thread) : List Thread := c.waiting ++ (c.notified ++ c.woken)

def wait (c : Condition Thread) (thread : Thread) : Condition Thread := { c with waiting := thread :: c.waiting }

-- One thread of the wait set, if there is one; which one is not ours to choose.
def notifyOne (c : Condition Thread) : Option Thread → Option (Condition Thread)
  | none => if c.waiting = [] then some c else none
  | some thread =>
      if thread ∈ c.waiting then
        some { c with waiting := c.waiting.erase thread, notified := thread :: c.notified }
      else none

def notifyAll (c : Condition Thread) : Condition Thread :=
  { c with waiting := [], notified := c.waiting ++ c.notified }

def wakeUp (c : Condition Thread) (thread : Thread) : Option (Condition Thread) :=
  if thread ∈ c.waiting then
    some { c with waiting := c.waiting.erase thread, woken := thread :: c.woken }
  else none

def resume (c : Condition Thread) (thread : Thread) : Option (Condition Thread) :=
  if thread ∈ c.notified then some { c with notified := c.notified.erase thread }
  else if thread ∈ c.woken then some { c with woken := c.woken.erase thread }
  else none

end Condition

theorem notifyOne_cases {c d : Condition Thread} {choice : Option Thread} (moved : c.notifyOne choice = some d) :
    (c.waiting = [] ∧ d = c) ∨
      ∃ thread ∈ c.waiting, d = { c with waiting := c.waiting.erase thread, notified := thread :: c.notified } := by
  cases choice with
  | none =>
      rw [Condition.notifyOne] at moved
      split at moved
      · exact .inl ⟨‹_›, (Option.some.inj moved).symm⟩
      · cases moved
  | some thread =>
      rw [Condition.notifyOne] at moved
      split at moved
      · exact .inr ⟨thread, ‹_›, (Option.some.inj moved).symm⟩
      · cases moved

theorem wakeUp_cases {c d : Condition Thread} {thread : Thread} (moved : c.wakeUp thread = some d) :
    thread ∈ c.waiting ∧ d = { c with waiting := c.waiting.erase thread, woken := thread :: c.woken } := by
  rw [Condition.wakeUp] at moved
  split at moved
  · exact ⟨‹_›, (Option.some.inj moved).symm⟩
  · cases moved

theorem resume_cases {c d : Condition Thread} {thread : Thread} (moved : c.resume thread = some d) :
    (thread ∈ c.notified ∧ d = { c with notified := c.notified.erase thread }) ∨
      (thread ∈ c.woken ∧ d = { c with woken := c.woken.erase thread }) := by
  rw [Condition.resume] at moved
  split at moved
  · exact .inl ⟨‹_›, (Option.some.inj moved).symm⟩
  · split at moved
    · exact .inr ⟨‹_›, (Option.some.inj moved).symm⟩
    · cases moved

-- As long as somebody sleeps, every one of `work` items has a notified thread of its own.
def Accounted (c : Condition Thread) (work : Nat) : Prop := c.waiting ≠ [] → work ≤ c.notified.length

namespace Accounted

variable {c d : Condition Thread} {thread : Thread} {choice : Option Thread} {work less : Nat}

omit [DecidableEq Thread] in
theorem fewer (accounted : Accounted c work) (fewer : less ≤ work) : Accounted c less :=
  fun sleeping => Nat.le_trans fewer (accounted sleeping)

omit [DecidableEq Thread] in
theorem of_wait : Accounted (c.wait thread) 0 := fun _ => Nat.zero_le _

omit [DecidableEq Thread] in
theorem of_notifyAll : Accounted c.notifyAll work := fun sleeping => absurd rfl sleeping

theorem of_notifyOne (accounted : Accounted c work) (moved : c.notifyOne choice = some d) :
    Accounted d (work + 1) := by
  obtain ⟨nobody, rfl⟩ | ⟨thread, member, rfl⟩ := notifyOne_cases moved
  · exact fun sleeping => absurd nobody sleeping
  · intro _
    have before := accounted (List.ne_nil_of_mem member)
    exact Nat.succ_le_succ before

theorem of_wakeUp (accounted : Accounted c work) (moved : c.wakeUp thread = some d) : Accounted d work := by
  obtain ⟨member, rfl⟩ := wakeUp_cases moved
  intro _
  exact accounted (List.ne_nil_of_mem member)

theorem of_resume (accounted : Accounted c work) (moved : c.resume thread = some d) : Accounted d (work - 1) := by
  obtain ⟨member, rfl⟩ | ⟨-, rfl⟩ := resume_cases moved
  · intro sleeping
    have before := accounted sleeping
    have shorter := List.length_erase_of_mem member
    simp only [shorter]
    omega
  · exact accounted.fewer (Nat.sub_le ..)

end Accounted

variable {c d : Condition Thread} {thread : Thread} {choice : Option Thread}

theorem notifyOne_quiet (quiet : c.waiting = []) (moved : c.notifyOne choice = some d) : d.waiting = [] := by
  obtain ⟨-, rfl⟩ | ⟨thread, member, -⟩ := notifyOne_cases moved
  · exact quiet
  · rw [quiet] at member
    cases member

theorem wakeUp_quiet (quiet : c.waiting = []) (moved : c.wakeUp thread = some d) : d.waiting = [] := by
  obtain ⟨member, -⟩ := wakeUp_cases moved
  rw [quiet] at member
  cases member

theorem resume_waiting (moved : c.resume thread = some d) : d.waiting = c.waiting := by
  obtain ⟨-, rfl⟩ | ⟨-, rfl⟩ := resume_cases moved
  · rfl
  · rfl

theorem notifyOne_inside (moved : c.notifyOne choice = some d) : d.inside.Perm c.inside := by
  obtain ⟨-, rfl⟩ | ⟨thread, member, rfl⟩ := notifyOne_cases moved
  · exact .refl _
  · have front := (List.perm_cons_erase member).append_right (c.notified ++ c.woken)
    exact List.perm_middle.trans front.symm

theorem wakeUp_inside (moved : c.wakeUp thread = some d) : d.inside.Perm c.inside := by
  obtain ⟨member, rfl⟩ := wakeUp_cases moved
  have front := (List.perm_cons_erase member).append_right (c.notified ++ c.woken)
  have back : (c.notified ++ thread :: c.woken).Perm (thread :: (c.notified ++ c.woken)) := List.perm_middle
  exact (back.append_left _).trans (List.perm_middle.trans front.symm)

omit [DecidableEq Thread] in
theorem notifyAll_inside (c : Condition Thread) : c.notifyAll.inside = c.inside := by
  simp [Condition.notifyAll, Condition.inside]

theorem resume_inside (moved : c.resume thread = some d) : c.inside.Perm (thread :: d.inside) := by
  obtain ⟨member, rfl⟩ | ⟨member, rfl⟩ := resume_cases moved
  · have front := ((List.perm_cons_erase member).append_right c.woken).append_left c.waiting
    exact front.trans List.perm_middle
  · have front := ((List.perm_cons_erase member).append_left c.notified).append_left c.waiting
    exact front.trans ((List.perm_middle.append_left _).trans List.perm_middle)

theorem notifyOne_single (single : c.waiting.length ≤ 1) (moved : c.notifyOne choice = some d) : d.waiting = [] := by
  obtain ⟨nobody, rfl⟩ | ⟨thread, member, rfl⟩ := notifyOne_cases moved
  · exact nobody
  · apply List.eq_nil_of_length_eq_zero
    have shorter := List.length_erase_of_mem member
    simp only [shorter]
    omega

end CppInfra.ConditionVariable
