import CppInfra.Timer.TimeWheelStale
import CppInfra.Timer.TimeWheelBits

set_option autoImplicit false

namespace CppInfra.Timer.TimeWheel.Memory

open Words Transition DisjointLists TailedLists

variable {P : Type}

def Walker.current : Walker → Option Nat
  | .idle => none
  | .dispatching _ _ current => current

structure Sound (s : STimer P) (slots : Slot → List Nat) (walks : P → List Nat) : Prop where
  linked : Represents s.links slots
  walked : ∀ p, Detached s.links (s.walkers p).current (walks p)
  scattered : Scattered slots
  apart : Scattered walks
  unlinked : ∀ p x, x ∈ walks p → ∀ slot, x ∉ slots slot
  known : ∀ slot x, x ∈ slots slot → x < s.allocated
  walking : ∀ p x, x ∈ walks p → x < s.allocated

variable {s : STimer P} {slots : Slot → List Nat} {walks : P → List Nat}

theorem timerCreateTimer_sound : Sound (timerCreateTimer : STimer P) (fun _ => []) fun _ => [] where
  linked := fun _ => ⟨rfl, rfl⟩
  walked := fun _ => rfl
  scattered := Scattered.empty
  apart := Scattered.empty
  unlinked := by simp
  known := by simp
  walking := by simp

theorem Sound.fresh (sound : Sound s slots walks) (slot : Slot) : s.allocated ∉ slots slot :=
  fun member => Nat.lt_irrefl _ (sound.known slot _ member)

theorem Sound.length_le (sound : Sound s slots walks) (slot : Slot) : (slots slot).length ≤ s.allocated :=
  length_le_of_below (sound.scattered.distinct slot) (sound.known slot)

def cascaded (s : STimer P) (slots : Slot → List Nat) (ct level idx : Nat) : Slot → List Nat :=
  deal slots (.t level idx) (slots (.t level idx)) [] fun x => slotOf (s.expire x) ct

def shiftedSlots (s : STimer P) (slots : Slot → List Nat) : Slot → List Nat :=
  match movedSlot (add 32 s.time 1) with
  | some (some (level, idx)) => cascaded s slots (add 32 s.time 1) level idx
  | _ => slots

theorem Sound.moveList (sound : Sound s slots walks) (level idx : Nat) :
    ∃ links, moveList s level idx = some { s with links := links } ∧
      Sound { s with links := links } (cascaded s slots s.time level idx) walks := by
  obtain ⟨cleared, detached⟩ := sound.linked.linkClear (.t level idx)
  have split : slots (.t level idx) = slots (.t level idx) ++ [] := by simp
  obtain ⟨links, ended, lists, frame⟩ := cleared.relink (s.allocated + 1) (sound.scattered.rest split) detached
    (sound.scattered.distinct _) (fun x member other => sound.scattered.dealt_absent split member other)
    (Nat.lt_succ_of_le (sound.length_le _))
  have moved : relink (fun x => slotOf (s.expire x) s.time) (s.allocated + 1) _ _ = some links := ended
  rw [foldl_put] at lists
  refine ⟨links, by simp only [Memory.moveList, moved, Option.map_some], ?_⟩
  constructor
  case linked => exact lists
  case walked =>
    intro p
    apply (sound.walked p).congr
    intro x walked
    have away := sound.unlinked p x walked
    rw [frame x (away _) fun slot member => away slot (mem_update_split split member), linkClear_node]
  case scattered => exact sound.scattered.deal _ split
  case apart => exact sound.apart
  case unlinked =>
    intro p x walked slot member
    obtain ⟨old, inside⟩ := (exists_mem_deal split).mp ⟨slot, member⟩
    exact sound.unlinked p x walked old inside
  case known =>
    intro slot x member
    obtain ⟨old, inside⟩ := (exists_mem_deal split).mp ⟨slot, member⟩
    exact sound.known old x inside
  case walking => exact sound.walking

theorem timerShift_movedSlot (s : STimer P) :
    timerShift s = (movedSlot (add 32 s.time 1)).bind fun
      | none => some (ticked s)
      | some (level, idx) => Memory.moveList (ticked s) level idx := by
  rw [timerShift_eq, movedSlot]
  split_ifs
  · rfl
  · rfl

theorem Sound.ticked (sound : Sound s slots walks) : Sound (ticked s) slots walks := { sound with }

theorem Sound.timerShift (sound : Sound s slots walks) :
    ∃ links, timerShift s = some { Memory.ticked s with links := links } ∧
      Sound { Memory.ticked s with links := links } (shiftedSlots s slots) walks := by
  rw [timerShift_movedSlot, shiftedSlots]
  rcases movedSlot_spec (add_lt 32 s.time 1) with ⟨level, j, found, -⟩ | ⟨found, -⟩
  · rw [found]
    exact sound.ticked.moveList level j
  · rw [found]
    exact ⟨s.links, rfl, sound.ticked⟩

theorem Sound.scribble (sound : Sound s slots walks) {x : Nat} (link : Option Nat) (free : ∀ slot, x ∉ slots slot)
    (idle : ∀ p, x ∉ walks p) :
    Sound { s with links := { s.links with next := Function.update s.links.next (.node x) link } } slots walks := by
  refine { sound with linked := sound.linked.scribble link free, walked := ?_ }
  intro p
  apply (sound.walked p).congr
  intro y member
  have other : (Ptr.node y : Ptr Slot Nat) ≠ .node x := by
    intro same
    cases same
    exact idle p member
  exact Function.update_of_ne other _ _

theorem Sound.done (sound : Sound s slots walks) {p : P} (stands : (s.walkers p).current = none) : walks p = [] := by
  have walked := sound.walked p
  rw [stands] at walked
  cases content : walks p with
  | nil => rfl
  | cons x rest =>
      rw [content] at walked
      cases walked.1

structure Stays (s t : STimer P) (slots after : Slot → List Nat) : Prop where
  time : t.time = s.time
  ticks : t.ticks = s.ticks
  expire : ∀ x < s.allocated, t.expire x = s.expire x
  levels : ∀ level j x, x ∈ slots (.t level j) → x ∈ after (.t level j)

theorem Sound.linkTo (sound : Sound s slots walks) (stale : Option Nat) (slot : Slot) :
    Sound
      { s with
        links := linkTo { s.links with next := Function.update s.links.next (.node s.allocated) stale } slot s.allocated
        allocated := s.allocated + 1 }
      (put slots slot s.allocated) walks := by
  have idle : ∀ p x, x ∈ walks p → x ≠ s.allocated := fun p x member => Nat.ne_of_lt (sound.walking p x member)
  rw [linkTo_overwrites _ _ _ stale (s.links.next (.node s.allocated)), Function.update_eq_self]
  constructor
  case linked => exact sound.linked.linkTo sound.scattered slot sound.fresh
  case walked =>
    intro p
    apply (sound.walked p).congr
    intro x member
    exact sound.linked.linkTo_next slot (idle p x member) (sound.unlinked p x member)
  case scattered => exact sound.scattered.put sound.fresh
  case apart => exact sound.apart
  case unlinked =>
    intro p x walked other member
    rcases mem_put.mp member with old | ⟨-, same⟩
    · exact sound.unlinked p x walked other old
    · exact idle p x walked same
  case known =>
    intro other x member
    rcases mem_put.mp member with old | ⟨-, rfl⟩
    · exact Nat.lt_succ_of_lt (sound.known other x old)
    · exact Nat.lt_succ_self _
  case walking => exact fun p x member => Nat.lt_succ_of_lt (sound.walking p x member)

theorem Sound.addTimer (sound : Sound s slots walks) (memory : TimerNode) (time : Int) (func : Nat) (threadid : Int) :
    ∃ after, Sound (addTimer s memory time func threadid) after walks ∧
      Stays s (addTimer s memory time func threadid) slots after := by
  have older : ∀ x < s.allocated, x ≠ s.allocated := fun x below => Nat.ne_of_lt below
  by_cases atOnce : time ≤ 0
  · rw [Memory.addTimer, if_pos atOnce]
    refine ⟨slots, ?_, rfl, rfl, ?_, fun _ _ _ => id⟩
    · have written := sound.scribble none sound.fresh fun p member => Nat.lt_irrefl _ (sound.walking p _ member)
      simp only [malloc, free, Function.update_idem]
      exact
        { written with
          known := fun slot x member => Nat.lt_succ_of_lt (sound.known slot x member)
          walking := fun p x member => Nat.lt_succ_of_lt (sound.walking p x member) }
    · intro x below
      simp [malloc, free, Function.update_of_ne (older x below)]
  · rw [Memory.addTimer, if_neg atOnce]
    have linked := sound.linkTo memory.next (slotOf ((time + s.time) % 2 ^ 32).toNat s.time)
    refine ⟨put slots (slotOf ((time + s.time) % 2 ^ 32).toNat s.time) s.allocated, ?_, rfl, rfl, ?_, ?_⟩
    · simp only [malloc, addNode, Function.update_self]
      exact { linked with }
    · intro x below
      simp [malloc, addNode, Function.update_of_ne (older x below)]
    · exact fun level j x member => mem_put.mpr (.inl member)

variable [DecidableEq P]

theorem Sound.detach (sound : Sound s slots walks) (p : P) (shifted : Bool) (idx : Nat) :
    Sound (detach s p shifted idx) (Function.update slots (.near idx) [])
      (Function.update walks p (slots (.near idx))) := by
  obtain ⟨cleared, detached⟩ := sound.linked.linkClear (.near idx)
  have split : slots (.near idx) = slots (.near idx) ++ [] := by simp
  have other (q : P) (differ : q ≠ p) : (Memory.detach s p shifted idx).walkers q = s.walkers q :=
    Function.update_of_ne differ _ _
  constructor
  case linked => exact cleared
  case walked =>
    intro q
    by_cases same : q = p
    · subst same
      simpa [Memory.detach, STimer.setWalker, Walker.current] using detached
    · rw [Function.update_of_ne same, other q same]
      apply (sound.walked q).congr
      intro x _
      exact linkClear_node s.links (.near idx) x
  case scattered => exact sound.scattered.rest split
  case apart =>
    apply sound.apart.update (sound.scattered.distinct _)
    intro x member q _ walked
    exact sound.unlinked q x walked (.near idx) member
  case unlinked =>
    intro q x walked slot member
    by_cases same : q = p
    · rw [same, Function.update_self] at walked
      exact sound.scattered.dealt_absent split walked slot member
    · rw [Function.update_of_ne same] at walked
      exact sound.unlinked q x walked slot (mem_update_split split member)
  case known => exact fun slot x member => sound.known slot x (mem_update_split split member)
  case walking =>
    intro q x walked
    by_cases same : q = p
    · rw [same, Function.update_self] at walked
      exact sound.known (.near idx) x walked
    · rw [Function.update_of_ne same] at walked
      exact sound.walking q x walked

theorem Sound.setIdle (sound : Sound s slots walks) {p : P} (done : walks p = []) :
    Sound (s.setWalker p .idle) slots walks := by
  refine { sound with walked := ?_ }
  intro q
  by_cases same : q = p
  · subst same
    simp [STimer.setWalker, Walker.current, done, Detached]
  · simpa only [STimer.setWalker, Function.update_of_ne same] using sound.walked q

theorem detach_stays (s : STimer P) (slots : Slot → List Nat) (p : P) (shifted : Bool) (idx : Nat) :
    Stays s (detach s p shifted idx) slots (Function.update slots (.near idx) []) where
  time := rfl
  ticks := rfl
  expire := fun _ _ => rfl
  levels := by
    intro level j x member
    rwa [Function.update_of_ne (by simp)]

theorem Sound.executeShifted (sound : Sound s slots walks) {p : P} (done : walks p = []) (idx : Nat) :
    ∃ after others, Sound (executeShifted s p idx) after others ∧ Stays s (executeShifted s p idx) slots after := by
  rw [Memory.executeShifted]
  split_ifs
  · exact ⟨_, _, sound.detach p true idx, detach_stays s slots p true idx⟩
  · exact ⟨slots, walks, sound.setIdle done, rfl, rfl, fun _ _ => rfl, fun _ _ _ => id⟩

theorem Sound.dispatch (sound : Sound s slots walks) {p : P} {shifted : Bool} {idx temp : Nat}
    (at_ : s.walkers p = .dispatching shifted idx (some temp)) :
    ∃ others, Sound (dispatch s p shifted idx temp) slots others := by
  have walked := sound.walked p
  rw [at_] at walked
  cases content : walks p with
  | nil =>
      rw [content] at walked
      cases walked
  | cons x rest =>
      rw [content] at walked
      obtain ⟨here, behind⟩ := walked
      obtain rfl : temp = x := Option.some.inj here
      have split : walks p = [temp] ++ rest := content
      have inside : temp ∈ walks p := by simp [content]
      have gone : ∀ q, temp ∉ Function.update walks p rest q :=
        sound.apart.dealt_absent split (List.mem_singleton.mpr rfl)
      have walksOn : Sound (s.setWalker p (.dispatching shifted idx (s.links.next (.node temp)))) slots
          (Function.update walks p rest) := by
        constructor
        case linked => exact sound.linked
        case walked =>
          intro q
          by_cases same : q = p
          · subst same
            simpa [STimer.setWalker, Walker.current] using behind
          · simpa only [STimer.setWalker, Function.update_of_ne same] using sound.walked q
        case scattered => exact sound.scattered
        case apart => exact sound.apart.rest split
        case unlinked => exact fun q y member => sound.unlinked q y (mem_update_split split member)
        case known => exact sound.known
        case walking => exact fun q y member => sound.walking q y (mem_update_split split member)
      have freed := walksOn.scribble none (sound.unlinked p temp inside) gone
      exact ⟨_, { freed with }⟩

-- The state right after `timer_shift`, when `timer_execute` finds nothing to do first.
def shiftFirst (s : STimer P) (idx : Nat) : Option (STimer P) :=
  if s.links.next (.head (.near idx)) ≠ none then none else timerShift s

def shiftWithin (s : STimer P) : Event P → Option (STimer P)
  | .update p => if s.walkers p = .idle then shiftFirst s (s.time % 2 ^ 8) else none
  | .resume p =>
      match s.walkers p with
      | .dispatching false idx none => shiftFirst s idx
      | _ => none
  | _ => none

def Proceeds (s t : STimer P) (slots after : Slot → List Nat) (shifted : Option (STimer P)) : Prop :=
  shifted = none ∧ Stays s t slots after ∨
    ∃ links, shifted = some { ticked s with links := links } ∧
      (∃ walks, Sound { ticked s with links := links } (shiftedSlots s slots) walks) ∧
      Stays { ticked s with links := links } t (shiftedSlots s slots) after

theorem Sound.executeFirst (sound : Sound s slots walks) {t : STimer P} {p : P} {idx : Nat} (done : walks p = [])
    (taken : executeFirst s p idx = some t) :
    ∃ after others, Sound t after others ∧ Proceeds s t slots after (shiftFirst s idx) := by
  rw [Memory.executeFirst] at taken
  rw [shiftFirst]
  split_ifs at taken ⊢ with empty
  · cases taken
    exact ⟨_, _, sound.detach p false idx, .inl ⟨rfl, detach_stays s slots p false idx⟩⟩
  · obtain ⟨links, shifted, after⟩ := sound.timerShift
    rw [shifted] at taken ⊢
    cases taken
    obtain ⟨slots', others, ended, stays⟩ := after.executeShifted done (add 32 s.time 1 % 2 ^ 8)
    exact ⟨slots', others, ended, .inr ⟨links, rfl, ⟨walks, after⟩, stays⟩⟩

theorem Sound.step (sound : Sound s slots walks) {memory : Nat → TimerNode} {t : STimer P} {event : Event P}
    (taken : step memory s event = some t) :
    ∃ after others, Sound t after others ∧ Proceeds s t slots after (shiftWithin s event) := by
  cases event with
  | addTimer time func threadid =>
      obtain ⟨-, ⟨⟩⟩ := Option.ite_none_right_eq_some.mp taken
      obtain ⟨after, added, stays⟩ := sound.addTimer (memory s.allocated) time func threadid
      exact ⟨after, walks, added, .inl ⟨rfl, stays⟩⟩
  | delTimer node =>
      obtain ⟨-, ⟨⟩⟩ := Option.ite_none_right_eq_some.mp taken
      exact ⟨slots, walks, { sound with }, .inl ⟨rfl, rfl, rfl, fun _ _ => rfl, fun _ _ _ => id⟩⟩
  | update p =>
      obtain ⟨idle, first⟩ := Option.ite_none_right_eq_some.mp taken
      rw [shiftWithin, if_pos idle]
      exact sound.executeFirst (sound.done (by rw [idle]; rfl)) first
  | dispatch p =>
      cases walker : s.walkers p with
      | idle => simp [Memory.step, walker] at taken
      | dispatching shifted idx current =>
          cases current with
          | none => simp [Memory.step, walker] at taken
          | some temp =>
              obtain rfl : Memory.dispatch s p shifted idx temp = t := by simpa [Memory.step, walker] using taken
              obtain ⟨others, ended⟩ := sound.dispatch walker
              exact ⟨slots, others, ended, .inl ⟨rfl, rfl, rfl, fun _ _ => rfl, fun _ _ _ => id⟩⟩
  | resume p =>
      cases walker : s.walkers p with
      | idle => simp [Memory.step, walker] at taken
      | dispatching shifted idx current =>
          cases current with
          | some temp => simp [Memory.step, walker] at taken
          | none =>
              have done : walks p = [] := sound.done (by rw [walker]; rfl)
              cases shifted with
              | true =>
                  obtain rfl : Memory.executeShifted s p idx = t := by simpa [Memory.step, walker] using taken
                  obtain ⟨after, others, ended, stays⟩ := sound.executeShifted done idx
                  exact ⟨after, others, ended, .inl ⟨by rw [shiftWithin, walker], stays⟩⟩
              | false =>
                  have first : Memory.executeFirst s p idx = some t := by simpa [Memory.step, walker] using taken
                  simpa only [shiftWithin, walker] using sound.executeFirst done first

theorem reachable_sound {memory : Nat → TimerNode} {events : List (Event P)} {t : STimer P}
    (ran : run (Memory.step memory) timerCreateTimer events = some t) : ∃ slots walks, Sound t slots walks := by
  refine run_invariant (fun t => ∃ slots walks, Sound t slots walks) ?_ ⟨_, _, timerCreateTimer_sound⟩ ran
  rintro s event t ⟨slots, walks, sound⟩ taken
  obtain ⟨after, others, ended, -⟩ := sound.step taken
  exact ⟨after, others, ended⟩

end CppInfra.Timer.TimeWheel.Memory
