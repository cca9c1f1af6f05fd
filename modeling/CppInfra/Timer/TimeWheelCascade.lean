import CppInfra.Timer.TimeWheelLinks

set_option autoImplicit false

namespace CppInfra.Timer.TimeWheel

-- The block of ticks that begins at `ct`, as long as `t[level]` counts in.
def InBlock (ct level expire : Nat) : Prop := ct ≤ expire ∧ expire < ct + 2 ^ (8 + 6 * level)

-- A list of `near`, or one of a lower level that will be moved itself.
def Slot.Lower (level : Nat) : Slot → Prop
  | .near j => j < 2 ^ 8
  | .t lower j => lower < level ∧ 0 < j ∧ j < 2 ^ 6

theorem Slot.Lower.mono {level above : Nat} {slot : Slot} (lower : slot.Lower level) (le : level ≤ above) :
    slot.Lower above := by
  cases slot with
  | near j => exact lower
  | t i j => exact ⟨by have := lower.1; omega, lower.2⟩

theorem InBlock.word {ct level idx expire : Nat} (inside : InBlock ct level expire) (moves : Moves ct level idx)
    (bound : ct < 2 ^ 32) : expire < 2 ^ 32 := by
  obtain ⟨order, close⟩ := inside
  obtain ⟨top, -, begins, -⟩ := moves
  rcases level_cases top with rfl | rfl | rfl | rfl <;> omega

theorem slotOf_cascade {ct level idx expire : Nat} (moves : Moves ct level idx) (bound : ct < 2 ^ 32)
    (inside : InBlock ct level expire) :
    (slotOf expire ct).Lower level ∧ Held ct expire (slotOf expire ct) := by
  have word := inside.word moves bound
  obtain ⟨order, close⟩ := inside
  have near : expire < ct + 2 ^ 31 := by
    rcases level_cases moves.1 with rfl | rfl | rfl | rfl <;> omega
  have lower := slotOf_lower moves.1 moves.2.2.1 order close
  have held := slotOf_held order near
  rw [Nat.mod_eq_of_lt word, Nat.mod_eq_of_lt bound] at lower held
  refine ⟨?_, held⟩
  generalize slotOf expire ct = slot at lower held
  cases slot with
  | near j =>
      change j < 2 ^ 8
      rw [held.1]
      exact Nat.mod_lt _ (by decide)
  | t i j =>
      obtain ⟨below, live⟩ := lower i j rfl
      refine ⟨below, Nat.pos_of_ne_zero live, ?_⟩
      rw [held.2.1]
      exact Nat.mod_lt _ (by decide)

namespace Memory

open Words Transition DisjointLists TailedLists LinkedChain

variable {P : Type} {s t u : STimer P} {slots after : Slot → List Nat} {walks : P → List Nat} {x : Nat}

def InList (links : Links Slot Nat) (slot : Slot) (x : Nat) : Prop :=
  ∃ nodes, Linked (TailedLists.link links) (.head slot) (path nodes) ∧ x ∈ nodes

-- The number of ticks at which `T->time` will be `expire`.
def deadline (s : STimer P) (x : Nat) : Nat := s.ticks + (s.expire x - s.time)

structure Waits (s : STimer P) (slots : Slot → List Nat) (x : Nat) : Prop where
  word : s.expire x < 2 ^ 32
  place : ∃ level j, (Slot.t level j).Lower 3 ∧ x ∈ slots (.t level j) ∧ Held s.time (s.expire x) (.t level j)

def Arrived (s : STimer P) (slots : Slot → List Nat) (x : Nat) : Prop :=
  s.time ≤ s.expire x ∧ x ∈ slots (.near (s.expire x % 2 ^ 8))

theorem arrived_or_waits {slot : Slot} (word : s.expire x < 2 ^ 32) (member : x ∈ slots slot) (lower : slot.Lower 3)
    (held : Held s.time (s.expire x) slot) : Arrived s slots x ∨ Waits s slots x := by
  cases slot with
  | near j =>
      obtain ⟨index, order, -⟩ := held
      rw [index] at member
      exact .inl ⟨order, member⟩
  | t level j => exact .inr ⟨word, level, j, lower, member, held⟩

theorem Arrived.inList (arrived : Arrived s slots x) (sound : Sound s slots walks) :
    InList s.links (.near (s.expire x % 2 ^ 8)) x :=
  ⟨_, (sound.linked _).1, arrived.2⟩

theorem Waits.early (waits : Waits s slots x) : s.time < s.expire x := by
  obtain ⟨level, j, lower, -, -, -, block⟩ := waits.place
  obtain ⟨ahead, -⟩ := block fun dead => by
    have := lower.2.1
    have := dead.2
    omega
  omega

theorem Waits.stays (waits : Waits s slots x) (known : x < s.allocated) (stays : Stays s t slots after) :
    Waits t after x ∧ deadline t x = deadline s x := by
  have expire := stays.expire x known
  obtain ⟨level, j, lower, member, held⟩ := waits.place
  constructor
  · refine ⟨by rw [expire]; exact waits.word, level, j, lower, stays.levels level j x member, ?_⟩
    rw [stays.time, expire]
    exact held
  · rw [deadline, deadline, stays.ticks, stays.time, expire]

theorem cascaded_lands {level idx : Nat} (links : Links Slot Nat)
    (found : movedSlot (add 32 s.time 1) = some (some (level, idx))) (moves : Moves (add 32 s.time 1) level idx)
    (member : x ∈ slots (.t level idx)) (inside : InBlock (add 32 s.time 1) level (s.expire x)) :
    Arrived { ticked s with links := links } (shiftedSlots s slots) x ∨
      Waits { ticked s with links := links } (shiftedSlots s slots) x := by
  obtain ⟨lower, held⟩ := slotOf_cascade moves (add_lt 32 s.time 1) inside
  have moved : x ∈ shiftedSlots s slots (slotOf (s.expire x) (add 32 s.time 1)) := by
    rw [shiftedSlots, found]
    exact mem_deal.mpr (.inr ⟨member, rfl⟩)
  exact arrived_or_waits (inside.word moves (add_lt 32 s.time 1)) moved (lower.mono moves.1) held

theorem Waits.tick (waits : Waits s slots x) : add 32 s.time 1 = s.time + 1 := by
  have early := waits.early
  have word := waits.word
  exact add_exact (by omega)

theorem Waits.shift (waits : Waits s slots x) (links : Links Slot Nat) :
    Arrived { ticked s with links := links } (shiftedSlots s slots) x ∨
      Waits { ticked s with links := links } (shiftedSlots s slots) x := by
  obtain ⟨level, j, lower, member, held⟩ := waits.place
  have remains (unmoved : ¬ Moves (s.time + 1) level j) : Held (add 32 s.time 1) (s.expire x) (.t level j) := by
    rw [waits.tick]
    refine held.tick (by simp) ?_
    rintro _ _ ⟨⟩
    exact unmoved
  have spec := movedSlot_spec (add_lt 32 s.time 1)
  rcases spec with ⟨level', j', found, moves⟩ | ⟨found, still⟩
  · by_cases same : Slot.t level j = .t level' j'
    · cases same
      have inside : InBlock (add 32 s.time 1) level (s.expire x) := by
        rw [waits.tick] at moves ⊢
        exact held.moves moves
      exact cascaded_lands links found moves member inside
    · right
      refine ⟨waits.word, level, j, lower, ?_, remains ?_⟩
      · rw [shiftedSlots, found]
        apply mem_deal.mpr
        rw [Function.update_of_ne same]
        exact .inl member
      · intro again
        rw [waits.tick] at moves
        obtain ⟨rfl, rfl⟩ := moves_unique moves again
        exact same rfl
  · right
    refine ⟨waits.word, level, j, lower, ?_, remains ?_⟩
    · rw [shiftedSlots, found]
      exact member
    · rw [← waits.tick]
      exact still level j

theorem Waits.shift_deadline (waits : Waits s slots x) (links : Links Slot Nat) :
    deadline { ticked s with links := links } x = deadline s x := by
  have early := waits.early
  have tick := waits.tick
  simp only [deadline, ticked, tick]
  omega

theorem lands_or_waits (lands : Arrived s slots x ∨ Waits s slots x) (sound : Sound s slots walks)
    (stays : Stays s t slots after) :
    InList s.links (.near (s.expire x % 2 ^ 8)) x ∨
      Waits t after x ∧ t.expire x = s.expire x ∧ deadline t x = deadline s x := by
  rcases lands with arrived | waits
  · exact .inl (arrived.inList sound)
  · obtain ⟨level, j, -, member, -⟩ := waits.place
    have known := sound.known _ x member
    obtain ⟨waiting, same⟩ := waits.stays known stays
    exact .inr ⟨waiting, stays.expire x known, same⟩

variable [DecidableEq P] {memory : Nat → TimerNode}

-- Every state a run passes through after its first one, those between a shift and what follows it included.
def snapshots (memory : Nat → TimerNode) : STimer P → List (Event P) → List (STimer P)
  | _, [] => []
  | s, event :: rest =>
      (shiftWithin s event).toList ++ (step memory s event).elim [] fun t => t :: snapshots memory t rest

-- The node gets into the list while there have been no more ticks than the bound.
def ReachesNear (memory : Nat → TimerNode) (s : STimer P) (events : List (Event P)) (slot : Slot) (x bound : Nat) :
    Prop :=
  ∃ v ∈ snapshots memory s events, InList v.links slot x ∧ v.ticks ≤ bound

theorem ReachesNear.later {event : Event P} {events : List (Event P)} {slot : Slot} {bound : Nat}
    (reaches : ReachesNear memory t events slot x bound) (taken : step memory s event = some t) :
    ReachesNear memory s (event :: events) slot x bound := by
  obtain ⟨v, member, there, early⟩ := reaches
  refine ⟨v, ?_, there, early⟩
  rw [snapshots, taken]
  exact List.mem_append_right _ (List.mem_cons_of_mem t member)

theorem reachesNear_shift {event : Event P} {v : STimer P} (shifted : shiftWithin s event = some v)
    (events : List (Event P)) {slot : Slot} {bound : Nat} (there : InList v.links slot x) (early : v.ticks ≤ bound) :
    ReachesNear memory s (event :: events) slot x bound := by
  refine ⟨v, ?_, there, early⟩
  rw [snapshots, shifted]
  exact List.mem_append_left _ (List.mem_singleton.mpr rfl)

theorem Waits.step {event : Event P} (waits : Waits s slots x) (sound : Sound s slots walks)
    (taken : step memory s event = some t) :
    (∃ v, shiftWithin s event = some v ∧ InList v.links (.near (s.expire x % 2 ^ 8)) x ∧ v.ticks ≤ deadline s x) ∨
      ∃ after others, Sound t after others ∧ Waits t after x ∧ t.expire x = s.expire x ∧
        deadline t x = deadline s x := by
  obtain ⟨after, others, ended, proceeds⟩ := sound.step taken
  rcases proceeds with ⟨-, stays⟩ | ⟨links, shifted, ⟨walks', between⟩, stays⟩
  · obtain ⟨level, j, -, member, -⟩ := waits.place
    have known := sound.known _ x member
    obtain ⟨waiting, same⟩ := waits.stays known stays
    exact .inr ⟨after, others, ended, waiting, stays.expire x known, same⟩
  · have before := waits.shift_deadline links
    rcases lands_or_waits (waits.shift links) between stays with there | ⟨waiting, expire, same⟩
    · refine .inl ⟨_, shifted, there, ?_⟩
      rw [← before]
      exact Nat.le_add_right _ _
    · exact .inr ⟨after, others, ended, waiting, expire, same.trans before⟩

-- The induction is on the events: the deadline does not change, and at the deadline the node waits no more.
theorem Waits.run {events : List (Event P)} (waits : Waits s slots x) (sound : Sound s slots walks)
    (ran : run (Memory.step memory) s events = some u) (reached : deadline s x ≤ u.ticks) :
    ReachesNear memory s events (.near (s.expire x % 2 ^ 8)) x (deadline s x) := by
  induction events generalizing s slots walks with
  | nil =>
      cases ran
      have early := waits.early
      simp only [deadline] at reached
      omega
  | cons event rest ih =>
      obtain ⟨t, taken, later⟩ := run_cons.mp ran
      rcases waits.step sound taken with ⟨v, shifted, there, early⟩ | ⟨after, others, ended, waiting, expire, same⟩
      · exact reachesNear_shift shifted rest there early
      · have reaches := ih waiting ended later (by rw [same]; exact reached)
        rw [expire, same] at reaches
        exact reaches.later taken

theorem cascaded_reaches {level idx : Nat} {event : Event P} {events : List (Event P)} (sound : Sound s slots walks)
    (found : movedSlot (add 32 s.time 1) = some (some (level, idx))) (moves : Moves (add 32 s.time 1) level idx)
    (member : x ∈ slots (.t level idx)) (inside : InBlock (add 32 s.time 1) level (s.expire x))
    (shifts : shiftWithin s event ≠ none) (ran : run (Memory.step memory) s (event :: events) = some u)
    (reached : deadline (ticked s) x ≤ u.ticks) :
    ReachesNear memory s (event :: events) (.near (s.expire x % 2 ^ 8)) x (deadline (ticked s) x) := by
  obtain ⟨t, taken, later⟩ := run_cons.mp ran
  obtain ⟨after, others, ended, proceeds⟩ := sound.step taken
  rcases proceeds with ⟨quiet, -⟩ | ⟨links, shifted, ⟨walks', between⟩, stays⟩
  · exact absurd quiet shifts
  · have lands := cascaded_lands links found moves member inside
    rcases lands_or_waits lands between stays with there | ⟨waiting, expire, same⟩
    · exact reachesNear_shift shifted events there (Nat.le_add_right _ _)
    · have same : deadline t x = deadline (ticked s) x := same
      have expire : t.expire x = s.expire x := expire
      have reaches := waiting.run ended later (by rw [same]; exact reached)
      rw [expire, same] at reaches
      exact reaches.later taken

theorem timerShift_cascade (memory : Nat → TimerNode) (s : STimer P) :
    (∀ events, run (step memory) timerCreateTimer events = some s → ∃ slots walks, Sound s slots walks) ∧
    ∀ slots walks, Sound s slots walks →
      (∀ turns ≥ 4, ∃ i idx, shiftCall turns (add 32 s.time 1) = some (i, idx) ∧ i ≤ 3 ∧
        ∀ j, idx = some j → j < 2 ^ 6) ∧
      ∀ level idx, shiftCall 4 (add 32 s.time 1) = some (level, some idx) →
        ∃ t after, timerShift s = some t ∧ moveList (ticked s) level idx = some t ∧
          Represents t.links after ∧ Scattered after ∧
          (∀ slot, after slot = Function.update slots (.t level idx) [] slot ++
            (slots (.t level idx)).filter fun x => addNodeSlot (s.expire x) (add 32 s.time 1) = slot) ∧
          ∀ x ∈ slots (.t level idx), InBlock (add 32 s.time 1) level (s.expire x) →
            (addNodeSlot (s.expire x) (add 32 s.time 1)).Lower level ∧
            ∀ event events u, shiftWithin s event = some t → run (step memory) s (event :: events) = some u →
              deadline (ticked s) x ≤ u.ticks →
              ReachesNear memory s (event :: events) (.near (s.expire x % 2 ^ 8)) x (deadline (ticked s) x) := by
  refine ⟨fun events ran => reachable_sound ran, fun slots walks sound => ?_⟩
  have bound := add_lt 32 s.time 1
  constructor
  · intro turns enough
    obtain ⟨i, idx, stops, top, moved⟩ := shiftCall_stops bound enough
    refine ⟨i, idx, stops, top, ?_⟩
    rintro j rfl
    obtain ⟨-, -, -, -, index⟩ := shiftCall_moves bound enough stops
    rw [← index]
    exact Nat.mod_lt _ (by decide)
  · intro level idx called
    obtain ⟨found, moves⟩ := shiftCall_moves bound (Nat.le_refl 4) called
    obtain ⟨links, moved, ended⟩ := sound.ticked.moveList level idx
    have shifted : timerShift s = moveList (ticked s) level idx := by
      rw [timerShift_movedSlot, found]
      rfl
    refine ⟨_, _, shifted.trans moved, moved, ended.linked, ended.scattered, ?_, ?_⟩
    · intro slot
      simp only [addNodeSlot_eq]
      rfl
    · intro x member inside
      rw [addNodeSlot_eq]
      refine ⟨(slotOf_cascade moves bound inside).1, ?_⟩
      intro event events u within ran reached
      exact cascaded_reaches sound found moves member inside (by simp [within]) ran reached

def waiting : STimer Unit :=
  { (timerCreateTimer : STimer Unit) with
    links := linkTo { next := Function.update (fun _ => none) (.node 0) none, tail := .head } (.t 0 1) 0
    expire := fun _ => 261
    time := 255
    ticks := 255
    allocated := 1 }

theorem waiting_sound : Sound waiting (put (fun _ => []) (.t 0 1) 0) fun _ => [] := by
  have linked := timerCreateTimer_sound.linkTo (P := Unit) none (.t 0 1)
  exact { linked with }

def untouched : Nat → TimerNode := fun _ => ⟨none, 0, 0, 0, 0⟩

theorem timerShift_cascade_near :
    ReachesNear untouched waiting (List.replicate 6 (.update ())) (.near 5) 0 261 := by
  obtain ⟨-, cascades⟩ := (timerShift_cascade untouched waiting).2 _ _ waiting_sound
  obtain ⟨t, after, shifted, -, -, -, -, each⟩ := cascades 0 1 (by decide)
  obtain ⟨-, reaches⟩ := each 0 (by decide) ⟨by decide, by decide⟩
  have clock : (run (step untouched) waiting (List.replicate 6 (.update ()))).map (·.ticks) = some 261 := by decide
  obtain ⟨u, ran, ticks⟩ := Option.map_eq_some_iff.mp clock
  refine reaches _ _ u ?_ ran (by rw [ticks]; decide)
  rw [← shifted]
  rfl

end Memory

end CppInfra.Timer.TimeWheel
