import CppInfra.Timer.TimeWheelMemory

set_option autoImplicit false

namespace CppInfra.Timer.TimeWheel.Memory

open Words Transition TailedLists

variable {P : Type}

def STimer.withCancel (s : STimer P) (cancel : Nat → UInt8) (ran : List Turn) : STimer P :=
  { s with cancel := cancel, ran := ran }

-- Two wheels that differ at most in their cancel bytes and in what they have run.
def Alike (s s' : STimer P) : Prop := s' = s.withCancel s'.cancel s'.ran

theorem alike_withCancel (s : STimer P) (cancel : Nat → UInt8) (ran : List Turn) :
    Alike s (s.withCancel cancel ran) := rfl

theorem linkTo_overwrites (links : Links Slot Nat) (slot : Slot) (node : Nat) (stale other : Option Nat) :
    linkTo { links with next := Function.update links.next (.node node) stale } slot node =
      linkTo { links with next := Function.update links.next (.node node) other } slot node := by
  simp only [linkTo, Links.mk.injEq, and_true]
  funext p
  by_cases here : p = .node node
  · simp [here]
  · by_cases last : p = links.tail slot
    · subst last
      simp [Function.update_of_ne here]
    · simp [Function.update_of_ne here, Function.update_of_ne last]

theorem addTimer_alike (s : STimer P) (cancel : Nat → UInt8) (ran : List Turn) (memory other : TimerNode)
    (time : Int) (func : Nat) (threadid : Int) :
    Alike (addTimer s memory time func threadid)
      (addTimer (s.withCancel cancel ran) other time func threadid) := by
  by_cases atOnce : time ≤ 0
  · simp [Alike, addTimer, atOnce, malloc, free, turn, STimer.withCancel]
  · simp only [Alike, addTimer, atOnce, if_false, malloc, addNode, STimer.withCancel]
    simp [linkTo_overwrites s.links _ s.allocated memory.next other.next]

theorem moveList_withCancel (s : STimer P) (cancel : Nat → UInt8) (ran : List Turn) (level idx : Nat) :
    moveList (s.withCancel cancel ran) level idx =
      (moveList s level idx).map fun t => t.withCancel cancel ran := by
  simp only [moveList, STimer.withCancel, Option.map_map]
  rfl

def ticked (s : STimer P) : STimer P := { s with time := add 32 s.time 1, ticks := s.ticks + 1 }

theorem timerShift_eq (s : STimer P) :
    timerShift s =
      if add 32 s.time 1 = 0 then moveList (ticked s) 3 0
      else (shiftedList 4 (add 32 s.time 1) (2 ^ 8) (add 32 s.time 1 / 2 ^ 8) 0).bind fun
        | none => some (ticked s)
        | some (level, idx) => moveList (ticked s) level idx := rfl

theorem timerShift_withCancel (s : STimer P) (cancel : Nat → UInt8) (ran : List Turn) :
    timerShift (s.withCancel cancel ran) = (timerShift s).map fun t => t.withCancel cancel ran := by
  have same : ticked (s.withCancel cancel ran) = (ticked s).withCancel cancel ran := rfl
  have time : (s.withCancel cancel ran).time = s.time := rfl
  rw [timerShift_eq, timerShift_eq, same, time]
  split
  · exact moveList_withCancel (ticked s) cancel ran 3 0
  · cases shiftedList 4 (add 32 s.time 1) (2 ^ 8) (add 32 s.time 1 / 2 ^ 8) 0 with
    | none => rfl
    | some slot =>
        cases slot with
        | none => rfl
        | some place => exact moveList_withCancel (ticked s) cancel ran place.1 place.2

variable [DecidableEq P]

theorem executeShifted_withCancel (s : STimer P) (cancel : Nat → UInt8) (ran : List Turn) (p : P) (idx : Nat) :
    executeShifted (s.withCancel cancel ran) p idx = (executeShifted s p idx).withCancel cancel ran := by
  have links : (s.withCancel cancel ran).links = s.links := rfl
  rw [executeShifted, executeShifted, links]
  split
  · rfl
  · rfl

theorem executeFirst_withCancel (s : STimer P) (cancel : Nat → UInt8) (ran : List Turn) (p : P) (idx : Nat) :
    executeFirst (s.withCancel cancel ran) p idx =
      (executeFirst s p idx).map fun t => t.withCancel cancel ran := by
  have links : (s.withCancel cancel ran).links = s.links := rfl
  rw [executeFirst, executeFirst, timerShift_withCancel, links]
  split
  · rfl
  · cases timerShift s with
    | none => rfl
    | some t =>
        have shifted := executeShifted_withCancel t cancel ran p (t.time % 2 ^ 8)
        exact congrArg some shifted

theorem step_alike {s s' : STimer P} (memory memory' : Nat → TimerNode) (event : Event P) (alike : Alike s s') :
    (step memory s event = none ∧ step memory' s' event = none) ∨
      ∃ t t', step memory s event = some t ∧ step memory' s' event = some t' ∧ Alike t t' := by
  rw [alike]
  generalize s'.cancel = cancel
  generalize s'.ran = ran
  have possible : ∀ {result : Option (STimer P)},
      (result = none ∧ (result.map fun t => t.withCancel cancel ran) = none) ∨
      ∃ t t', result = some t ∧ (result.map fun t => t.withCancel cancel ran) = some t' ∧ Alike t t' := by
    intro result
    cases result with
    | none => exact .inl ⟨rfl, rfl⟩
    | some t => exact .inr ⟨t, _, rfl, rfl, alike_withCancel t cancel ran⟩
  cases event with
  | addTimer time func threadid =>
      by_cases int : -2 ^ 31 ≤ time ∧ time < 2 ^ 31
      · right
        refine ⟨_, _, if_pos int, if_pos int, ?_⟩
        exact addTimer_alike s cancel ran _ _ time func threadid
      · exact .inl ⟨if_neg int, if_neg int⟩
  | delTimer node =>
      by_cases pending : node < s.allocated ∧ node ∉ s.turns.map Turn.node
      · exact .inr ⟨_, _, if_pos pending, if_pos pending, rfl⟩
      · exact .inl ⟨if_neg pending, if_neg pending⟩
  | update p =>
      by_cases idle : s.walkers p = .idle
      · have same : step memory' (s.withCancel cancel ran) (.update p) =
            (executeFirst s p (s.time % 2 ^ 8)).map fun t => t.withCancel cancel ran := by
          rw [← executeFirst_withCancel]
          exact if_pos idle
        rw [same, show step memory s (.update p) = executeFirst s p (s.time % 2 ^ 8) from if_pos idle]
        exact possible
      · exact .inl ⟨if_neg idle, if_neg idle⟩
  | dispatch p =>
      cases walker : s.walkers p with
      | idle => exact .inl ⟨by simp [step, walker], by simp [step, STimer.withCancel, walker]⟩
      | dispatching shifted idx current =>
          cases current with
          | none => exact .inl ⟨by simp [step, walker], by simp [step, STimer.withCancel, walker]⟩
          | some temp =>
              refine .inr ⟨dispatch s p shifted idx temp, dispatch (s.withCancel cancel ran) p shifted idx temp,
                by simp [step, walker], by simp [step, STimer.withCancel, walker], ?_⟩
              rfl
  | resume p =>
      cases walker : s.walkers p with
      | idle => exact .inl ⟨by simp [step, walker], by simp [step, STimer.withCancel, walker]⟩
      | dispatching shifted idx current =>
          cases current with
          | some temp => exact .inl ⟨by simp [step, walker], by simp [step, STimer.withCancel, walker]⟩
          | none =>
              cases shifted with
              | true =>
                  refine .inr ⟨executeShifted s p idx, executeShifted (s.withCancel cancel ran) p idx,
                    by simp [step, walker], by simp [step, STimer.withCancel, walker], ?_⟩
                  rw [executeShifted_withCancel]
                  exact alike_withCancel ..
              | false =>
                  have same : step memory' (s.withCancel cancel ran) (.resume p) =
                      (executeFirst s p idx).map fun t => t.withCancel cancel ran := by
                    rw [← executeFirst_withCancel]
                    simp [step, STimer.withCancel, walker]
                  rw [same, show step memory s (.resume p) = executeFirst s p idx by simp [step, walker]]
                  exact possible

omit [DecidableEq P] in
def Below (n : Nat) (links : Links Slot Nat) : Prop := ∀ p x, links.next p = some x → x < n

omit [DecidableEq P] in
theorem Below.linkTo {n : Nat} {links : Links Slot Nat} (below : Below n links) (slot : Slot) {x : Nat}
    (known : x < n) : Below n (linkTo links slot x) := by
  intro p y next
  by_cases here : p = .node x
  · simp [TailedLists.linkTo, here] at next
  · by_cases last : p = links.tail slot
    · subst last
      simp only [TailedLists.linkTo, Function.update_of_ne here, Function.update_self, Option.some.injEq] at next
      omega
    · simp only [TailedLists.linkTo, Function.update_of_ne here, Function.update_of_ne last] at next
      exact below p y next

omit [DecidableEq P] in
theorem Below.linkClear {n : Nat} {links : Links Slot Nat} (below : Below n links) (slot : Slot) :
    Below n (TailedLists.linkClear links slot).2 := by
  intro p y next
  by_cases here : p = .head slot
  · simp [TailedLists.linkClear, here] at next
  · simp only [TailedLists.linkClear, Function.update_of_ne here] at next
    exact below p y next

omit [DecidableEq P] in
theorem Below.relink {n turns : Nat} {links final : Links Slot Nat} {target : Nat → Slot} {current : Option Nat}
    (below : Below n links) (known : ∀ x ∈ current, x < n)
    (ended : relink target turns links current = some final) : Below n final := by
  induction turns generalizing links current with
  | zero => cases ended
  | succ turns ih =>
      cases current with
      | none =>
          obtain rfl := Option.some.inj ended
          exact below
      | some x => exact ih (below.linkTo (target x) (known x rfl)) (fun y next => below _ y next) ended

def Turn.runs (memory : Nat → TimerNode) (deleted : List Nat) (turn : Turn) : Bool :=
  turn.atOnce || decide (turn.node ∉ deleted ∧ (memory turn.node).cancel = 0)

omit [DecidableEq P] in
structure Logged (memory : Nat → TimerNode) (s : STimer P) : Prop where
  below : Below s.allocated s.links
  walking : ∀ p shifted idx x, s.walkers p = .dispatching shifted idx (some x) → x < s.allocated
  deleted : ∀ node ∈ s.deleted, node < s.allocated
  turns : ∀ turn ∈ s.turns, turn.node < s.allocated
  cancel : ∀ node < s.allocated, s.cancel node = if node ∈ s.deleted then 1 else (memory node).cancel
  ran : s.ran = s.turns.filter (Turn.runs memory s.deleted)

omit [DecidableEq P] in
theorem timerCreateTimer_logged (memory : Nat → TimerNode) : Logged memory (timerCreateTimer : STimer P) := by
  constructor <;> simp [timerCreateTimer, Below]

omit [DecidableEq P] in
structure Moved (s t : STimer P) : Prop where
  below : Below s.allocated s.links → Below t.allocated t.links
  walking : Below s.allocated s.links → (∀ p shifted idx x, s.walkers p = .dispatching shifted idx (some x) →
    x < s.allocated) → ∀ p shifted idx x, t.walkers p = .dispatching shifted idx (some x) → x < t.allocated
  allocated : t.allocated = s.allocated
  deleted : t.deleted = s.deleted
  turns : t.turns = s.turns
  cancel : t.cancel = s.cancel
  ran : t.ran = s.ran

omit [DecidableEq P] in
theorem Moved.logged {memory : Nat → TimerNode} {s t : STimer P} (moved : Moved s t) (logged : Logged memory s) :
    Logged memory t where
  below := moved.below logged.below
  walking := moved.walking logged.below logged.walking
  deleted := by
    rw [moved.deleted, moved.allocated]
    exact logged.deleted
  turns := by
    rw [moved.turns, moved.allocated]
    exact logged.turns
  cancel := by
    rw [moved.cancel, moved.allocated, moved.deleted]
    exact logged.cancel
  ran := by
    rw [moved.ran, moved.turns, moved.deleted]
    exact logged.ran

omit [DecidableEq P] in
theorem Moved.trans {s t u : STimer P} (first : Moved s t) (second : Moved t u) : Moved s u where
  below := fun below => second.below (first.below below)
  walking := fun below walking => second.walking (first.below below) (first.walking below walking)
  allocated := second.allocated.trans first.allocated
  deleted := second.deleted.trans first.deleted
  turns := second.turns.trans first.turns
  cancel := second.cancel.trans first.cancel
  ran := second.ran.trans first.ran

omit [DecidableEq P] in
theorem moveList_moved {s t : STimer P} {level idx : Nat} (moved : moveList s level idx = some t) : Moved s t := by
  obtain ⟨links, ended, rfl⟩ := Option.map_eq_some_iff.mp moved
  exact
    { below := fun below => (below.linkClear _).relink (fun x next => below _ x next) ended
      walking := fun _ walking => walking
      allocated := rfl
      deleted := rfl
      turns := rfl
      cancel := rfl
      ran := rfl }

omit [DecidableEq P] in
theorem timerShift_moved {s t : STimer P} (shifted : timerShift s = some t) : Moved s t := by
  have tick : Moved s (ticked s) := ⟨fun below => below, fun _ walking => walking, rfl, rfl, rfl, rfl, rfl⟩
  rw [timerShift_eq] at shifted
  split at shifted
  · exact tick.trans (moveList_moved shifted)
  · obtain ⟨slot, -, rest⟩ := Option.bind_eq_some_iff.mp shifted
    cases slot with
    | none =>
        obtain rfl := Option.some.inj rest
        exact tick
    | some place => exact tick.trans (moveList_moved rest)

theorem setWalker_moved (s : STimer P) (links : Links Slot Nat) (p : P) (walker : Walker)
    (below : Below s.allocated s.links → Below s.allocated links)
    (known : Below s.allocated s.links → ∀ shifted idx x, walker = .dispatching shifted idx (some x) →
      x < s.allocated) :
    Moved s ({ s with links := links }.setWalker p walker) where
  below := below
  walking := by
    intro links walking other shifted idx x there
    by_cases same : other = p
    · subst same
      simp only [STimer.setWalker, Function.update_self] at there
      exact known links shifted idx x there
    · simp only [STimer.setWalker, Function.update_of_ne same] at there
      exact walking other shifted idx x there
  allocated := rfl
  deleted := rfl
  turns := rfl
  cancel := rfl
  ran := rfl

theorem detach_moved (s : STimer P) (p : P) (shifted : Bool) (idx : Nat) : Moved s (detach s p shifted idx) := by
  refine setWalker_moved s _ p _ (fun below => below.linkClear _) ?_
  intro below shifted' idx' x same
  exact below _ x (Walker.dispatching.inj same).2.2

theorem executeShifted_moved (s : STimer P) (p : P) (idx : Nat) : Moved s (executeShifted s p idx) := by
  rw [executeShifted]
  split
  · exact detach_moved s p true idx
  · exact setWalker_moved s s.links p .idle (fun below => below) (by simp)

theorem executeFirst_moved {s t : STimer P} {p : P} {idx : Nat} (executed : executeFirst s p idx = some t) :
    Moved s t := by
  rw [executeFirst] at executed
  split at executed
  · obtain rfl := Option.some.inj executed
    exact detach_moved s p false idx
  · obtain ⟨u, shifted, rest⟩ := Option.bind_eq_some_iff.mp executed
    obtain rfl := Option.some.inj rest
    exact (timerShift_moved shifted).trans (executeShifted_moved u p _)

omit [DecidableEq P] in
theorem Logged.ran_turn {memory : Nat → TimerNode} {s : STimer P} (logged : Logged memory s) (turn : Turn) :
    (s.turns ++ [turn]).filter (Turn.runs memory s.deleted) =
      if turn.runs memory s.deleted then s.ran ++ [turn] else s.ran := by
  rw [List.filter_append, ← logged.ran, List.filter_singleton]
  cases turn.runs memory s.deleted with
  | true => rfl
  | false => exact List.append_nil _

omit [DecidableEq P] in
theorem addTimer_logged {memory : Nat → TimerNode} {s : STimer P} (logged : Logged memory s) (time : Int) (func : Nat)
    (threadid : Int) : Logged memory (addTimer s (memory s.allocated) time func threadid) := by
  have fresh : s.allocated ∉ s.deleted := fun mem => Nat.lt_irrefl _ (logged.deleted _ mem)
  have cancel : ∀ node < s.allocated + 1, Function.update s.cancel s.allocated (memory s.allocated).cancel node =
      if node ∈ s.deleted then 1 else (memory node).cancel := by
    intro node below
    by_cases same : node = s.allocated
    · simp [same, fresh]
    · rw [Function.update_of_ne same]
      exact logged.cancel node (by omega)
  have walking := fun p shifted idx x there => Nat.lt_succ_of_lt (logged.walking p shifted idx x there)
  have deleted := fun node mem => Nat.lt_succ_of_lt (logged.deleted node mem)
  have turns := fun turn mem => Nat.lt_succ_of_lt (logged.turns turn mem)
  have below := fun q x next => Nat.lt_succ_of_lt (logged.below q x next)
  by_cases atOnce : time ≤ 0
  · rw [addTimer, if_pos atOnce]
    exact
      { below := by
          intro q x next
          by_cases here : q = .node s.allocated
          · simp [malloc, free, here] at next
          · simp only [malloc, free, Function.update_of_ne here] at next
            exact below q x next
        walking := walking
        deleted := deleted
        turns := by
          intro turn mem
          rcases List.mem_append.mp mem with mem | mem
          · exact turns turn mem
          · rw [List.mem_singleton.mp mem]
            exact Nat.lt_succ_self _
        cancel := cancel
        ran := Eq.symm (logged.ran_turn _) }
  · rw [addTimer, if_neg atOnce]
    exact
      { below := by
          simp only [addNode, malloc]
          rw [linkTo_overwrites _ _ _ _ none]
          refine Below.linkTo ?_ _ (Nat.lt_succ_self _)
          intro q x next
          by_cases here : q = .node s.allocated
          · simp [here] at next
          · simp only [Function.update_of_ne here] at next
            exact below q x next
        walking := walking
        deleted := deleted
        turns := turns
        cancel := cancel
        ran := logged.ran }

omit [DecidableEq P] in
theorem delTimer_logged {memory : Nat → TimerNode} {s : STimer P} (logged : Logged memory s) {node : Nat}
    (known : node < s.allocated) (pending : node ∉ s.turns.map Turn.node) :
    Logged memory { s with cancel := Function.update s.cancel node 1, deleted := s.deleted ++ [node] } where
  below := logged.below
  walking := logged.walking
  deleted := by
    intro other mem
    rcases List.mem_append.mp mem with mem | mem
    · exact logged.deleted other mem
    · rw [List.mem_singleton.mp mem]
      exact known
  turns := logged.turns
  cancel := by
    intro other below
    by_cases same : other = node
    · simp [same]
    · simpa [Function.update_of_ne same, same] using logged.cancel other below
  ran := by
    refine logged.ran.trans (List.filter_congr ?_)
    intro turn mem
    have other : turn.node ≠ node := by
      rintro rfl
      exact pending (List.mem_map_of_mem mem)
    simp [Turn.runs, other]

theorem dispatch_logged {memory : Nat → TimerNode} {s : STimer P} (logged : Logged memory s) (p : P) (shifted : Bool)
    (idx : Nat) {temp : Nat} (known : temp < s.allocated) : Logged memory (dispatch s p shifted idx temp) where
  below := by
    intro q x next
    by_cases here : q = .node temp
    · simp [dispatch, free, STimer.setWalker, here] at next
    · simp only [dispatch, free, STimer.setWalker, Function.update_of_ne here] at next
      exact logged.below q x next
  walking := by
    intro other shifted' idx' x there
    by_cases same : other = p
    · simp only [dispatch, STimer.setWalker, same, Function.update_self] at there
      exact logged.below _ x (Walker.dispatching.inj there).2.2
    · simp only [dispatch, STimer.setWalker, Function.update_of_ne same] at there
      exact logged.walking other shifted' idx' x there
  deleted := logged.deleted
  turns := by
    intro turn mem
    rcases List.mem_append.mp mem with mem | mem
    · exact logged.turns turn mem
    · rw [List.mem_singleton.mp mem]
      exact known
  cancel := logged.cancel
  ran := by
    refine Eq.trans ?_ (logged.ran_turn (turn s temp false)).symm
    have byte := logged.cancel temp known
    by_cases marked : temp ∈ s.deleted
    · simp [dispatch, free, STimer.setWalker, turn, Turn.runs, byte, marked]
    · simp [dispatch, free, STimer.setWalker, turn, Turn.runs, byte, marked]

theorem step_logged {memory : Nat → TimerNode} {s t : STimer P} (event : Event P) (logged : Logged memory s)
    (stepped : step memory s event = some t) : Logged memory t := by
  cases event with
  | addTimer time func threadid =>
      simp only [step, Option.ite_none_right_eq_some, Option.some.injEq] at stepped
      obtain ⟨-, rfl⟩ := stepped
      exact addTimer_logged logged time func threadid
  | delTimer node =>
      simp only [step, Option.ite_none_right_eq_some, Option.some.injEq] at stepped
      obtain ⟨⟨known, pending⟩, rfl⟩ := stepped
      exact delTimer_logged logged known pending
  | update p =>
      simp only [step, Option.ite_none_right_eq_some] at stepped
      exact (executeFirst_moved stepped.2).logged logged
  | dispatch p =>
      simp only [step] at stepped
      split at stepped
      · next shifted idx temp walker =>
          obtain rfl := Option.some.inj stepped
          exact dispatch_logged logged p shifted idx (logged.walking p shifted idx temp walker)
      · cases stepped
  | resume p =>
      simp only [step] at stepped
      split at stepped
      · obtain rfl := Option.some.inj stepped
        exact (executeShifted_moved s p _).logged logged
      · exact (executeFirst_moved stepped).logged logged
      · cases stepped

theorem run_alike {s s' t : STimer P} (memory memory' : Nat → TimerNode) (events : List (Event P))
    (alike : Alike s s') (ran : run (step memory) s events = some t) :
    ∃ t', run (step memory') s' events = some t' ∧ Alike t t' := by
  induction events generalizing s s' with
  | nil =>
      obtain rfl := Option.some.inj ran
      exact ⟨s', rfl, alike⟩
  | cons event rest ih =>
      obtain ⟨next, stepped, later⟩ := run_cons.mp ran
      rcases step_alike memory memory' event alike with ⟨blocked, -⟩ | ⟨u, u', taken, taken', alikeNext⟩
      · rw [blocked] at stepped
        cases stepped
      · obtain rfl := Option.some.inj (taken.symm.trans stepped)
        obtain ⟨t', ran', alikeFinal⟩ := ih alikeNext later
        exact ⟨t', run_cons.mpr ⟨u', taken', ran'⟩, alikeFinal⟩

theorem run_logged {memory : Nat → TimerNode} {s t : STimer P} {events : List (Event P)} (logged : Logged memory s)
    (ran : run (step memory) s events = some t) : Logged memory t :=
  run_invariant (Logged memory) (fun _ event _ logged stepped => step_logged event logged stepped) logged ran

omit [DecidableEq P] in
theorem ran_eq_iff {memory memory' : Nat → TimerNode} {s s' : STimer P} (logged : Logged memory s)
    (logged' : Logged memory' s') (alike : Alike s s') :
    s'.ran = s.ran ↔ ∀ turn ∈ s.turns, turn.atOnce = false → turn.node ∉ s.deleted →
      ((memory turn.node).cancel = 0 ↔ (memory' turn.node).cancel = 0) := by
  have turns : s'.turns = s.turns := by
    rw [alike]
    rfl
  have deleted : s'.deleted = s.deleted := by
    rw [alike]
    rfl
  rw [logged'.ran, logged.ran, turns, deleted]
  constructor
  · intro same turn mem later kept
    have both : turn.runs memory' s.deleted = turn.runs memory s.deleted := by
      have iff : turn ∈ s.turns.filter (Turn.runs memory' s.deleted) ↔
          turn ∈ s.turns.filter (Turn.runs memory s.deleted) := by
        rw [same]
      simp only [List.mem_filter, mem, true_and] at iff
      exact Bool.eq_iff_iff.mpr iff
    simp only [Turn.runs, later, kept, Bool.false_or, not_false_eq_true, true_and, decide_eq_decide] at both
    exact both.symm
  · intro same
    refine List.filter_congr ?_
    intro turn mem
    cases later : turn.atOnce with
    | true => simp [Turn.runs, later]
    | false =>
        by_cases marked : turn.node ∈ s.deleted
        · simp [Turn.runs, marked]
        · simpa [Turn.runs, later, marked] using (same turn mem later marked).symm

theorem timeWheel_stale_cancel {events : List (Event P)} {s : STimer P} (memory memory' : Nat → TimerNode)
    (ran : run (step memory) timerCreateTimer events = some s) :
    ∃ s', run (step memory') timerCreateTimer events = some s' ∧
      (s'.ran = s.ran ↔ ∀ turn ∈ s.turns, turn.atOnce = false → turn.node ∉ s.deleted →
        ((memory turn.node).cancel = 0 ↔ (memory' turn.node).cancel = 0)) := by
  have same : Alike (timerCreateTimer : STimer P) timerCreateTimer := rfl
  obtain ⟨s', ran', alike⟩ := run_alike memory memory' events same ran
  exact ⟨s', ran', ran_eq_iff (run_logged (timerCreateTimer_logged memory) ran)
    (run_logged (timerCreateTimer_logged memory') ran') alike⟩

def leftOver (cancel : UInt8) : TimerNode := { next := none, expire := 0, callback := 0, cancel := cancel, id := 0 }

def deletedInTime : List (Event Unit) :=
  [.addTimer 1 7 0, .addTimer 1 9 0, .delTimer 0, .update (), .dispatch (), .dispatch ()]

theorem timeWheel_stale_cancel_deleted :
    ∃ s, run (step fun _ => leftOver 0) timerCreateTimer deletedInTime = some s ∧
      s.ran.map Turn.callback = [9] ∧
      ∃ s', run (step fun node => leftOver (if node = 0 then 170 else 0)) timerCreateTimer deletedInTime = some s' ∧
        s'.ran = s.ran := by
  refine ⟨_, rfl, by decide, ?_⟩
  have ran : run (step fun _ => leftOver 0) timerCreateTimer deletedInTime = some _ := rfl
  obtain ⟨s', ran', same⟩ := timeWheel_stale_cancel _ (fun node => leftOver (if node = 0 then 170 else 0)) ran
  exact ⟨s', ran', same.mpr (by decide)⟩

-- One timer that nobody deletes fires or does not, as the memory was left.
theorem timeWheel_stale_lost :
    (run (step fun _ => leftOver 0) timerCreateTimer [.addTimer 1 7 0, .update (), .dispatch ()]).map
        (fun s : STimer Unit => s.ran.map Turn.callback) = some [7] ∧
      (run (step fun _ => leftOver 1) timerCreateTimer [.addTimer 1 7 0, .update (), .dispatch ()]).map
        (fun s : STimer Unit => s.ran.map Turn.callback) = some [] := by
  decide

end CppInfra.Timer.TimeWheel.Memory
