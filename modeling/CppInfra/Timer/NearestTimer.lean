import CppInfra.Timer.MhTimerExpire
import CppInfra.Timer.RbtTimerExpire

set_option autoImplicit false

namespace CppInfra.Timer

open Words Transition Dispatch

-- `int diff = (int)key - (int)current_time(); return diff > 0 ? diff : 0;` A difference outside the range of
-- `int` is undefined.
def untilKey (key currentTime : Nat) : Option Int :=
  let diff := toSigned 32 key - toSigned 32 currentTime
  if -2 ^ 31 ≤ diff ∧ diff < 2 ^ 31 then some (if diff > 0 then diff else 0) else none

def MhTimer.findNearestExpireTimer (t : MhTimer.Timers) (currentTime : Nat) : Option Int := do
  match ← MhTimer.top t with
  | none => some (-1)
  | some te => untilKey (t.heap.time te) currentTime

def RbtTimer.findNearestExpireTimer (tree : RbtTimer.Tree) (currentTime : Nat) : Option Int :=
  match RbtTimer.ngxRbtreeMin tree with
  | none => some (-1)
  | some node => untilKey node.key currentTime

-- `expire_timer()` at this clock runs at least one handler.
def MhTimer.Runs (t : MhTimer.Timers) (currentTime : Nat) : Prop :=
  ∃ s, run expireTimer.step (expireTimer.start t) [.dispatch currentTime, .look] = some s ∧ s.fired ≠ []

def RbtTimer.Runs (nginx : RbtTimer.Nginx) (tree : RbtTimer.Tree) (currentTime : Nat) : Prop :=
  ∃ ran rest, expireTimer nginx currentTime (tree.order.length + 1) tree = some (ran, rest) ∧ ran ≠ []

-- The sleep time is 0 iff a handler would run now; else a handler would run when it is over, and none
-- before.
def Agrees (sleep : Nat → Option Int) (runs : Nat → Prop) (now : Nat) : Prop :=
  ∃ result, sleep now = some result ∧ (result = 0 ↔ runs now) ∧
    ∀ d : Nat, 0 < d → result = d → runs (add 32 now d) ∧ ∀ earlier < d, ¬ runs (add 32 now earlier)

def SameHalf (key now : Nat) : Prop := key < 2 ^ 31 ↔ now < 2 ^ 31

instance (key now : Nat) : Decidable (SameHalf key now) := inferInstanceAs (Decidable (_ ↔ _))

theorem toSigned_half {k : Nat} (word : k < 2 ^ 32) :
    toSigned 32 k = if k < 2 ^ 31 then (k : Int) else k - 2 ^ 32 := by
  have low : k % 2 ^ 32 = k := Nat.mod_eq_of_lt word
  rw [toSigned, low]

theorem untilKey_same {key now : Nat} (keyWord : key < 2 ^ 32) (word : now < 2 ^ 32) (same : SameHalf key now) :
    untilKey key now = some ((key - now : Nat) : Int) := by
  have diff : toSigned 32 key - toSigned 32 now = (key : Int) - now := by
    rw [toSigned_half keyWord, toSigned_half word]
    unfold SameHalf at same
    split_ifs <;> omega
  have inside : -2 ^ 31 ≤ (key : Int) - now ∧ (key : Int) - now < 2 ^ 31 := by
    unfold SameHalf at same
    omega
  simp only [untilKey, diff, if_pos inside, Option.some.injEq]
  split_ifs <;> omega

theorem untilKey_apart {key now : Nat} {result : Int} (keyWord : key < 2 ^ 32) (word : now < 2 ^ 32)
    (apart : ¬ SameHalf key now) (returned : untilKey key now = some result) : ¬ (result = 0 ↔ key ≤ now) := by
  simp only [untilKey] at returned
  split_ifs at returned with inside positive
  · obtain rfl := Option.some.inj returned
    rw [toSigned_half keyWord, toSigned_half word] at positive ⊢
    unfold SameHalf at apart
    split_ifs at positive ⊢ <;> omega
  · obtain rfl := Option.some.inj returned
    rw [toSigned_half keyWord, toSigned_half word] at positive
    unfold SameHalf at apart
    split_ifs at positive <;> omega

theorem agrees_iff {key now : Nat} {sleep : Nat → Option Int} {runs : Nat → Prop} (keyWord : key < 2 ^ 32)
    (word : now < 2 ^ 32) (sleeps : sleep now = untilKey key now) (due : ∀ clock, runs clock ↔ key ≤ clock) :
    Agrees sleep runs now ↔ SameHalf key now := by
  constructor
  · rintro ⟨result, returned, now_iff, -⟩
    by_contra apart
    rw [sleeps] at returned
    rw [due now] at now_iff
    exact untilKey_apart keyWord word apart returned now_iff
  · intro same
    refine ⟨((key - now : Nat) : Int), by rw [sleeps, untilKey_same keyWord word same], ?_, ?_⟩
    · rw [due now]
      omega
    · intro d positive isDelay
      have delay : key = now + d := by omega
      have clock (n : Nat) (bound : n ≤ d) : add 32 now n = now + n := add_exact (by omega)
      refine ⟨?_, fun earlier before => ?_⟩
      · rw [due, clock d (Nat.le_refl d)]
        omega
      · rw [due, clock earlier (Nat.le_of_lt before)]
        omega

theorem MhTimer.runs_iff {t : MhTimer.Timers} {te : Nat} (isTop : MhTimer.top t = some (some te)) (clock : Nat) :
    MhTimer.Runs t clock ↔ t.heap.time te ≤ clock := by
  have topOf : expireTimer.top t = some (some te) := isTop
  have keyOf : expireTimer.key t te = t.heap.time te := rfl
  by_cases later : t.heap.time te > clock
  · have ran : run expireTimer.step (expireTimer.start t) [.dispatch clock, .look] = some (expireTimer.start t) := by
      simp [run, Operations.step, Operations.start, topOf, keyOf, later]
    refine ⟨?_, fun due => by omega⟩
    rintro ⟨s, ranSame, fired⟩
    obtain rfl := Option.some.inj (ran.symm.trans ranSame)
    exact absurd rfl fired
  · have due : t.heap.time te ≤ clock := by omega
    refine ⟨fun _ => due, fun _ => ?_⟩
    refine ⟨_, by simp [run, Operations.step, Operations.start, topOf, keyOf, later]; rfl, ?_⟩
    simp

theorem RbtTimer.runs_iff (nginx : RbtTimer.Nginx) {tree : RbtTimer.Tree} {node : RbtTimer.TimerEntry}
    (least : RbtTimer.ngxRbtreeMin tree = some node) (clock : Nat) :
    RbtTimer.Runs nginx tree clock ↔ node.key ≤ clock := by
  obtain ⟨later, order⟩ := List.head?_eq_some_iff.mp ((ngxRbtreeMin_eq tree).symm.trans least)
  obtain ⟨rest, -, expired⟩ := expireTimer_spec nginx clock tree.order tree rfl
  have ran := expired (tree.order.length + 1) (Nat.lt_succ_self _)
  have runs : RbtTimer.Runs nginx tree clock ↔ tree.order.takeWhile (fun entry => entry.key ≤ clock) ≠ [] := by
    constructor
    · rintro ⟨handled, left, ranSame, some⟩
      obtain ⟨rfl, -⟩ := Prod.mk.inj (Option.some.inj (ran.symm.trans ranSame))
      exact some
    · exact fun some => ⟨_, rest, ran, some⟩
  rw [runs, order, List.takeWhile_cons]
  split_ifs with due <;> simpa using due

theorem sleep_agrees_iff (now : Nat) (word : now < 2 ^ 32) :
    (∀ t, MhTimer.Stored t → t.heap.n ≠ 0 → ∃ te, MhTimer.top t = some (some te) ∧
      (Agrees (MhTimer.findNearestExpireTimer t) (MhTimer.Runs t) now ↔ SameHalf (t.heap.time te) now)) ∧
    (∀ nginx tree, (∀ entry ∈ tree.order, entry.key < 2 ^ 32) → tree ≠ .sentinel →
      ∃ node, RbtTimer.ngxRbtreeMin tree = some node ∧
        (Agrees (RbtTimer.findNearestExpireTimer tree) (RbtTimer.Runs nginx tree) now ↔ SameHalf node.key now)) := by
  constructor
  · intro t stored nonempty
    obtain ⟨te, member, -, isTop⟩ := stored.root_mem nonempty
    refine ⟨te, isTop, agrees_iff (stored.words te member) word ?_ (MhTimer.runs_iff isTop)⟩
    simp [MhTimer.findNearestExpireTimer, isTop]
  · intro nginx tree words nonempty
    have least := RbtTimer.ngxRbtreeMin_eq tree
    cases order : tree.order with
    | nil =>
        cases tree with
        | sentinel => exact absurd rfl nonempty
        | node left entry right => simp [RbtTimer.Tree.order] at order
    | cons node later =>
        rw [order, List.head?_cons] at least
        refine ⟨node, least, agrees_iff (words node (by simp [order])) word ?_ (RbtTimer.runs_iff nginx least)⟩
        simp [RbtTimer.findNearestExpireTimer, least]

theorem sleep_agrees_iff_plain :
    (∃ t, MhTimer.change MhTimer.initTimer (.addTimer 3000 500 true true) = some t ∧
      Agrees (MhTimer.findNearestExpireTimer t) (MhTimer.Runs t) 1500) ∧
    Agrees (RbtTimer.findNearestExpireTimer (RbtTimer.addTimer RbtTimer.unbalanced .sentinel 3000 500 0))
      (RbtTimer.Runs RbtTimer.unbalanced (RbtTimer.addTimer RbtTimer.unbalanced .sentinel 3000 500 0)) 1500 := by
  have agrees := sleep_agrees_iff 1500 (by decide)
  obtain ⟨result, t, called, added⟩ :=
    MhTimer.addTimer_spec MhTimer.initTimer_good (by decide) 3000 500 true true
  have results : (MhTimer.addTimer MhTimer.initTimer 3000 500 true true).map (fun result =>
      (decide (result.2.heap.n ≠ 0), MhTimer.top result.2, result.2.heap.time 0)) =
        some (true, some (some 0), 3500) := by
    decide
  rw [called, Option.map_some, Option.some.injEq] at results
  simp only [Prod.mk.injEq, decide_eq_true_eq] at results
  obtain ⟨nonempty, first, time⟩ := results
  constructor
  · refine ⟨t, by simp [MhTimer.change, called], ?_⟩
    obtain ⟨te, isTop, holds⟩ := agrees.1 t added.good.toStored nonempty
    obtain rfl : te = 0 := by
      rw [first] at isTop
      simpa using isTop.symm
    rw [holds, time]
    decide
  · obtain ⟨node, least, holds⟩ := agrees.2 RbtTimer.unbalanced
      (RbtTimer.addTimer RbtTimer.unbalanced .sentinel 3000 500 0) (by decide) (by decide)
    obtain rfl : (⟨3500, 0⟩ : RbtTimer.TimerEntry) = node := by
      have first : RbtTimer.ngxRbtreeMin (RbtTimer.addTimer RbtTimer.unbalanced .sentinel 3000 500 0) =
          some ⟨3500, 0⟩ := by decide
      exact Option.some.inj (first.symm.trans least)
    rw [holds]
    decide

-- A timer of 15 ms added 10 ms before the clock starts again: `expire_timer` takes it for due at once, while
-- the sleep time is 15 ms.
theorem sleep_disagrees :
    (∃ t, MhTimer.change MhTimer.initTimer (.addTimer 15 (2 ^ 32 - 10) true true) = some t ∧
      MhTimer.findNearestExpireTimer t (2 ^ 32 - 10) = some 15 ∧ MhTimer.Runs t (2 ^ 32 - 10) ∧
      ¬ Agrees (MhTimer.findNearestExpireTimer t) (MhTimer.Runs t) (2 ^ 32 - 10)) ∧
    ∃ tree, tree = RbtTimer.addTimer RbtTimer.unbalanced .sentinel 15 (2 ^ 32 - 10) 0 ∧
      RbtTimer.findNearestExpireTimer tree (2 ^ 32 - 10) = some 15 ∧
      RbtTimer.Runs RbtTimer.unbalanced tree (2 ^ 32 - 10) ∧
      ¬ Agrees (RbtTimer.findNearestExpireTimer tree) (RbtTimer.Runs RbtTimer.unbalanced tree) (2 ^ 32 - 10) := by
  have differs {sleep : Nat → Option Int} {runs : Nat → Prop} (sleeps : sleep (2 ^ 32 - 10) = some 15)
      (ran : runs (2 ^ 32 - 10)) : ¬ Agrees sleep runs (2 ^ 32 - 10) := by
    rintro ⟨result, returned, zero, -⟩
    obtain rfl := Option.some.inj (sleeps.symm.trans returned)
    exact absurd (zero.mpr ran) (by decide)
  constructor
  · have results : (MhTimer.change MhTimer.initTimer (.addTimer 15 (2 ^ 32 - 10) true true)).map (fun t =>
        (MhTimer.findNearestExpireTimer t (2 ^ 32 - 10), MhTimer.top t, t.heap.time 0)) =
          some (some 15, some (some 0), 5) := by
      decide
    obtain ⟨t, added, outcome⟩ := Option.map_eq_some_iff.mp results
    simp only [Prod.mk.injEq] at outcome
    obtain ⟨sleeps, isTop, time⟩ := outcome
    have ran : MhTimer.Runs t (2 ^ 32 - 10) := (MhTimer.runs_iff isTop _).mpr (by rw [time]; decide)
    exact ⟨t, added, sleeps, ran, differs sleeps ran⟩
  · have sleeps : RbtTimer.findNearestExpireTimer
        (RbtTimer.addTimer RbtTimer.unbalanced .sentinel 15 (2 ^ 32 - 10) 0) (2 ^ 32 - 10) = some 15 := by
      decide
    have least : RbtTimer.ngxRbtreeMin (RbtTimer.addTimer RbtTimer.unbalanced .sentinel 15 (2 ^ 32 - 10) 0) =
        some ⟨5, 0⟩ := by decide
    have ran := (RbtTimer.runs_iff RbtTimer.unbalanced least (2 ^ 32 - 10)).mpr (by decide)
    exact ⟨_, rfl, sleeps, ran, differs sleeps ran⟩

end CppInfra.Timer
