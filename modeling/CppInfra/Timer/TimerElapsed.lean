import CppInfra.Timer.MhTimerExpire
import CppInfra.Timer.SklTimerExpire

set_option autoImplicit false

namespace CppInfra.Timer.TimerElapsed

open Words Transition Dispatch

def SameTurn (c first second : Nat) : Prop := (c + first) / 2 ^ 32 = (c + second) / 2 ^ 32

instance (c first second : Nat) : Decidable (SameTurn c first second) := inferInstanceAs (Decidable (_ = _))

theorem early_iff {c msec elapsed : Nat} (short : msec < 2 ^ 31) (early : elapsed < msec) :
    add 32 c msec ≤ add 32 c elapsed ↔ ¬ SameTurn c msec elapsed := by
  unfold SameTurn add
  omega

theorem late_iff {c msec elapsed : Nat} (late : msec ≤ elapsed) (recent : elapsed < msec + 2 ^ 31) :
    add 32 c msec ≤ add 32 c elapsed ↔ SameTurn c msec elapsed := by
  unfold SameTurn add
  omega

-- What happens after the timer was added: other changes, and calls of `expire_timer` with the time that has
-- passed since then.
inductive Later (A : Type) where
  | change (a : A)
  | expireTimer (elapsed : Nat)

variable {Q N A : Type}

def Later.call (c : Nat) : Later A → Call A
  | .change a => .change a
  | .expireTimer elapsed => .dispatch (add 32 c elapsed)

def elapsedTimes (calls : List (Later A)) : List Nat :=
  calls.filterMap fun
    | .change _ => none
    | .expireTimer elapsed => some elapsed

theorem readings_map (c : Nat) (calls : List (Later A)) :
    readings (calls.map (Later.call c)) = (elapsedTimes calls).map (add 32 c) := by
  induction calls with
  | nil => rfl
  | cons call rest ih =>
      cases call <;> simpa [readings, elapsedTimes, Later.call] using ih

variable [DecidableEq N]

def NotRun (ops : Operations Q N A) (q : Q) (x : N) (c : Nat) (calls : List (Later A)) : Prop :=
  ∃ s, run ops.call (ops.start q) (calls.map (Later.call c)) = some s ∧ x ∉ s.fired

def RunByLast (ops : Operations Q N A) (q : Q) (x : N) (c : Nat) (calls : List (Later A)) (elapsed : Nat) : Prop :=
  NotRun ops q x c calls ∧
    ∃ s, run ops.call (ops.start q) ((calls ++ [Later.expireTimer elapsed]).map (Later.call c)) = some s ∧ x ∈ s.fired

-- The timer `x` was added at the clock `c` with the delay `msec`. It is left alone by all calls made before
-- the delay is over, and run by the first one after it, as long as the clock does not start again in between;
-- and only then.
def PunctualIff (ops : Operations Q N A) (allowed : Q → List N → A → Prop) (q : Q) (x : N) (c msec : Nat) :
    Prop :=
  ∀ calls, (∀ elapsed ∈ elapsedTimes calls, elapsed < msec) →
    Along ops.call (CallMeets ops allowed) (ops.start q) (calls.map (Later.call c)) →
      (NotRun ops q x c calls ↔ ∀ elapsed ∈ elapsedTimes calls, SameTurn c msec elapsed) ∧
        ∀ elapsed, msec ≤ elapsed → elapsed < msec + 2 ^ 31 →
          (RunByLast ops q x c calls elapsed ↔
            (∀ earlier ∈ elapsedTimes calls, SameTurn c msec earlier) ∧ SameTurn c msec elapsed)

variable {ops : Operations Q N A} {Good : Q → Prop} {used : Q → N → Prop} {allowed : Q → List N → A → Prop}

theorem notRun_iff (lawful : Lawful ops Good used allowed) {q : Q} {x : N} {c msec : Nat} (good : Good q)
    (pending : x ∈ ops.pending q) (key : ops.key q x = add 32 c msec) (calls : List (Later A))
    (met : Along ops.call (CallMeets ops allowed) (ops.start q) (calls.map (Later.call c))) :
    NotRun ops q x c calls ↔ ∀ elapsed ∈ elapsedTimes calls, ¬ add 32 c msec ≤ add 32 c elapsed := by
  obtain ⟨s, ran, followed⟩ := run_followed lawful good pending met
  have fired := followed.fired
  rw [key, readings_map] at fired
  simp only [List.mem_map, exists_exists_and_eq_and] at fired
  constructor
  · rintro ⟨same, ranSame, notFired⟩ elapsed member passed
    obtain rfl := Option.some.inj (ran.symm.trans ranSame)
    exact notFired (fired.mpr ⟨elapsed, member, passed⟩)
  · intro ahead
    refine ⟨s, ran, fun run => ?_⟩
    obtain ⟨elapsed, member, passed⟩ := fired.mp run
    exact ahead elapsed member passed

theorem punctualIff (lawful : Lawful ops Good used allowed) {q : Q} {x : N} {c msec : Nat} (good : Good q)
    (pending : x ∈ ops.pending q) (key : ops.key q x = add 32 c msec) (short : msec < 2 ^ 31) :
    PunctualIff ops allowed q x c msec := by
  intro calls early met
  have waiting : NotRun ops q x c calls ↔ ∀ elapsed ∈ elapsedTimes calls, SameTurn c msec elapsed := by
    rw [notRun_iff lawful good pending key calls met]
    refine forall₂_congr fun elapsed member => ?_
    rw [early_iff short (early elapsed member), not_not]
  refine ⟨waiting, fun elapsed late recent => ?_⟩
  have metLast : Along ops.call (CallMeets ops allowed) (ops.start q)
      ((calls ++ [Later.expireTimer elapsed]).map (Later.call c)) := by
    rw [List.map_append]
    exact along_append.mpr ⟨met, fun middle _ => ⟨trivial, fun _ _ => trivial⟩⟩
  rw [RunByLast, waiting, and_congr_right_iff]
  intro sameSoFar
  have last := notRun_iff lawful good pending key (calls ++ [.expireTimer elapsed]) metLast
  have times : elapsedTimes (calls ++ [.expireTimer elapsed]) = elapsedTimes calls ++ [elapsed] := by
    simp [elapsedTimes]
  rw [times] at last
  obtain ⟨s, ran, -⟩ := run_followed lawful good pending metLast
  rw [← late_iff late recent]
  constructor
  · rintro ⟨same, ranSame, fired⟩
    by_contra ahead
    obtain ⟨other, ranOther, notFired⟩ := last.mpr fun time member => by
      rcases List.mem_append.mp member with earlier | isLast
      · rw [early_iff short (early time earlier), not_not]
        exact sameSoFar time earlier
      · rw [List.mem_singleton.mp isLast]
        exact ahead
    obtain rfl := Option.some.inj (ranSame.symm.trans ranOther)
    exact notFired fired
  · intro passed
    refine ⟨s, ran, ?_⟩
    by_contra notFired
    exact last.mp ⟨s, ran, notFired⟩ elapsed (by simp) passed

theorem timers_punctual_iff (c msec : Nat) (short : msec < 2 ^ 31) :
    (∀ before s malloc realloc te next,
      Along MhTimer.expireTimer.step (Meets MhTimer.allowed) (MhTimer.expireTimer.start MhTimer.initTimer) before →
      run MhTimer.expireTimer.step (MhTimer.expireTimer.start MhTimer.initTimer) before = some s →
      s.queue.heap.n + 1 < 2 ^ 31 →
      MhTimer.addTimer s.queue msec c malloc realloc = some (some te, next) →
      PunctualIff MhTimer.expireTimer MhTimer.allowed next te c msec) ∧
    (∀ (H : Type) (defaultHandler func : H) before s draws x next,
      Along SklTimer.expireTimer.step (Meets SklTimer.allowed)
        (SklTimer.expireTimer.start (SkipList.zslCreate defaultHandler)) before →
      run SklTimer.expireTimer.step (SklTimer.expireTimer.start (SkipList.zslCreate defaultHandler)) before = some s →
      s.queue.members.length + 1 < 2 ^ 31 →
      SklTimer.addTimer s.queue msec c func draws = some (x, next) →
      PunctualIff SklTimer.expireTimer SklTimer.allowed next x c msec) := by
  constructor
  · intro before s malloc realloc te next met ran room added
    obtain ⟨same, ranSame, accounted⟩ :=
      run_accounted MhTimer.expireTimer_lawful MhTimer.initTimer_good met
    obtain rfl := Option.some.inj (ran.symm.trans ranSame)
    obtain ⟨result, after, called, outcome⟩ := MhTimer.addTimer_spec accounted.good room msec c malloc realloc
    obtain ⟨rfl, rfl⟩ := Prod.mk.inj (Option.some.inj (called.symm.trans added))
    obtain ⟨-, pending, time⟩ := outcome.new te rfl
    exact punctualIff MhTimer.expireTimer_lawful outcome.good pending time short
  · intro H defaultHandler func before s draws x next met ran room added
    obtain ⟨same, ranSame, accounted⟩ :=
      run_accounted SklTimer.expireTimer_lawful ⟨[], SkipList.initial_inv defaultHandler⟩ met
    obtain rfl := Option.some.inj (ran.symm.trans ranSame)
    obtain ⟨order, inv⟩ := accounted.good
    rw [inv.members] at room
    obtain ⟨after, inserted, invAfter, -, key, -⟩ := inv.zslInsert (add 32 msec c) func draws room
    obtain ⟨rfl, rfl⟩ := Prod.mk.inj (Option.some.inj (inserted.symm.trans added))
    refine punctualIff SklTimer.expireTimer_lawful ⟨_, invAfter⟩ ?_ ?_ short
    · rw [SklTimer.Inv.pending invAfter]
      simp
    · rw [add, Nat.add_comm c msec]
      exact key

theorem timers_punctual_iff_plain :
    (∃ next, MhTimer.addTimer MhTimer.initTimer 10 1000 true true = some (some 0, next) ∧
      RunByLast MhTimer.expireTimer next 0 1000 [.expireTimer 3, .expireTimer 9] 10) ∧
    ∃ next, SklTimer.addTimer (SkipList.zslCreate ()) 10 1000 () [] = some (1, next) ∧
      RunByLast SklTimer.expireTimer next 1 1000 [.expireTimer 3, .expireTimer 9] 10 := by
  have whole := timers_punctual_iff 1000 10 (by decide)
  have early : ∀ elapsed ∈ elapsedTimes (A := MhTimer.Change) [.expireTimer 3, .expireTimer 9], elapsed < 10 := by
    decide
  have mh : (MhTimer.addTimer MhTimer.initTimer 10 1000 true true).map Prod.fst = some (some 0) := by decide
  have skl : (SklTimer.addTimer (SkipList.zslCreate ()) 10 1000 () []).map Prod.fst = some 1 := by decide
  obtain ⟨⟨te, next⟩, addedMh, rfl⟩ := Option.map_eq_some_iff.mp mh
  obtain ⟨⟨x, list⟩, addedSkl, rfl⟩ := Option.map_eq_some_iff.mp skl
  refine ⟨⟨next, addedMh, ?_⟩, list, addedSkl, ?_⟩
  · have punctual := whole.1 [] _ true true 0 next trivial rfl (by decide) addedMh
    have outcome := (punctual [.expireTimer 3, .expireTimer 9] early
      ⟨trivial, fun _ _ => ⟨trivial, fun _ _ => trivial⟩⟩).2 10 (by decide) (by decide)
    exact outcome.mpr (by decide)
  · have punctual := whole.2 Unit () () [] _ [] 1 list trivial rfl (by decide) addedSkl
    have outcome := (punctual [.expireTimer 3, .expireTimer 9] (by decide)
      ⟨trivial, fun _ _ => ⟨trivial, fun _ _ => trivial⟩⟩).2 10 (by decide) (by decide)
    exact outcome.mpr (by decide)

-- Added 5 ms before the clock starts again, the timer of 10 ms is run at once, and a timer of 3 ms is not
-- run 7 ms later.
theorem timers_wrapped :
    (∃ next s, MhTimer.addTimer MhTimer.initTimer 10 (2 ^ 32 - 5) true true = some (some 0, next) ∧
      MhTimer.expireTimer.dispatch (MhTimer.expireTimer.start next) (add 32 (2 ^ 32 - 5) 0) = some s ∧
      s.fired = [0] ∧ ¬ NotRun MhTimer.expireTimer next 0 (2 ^ 32 - 5) [.expireTimer 0]) ∧
    ∃ next s, SklTimer.addTimer (SkipList.zslCreate ()) 3 (2 ^ 32 - 5) () [] = some (1, next) ∧
      SklTimer.expireTimer.dispatch (SklTimer.expireTimer.start next) (add 32 (2 ^ 32 - 5) 7) = some s ∧
      s.fired = [] ∧ ¬ RunByLast SklTimer.expireTimer next 1 (2 ^ 32 - 5) [] 7 := by
  have mh : (MhTimer.addTimer MhTimer.initTimer 10 (2 ^ 32 - 5) true true).map (fun result =>
      (result.1, (MhTimer.expireTimer.dispatch (MhTimer.expireTimer.start result.2)
        (add 32 (2 ^ 32 - 5) 0)).map State.fired)) = some (some 0, some [0]) := by
    decide
  have skl : (SklTimer.addTimer (SkipList.zslCreate ()) 3 (2 ^ 32 - 5) () []).map (fun result =>
      (result.1, (SklTimer.expireTimer.dispatch (SklTimer.expireTimer.start result.2)
        (add 32 (2 ^ 32 - 5) 7)).map State.fired)) = some (1, some []) := by
    decide
  obtain ⟨⟨te, next⟩, addedMh, outcomeMh⟩ := Option.map_eq_some_iff.mp mh
  obtain ⟨⟨x, list⟩, addedSkl, outcomeSkl⟩ := Option.map_eq_some_iff.mp skl
  obtain ⟨rfl, dispatchedMh⟩ := Prod.mk.inj outcomeMh
  obtain ⟨rfl, dispatchedSkl⟩ := Prod.mk.inj outcomeSkl
  obtain ⟨s, calledMh, firedMh⟩ := Option.map_eq_some_iff.mp dispatchedMh
  obtain ⟨t, calledSkl, firedSkl⟩ := Option.map_eq_some_iff.mp dispatchedSkl
  refine ⟨⟨next, s, addedMh, calledMh, firedMh, ?_⟩, list, t, addedSkl, calledSkl, firedSkl, ?_⟩
  · rintro ⟨same, ran, notFired⟩
    obtain ⟨last, called, done⟩ := run_cons.mp ran
    obtain rfl : last = same := Option.some.inj done
    obtain rfl := Option.some.inj (calledMh.symm.trans called)
    exact notFired (by simp [firedMh])
  · rintro ⟨-, same, ran, fired⟩
    obtain ⟨last, called, done⟩ := run_cons.mp ran
    obtain rfl : last = same := Option.some.inj done
    obtain rfl := Option.some.inj (calledSkl.symm.trans called)
    simp [firedSkl] at fired

end CppInfra.Timer.TimerElapsed
