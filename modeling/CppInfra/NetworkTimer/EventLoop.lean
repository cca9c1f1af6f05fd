import CppInfra.NetworkTimer.Timer

set_option autoImplicit false

namespace CppInfra.NetworkTimer.Timer

open Words Transition

structure Ordered (map : TimerMap) : Prop where
  sorted : map.Pairwise fun entry later => entry.1 ≤ later.1
  words : ∀ entry ∈ map, entry.1 < 2 ^ 64

theorem insert_perm (entry : Nat × Nat) (map : TimerMap) : (insert entry map).Perm (entry :: map) := by
  induction map with
  | nil => exact List.Perm.refl _
  | cons other rest ih =>
      rw [insert]
      split
      · exact (ih.cons other).trans (List.Perm.swap entry other rest)
      · exact List.Perm.refl _

theorem insert_sorted {entry : Nat × Nat} {map : TimerMap}
    (sorted : map.Pairwise fun entry later => entry.1 ≤ later.1) :
    (insert entry map).Pairwise fun entry later => entry.1 ≤ later.1 := by
  induction map with
  | nil => exact List.pairwise_singleton ..
  | cons other rest ih =>
      obtain ⟨first, later⟩ := List.pairwise_cons.mp sorted
      rw [insert]
      split
      · rename_i before
        refine List.pairwise_cons.mpr ⟨?_, ih later⟩
        intro x member
        rcases List.mem_cons.mp ((insert_perm entry rest).mem_iff.mp member) with rfl | old
        · exact before
        · exact first x old
      · rename_i behind
        refine List.pairwise_cons.mpr ⟨?_, sorted⟩
        intro x member
        rcases List.mem_cons.mp member with rfl | old
        · omega
        · have order := first x old
          omega

theorem Ordered.insert {map : TimerMap} (ordered : Ordered map) {entry : Nat × Nat} (word : entry.1 < 2 ^ 64) :
    Ordered (insert entry map) where
  sorted := insert_sorted ordered.sorted
  words := by
    intro x member
    rcases List.mem_cons.mp ((insert_perm entry map).mem_iff.mp member) with rfl | old
    · exact word
    · exact ordered.words x old

theorem sorted_last {map : TimerMap} {last : Nat × Nat} (sorted : map.Pairwise fun entry later => entry.1 ≤ later.1)
    (at_ : map.getLast? = some last) : ∀ entry ∈ map, entry.1 ≤ last.1 := by
  intro entry member
  obtain ⟨front, rfl⟩ := List.getLast?_eq_some_iff.mp at_
  rcases List.mem_append.mp member with early | final
  · exact (List.pairwise_append.mp sorted).2.2 entry early last (List.mem_singleton_self _)
  · rw [List.mem_singleton.mp final]

theorem Ordered.append {map : TimerMap} (ordered : Ordered map) {entry : Nat × Nat} (word : entry.1 < 2 ^ 64)
    (behind : ∀ other ∈ map, other.1 ≤ entry.1) : Ordered (map ++ [entry]) where
  sorted := by
    refine List.pairwise_append.mpr ⟨ordered.sorted, List.pairwise_singleton .., ?_⟩
    intro other member x last
    rw [List.mem_singleton.mp last]
    exact behind other member
  words := by
    intro x member
    rcases List.mem_append.mp member with old | last
    · exact ordered.words x old
    · rw [List.mem_singleton.mp last]
      exact word

theorem Ordered.emplaceHintEnd {map : TimerMap} (ordered : Ordered map) {entry : Nat × Nat} (word : entry.1 < 2 ^ 64) :
    Ordered (emplaceHintEnd entry map) := by
  rw [Timer.emplaceHintEnd]
  split
  · exact ⟨List.pairwise_singleton .., by simpa using word⟩
  · rename_i last at_
    split
    · rename_i fits
      apply ordered.append word
      intro other member
      exact (sorted_last ordered.sorted at_ other member).trans fits
    · exact ordered.insert word

theorem Ordered.addTimeout {map : TimerMap} (ordered : Ordered map) (node now diff : Nat) :
    Ordered (addTimeout map node now diff) := by
  have word : add 64 now diff < 2 ^ 64 := add_lt ..
  rw [Timer.addTimeout]
  split
  · exact ordered.insert word
  · split
    · exact ordered.insert word
    · exact ordered.emplaceHintEnd word

theorem Ordered.sublist {map fewer : TimerMap} (ordered : Ordered map) (inside : fewer.Sublist map) :
    Ordered fewer where
  sorted := ordered.sorted.sublist inside
  words := fun entry member => ordered.words entry (inside.subset member)

theorem delTimeout_sublist (map : TimerMap) (timeout node : Nat) : (delTimeout map timeout node).Sublist map := by
  have range (first : TimerMap) : ((first.takeWhile fun entry => entry.1 ≤ timeout).eraseP
      (fun entry => entry.2 = node) ++ first.dropWhile fun entry => entry.1 ≤ timeout).Sublist first := by
    conv_rhs => rw [← first.takeWhile_append_dropWhile (p := fun entry => entry.1 ≤ timeout)]
    exact List.eraseP_sublist.append (List.Sublist.refl _)
  conv_rhs => rw [← map.takeWhile_append_dropWhile (p := fun entry => entry.1 < timeout)]
  exact (List.Sublist.refl _).append (range _)

theorem step_ordered {s t : Loop} {event : Event} (ordered : Ordered s.timerMap) (taken : step s event = some t) :
    Ordered t.timerMap := by
  cases event with
  | addTimeout now diff =>
      rw [step, Option.ite_none_right_eq_some] at taken
      obtain rfl := Option.some.inj taken.2
      exact ordered.addTimeout ..
  | delTimeout node =>
      rw [step, Option.ite_none_right_eq_some] at taken
      obtain ⟨timeout, -, final⟩ := Option.bind_eq_some_iff.mp taken.2
      obtain rfl := Option.some.inj final
      exact ordered.sublist (delTimeout_sublist s.timerMap timeout node)
  | epollWait now =>
      rw [step, Option.ite_none_right_eq_some] at taken
      obtain rfl := Option.some.inj taken.2
      exact ordered
  | interrupted | woken =>
      rw [step] at taken
      split at taken
      · obtain rfl := Option.some.inj taken
        exact ordered
      · cases taken
  | handleTimeout =>
      rw [step, Option.ite_none_right_eq_some] at taken
      obtain rfl := Option.some.inj taken.2
      exact ordered
  | test now =>
      rw [step] at taken
      split at taken
      · obtain rfl := Option.some.inj taken
        exact ordered
      · obtain ⟨first, _, final⟩ := Option.bind_eq_some_iff.mp taken
        obtain rfl := Option.some.inj final
        exact ordered
      · cases taken
  | callbackDone =>
      rw [step] at taken
      split at taken
      · obtain rfl := Option.some.inj taken
        exact ordered.sublist List.eraseP_sublist
      · cases taken

def Earliest (map : TimerMap) (deadline : Nat) : Prop :=
  (∃ node, (deadline, node) ∈ map) ∧ ∀ entry ∈ map, deadline ≤ entry.1

def SleepsInTime (map : TimerMap) (now : Nat) (timeout : Int) : Prop :=
  (timeout < 0 → map = []) ∧ ∀ deadline, Earliest map deadline →
    (deadline ≤ now → timeout = 0) ∧ (now < deadline → 1 ≤ timeout ∧ timeout ≤ (deadline : Int) - now)

-- The difference, reduced to the 32 bits of an `int`, is right: an overdue timer is late by a multiple of
-- 2 ^ 32 (0 included), and for a future one the low 32 bits of the delay are a positive `int`.
def Narrow (map : TimerMap) (now : Nat) : Prop :=
  ∀ deadline, Earliest map deadline →
    (deadline ≤ now → (now - deadline) % 2 ^ 32 = 0) ∧
      (now < deadline → 0 < (deadline - now) % 2 ^ 32 ∧ (deadline - now) % 2 ^ 32 < 2 ^ 31)

theorem Ordered.earliest {first node : Nat} {rest : TimerMap} (ordered : Ordered ((first, node) :: rest)) :
    Earliest ((first, node) :: rest) first := by
  refine ⟨⟨node, List.mem_cons_self ..⟩, ?_⟩
  intro entry member
  rcases List.mem_cons.mp member with rfl | later
  · exact Nat.le_refl _
  · exact (List.pairwise_cons.mp ordered.sorted).1 entry later

theorem Earliest.unique {map : TimerMap} {x y : Nat} (left : Earliest map x) (right : Earliest map y) : x = y := by
  obtain ⟨⟨n, atX⟩, leastX⟩ := left
  obtain ⟨⟨k, atY⟩, leastY⟩ := right
  have one := leastX _ atY
  have two := leastY _ atX
  omega

theorem waitTime_cons (first node now : Nat) (rest : TimerMap) :
    waitTime ((first, node) :: rest) now = toSigned 32 (sub 64 first now) := by
  simp only [waitTime]
  split
  · rfl
  · rename_i zero
    rw [show sub 64 first now = 0 by omega]

theorem waitTime_due {first node now : Nat} {rest : TimerMap} (word : now < 2 ^ 64) (due : first ≤ now) :
    waitTime ((first, node) :: rest) now = 0 ↔ (now - first) % 2 ^ 32 = 0 := by
  rw [waitTime_cons]
  have cases := toSigned_cases 32 (sub 64 first now)
  rw [sub] at cases ⊢
  omega

theorem waitTime_future {first node now : Nat} {rest : TimerMap} (word : first < 2 ^ 64) (future : now < first) :
    (1 ≤ waitTime ((first, node) :: rest) now ∧ waitTime ((first, node) :: rest) now ≤ (first : Int) - now) ↔
      0 < (first - now) % 2 ^ 32 ∧ (first - now) % 2 ^ 32 < 2 ^ 31 := by
  have exact : sub 64 first now = first - now := sub_exact (by omega) word
  rw [waitTime_cons, exact]
  have cases := toSigned_cases 32 (first - now)
  omega

theorem Ordered.sleeps_iff {map : TimerMap} (ordered : Ordered map) {now : Nat} (word : now < 2 ^ 64) :
    SleepsInTime map now (waitTime map now) ↔ Narrow map now := by
  cases map with
  | nil =>
      have nobody : ∀ deadline, ¬ Earliest [] deadline := by
        rintro deadline ⟨⟨node, member⟩, _⟩
        cases member
      exact ⟨fun _ deadline earliest => absurd earliest (nobody deadline),
        fun _ => ⟨fun _ => rfl, fun deadline earliest => absurd earliest (nobody deadline)⟩⟩
  | cons entry rest =>
      obtain ⟨first, node⟩ := entry
      have earliest := ordered.earliest
      have words := ordered.words _ (List.mem_cons_self ..)
      constructor
      · intro sleeps deadline other
        obtain rfl := earliest.unique other
        refine ⟨fun due => (waitTime_due word due).mp ((sleeps.2 first earliest).1 due), ?_⟩
        intro future
        exact (waitTime_future words future).mp ((sleeps.2 first earliest).2 future)
      · intro narrow
        have due : first ≤ now → waitTime ((first, node) :: rest) now = 0 :=
          fun due => (waitTime_due word due).mpr ((narrow first earliest).1 due)
        have future : now < first → 1 ≤ waitTime ((first, node) :: rest) now ∧
            waitTime ((first, node) :: rest) now ≤ (first : Int) - now :=
          fun future => (waitTime_future words future).mpr ((narrow first earliest).2 future)
        constructor
        · intro negative
          rcases Nat.lt_or_ge now first with ahead | reached
          · have positive := (future ahead).1
            omega
          · have zero := due reached
            omega
        · intro deadline other
          obtain rfl := earliest.unique other
          exact ⟨due, future⟩

theorem eventLoop_sleep (events : List Event) (s : Loop) (now : Nat) (ran : run step Loop.initial events = some s)
    (top : s.phase = .top) (word : now < 2 ^ 64) :
    ∃ t timeout, step s (.epollWait now) = some t ∧ t.phase = .waiting timeout ∧
      (SleepsInTime s.timerMap now timeout ↔ Narrow s.timerMap now) := by
  have initial : Ordered Loop.initial.timerMap := ⟨List.Pairwise.nil, by simp [Loop.initial]⟩
  have ordered := run_invariant (fun s => Ordered s.timerMap) (fun _ _ _ held taken => step_ordered held taken)
    initial ran
  exact ⟨_, _, if_pos ⟨top, word⟩, rfl, ordered.sleeps_iff word⟩

-- The timer is due at 105; the clock reads 104 in `HandleTimeout` and 106 in `WaitTime`.
def overdue : List Event :=
  [.addTimeout 100 5, .epollWait 100, .woken, .handleTimeout, .test 104]

theorem eventLoop_sleep_overdue :
    ∃ s t, run step Loop.initial overdue = some s ∧ step s (.epollWait 106) = some t ∧ t.phase = .waiting (-1) ∧
      s.timerMap = [(105, 0)] ∧ ¬ SleepsInTime s.timerMap 106 (-1) := by
  refine ⟨{ timerMap := [(105, 0)], timeouts := [105], phase := .top },
    { timerMap := [(105, 0)], timeouts := [105], phase := .waiting (-1) }, by decide, by decide, rfl, rfl, ?_⟩
  intro sleeps
  have empty := sleeps.1 (by decide)
  cases empty

theorem eventLoop_sleep_ahead :
    ∃ s t timeout, run step Loop.initial [.addTimeout 100 5] = some s ∧ step s (.epollWait 100) = some t ∧
      t.phase = .waiting timeout ∧ (SleepsInTime s.timerMap 100 timeout ↔ Narrow s.timerMap 100) := by
  have ran : run step Loop.initial [.addTimeout 100 5] =
      some { timerMap := [(105, 0)], timeouts := [105], phase := .top } := by decide
  obtain ⟨t, timeout, taken, phase, sleeps⟩ := eventLoop_sleep _ _ 100 ran rfl (by decide)
  exact ⟨_, t, timeout, ran, taken, phase, sleeps⟩

end CppInfra.NetworkTimer.Timer
