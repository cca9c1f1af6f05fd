import CppInfra.Timer.MinHeapCalls
import CppInfra.Shared.Transition

set_option autoImplicit false

namespace CppInfra.Timer.MinHeap

open BinaryHeap Words Transition

-- The calls that change a heap, `realloc` being the outcome of a call of it.
inductive Event (E : Type) where
  | push (e : E) (realloc : Bool)
  | pop
  | erase (e : E)
  | adjust (e : E) (time : Nat) (realloc : Bool)

inductive Result (E : Type) where
  | code (value : Int)
  | entry (e : Option E)

variable {E : Type} [DecidableEq E]

def call (s : Heap E) : Event E → Option (Result E × Heap E)
  | .push e realloc => (minHeapPush s e realloc).map fun (code, t) => (.code code, t)
  | .pop => (minHeapPop s).map fun (e, t) => (.entry e, t)
  | .erase e => (minHeapErase s e).map fun (code, t) => (.code code, t)
  | .adjust e time realloc =>
      (minHeapAdjust (s.setTime e time) e realloc).map fun (code, t) => (.code code, t)

structure State (E : Type) where
  heap : Heap E
  left : E → Bool

def State.initial (time minHeapIdx : E → Nat) : State E :=
  { heap := minHeapCtor time minHeapIdx, left := fun _ => false }

def leave (left : E → Bool) : Event E → Result E → E → Bool
  | .push e _, .code value => if value = 0 then Function.update left e false else left
  | .adjust e _ _, .code value => if value = 0 then Function.update left e false else left
  | .pop, .entry (some e) => Function.update left e true
  | .erase e, .code value => if value = 0 then Function.update left e true else left
  | _, _ => left

def step (s : State E) (event : Event E) : Option (State E) := do
  let (result, heap) ← call s.heap event
  some { heap := heap, left := leave s.left event result }

-- What the callers promise.
def Allowed (s : Heap E) : Event E → Prop
  | .push e _ => e ∉ s.content
  | .pop => True
  | .erase e => s.minHeapIdx e = absent ∨ e ∈ s.content
  | .adjust e _ _ => s.minHeapIdx e = absent ∨ e ∈ s.content

instance allowedDecidable (s : Heap E) (event : Event E) : Decidable (Allowed s event) :=
  match event with
  | .push e _ => inferInstanceAs (Decidable (e ∉ s.content))
  | .pop => inferInstanceAs (Decidable True)
  | .erase e => inferInstanceAs (Decidable (s.minHeapIdx e = absent ∨ e ∈ s.content))
  | .adjust e _ _ => inferInstanceAs (Decidable (s.minHeapIdx e = absent ∨ e ∈ s.content))

-- The sizes at which no index wraps.
def Small (s : Heap E) : Event E → Prop
  | .push _ _ => s.n + 1 < 2 ^ 32
  | .pop => s.n < 2 ^ 31
  | .erase _ => s.n < 2 ^ 31
  | .adjust e _ _ => if s.minHeapIdx e = absent then s.n + 1 < 2 ^ 32 else s.n < 2 ^ 31

instance smallDecidable (s : Heap E) (event : Event E) : Decidable (Small s event) :=
  match event with
  | .push _ _ => inferInstanceAs (Decidable (s.n + 1 < 2 ^ 32))
  | .pop => inferInstanceAs (Decidable (s.n < 2 ^ 31))
  | .erase _ => inferInstanceAs (Decidable (s.n < 2 ^ 31))
  | .adjust e _ _ =>
      inferInstanceAs (Decidable (if s.minHeapIdx e = absent then s.n + 1 < 2 ^ 32 else s.n < 2 ^ 31))

def EffectPush (s : Heap E) (e : E) (result : Result E) (t : Heap E) : Prop :=
  (result = .code (-1) ∧ t = s) ∨ (result = .code 0 ∧ t.content.Perm (e :: s.content))

def Effect (s : Heap E) (result : Result E) (t : Heap E) : Event E → Prop
  | .push e _ => EffectPush s e result t
  | .pop =>
      (s.n = 0 → result = .entry none ∧ t = s) ∧
        (s.n ≠ 0 → ∃ e, result = .entry (some e) ∧ (∀ x ∈ s.content, s.time e ≤ s.time x) ∧
          (e :: t.content).Perm s.content)
  | .erase e =>
      (e ∉ s.content → result = .code (-1) ∧ t = s) ∧
        (e ∈ s.content → result = .code 0 ∧ (e :: t.content).Perm s.content)
  | .adjust e time _ =>
      (e ∉ s.content → EffectPush (s.setTime e time) e result t) ∧
        (e ∈ s.content → result = .code 0 ∧ t.content.Perm s.content)

structure Inv (s : State E) : Prop where
  sound : Sound s.heap
  left : ∀ x, s.left x = true → x ∉ s.heap.content ∧ s.heap.minHeapIdx x = absent

omit [DecidableEq E] in
theorem initial_inv (time minHeapIdx : E → Nat) : Inv (State.initial time minHeapIdx) := by
  refine ⟨⟨?_, ?_, Nat.le_refl 0, Nat.two_pow_pos 32⟩, by simp [State.initial]⟩
  · intro i inside
    exact absurd inside (Nat.not_lt_zero i)
  · intro i _ inside
    exact absurd inside (Nat.not_lt_zero i)

theorem Sound.setTime {s : Heap E} {e : E} (sound : Sound s) (new : e ∉ s.content) (time : Nat) :
    Sound (s.setTime e time) := by
  refine ⟨sound.entries, ?_, sound.size, sound.word⟩
  intro i positive inside x y above at_
  have := parent_lt positive
  have other (j : Nat) (z : E) (bound : j < s.n) (there : s.p j = some z) :
      (s.setTime e time).time z = s.time z := by
    apply Function.update_of_ne
    rintro rfl
    exact new (mem_stored.mpr ⟨j, bound, there⟩)
  rw [other _ x (Nat.lt_trans this inside) above, other i y inside at_]
  exact sound.ordered i positive inside x y above at_

omit [DecidableEq E] in
theorem Sound.absent_not_mem {s : Heap E} {e : E} (sound : Sound s) (gone : s.minHeapIdx e = absent) :
    e ∉ s.content := fun member => (sound.cell member).2.2 gone

variable {s : State E}

theorem Inv.left_pushed (inv : Inv s) {e : E} {t : Heap E}
    (content : t.content.Perm (e :: s.heap.content))
    (frame : ∀ x, x ∉ s.heap.content → x ≠ e → t.minHeapIdx x = s.heap.minHeapIdx x) (x : E)
    (out : Function.update s.left e false x = true) : x ∉ t.content ∧ t.minHeapIdx x = absent := by
  have other : x ≠ e := by
    rintro rfl
    simp at out
  rw [Function.update_of_ne other] at out
  obtain ⟨outside, index⟩ := inv.left x out
  rw [content.mem_iff, List.mem_cons, frame x outside other]
  exact ⟨fun member => member.elim other outside, index⟩

theorem Inv.left_removed (inv : Inv s) {e : E} {t : Heap E} (removed : Removed s.heap e t) (x : E)
    (out : Function.update s.left e true x = true) : x ∉ t.content ∧ t.minHeapIdx x = absent := by
  by_cases same : x = e
  · subst same
    refine ⟨?_, removed.index⟩
    intro member
    have present := (removed.sound.cell member).2.2
    exact present removed.index
  · rw [Function.update_of_ne same] at out
    obtain ⟨outside, index⟩ := inv.left x out
    refine ⟨fun member => outside ?_, (removed.frame x outside).trans index⟩
    exact removed.content.mem_iff.mp (List.mem_cons_of_mem e member)

theorem push_call (inv : Inv s) {e : E} (bound : s.heap.n + 1 < 2 ^ 32) (new : e ∉ s.heap.content)
    (realloc : Bool) :
    ∃ code t, minHeapPush s.heap e realloc = some (code, t) ∧ EffectPush s.heap e (.code code) t ∧ Sound t ∧
      ∀ x, leave s.left (.push e realloc) (.code code) x = true → x ∉ t.content ∧ t.minHeapIdx x = absent := by
  rcases push_spec inv.sound bound new realloc with failed | ⟨t, ran, pushed⟩
  · exact ⟨-1, s.heap, failed, .inl ⟨rfl, rfl⟩, inv.sound, inv.left⟩
  · exact ⟨0, t, ran, .inr ⟨rfl, pushed.content⟩, pushed.sound, inv.left_pushed pushed.content pushed.frame⟩

theorem call_inv {event : Event E} (inv : Inv s) (allowed : Allowed s.heap event) (small : Small s.heap event) :
    ∃ result t, call s.heap event = some (result, t) ∧ Effect s.heap result t event ∧
      Inv { heap := t, left := leave s.left event result } := by
  cases event with
  | push e realloc =>
      obtain ⟨code, t, ran, effect, sound, left⟩ := push_call inv small allowed realloc
      exact ⟨.code code, t, by simp [call, ran], effect, sound, left⟩
  | pop =>
      by_cases nonempty : s.heap.n = 0
      · refine ⟨.entry none, s.heap, by simp [call, minHeapPop, nonempty], ?_, inv⟩
        exact ⟨fun _ => ⟨rfl, rfl⟩, fun contradiction => absurd nonempty contradiction⟩
      · obtain ⟨e, t, ran, root, removed⟩ := pop_spec inv.sound small nonempty
        refine ⟨.entry (some e), t, by simp [call, ran], ?_, removed.sound, inv.left_removed removed⟩
        refine ⟨fun contradiction => absurd contradiction nonempty, fun _ => ⟨e, rfl, ?_, removed.content⟩⟩
        intro x member
        obtain ⟨i, inside, at_⟩ := mem_stored.mp member
        exact inv.sound.ordered.above inv.sound.full inside e x root at_
  | erase e =>
      rcases allowed with gone | member
      · have outside := inv.sound.absent_not_mem gone
        refine ⟨.code (-1), s.heap, by simp [call, erase_absent gone], ?_, inv.sound, by simpa [leave] using inv.left⟩
        exact ⟨fun _ => ⟨rfl, rfl⟩, fun contradiction => absurd contradiction outside⟩
      · obtain ⟨t, ran, removed⟩ := erase_spec inv.sound small member
        refine ⟨.code 0, t, by simp [call, ran], ?_, removed.sound, inv.left_removed removed⟩
        exact ⟨fun contradiction => absurd member contradiction, fun _ => ⟨rfl, removed.content⟩⟩
  | adjust e time realloc =>
      rcases allowed with gone | member
      · -- `min_heap_adjust_` pushes
        have outside := inv.sound.absent_not_mem gone
        have retimed : Inv { s with heap := s.heap.setTime e time } :=
          ⟨inv.sound.setTime outside time, inv.left⟩
        simp only [Small, if_pos gone] at small
        obtain ⟨code, t, ran, effect, sound, left⟩ := push_call retimed small outside realloc
        have same : minHeapAdjust (s.heap.setTime e time) e realloc =
            minHeapPush (s.heap.setTime e time) e realloc := if_pos gone
        refine ⟨.code code, t, by simp [call, same, ran], ?_, sound, left⟩
        exact ⟨fun _ => effect, fun contradiction => absurd contradiction outside⟩
      · have present := (inv.sound.cell member).2.2
        simp only [Small, if_neg present] at small
        obtain ⟨t, ran, kept⟩ := adjust_spec inv.sound small member time realloc
        refine ⟨.code 0, t, by simp [call, ran], ?_, kept.sound, ?_⟩
        · exact ⟨fun contradiction => absurd member contradiction, fun _ => ⟨rfl, kept.content⟩⟩
        · intro x out
          have other : x ≠ e := by
            rintro rfl
            simp [leave] at out
          have before : s.left x = true := (Function.update_of_ne other ..).symm.trans out
          obtain ⟨outside, index⟩ := inv.left x before
          rw [kept.content.mem_iff, kept.frame x outside]
          exact ⟨outside, index⟩

theorem step_inv {event : Event E} (inv : Inv s) (allowed : Allowed s.heap event) (small : Small s.heap event) :
    ∃ t, step s event = some t ∧ Inv t := by
  obtain ⟨result, heap, ran, _, invT⟩ := call_inv inv allowed small
  exact ⟨_, by simp [step, ran], invT⟩

theorem minHeap_invariant (time minHeapIdx : E → Nat) (events : List (Event E))
    (met : Along step (fun s event => Allowed s.heap event ∧ Small s.heap event)
      (.initial time minHeapIdx) events) :
    ∃ s, run step (.initial time minHeapIdx) events = some s ∧
      (∀ i x y, 0 < i → i < s.heap.n → s.heap.p ((i - 1) / 2) = some x → s.heap.p i = some y →
        s.heap.time x ≤ s.heap.time y) ∧
      (∀ i < s.heap.n, ∃ x, s.heap.p i = some x ∧ s.heap.minHeapIdx x = i) ∧
      (∀ x, s.left x = true → s.heap.minHeapIdx x = absent) ∧
      s.heap.n ≤ s.heap.a ∧
      ∀ event, Allowed s.heap event → Small s.heap event →
        ∃ result t, call s.heap event = some (result, t) ∧ Effect s.heap result t event := by
  obtain ⟨s, ran, inv⟩ := run_possible Inv (fun _ _ inv meets => step_inv inv meets.1 meets.2)
    (initial_inv time minHeapIdx) met
  refine ⟨s, ran, ?_, inv.sound.entries, fun x out => (inv.left x out).2, inv.sound.size, ?_⟩
  · intro i x y positive inside above at_
    exact inv.sound.ordered i positive inside x y above at_
  · intro event allowed small
    obtain ⟨result, t, called, effect, _⟩ := call_inv inv allowed small
    exact ⟨result, t, called, effect⟩

def erasing : List (Event Nat) :=
  [.push 0 true, .push 1 true, .push 2 true, .push 3 false, .adjust 2 5 false, .erase 0, .pop, .push 0 true]

theorem minHeap_invariant_erasing :
    ∃ s, run step (.initial (fun e => e + 1) fun _ => 0) erasing = some s ∧ s.heap.content = [0, 2, 3] ∧
      (∀ i < s.heap.n, ∃ x, s.heap.p i = some x ∧ s.heap.minHeapIdx x = i) ∧ s.heap.n ≤ s.heap.a := by
  have met : Along step (fun s event => Allowed s.heap event ∧ Small s.heap event)
      (.initial (fun e => e + 1) fun _ => 0) erasing := by
    decide
  have results : (run step (.initial (fun e => e + 1) fun _ => 0) erasing).map (fun s => s.heap.content) =
      some [0, 2, 3] := by
    decide
  obtain ⟨s, ran, _, indices, _, size, _⟩ := minHeap_invariant (fun e => e + 1) (fun _ => 0) erasing met
  rw [ran] at results
  exact ⟨s, ran, Option.some.inj results, indices, size⟩

end CppInfra.Timer.MinHeap
