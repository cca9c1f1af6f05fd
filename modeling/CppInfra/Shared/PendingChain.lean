import Mathlib.Logic.Function.Basic
import Mathlib.Data.List.Nodup

set_option autoImplicit false

-- `order` are the nodes as they were put at the end of a queue that now starts at `moved`. `pending i` says that the
-- link from position `i` is not stored yet.
namespace CppInfra.PendingChain

variable {P : Type*}

structure Chain (next : P → Option P) (order : List P) (moved : Nat) (pending : Nat → Prop) : Prop where
  inside : moved < order.length
  distinct : ∀ i j x, moved ≤ i → moved ≤ j → order[i]? = some x → order[j]? = some x → i = j
  stored : ∀ i x y, moved ≤ i → ¬ pending i → order[i]? = some x → order[i + 1]? = some y → next x = some y
  missing : ∀ i x, moved ≤ i → order[i]? = some x → pending i ∨ i + 1 = order.length → next x = none
  bounds : ∀ i, pending i → moved ≤ i ∧ i + 1 < order.length

def Queued (order : List P) (moved : Nat) (x : P) : Prop := ∃ i, moved ≤ i ∧ order[i]? = some x

theorem Queued.before {order : List P} {moved : Nat} {x : P} (queued : Queued order (moved + 1) x) :
    Queued order moved x := by
  obtain ⟨i, low, at_⟩ := queued
  exact ⟨i, by omega, at_⟩

theorem concat_cases {l : List P} {x y : P} {k : Nat} (at_ : (l ++ [x])[k]? = some y) :
    k < l.length ∧ l[k]? = some y ∨ k = l.length ∧ x = y := by
  have bound := (List.getElem?_eq_some_iff.mp at_).1
  simp only [List.length_append, List.length_singleton] at bound
  rcases Nat.lt_or_ge k l.length with early | late
  · exact .inl ⟨early, by rwa [List.getElem?_append_left early] at at_⟩
  · obtain rfl : k = l.length := by omega
    exact .inr ⟨rfl, by simpa using at_⟩

theorem concat_get {l : List P} {i : Nat} {x : P} (y : P) (at_ : l[i]? = some x) :
    (l ++ [y])[i]? = some x := by
  rw [List.getElem?_append_left (List.getElem?_eq_some_iff.mp at_).1]
  exact at_

variable {next : P → Option P} {order : List P} {moved : Nat} {pending : Nat → Prop}

theorem Chain.initial {x : P} (empty : next x = none) : Chain next [x] 0 fun _ => False where
  inside := by simp
  distinct := by
    intro i j y _ _ first second
    have := (List.getElem?_eq_some_iff.mp first).1
    have := (List.getElem?_eq_some_iff.mp second).1
    simp only [List.length_singleton] at *
    omega
  stored := by simp
  missing := by
    intro i y _ at_ _
    have zero : i = 0 := by simpa using (List.getElem?_eq_some_iff.mp at_).1
    obtain rfl : x = y := by simpa [zero] using at_
    exact empty
  bounds := by simp

theorem Chain.exchange (chain : Chain next order moved pending) {x : P} (fresh : ¬ Queued order moved x)
    (empty : next x = none) :
    Chain next (order ++ [x]) moved fun i => pending i ∨ i + 1 = order.length := by
  have inside := chain.inside
  constructor
  · simp only [List.length_append]
    omega
  · intro i j y lowI lowJ atI atJ
    rcases concat_cases atI with ⟨_, oldI⟩ | ⟨endI, rfl⟩ <;>
      rcases concat_cases atJ with ⟨_, oldJ⟩ | ⟨endJ, same⟩
    · exact chain.distinct i j y lowI lowJ oldI oldJ
    · exact absurd ⟨i, lowI, same ▸ oldI⟩ fresh
    · exact absurd ⟨j, lowJ, oldJ⟩ fresh
    · rw [endI, endJ]
  · intro i y z low settled atI atNext
    rcases concat_cases atNext with ⟨early, oldNext⟩ | ⟨atEnd, _⟩
    · have oldI : order[i]? = some y := by rwa [List.getElem?_append_left (by omega)] at atI
      exact chain.stored i y z low (fun still => settled (.inl still)) oldI oldNext
    · exact absurd (.inr atEnd) settled
  · intro i y low atI reason
    rcases concat_cases atI with ⟨early, oldI⟩ | ⟨_, rfl⟩
    · refine chain.missing i y low oldI ?_
      rcases reason with reason | reason
      · exact reason
      · simp only [List.length_append, List.length_singleton] at reason
        omega
    · exact empty
  · intro i reason
    simp only [List.length_append, List.length_singleton]
    rcases reason with still | last
    · have := chain.bounds i still
      omega
    · omega

theorem Chain.link [DecidableEq P] (chain : Chain next order moved pending) {k : Nat} {a b : P}
    (waiting : pending k) (atK : order[k]? = some a) (atNext : order[k + 1]? = some b) :
    Chain (Function.update next a (some b)) order moved fun i => pending i ∧ i ≠ k := by
  have low := (chain.bounds k waiting).1
  have other (i : Nat) (x : P) (lowI : moved ≤ i) (differs : i ≠ k) (atI : order[i]? = some x) : x ≠ a :=
    fun same => differs (chain.distinct i k a lowI low (same ▸ atI) atK)
  refine ⟨chain.inside, chain.distinct, ?_, ?_, fun i still => chain.bounds i still.1⟩
  · intro i x y lowI settled atI atSucc
    by_cases here : i = k
    · subst here
      obtain rfl : a = x := Option.some.inj (atK.symm.trans atI)
      obtain rfl : b = y := Option.some.inj (atNext.symm.trans atSucc)
      exact Function.update_self ..
    · rw [Function.update_of_ne (other i x lowI here atI)]
      exact chain.stored i x y lowI (fun still => settled ⟨still, here⟩) atI atSucc
  · intro i x lowI atI reason
    have here : i ≠ k := by
      rintro rfl
      rcases reason with ⟨_, absurd⟩ | last
      · exact absurd rfl
      · have := (chain.bounds i waiting).2
        omega
    rw [Function.update_of_ne (other i x lowI here atI)]
    exact chain.missing i x lowI atI (reason.imp_left And.left)

theorem Chain.write [DecidableEq P] (chain : Chain next order moved pending) {x : P}
    (outside : ¬ Queued order moved x) (value : Option P) :
    Chain (Function.update next x value) order moved pending := by
  have other (i : Nat) (y : P) (low : moved ≤ i) (at_ : order[i]? = some y) : y ≠ x :=
    fun same => outside ⟨i, low, same ▸ at_⟩
  refine ⟨chain.inside, chain.distinct, ?_, ?_, chain.bounds⟩
  · intro i y z low settled atI atNext
    rw [Function.update_of_ne (other i y low atI)]
    exact chain.stored i y z low settled atI atNext
  · intro i y low atI reason
    rw [Function.update_of_ne (other i y low atI)]
    exact chain.missing i y low atI reason

theorem Chain.follow (chain : Chain next order moved pending) {k : Nat} {x y : P} (low : moved ≤ k)
    (atK : order[k]? = some x) (there : next x = some y) :
    order[k + 1]? = some y ∧ ¬ pending k := by
  have settled : ¬ pending k := by
    intro waiting
    rw [chain.missing k x low atK (.inl waiting)] at there
    cases there
  have more : k + 1 < order.length := by
    have inside := (List.getElem?_eq_some_iff.mp atK).1
    by_contra atEnd
    rw [chain.missing k x low atK (.inr (by omega))] at there
    cases there
  have stored := chain.stored k x _ low settled atK (List.getElem?_eq_getElem more)
  rw [there] at stored
  exact ⟨by rw [List.getElem?_eq_getElem more, Option.some.inj stored], settled⟩

theorem Chain.advance (chain : Chain next order moved pending) {x y : P} (front : order[moved]? = some x)
    (there : next x = some y) : Chain next order (moved + 1) pending := by
  obtain ⟨atNext, settled⟩ := chain.follow (Nat.le_refl moved) front there
  refine ⟨(List.getElem?_eq_some_iff.mp atNext).1, ?_, ?_, ?_, ?_⟩
  · intro i j z lowI lowJ
    exact chain.distinct i j z (by omega) (by omega)
  · intro i z w low
    exact chain.stored i z w (by omega)
  · intro i z low
    exact chain.missing i z (by omega)
  · intro i waiting
    have bounds := chain.bounds i waiting
    have differs : i ≠ moved := fun same => settled (same ▸ waiting)
    omega

theorem Chain.atEnd (chain : Chain next order moved pending) {k : Nat} {x : P} (low : moved ≤ k)
    (atK : order[k]? = some x) (missing : next x = none) (settled : ¬ pending k) : k + 1 = order.length := by
  have inside := (List.getElem?_eq_some_iff.mp atK).1
  by_contra more
  have stored := chain.stored k x _ low settled atK (List.getElem?_eq_getElem (by omega))
  rw [missing] at stored
  cases stored

theorem Chain.nodup (chain : Chain next order moved pending) : (order.drop moved).Nodup := by
  rw [List.nodup_iff_getElem?_ne_getElem?]
  intro i j before inside same
  rw [List.length_drop] at inside
  have there : order[moved + j]? = some (order.get ⟨moved + j, by omega⟩) := List.getElem?_eq_getElem _
  rw [List.getElem?_drop, List.getElem?_drop, there] at same
  have := chain.distinct _ _ _ (Nat.le_add_right ..) (Nat.le_add_right ..) same there
  omega

theorem Chain.congr {other : Nat → Prop} (chain : Chain next order moved pending)
    (same : ∀ i, pending i ↔ other i) : Chain next order moved other := by
  obtain rfl : pending = other := funext fun i => propext (same i)
  exact chain

section Owners

variable {I A : Type*} [DecidableEq I] {threads : I → A} {own : A → Option P}

theorem owners_update {i : I} {new : A}
    (owners : ∀ j k x, own (threads j) = some x → own (threads k) = some x → j = k)
    (fresh : ∀ j x, j ≠ i → own new = some x → own (threads j) ≠ some x) (j k : I) (x : P)
    (left : own (Function.update threads i new j) = some x)
    (right : own (Function.update threads i new k) = some x) : j = k := by
  by_cases isJ : j = i <;> by_cases isK : k = i
  · exact isJ.trans isK.symm
  · subst isJ
    rw [Function.update_self] at left
    rw [Function.update_of_ne isK] at right
    exact absurd right (fresh k x isK left)
  · subst isK
    rw [Function.update_self] at right
    rw [Function.update_of_ne isJ] at left
    exact absurd left (fresh j x isJ right)
  · rw [Function.update_of_ne isJ] at left
    rw [Function.update_of_ne isK] at right
    exact owners j k x left right

variable {stores : A → Option Nat}

theorem pending_update (i : I) (new : A) (k : Nat) :
    (∃ j, stores (Function.update threads i new j) = some k) ↔
      stores new = some k ∨ ∃ j, j ≠ i ∧ stores (threads j) = some k := by
  constructor
  · intro ⟨j, here⟩
    by_cases same : j = i
    · subst same
      exact .inl (by simpa using here)
    · exact .inr ⟨j, same, by rwa [Function.update_of_ne same] at here⟩
  · rintro (here | ⟨j, other, here⟩)
    · exact ⟨i, by simpa using here⟩
    · exact ⟨j, by rwa [Function.update_of_ne other]⟩

omit [DecidableEq I] in
theorem pending_others {i : I} (none_ : stores (threads i) = none) (k : Nat) :
    (∃ j, stores (threads j) = some k) ↔ ∃ j, j ≠ i ∧ stores (threads j) = some k := by
  constructor
  · intro ⟨j, here⟩
    refine ⟨j, ?_, here⟩
    rintro rfl
    rw [none_] at here
    cases here
  · intro ⟨j, _, here⟩
    exact ⟨j, here⟩

end Owners

end CppInfra.PendingChain
