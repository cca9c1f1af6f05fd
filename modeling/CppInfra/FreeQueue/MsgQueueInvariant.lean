import CppInfra.FreeQueue.MsgQueue
import CppInfra.Shared.LinkedChain
import CppInfra.Shared.DisjointLists
import Mathlib.Data.List.ReduceOption

set_option autoImplicit false

namespace CppInfra.FreeQueue.MsgQueue

open ConditionVariable Transition Words LinkedChain

variable {Thread : Type}

def next (memory : Nat → Nat) (address : Nat) : Option (Option Nat) :=
  some (if memory address = 0 then none else some (memory address))

theorem next_none {memory : Nat → Nat} {x : Nat} : next memory x = some none ↔ memory x = 0 := by
  by_cases null : memory x = 0 <;> simp [next, null]

theorem next_some {memory : Nat → Nat} {x y : Nat} : next memory x = some (some y) ↔ memory x = y ∧ y ≠ 0 := by
  by_cases null : memory x = 0
  · simp only [next, null, if_true, Option.some.injEq, reduceCtorEq, false_iff]
    rintro ⟨rfl, real⟩
    exact real rfl
  · simp only [next, null, if_false, Option.some.injEq]
    constructor
    · rintro rfl
      exact ⟨rfl, null⟩
    · exact And.left

theorem next_congr {memory memory' : Nat → Nat} {x y : Nat} (same : memory' x = memory y) :
    next memory' x = next memory y := by
  rw [next, next, same]

theorem linked_update {memory : Nat → Nat} {x y value : Nat} {l : List Nat} (linked : Linked (next memory) x l)
    (outside : y ∉ x :: l) : Linked (next (Function.update memory y value)) x l := by
  refine linked.congr ?_
  intro z member
  have apart : z ≠ y := by
    rintro rfl
    exact outside member
  exact next_congr (Function.update_of_ne apart ..)

def nodes (head : Nat) (front : List Nat) (putHead : Nat) (back : List Nat) : List Nat :=
  (head :: front) ++ putHead :: back

structure Shape (q : Queue Thread) (head : Nat) (front back : List Nat) : Prop where
  heads : head = q.head1 ∧ q.putHead = q.head2 ∨ head = q.head2 ∧ q.putHead = q.head1
  onFront : Linked (next q.memory) head front
  onBack : Linked (next q.memory) q.putHead back
  distinct : (nodes head front q.putHead back).Nodup
  real : ∀ x ∈ nodes head front q.putHead back, x ≠ 0 ∧ x < 2 ^ 64
  tail : q.putTail = final q.putHead back
  count : q.msgCnt = back.length

variable {q : Queue Thread} {head : Nat} {front back : List Nat}

theorem mem_nodes {x putHead : Nat} :
    x ∈ nodes head front putHead back ↔ (x = head ∨ x ∈ front) ∨ x = putHead ∨ x ∈ back := by
  rw [nodes, List.mem_append, List.mem_cons, List.mem_cons]

theorem nodes_append (head : Nat) (front : List Nat) (putHead : Nat) (back : List Nat) (x : Nat) :
    nodes head front putHead (back ++ [x]) = nodes head front putHead back ++ [x] := by
  simp [nodes]

theorem Shape.tail_mem (shape : Shape q head front back) : q.putTail ∈ q.putHead :: back :=
  shape.tail ▸ final_mem q.putHead back

theorem Shape.tail_real (shape : Shape q head front back) : q.putTail ≠ 0 :=
  (shape.real _ (List.mem_append_right _ shape.tail_mem)).1

theorem Shape.head_real (shape : Shape q head front back) : head ≠ 0 :=
  (shape.real _ (mem_nodes.mpr (.inl (.inl rfl)))).1

theorem Shape.write (shape : Shape q head front back) {address : Nat} (value : Nat)
    (outside : address ∉ nodes head front q.putHead back) :
    Shape { q with memory := Function.update q.memory address value } head front back where
  heads := shape.heads
  onFront := linked_update shape.onFront fun inside => outside (List.mem_append_left _ inside)
  onBack := linked_update shape.onBack fun inside => outside (List.mem_append_right _ inside)
  distinct := shape.distinct
  real := shape.real
  tail := shape.tail
  count := shape.count

theorem Shape.short (shape : Shape q head front back) {x : Nat} (word : x < 2 ^ 64) (nonnull : x ≠ 0)
    (outside : x ∉ nodes head front q.putHead back) : back.length + 1 < 2 ^ 64 := by
  have distinct : (0 :: x :: nodes head front q.putHead back).Nodup := by
    refine List.nodup_cons.mpr ⟨?_, List.nodup_cons.mpr ⟨outside, shape.distinct⟩⟩
    intro member
    rcases List.mem_cons.mp member with null | inside
    · exact nonnull null.symm
    · exact (shape.real 0 inside).1 rfl
  have below : ∀ y ∈ 0 :: x :: nodes head front q.putHead back, y < 2 ^ 64 := by
    intro y member
    rcases List.mem_cons.mp member with rfl | rest
    · exact Nat.two_pow_pos 64
    · rcases List.mem_cons.mp rest with rfl | inside
      · exact word
      · exact (shape.real y inside).2
  have bound := DisjointLists.length_le_of_below distinct below
  simp only [nodes, List.length_cons, List.length_append] at bound
  omega

def Queue.appended (q : Queue Thread) (x : Nat) : Queue Thread :=
  { q with memory := Function.update q.memory q.putTail x, putTail := x, msgCnt := add 64 q.msgCnt 1 }

theorem Shape.append (shape : Shape q head front back) {x : Nat} (word : x < 2 ^ 64) (nonnull : x ≠ 0)
    (outside : x ∉ nodes head front q.putHead back) (cleared : q.memory x = 0) :
    Shape (q.appended x) head front (back ++ [x]) := by
  have apart := List.nodup_append.mp shape.distinct
  have last := shape.tail_mem
  have tailOutside : q.putTail ∉ head :: front := fun inside => apart.2.2 _ inside _ last rfl
  have other : x ≠ q.putTail := by
    rintro rfl
    exact outside (List.mem_append_right _ last)
  refine ⟨shape.heads, linked_update shape.onFront tailOutside, ?_, ?_, ?_, ?_, ?_⟩
  · refine shape.onBack.append apart.2.1 ?_ ?_ ?_
    · intro y _ notLast
      rw [← shape.tail] at notLast
      exact next_congr (Function.update_of_ne notLast ..)
    · rw [← shape.tail]
      exact next_some.mpr ⟨Function.update_self .., nonnull⟩
    · exact next_none.mpr ((Function.update_of_ne other ..).trans cleared)
  · rw [Queue.appended, nodes_append]
    refine List.nodup_append.mpr ⟨shape.distinct, List.nodup_singleton x, ?_⟩
    intro y inside z new same
    obtain rfl := List.mem_singleton.mp new
    exact outside (same ▸ inside)
  · intro y member
    rw [Queue.appended, nodes_append] at member
    rcases List.mem_append.mp member with inside | new
    · exact shape.real y inside
    · obtain rfl := List.mem_singleton.mp new
      exact ⟨nonnull, word⟩
  · exact (final_concat q.putHead x back).symm
  · have few := shape.short word nonnull outside
    rw [Queue.appended, List.length_append, shape.count]
    exact add_exact few

def Queue.exchanged (q : Queue Thread) (head : Nat) : Queue Thread :=
  { q with putHead := head, putTail := head, msgCnt := 0 }

theorem Shape.exchange (shape : Shape q head [] back) : Shape (q.exchanged head) q.putHead back [] := by
  have swapped : (nodes q.putHead back head []).Perm (nodes head [] q.putHead back) := by
    rw [nodes, nodes]
    exact List.perm_append_comm
  refine ⟨?_, shape.onBack, shape.onFront, swapped.nodup_iff.mpr shape.distinct, ?_, rfl, rfl⟩
  · obtain ⟨one, two⟩ | ⟨two, one⟩ := shape.heads
    · exact .inr ⟨two, one⟩
    · exact .inl ⟨one, two⟩
  · intro x member
    exact shape.real x (swapped.mem_iff.mp member)

def Queue.taken (q : Queue Thread) (rest : List Nat) : Queue Thread :=
  { q with memory := Function.update q.memory q.getHead (rest.headD 0) }

theorem linked_headD {memory : Nat → Nat} {x : Nat} {l : List Nat} (linked : Linked (next memory) x l) :
    memory x = l.headD 0 := by
  cases l with
  | nil => exact next_none.mp linked
  | cons y rest => exact (next_some.mp linked.1).1

theorem Shape.take {x : Nat} {rest : List Nat} (shape : Shape q head (x :: rest) back) (settled : q.getHead = head) :
    q.take = some (q.taken rest, sub 64 x q.linkoff) ∧ Shape (q.taken rest) head rest back := by
  obtain ⟨toFirst, behind⟩ := shape.onFront
  have first := (next_some.mp toFirst).1
  have second := linked_headD behind
  have firstReal := (next_some.mp toFirst).2
  have headReal := shape.head_real
  obtain ⟨distinctFront, distinctBack, apart⟩ := List.nodup_append.mp shape.distinct
  obtain ⟨headOutside, distinctRest⟩ := List.nodup_cons.mp distinctFront
  have headApart : head ∉ q.putHead :: back := fun inside => apart head (List.mem_cons_self ..) head inside rfl
  have sub : (nodes head rest q.putHead back).Sublist (nodes head (x :: rest) q.putHead back) :=
    ((List.sublist_cons_self x rest).cons_cons head).append_right _
  constructor
  · simp only [Queue.take, Queue.load, settled, if_neg headReal, first, if_neg firstReal, second, Queue.store,
      Option.bind_eq_bind, Option.bind_some, Queue.taken]
  · refine ⟨shape.heads, ?_, linked_update shape.onBack (settled ▸ headApart), shape.distinct.sublist sub, ?_,
      shape.tail, shape.count⟩
    · rw [Queue.taken, settled]
      have onward : next (Function.update q.memory head (rest.headD 0)) head = next q.memory x := by
        rw [next, next, Function.update_self, second]
      refine behind.start onward ?_
      intro y member
      have other : y ≠ head := by
        rintro rfl
        exact headOutside (List.mem_cons_of_mem x member)
      exact next_congr (Function.update_of_ne other ..)
    · intro y member
      exact shape.real y (sub.subset member)

theorem Shape.front_nil (shape : Shape q head front back) (settled : q.getHead = head) :
    q.load q.getHead = some (front.headD 0) := by
  rw [Queue.load, settled, if_neg shape.head_real, linked_headD shape.onFront]

def Call.holds : Call → Option Nat
  | .put msg => some msg
  | .putting msg => some msg
  | .waitingPut msg => some msg
  | _ => none

def Call.locks : Call → Bool
  | .swapping _ => true
  | .waitingGet _ => true
  | .swapped _ => true
  | _ => false

structure Own (q : Queue Thread) (head : Nat) (front back : List Nat) (msg : Nat) : Prop where
  word : msg < 2 ^ 64
  real : q.link msg ≠ 0
  outside : q.link msg ∉ nodes head front q.putHead back

def Swapping (q : Queue Thread) (head : Nat) (front : List Nat) (thread : Thread) (getHead : Nat) : Prop :=
  q.getMutex = some thread ∧ getHead = head ∧ q.getHead = q.putHead ∧ front = []

def Local (q : Queue Thread) (head : Nat) (front back : List Nat) (thread : Thread) : Call → Prop
  | .put msg => Own q head front back msg
  | .putting msg => Own q head front back msg ∧ q.memory (q.link msg) = 0
  | .waitingPut msg => Own q head front back msg ∧ q.memory (q.link msg) = 0
  | .swapping getHead => Swapping q head front thread getHead
  | .waitingGet getHead => Swapping q head front thread getHead
  | .swapped cnt => q.getMutex = some thread ∧ q.getHead = head ∧ cnt = front.length
  | .signalling => True
  | .get => True
  | .setting => True

theorem Local.locked {thread : Thread} {call : Call} (loc : Local q head front back thread call)
    (locks : call.locks = true) : q.getMutex = some thread := by
  cases call with
  | swapping getHead => exact loc.1
  | waitingGet getHead => exact loc.1
  | swapped cnt => exact loc.1
  | _ => cases locks

theorem Local.own {thread : Thread} {call : Call} {msg : Nat} (loc : Local q head front back thread call)
    (holds : call.holds = some msg) : Own q head front back msg := by
  cases call with
  | put m =>
      obtain rfl := Option.some.inj holds
      exact loc
  | putting m =>
      obtain rfl := Option.some.inj holds
      exact loc.1
  | waitingPut m =>
      obtain rfl := Option.some.inj holds
      exact loc.1
  | _ => cases holds

theorem Local.frame {thread : Thread} {call : Call} {q' : Queue Thread} {head' : Nat} {front' back' : List Nat}
    (loc : Local q head front back thread call) (linkoff : q'.linkoff = q.linkoff)
    (message : ∀ msg, call.holds = some msg →
      q.link msg ∉ nodes head' front' q'.putHead back' ∧
        (q.memory (q.link msg) = 0 → q'.memory (q.link msg) = 0))
    (mutex : call.locks = true → q'.getMutex = q.getMutex ∧ head' = head ∧ q'.getHead = q.getHead ∧
      q'.putHead = q.putHead ∧ front' = front) :
    Local q' head' front' back' thread call := by
  have same (msg : Nat) : q'.link msg = q.link msg := by rw [Queue.link, Queue.link, linkoff]
  have own (msg : Nat) (holds : call.holds = some msg) : Own q' head' front' back' msg := by
    have before := loc.own holds
    exact ⟨before.word, same msg ▸ before.real, same msg ▸ (message msg holds).1⟩
  cases call with
  | put msg => exact own msg rfl
  | putting msg => exact ⟨own msg rfl, same msg ▸ (message msg rfl).2 loc.2⟩
  | waitingPut msg => exact ⟨own msg rfl, same msg ▸ (message msg rfl).2 loc.2⟩
  | swapping getHead =>
      obtain ⟨owner, rfl, toHead, toPut, rfl⟩ := mutex rfl
      exact ⟨owner.trans loc.1, loc.2.1, toHead.trans (loc.2.2.1.trans toPut.symm), loc.2.2.2⟩
  | waitingGet getHead =>
      obtain ⟨owner, rfl, toHead, toPut, rfl⟩ := mutex rfl
      exact ⟨owner.trans loc.1, loc.2.1, toHead.trans (loc.2.2.1.trans toPut.symm), loc.2.2.2⟩
  | swapped cnt =>
      obtain ⟨owner, rfl, toHead, toPut, rfl⟩ := mutex rfl
      exact ⟨owner.trans loc.1, toHead.trans loc.2.1, loc.2.2⟩
  | signalling => trivial
  | get => trivial
  | setting => trivial

def State.held (s : State Thread) (thread : Thread) : Option Nat := (s.calls thread).bind Call.holds

structure Inv (s : State Thread) (head : Nat) (front back pending : List Nat) : Prop where
  shape : Shape s.queue head front back
  links : front ++ back = pending.map s.queue.link
  words : ∀ msg ∈ pending, msg < 2 ^ 64
  puts : s.puts = s.gets.reduceOption ++ pending
  locals : ∀ thread call, s.calls thread = some call → Local s.queue head front back thread call
  apart : ∀ thread other msg msg', thread ≠ other → s.held thread = some msg → s.held other = some msg' →
    s.queue.link msg ≠ s.queue.link msg'
  free : s.queue.getMutex = none → s.queue.getHead = head
  locked : ∀ thread, s.queue.getMutex = some thread → ∃ call, s.calls thread = some call ∧ call.locks = true
  offset : s.queue.linkoff < 2 ^ 64

variable [DecidableEq Thread] {s : State Thread} {pending : List Nat}

theorem held_update (s : State Thread) (thread other : Thread) (c : Option Call) :
    (Function.update s.calls thread c other).bind Call.holds =
      if other = thread then c.bind Call.holds else s.held other := by
  by_cases same : other = thread
  · rw [same, Function.update_self, if_pos rfl]
  · rw [Function.update_of_ne same, if_neg same, State.held]

theorem Inv.next {q' : Queue Thread} {head' : Nat} {front' back' pending' puts' : List Nat}
    {gets' : List (Option Nat)} (inv : Inv s head front back pending) (thread : Thread) (c : Option Call)
    (shape : Shape q' head' front' back')
    (links : front' ++ back' = pending'.map q'.link) (words : ∀ msg ∈ pending', msg < 2 ^ 64)
    (puts : puts' = gets'.reduceOption ++ pending') (linkoff : q'.linkoff = s.queue.linkoff)
    (here : ∀ call, c = some call → Local q' head' front' back' thread call)
    (others : ∀ other call, other ≠ thread → s.calls other = some call → Local q' head' front' back' other call)
    (fewer : ∀ msg, c.bind Call.holds = some msg → s.held thread = some msg)
    (free : q'.getMutex = none → q'.getHead = head')
    (locked : ∀ other, q'.getMutex = some other →
      ∃ call, Function.update s.calls thread c other = some call ∧ call.locks = true) :
    Inv { queue := q', calls := Function.update s.calls thread c, puts := puts', gets := gets' } head' front' back'
      pending' where
  shape := shape
  links := links
  words := words
  puts := puts
  free := free
  locked := locked
  offset := linkoff.trans_lt inv.offset
  locals other call called := by
    have now : Function.update s.calls thread c other = some call := called
    by_cases same : other = thread
    · subst same
      rw [Function.update_self] at now
      exact here call now
    · rw [Function.update_of_ne same] at now
      exact others other call same now
  apart x y msg msg' differ heldX heldY := by
    have before (z : Thread) (m : Nat)
        (holds : (Function.update s.calls thread c z).bind Call.holds = some m) : s.held z = some m := by
      rw [held_update] at holds
      split at holds
      · rename_i same
        exact same ▸ fewer m holds
      · exact holds
    have apart := inv.apart x y msg msg' differ (before x msg heldX) (before y msg' heldY)
    rw [Queue.link, Queue.link, linkoff]
    exact apart

end CppInfra.FreeQueue.MsgQueue
