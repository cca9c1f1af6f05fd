import CppInfra.Shared.LinkedChain
import CppInfra.Shared.DisjointLists

set_option autoImplicit false

namespace CppInfra.TailedLists

open LinkedChain DisjointLists

inductive Ptr (C A : Type) where
  | head (list : C)
  | node (x : A)
  deriving DecidableEq

structure Links (C A : Type) where
  next : Ptr C A → Option A
  tail : C → Ptr C A

variable {C A : Type} [DecidableEq C] [DecidableEq A]

def linkClear (m : Links C A) (list : C) : Option A × Links C A :=
  (m.next (.head list),
    { next := Function.update m.next (.head list) none
      tail := Function.update m.tail list (.head list) })

def linkTo (m : Links C A) (list : C) (x : A) : Links C A :=
  { next := Function.update (Function.update m.next (m.tail list) (some x)) (.node x) none
    tail := Function.update m.tail list (.node x) }

-- A loop that links the nodes of a detached list again, one after the other: the link is read before the node
-- is linked.
def relink (target : A → C) : Nat → Links C A → Option A → Option (Links C A)
  | 0, _, _ => none
  | _ + 1, m, none => some m
  | turns + 1, m, some x => relink target turns (linkTo m (target x) x) (m.next (.node x))

def link (m : Links C A) (p : Ptr C A) : Option (Option (Ptr C A)) := some ((m.next p).map .node)

def path (l : List A) : List (Ptr C A) := l.map .node

def Represents (m : Links C A) (cells : C → List A) : Prop :=
  ∀ list, Linked (link m) (.head list) (path (cells list)) ∧ m.tail list = final (.head list) (path (cells list))

def Detached (m : Links C A) : Option A → List A → Prop
  | current, [] => current = none
  | current, x :: rest => current = some x ∧ Detached m (m.next (.node x)) rest

variable {m m' : Links C A} {cells : C → List A}

theorem linkClear_node (m : Links C A) (list : C) (x : A) :
    (linkClear m list).2.next (.node x) = m.next (.node x) := by
  have other : (Ptr.node x : Ptr C A) ≠ .head list := by simp
  exact Function.update_of_ne other none m.next

omit [DecidableEq C] [DecidableEq A] in
theorem mem_path {l : List A} {list : C} {p : Ptr C A} :
    p ∈ Ptr.head list :: path l ↔ p = .head list ∨ ∃ x ∈ l, p = .node x := by
  simp [path, eq_comm]

omit [DecidableEq C] [DecidableEq A] in
theorem Represents.tail_mem (represents : Represents m cells) (list : C) :
    m.tail list = .head list ∨ ∃ x ∈ cells list, m.tail list = .node x := by
  rw [(represents list).2]
  exact mem_path.mp (final_mem (.head list) (path (cells list)))

omit [DecidableEq C] [DecidableEq A] in
theorem nodup_path {l : List A} (list : C) (distinct : l.Nodup) : (Ptr.head list :: path l).Nodup := by
  refine List.nodup_cons.mpr ⟨by simp [path], ?_⟩
  apply distinct.map
  intro x y same
  cases same
  rfl

omit [DecidableEq C] [DecidableEq A] in
theorem Detached.of_linked {p : Ptr C A} {l : List A} (linked : Linked (link m) p (path l)) :
    Detached m (m.next p) l := by
  induction l generalizing p with
  | nil =>
      have last := Option.some.inj linked
      exact Option.map_eq_none_iff.mp last
  | cons x rest ih =>
      obtain ⟨here, behind⟩ := linked
      obtain ⟨y, next, node⟩ := Option.map_eq_some_iff.mp (Option.some.inj here)
      cases node
      exact ⟨next, ih behind⟩

omit [DecidableEq C] [DecidableEq A] in
theorem Detached.congr {current : Option A} {l : List A} (detached : Detached m current l)
    (same : ∀ x ∈ l, m'.next (.node x) = m.next (.node x)) : Detached m' current l := by
  induction l generalizing current with
  | nil => exact detached
  | cons x rest ih =>
      refine ⟨detached.1, ?_⟩
      rw [same x (List.mem_cons_self ..)]
      exact ih detached.2 fun y member => same y (List.mem_cons_of_mem x member)

omit [DecidableEq C] [DecidableEq A] in
theorem Represents.tail_apart (represents : Represents m cells) (scattered : Scattered cells) {list other : C}
    (differ : other ≠ list) {p : Ptr C A} (member : p ∈ Ptr.head other :: path (cells other)) : p ≠ m.tail list := by
  intro same
  rcases represents.tail_mem list with head | ⟨x, inside, node⟩
  · rcases mem_path.mp member with there | ⟨y, _, there⟩
    · rw [there, head] at same
      cases same
      exact differ rfl
    · rw [there, head] at same
      cases same
  · rcases mem_path.mp member with there | ⟨y, also, there⟩
    · rw [there, node] at same
      cases same
    · rw [there, node] at same
      cases same
      exact differ (scattered.unique other list x also inside)

theorem Represents.linkTo (represents : Represents m cells) (scattered : Scattered cells) (list : C) {x : A}
    (absent : ∀ other, x ∉ cells other) : Represents (linkTo m list x) (put cells list x) := by
  intro other
  have notNew : ∀ p ∈ Ptr.head other :: path (cells other), p ≠ .node x := by
    intro p member same
    rcases mem_path.mp member with there | ⟨y, inside, there⟩
    · rw [there] at same
      cases same
    · rw [there] at same
      cases same
      exact absent other inside
  by_cases same : other = list
  · subst same
    obtain ⟨linked, last⟩ := represents other
    have grown : path (put cells other x other) = path (cells other) ++ [(Ptr.node x : Ptr C A)] := by
      simp [path, put]
    have tail : final (Ptr.head other) (path (cells other)) ≠ .node x := notNew _ (final_mem _ _)
    rw [grown]
    constructor
    · apply linked.append (nodup_path other (scattered.distinct other))
      · intro p member apart
        rw [last.symm] at apart
        simp [link, TailedLists.linkTo, Function.update_of_ne (notNew p member), Function.update_of_ne apart]
      · rw [← last] at tail ⊢
        simp [link, TailedLists.linkTo, Function.update_of_ne tail]
      · simp [link, TailedLists.linkTo]
    · rw [final_concat]
      exact Function.update_self ..
  · obtain ⟨linked, last⟩ := represents other
    have kept : put cells list x other = cells other := by rw [put, Function.update_of_ne same]
    rw [kept]
    constructor
    · apply linked.congr
      intro p member
      have apart := represents.tail_apart scattered same member
      simp [link, TailedLists.linkTo, Function.update_of_ne (notNew p member), Function.update_of_ne apart]
    · simp only [TailedLists.linkTo, Function.update_of_ne same]
      exact last

theorem Represents.scribble (represents : Represents m cells) {x : A} (link : Option A)
    (absent : ∀ list, x ∉ cells list) :
    Represents { m with next := Function.update m.next (.node x) link } cells := by
  intro list
  refine ⟨(represents list).1.congr ?_, (represents list).2⟩
  intro p member
  have other : p ≠ .node x := by
    rintro rfl
    rcases mem_path.mp member with head | ⟨y, inside, node⟩
    · cases head
    · cases node
      exact absent list inside
  simp only [TailedLists.link, Function.update_of_ne other]

theorem Represents.linkClear (represents : Represents m cells) (list : C) :
    Represents (linkClear m list).2 (Function.update cells list []) ∧
      Detached (linkClear m list).2 (linkClear m list).1 (cells list) := by
  constructor
  · intro other
    by_cases same : other = list
    · subst same
      rw [Function.update_self]
      exact ⟨by simp [path, Linked, link, TailedLists.linkClear], Function.update_self ..⟩
    · obtain ⟨linked, last⟩ := represents other
      rw [Function.update_of_ne same]
      constructor
      · apply linked.congr
        intro p member
        have apart : p ≠ .head list := by
          rintro rfl
          rcases mem_path.mp member with head | ⟨x, _, node⟩
          · cases head
            exact same rfl
          · cases node
        simp [link, TailedLists.linkClear, Function.update_of_ne apart]
      · simp only [TailedLists.linkClear, Function.update_of_ne same]
        exact last
  · apply (Detached.of_linked (represents list).1).congr
    intro x _
    exact linkClear_node m list x

theorem Represents.linkTo_next (represents : Represents m cells) (list : C) {x y : A} (other : y ≠ x)
    (absent : ∀ list, y ∉ cells list) : (TailedLists.linkTo m list x).next (.node y) = m.next (.node y) := by
  have notNew : (Ptr.node y : Ptr C A) ≠ .node x := by simpa using other
  have notTail : (Ptr.node y : Ptr C A) ≠ m.tail list := by
    intro same
    rcases represents.tail_mem list with head | ⟨z, inside, node⟩
    · rw [head] at same
      cases same
    · rw [node] at same
      cases same
      exact absent list inside
  simp [TailedLists.linkTo, Function.update_of_ne notNew, Function.update_of_ne notTail]

theorem Represents.relink {target : A → C} {rest : List A} {current : Option A} (turns : Nat)
    (represents : Represents m cells) (scattered : Scattered cells) (detached : Detached m current rest)
    (distinct : rest.Nodup) (absent : ∀ x ∈ rest, ∀ list, x ∉ cells list) (enough : rest.length < turns) :
    ∃ final, relink target turns m current = some final ∧
      Represents final (rest.foldl (fun cells x => put cells (target x) x) cells) ∧
      ∀ y ∉ rest, (∀ list, y ∉ cells list) → final.next (.node y) = m.next (.node y) := by
  induction rest generalizing m cells current turns with
  | nil =>
      obtain ⟨turns, rfl⟩ := Nat.exists_eq_succ_of_ne_zero (Nat.ne_of_gt enough)
      obtain rfl := detached
      exact ⟨m, rfl, represents, fun _ _ _ => rfl⟩
  | cons x rest ih =>
      obtain ⟨turns, rfl⟩ := Nat.exists_eq_succ_of_ne_zero (Nat.ne_of_gt (Nat.zero_lt_of_lt enough))
      obtain ⟨rfl, behind⟩ := detached
      obtain ⟨once, distinctRest⟩ := List.nodup_cons.mp distinct
      have here := absent x (List.mem_cons_self ..)
      have kept : Detached (TailedLists.linkTo m (target x) x) (m.next (.node x)) rest := by
        apply behind.congr
        intro y member
        apply represents.linkTo_next
        · rintro rfl
          exact once member
        · exact absent y (List.mem_cons_of_mem x member)
      have unlinked : ∀ y ≠ x, (∀ list, y ∉ cells list) → ∀ list, y ∉ put cells (target x) x list := by
        intro y other away list inside
        rcases mem_put.mp inside with old | ⟨-, same⟩
        · exact away list old
        · exact other same
      obtain ⟨final, ended, after, frame⟩ :=
        ih turns (represents.linkTo scattered (target x) here) (scattered.put here) kept distinctRest
          (fun y member => unlinked y (ne_of_mem_of_not_mem member once)
            (absent y (List.mem_cons_of_mem x member))) (by simpa using enough)
      refine ⟨final, ended, after, ?_⟩
      intro y notMember away
      obtain ⟨other, notRest⟩ := List.ne_and_not_mem_of_not_mem_cons notMember
      rw [frame y notRest (unlinked y other away), represents.linkTo_next _ other away]

end CppInfra.TailedLists
