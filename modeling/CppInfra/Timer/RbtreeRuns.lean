import CppInfra.Timer.RbtreeDelete
import CppInfra.Shared.Transition

set_option autoImplicit false

namespace CppInfra.Timer.Rbtree

open RedBlackTree RedBlackTree.RbTree

variable {memory : Memory} {context : List (Frame Nat)} {color : Color} {x : Nat} {tree left right : RbTree Nat}

theorem leftmost_value (color : Color) (left : RbTree Nat) (x : Nat) (right : RbTree Nat) :
    (node color left x right).toList.head? = some (leftmost color left x right).value := by
  rw [← plug_leftmost, toList_plug, leftOf_leftmost]
  simp [toList]

theorem climb_eq {turns : Nat} (held : Stored memory context tree) (shape : tree ≠ .leaf)
    (enough : context.length < turns) :
    climb turns memory (address memory.sentinel tree) = some ((rightOf context).headD 0) := by
  induction context generalizing tree turns with
  | nil =>
      obtain ⟨turns, rfl⟩ := Nat.exists_eq_succ_of_ne_zero (Nat.ne_of_gt enough)
      have top := held.root_iff.mpr rfl
      simp only [climb, deref_of_ne _ held.address_ne, if_pos top, Option.bind_eq_bind, Option.bind_some]
      rfl
  | cons frame context ih =>
      obtain ⟨turns, rfl⟩ := Nat.exists_eq_succ_of_ne_zero (Nat.ne_of_gt (Nat.zero_lt_of_lt enough))
      have deeper := mt held.root_iff.mp (List.cons_ne_nil _ _)
      have outer := ih (stored_attach.mp held) (frame.attach_ne_leaf tree)
        (show context.length < turns by simpa using enough)
      have cell := held.atFrame
      rw [address_attach] at outer
      simp only [climb, deref_of_ne _ held.address_ne, held.parent shape, if_neg deeper,
        deref_of_ne _ held.frame_real.1, outer, Option.bind_eq_bind, Option.bind_some]
      cases side : frame.side with
      | left =>
          have near := cell.toNear
          rw [side] at near
          rw [if_pos near.symm, rightOf, side]
          rfl
      | right =>
          have far := cell.toFar
          rw [side] at far
          have apart := held.address_ne_sibling shape
          rw [← show memory.link .left frame.value = address memory.sentinel frame.sibling from far] at apart
          rw [if_neg apart, rightOf, side]

theorem ngxRbtreeNext_eq {turns : Nat} {before after : List Nat} (held : Stored memory [] tree)
    (order : tree.toList = before ++ x :: after) (enough : tree.height < turns) :
    ngxRbtreeNext turns memory x = some (after.headD 0) := by
  have member : x ∈ tree.toList := order ▸ List.mem_append_right before (List.mem_cons_self ..)
  obtain ⟨context, color, left, right, rfl⟩ := exists_focus member
  have sides : Stored memory context (branch .left color x left right) := stored_focus.mpr held
  have deep := Nat.lt_of_le_of_lt (height_plug context (.node color left x right)) enough
  rw [height] at deep
  have real := sides.root_real.1
  have toRight : memory.link .right x = address memory.sentinel right := sides.cell.toFar
  have behind : after = right.toList ++ rightOf context := by
    have whole := toList_plug context (.node color left x right)
    rw [order, toList, ← List.append_assoc, List.append_assoc _ _ (rightOf context), List.cons_append] at whole
    have distinct := held.distinct
    rw [plug, order] at distinct
    obtain ⟨-, rest, apart⟩ := List.nodup_append.mp distinct
    have notBefore : x ∉ before := fun inside => apart x inside x (List.mem_cons_self ..) rfl
    have notAfter : x ∉ after := (List.nodup_cons.mp rest).1
    exact ((List.append_cons_inj_of_notMem notBefore notAfter).mp whole).2.2
  cases right with
  | leaf =>
      have top := climb_eq sides (branch_ne_leaf _ _ _ _ _) (show context.length < turns by omega)
      rw [address_branch] at top
      rw [behind]
      simp only [ngxRbtreeNext, deref_of_ne _ real, toRight, address, if_true, top, Option.bind_eq_bind,
        Option.bind_some]
      rfl
  | node color' left' x' right' =>
      have inner : x' ≠ memory.sentinel := mt sides.onFar.address_eq_sentinel.mp (by simp)
      simp only [height] at deep
      have first := ngxRbtreeMin_eq sides.onFar (show left'.height < turns by omega)
      have head := leftmost_value color' left' x' right'
      simp only [ngxRbtreeNext, deref_of_ne _ real, toRight, address, if_neg inner, first, Option.bind_eq_bind,
        Option.bind_some, behind]
      cases shape : (node color' left' x' right').toList with
      | nil =>
          rw [shape] at head
          cases head
      | cons y rest =>
          rw [shape] at head
          rw [← Option.some.inj head]
          rfl

theorem ngxRbtreeMin_root {turns : Nat} (held : Stored memory [] tree) (shape : tree ≠ .leaf)
    (enough : tree.height ≤ turns) : ngxRbtreeMin turns memory memory.root = tree.toList.head? := by
  cases tree with
  | leaf => exact absurd rfl shape
  | node color left x right =>
      rw [height] at enough
      rw [held.root, leftmost_value]
      exact ngxRbtreeMin_eq held (by omega)

structure Entry where
  node : Nat
  key : Nat
  deriving DecidableEq, Repr

-- The caller writes the key before it inserts a node.
inductive Call where
  | insert (node key : Nat)
  | delete (node : Nat)
  deriving DecidableEq, Repr

def perform (less : Nat → Nat → Bool) (turns : Nat) (memory : Memory) : Call → Option Memory
  | .insert x key => ngxRbtreeInsert (insertBy less) turns (memory.withKey x key) x
  | .delete x => ngxRbtreeDelete turns memory x

-- What the tree is for: the nodes in the order of the comparison, a new one behind its equals.
def place (less : Nat → Nat → Bool) (entries : List Entry) (entry : Entry) : List Entry :=
  entries.takeWhile (fun other => !less entry.key other.key) ++
    entry :: entries.dropWhile fun other => !less entry.key other.key

def specify (less : Nat → Nat → Bool) (sentinel : Nat) (entries : List Entry) : Call → Option (List Entry)
  | .insert x key =>
      if x ≠ 0 ∧ x ≠ sentinel ∧ x ∉ entries.map Entry.node then some (place less entries ⟨x, key⟩) else none
  | .delete x => if x ∈ entries.map Entry.node then some (entries.filter fun entry => entry.node ≠ x) else none

def entriesOf (memory : Memory) (tree : RbTree Nat) : List Entry := tree.toList.map fun x => ⟨x, memory.key x⟩

structure Represents (memory : Memory) (entries : List Entry) (tree : RbTree Nat) : Prop where
  stored : Stored memory [] tree
  redBlack : RedBlack tree
  entries : entriesOf memory tree = entries

theorem Represents.nodes {entries : List Entry} (represents : Represents memory entries tree) :
    entries.map Entry.node = tree.toList := by
  rw [← represents.entries, entriesOf, List.map_map]
  exact List.map_id _

theorem Represents.length {entries : List Entry} (represents : Represents memory entries tree) :
    tree.toList.length = entries.length := by
  rw [← represents.nodes, List.length_map]

theorem withKey_stored (held : Stored memory context tree) (node key : Nat) :
    Stored (memory.withKey node key) context tree :=
  held.congr rfl rfl (fun _ _ _ => rfl) (fun _ _ => rfl) fun _ _ => rfl

def Monotone (less : Nat → Nat → Bool) (key : Nat) (entries : List Entry) : Prop :=
  entries.Pairwise fun first second => less key first.key = true → less key second.key = true

theorem takeWhile_between {β : Type} {p : β → Bool} {before after : List β} (early : ∀ z ∈ before, p z = true)
    (late : ∀ z ∈ after, p z = false) :
    (before ++ after).takeWhile p = before ∧ (before ++ after).dropWhile p = after := by
  rw [List.takeWhile_append_of_pos early, List.dropWhile_append_of_pos early]
  cases after with
  | nil => simp
  | cons z after => simp [late z (List.mem_cons_self ..)]

theorem insert_represents {less : Nat → Nat → Bool} {entries : List Entry} {node key turns : Nat}
    (represents : Represents memory entries tree) (real : node ≠ 0) (inner : node ≠ memory.sentinel)
    (absent : node ∉ entries.map Entry.node) (monotone : Monotone less key entries)
    (enough : entries.length < turns) :
    ∃ memory' tree', perform less turns memory (.insert node key) = some memory' ∧
      Represents memory' (place less entries ⟨node, key⟩) tree' ∧ memory'.sentinel = memory.sentinel := by
  have held := withKey_stored represents.stored node key
  rw [represents.nodes] at absent
  have keys (z : Nat) (member : z ∈ tree.toList) : (memory.withKey node key).key z = memory.key z :=
    Function.update_of_ne (ne_of_notMem member absent) _ _
  have here : (memory.withKey node key).key node = key := Function.update_self ..
  have deep := Nat.lt_of_le_of_lt (height_le_length tree) (represents.length ▸ enough)
  obtain ⟨memory', inserted, stored, spares⟩ := ngxRbtreeInsert_stored less held represents.redBlack
    ⟨real, inner, absent⟩ deep
  refine ⟨memory', _, inserted, ⟨stored, insertNode_redBlack _ _ represents.redBlack, ?_⟩, spares.sentinel⟩
  let toLeft := fun x => less ((memory.withKey node key).key node) ((memory.withKey node key).key x)
  have whole := leftOf_descend toLeft tree
  have inLeft (z : Nat) (member : z ∈ leftOf (descend toLeft tree [])) : z ∈ tree.toList := by
    rw [← whole]
    exact List.mem_append_left _ member
  have inRight (z : Nat) (member : z ∈ rightOf (descend toLeft tree [])) : z ∈ tree.toList := by
    rw [← whole]
    exact List.mem_append_right _ member
  have sorted : tree.toList.Pairwise fun a b => toLeft a = true → toLeft b = true := by
    rw [Monotone, ← represents.entries, entriesOf, List.pairwise_map] at monotone
    refine monotone.imp_of_mem ?_
    intro a b first second kept
    simpa only [toLeft, here, keys a first, keys b second] using kept
  obtain ⟨early, late⟩ : (∀ z ∈ leftOf (descend toLeft tree []), toLeft z = false) ∧
      ∀ z ∈ rightOf (descend toLeft tree []), toLeft z = true :=
    descend_between sorted (List.forall_mem_nil _) (List.forall_mem_nil _)
  let entryOf := fun x => (⟨x, memory.key x⟩ : Entry)
  have split : entries = (leftOf (descend toLeft tree [])).map entryOf ++
      (rightOf (descend toLeft tree [])).map entryOf := by
    rw [← List.map_append, whole, ← represents.entries]
    rfl
  have front : ∀ entry ∈ (leftOf (descend toLeft tree [])).map entryOf, (!less key entry.key) = true := by
    intro entry member
    obtain ⟨z, inside, rfl⟩ := List.mem_map.mp member
    have kept := early z inside
    simp only [toLeft, here, keys z (inLeft z inside)] at kept
    simp [entryOf, kept]
  have behind : ∀ entry ∈ (rightOf (descend toLeft tree [])).map entryOf, (!less key entry.key) = false := by
    intro entry member
    obtain ⟨z, inside, rfl⟩ := List.mem_map.mp member
    have kept := late z inside
    simp only [toLeft, here, keys z (inRight z inside)] at kept
    simp [entryOf, kept]
  obtain ⟨taken, dropped⟩ := takeWhile_between front behind
  have same (l : List Nat) (inside : ∀ z ∈ l, z ∈ tree.toList) :
      l.map (fun z => (⟨z, (memory.withKey node key).key z⟩ : Entry)) = l.map entryOf := by
    apply List.map_congr_left
    intro z member
    rw [keys z (inside z member)]
  have order : (insertNode toLeft tree node).toList = _ := toList_insertNode toLeft tree node
  rw [place, split, taken, dropped, entriesOf, spares.key, order, List.map_append, List.map_cons, same _ inLeft,
    same _ inRight, here]

theorem erase_middle {before after : List Nat} {x : Nat} (distinct : (before ++ x :: after).Nodup) :
    (before ++ x :: after).filter (fun z => z ≠ x) = before ++ after := by
  obtain ⟨-, rest, apart⟩ := List.nodup_append.mp distinct
  have early : ∀ z ∈ before, decide (z ≠ x) = true := fun z member =>
    decide_eq_true (apart z member x (List.mem_cons_self ..))
  have late : ∀ z ∈ after, decide (z ≠ x) = true := fun z member =>
    decide_eq_true (ne_of_notMem member (List.nodup_cons.mp rest).1)
  rw [List.filter_append, List.filter_cons_of_neg (by simp), List.filter_eq_self.mpr early,
    List.filter_eq_self.mpr late]

theorem delete_represents (less : Nat → Nat → Bool) {entries : List Entry} {turns : Nat}
    (represents : Represents memory entries tree) (present : x ∈ entries.map Entry.node)
    (enough : entries.length ≤ turns) :
    ∃ memory' tree', perform less turns memory (.delete x) = some memory' ∧
      Represents memory' (entries.filter fun entry => entry.node ≠ x) tree' ∧ memory'.sentinel = memory.sentinel := by
  rw [represents.nodes] at present
  obtain ⟨context, color, left, right, rfl⟩ := exists_focus present
  have deep := Nat.le_trans (height_le_length _) (represents.length ▸ enough)
  obtain ⟨memory', deleted, stored, removed⟩ := ngxRbtreeDelete_stored (stored_focus.mpr represents.stored)
    represents.redBlack deep
  refine ⟨memory', _, deleted, ⟨stored, deleteNode_redBlack represents.redBlack, ?_⟩, removed.sentinel⟩
  have distinct := represents.stored.distinct
  have order := toList_plug context (.node color left x right)
  rw [toList, ← List.append_assoc, List.append_assoc _ _ (rightOf context), List.cons_append] at order
  rw [plug, order] at distinct
  have kept := erase_middle distinct
  rw [entriesOf, toList_deleteNode, ← represents.entries, entriesOf, List.filter_map, order]
  have same : ((fun entry : Entry => decide (entry.node ≠ x)) ∘ fun z => (⟨z, memory.key z⟩ : Entry)) =
      fun z => decide (z ≠ x) := rfl
  rw [same, kept, ← List.append_assoc, ← List.append_assoc]
  apply List.map_congr_left
  intro z member
  have other : z ≠ x := by
    rintro rfl
    rw [List.append_assoc, ← kept] at member
    simp at member
  rw [removed.key z other]

theorem ngxRbtreeInit_represents {start : Memory} {sentinel : Nat}
    (initial : ngxRbtreeInit start sentinel = some memory) :
    Represents memory [] .leaf ∧ memory.sentinel = sentinel := by
  obtain ⟨painted, first, same⟩ := Option.bind_eq_some_iff.mp initial
  by_cases null : sentinel = 0
  · rw [setColor, if_pos null] at first
    cases first
  · rw [setColor_of_ne _ _ null] at first
    cases first
    cases same
    refine ⟨⟨⟨rfl, ?_, trivial, List.nodup_nil, ?_, null, ?_⟩, ⟨0, .leaf⟩, rfl⟩, rfl⟩
    · intro shape
      exact absurd rfl shape
    · intro x member
      cases member
    · simp

theorem length_place (less : Nat → Nat → Bool) (entries : List Entry) (entry : Entry) :
    (place less entries entry).length = entries.length + 1 := by
  have whole := congrArg List.length
    (List.takeWhile_append_dropWhile (p := fun other => !less entry.key other.key) (l := entries))
  rw [List.length_append] at whole
  rw [place, List.length_append, List.length_cons]
  omega

theorem late_of_monotone {less : Nat → Nat → Bool} {entries : List Entry} {key : Nat}
    (monotone : Monotone less key entries) {other : Entry}
    (member : other ∈ entries.dropWhile fun other => !less key other.key) : less key other.key = true := by
  induction entries with
  | nil => cases member
  | cons first entries ih =>
      obtain ⟨behind, rest⟩ := List.pairwise_cons.mp monotone
      cases goes : less key first.key with
      | false =>
          rw [List.dropWhile_cons_of_pos (by simp [goes])] at member
          exact ih rest member
      | true =>
          rw [List.dropWhile_cons_of_neg (by simp [goes])] at member
          rcases List.mem_cons.mp member with rfl | later
          · exact goes
          · exact behind other later goes

theorem place_pairwise {less : Nat → Nat → Bool} {entries : List Entry} {entry : Entry} {order : Entry → Entry → Prop}
    (sorted : entries.Pairwise order) (monotone : Monotone less entry.key entries)
    (early : ∀ other ∈ entries, less entry.key other.key = false → order other entry)
    (late : ∀ other ∈ entries, less entry.key other.key = true → order entry other) :
    (place less entries entry).Pairwise order := by
  have inFront (other : Entry) (member : other ∈ entries.takeWhile fun other => !less entry.key other.key) :
      order other entry := by
    have kept := List.mem_takeWhile_imp member
    exact early other ((List.takeWhile_prefix _).mem member) (by simpa using kept)
  have behind (other : Entry) (member : other ∈ entries.dropWhile fun other => !less entry.key other.key) :
      order entry other :=
    late other ((List.dropWhile_suffix _).mem member) (late_of_monotone monotone member)
  have parts := sorted
  rw [← List.takeWhile_append_dropWhile (p := fun other => !less entry.key other.key) (l := entries)] at parts
  obtain ⟨sortedFront, sortedBehind, across⟩ := List.pairwise_append.mp parts
  refine List.pairwise_append.mpr ⟨sortedFront, List.pairwise_cons.mpr ⟨behind, sortedBehind⟩, ?_⟩
  intro first front second back
  rcases List.mem_cons.mp back with rfl | later
  · exact inFront first front
  · exact across first front second later

def valueLess (node temp : Nat) : Bool := node < temp

def Sorted (entries : List Entry) : Prop := entries.Pairwise fun first second => first.key ≤ second.key

theorem Sorted.monotone {entries : List Entry} (sorted : Sorted entries) (key : Nat) :
    Monotone valueLess key entries := by
  refine sorted.imp ?_
  intro first second order goes
  simp only [valueLess, decide_eq_true_eq] at goes ⊢
  omega

theorem place_sorted {entries : List Entry} (sorted : Sorted entries) (entry : Entry) :
    Sorted (place valueLess entries entry) := by
  apply place_pairwise sorted (sorted.monotone entry.key)
  · intro other _ stays
    simpa [valueLess] using stays
  · intro other _ goes
    have smaller : entry.key < other.key := by simpa [valueLess] using goes
    exact Nat.le_of_lt smaller

structure Kept (turns sentinel : Nat) (later : List Call) (memory : Memory) (entries : List Entry) : Prop where
  represents : ∃ tree, Represents memory entries tree
  sentinel : memory.sentinel = sentinel
  sorted : Sorted entries
  enough : entries.length + later.length < turns

theorem perform_kept {turns sentinel : Nat} (event : Call) (rest : List Call) (memory : Memory)
    (entries entries' : List Entry) (kept : Kept turns sentinel (event :: rest) memory entries)
    (allowed : specify valueLess sentinel entries event = some entries') :
    ∃ memory', perform valueLess turns memory event = some memory' ∧ Kept turns sentinel rest memory' entries' := by
  obtain ⟨⟨tree, represents⟩, rfl, sorted, enough⟩ := kept
  rw [List.length_cons] at enough
  cases event with
  | insert x key =>
      obtain ⟨⟨real, inner, absent⟩, same⟩ := Option.ite_none_right_eq_some.mp allowed
      cases same
      obtain ⟨memory', tree', done, after, sentinel⟩ := insert_represents represents real inner absent
        (sorted.monotone key) (show entries.length < turns by omega)
      refine ⟨memory', done, ⟨tree', after⟩, sentinel, place_sorted sorted _, ?_⟩
      rw [length_place]
      omega
  | delete x =>
      obtain ⟨present, same⟩ := Option.ite_none_right_eq_some.mp allowed
      cases same
      obtain ⟨memory', tree', done, after, sentinel⟩ := delete_represents valueLess represents present
        (show entries.length ≤ turns by omega)
      refine ⟨memory', done, ⟨tree', after⟩, sentinel, List.Pairwise.filter _ sorted, ?_⟩
      have fewer := List.length_filter_le (fun entry : Entry => decide (entry.node ≠ x)) entries
      omega

theorem rbtree_run {start : Memory} {sentinel turns : Nat} {calls : List Call} {entries : List Entry}
    (initial : ngxRbtreeInit start sentinel = some memory)
    (ran : Transition.run (specify valueLess sentinel) [] calls = some entries) (enough : calls.length < turns) :
    ∃ memory' tree, Transition.run (perform valueLess turns) memory calls = some memory' ∧
      Represents memory' entries tree ∧ Sorted entries ∧
      tree.height ≤ 2 * Nat.log 2 (entries.length + 1) ∧
      (entries ≠ [] → ngxRbtreeMin turns memory' memory'.root = (entries.map Entry.node).head?) ∧
      ∀ before x after, entries.map Entry.node = before ++ x :: after →
        ngxRbtreeNext turns memory' x = some (after.headD 0) := by
  obtain ⟨empty, sentinelIs⟩ := ngxRbtreeInit_represents initial
  have first : Kept turns sentinel calls memory [] :=
    ⟨⟨_, empty⟩, sentinelIs, List.Pairwise.nil, by simpa using enough⟩
  obtain ⟨memory', performed, ⟨tree, represents⟩, -, sorted, few⟩ :=
    Transition.run_refines (Kept turns sentinel) perform_kept first ran
  have length := represents.length
  have deep := height_le_length tree
  have fewer : entries.length < turns := by simpa using few
  refine ⟨memory', tree, performed, represents, sorted, ?_, ?_, ?_⟩
  · rw [← length]
    exact represents.redBlack.height_le
  · intro some
    rw [represents.nodes]
    apply ngxRbtreeMin_root represents.stored _ (by omega)
    rintro rfl
    exact some (List.eq_nil_of_length_eq_zero length.symm)
  · intro before x after order
    rw [represents.nodes] at order
    exact ngxRbtreeNext_eq represents.stored order (by omega)

def blank : Memory := ⟨fun _ => 0, fun _ _ => 0, fun _ => 0, fun _ => .red, 0, 0⟩

theorem rbtree_run_twins :
    ∃ memory memory' tree, ngxRbtreeInit blank 9 = some memory ∧
      Transition.run (perform valueLess 6) memory
        [.insert 1 5, .insert 2 7, .insert 3 5, .insert 4 2, .delete 2] = some memory' ∧
      Represents memory' [⟨4, 2⟩, ⟨1, 5⟩, ⟨3, 5⟩] tree ∧ ngxRbtreeNext 6 memory' 1 = some 3 := by
  have followed : Transition.run (specify valueLess 9) []
      [.insert 1 5, .insert 2 7, .insert 3 5, .insert 4 2, .delete 2] = some [⟨4, 2⟩, ⟨1, 5⟩, ⟨3, 5⟩] := by decide
  obtain ⟨memory', tree, performed, represents, -, -, -, next⟩ :=
    rbtree_run (show ngxRbtreeInit blank 9 = some _ from rfl) followed (show _ < 6 by decide)
  exact ⟨_, memory', tree, rfl, performed, represents, next [4] 1 [3] rfl⟩

end CppInfra.Timer.Rbtree
