import CppInfra.Timer.RbtreeDeleteFix

set_option autoImplicit false

namespace CppInfra.Timer.Rbtree

open RedBlackTree RedBlackTree.RbTree

variable {memory : Memory} {context : List (Frame Nat)} {color d : Color} {x y : Nat} {tree left right : RbTree Nat}

theorem ngxRbtreeMin_eq {turns : Nat} (held : Stored memory context (.node color left x right))
    (enough : left.height < turns) :
    ngxRbtreeMin turns memory x = some (leftmost color left x right).value := by
  induction left generalizing context color x right turns with
  | leaf =>
      obtain ⟨turns, rfl⟩ := Nat.exists_eq_succ_of_ne_zero (Nat.ne_of_gt enough)
      have real : x ≠ 0 := held.address_ne
      have toLeft : memory.link .left x = memory.sentinel := held.holds.2.1
      simp only [ngxRbtreeMin, deref_of_ne _ real, toLeft, Option.bind_eq_bind, Option.bind_some, if_true, leftmost]
  | node color' left' x' right' ihLeft _ =>
      obtain ⟨turns, rfl⟩ := Nat.exists_eq_succ_of_ne_zero (Nat.ne_of_gt (Nat.zero_lt_of_lt enough))
      have real : x ≠ 0 := held.address_ne
      have below : Stored memory (⟨.left, color, x, right⟩ :: context) (.node color' left' x' right') :=
        stored_attach.mpr held
      have toLeft : memory.link .left x = x' := below.atFrame.toNear
      have inner : x' ≠ memory.sentinel := (below.member (by simp [toList])).2
      rw [height] at enough
      have rest := ihLeft below (show left'.height < turns by omega)
      simp only [ngxRbtreeMin, deref_of_ne _ real, toLeft, Option.bind_eq_bind, Option.bind_some, if_neg inner, rest,
        leftmost]

def cut (memory : Memory) (frame : Frame Nat) (tree : RbTree Nat) (up : Nat) : Memory :=
  (memory.withLink frame.side frame.value (address memory.sentinel tree)).withParent (address memory.sentinel tree) up

variable {frame : Frame Nat} {side : Side}

structure Cut (memory : Memory) (context : List (Frame Nat)) (y : Nat) (tree : RbTree Nat) : Prop where
  around : HoldsContext memory context y
  holds : Holds memory tree
  nodup : tree.toList.Nodup
  nodupOutside : (outside context).Nodup
  apart : ∀ z ∈ tree.toList, z ∉ outside context
  absent : y ∉ tree.toList
  absentOutside : y ∉ outside context

theorem Stored.cut_parts (held : Stored memory context (branch side d y .leaf tree)) : Cut memory context y tree := by
  obtain ⟨nodup, apart⟩ := nodup_plug held.distinct
  obtain ⟨-, nodupTree, -, absent, -⟩ := nodup_branch nodup
  have around := held.around
  rw [address_branch] at around
  exact
    { around, absent
      holds := held.cell.holdsFar
      nodup := nodupTree
      nodupOutside := nodup_outside_of_plug held.distinct
      apart := fun z member => apart z (mem_branch.mpr (.inr (.inr member)))
      absentOutside := apart y (mem_branch.mpr (.inl rfl)) }

theorem Stored.address_outside (held : Stored memory context tree) :
    address memory.sentinel tree ∉ outside context := by
  intro inside
  by_cases leaf : tree = .leaf
  · exact (held.proper _ (mem_plug.mpr (.inr inside))).2 (held.address_eq_sentinel.mpr leaf)
  · exact (nodup_plug held.distinct).2 _ (address_mem _ leaf) inside

theorem cut_around (held : Stored memory (frame :: context) (branch side d y .leaf tree)) (up : Nat) :
    HoldsContext (cut memory frame tree up) (frame :: context) (address memory.sentinel tree) ∧
      Holds (cut memory frame tree up) tree := by
  have parts := held.cut_parts
  have outer := held.onFar.address_outside
  have apart : address memory.sentinel tree ∉ outside (frame :: context) :=
    fun inside => outer (mem_outside_cons.mpr (.inr (.inr inside)))
  constructor
  · refine parts.around.relink parts.nodupOutside rfl rfl (fun _ _ _ => rfl) (fun _ _ => rfl) ?_
    intro z member
    simp [cut, ne_of_notMem member apart]
  · refine parts.holds.congr parts.nodup rfl ?_ (fun _ _ => rfl) ?_
    · intro s z member
      have other : z ≠ frame.value := by
        rintro rfl
        exact parts.apart _ member (mem_outside_cons.mpr (.inl rfl))
      simp [cut, other]
    · intro z member notRoot
      simp [cut, notRoot]

theorem sublist_plug {tree' : RbTree Nat} (sub : tree.toList.Sublist tree'.toList) (context : List (Frame Nat)) :
    (plug context tree).toList.Sublist (plug context tree').toList := by
  rw [toList_plug, toList_plug]
  exact (sub.append_left _).append_right _

theorem sublist_branch (side : Side) (c : Color) (y : Nat) (near far : RbTree Nat) :
    far.toList.Sublist (branch side c y near far).toList := by
  cases side with
  | left => exact (List.sublist_cons_self ..).trans (List.sublist_append_right ..)
  | right => exact List.sublist_append_left ..

theorem cut_stored (held : Stored memory (frame :: context) (branch side d y .leaf tree)) :
    Stored (cut memory frame tree frame.value) (frame :: context) tree := by
  obtain ⟨around, holds⟩ := cut_around held frame.value
  have sub := sublist_plug (sublist_branch side d y .leaf tree) (frame :: context)
  refine ⟨around, ?_, holds, held.distinct.sublist sub, fun z member => held.proper z (sub.subset member), held.real,
    held.black⟩
  rintro - _ ⟨⟩
  simp [cut]

theorem cut_tied (memory : Memory) (frame : Frame Nat) (context : List (Frame Nat)) (tree : RbTree Nat) :
    TiedTo (cut memory frame tree frame.value) (frame :: context) tree := by
  rintro _ ⟨⟩
  simp [cut]

theorem Spares.cut (memory : Memory) (frame : Frame Nat) (tree : RbTree Nat) (up : Nat) :
    Spares memory (cut memory frame tree up)
      (memory.sentinel :: (plug (frame :: context) (branch side d y .leaf tree)).toList) := by
  have inFrame : frame.value ∈ memory.sentinel :: (plug (frame :: context) (branch side d y .leaf tree)).toList :=
    List.mem_cons_of_mem _ (mem_plug.mpr (.inr (mem_outside_cons.mpr (.inl rfl))))
  have inTree : address memory.sentinel tree ∈
      memory.sentinel :: (plug (frame :: context) (branch side d y .leaf tree)).toList := by
    by_cases leaf : tree = .leaf
    · subst leaf
      exact List.mem_cons_self ..
    · exact List.mem_cons_of_mem _ (mem_plug.mpr (.inl (mem_branch.mpr (.inr (.inr (address_mem _ leaf))))))
  exact (Spares.withLink memory inFrame _ _).trans (Spares.withParent _ inTree up)

structure Parts (memory : Memory) (context : List (Frame Nat)) (color : Color) (left : RbTree Nat) (x : Nat)
    (right : RbTree Nat) : Prop where
  around : HoldsContext memory context x
  above : Above memory context x
  painted : memory.color x = color
  toLeft : memory.link .left x = address memory.sentinel left
  toRight : memory.link .right x = address memory.sentinel right
  holdsLeft : Holds memory left
  holdsRight : Holds memory right
  distinct : (plug context (.node color left x right)).toList.Nodup
  proper : ∀ z ∈ (plug context (.node color left x right)).toList, z ≠ 0 ∧ z ≠ memory.sentinel
  real : memory.sentinel ≠ 0
  black : memory.color memory.sentinel = .black

theorem Stored.parts (held : Stored memory context (.node color left x right)) :
    Parts memory context color left x right := by
  obtain ⟨painted, toLeft, toRight, -, -, holdsLeft, holdsRight⟩ := held.holds
  exact
    { painted, toLeft, toRight, holdsLeft, holdsRight
      around := held.around
      above := held.above (branch_ne_leaf .left color x left right)
      distinct := held.distinct
      proper := held.proper
      real := held.real
      black := held.black }

def copied (memory : Memory) (left right : RbTree Nat) (x y : Nat) (color : Color) : Memory :=
  (((memory.withLink .left y (address memory.sentinel left)).withLink .right y
    (address memory.sentinel right)).withParent y (memory.parent x)).withColor y color

def taken (memory : Memory) (context : List (Frame Nat)) (color : Color) (left : RbTree Nat) (x : Nat)
    (right : RbTree Nat) (y : Nat) : Memory :=
  adopted (adopted (attached (copied memory left right x y color) context y) left y) right y

theorem takePlace_eq (parts : Parts memory context color left x right)
    (fresh : Fresh memory (plug context (.node color left x right)) y) :
    takePlace memory y x = some (taken memory context color left x right y) := by
  obtain ⟨nodup, apart⟩ := nodup_plug parts.distinct
  have here : x ∈ (node color left x right).toList := by simp [toList]
  obtain ⟨realX, innerX⟩ := parts.proper x (mem_plug.mpr (.inl here))
  have absentY : y ∉ outside context := fun inside => fresh.absent (mem_plug.mpr (.inr inside))
  have xy : x ≠ y := by
    rintro rfl
    exact fresh.absent (mem_plug.mpr (.inl here))
  let linked := copied memory left right x y color
  have around : HoldsContext linked context x := by
    refine parts.around.congr (nodup_outside_of_plug parts.distinct) rfl rfl ?_ ?_ ?_
    · intro s z member
      simp [linked, copied, ne_of_notMem member absentY]
    · intro z member
      simp [linked, copied, ne_of_notMem member absentY]
    · intro z member
      simp [linked, copied, ne_of_notMem member absentY]
  have above : Above linked context x := by
    intro frame outermost
    rw [← parts.above frame outermost]
    simp [linked, copied, xy]
  have replaced := replaceChild_eq around above (fun z member => (parts.proper z (mem_plug.mpr (.inr member))).1)
    realX innerX (apart x here) .left y
  have toLeft : (attached linked context y).link .left y = address memory.sentinel left := by
    rw [link_attached_of_notMem absentY]
    simp [linked, copied]
  have toRight : (attached linked context y).link .right y = address memory.sentinel right := by
    rw [link_attached_of_notMem absentY]
    simp [linked, copied]
  have properSub (child : RbTree Nat) (sub : ∀ z ∈ child.toList, z ∈ (node color left x right).toList) (z : Nat)
      (member : z ∈ child.toList) : z ≠ 0 ∧ z ≠ memory.sentinel :=
    parts.proper z (mem_plug.mpr (.inl (sub z member)))
  have sentinel : (attached linked context y).sentinel = memory.sentinel := by simp [linked, copied]
  have adoptLeft : adopt (attached linked context y) (address memory.sentinel left) y =
      some (adopted (attached linked context y) left y) := by
    rw [← sentinel]
    apply adopt_eq
    rw [sentinel]
    exact properSub left fun z member => by simp [toList, member]
  have adoptRight : adopt (adopted (attached linked context y) left y) (address memory.sentinel right) y =
      some (taken memory context color left x right y) := by
    have after : (adopted (attached linked context y) left y).sentinel = memory.sentinel := by
      rw [sentinel_adopted, sentinel]
    rw [← after]
    apply adopt_eq
    rw [after]
    exact properSub right fun z member => by simp [toList, member]
  have copies : takePlace memory y x = (replaceChild .left linked x y).bind fun memory =>
      (deref (memory.link .left) y).bind fun child => (adopt memory child y).bind fun memory =>
        (deref (memory.link .right) y).bind fun child => adopt memory child y := by
    simp only [takePlace, deref_of_ne _ realX, setLink_of_ne _ _ _ fresh.real, setParent_of_ne _ _ fresh.real,
      setColor_of_ne _ _ fresh.real, parts.toLeft, Memory.link_withLink, xy, false_and, if_false, parts.toRight,
      Memory.parent_withLink, Memory.color_withParent, Memory.color_withLink, parts.painted, Option.bind_eq_bind,
      Option.bind_some]
    rfl
  rw [copies, replaced]
  simp only [Option.bind_some, deref_of_ne _ fresh.real, toLeft, adoptLeft, link_adopted, toRight, adoptRight]

theorem perm_node (context : List (Frame Nat)) (color : Color) (left : RbTree Nat) (x : Nat) (right : RbTree Nat) :
    (plug context (.node color left x right)).toList.Perm
      (x :: (leftOf context ++ (left.toList ++ right.toList) ++ rightOf context)) := by
  rw [toList_plug, List.perm_iff_count]
  intro z
  simp only [toList, List.count_append, List.count_cons]
  omega

theorem taken_stored (parts : Parts memory context color left x right)
    (fresh : Fresh memory (plug context (.node color left x right)) y) :
    Stored (taken memory context color left x right y) context (.node color left y right) := by
  obtain ⟨nodup, apart⟩ := nodup_plug parts.distinct
  obtain ⟨nodupLeft, nodupRight, -, -, leftRight⟩ :=
    nodup_branch (show (branch .left color x left right).toList.Nodup from nodup)
  have inLeft (z : Nat) (member : z ∈ left.toList) : z ∈ (node color left x right).toList := by simp [toList, member]
  have inRight (z : Nat) (member : z ∈ right.toList) : z ∈ (node color left x right).toList := by
    simp [toList, member]
  have absentOutside : y ∉ outside context := fun inside => fresh.absent (mem_plug.mpr (.inr inside))
  have absentLeft : y ∉ left.toList := fun inside => fresh.absent (mem_plug.mpr (.inl (inLeft y inside)))
  have absentRight : y ∉ right.toList := fun inside => fresh.absent (mem_plug.mpr (.inl (inRight y inside)))
  have sentinel : (taken memory context color left x right y).sentinel = memory.sentinel := by simp [taken, copied]
  have link (s : Side) (z : Nat) (other : z ≠ y) (out : z ∉ outside context) :
      (taken memory context color left x right y).link s z = memory.link s z := by
    simp [taken, copied, link_attached_of_notMem out, other]
  have colors (z : Nat) (other : z ≠ y) : (taken memory context color left x right y).color z = memory.color z := by
    simp [taken, copied, other]
  have parents (z : Nat) (other : z ≠ y) (notLeft : left ≠ .leaf → z ≠ address memory.sentinel left)
      (notRight : right ≠ .leaf → z ≠ address memory.sentinel right) :
      (taken memory context color left x right y).parent z = memory.parent z := by
    have first : ¬ (left ≠ .leaf ∧ z = address memory.sentinel left) := fun both => notLeft both.1 both.2
    have second : ¬ (right ≠ .leaf ∧ z = address memory.sentinel right) := fun both => notRight both.1 both.2
    have inner : (copied memory left right x y color).sentinel = memory.sentinel := rfl
    simp only [taken, parent_adopted, sentinel_adopted, sentinel_attached, parent_attached, inner]
    rw [if_neg second, if_neg first]
    simp [copied, other]
  have holdsLeft : Holds (taken memory context color left x right y) left := by
    refine parts.holdsLeft.congr nodupLeft sentinel ?_ ?_ ?_
    · intro s z member
      exact link s z (ne_of_notMem member absentLeft) (apart z (inLeft z member))
    · intro z member
      exact colors z (ne_of_notMem member absentLeft)
    · intro z member notRoot
      exact parents z (ne_of_notMem member absentLeft) (fun _ => notRoot)
        fun shape => ne_of_notMem_right shape (leftRight z member)
  have holdsRight : Holds (taken memory context color left x right y) right := by
    refine parts.holdsRight.congr nodupRight sentinel ?_ ?_ ?_
    · intro s z member
      exact link s z (ne_of_notMem member absentRight) (apart z (inRight z member))
    · intro z member
      exact colors z (ne_of_notMem member absentRight)
    · intro z member notRoot
      exact parents z (ne_of_notMem member absentRight)
        (fun shape => ne_of_notMem_right shape fun inside => leftRight z inside member) fun _ => notRoot
  refine ⟨?_, ?_, ⟨?_, ?_, ?_, ?_, ?_, holdsLeft, holdsRight⟩, ?_, ?_, ?_, ?_⟩
  · refine parts.around.relink (nodup_outside_of_plug parts.distinct) sentinel ?_ ?_ ?_ ?_
    · cases context <;> simp [taken, copied, attached, address]
    · intro s z member
      have other := ne_of_notMem member absentOutside
      cases context <;> simp [taken, copied, attached, address, other]
    · intro z member
      exact colors z (ne_of_notMem member absentOutside)
    · intro z member
      exact parents z (ne_of_notMem member absentOutside)
        (fun shape => ne_of_notMem_right shape fun inside => apart z (inLeft z inside) member)
        fun shape => ne_of_notMem_right shape fun inside => apart z (inRight z inside) member
  · intro _ frame outermost
    have up := parts.above frame outermost
    simp only [taken, address]
    rw [parent_adopted_of_notMem absentRight, parent_adopted_of_notMem absentLeft, parent_attached]
    simp [copied, up]
  · simp [taken, copied]
  · rw [sentinel]
    simp [taken, copied, link_attached_of_notMem absentOutside]
  · rw [sentinel]
    simp [taken, copied, link_attached_of_notMem absentOutside]
  · intro shape
    rw [sentinel]
    have apartRight : address memory.sentinel left ∉ right.toList := leftRight _ (address_mem _ shape)
    simp only [taken]
    rw [parent_adopted_of_notMem apartRight, parent_adopted, if_pos]
    exact ⟨shape, by simp [copied]⟩
  · intro shape
    rw [sentinel]
    simp only [taken]
    rw [parent_adopted, if_pos]
    exact ⟨shape, by simp [copied]⟩
  · obtain ⟨-, rest⟩ := List.nodup_cons.mp ((perm_node context color left x right).nodup_iff.mp parts.distinct)
    refine (perm_node context color left y right).nodup_iff.mpr (List.nodup_cons.mpr ⟨?_, rest⟩)
    intro inside
    exact fresh.absent ((perm_node context color left x right).mem_iff.mpr (List.mem_cons_of_mem x inside))
  · intro z member
    rw [sentinel]
    rcases List.mem_cons.mp ((perm_node context color left y right).mem_iff.mp member) with rfl | old
    · exact ⟨fresh.real, fresh.inner⟩
    · exact parts.proper z ((perm_node context color left x right).mem_iff.mpr (List.mem_cons_of_mem x old))
  · rw [sentinel]
    exact parts.real
  · rw [sentinel, colors _ fresh.inner.symm]
    exact parts.black

end CppInfra.Timer.Rbtree
