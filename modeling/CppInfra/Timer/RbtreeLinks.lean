import CppInfra.Timer.Rbtree

set_option autoImplicit false

namespace CppInfra.Timer.Rbtree

open RedBlackTree RedBlackTree.RbTree

namespace Memory

variable (memory : Memory) (side s : Side) (node value x : Nat) (c : Color)

@[simp] theorem link_withLink : (memory.withLink side node value).link s x =
    if x = node ∧ s = side then value else memory.link s x := rfl
@[simp] theorem parent_withLink : (memory.withLink side node value).parent = memory.parent := rfl
@[simp] theorem color_withLink : (memory.withLink side node value).color = memory.color := rfl
@[simp] theorem key_withLink : (memory.withLink side node value).key = memory.key := rfl
@[simp] theorem root_withLink : (memory.withLink side node value).root = memory.root := rfl
@[simp] theorem sentinel_withLink : (memory.withLink side node value).sentinel = memory.sentinel := rfl

@[simp] theorem link_withParent : (memory.withParent node value).link = memory.link := rfl
@[simp] theorem parent_withParent : (memory.withParent node value).parent x =
    if x = node then value else memory.parent x := by simp [withParent, Function.update_apply]
@[simp] theorem color_withParent : (memory.withParent node value).color = memory.color := rfl
@[simp] theorem key_withParent : (memory.withParent node value).key = memory.key := rfl
@[simp] theorem root_withParent : (memory.withParent node value).root = memory.root := rfl
@[simp] theorem sentinel_withParent : (memory.withParent node value).sentinel = memory.sentinel := rfl

@[simp] theorem link_withColor : (memory.withColor node c).link = memory.link := rfl
@[simp] theorem parent_withColor : (memory.withColor node c).parent = memory.parent := rfl
@[simp] theorem color_withColor : (memory.withColor node c).color x =
    if x = node then c else memory.color x := by simp [withColor, Function.update_apply]
@[simp] theorem key_withColor : (memory.withColor node c).key = memory.key := rfl
@[simp] theorem root_withColor : (memory.withColor node c).root = memory.root := rfl
@[simp] theorem sentinel_withColor : (memory.withColor node c).sentinel = memory.sentinel := rfl

@[simp] theorem link_withRoot : (memory.withRoot value).link = memory.link := rfl
@[simp] theorem parent_withRoot : (memory.withRoot value).parent = memory.parent := rfl
@[simp] theorem color_withRoot : (memory.withRoot value).color = memory.color := rfl
@[simp] theorem key_withRoot : (memory.withRoot value).key = memory.key := rfl
@[simp] theorem root_withRoot : (memory.withRoot value).root = value := rfl
@[simp] theorem sentinel_withRoot : (memory.withRoot value).sentinel = memory.sentinel := rfl

end Memory

section Access

variable {β : Type} (field : Nat → β) (memory : Memory) (side : Side) {node : Nat} (value : Nat) (c : Color)

theorem deref_of_ne (real : node ≠ 0) : deref field node = some (field node) := if_neg real
theorem setLink_of_ne (real : node ≠ 0) : setLink memory side node value = some (memory.withLink side node value) :=
  if_neg real
theorem setParent_of_ne (real : node ≠ 0) : setParent memory node value = some (memory.withParent node value) :=
  if_neg real
theorem setColor_of_ne (real : node ≠ 0) : setColor memory node c = some (memory.withColor node c) := if_neg real

end Access

def address (sentinel : Nat) : RbTree Nat → Nat
  | .leaf => sentinel
  | .node _ _ x _ => x

@[simp] theorem address_branch (sentinel : Nat) (side : Side) (color : Color) (x : Nat) (near far : RbTree Nat) :
    address sentinel (branch side color x near far) = x := by
  cases side <;> rfl

@[simp] theorem address_attach (sentinel : Nat) (frame : Frame Nat) (tree : RbTree Nat) :
    address sentinel (frame.attach tree) = frame.value := address_branch ..

@[simp] theorem address_paint (sentinel : Nat) (tree : RbTree Nat) (color : Color) :
    address sentinel (tree.paint color) = address sentinel tree := by
  cases tree <;> rfl

theorem address_mem {tree : RbTree Nat} (sentinel : Nat) (shape : tree ≠ .leaf) :
    address sentinel tree ∈ tree.toList := by
  cases tree with
  | leaf => exact absurd rfl shape
  | node color left x right => simp [address, toList]

-- The parent field of a leaf is not the tree's business: all leaves are the one sentinel.
def Hangs (memory : Memory) (up : Nat) (tree : RbTree Nat) : Prop :=
  tree ≠ .leaf → memory.parent (address memory.sentinel tree) = up

theorem hangs_leaf (memory : Memory) (up : Nat) : Hangs memory up .leaf := fun shape => absurd rfl shape

def Holds (memory : Memory) : RbTree Nat → Prop
  | .leaf => True
  | .node color left x right =>
      memory.color x = color ∧ memory.link .left x = address memory.sentinel left ∧
        memory.link .right x = address memory.sentinel right ∧ Hangs memory x left ∧ Hangs memory x right ∧
        Holds memory left ∧ Holds memory right

structure Cell (memory : Memory) (side : Side) (color : Color) (x : Nat) (near far : RbTree Nat) : Prop where
  painted : memory.color x = color
  toNear : memory.link side x = address memory.sentinel near
  toFar : memory.link side.other x = address memory.sentinel far
  hangsNear : Hangs memory x near
  hangsFar : Hangs memory x far
  holdsNear : Holds memory near
  holdsFar : Holds memory far

theorem holds_branch {memory : Memory} {side : Side} {color : Color} {x : Nat} {near far : RbTree Nat} :
    Holds memory (branch side color x near far) ↔ Cell memory side color x near far := by
  cases side with
  | left =>
      constructor
      · rintro ⟨painted, left, right, hangsLeft, hangsRight, onLeft, onRight⟩
        exact ⟨painted, left, right, hangsLeft, hangsRight, onLeft, onRight⟩
      · rintro ⟨painted, near, far, hangsNear, hangsFar, onNear, onFar⟩
        exact ⟨painted, near, far, hangsNear, hangsFar, onNear, onFar⟩
  | right =>
      constructor
      · rintro ⟨painted, left, right, hangsLeft, hangsRight, onLeft, onRight⟩
        exact ⟨painted, right, left, hangsRight, hangsLeft, onRight, onLeft⟩
      · rintro ⟨painted, near, far, hangsNear, hangsFar, onNear, onFar⟩
        exact ⟨painted, far, near, hangsFar, hangsNear, onFar, onNear⟩

def Above (memory : Memory) (context : List (Frame Nat)) (x : Nat) : Prop :=
  ∀ frame ∈ context.head?, memory.parent x = frame.value

def HoldsContext (memory : Memory) : List (Frame Nat) → Nat → Prop
  | [], hole => memory.root = hole
  | frame :: context, hole =>
      memory.color frame.value = frame.color ∧ memory.link frame.side frame.value = hole ∧
        memory.link frame.side.other frame.value = address memory.sentinel frame.sibling ∧
        Hangs memory frame.value frame.sibling ∧ Holds memory frame.sibling ∧ Above memory context frame.value ∧
        HoldsContext memory context frame.value

structure Stored (memory : Memory) (context : List (Frame Nat)) (tree : RbTree Nat) : Prop where
  around : HoldsContext memory context (address memory.sentinel tree)
  above : tree ≠ .leaf → Above memory context (address memory.sentinel tree)
  holds : Holds memory tree
  distinct : (plug context tree).toList.Nodup
  proper : ∀ x ∈ (plug context tree).toList, x ≠ 0 ∧ x ≠ memory.sentinel
  real : memory.sentinel ≠ 0
  black : memory.color memory.sentinel = .black

theorem stored_attach {memory : Memory} {frame : Frame Nat} {context : List (Frame Nat)} {tree : RbTree Nat} :
    Stored memory (frame :: context) tree ↔ Stored memory context (frame.attach tree) := by
  constructor
  · rintro ⟨⟨color, near, far, hangsFar, holdsFar, up, outer⟩, above, holds, distinct, proper, sentinel, black⟩
    refine ⟨by rwa [address_attach], fun _ => by rwa [address_attach], ?_, distinct, proper, sentinel, black⟩
    exact holds_branch.mpr ⟨color, near, far, fun shape => above shape frame rfl, hangsFar, holds, holdsFar⟩
  · rintro ⟨outer, up, holds, distinct, proper, sentinel, black⟩
    rw [address_attach] at outer up
    obtain ⟨color, near, far, hangsNear, hangsFar, holdsNear, holdsFar⟩ := holds_branch.mp holds
    refine ⟨⟨color, near, far, hangsFar, holdsFar, up (frame.attach_ne_leaf tree), outer⟩, ?_, holdsNear, distinct,
      proper, sentinel, black⟩
    rintro shape _ ⟨⟩
    exact hangsNear shape

theorem stored_append {memory : Memory} {inner outer : List (Frame Nat)} {tree : RbTree Nat} :
    Stored memory (inner ++ outer) tree ↔ Stored memory outer (plug inner tree) := by
  induction inner generalizing tree with
  | nil => exact Iff.rfl
  | cons frame inner ih => exact stored_attach.trans (ih.trans Iff.rfl)

section Reading

variable {memory : Memory} {context : List (Frame Nat)} {frame : Frame Nat} {tree : RbTree Nat}

theorem Stored.member (held : Stored memory context tree) {x : Nat} (member : x ∈ tree.toList) :
    x ≠ 0 ∧ x ≠ memory.sentinel := by
  apply held.proper
  rw [toList_plug]
  simp [member]

theorem Stored.cell {side : Side} {color : Color} {x : Nat} {near far : RbTree Nat}
    (held : Stored memory context (branch side color x near far)) : Cell memory side color x near far :=
  holds_branch.mp held.holds

theorem Stored.root_real {side : Side} {color : Color} {x : Nat} {near far : RbTree Nat}
    (held : Stored memory context (branch side color x near far)) : x ≠ 0 ∧ x ≠ memory.sentinel := by
  have member := address_mem memory.sentinel (branch_ne_leaf side color x near far)
  rw [address_branch] at member
  exact held.member member

theorem Stored.address_ne (held : Stored memory context tree) : address memory.sentinel tree ≠ 0 := by
  cases tree with
  | leaf => exact held.real
  | node color left x right => exact (held.member (address_mem memory.sentinel nofun)).1

theorem Stored.address_eq_sentinel (held : Stored memory context tree) :
    address memory.sentinel tree = memory.sentinel ↔ tree = .leaf := by
  constructor
  · intro same
    by_contra shape
    exact (held.member (address_mem memory.sentinel shape)).2 same
  · rintro rfl
    rfl

theorem Stored.color (held : Stored memory context tree) :
    memory.color (address memory.sentinel tree) = tree.color := by
  cases tree with
  | leaf => exact held.black
  | node color left x right => exact held.holds.1

theorem Stored.atFrame (held : Stored memory (frame :: context) tree) :
    Cell memory frame.side frame.color frame.value tree frame.sibling := (stored_attach.mp held).cell

theorem Stored.frame_real (held : Stored memory (frame :: context) tree) :
    frame.value ≠ 0 ∧ frame.value ≠ memory.sentinel :=
  Stored.root_real (stored_attach.mp held)

theorem Stored.parent (held : Stored memory (frame :: context) tree) (shape : tree ≠ .leaf) :
    memory.parent (address memory.sentinel tree) = frame.value := held.above shape frame rfl

def mirror (frame : Frame Nat) (tree : RbTree Nat) : Frame Nat :=
  ⟨frame.side.other, frame.color, frame.value, tree⟩

theorem attach_mirror (frame : Frame Nat) (tree : RbTree Nat) :
    (mirror frame tree).attach frame.sibling = frame.attach tree := branch_swap ..

theorem Stored.opposite (held : Stored memory (frame :: context) tree) :
    Stored memory (mirror frame tree :: context) frame.sibling := by
  rw [stored_attach, attach_mirror]
  exact stored_attach.mp held

def outside (context : List (Frame Nat)) : List Nat := leftOf context ++ rightOf context

theorem mem_outside_cons {x : Nat} :
    x ∈ outside (frame :: context) ↔ x = frame.value ∨ x ∈ frame.sibling.toList ∨ x ∈ outside context := by
  obtain ⟨side, color, value, sibling⟩ := frame
  cases side <;> simp only [outside, leftOf, rightOf, List.mem_append, List.mem_cons, List.not_mem_nil] <;> tauto

theorem mem_plug {x : Nat} : x ∈ (plug context tree).toList ↔ x ∈ tree.toList ∨ x ∈ outside context := by
  rw [toList_plug]
  simp only [outside, List.mem_append]
  tauto

theorem nodup_plug (distinct : (plug context tree).toList.Nodup) :
    tree.toList.Nodup ∧ ∀ x ∈ tree.toList, x ∉ outside context := by
  rw [toList_plug, List.append_assoc] at distinct
  obtain ⟨-, rest, before⟩ := List.nodup_append.mp distinct
  obtain ⟨inside, -, after⟩ := List.nodup_append.mp rest
  refine ⟨inside, ?_⟩
  intro x member out
  rcases List.mem_append.mp out with left | right
  · exact before x left x (List.mem_append_left _ member) rfl
  · exact after x member x right rfl

theorem nodup_branch {side : Side} {color : Color} {x : Nat} {near far : RbTree Nat}
    (distinct : (branch side color x near far).toList.Nodup) :
    near.toList.Nodup ∧ far.toList.Nodup ∧ x ∉ near.toList ∧ x ∉ far.toList ∧
      ∀ y ∈ near.toList, y ∉ far.toList := by
  cases side with
  | left =>
      obtain ⟨onLeft, rest, apart⟩ := List.nodup_append.mp distinct
      obtain ⟨here, onRight⟩ := List.nodup_cons.mp rest
      refine ⟨onLeft, onRight, ?_, here, ?_⟩
      · intro member
        exact apart x member x (List.mem_cons_self ..) rfl
      · intro y member other
        exact apart y member y (List.mem_cons_of_mem x other) rfl
  | right =>
      obtain ⟨onLeft, rest, apart⟩ := List.nodup_append.mp distinct
      obtain ⟨here, onRight⟩ := List.nodup_cons.mp rest
      refine ⟨onRight, onLeft, here, ?_, ?_⟩
      · intro member
        exact apart x member x (List.mem_cons_self ..) rfl
      · intro y member other
        exact apart y other y (List.mem_cons_of_mem x member) rfl

theorem mem_branch {side : Side} {color : Color} {x y : Nat} {near far : RbTree Nat} :
    y ∈ (branch side color x near far).toList ↔ y = x ∨ y ∈ near.toList ∨ y ∈ far.toList := by
  cases side <;> simp only [branch, toList, List.mem_append, List.mem_cons] <;> tauto

end Reading

section Congr

variable {memory memory' : Memory}

theorem Hangs.congr {up : Nat} {tree : RbTree Nat} (hangs : Hangs memory up tree)
    (sentinel : memory'.sentinel = memory.sentinel)
    (parent : ∀ x ∈ tree.toList, memory'.parent x = memory.parent x) : Hangs memory' up tree := by
  intro shape
  rw [sentinel, parent _ (address_mem _ shape)]
  exact hangs shape

theorem Holds.congr {tree : RbTree Nat} (holds : Holds memory tree) (distinct : tree.toList.Nodup)
    (sentinel : memory'.sentinel = memory.sentinel)
    (link : ∀ side, ∀ x ∈ tree.toList, memory'.link side x = memory.link side x)
    (color : ∀ x ∈ tree.toList, memory'.color x = memory.color x)
    (parent : ∀ x ∈ tree.toList, x ≠ address memory.sentinel tree → memory'.parent x = memory.parent x) :
    Holds memory' tree := by
  induction tree with
  | leaf => trivial
  | node c left x right ihLeft ihRight =>
      obtain ⟨painted, toLeft, toRight, hangsLeft, hangsRight, onLeft, onRight⟩ := holds
      obtain ⟨nodupLeft, nodupRight, notLeft, notRight, -⟩ :=
        nodup_branch (show (branch .left c x left right).toList.Nodup from distinct)
      have inLeft (y : Nat) (member : y ∈ left.toList) : y ∈ (node c left x right).toList := by
        simp [toList, member]
      have inRight (y : Nat) (member : y ∈ right.toList) : y ∈ (node c left x right).toList := by
        simp [toList, member]
      have here : x ∈ (node c left x right).toList := by simp [toList]
      have parentLeft (y : Nat) (member : y ∈ left.toList) : memory'.parent y = memory.parent y := by
        apply parent y (inLeft y member)
        rintro rfl
        exact notLeft member
      have parentRight (y : Nat) (member : y ∈ right.toList) : memory'.parent y = memory.parent y := by
        apply parent y (inRight y member)
        rintro rfl
        exact notRight member
      refine ⟨(color x here).trans painted, ?_, ?_, hangsLeft.congr sentinel parentLeft,
        hangsRight.congr sentinel parentRight, ?_, ?_⟩
      · rw [link, toLeft, sentinel]
        exact here
      · rw [link, toRight, sentinel]
        exact here
      · exact ihLeft onLeft nodupLeft (fun side y member => link side y (inLeft y member))
          (fun y member => color y (inLeft y member)) (fun y member _ => parentLeft y member)
      · exact ihRight onRight nodupRight (fun side y member => link side y (inRight y member))
          (fun y member => color y (inRight y member)) (fun y member _ => parentRight y member)

theorem outside_perm (frame : Frame Nat) (context : List (Frame Nat)) :
    (outside (frame :: context)).Perm (frame.value :: (frame.sibling.toList ++ outside context)) := by
  obtain ⟨side, color, value, sibling⟩ := frame
  rw [List.perm_iff_count]
  intro x
  cases side <;> simp only [outside, leftOf, rightOf, List.count_append, List.count_cons, List.count_nil] <;> omega

theorem nodup_outside {frame : Frame Nat} {context : List (Frame Nat)} (distinct : (outside (frame :: context)).Nodup) :
    frame.value ∉ frame.sibling.toList ∧ frame.value ∉ outside context ∧ frame.sibling.toList.Nodup ∧
      (outside context).Nodup := by
  obtain ⟨here, rest⟩ := List.nodup_cons.mp ((outside_perm frame context).nodup_iff.mp distinct)
  obtain ⟨sibling, outer, -⟩ := List.nodup_append.mp rest
  simp only [List.mem_append, not_or] at here
  exact ⟨here.1, here.2, sibling, outer⟩

theorem HoldsContext.congr {context : List (Frame Nat)} {hole : Nat} (around : HoldsContext memory context hole)
    (distinct : (outside context).Nodup) (sentinel : memory'.sentinel = memory.sentinel)
    (root : memory'.root = memory.root)
    (link : ∀ side, ∀ x ∈ outside context, memory'.link side x = memory.link side x)
    (color : ∀ x ∈ outside context, memory'.color x = memory.color x)
    (parent : ∀ x ∈ outside context, memory'.parent x = memory.parent x) : HoldsContext memory' context hole := by
  induction context generalizing hole with
  | nil => exact root.trans around
  | cons frame context ih =>
      obtain ⟨painted, near, far, hangs, holds, above, outer⟩ := around
      obtain ⟨-, -, nodupSibling, nodupOuter⟩ := nodup_outside distinct
      have here : frame.value ∈ outside (frame :: context) := mem_outside_cons.mpr (.inl rfl)
      have inSibling (x : Nat) (member : x ∈ frame.sibling.toList) : x ∈ outside (frame :: context) :=
        mem_outside_cons.mpr (.inr (.inl member))
      have inOuter (x : Nat) (member : x ∈ outside context) : x ∈ outside (frame :: context) :=
        mem_outside_cons.mpr (.inr (.inr member))
      refine ⟨(color _ here).trans painted, (link _ _ here).trans near, ?_, ?_, ?_, ?_, ?_⟩
      · rw [link _ _ here, far, sentinel]
      · exact hangs.congr sentinel fun x member => parent x (inSibling x member)
      · exact holds.congr nodupSibling sentinel (fun side x member => link side x (inSibling x member))
          (fun x member => color x (inSibling x member)) fun x member _ => parent x (inSibling x member)
      · intro above' outermost
        exact (parent _ here).trans (above above' outermost)
      · exact ih outer nodupOuter (fun side x member => link side x (inOuter x member))
          (fun x member => color x (inOuter x member)) fun x member => parent x (inOuter x member)

def attached (memory : Memory) (context : List (Frame Nat)) (hole : Nat) : Memory :=
  match context with
  | [] => memory.withRoot hole
  | frame :: _ => memory.withLink frame.side frame.value hole

theorem HoldsContext.relink {context : List (Frame Nat)} {hole hole' : Nat}
    (around : HoldsContext memory context hole) (distinct : (outside context).Nodup)
    (sentinel : memory'.sentinel = memory.sentinel) (root : memory'.root = (attached memory context hole').root)
    (link : ∀ side, ∀ x ∈ outside context, memory'.link side x = (attached memory context hole').link side x)
    (color : ∀ x ∈ outside context, memory'.color x = memory.color x)
    (parent : ∀ x ∈ outside context, memory'.parent x = memory.parent x) : HoldsContext memory' context hole' := by
  cases context with
  | nil => exact root
  | cons frame context =>
      obtain ⟨painted, near, far, hangs, holds, above, outer⟩ := around
      obtain ⟨apart, beyond, nodupSibling, nodupOuter⟩ := nodup_outside distinct
      have here : frame.value ∈ outside (frame :: context) := mem_outside_cons.mpr (.inl rfl)
      have inSibling (x : Nat) (member : x ∈ frame.sibling.toList) : x ∈ outside (frame :: context) :=
        mem_outside_cons.mpr (.inr (.inl member))
      have inOuter (x : Nat) (member : x ∈ outside context) : x ∈ outside (frame :: context) :=
        mem_outside_cons.mpr (.inr (.inr member))
      have elsewhere (side : Side) (x : Nat) (member : x ∈ outside (frame :: context)) (other : x ≠ frame.value) :
          memory'.link side x = memory.link side x := by
        rw [link side x member]
        simp [attached, other]
      refine ⟨(color _ here).trans painted, ?_, ?_, ?_, ?_, ?_, ?_⟩
      · rw [link _ _ here]
        simp [attached]
      · rw [link _ _ here, sentinel, ← far]
        simp [attached]
      · exact hangs.congr sentinel fun x member => parent x (inSibling x member)
      · refine holds.congr nodupSibling sentinel ?_ (fun x member => color x (inSibling x member))
          fun x member _ => parent x (inSibling x member)
        intro side x member
        refine elsewhere side x (inSibling x member) ?_
        rintro rfl
        exact apart member
      · intro above' outermost
        exact (parent _ here).trans (above above' outermost)
      · refine outer.congr nodupOuter sentinel root ?_ (fun x member => color x (inOuter x member))
          fun x member => parent x (inOuter x member)
        intro side x member
        refine elsewhere side x (inOuter x member) ?_
        rintro rfl
        exact beyond member

end Congr

end CppInfra.Timer.Rbtree
