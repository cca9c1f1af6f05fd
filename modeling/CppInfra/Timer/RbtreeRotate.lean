import CppInfra.Timer.RbtreeLinks

set_option autoImplicit false

namespace CppInfra.Timer.Rbtree

open RedBlackTree RedBlackTree.RbTree

variable {memory : Memory} {context : List (Frame Nat)}

@[simp] theorem sentinel_attached (memory : Memory) (context : List (Frame Nat)) (hole : Nat) :
    (attached memory context hole).sentinel = memory.sentinel := by
  cases context <;> rfl

@[simp] theorem parent_attached (memory : Memory) (context : List (Frame Nat)) (hole : Nat) :
    (attached memory context hole).parent = memory.parent := by
  cases context <;> rfl

@[simp] theorem color_attached (memory : Memory) (context : List (Frame Nat)) (hole : Nat) :
    (attached memory context hole).color = memory.color := by
  cases context <;> rfl

@[simp] theorem key_attached (memory : Memory) (context : List (Frame Nat)) (hole : Nat) :
    (attached memory context hole).key = memory.key := by
  cases context <;> rfl

def adopted (memory : Memory) (tree : RbTree Nat) (up : Nat) : Memory :=
  match tree with
  | .leaf => memory
  | .node _ _ x _ => memory.withParent x up

@[simp] theorem sentinel_adopted (memory : Memory) (tree : RbTree Nat) (up : Nat) :
    (adopted memory tree up).sentinel = memory.sentinel := by
  cases tree <;> rfl

@[simp] theorem root_adopted (memory : Memory) (tree : RbTree Nat) (up : Nat) :
    (adopted memory tree up).root = memory.root := by
  cases tree <;> rfl

@[simp] theorem link_adopted (memory : Memory) (tree : RbTree Nat) (up : Nat) :
    (adopted memory tree up).link = memory.link := by
  cases tree <;> rfl

@[simp] theorem color_adopted (memory : Memory) (tree : RbTree Nat) (up : Nat) :
    (adopted memory tree up).color = memory.color := by
  cases tree <;> rfl

@[simp] theorem key_adopted (memory : Memory) (tree : RbTree Nat) (up : Nat) :
    (adopted memory tree up).key = memory.key := by
  cases tree <;> rfl

theorem parent_adopted (memory : Memory) (tree : RbTree Nat) (up x : Nat) :
    (adopted memory tree up).parent x =
      if tree ≠ .leaf ∧ x = address memory.sentinel tree then up else memory.parent x := by
  cases tree <;> simp [adopted, address]

theorem adopt_eq {tree : RbTree Nat} (proper : ∀ x ∈ tree.toList, x ≠ 0 ∧ x ≠ memory.sentinel) (up : Nat) :
    adopt memory (address memory.sentinel tree) up = some (adopted memory tree up) := by
  cases tree with
  | leaf => exact if_pos rfl
  | node color left x right =>
      obtain ⟨real, inner⟩ := proper x (by simp [toList])
      rw [adopt, address, if_neg inner, setParent_of_ne _ _ real]
      rfl

theorem HoldsContext.root {hole : Nat} (around : HoldsContext memory context hole) :
    context = [] ∧ memory.root = hole ∨ memory.root ∈ outside context := by
  induction context generalizing hole with
  | nil => exact .inl ⟨rfl, around⟩
  | cons frame context ih =>
      obtain ⟨-, -, -, -, -, -, outer⟩ := around
      right
      apply mem_outside_cons.mpr
      rcases ih outer with ⟨-, here⟩ | inside
      · exact .inl here
      · exact .inr (.inr inside)

theorem HoldsContext.root_eq {hole : Nat} (around : HoldsContext memory context hole) (apart : hole ∉ outside context) :
    hole = memory.root ↔ context = [] := by
  constructor
  · intro same
    rcases around.root with ⟨empty, -⟩ | inside
    · exact empty
    · rw [← same] at inside
      exact absurd inside apart
  · rintro rfl
    exact around.symm

theorem relink_eq {frame : Frame Nat} {node : Nat} (around : HoldsContext memory (frame :: context) node)
    (proper : ∀ x ∈ outside (frame :: context), x ≠ 0) (inner : node ≠ memory.sentinel)
    (apart : node ∉ outside (frame :: context)) (side : Side) (temp : Nat) :
    relink side memory frame.value node temp = some (memory.withLink frame.side frame.value temp) := by
  obtain ⟨-, near, far, -⟩ := around
  have realUp : frame.value ≠ 0 := proper _ (mem_outside_cons.mpr (.inl rfl))
  have other : node ≠ memory.link frame.side.other frame.value := by
    rw [far]
    rintro rfl
    by_cases leaf : frame.sibling = .leaf
    · rw [leaf] at inner
      exact inner rfl
    · exact apart (mem_outside_cons.mpr (.inr (.inl (address_mem _ leaf))))
  simp only [relink, deref_of_ne _ realUp, Option.bind_eq_bind, Option.bind_some, setLink_of_ne _ _ _ realUp]
  by_cases same : side = frame.side
  · subst same
    rw [if_pos near.symm]
  · have opposite := Side.eq_other same
    rw [opposite, if_neg other, Side.other_other]

theorem replaceChild_eq {node : Nat} (around : HoldsContext memory context node) (above : Above memory context node)
    (proper : ∀ x ∈ outside context, x ≠ 0) (real : node ≠ 0) (inner : node ≠ memory.sentinel)
    (apart : node ∉ outside context) (side : Side) (temp : Nat) :
    replaceChild side memory node temp = some (attached memory context temp) := by
  have top := around.root_eq apart
  cases context with
  | nil =>
      rw [replaceChild, if_pos (top.mpr rfl)]
      rfl
  | cons frame context =>
      have deeper : node ≠ memory.root := mt top.mp (List.cons_ne_nil _ _)
      rw [replaceChild, if_neg deeper]
      simp only [deref_of_ne _ real, above frame rfl, Option.bind_eq_bind, Option.bind_some,
        relink_eq around proper inner apart side temp]
      rfl

def rotated (memory : Memory) (side : Side) (context : List (Frame Nat)) (x y : Nat) (inner : RbTree Nat) : Memory :=
  ((attached ((adopted (memory.withLink side.other x (address memory.sentinel inner)) inner x).withParent y
    (memory.parent x)) context y).withLink side y x).withParent x y

section Rotation

variable {side : Side} {c d : Color} {x y : Nat} {a b e : RbTree Nat}

structure Distinct (context : List (Frame Nat)) (x y : Nat) (a b e : RbTree Nat) : Prop where
  nodupA : a.toList.Nodup
  nodupB : b.toList.Nodup
  nodupE : e.toList.Nodup
  nodupOutside : (outside context).Nodup
  xy : x ≠ y
  xA : x ∉ a.toList
  xB : x ∉ b.toList
  xE : x ∉ e.toList
  yA : y ∉ a.toList
  yB : y ∉ b.toList
  yE : y ∉ e.toList
  aB : ∀ z ∈ a.toList, z ∉ b.toList
  bE : ∀ z ∈ b.toList, z ∉ e.toList
  xOutside : x ∉ outside context
  yOutside : y ∉ outside context
  aOutside : ∀ z ∈ a.toList, z ∉ outside context
  bOutside : ∀ z ∈ b.toList, z ∉ outside context
  eOutside : ∀ z ∈ e.toList, z ∉ outside context

theorem nodup_outside_of_plug {tree : RbTree Nat} (distinct : (plug context tree).toList.Nodup) :
    (outside context).Nodup := by
  rw [toList_plug, List.append_assoc] at distinct
  refine List.Nodup.sublist ?_ distinct
  exact (List.Sublist.refl _).append (List.sublist_append_right _ _)

theorem Stored.distinct_parts (held : Stored memory context (branch side c x a (branch side d y b e))) :
    Distinct context x y a b e := by
  obtain ⟨nodup, apart⟩ := nodup_plug held.distinct
  obtain ⟨nodupA, rest, xA, xRest, aRest⟩ := nodup_branch nodup
  obtain ⟨nodupB, nodupE, yB, yE, bE⟩ := nodup_branch rest
  simp only [mem_branch, not_or] at xRest aRest apart
  exact
    { nodupA, nodupB, nodupE, xA, yB, yE, bE
      nodupOutside := nodup_outside_of_plug held.distinct
      xy := xRest.1
      xB := xRest.2.1
      xE := xRest.2.2
      yA := fun member => (aRest y member).1 rfl
      aB := fun z member => (aRest z member).2.1
      xOutside := apart x (.inl rfl)
      yOutside := apart y (.inr (.inr (.inl rfl)))
      aOutside := fun z member => apart z (.inr (.inl member))
      bOutside := fun z member => apart z (.inr (.inr (.inr (.inl member))))
      eOutside := fun z member => apart z (.inr (.inr (.inr (.inr member)))) }

theorem ne_of_notMem {z w : Nat} {l : List Nat} (member : z ∈ l) (absent : w ∉ l) : z ≠ w :=
  fun same => absent (same ▸ member)

theorem ne_of_notMem_right {z sentinel : Nat} {tree : RbTree Nat} (shape : tree ≠ .leaf) (absent : z ∉ tree.toList) :
    z ≠ address sentinel tree :=
  (ne_of_notMem (address_mem sentinel shape) absent).symm

theorem parent_adopted_of_notMem {z up : Nat} {tree : RbTree Nat} (absent : z ∉ tree.toList) :
    (adopted memory tree up).parent z = memory.parent z := by
  rw [parent_adopted, if_neg]
  rintro ⟨shape, rfl⟩
  exact absent (address_mem _ shape)

theorem rotate_eq (held : Stored memory context (branch side c x a (branch side d y b e))) :
    rotate side memory x = some (rotated memory side context x y b) := by
  have parts := held.distinct_parts
  have cell := held.cell
  have inner := holds_branch.mp cell.holdsFar
  obtain ⟨realX, innerX⟩ := held.root_real
  have realY : y ≠ 0 := (held.member (mem_branch.mpr (.inr (.inr (mem_branch.mpr (.inl rfl)))))).1
  have toY : memory.link side.other x = y := cell.toFar.trans (address_branch ..)
  have properB : ∀ z ∈ b.toList, z ≠ 0 ∧ z ≠ memory.sentinel := fun z member =>
    held.member (mem_branch.mpr (.inr (.inr (mem_branch.mpr (.inr (.inl member))))))
  have properOutside : ∀ z ∈ outside context, z ≠ 0 := fun z member => (held.proper z (mem_plug.mpr (.inr member))).1
  let unlinked := memory.withLink side.other x (address memory.sentinel b)
  have adoptB : adopt unlinked (address memory.sentinel b) x = some (adopted unlinked b x) :=
    adopt_eq (show ∀ z ∈ b.toList, z ≠ 0 ∧ z ≠ unlinked.sentinel from properB) x
  let raised := (adopted unlinked b x).withParent y (memory.parent x)
  have parentX : (adopted unlinked b x).parent x = memory.parent x := parent_adopted_of_notMem parts.xB
  have raisedParent (z : Nat) (notY : z ≠ y) (absent : z ∉ b.toList) : raised.parent z = memory.parent z := by
    simp only [raised, Memory.parent_withParent, if_neg notY]
    exact parent_adopted_of_notMem absent
  have aroundX : HoldsContext raised context x := by
    have around := held.around
    rw [address_branch] at around
    refine around.congr parts.nodupOutside ?_ ?_ ?_ ?_ ?_
    · simp [raised, unlinked]
    · simp [raised, unlinked]
    · intro s z member
      simp [raised, unlinked, ne_of_notMem member parts.xOutside]
    · intro z member
      simp [raised, unlinked]
    · intro z member
      exact raisedParent z (ne_of_notMem member parts.yOutside) fun inB => parts.bOutside z inB member
  have aboveX : Above raised context x := by
    intro frame outermost
    have above := held.above (branch_ne_leaf _ _ _ _ _) frame outermost
    rw [address_branch] at above
    rw [raisedParent x parts.xy parts.xB, above]
  have replaced := replaceChild_eq aroundX aboveX properOutside realX
    (show x ≠ raised.sentinel by simpa [raised, unlinked] using innerX) parts.xOutside side y
  simp only [rotate, deref_of_ne _ realX, deref_of_ne _ realY, toY, inner.toNear, Option.bind_eq_bind,
    Option.bind_some, setLink_of_ne _ _ _ realX, setLink_of_ne _ _ _ realY, setParent_of_ne _ _ realX,
    setParent_of_ne _ _ realY]
  change ((adopt unlinked (address memory.sentinel b) x).bind _) = _
  rw [adoptB]
  simp only [Option.bind_some, parentX]
  change ((replaceChild side raised x y).bind _) = _
  rw [replaced]
  rfl

theorem link_attached_of_notMem {z hole : Nat} (absent : z ∉ outside context) (s : Side) :
    (attached memory context hole).link s z = memory.link s z := by
  cases context with
  | nil => rfl
  | cons frame context =>
      have other : z ≠ frame.value := fun same => absent (mem_outside_cons.mpr (.inl same))
      simp [attached, other]

theorem toList_rotation (side : Side) (c d : Color) (x y : Nat) (a b e : RbTree Nat) :
    (branch side d y (branch side c x a b) e).toList = (branch side c x a (branch side d y b e)).toList := by
  cases side <;> simp [branch, toList]

theorem rotated_stored (held : Stored memory context (branch side c x a (branch side d y b e))) :
    Stored (rotated memory side context x y b) context (branch side d y (branch side c x a b) e) := by
  have parts := held.distinct_parts
  have cell := held.cell
  have inner := holds_branch.mp cell.holdsFar
  have order := plug_toList_congr context (toList_rotation side c d x y a b e)
  have sentinel : (rotated memory side context x y b).sentinel = memory.sentinel := by simp [rotated]
  have color (z : Nat) : (rotated memory side context x y b).color z = memory.color z := by simp [rotated]
  have parent (z : Nat) (notX : z ≠ x) (notY : z ≠ y) (notRoot : b ≠ .leaf → z ≠ address memory.sentinel b) :
      (rotated memory side context x y b).parent z = memory.parent z := by
    simp only [rotated, Memory.parent_withParent, Memory.parent_withLink, if_neg notX, parent_attached, if_neg notY,
      parent_adopted]
    apply if_neg
    rintro ⟨shape, same⟩
    exact notRoot shape same
  have parentApart (z : Nat) (notX : z ≠ x) (notY : z ≠ y) (absent : z ∉ b.toList) :
      (rotated memory side context x y b).parent z = memory.parent z :=
    parent z notX notY fun shape => ne_of_notMem_right shape absent
  have link (s : Side) (z : Nat) (notX : z ≠ x) (notY : z ≠ y) (out : z ∉ outside context) :
      (rotated memory side context x y b).link s z = memory.link s z := by
    simp only [rotated, Memory.link_withParent, Memory.link_withLink, notY, false_and, if_false,
      link_attached_of_notMem out, link_adopted, notX]
  have holdsA : Holds (rotated memory side context x y b) a := by
    refine cell.holdsNear.congr parts.nodupA sentinel ?_ (fun z _ => color z) ?_
    · intro s z member
      exact link s z (ne_of_notMem member parts.xA) (ne_of_notMem member parts.yA) (parts.aOutside z member)
    · intro z member _
      exact parentApart z (ne_of_notMem member parts.xA) (ne_of_notMem member parts.yA) (parts.aB z member)
  have holdsB : Holds (rotated memory side context x y b) b := by
    refine inner.holdsNear.congr parts.nodupB sentinel ?_ (fun z _ => color z) ?_
    · intro s z member
      exact link s z (ne_of_notMem member parts.xB) (ne_of_notMem member parts.yB) (parts.bOutside z member)
    · intro z member notRoot
      exact parent z (ne_of_notMem member parts.xB) (ne_of_notMem member parts.yB) fun _ => notRoot
  have holdsE : Holds (rotated memory side context x y b) e := by
    refine inner.holdsFar.congr parts.nodupE sentinel ?_ (fun z _ => color z) ?_
    · intro s z member
      exact link s z (ne_of_notMem member parts.xE) (ne_of_notMem member parts.yE) (parts.eOutside z member)
    · intro z member _
      exact parentApart z (ne_of_notMem member parts.xE) (ne_of_notMem member parts.yE)
        fun inB => parts.bE z inB member
  have lower : Cell (rotated memory side context x y b) side c x a b :=
    { painted := (color x).trans cell.painted
      toNear := by
        rw [sentinel, ← cell.toNear]
        simp [rotated, parts.xy, link_attached_of_notMem parts.xOutside]
      toFar := by
        rw [sentinel]
        simp [rotated, parts.xy, link_attached_of_notMem parts.xOutside]
      hangsNear := cell.hangsNear.congr sentinel fun z member =>
        parentApart z (ne_of_notMem member parts.xA) (ne_of_notMem member parts.yA) (parts.aB z member)
      hangsFar := by
        intro shape
        have member := address_mem memory.sentinel shape
        rw [sentinel]
        simp only [rotated, Memory.parent_withParent, Memory.parent_withLink, parent_attached, parent_adopted,
          if_neg (ne_of_notMem member parts.xB), if_neg (ne_of_notMem member parts.yB)]
        exact if_pos ⟨shape, rfl⟩
      holdsNear := holdsA
      holdsFar := holdsB }
  have upper : Cell (rotated memory side context x y b) side d y (branch side c x a b) e :=
    { painted := (color y).trans inner.painted
      toNear := by
        rw [address_branch]
        simp [rotated]
      toFar := by
        rw [sentinel, ← inner.toFar]
        simp [rotated, parts.xy.symm, link_attached_of_notMem parts.yOutside]
      hangsNear := by
        intro _
        rw [address_branch]
        simp [rotated]
      hangsFar := inner.hangsFar.congr sentinel fun z member =>
        parentApart z (ne_of_notMem member parts.xE) (ne_of_notMem member parts.yE)
          fun inB => parts.bE z inB member
      holdsNear := holds_branch.mpr lower
      holdsFar := holdsE }
  refine ⟨?_, ?_, holds_branch.mpr upper, ?_, ?_, ?_, ?_⟩
  · rw [address_branch]
    refine held.around.relink parts.nodupOutside sentinel ?_ ?_ (fun z _ => color z) ?_
    · cases context <;> simp [rotated, attached]
    · intro s z member
      have notX := ne_of_notMem member parts.xOutside
      have notY := ne_of_notMem member parts.yOutside
      cases context <;> simp [rotated, attached, notX, notY]
    · intro z member
      exact parentApart z (ne_of_notMem member parts.xOutside) (ne_of_notMem member parts.yOutside)
        fun inB => parts.bOutside z inB member
  · intro _ frame outermost
    have above := held.above (branch_ne_leaf _ _ _ _ _) frame outermost
    rw [address_branch] at above ⊢
    simp [rotated, parts.xy.symm, above]
  · rw [order]
    exact held.distinct
  · rw [order, sentinel]
    exact held.proper
  · rw [sentinel]
    exact held.real
  · rw [sentinel, color]
    exact held.black

end Rotation

structure Spares (memory memory' : Memory) (own : List Nat) : Prop where
  sentinel : memory'.sentinel = memory.sentinel
  key : memory'.key = memory.key
  link : ∀ side, ∀ z, z ∉ own → memory'.link side z = memory.link side z
  parent : ∀ z, z ∉ own → memory'.parent z = memory.parent z
  color : ∀ z, z ∉ own → memory'.color z = memory.color z

theorem Spares.refl (memory : Memory) (own : List Nat) : Spares memory memory own :=
  ⟨rfl, rfl, fun _ _ _ => rfl, fun _ _ => rfl, fun _ _ => rfl⟩

theorem Spares.trans {first second third : Memory} {own : List Nat} (left : Spares first second own)
    (right : Spares second third own) : Spares first third own where
  sentinel := right.sentinel.trans left.sentinel
  key := right.key.trans left.key
  link side z out := (right.link side z out).trans (left.link side z out)
  parent z out := (right.parent z out).trans (left.parent z out)
  color z out := (right.color z out).trans (left.color z out)

theorem Spares.mono {memory memory' : Memory} {own more : List Nat} (spares : Spares memory memory' own)
    (sub : ∀ z ∈ own, z ∈ more) : Spares memory memory' more where
  sentinel := spares.sentinel
  key := spares.key
  link side z out := spares.link side z fun inside => out (sub z inside)
  parent z out := spares.parent z fun inside => out (sub z inside)
  color z out := spares.color z fun inside => out (sub z inside)

theorem Spares.withColor (memory : Memory) {own : List Nat} {z : Nat} (inside : z ∈ own) (c : Color) :
    Spares memory (memory.withColor z c) own := by
  refine ⟨rfl, rfl, fun _ _ _ => rfl, fun _ _ => rfl, ?_⟩
  intro w out
  rw [Memory.color_withColor, if_neg (ne_of_notMem inside out).symm]

theorem Spares.withParent (memory : Memory) {own : List Nat} {z : Nat} (inside : z ∈ own) (up : Nat) :
    Spares memory (memory.withParent z up) own := by
  refine ⟨rfl, rfl, fun _ _ _ => rfl, ?_, fun _ _ => rfl⟩
  intro w out
  rw [Memory.parent_withParent, if_neg (ne_of_notMem inside out).symm]

theorem Spares.withLink (memory : Memory) {own : List Nat} {z : Nat} (inside : z ∈ own) (side : Side) (value : Nat) :
    Spares memory (memory.withLink side z value) own := by
  refine ⟨rfl, rfl, ?_, fun _ _ => rfl, fun _ _ => rfl⟩
  intro s w out
  rw [Memory.link_withLink, if_neg]
  rintro ⟨same, -⟩
  exact ne_of_notMem inside out same.symm

theorem Spares.adopted (memory : Memory) {own : List Nat} {tree : RbTree Nat} (inside : ∀ z ∈ tree.toList, z ∈ own)
    (up : Nat) : Spares memory (adopted memory tree up) own := by
  cases tree with
  | leaf => exact .refl memory own
  | node color left x right => exact .withParent memory (inside x (by simp [toList])) up

theorem Spares.attached (memory : Memory) {own : List Nat} (inside : ∀ z ∈ outside context, z ∈ own) (hole : Nat) :
    Spares memory (attached memory context hole) own := by
  cases context with
  | nil => exact ⟨rfl, rfl, fun _ _ _ => rfl, fun _ _ => rfl, fun _ _ => rfl⟩
  | cons frame context => exact .withLink memory (inside _ (mem_outside_cons.mpr (.inl rfl))) _ _

theorem stored_focus {tree : RbTree Nat} : Stored memory context tree ↔ Stored memory [] (plug context tree) := by
  rw [← stored_append, List.append_nil]

structure Becomes (memory memory' : Memory) (tree tree' : RbTree Nat) : Prop where
  stored : Stored memory' [] tree'
  order : tree'.toList = tree.toList
  spares : Spares memory memory' tree.toList

theorem Becomes.trans {first second third : Memory} {tree tree' tree'' : RbTree Nat}
    (left : Becomes first second tree tree') (right : Becomes second third tree' tree'') :
    Becomes first third tree tree'' where
  stored := right.stored
  order := right.order.trans left.order
  spares := left.spares.trans (left.order ▸ right.spares)

theorem Becomes.at {memory' : Memory} {tree tree' : RbTree Nat}
    (becomes : Becomes memory memory' tree (plug context tree')) : Stored memory' context tree' :=
  stored_focus.mpr becomes.stored

theorem rotate_becomes {side : Side} {c d : Color} {x y : Nat} {a b e : RbTree Nat}
    (held : Stored memory context (branch side c x a (branch side d y b e))) :
    ∃ memory', rotate side memory x = some memory' ∧
      Becomes memory memory' (plug context (branch side c x a (branch side d y b e)))
        (plug context (branch side d y (branch side c x a b) e)) := by
  refine ⟨_, rotate_eq held, stored_focus.mp (rotated_stored held),
    plug_toList_congr context (toList_rotation side c d x y a b e), ?_⟩
  have inX : x ∈ (plug context (branch side c x a (branch side d y b e))).toList :=
    mem_plug.mpr (.inl (mem_branch.mpr (.inl rfl)))
  have inRest (z : Nat) (member : z ∈ (branch side d y b e).toList) :
      z ∈ (plug context (branch side c x a (branch side d y b e))).toList :=
    mem_plug.mpr (.inl (mem_branch.mpr (.inr (.inr member))))
  have inY := inRest y (mem_branch.mpr (.inl rfl))
  exact (Spares.withLink memory inX _ _).trans <|
    (Spares.adopted _ (fun z member => inRest z (mem_branch.mpr (.inr (.inl member)))) _).trans <|
    (Spares.withParent _ inY _).trans <| (Spares.attached _ (fun z member => mem_plug.mpr (.inr member)) _).trans <|
    (Spares.withLink _ inY _ _).trans (Spares.withParent _ inX _)

theorem rotate_other_becomes {side : Side} {c d : Color} {x y : Nat} {a b e : RbTree Nat}
    (held : Stored memory context (branch side c x (branch side d y e b) a)) :
    ∃ memory', rotate side.other memory x = some memory' ∧
      Becomes memory memory' (plug context (branch side c x (branch side d y e b) a))
        (plug context (branch side d y e (branch side c x b a))) := by
  rw [← branch_swap side c, ← branch_swap side d] at held
  obtain ⟨memory', turned, becomes⟩ := rotate_becomes held
  simp only [branch_swap] at becomes
  exact ⟨memory', turned, becomes⟩

theorem withColor_becomes {tree : RbTree Nat} (held : Stored memory context tree) (shape : tree ≠ .leaf) (c : Color) :
    setColor memory (address memory.sentinel tree) c =
        some (memory.withColor (address memory.sentinel tree) c) ∧
      Becomes memory (memory.withColor (address memory.sentinel tree) c) (plug context tree)
        (plug context (tree.paint c)) := by
  obtain ⟨nodup, apart⟩ := nodup_plug held.distinct
  have member := address_mem memory.sentinel shape
  have same := plug_toList_congr context (toList_paint tree c)
  refine ⟨setColor_of_ne _ _ held.address_ne, stored_focus.mp ⟨?_, ?_, ?_, ?_, ?_, held.real, ?_⟩, same,
    .withColor memory (mem_plug.mpr (.inl member)) c⟩
  · rw [address_paint]
    refine held.around.congr (nodup_outside_of_plug held.distinct) rfl rfl (fun _ _ _ => rfl) ?_ fun _ _ => rfl
    intro z out
    rw [Memory.color_withColor, if_neg]
    rintro rfl
    exact apart _ member out
  · intro _
    rw [address_paint]
    exact held.above shape
  · cases tree with
    | leaf => exact absurd rfl shape
    | node color left x right =>
        obtain ⟨nodupLeft, nodupRight, notLeft, notRight, -⟩ :=
          nodup_branch (show (branch .left color x left right).toList.Nodup from nodup)
        obtain ⟨-, toLeft, toRight, hangsLeft, hangsRight, onLeft, onRight⟩ := held.holds
        refine ⟨by simp [address], toLeft, toRight, hangsLeft, hangsRight, ?_, ?_⟩
        · refine onLeft.congr nodupLeft rfl (fun _ _ _ => rfl) ?_ fun _ _ _ => rfl
          intro z inside
          rw [Memory.color_withColor, address, if_neg (ne_of_notMem inside notLeft)]
        · refine onRight.congr nodupRight rfl (fun _ _ _ => rfl) ?_ fun _ _ _ => rfl
          intro z inside
          rw [Memory.color_withColor, address, if_neg (ne_of_notMem inside notRight)]
  · rw [same]
    exact held.distinct
  · rw [same]
    exact held.proper
  · rw [Memory.color_withColor, if_neg]
    · exact held.black
    · exact (held.member member).2.symm

theorem paint_becomes {tree : RbTree Nat} {z : Nat} (held : Stored memory context tree) (shape : tree ≠ .leaf)
    (place : address memory.sentinel tree = z) (c : Color) :
    ∃ memory', setColor memory z c = some memory' ∧
      Becomes memory memory' (plug context tree) (plug context (tree.paint c)) := by
  subst place
  exact ⟨_, withColor_becomes held shape c⟩

end CppInfra.Timer.Rbtree
