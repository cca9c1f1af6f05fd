import CppInfra.AtomicLock.SharedPtrRelease

set_option autoImplicit false

namespace CppInfra.AtomicLock.SharedPtrHeap

open Words Holders SharedPtr

variable {m₀ m : Heap} {a b h : Handle} {u : Nat}

structure Assigned (m₀ : Heap) (a b : Handle) (m : Heap) : Prop where
  exact : Exact m
  live : a ∈ m.live
  taken : m.cells a = m₀.cells b
  alive : ∀ u, m₀.holding b = some u → u ∈ m.objects ∧ m.count u = Holders.count m.holding m.live u

theorem Released.alive (released : Released m₀ a m) (exact : Exact m₀) (live : h ∈ m.live) (other : h ≠ a)
    (holds : m₀.holding h = some u) : u ∈ m.objects := by
  have before := released.live.subset live
  refine (released.objects u).mpr ⟨(exact.cell_of_holding before holds).1, ?_⟩
  rintro ⟨-, roots, fields⟩
  obtain ⟨o, owner⟩ := Option.ne_none_iff_exists'.mp (roots h before holds other)
  exact (released.stays h before).mp live o owner (fields h before holds other o owner)

theorem Released.linked (released : Released m₀ a m) (exact : Exact m₀) (live : h ∈ m.live) (other : h ≠ a) :
    m.cells h = ⟨none, none⟩ ∨ ∃ u ∈ m.objects, m.cells h = ⟨some u, some u⟩ := by
  rw [released.cells]
  rcases exact.linked h (released.live.subset live) with null | ⟨c, -, cell⟩
  · exact .inl null
  · exact .inr ⟨c, released.alive exact live other (by rw [Heap.holding, cell]), cell⟩

theorem holding_taken (m : Heap) (a : Handle) (cell : Cell) :
    Heap.holding { m with cells := Function.update m.cells a cell } = Function.update m.holding a cell.ptr :=
  Function.comp_update Cell.ptr m.cells a cell

theorem Released.count_taken (released : Released m₀ a m) (exact : Exact m₀) (live : a ∈ m.live) (b : Handle)
    (object : u ∈ m.objects) :
    Holders.count (Function.update m.holding a (m.holding b)) m.live u =
      m.count u + if m.holding b = some u then 1 else 0 := by
  have same : m₀.holding = m.holding := by
    funext h
    rw [Heap.holding, Heap.holding, released.cells]
  have before := released.count u object
  have moved := count_update m.holding (exact.once.sublist released.live) live (m.holding b) u
  rw [same] at before
  omega

theorem Released.exact_of {cells' : Handle → Cell} {count' : Nat → Nat} (released : Released m₀ a m) (exact : Exact m₀)
    (linked : ∀ h ∈ m.live, cells' h = ⟨none, none⟩ ∨ ∃ u ∈ m.objects, cells' h = ⟨some u, some u⟩)
    (counted : ∀ u ∈ m.objects, count' u = Holders.count (Heap.holding { m with cells := cells' }) m.live u) :
    Exact { m with cells := cells', count := count' } where
  once := exact.once.sublist released.live
  owners := by
    intro h live o owner
    have before := released.live.subset live
    exact (released.objects o).mpr ⟨exact.owners h before o owner, (released.stays h before).mp live o owner⟩
  linked := linked
  counted := fun u object => ⟨released.counters u object, counted u object⟩
  few := Nat.lt_of_le_of_lt released.live.length_le exact.few

theorem Released.linked_taken (released : Released m₀ a m) (exact : Exact m₀) (liveB : b ∈ m.live) (other : b ≠ a)
    (live : h ∈ m.live) : Function.update m.cells a (m.cells b) h = ⟨none, none⟩ ∨
      ∃ u ∈ m.objects, Function.update m.cells a (m.cells b) h = ⟨some u, some u⟩ := by
  by_cases same : h = a
  · rw [same, Function.update_self]
    exact released.linked exact liveB other
  · rw [Function.update_of_ne same]
    exact released.linked exact live same

theorem Released.copied (released : Released m₀ a m) (exact : Exact m₀) (liveA : a ∈ m.live) (liveB : b ∈ m.live)
    (other : b ≠ a) :
    ∃ m', addCount { m with cells := Function.update m.cells a (m.cells b) } (m.cells b).refCount = .ok m' ∧
      Exact m' ∧ a ∈ m'.live ∧ m'.cells a = m.cells b := by
  have linked : ∀ h ∈ m.live, _ := fun h live => released.linked_taken exact liveB other live
  rcases released.linked exact liveB other with null | ⟨c, object, cell⟩
  · refine ⟨_, by rw [null]; rfl, released.exact_of exact linked ?_, liveA, Function.update_self ..⟩
    intro u object
    have empty : m.holding b = none := by rw [Heap.holding, null]
    rw [holding_taken, ← Heap.holding, released.count_taken exact liveA b object, empty]
    simp
  · have holds : m.holding b = some c := by rw [Heap.holding, cell]
    have counter := released.counters c object
    refine ⟨_, by rw [cell]; exact if_pos counter, released.exact_of exact linked ?_, liveA, Function.update_self ..⟩
    intro u objectU
    have counted := released.count_taken exact liveA b objectU
    have few := count_le_length (Function.update m.holding a (m.holding b)) m.live u
    have short := Nat.lt_of_le_of_lt released.live.length_le exact.few
    rw [holding_taken, ← Heap.holding, counted, holds]
    by_cases same : u = c
    · subst same
      rw [holds, if_pos rfl] at counted
      rw [Function.update_self, if_pos rfl, add_exact]
      rw [← counted, ← holds]
      omega
    · rw [Function.update_of_ne same, if_neg fun equal => same (Option.some.inj equal).symm, Nat.add_zero]

theorem Released.moved (released : Released m₀ a m) (exact : Exact m₀) (liveA : a ∈ m.live) (liveB : b ∈ m.live)
    (other : b ≠ a) :
    Exact { m with cells := Function.update (Function.update m.cells a (m.cells b)) b ⟨none, none⟩ } := by
  refine released.exact_of exact ?_ ?_
  · intro h live
    by_cases same : h = b
    · rw [same, Function.update_self]
      exact .inl rfl
    · rw [Function.update_of_ne same]
      exact released.linked_taken exact liveB other live
  · intro u object
    have once := exact.once.sublist released.live
    have counted := released.count_taken exact liveA b object
    have given := count_update (Function.update m.holding a (m.holding b)) once liveB none u
    rw [holding_taken { m with cells := Function.update m.cells a (m.cells b) }, holding_taken, ← Heap.holding]
    rw [Function.update_of_ne other, if_neg (by simp : ¬ (none : Option Nat) = some u)] at given
    change m.count u = Holders.count (Function.update _ b none) m.live u
    omega

theorem assign_safe (exact : Exact m) (liveA : a ∈ m.live) (liveB : b ∈ m.live) (move : Bool) {fuel : Nat}
    (enough : m.objects.length < fuel) (safe : a = b ∨ Survives m a a ∧ Survives m a b) :
    ∃ m', assign move fuel m a b = .ok m' ∧ Exact m' ∧ a ∈ m'.live ∧ m'.cells a = m.cells b := by
  by_cases same : a = b
  · exact ⟨m, if_pos same, exact, liveA, by rw [same]⟩
  · obtain ⟨outsideA, outsideB⟩ := safe.resolve_left same
    obtain ⟨fuel, rfl⟩ : ∃ less, fuel = less + 1 := ⟨fuel - 1, by omega⟩
    obtain ⟨m₁, ran, released⟩ := (exact.release_spec liveA (Nat.le_of_lt_succ enough)).1 outsideA
    have keptA := (released.stays a liveA).mpr outsideA
    have keptB := (released.stays b liveB).mpr outsideB
    have other : b ≠ a := fun equal => same equal.symm
    rw [assign, if_neg same, ran]
    simp only [Except.bind, if_pos (And.intro keptA keptB), ← released.cells]
    cases move with
    | true =>
        refine ⟨_, rfl, released.moved exact keptA keptB other, keptA, ?_⟩
        exact (Function.update_of_ne same ..).trans (Function.update_self ..)
    | false =>
        simp only [Function.update_self]
        exact released.copied exact keptA keptB other

theorem assign_dangling (exact : Exact m) (liveA : a ∈ m.live) (liveB : b ∈ m.live) (move : Bool) {fuel : Nat}
    (enough : m.objects.length < fuel) (inside : ¬ (a = b ∨ Survives m a a ∧ Survives m a b)) :
    assign move fuel m a b = .error .dangling := by
  have other : ¬ a = b := fun same => inside (.inl same)
  obtain ⟨fuel, rfl⟩ : ∃ less, fuel = less + 1 := ⟨fuel - 1, by omega⟩
  obtain ⟨runs, fails⟩ := exact.release_spec liveA (Nat.le_of_lt_succ enough)
  rw [assign, if_neg other]
  by_cases outside : Survives m a a
  · obtain ⟨m₁, ran, released⟩ := runs outside
    have freed : b ∉ m₁.live := fun live => inside (.inr ⟨outside, (released.stays b liveB).mp live⟩)
    rw [ran]
    exact if_neg fun live => freed live.2
  · rw [fails outside]
    rfl

theorem Assigned.of_exact (exact : Exact m) (live : a ∈ m.live) (taken : m.cells a = m₀.cells b) :
    Assigned m₀ a b m := by
  refine ⟨exact, live, taken, ?_⟩
  intro u holds
  rw [Heap.holding, ← taken] at holds
  have object := (exact.cell_of_holding live holds).1
  exact ⟨object, (exact.counted u object).2⟩

theorem assign_assigned_iff (exact : Exact m) (liveA : a ∈ m.live) (liveB : b ∈ m.live) (move : Bool) {fuel : Nat}
    (enough : m.objects.length < fuel) :
    ((∃ m', assign move fuel m a b = .ok m' ∧ Assigned m a b m') ↔ a = b ∨ Survives m a a ∧ Survives m a b) ∧
      (¬ (a = b ∨ Survives m a a ∧ Survives m a b) → assign move fuel m a b = .error .dangling) := by
  refine ⟨⟨?_, ?_⟩, assign_dangling exact liveA liveB move enough⟩
  · rintro ⟨m', ran, -⟩
    by_contra inside
    rw [assign_dangling exact liveA liveB move enough inside] at ran
    cases ran
  · intro safe
    obtain ⟨m', ran, exact', live, taken⟩ := assign_safe exact liveA liveB move enough safe
    exact ⟨m', ran, .of_exact exact' live taken⟩

-- `p = p->next`: the variables hold a node, its member `next` holds the last one.
def nextHeap (roots : List Handle) : Heap where
  cells
    | .root _ => ⟨some 0, some 0⟩
    | .field 0 _ => ⟨some 1, some 1⟩
    | .field _ _ => ⟨none, none⟩
  live := roots ++ [.field 0 0, .field 1 0]
  objects := [0, 1]
  counters := [0, 1]
  count := fun u => if u = 0 then roots.length else 1

theorem nextHeap_shared_exact : Exact (nextHeap [.root 0, .root 1]) where
  once := by decide
  owners := by simp [nextHeap, Handle.owner]
  linked := by simp [nextHeap]
  counted := by decide
  few := by decide

theorem nextHeap_sole_exact : Exact (nextHeap [.root 0]) where
  once := by decide
  owners := by simp [nextHeap, Handle.owner]
  linked := by simp [nextHeap]
  counted := by decide
  few := by decide

theorem assign_assigned_iff_shared :
    ∃ m', assign false 3 (nextHeap [.root 0, .root 1]) (.root 0) (.field 0 0) = .ok m' ∧
      Assigned (nextHeap [.root 0, .root 1]) (.root 0) (.field 0 0) m' := by
  refine (assign_assigned_iff nextHeap_shared_exact (by decide) (by decide) false (by decide)).1.mpr (.inr ⟨?_, ?_⟩)
  · rintro o ⟨⟩
  · rintro o ⟨⟩ ⟨-, roots, -⟩
    exact roots (.root 1) (by decide) rfl (by decide) rfl

theorem assign_assigned_iff_next :
    Exact (nextHeap [.root 0]) ∧ .root 0 ∈ (nextHeap [.root 0]).live ∧ .field 0 0 ∈ (nextHeap [.root 0]).live ∧
      (∀ move, assign move 3 (nextHeap [.root 0]) (.root 0) (.field 0 0) = .error .dangling) ∧
      ¬ ∃ m', assign false 3 (nextHeap [.root 0]) (.root 0) (.field 0 0) = .ok m' ∧
        Assigned (nextHeap [.root 0]) (.root 0) (.field 0 0) m' := by
  refine ⟨nextHeap_sole_exact, by decide, by decide, ?_, ?_⟩
  · rintro (_ | _) <;> rfl
  · rintro ⟨m', ran, -⟩
    cases ran

end CppInfra.AtomicLock.SharedPtrHeap
