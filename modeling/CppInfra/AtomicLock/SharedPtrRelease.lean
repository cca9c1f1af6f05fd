import CppInfra.AtomicLock.SharedPtrCascade

set_option autoImplicit false

namespace CppInfra.AtomicLock.SharedPtrHeap

open Words Holders SharedPtr

variable {m₀ m : Heap} {a h : Handle} {u₀ u : Nat} {gone : List Handle}

def Survives (m : Heap) (a h : Handle) : Prop := ∀ o, h.owner = some o → ¬ Dies m a o

structure Released (m₀ : Heap) (a : Handle) (m : Heap) : Prop where
  cells : m.cells = m₀.cells
  live : m.live.Sublist m₀.live
  stays : ∀ h ∈ m₀.live, h ∈ m.live ↔ Survives m₀ a h
  objects : ∀ u, u ∈ m.objects ↔ u ∈ m₀.objects ∧ ¬ Dies m₀ a u
  counters : ∀ u ∈ m.objects, u ∈ m.counters
  count : ∀ u ∈ m.objects,
    m.count u + (if m₀.holding a = some u then 1 else 0) = Holders.count m₀.holding m.live u

theorem Exact.cell_of_holding (exact : Exact m) (live : h ∈ m.live) (holds : m.holding h = some u) :
    u ∈ m.objects ∧ m.cells h = ⟨some u, some u⟩ := by
  rw [Heap.holding] at holds
  rcases exact.linked h live with null | ⟨c, object, cell⟩
  · rw [null] at holds
    cases holds
  · rw [cell] at holds
    obtain rfl := Option.some.inj holds
    exact ⟨object, cell⟩

theorem not_dies (shared : ∀ u, (∃ h ∈ m₀.live, m₀.holding h = some u) →
    ∃ h ∈ m₀.live, m₀.holding h = some u ∧ h ≠ a) (u : Nat) : ¬ Dies m₀ a u := by
  intro dies
  induction dies with
  | intro held roots fields ih =>
      obtain ⟨h, live, holds, other⟩ := shared _ held
      obtain ⟨o, owner⟩ := Option.ne_none_iff_exists'.mp (roots h live holds other)
      exact ih h live holds other o owner

theorem Exact.only_iff (exact : Exact m₀) (live : a ∈ m₀.live) (object : u₀ ∈ m₀.objects)
    (holds : m₀.holding a = some u₀) :
    (∀ h ∈ m₀.live, m₀.holding h = some u₀ → h = a) ↔ m₀.count u₀ = 1 := by
  have all : Holders.count m₀.holding [a] u₀ = Holders.count m₀.holding m₀.live u₀ ↔ _ :=
    count_gone_iff exact.once (List.nodup_singleton a) (by simpa using live) u₀
  rw [count_cons, if_pos holds, ← (exact.counted u₀ object).2] at all
  simp only [List.mem_singleton] at all
  rw [← all]
  constructor
  · intro equal
    exact equal.symm
  · intro equal
    exact equal.symm

theorem Released.of_shared {count' : Nat → Nat} (exact : Exact m₀)
    (shared : ∀ u, (∃ h ∈ m₀.live, m₀.holding h = some u) → ∃ h ∈ m₀.live, m₀.holding h = some u ∧ h ≠ a)
    (counted : ∀ u ∈ m₀.objects,
      count' u + (if m₀.holding a = some u then 1 else 0) = Holders.count m₀.holding m₀.live u) :
    Released m₀ a { m₀ with count := count' } where
  cells := rfl
  live := .refl _
  stays := fun _ live => ⟨fun _ o _ => not_dies shared o, fun _ => live⟩
  objects := fun u => ⟨fun object => ⟨object, not_dies shared u⟩, And.left⟩
  counters := fun u object => (exact.counted u object).1
  count := counted

theorem Exact.shared (exact : Exact m₀) (live : a ∈ m₀.live)
    (many : ∀ u ∈ m₀.objects, m₀.holding a = some u → m₀.count u ≠ 1) (u : Nat)
    (held : ∃ h ∈ m₀.live, m₀.holding h = some u) : ∃ h ∈ m₀.live, m₀.holding h = some u ∧ h ≠ a := by
  obtain ⟨h, there, holds⟩ := held
  by_contra none_
  have only : ∀ x ∈ m₀.live, m₀.holding x = some u → x = a := by
    intro x liveX holdsX
    by_contra other
    exact none_ ⟨x, liveX, holdsX, other⟩
  obtain rfl := only h there holds
  have object := (exact.cell_of_holding live holds).1
  exact many u object holds ((exact.only_iff live object holds).mp only)

theorem Exact.release_shared (exact : Exact m₀) (live : a ∈ m₀.live)
    (many : ∀ u ∈ m₀.objects, m₀.holding a = some u → m₀.count u ≠ 1) (fuel : Nat) :
    ∃ m, release (fuel + 1) m₀ a = .ok m ∧ Released m₀ a m := by
  have shared := exact.shared live many
  rw [release, if_pos live]
  rcases exact.linked a live with null | ⟨c, object, cell⟩
  · have nothing : m₀.holding a = none := by rw [Heap.holding, null]
    rw [null]
    refine ⟨m₀, rfl, .of_shared exact shared ?_⟩
    intro u object
    rw [nothing]
    simpa using (exact.counted u object).2
  · have holds : m₀.holding a = some c := by rw [Heap.holding, cell]
    obtain ⟨counter, counted⟩ := exact.counted c object
    have left : 0 < Holders.count m₀.holding m₀.live c := count_pos_iff.mpr ⟨a, live, holds⟩
    have bound := count_le_length m₀.holding m₀.live c
    have few := exact.few
    rw [cell]
    simp only [counter, if_true, if_neg (many c object holds)]
    refine ⟨_, rfl, .of_shared exact shared ?_⟩
    intro u objectU
    rw [holds]
    by_cases same : u = c
    · subst same
      rw [Function.update_self, sub_exact (by omega) (by omega), if_pos rfl]
      omega
    · rw [Function.update_of_ne same, if_neg fun equal => same (Option.some.inj equal).symm]
      exact (exact.counted u objectU).2

theorem Sole.begin (sole : Sole m₀ a u₀) {count' : Nat → Nat} (zero : count' u₀ = 0)
    (others : ∀ u, u ≠ u₀ → count' u = m₀.count u) :
    Cascade m₀ a u₀ [] [u₀] { m₀ with count := count' } := by
  have only : ∀ u, Ended m₀ u₀ [] u → u = u₀ := by
    rintro u (first | ⟨⟨h, live, holds⟩, all⟩)
    · exact first
    · exact absurd (all h live holds) List.not_mem_nil
  exact
    { cells := rfl
      live := .refl _
      owned := fun h live => ⟨fun _ o owner => sole.exact.owners h live o owner, fun _ => live⟩
      objects := fun u => ⟨fun object => ⟨object, fun ended => List.mem_singleton.mpr (only u ended)⟩, And.left⟩
      counters := fun u object => (sole.exact.counted u object).1
      count := by
        intro u object other
        have none_ : Holders.count m₀.holding [] u = 0 := rfl
        rw [none_, Nat.add_zero, ← (sole.exact.counted u object).2]
        exact others u other
      first := fun _ => zero
      once := List.nodup_nil
      members := by simp
      busyOnce := List.nodup_singleton u₀
      begun := by
        intro u member
        rw [List.mem_singleton.mp member]
        exact ⟨sole.object, .inl rfl⟩
      done := fun u ended outside => absurd (List.mem_singleton.mpr (only u ended)) outside
      dies := by
        intro u ended
        rw [only u ended]
        exact sole.dies }

theorem Cascade.dies_iff (cascade : Cascade m₀ a u₀ gone [] m) (sole : Sole m₀ a u₀) (u : Nat) :
    Dies m₀ a u ↔ Ended m₀ u₀ gone u := by
  refine ⟨?_, cascade.dies u⟩
  intro dies
  induction dies with
  | @intro u held roots fields ih =>
      by_cases first : u = u₀
      · exact .inl first
      · refine .inr ⟨held, ?_⟩
        intro h live holds
        have other : h ≠ a := by
          rintro rfl
          refine first (Option.some.inj (holds.symm.trans ?_))
          rw [Heap.holding, sole.cell]
        obtain ⟨o, owner⟩ := Option.ne_none_iff_exists'.mp (roots h live holds other)
        exact cascade.done o (ih h live holds other o owner) List.not_mem_nil h live owner

theorem Cascade.live_iff (cascade : Cascade m₀ a u₀ gone [] m) (sole : Sole m₀ a u₀) (live : h ∈ m₀.live) :
    h ∈ m.live ↔ h ∉ gone := by
  rw [cascade.owned h live]
  constructor
  · intro kept member
    obtain ⟨-, o, owner, ended⟩ := cascade.members h member
    exact absurd (((cascade.objects o).mp (kept o owner)).2 ended) List.not_mem_nil
  · intro new o owner
    refine (cascade.objects o).mpr ⟨sole.exact.owners h live o owner, ?_⟩
    intro ended
    exact absurd (cascade.done o ended List.not_mem_nil h live owner) new

theorem Cascade.released (cascade : Cascade m₀ a u₀ gone [] m) (sole : Sole m₀ a u₀) : Released m₀ a m where
  cells := cascade.cells
  live := cascade.live
  stays := by
    intro h live
    rw [cascade.owned h live]
    refine forall_congr' fun o => forall_congr' fun owner => ?_
    rw [cascade.objects o, cascade.dies_iff sole o]
    exact ⟨fun there ended => absurd (there.2 ended) List.not_mem_nil,
      fun stays => ⟨sole.exact.owners h live o owner, fun ended => absurd ended stays⟩⟩
  objects := by
    intro u
    rw [cascade.objects u, cascade.dies_iff sole u]
    simp
  counters := cascade.counters
  count := by
    intro u object
    obtain ⟨known, stays⟩ := (cascade.objects u).mp object
    have other : u ≠ u₀ := by
      rintro rfl
      exact absurd (stays (.inl rfl)) List.not_mem_nil
    have apart : m₀.holding a ≠ some u := by
      rw [Heap.holding, sole.cell]
      exact fun equal => other (Option.some.inj equal).symm
    have left : m.live.Perm (m₀.live.filter (· ∉ gone)) := by
      refine (List.perm_ext_iff_of_nodup (sole.exact.once.sublist cascade.live) (sole.exact.once.filter _)).mpr ?_
      intro h
      rw [List.mem_filter, decide_eq_true_eq]
      constructor
      · intro live
        have before := cascade.live.subset live
        exact ⟨before, (cascade.live_iff sole before).mp live⟩
      · rintro ⟨before, new⟩
        exact (cascade.live_iff sole before).mpr new
    have counted := cascade.count u known other
    have split : Holders.count m₀.holding m₀.live u = _ :=
      count_split sole.exact.once cascade.once (fun h member => (cascade.members h member).1) u
    rw [if_neg apart, count_perm left]
    omega

theorem Sole.release_spec (sole : Sole m₀ a u₀) {fuel : Nat} (enough : m₀.objects.length ≤ fuel) :
    (Survives m₀ a a → ∃ m, release (fuel + 1) m₀ a = .ok m ∧ Released m₀ a m) ∧
      (¬ Survives m₀ a a → release (fuel + 1) m₀ a = .error .dangling) := by
  have holds : m₀.holding a = some u₀ := by rw [Heap.holding, sole.cell]
  have one := (sole.exact.only_iff sole.live sole.object holds).mp sole.only
  have counter := (sole.exact.counted u₀ sole.object).1
  have begin : Cascade m₀ a u₀ [] [u₀]
      { m₀ with count := Function.update m₀.count u₀ (sub 64 (m₀.count u₀) 1) } := by
    refine sole.begin ?_ ?_
    · rw [one]
      exact Function.update_self ..
    · exact fun u other => Function.update_of_ne other ..
  obtain ⟨gone, m, deleted, cascade, counter', removed, -, -⟩ :=
    deletePtr_spec sole begin (fun _ _ _ => List.not_mem_nil) fun gone m h cascade live owner new =>
      release_field sole fuel cascade (List.mem_singleton_self u₀) live owner (List.mem_singleton_self u₀) new
        (by rw [List.length_singleton]; omega)
  have stays := (cascade.released sole).stays a sole.live
  rw [release, if_pos sole.live, sole.cell]
  simp only [counter, if_true, one]
  rw [one] at deleted
  rw [deleted]
  simp only [Except.bind]
  constructor
  · intro safe
    refine ⟨_, ?_, (cascade.deleteCount removed).released sole⟩
    rw [if_pos (stays.mpr safe), show m.cells a = _ from cascade.cells ▸ sole.cell, SharedPtrHeap.deleteCount,
      if_pos counter']
  · intro inside
    rw [if_neg fun live => inside (stays.mp live)]

theorem Exact.release_spec (exact : Exact m₀) (live : a ∈ m₀.live) {fuel : Nat} (enough : m₀.objects.length ≤ fuel) :
    (Survives m₀ a a → ∃ m, release (fuel + 1) m₀ a = .ok m ∧ Released m₀ a m) ∧
      (¬ Survives m₀ a a → release (fuel + 1) m₀ a = .error .dangling) := by
  by_cases alone : ∃ u ∈ m₀.objects, m₀.holding a = some u ∧ m₀.count u = 1
  · obtain ⟨u, object, holds, one⟩ := alone
    have cell := (exact.cell_of_holding live holds).2
    have sole : Sole m₀ a u := ⟨exact, live, cell, object, (exact.only_iff live object holds).mpr one⟩
    exact sole.release_spec enough
  · have many : ∀ u ∈ m₀.objects, m₀.holding a = some u → m₀.count u ≠ 1 :=
      fun u object holds one => alone ⟨u, object, holds, one⟩
    refine ⟨fun _ => exact.release_shared live many fuel, ?_⟩
    intro inside
    exact absurd (fun o _ => not_dies (exact.shared live many) o) inside

end CppInfra.AtomicLock.SharedPtrHeap
