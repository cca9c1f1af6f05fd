import CppInfra.AtomicLock.SharedPtrHeap
import Mathlib.Data.List.Perm.Subperm

set_option autoImplicit false

namespace CppInfra.AtomicLock.SharedPtrHeap

open Words Holders SharedPtr

variable {m₀ m : Heap} {a h : Handle} {u₀ u : Nat} {gone : List Handle} {busy : List Nat}

structure Sole (m₀ : Heap) (a : Handle) (u₀ : Nat) : Prop where
  exact : Exact m₀
  live : a ∈ m₀.live
  cell : m₀.cells a = ⟨some u₀, some u₀⟩
  object : u₀ ∈ m₀.objects
  only : ∀ h ∈ m₀.live, m₀.holding h = some u₀ → h = a

def Ended (m₀ : Heap) (u₀ : Nat) (gone : List Handle) (u : Nat) : Prop :=
  u = u₀ ∨ (∃ h ∈ m₀.live, m₀.holding h = some u) ∧ ∀ h ∈ m₀.live, m₀.holding h = some u → h ∈ gone

theorem Ended.mono {gone' : List Handle} (ended : Ended m₀ u₀ gone u) (more : ∀ h ∈ gone, h ∈ gone') :
    Ended m₀ u₀ gone' u := by
  rcases ended with first | ⟨held, all⟩
  · exact .inl first
  · exact .inr ⟨held, fun h live holds => more h (all h live holds)⟩

structure Cascade (m₀ : Heap) (a : Handle) (u₀ : Nat) (gone : List Handle) (busy : List Nat) (m : Heap) : Prop where
  cells : m.cells = m₀.cells
  live : m.live.Sublist m₀.live
  owned : ∀ h ∈ m₀.live, h ∈ m.live ↔ ∀ o, h.owner = some o → o ∈ m.objects
  objects : ∀ u, u ∈ m.objects ↔ u ∈ m₀.objects ∧ (Ended m₀ u₀ gone u → u ∈ busy)
  counters : ∀ u ∈ m.objects, u ∈ m.counters
  count : ∀ u ∈ m₀.objects, u ≠ u₀ → m.count u + Holders.count m₀.holding gone u = Holders.count m₀.holding m₀.live u
  first : a ∉ gone → m.count u₀ = 0
  once : gone.Nodup
  members : ∀ h ∈ gone, h ∈ m₀.live ∧ ∃ o, h.owner = some o ∧ Ended m₀ u₀ gone o
  busyOnce : busy.Nodup
  begun : ∀ u ∈ busy, u ∈ m₀.objects ∧ Ended m₀ u₀ gone u
  done : ∀ u, Ended m₀ u₀ gone u → u ∉ busy → ∀ h ∈ m₀.live, h.owner = some u → h ∈ gone
  dies : ∀ u, Ended m₀ u₀ gone u → Dies m₀ a u

theorem Sole.dies (sole : Sole m₀ a u₀) : Dies m₀ a u₀ := by
  refine .intro ⟨a, sole.live, by rw [Heap.holding, sole.cell]⟩ ?_ ?_
  · exact fun h live holds other => absurd (sole.only h live holds) other
  · exact fun h live holds other => absurd (sole.only h live holds) other

theorem Cascade.busy_object (cascade : Cascade m₀ a u₀ gone busy m) (there : u ∈ busy) : u ∈ m.objects :=
  (cascade.objects u).mpr ⟨(cascade.begun u there).1, fun _ => there⟩

theorem Cascade.field_live (cascade : Cascade m₀ a u₀ gone busy m) {o : Nat} (live : h ∈ m₀.live)
    (owner : h.owner = some o) (there : o ∈ m.objects) : h ∈ m.live := by
  refine (cascade.owned h live).mpr ?_
  intro o' same
  obtain rfl := Option.some.inj (owner.symm.trans same)
  exact there

theorem Cascade.join (cascade : Cascade m₀ a u₀ gone busy m) (sole : Sole m₀ a u₀) {o : Nat} {busy' : List Nat}
    {count' : Nat → Nat} (live : h ∈ m₀.live) (owner : h.owner = some o) (there : o ∈ busy) (new : h ∉ gone)
    (counted : ∀ u ∈ m₀.objects, u ≠ u₀ →
      count' u + Holders.count m₀.holding (h :: gone) u = Holders.count m₀.holding m₀.live u)
    (first : a ∉ h :: gone → count' u₀ = 0) (once : busy'.Nodup) (more : ∀ u ∈ busy, u ∈ busy')
    (ends : ∀ u ∈ busy', u ∉ busy → u ∈ m₀.objects ∧ Ended m₀ u₀ (h :: gone) u ∧ ¬ Ended m₀ u₀ gone u)
    (only : ∀ u, Ended m₀ u₀ (h :: gone) u → Ended m₀ u₀ gone u ∨ u ∈ busy') :
    Cascade m₀ a u₀ (h :: gone) busy' { m with count := count' } := by
  have grows : ∀ u, Ended m₀ u₀ gone u → Ended m₀ u₀ (h :: gone) u :=
    fun u ended => ended.mono fun x member => List.mem_cons_of_mem h member
  have ownersEnd : ∀ x ∈ h :: gone, x ∈ m₀.live ∧ ∃ o, x.owner = some o ∧ Ended m₀ u₀ gone o := by
    intro x member
    rcases List.mem_cons.mp member with rfl | older
    · exact ⟨live, o, owner, (cascade.begun o there).2⟩
    · exact cascade.members x older
  have stillBusy : ∀ u ∈ busy', Ended m₀ u₀ gone u → u ∈ busy := by
    intro u member ended
    by_contra outside
    exact (ends u member outside).2.2 ended
  exact
    { cells := cascade.cells
      live := cascade.live
      owned := cascade.owned
      objects := by
        intro u
        rw [cascade.objects u]
        refine and_congr_right fun _ => ⟨?_, ?_⟩
        · intro known ended
          rcases only u ended with before | now
          · exact more u (known before)
          · exact now
        · intro known ended
          exact stillBusy u (known (grows u ended)) ended
      counters := cascade.counters
      count := counted
      first := first
      once := List.nodup_cons.mpr ⟨new, cascade.once⟩
      members := by
        intro x member
        obtain ⟨there, o, owner, ended⟩ := ownersEnd x member
        exact ⟨there, o, owner, grows o ended⟩
      busyOnce := once
      begun := by
        intro u member
        by_cases old : u ∈ busy
        · exact ⟨(cascade.begun u old).1, grows u (cascade.begun u old).2⟩
        · exact ⟨(ends u member old).1, (ends u member old).2.1⟩
      done := by
        intro u ended outside x there owner
        rcases only u ended with before | now
        · exact List.mem_cons_of_mem h (cascade.done u before (fun old => outside (more u old)) x there owner)
        · exact absurd now outside
      dies := by
        intro u ended
        rcases ended with rfl | ⟨held, all⟩
        · exact sole.dies
        · refine .intro held ?_ ?_
          · intro x there holds _
            obtain ⟨-, o, owner, -⟩ := ownersEnd x (all x there holds)
            rw [owner]
            simp
          · intro x there holds _ o owner
            obtain ⟨-, o', owner', ended⟩ := ownersEnd x (all x there holds)
            obtain rfl := Option.some.inj (owner.symm.trans owner')
            exact cascade.dies o ended }

theorem Cascade.remove {c : Nat} (cascade : Cascade m₀ a u₀ gone (c :: busy) m)
    (released : ∀ h ∈ m₀.live, h.owner = some c → h ∈ gone) : Cascade m₀ a u₀ gone busy (m.remove c) := by
  obtain ⟨apart, once⟩ := List.nodup_cons.mp cascade.busyOnce
  have ended := (cascade.begun c (List.mem_cons_self ..)).2
  exact
    { cells := cascade.cells
      live := List.filter_sublist.trans cascade.live
      owned := by
        intro h live
        rw [Heap.remove, List.mem_filter, cascade.owned h live]
        simp only [List.mem_filter, decide_eq_true_eq]
        constructor
        · intro ⟨known, other⟩ o owner
          exact ⟨known o owner, fun same => other (same ▸ owner)⟩
        · intro known
          exact ⟨fun o owner => (known o owner).1, fun same => (known c same).2 rfl⟩
      objects := by
        intro u
        rw [Heap.remove, List.mem_filter, cascade.objects u, decide_eq_true_eq]
        constructor
        · intro ⟨⟨known, busyOf⟩, other⟩
          exact ⟨known, fun ended => (List.mem_cons.mp (busyOf ended)).resolve_left other⟩
        · intro ⟨known, busyOf⟩
          refine ⟨⟨known, fun ended => List.mem_cons_of_mem c (busyOf ended)⟩, ?_⟩
          rintro rfl
          exact apart (busyOf ended)
      counters := fun u member => cascade.counters u (List.mem_filter.mp member).1
      count := cascade.count
      first := cascade.first
      once := cascade.once
      members := cascade.members
      busyOnce := once
      begun := fun u member => cascade.begun u (List.mem_cons_of_mem c member)
      done := by
        intro u endedU outside h live owner
        by_cases same : u = c
        · exact released h live (same ▸ owner)
        · exact cascade.done u endedU (fun member => (List.mem_cons.mp member).elim same outside) h live owner
      dies := cascade.dies }

theorem Cascade.deleteCount {c : Nat} (cascade : Cascade m₀ a u₀ gone busy m) (removed : c ∉ m.objects) :
    Cascade m₀ a u₀ gone busy { m with counters := m.counters.filter (· ≠ c) } :=
  { cascade with
    counters := by
      intro u member
      refine List.mem_filter.mpr ⟨cascade.counters u member, ?_⟩
      have other : u ≠ c := fun same => removed (same ▸ member)
      simpa using other }

theorem Ended.of_cons (ended : Ended m₀ u₀ (h :: gone) u) (other : m₀.holding h ≠ some u) : Ended m₀ u₀ gone u := by
  rcases ended with first | ⟨held, all⟩
  · exact .inl first
  · refine .inr ⟨held, ?_⟩
    intro x live holds
    rcases List.mem_cons.mp (all x live holds) with rfl | older
    · exact absurd holds other
    · exact older

structure Progress (gone hs : List Handle) (busy : List Nat) (gone' : List Handle) : Prop where
  more : ∀ x ∈ gone, x ∈ gone'
  released : ∀ x ∈ hs, x ∈ gone'
  only : ∀ x ∈ gone', x ∈ gone ∨ x ∈ hs ∨ ∃ o, x.owner = some o ∧ o ∉ busy

theorem Progress.single (gone : List Handle) (h : Handle) (busy : List Nat) : Progress gone [h] busy (h :: gone) where
  more := fun x member => List.mem_cons_of_mem h member
  released := fun x member => by
    rw [List.mem_singleton.mp member]
    exact List.mem_cons_self ..
  only := fun x member => by
    rcases List.mem_cons.mp member with rfl | older
    · exact .inr (.inl (List.mem_singleton_self x))
    · exact .inl older

theorem destroyFields_spec {release : Heap → Handle → Except Fault Heap} {c : Nat} (there : c ∈ busy)
    (each : ∀ gone m h, Cascade m₀ a u₀ gone busy m → h ∈ m₀.live → h.owner = some c → h ∉ gone →
      ∃ gone' m', release m h = .ok m' ∧ Cascade m₀ a u₀ gone' busy m' ∧ Progress gone [h] busy gone')
    (hs : List Handle) (once : hs.Nodup) (cascade : Cascade m₀ a u₀ gone busy m)
    (fields : ∀ h ∈ hs, h ∈ m₀.live ∧ h.owner = some c ∧ h ∉ gone) :
    ∃ gone' m', destroyFields release m hs = .ok m' ∧ Cascade m₀ a u₀ gone' busy m' ∧ Progress gone hs busy gone' := by
  induction hs generalizing gone m with
  | nil => exact ⟨gone, m, rfl, cascade, fun x member => member, by simp, fun x member => .inl member⟩
  | cons h rest ih =>
      obtain ⟨apart, onceRest⟩ := List.nodup_cons.mp once
      obtain ⟨live, owner, new⟩ := fields h (List.mem_cons_self ..)
      obtain ⟨gone₁, m₁, released, cascade₁, progress₁⟩ := each gone m h cascade live owner new
      have fields₁ : ∀ x ∈ rest, x ∈ m₀.live ∧ x.owner = some c ∧ x ∉ gone₁ := by
        intro x member
        obtain ⟨live, owner, new⟩ := fields x (List.mem_cons_of_mem h member)
        refine ⟨live, owner, ?_⟩
        intro already
        rcases progress₁.only x already with old | same | ⟨o, owner', outside⟩
        · exact new old
        · exact apart (List.mem_singleton.mp same ▸ member)
        · obtain rfl := Option.some.inj (owner.symm.trans owner')
          exact outside there
      obtain ⟨gone₂, m₂, ran, cascade₂, progress₂⟩ := ih onceRest cascade₁ fields₁
      refine ⟨gone₂, m₂, ?_, cascade₂, ?_, ?_, ?_⟩
      · rw [destroyFields, released]
        exact ran
      · exact fun x member => progress₂.more x (progress₁.more x member)
      · intro x member
        rcases List.mem_cons.mp member with rfl | later
        · exact progress₂.more x (progress₁.released x (List.mem_singleton_self x))
        · exact progress₂.released x later
      · intro x member
        rcases progress₂.only x member with old | later | outside
        · rcases progress₁.only x old with old | same | outside
          · exact .inl old
          · rw [List.mem_singleton.mp same]
            exact .inr (.inl (List.mem_cons_self ..))
          · exact .inr (.inr outside)
        · exact .inr (.inl (List.mem_cons_of_mem h later))
        · exact .inr (.inr outside)

theorem Cascade.target (cascade : Cascade m₀ a u₀ gone busy m) (sole : Sole m₀ a u₀) {c : Nat} (live : h ∈ m₀.live)
    (new : h ∉ gone) (object : c ∈ m₀.objects) (holds : m₀.holding h = some c) (other : c ≠ u₀) :
    ¬ Ended m₀ u₀ gone c ∧ c ∈ m.objects ∧ 1 ≤ m.count c ∧ m.count c < 2 ^ 64 ∧
      (Ended m₀ u₀ (h :: gone) c ↔ m.count c = 1) := by
  have stays : ¬ Ended m₀ u₀ gone c := by
    rintro (same | ⟨-, all⟩)
    · exact other same
    · exact new (all h live holds)
  have onceMore : (h :: gone).Nodup := List.nodup_cons.mpr ⟨new, cascade.once⟩
  have among : ∀ x ∈ h :: gone, x ∈ m₀.live := by
    intro x member
    rcases List.mem_cons.mp member with rfl | older
    · exact live
    · exact (cascade.members x older).1
  have counted := cascade.count c object other
  have split : Holders.count m₀.holding m₀.live c = _ := count_split sole.exact.once onceMore among c
  have all : Holders.count m₀.holding (h :: gone) c = Holders.count m₀.holding m₀.live c ↔ _ :=
    count_gone_iff sole.exact.once onceMore among c
  have few := count_le_length m₀.holding m₀.live c
  have bound := sole.exact.few
  rw [count_cons, if_pos holds] at split all
  refine ⟨stays, (cascade.objects c).mpr ⟨object, fun ended => absurd ended stays⟩, by omega, by omega, ?_⟩
  constructor
  · rintro (same | ⟨-, every⟩)
    · exact absurd same other
    · have equal := all.mpr every
      omega
  · intro last
    exact .inr ⟨⟨h, live, holds⟩, all.mp (by omega)⟩

theorem Cascade.counted (cascade : Cascade m₀ a u₀ gone busy m) {c : Nat} (holds : m₀.holding h = some c)
    (left : 1 ≤ m.count c) (bound : m.count c < 2 ^ 64) :
    ∀ u ∈ m₀.objects, u ≠ u₀ → Function.update m.count c (sub 64 (m.count c) 1) u +
      Holders.count m₀.holding (h :: gone) u = Holders.count m₀.holding m₀.live u := by
  intro u object other
  have before := cascade.count u object other
  rw [count_cons, holds]
  by_cases same : u = c
  · subst same
    rw [Function.update_self, sub_exact left bound, if_pos rfl]
    omega
  · rw [Function.update_of_ne same, if_neg fun equal => same (Option.some.inj equal).symm]
    omega

theorem Cascade.begin_delete (cascade : Cascade m₀ a u₀ gone busy m) (sole : Sole m₀ a u₀) {o c : Nat}
    (live : h ∈ m₀.live) (owner : h.owner = some o) (there : o ∈ busy) (new : h ∉ gone) (object : c ∈ m₀.objects)
    (holds : m₀.holding h = some c) (other : c ≠ u₀) (last : m.count c = 1) :
    Cascade m₀ a u₀ (h :: gone) (c :: busy)
      { m with count := Function.update m.count c (sub 64 (m.count c) 1) } := by
  obtain ⟨stays, -, left, bound, ends⟩ := cascade.target sole live new object holds other
  refine cascade.join sole live owner there new (cascade.counted holds left bound) ?_ ?_
    (fun u member => List.mem_cons_of_mem c member) ?_ ?_
  · intro fresh
    rw [Function.update_of_ne other.symm]
    exact cascade.first fun member => fresh (List.mem_cons_of_mem h member)
  · exact List.nodup_cons.mpr ⟨fun member => stays (cascade.begun c member).2, cascade.busyOnce⟩
  · intro u member outside
    obtain rfl := (List.mem_cons.mp member).resolve_right outside
    exact ⟨object, ends.mpr last, stays⟩
  · intro u ended
    by_cases same : u = c
    · exact .inr (same ▸ List.mem_cons_self ..)
    · exact .inl (ended.of_cons (by rw [holds]; exact fun equal => same (Option.some.inj equal).symm))

theorem Cascade.stay (cascade : Cascade m₀ a u₀ gone busy m) (sole : Sole m₀ a u₀) {o : Nat} {count' : Nat → Nat}
    (live : h ∈ m₀.live) (owner : h.owner = some o) (there : o ∈ busy) (new : h ∉ gone)
    (counted : ∀ u ∈ m₀.objects, u ≠ u₀ →
      count' u + Holders.count m₀.holding (h :: gone) u = Holders.count m₀.holding m₀.live u)
    (first : a ∉ h :: gone → count' u₀ = 0)
    (only : ∀ u, Ended m₀ u₀ (h :: gone) u → Ended m₀ u₀ gone u) :
    Cascade m₀ a u₀ (h :: gone) busy { m with count := count' } :=
  cascade.join sole live owner there new counted first cascade.busyOnce (fun _ member => member)
    (fun _ member outside => absurd member outside) fun u ended => .inl (only u ended)

theorem Cascade.skip (cascade : Cascade m₀ a u₀ gone busy m) (sole : Sole m₀ a u₀) {o : Nat} (live : h ∈ m₀.live)
    (owner : h.owner = some o) (there : o ∈ busy) (new : h ∉ gone) (nothing : m₀.holding h = none) :
    Cascade m₀ a u₀ (h :: gone) busy m := by
  refine cascade.stay sole live owner there new ?_ ?_ ?_
  · intro u object other
    rw [count_cons, nothing]
    simpa using cascade.count u object other
  · exact fun fresh => cascade.first fun member => fresh (List.mem_cons_of_mem h member)
  · exact fun u ended => ended.of_cons (by rw [nothing]; simp)

theorem Cascade.again (cascade : Cascade m₀ a u₀ gone busy m) (sole : Sole m₀ a u₀) {o n : Nat}
    (owner : a.owner = some o) (there : o ∈ busy) (new : a ∉ gone) :
    Cascade m₀ a u₀ (a :: gone) busy { m with count := Function.update m.count u₀ n } := by
  have holds : m₀.holding a = some u₀ := by rw [Heap.holding, sole.cell]
  refine cascade.stay sole sole.live owner there new ?_ ?_ ?_
  · intro u object other
    rw [count_cons, Function.update_of_ne other, holds]
    rw [if_neg fun equal => other (Option.some.inj equal).symm]
    exact cascade.count u object other
  · exact fun fresh => absurd (List.mem_cons_self ..) fresh
  · intro u ended
    by_cases first : u = u₀
    · exact .inl first
    · exact ended.of_cons (by rw [holds]; exact fun equal => first (Option.some.inj equal).symm)

theorem Cascade.drop (cascade : Cascade m₀ a u₀ gone busy m) (sole : Sole m₀ a u₀) {o c : Nat} (live : h ∈ m₀.live)
    (owner : h.owner = some o) (there : o ∈ busy) (new : h ∉ gone) (object : c ∈ m₀.objects)
    (holds : m₀.holding h = some c) (other : c ≠ u₀) (more : m.count c ≠ 1) :
    Cascade m₀ a u₀ (h :: gone) busy { m with count := Function.update m.count c (sub 64 (m.count c) 1) } := by
  obtain ⟨-, -, left, bound, ends⟩ := cascade.target sole live new object holds other
  refine cascade.stay sole live owner there new (cascade.counted holds left bound) ?_ ?_
  · intro fresh
    rw [Function.update_of_ne (Ne.symm other)]
    exact cascade.first fun member => fresh (List.mem_cons_of_mem h member)
  · intro u ended
    refine ended.of_cons ?_
    intro equal
    obtain rfl := Option.some.inj (holds.symm.trans equal)
    exact more (ends.mp ended)

theorem deletePtr_spec {release : Heap → Handle → Except Fault Heap} {c : Nat} (sole : Sole m₀ a u₀)
    (cascade : Cascade m₀ a u₀ gone (c :: busy) m) (fresh : ∀ h ∈ m₀.live, h.owner = some c → h ∉ gone)
    (each : ∀ gone m h, Cascade m₀ a u₀ gone (c :: busy) m → h ∈ m₀.live → h.owner = some c → h ∉ gone →
      ∃ gone' m', release m h = .ok m' ∧ Cascade m₀ a u₀ gone' (c :: busy) m' ∧ Progress gone [h] (c :: busy) gone') :
    ∃ gone' m', deletePtr release m (some c) = .ok m' ∧ Cascade m₀ a u₀ gone' busy m' ∧ c ∈ m'.counters ∧
      c ∉ m'.objects ∧ (∀ x ∈ gone, x ∈ gone') ∧
      ∀ x ∈ gone', x ∈ gone ∨ ∃ o, x.owner = some o ∧ o ∉ busy := by
  have there : c ∈ c :: busy := List.mem_cons_self ..
  have object := cascade.busy_object there
  have fields : ∀ h ∈ (m.fields c).reverse, h ∈ m₀.live ∧ h.owner = some c ∧ h ∉ gone := by
    intro h member
    rw [List.mem_reverse, Heap.fields, List.mem_filter, decide_eq_true_eq] at member
    have live := cascade.live.subset member.1
    exact ⟨live, member.2, fresh h live member.2⟩
  have once : (m.fields c).reverse.Nodup :=
    List.nodup_reverse.mpr ((sole.exact.once.sublist cascade.live).filter _)
  obtain ⟨gone', m', ran, cascade', progress⟩ := destroyFields_spec there each _ once cascade fields
  have released : ∀ h ∈ m₀.live, h.owner = some c → h ∈ gone' := by
    intro h live owner
    refine progress.released h ?_
    rw [List.mem_reverse, Heap.fields, List.mem_filter, decide_eq_true_eq]
    exact ⟨cascade.field_live live owner object, owner⟩
  refine ⟨gone', m'.remove c, ?_, cascade'.remove released, ?_, ?_, progress.more, ?_⟩
  · rw [deletePtr, if_pos object, ran]
    rfl
  · exact cascade'.counters c (cascade'.busy_object there)
  · simp [Heap.remove]
  · intro x member
    rcases progress.only x member with old | field | ⟨o, owner, outside⟩
    · exact .inl old
    · obtain ⟨-, owner, -⟩ := fields x field
      exact .inr ⟨c, owner, (List.nodup_cons.mp cascade.busyOnce).1⟩
    · exact .inr ⟨o, owner, fun member => outside (List.mem_cons_of_mem c member)⟩

-- The destructor of a member of an object that is being deleted. The induction is on the fuel, of which each object
-- that is being deleted uses one.
theorem release_field (sole : Sole m₀ a u₀) (fuel : Nat) {o : Nat} (cascade : Cascade m₀ a u₀ gone busy m)
    (outer : u₀ ∈ busy) (live : h ∈ m₀.live) (owner : h.owner = some o) (there : o ∈ busy) (new : h ∉ gone)
    (enough : m₀.objects.length < fuel + busy.length) :
    ∃ gone' m', release fuel m h = .ok m' ∧ Cascade m₀ a u₀ gone' busy m' ∧ Progress gone [h] busy gone' := by
  induction fuel generalizing gone busy m h o with
  | zero =>
      have within := (cascade.busyOnce.subperm fun u member => (cascade.begun u member).1).length_le
      omega
  | succ fuel ih =>
      have here := cascade.field_live live owner (cascade.busy_object there)
      rw [release, if_pos here]
      rcases sole.exact.linked h live with null | ⟨c, object, cell⟩
      · rw [show m.cells h = _ from cascade.cells ▸ null]
        have nothing : m₀.holding h = none := by rw [Heap.holding, null]
        exact ⟨h :: gone, m, rfl, cascade.skip sole live owner there new nothing, Progress.single gone h busy⟩
      · have holds : m₀.holding h = some c := by rw [Heap.holding, cell]
        rw [show m.cells h = _ from cascade.cells ▸ cell]
        by_cases same : c = u₀
        · -- this is `a` itself, whose counter is at zero
          subst same
          obtain rfl := sole.only h live holds
          have zero := cascade.first new
          have counter := cascade.counters c (cascade.busy_object outer)
          simp only [counter, if_true, zero]
          exact ⟨h :: gone, _, rfl, cascade.again sole owner there new, Progress.single gone h busy⟩
        · obtain ⟨stays, alive, -⟩ := cascade.target sole live new object holds same
          have counter := cascade.counters c alive
          simp only [counter, if_true]
          by_cases last : m.count c = 1
          · rw [if_pos last]
            have begin := cascade.begin_delete sole live owner there new object holds same last
            have fresh : ∀ x ∈ m₀.live, x.owner = some c → x ∉ h :: gone := by
              intro x _ ownerX member
              rcases List.mem_cons.mp member with rfl | older
              · obtain rfl := Option.some.inj (owner.symm.trans ownerX)
                exact stays (cascade.begun o there).2
              · obtain ⟨-, o', owner', ended⟩ := cascade.members x older
                obtain rfl := Option.some.inj (ownerX.symm.trans owner')
                exact stays ended
            obtain ⟨gone', m', deleted, cascade', counter', removed, more, only⟩ :=
              deletePtr_spec sole begin fresh fun gone m x cascade liveX ownerX newX =>
                ih cascade (List.mem_cons_of_mem c outer) liveX ownerX (List.mem_cons_self ..) newX
                  (by rw [List.length_cons]; omega)
            have alive := cascade'.field_live live owner (cascade'.busy_object there)
            refine ⟨gone', _, ?_, cascade'.deleteCount removed, ?_, ?_, ?_⟩
            · rw [deleted]
              simp only [Except.bind, alive, if_true]
              rw [show m'.cells h = _ from cascade'.cells ▸ cell, SharedPtrHeap.deleteCount, if_pos counter']
            · exact fun x member => more x (List.mem_cons_of_mem h member)
            · intro x member
              rw [List.mem_singleton.mp member]
              exact more h (List.mem_cons_self ..)
            · intro x member
              rcases only x member with old | outside
              · rcases List.mem_cons.mp old with rfl | older
                · exact .inr (.inl (List.mem_singleton_self x))
                · exact .inl older
              · exact .inr (.inr outside)
          · rw [if_neg last]
            have dropped := cascade.drop sole live owner there new object holds same last
            exact ⟨h :: gone, _, rfl, dropped, Progress.single gone h busy⟩

end CppInfra.AtomicLock.SharedPtrHeap
