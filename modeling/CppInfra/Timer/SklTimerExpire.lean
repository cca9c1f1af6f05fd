import CppInfra.Timer.SklTimer

set_option autoImplicit false

namespace CppInfra.Timer.SklTimer

open SkipList LinkedChain Words Transition Dispatch

variable {H : Type} {s t : Zskiplist H} {order : List Nat}

inductive Change (H : Type) where
  | addTimer (msec currentTime : Nat) (func : H) (draws : List Nat)
  | delTimer (zn : Nat)

def change (zsl : Zskiplist H) : Change H → Option (Zskiplist H)
  | .addTimer msec currentTime func draws => (addTimer zsl msec currentTime func draws).map Prod.snd
  | .delTimer zn => delTimer zsl zn

-- The loop of `expire_timer`. What a handler does are the changes between `look`, which calls it, and
-- `finish`; `zslDeleteHead` is not told which node was handled.
def expireTimer : Operations (Zskiplist H) Nat (Change H) where
  top := zslMin
  key := Zskiplist.key
  remove zsl _ := zslDeleteHead zsl
  change := change
  pending := Zskiplist.members

def Pending (zsl : Zskiplist H) : Prop := ∃ order, Inv zsl order

-- There is room for a new node, a handler only adds, and what it adds is later than the timer it handles.
def allowed (zsl : Zskiplist H) (handled : List Nat) : Change H → Prop
  | .addTimer msec currentTime _ _ =>
      zsl.members.length + 1 < 2 ^ 31 ∧ ∀ x ∈ handled, zsl.key x < add 32 msec currentTime
  | .delTimer zn => handled = [] ∧ zn ∈ zsl.members

instance allowedDecidable (zsl : Zskiplist H) (handled : List Nat) (a : Change H) :
    Decidable (allowed zsl handled a) := by
  cases a <;> unfold allowed <;> infer_instance

theorem Inv.pending (inv : Inv s order) : expireTimer.pending s = order := inv.members

theorem Inv.top_iff (inv : Inv s order) {x : Nat} :
    zslMin s = some (some x) ↔ ∃ rest, order = x :: rest := by
  rw [inv.zslMin, Option.some.injEq, List.head?_eq_some_iff]

theorem Inv.addTimer_behind {x : Nat} {rest : List Nat} (inv : Inv s (x :: rest)) {score : Nat}
    (later : s.key x < score) (func : H) (draws : List Nat) (room : (x :: rest).length + 1 < 2 ^ 31) :
    ∃ t rest', zslInsert s score func draws = some (s.allocated, t) ∧ Inv t (x :: rest') := by
  obtain ⟨t, inserted, invT, -⟩ := inv.zslInsert score func draws room
  rw [List.filter_cons_of_pos (by simpa using later)] at invT
  exact ⟨t, _, inserted, invT⟩

theorem expireTimer_lawful :
    Lawful (expireTimer (H := H)) Pending (fun zsl x => x < zsl.allocated) allowed where
  distinct := by
    rintro q ⟨order, inv⟩
    rw [Inv.pending inv]
    exact (List.nodup_cons.mp inv.distinct).2
  known := by
    rintro q x ⟨order, inv⟩ member
    rw [Inv.pending inv] at member
    exact inv.allocated x (List.mem_cons_of_mem _ member)
  top := by
    rintro q ⟨order, inv⟩
    rw [Inv.pending inv]
    have least : expireTimer.top q = some order.head? := inv.zslMin
    rw [least]
    cases order with
    | nil => exact .inl ⟨rfl, rfl⟩
    | cons x rest => exact .inr ⟨x, List.mem_cons_self .., rfl, (inv.least rfl).2⟩
  remove := by
    rintro q x ⟨order, inv⟩ top
    obtain ⟨rest, rfl⟩ := (Inv.top_iff inv).mp top
    obtain ⟨next, removed, invNext, kept, allocated⟩ := inv.zslDeleteHead
    rw [List.tail_cons] at invNext
    refine ⟨next, removed, ⟨rest, invNext⟩, ?_, ?_, ?_⟩
    · rw [Inv.pending inv, Inv.pending invNext]
    · intro y member
      rw [Inv.pending invNext] at member
      exact kept.key y (List.mem_cons_of_mem _ member)
    · intro y known
      rw [allocated]
      exact known
  change := by
    rintro q handled a ⟨order, inv⟩ meets top
    cases a with
    | addTimer msec currentTime func draws =>
        obtain ⟨room, later⟩ := meets
        rw [inv.members] at room
        obtain ⟨next, inserted, invNext, kept, -, allocated⟩ :=
          inv.zslInsert (add 32 msec currentTime) func draws room
        refine ⟨next, by simp [expireTimer, change, addTimer, inserted], ⟨_, invNext⟩, ?_, ?_, ?_, ?_⟩
        · intro y member
          rw [Inv.pending invNext] at member
          rw [Inv.pending inv]
          rcases List.mem_append.mp member with early | late
          · exact .inl (List.mem_filter.mp early).1
          · rcases List.mem_cons.mp late with rfl | late
            · exact .inr (Nat.lt_irrefl _)
            · exact .inl (List.mem_filter.mp late).1
        · intro y old _
          rw [Inv.pending inv] at old
          exact kept.key y old
        · intro y known
          rw [allocated]
          exact Nat.lt_succ_of_lt known
        · intro x isHandled
          obtain ⟨rest, rfl⟩ := (Inv.top_iff inv).mp (top x isHandled)
          obtain ⟨same, rest', insertedSame, invSame⟩ :=
            Inv.addTimer_behind inv (later x isHandled) func draws room
          obtain ⟨-, rfl⟩ := Prod.mk.inj (Option.some.inj (inserted.symm.trans insertedSame))
          exact (Inv.top_iff invSame).mpr ⟨rest', rfl⟩
    | delTimer zn =>
        obtain ⟨rfl, member⟩ := meets
        rw [inv.members] at member
        obtain ⟨next, x, second, deleted, split, -, invNext, kept, allocated⟩ := inv.zslDelete member
        have fewer (y : Nat) (stays : y ∈ next.members) : y ∈ order := by
          rw [invNext.members] at stays
          rw [split]
          exact (sublist_without _ _ _).subset stays
        refine ⟨next, deleted, ⟨_, invNext⟩, ?_, ?_, ?_, by simp⟩
        · intro y stays
          rw [Inv.pending inv]
          exact .inl (fewer y stays)
        · intro y _ stays
          rw [Inv.pending invNext] at stays
          exact kept.key y stays
        · intro y known
          rw [allocated]
          exact known

def restarting : List (Dispatch.Event (Change Unit)) :=
  [.change (.addTimer 10 90 () []), .change (.addTimer 5 90 () []), .dispatch 100, .look,
    .change (.addTimer 1 100 () []), .finish, .look, .finish, .look]

end CppInfra.Timer.SklTimer
