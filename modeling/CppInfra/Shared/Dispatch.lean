import CppInfra.Shared.Transition
import Mathlib.Data.List.Perm.Basic
import Mathlib.Data.List.Nodup

set_option autoImplicit false

namespace CppInfra.Dispatch

open Transition

variable {Q N A : Type}

-- The operations have no result where the queue would leave its memory. `remove` is given the item whose
-- handler has just returned.
structure Operations (Q N A : Type) where
  top : Q → Option (Option N)
  key : Q → N → Nat
  remove : Q → N → Option Q
  change : Q → A → Option Q
  pending : Q → List N

inductive Phase (N : Type) where
  | idle
  | looking (now : Nat)
  | handling (now : Nat) (item : N)
  deriving DecidableEq

inductive Event (A : Type) where
  | change (a : A)
  | dispatch (now : Nat)
  | look
  | finish
  deriving DecidableEq

-- `entered` are the items that have ever been pending, `fired` those whose handlers were started, in this
-- order; `taken` and `deleted` are the items that left the queue by a `remove` and by a change.
structure State (Q N : Type) where
  queue : Q
  phase : Phase N
  entered : List N
  fired : List N
  taken : List N
  deleted : List N

def Operations.start (ops : Operations Q N A) (queue : Q) : State Q N :=
  { queue := queue, phase := .idle, entered := ops.pending queue, fired := [], taken := [], deleted := [] }

def Phase.current : Phase N → List N
  | .handling _ item => [item]
  | _ => []

variable [DecidableEq N]

def Operations.gone (ops : Operations Q N A) (first second : Q) : List N :=
  (ops.pending first).filter fun x => decide (x ∉ ops.pending second)

def Operations.step (ops : Operations Q N A) (s : State Q N) (event : Event A) : Option (State Q N) :=
  match event, s.phase with
  | .change _, .looking _ => none
  | .change a, _ => do
      let queue ← ops.change s.queue a
      some { s with
        queue := queue
        entered := s.entered ++ ops.gone queue s.queue
        deleted := s.deleted ++ ops.gone s.queue queue }
  | .dispatch now, .idle => some { s with phase := .looking now }
  | .look, .looking now => do
      match ← ops.top s.queue with
      | none => some { s with phase := .idle }
      | some x =>
          if ops.key s.queue x > now then some { s with phase := .idle }
          else some { s with phase := .handling now x, fired := s.fired ++ [x] }
  | .finish, .handling now x => do
      let queue ← ops.remove s.queue x
      some { s with
        queue := queue
        phase := .looking now
        taken := s.taken ++ ops.gone s.queue queue }
  | _, _ => none

def Enabled (s : State Q N) : Event A → Prop
  | .change _ => ∀ now, s.phase ≠ .looking now
  | .dispatch _ => s.phase = .idle
  | .look => ∃ now, s.phase = .looking now
  | .finish => ∃ now x, s.phase = .handling now x

instance enabledDecidable (s : State Q N) (event : Event A) : Decidable (Enabled s event) :=
  match event, phase : s.phase with
  | .change _, .idle => .isTrue (by simp [Enabled, phase])
  | .change _, .handling _ _ => .isTrue (by simp [Enabled, phase])
  | .change _, .looking now => .isFalse (by simp [Enabled, phase])
  | .dispatch _, _ => inferInstanceAs (Decidable (s.phase = .idle))
  | .look, .looking now => .isTrue ⟨now, phase⟩
  | .look, .idle => .isFalse (by simp [Enabled, phase])
  | .look, .handling _ _ => .isFalse (by simp [Enabled, phase])
  | .finish, .handling now x => .isTrue ⟨now, x, phase⟩
  | .finish, .idle => .isFalse (by simp [Enabled, phase])
  | .finish, .looking _ => .isFalse (by simp [Enabled, phase])

-- A queue that works: it stays good, its top is an item of least key, `remove` takes the top out, and a
-- change brings in only items that were not used before. `allowed` says which changes are made, given the
-- items being handled, and such a change leaves the item being handled on the top.
structure Lawful (ops : Operations Q N A) (Good : Q → Prop) (used : Q → N → Prop)
    (allowed : Q → List N → A → Prop) : Prop where
  distinct : ∀ {q}, Good q → (ops.pending q).Nodup
  known : ∀ {q x}, Good q → x ∈ ops.pending q → used q x
  top : ∀ {q}, Good q →
    ops.pending q = [] ∧ ops.top q = some none ∨
      ∃ x ∈ ops.pending q, ops.top q = some (some x) ∧ ∀ y ∈ ops.pending q, ops.key q x ≤ ops.key q y
  remove : ∀ {q x}, Good q → ops.top q = some (some x) →
    ∃ next, ops.remove q x = some next ∧ Good next ∧ (x :: ops.pending next).Perm (ops.pending q) ∧
      (∀ y ∈ ops.pending next, ops.key next y = ops.key q y) ∧ ∀ y, used q y → used next y
  change : ∀ {q items a}, Good q → allowed q items a → (∀ x ∈ items, ops.top q = some (some x)) →
    ∃ next, ops.change q a = some next ∧ Good next ∧
      (∀ y ∈ ops.pending next, y ∈ ops.pending q ∨ ¬ used q y) ∧
      (∀ y ∈ ops.pending q, y ∈ ops.pending next → ops.key next y = ops.key q y) ∧
      (∀ y, used q y → used next y) ∧ ∀ x ∈ items, ops.top next = some (some x)

def Meets (allowed : Q → List N → A → Prop) (s : State Q N) (event : Event A) : Prop :=
  Enabled s event ∧ ∀ a, event = .change a → allowed s.queue s.phase.current a

instance meetsDecidable (allowed : Q → List N → A → Prop) [∀ q items a, Decidable (allowed q items a)]
    (s : State Q N) (event : Event A) : Decidable (Meets allowed s event) :=
  match event with
  | .change a =>
      decidable_of_iff (Enabled s (.change a) ∧ allowed s.queue s.phase.current a) (by simp [Meets])
  | .dispatch now => decidable_of_iff (Enabled s (.dispatch now : Event A)) (by simp [Meets])
  | .look => decidable_of_iff (Enabled s (.look : Event A)) (by simp [Meets])
  | .finish => decidable_of_iff (Enabled s (.finish : Event A)) (by simp [Meets])

structure Accounted (ops : Operations Q N A) (Good : Q → Prop) (used : Q → N → Prop) (s : State Q N) :
    Prop where
  good : Good s.queue
  distinct : s.entered.Nodup
  balance : s.entered.Perm (ops.pending s.queue ++ s.taken ++ s.deleted)
  known : ∀ x ∈ s.entered, used s.queue x
  fired : s.fired = s.taken ++ s.phase.current
  top : ∀ x ∈ s.phase.current, ops.top s.queue = some (some x)

theorem step_change (ops : Operations Q N A) {s : State Q N} {a : A} {queue : Q}
    (enabled : ∀ now, s.phase ≠ .looking now) (changed : ops.change s.queue a = some queue) :
    ops.step s (.change a) = some { s with
      queue := queue
      entered := s.entered ++ ops.gone queue s.queue
      deleted := s.deleted ++ ops.gone s.queue queue } := by
  cases phase : s.phase with
  | looking now => exact absurd phase (enabled now)
  | idle => simp [Operations.step, phase, changed]
  | handling now x => simp [Operations.step, phase, changed]

theorem step_finish (ops : Operations Q N A) {s : State Q N} {now : Nat} {x : N} {queue : Q}
    (handling : s.phase = .handling now x) (removed : ops.remove s.queue x = some queue) :
    ops.step s .finish = some { s with
      queue := queue
      phase := .looking now
      taken := s.taken ++ ops.gone s.queue queue } := by
  simp [Operations.step, handling, removed]

theorem exchange_perm {l m : List N} (left : l.Nodup) (right : m.Nodup) :
    (l ++ m.filter fun x => decide (x ∉ l)).Perm (m ++ l.filter fun x => decide (x ∉ m)) := by
  have union (first second : List N) (one : first.Nodup) (two : second.Nodup) :
      (first ++ second.filter fun x => decide (x ∉ first)).Nodup := by
    refine List.nodup_append.mpr ⟨one, two.filter _, ?_⟩
    rintro x inFirst y inSecond rfl
    exact of_decide_eq_true (List.mem_filter.mp inSecond).2 inFirst
  refine (List.perm_ext_iff_of_nodup (union l m left right) (union m l right left)).mpr ?_
  intro x
  by_cases inLeft : x ∈ l <;> by_cases inRight : x ∈ m <;> simp [inLeft, inRight]

variable {ops : Operations Q N A} {Good : Q → Prop} {used : Q → N → Prop} {allowed : Q → List N → A → Prop}

theorem gone_removed {q next : Q} {x : N} (distinct : (ops.pending q).Nodup)
    (content : (x :: ops.pending next).Perm (ops.pending q)) : ops.gone q next = [x] := by
  have outside : x ∉ ops.pending next := (List.nodup_cons.mp (content.nodup_iff.mpr distinct)).1
  have filtered := (content.filter fun y => decide (y ∉ ops.pending next)).symm
  rw [List.filter_cons_of_pos (by simpa using outside)] at filtered
  have none : (ops.pending next).filter (fun y => decide (y ∉ ops.pending next)) = [] := by
    simp [List.filter_eq_nil_iff]
  rw [none] at filtered
  exact List.perm_singleton.mp filtered

omit [DecidableEq N] in
theorem start_accounted (lawful : Lawful ops Good used allowed) {q : Q} (good : Good q) :
    Accounted ops Good used (ops.start q) where
  good := good
  distinct := lawful.distinct good
  balance := by simp [Operations.start]
  known := fun _ member => lawful.known good member
  fired := rfl
  top := by simp [Operations.start, Phase.current]

theorem change_accounted (lawful : Lawful ops Good used allowed) {s : State Q N} {a : A}
    (accounted : Accounted ops Good used s) (meets : Meets allowed s (.change a)) :
    ∃ next, ops.step s (.change a) = some next ∧ Accounted ops Good used next ∧ next.phase = s.phase := by
  obtain ⟨queue, changed, good, fresh, -, used', top⟩ :=
    lawful.change accounted.good (meets.2 a rfl) accounted.top
  have before := lawful.distinct accounted.good
  have after := lawful.distinct good
  let next : State Q N :=
    { s with
      queue := queue
      entered := s.entered ++ ops.gone queue s.queue
      deleted := s.deleted ++ ops.gone s.queue queue }
  have stepped : ops.step s (.change a) = some next := step_change ops meets.1 changed
  -- An item that comes in was not used, so it is none of those that have been pending.
  have apart : ∀ x ∈ s.entered, ∀ y ∈ ops.gone queue s.queue, x ≠ y := by
    rintro x inside y incoming rfl
    obtain ⟨pending, outside⟩ := List.mem_filter.mp incoming
    rcases fresh x pending with old | unused
    · exact of_decide_eq_true outside old
    · exact unused (accounted.known x inside)
  refine ⟨next, stepped, ?_, rfl⟩
  exact
    { good := good
      distinct := List.nodup_append.mpr ⟨accounted.distinct, after.filter _, apart⟩
      balance := by
        refine List.perm_iff_count.mpr fun x => ?_
        have balance := accounted.balance.count_eq x
        have exchanged := (exchange_perm before after).count_eq x
        simp only [List.count_append, Operations.gone, next] at balance exchanged ⊢
        omega
      known := by
        intro x member
        rcases List.mem_append.mp member with old | incoming
        · exact used' x (accounted.known x old)
        · exact lawful.known good (List.mem_filter.mp incoming).1
      fired := accounted.fired
      top := top }

theorem look_accounted (lawful : Lawful ops Good used allowed) {s : State Q N} {now : Nat}
    (accounted : Accounted ops Good used s) (looking : s.phase = .looking now) :
    ∃ next, ops.step s .look = some next ∧ Accounted ops Good used next ∧
      ((next = { s with phase := .idle } ∧ ∀ y ∈ ops.pending s.queue, now < ops.key s.queue y) ∨
        ∃ x, next = { s with phase := .handling now x, fired := s.fired ++ [x] } ∧
          ops.key s.queue x ≤ now) := by
  have noneFired : s.fired = s.taken := by simpa [looking, Phase.current] using accounted.fired
  have ended : Accounted ops Good used { s with phase := .idle } :=
    { accounted with
      fired := by simpa [Phase.current] using noneFired
      top := by simp [Phase.current] }
  rcases lawful.top accounted.good with ⟨empty, top⟩ | ⟨x, member, top, least⟩
  · exact ⟨_, by simp [Operations.step, looking, top], ended, .inl ⟨rfl, by simp [empty]⟩⟩
  · by_cases later : ops.key s.queue x > now
    · refine ⟨_, by simp [Operations.step, looking, top, later], ended, .inl ⟨rfl, ?_⟩⟩
      intro y pending
      exact Nat.lt_of_lt_of_le later (least y pending)
    · refine ⟨{ s with phase := .handling now x, fired := s.fired ++ [x] },
        by simp [Operations.step, looking, top, later], ?_, .inr ⟨x, rfl, Nat.le_of_not_lt later⟩⟩
      exact
        { accounted with
          fired := by simp [noneFired, Phase.current]
          top := by simpa [Phase.current] using top }

theorem finish_accounted (lawful : Lawful ops Good used allowed) {s : State Q N} {now : Nat} {x : N}
    (accounted : Accounted ops Good used s) (handling : s.phase = .handling now x) :
    ∃ next, ops.step s .finish = some next ∧ Accounted ops Good used next ∧ next.phase = .looking now ∧
      next.fired = s.fired ∧ (x :: ops.pending next.queue).Perm (ops.pending s.queue) ∧
      ∀ y ∈ ops.pending next.queue, ops.key next.queue y = ops.key s.queue y := by
  have top : ops.top s.queue = some (some x) := accounted.top x (by simp [handling, Phase.current])
  obtain ⟨queue, removed, good, content, keys, used'⟩ := lawful.remove accounted.good top
  have exactly : ops.gone s.queue queue = [x] := gone_removed (lawful.distinct accounted.good) content
  have fired : s.fired = s.taken ++ [x] := by simpa [handling, Phase.current] using accounted.fired
  let next : State Q N :=
    { s with queue := queue, phase := .looking now, taken := s.taken ++ ops.gone s.queue queue }
  refine ⟨next, step_finish ops handling removed, ?_, rfl, rfl, content, keys⟩
  exact
    { good := good
      distinct := accounted.distinct
      balance := by
        refine List.perm_iff_count.mpr fun y => ?_
        have balance := accounted.balance.count_eq y
        have left := content.count_eq y
        simp only [List.count_append, List.count_cons, List.count_nil, exactly, next] at balance left ⊢
        omega
      known := fun y member => used' y (accounted.known y member)
      fired := by simp [exactly, fired, Phase.current, next]
      top := by simp [Phase.current, next] }

theorem step_accounted (lawful : Lawful ops Good used allowed) (s : State Q N) (event : Event A)
    (accounted : Accounted ops Good used s) (meets : Meets allowed s event) :
    ∃ next, ops.step s event = some next ∧ Accounted ops Good used next := by
  cases event with
  | change a =>
      obtain ⟨next, stepped, kept, -⟩ := change_accounted lawful accounted meets
      exact ⟨next, stepped, kept⟩
  | dispatch now =>
      have idle : s.phase = .idle := meets.1
      refine ⟨{ s with phase := .looking now }, by simp [Operations.step, idle], ?_⟩
      exact
        { accounted with
          fired := by simpa [idle, Phase.current] using accounted.fired
          top := by simp [Phase.current] }
  | look =>
      obtain ⟨now, looking⟩ := meets.1
      obtain ⟨next, stepped, kept, -⟩ := look_accounted lawful accounted looking
      exact ⟨next, stepped, kept⟩
  | finish =>
      obtain ⟨now, x, handling⟩ := meets.1
      obtain ⟨next, stepped, kept, -⟩ := finish_accounted lawful accounted handling
      exact ⟨next, stepped, kept⟩

theorem run_accounted (lawful : Lawful ops Good used allowed) {q : Q} (good : Good q) {events : List (Event A)}
    (met : Along ops.step (Meets allowed) (ops.start q) events) :
    ∃ s, run ops.step (ops.start q) events = some s ∧ Accounted ops Good used s :=
  run_possible (Accounted ops Good used) (step_accounted lawful) (start_accounted lawful good) met

omit [DecidableEq N] in
theorem Accounted.fired_nodup (lawful : Lawful ops Good used allowed) {s : State Q N}
    (accounted : Accounted ops Good used s) : s.fired.Nodup := by
  have whole := accounted.balance.nodup_iff.mp accounted.distinct
  obtain ⟨inside, -⟩ := List.nodup_append.mp whole
  obtain ⟨-, taken, apart⟩ := List.nodup_append.mp inside
  rw [accounted.fired]
  refine List.nodup_append.mpr ⟨taken, ?_, ?_⟩
  · cases s.phase <;> simp [Phase.current]
  · rintro x wasTaken y current rfl
    have onTop := accounted.top x current
    rcases lawful.top accounted.good with ⟨-, empty⟩ | ⟨z, member, top, -⟩
    · rw [onTop] at empty
      cases empty
    · obtain rfl : x = z := by
        rw [onTop] at top
        simpa using top
      exact apart x member x wasTaken rfl

-- A dispatch call whose handlers leave the queue alone.
def Operations.loop (ops : Operations Q N A) : Nat → State Q N → Option (State Q N)
  | 0, _ => none
  | turns + 1, s => do
      let s ← ops.step s .look
      if s.phase.current = [] then some s
      else do
        let s ← ops.step s .finish
        ops.loop turns s

def Operations.dispatch (ops : Operations Q N A) (s : State Q N) (now : Nat) : Option (State Q N) := do
  let s ← ops.step s (.dispatch now)
  ops.loop ((ops.pending s.queue).length + 1) s

structure Dispatched (ops : Operations Q N A) (now : Nat) (s next : State Q N) (handled : List N) : Prop where
  idle : next.phase = .idle
  fired : next.fired = s.fired ++ handled
  due : handled.Perm ((ops.pending s.queue).filter fun x => decide (ops.key s.queue x ≤ now))
  later : (ops.pending next.queue).Perm ((ops.pending s.queue).filter fun x => decide (now < ops.key s.queue x))
  keys : ∀ y ∈ ops.pending next.queue, ops.key next.queue y = ops.key s.queue y

theorem loop_dispatched (lawful : Lawful ops Good used allowed) {now turns : Nat} {s : State Q N}
    (accounted : Accounted ops Good used s) (looking : s.phase = .looking now)
    (enough : (ops.pending s.queue).length < turns) :
    ∃ next handled, ops.loop turns s = some next ∧ Accounted ops Good used next ∧
      Dispatched ops now s next handled := by
  induction turns generalizing s with
  | zero => omega
  | succ turns ih =>
      obtain ⟨seen, looked, kept, outcome⟩ := look_accounted lawful accounted looking
      rcases outcome with ⟨rfl, allLater⟩ | ⟨x, rfl, due⟩
      · refine ⟨{ s with phase := .idle }, [], by simp [Operations.loop, looked, Phase.current], kept, rfl,
          by simp, ?_, ?_, fun _ _ => rfl⟩
        · rw [List.filter_eq_nil_iff.mpr]
          intro y member
          simpa using allLater y member
        · rw [List.filter_eq_self.mpr]
          intro y member
          simpa using allLater y member
      · obtain ⟨removed, finished, keptRemoved, lookingAgain, fired, content, keys⟩ :=
          finish_accounted lawful kept rfl
        have shorter := content.length_eq
        simp only [List.length_cons] at shorter
        obtain ⟨next, handled, looped, keptNext, dispatched⟩ := ih keptRemoved lookingAgain (by omega)
        have filtered (p : Nat → Bool) : ((ops.pending s.queue).filter fun y => p (ops.key s.queue y)).Perm
            ((x :: ops.pending removed.queue).filter fun y => p (ops.key s.queue y)) :=
          (content.filter _).symm
        have same (p : Nat → Bool) : (ops.pending removed.queue).filter (fun y => p (ops.key s.queue y)) =
            (ops.pending removed.queue).filter fun y => p (ops.key removed.queue y) := by
          apply List.filter_congr
          intro y member
          rw [keys y member]
        refine ⟨next, x :: handled, by simp [Operations.loop, looked, Phase.current, finished, looped], keptNext,
          dispatched.idle, ?_, ?_, ?_, ?_⟩
        · rw [dispatched.fired, fired]
          simp
        · have dueFirst := filtered fun key => decide (key ≤ now)
          rw [List.filter_cons_of_pos (by simpa using due), same fun key => decide (key ≤ now)] at dueFirst
          exact (dispatched.due.cons x).trans dueFirst.symm
        · have laterFirst := filtered fun key => decide (now < key)
          rw [List.filter_cons_of_neg (by simpa using due), same fun key => decide (now < key)] at laterFirst
          exact dispatched.later.trans laterFirst.symm
        · intro y member
          rw [dispatched.keys y member, keys y (List.mem_filter.mp (dispatched.later.mem_iff.mp member)).1]

theorem dispatch_dispatched (lawful : Lawful ops Good used allowed) {s : State Q N}
    (accounted : Accounted ops Good used s) (idle : s.phase = .idle) (now : Nat) :
    ∃ next handled, ops.dispatch s now = some next ∧ Accounted ops Good used next ∧
      Dispatched ops now s next handled := by
  have started : ops.step s (.dispatch now) = some { s with phase := .looking now } := by
    simp [Operations.step, idle]
  obtain ⟨begun, stepped, kept⟩ := step_accounted lawful s (.dispatch now) accounted ⟨idle, by simp⟩
  obtain rfl := Option.some.inj (started.symm.trans stepped)
  obtain ⟨next, handled, looped, keptNext, dispatched⟩ :=
    loop_dispatched lawful kept rfl (Nat.lt_succ_self _)
  exact ⟨next, handled, by simpa [Operations.dispatch, started] using looped, keptNext,
    dispatched.idle, dispatched.fired, dispatched.due, dispatched.later, dispatched.keys⟩

inductive Call (A : Type) where
  | change (a : A)
  | dispatch (now : Nat)
  deriving DecidableEq

def Operations.call (ops : Operations Q N A) (s : State Q N) : Call A → Option (State Q N)
  | .change a => ops.step s (.change a)
  | .dispatch now => ops.dispatch s now

def readings (calls : List (Call A)) : List Nat :=
  calls.filterMap fun
    | .change _ => none
    | .dispatch now => some now

def Operations.Keeps (ops : Operations Q N A) (q : Q) (a : A) : Prop :=
  ∀ next, ops.change q a = some next → ∀ y ∈ ops.pending q, y ∈ ops.pending next

-- One item, of key `k`, in a run of calls: it is handled by the first call whose reading is not below its
-- key.
structure Followed (ops : Operations Q N A) (Good : Q → Prop) (used : Q → N → Prop) (x : N) (k : Nat)
    (past : List (Call A)) (s : State Q N) : Prop where
  accounted : Accounted ops Good used s
  idle : s.phase = .idle
  fired : x ∈ s.fired ↔ ∃ now ∈ readings past, k ≤ now
  waiting : x ∉ s.fired → x ∈ ops.pending s.queue ∧ ops.key s.queue x = k

def CallMeets (ops : Operations Q N A) (allowed : Q → List N → A → Prop) (s : State Q N) : Call A → Prop
  | .change a => allowed s.queue [] a ∧ ops.Keeps s.queue a
  | .dispatch _ => True

theorem call_followed (lawful : Lawful ops Good used allowed) (x : N) (k : Nat) (past : List (Call A))
    (s : State Q N) (call : Call A) (followed : Followed ops Good used x k past s)
    (meets : CallMeets ops allowed s call) :
    ∃ next, ops.call s call = some next ∧ Followed ops Good used x k (past ++ [call]) next := by
  obtain ⟨accounted, idle, fired, waiting⟩ := followed
  cases call with
  | change a =>
      have met : Meets allowed s (.change a) := by
        refine ⟨by simp [Enabled, idle], ?_⟩
        rintro b ⟨⟩
        simpa [idle, Phase.current] using meets.1
      obtain ⟨next, stepped, kept, -⟩ := change_accounted lawful accounted met
      obtain ⟨queue, changed, -, -, keys, -⟩ := lawful.change accounted.good meets.1 (by simp)
      obtain rfl := Option.some.inj ((step_change ops met.1 changed).symm.trans stepped)
      refine ⟨_, stepped, kept, idle, by simpa [readings] using fired, ?_⟩
      intro notFired
      obtain ⟨pending, key⟩ := waiting notFired
      have stays := meets.2 queue changed x pending
      exact ⟨stays, (keys x pending stays).trans key⟩
  | dispatch now =>
      obtain ⟨next, handled, dispatched, kept, outcome⟩ := dispatch_dispatched lawful accounted idle now
      refine ⟨next, dispatched, kept, outcome.idle, ?_, ?_⟩
      · rw [outcome.fired, List.mem_append, fired, outcome.due.mem_iff, List.mem_filter]
        simp only [readings, List.filterMap_append, List.filterMap_cons, List.filterMap_nil, List.mem_append,
          List.mem_singleton, decide_eq_true_eq]
        by_cases already : ∃ earlier ∈ readings past, k ≤ earlier
        · obtain ⟨earlier, inside, passed⟩ := already
          exact ⟨fun _ => ⟨earlier, .inl inside, passed⟩, fun _ => .inl ⟨earlier, inside, passed⟩⟩
        · obtain ⟨pending, rfl⟩ := waiting (fun member => already (fired.mp member))
          constructor
          · rintro (earlier | ⟨-, due⟩)
            · exact absurd earlier already
            · exact ⟨now, .inr rfl, due⟩
          · rintro ⟨reading, inside | rfl, passed⟩
            · exact absurd ⟨reading, inside, passed⟩ already
            · exact .inr ⟨pending, passed⟩
      · intro notFired
        rw [outcome.fired, List.mem_append, not_or, outcome.due.mem_iff, List.mem_filter, not_and] at notFired
        obtain ⟨pending, key⟩ := waiting notFired.1
        have later : x ∈ ops.pending next.queue := by
          rw [outcome.later.mem_iff, List.mem_filter]
          have notDue := notFired.2 pending
          simp only [decide_eq_true_eq] at notDue ⊢
          exact ⟨pending, Nat.lt_of_not_le notDue⟩
        exact ⟨later, (outcome.keys x later).trans key⟩

theorem run_followed (lawful : Lawful ops Good used allowed) {q : Q} (good : Good q) {x : N}
    (pending : x ∈ ops.pending q) {calls : List (Call A)}
    (met : Along ops.call (CallMeets ops allowed) (ops.start q) calls) :
    ∃ s, run ops.call (ops.start q) calls = some s ∧
      Followed ops Good used x (ops.key q x) calls s := by
  have initial : Followed ops Good used x (ops.key q x) [] (ops.start q) :=
    ⟨start_accounted lawful good, rfl, by simp [Operations.start, readings], fun _ => ⟨pending, rfl⟩⟩
  simpa using run_total (Followed ops Good used x (ops.key q x))
    (call_followed lawful x (ops.key q x)) initial met

end CppInfra.Dispatch
