import CppInfra.AtomicLock.SharedPtrSteps
import Mathlib.Data.Fintype.Basic

set_option autoImplicit false

namespace CppInfra.AtomicLock.SharedPtr

open Words Transition Holders

variable {Thread : Type}

theorem initial_good : Good (State.initial Thread) := by
  refine ⟨fun _ => .unmade, fun _ => none, ?_, ?_⟩
  · constructor <;> simp [State.initial]
  · constructor <;> simp [State.initial, Linked]
    intro p
    constructor <;> simp [Phase.counter, count]

theorem task_shape (op : Operation) :
    op.task = ⟨op.this, op.task.rest, if op.constructs then .setPtr else .fetchSub⟩ ∧
      (op.constructs = true → op.task.rest ≠ .leave) := by
  cases op <;> simp [Operation.task, Operation.this, Operation.constructs]

theorem other_of_rest {op : Operation} {other : Object} {move : Bool} (taking : op.task.rest = .take other move) :
    op.other = some other := by
  simp [Operation.other, taking]

theorem raw_iff {op : Operation} {p : Nat} : op.raw = some p ↔ op.task.rest = .write (some p) := by
  rw [Operation.raw]
  cases rest : op.task.rest <;> simp

theorem Compatible.symm {a b : Task} (compatible : Compatible a b) : Compatible b a := ⟨compatible.2, compatible.1⟩

theorem mem_used {task : Task} {x : Object} (member : x ∈ task.used) :
    x = task.this ∨ ∃ move, task.rest = .take x move := by
  rw [Task.used] at member
  split at member
  · rename_i other move taking
    simp only [List.mem_cons, List.not_mem_nil, or_false] at member
    rcases member with same | rfl
    · exact .inl same
    · exact .inr ⟨move, taking⟩
  · exact .inl (List.mem_singleton.mp member)

theorem Fields.settled_of_used {holding : Object → Option Nat} {s : State Thread} (fields : Fields holding s)
    {task : Task} (compatible : ∀ thread, ∀ old ∈ s.threads thread, Compatible task old) {x : Object}
    (isLive : x ∈ s.live) (uses : x ∈ task.used) : Settled s.cells holding x := by
  refine fields.settled x isLive ?_
  intro thread old there modifies
  exact (compatible thread old there).2 x modifies uses

variable [DecidableEq Thread]

theorem started_cases {threads : Thread → Option Task} {thread t : Thread} {new task : Task}
    (there : Function.update threads thread (some new) t = some task) :
    t = thread ∧ task = new ∨ t ≠ thread ∧ threads t = some task := by
  by_cases mine : t = thread
  · subst mine
    rw [Function.update_self, Option.some.injEq] at there
    exact .inl ⟨rfl, there.symm⟩
  · rw [Function.update_of_ne mine] at there
    exact .inr ⟨mine, there⟩

def begun (live : List Object) (op : Operation) : List Object := if op.constructs then live ++ [op.this] else live

theorem mem_begun {live : List Object} {op : Operation} (isLive : op.this ∈ live ↔ op.constructs = false)
    {x : Object} : x ∈ begun live op ↔ x = op.this ∨ x ∈ live := by
  rw [begun]
  cases constructs : op.constructs with
  | true => simp [or_comm]
  | false =>
      have already : op.this ∈ live := isLive.mpr constructs
      simp only [Bool.false_eq_true, if_false]
      constructor
      · exact .inr
      · rintro (rfl | member)
        · exact already
        · exact member

theorem not_live_of_constructs {live : List Object} {op : Operation}
    (isLive : op.this ∈ live ↔ op.constructs = false) (constructs : op.constructs = true) : op.this ∉ live := by
  rw [isLive, constructs]
  simp

theorem nodup_begun {live : List Object} {op : Operation} (isLive : op.this ∈ live ↔ op.constructs = false)
    (distinct : live.Nodup) : (begun live op).Nodup := by
  rw [begun]
  split
  · rename_i constructs
    simpa using distinct.concat (not_live_of_constructs isLive constructs)
  · exact distinct

theorem count_begun {holding : Object → Option Nat} {live : List Object} {op : Operation}
    (isLive : op.this ∈ live ↔ op.constructs = false) (outside : ∀ x, x ∉ live → holding x = none) (p : Nat) :
    count holding (begun live op) p = count holding live p := by
  rw [begun]
  split
  · rename_i constructs
    exact count_append_none (outside _ (not_live_of_constructs isLive constructs)) p
  · rfl

omit [DecidableEq Thread] in
theorem Fields.start_ok {holding : Object → Option Nat} {s : State Thread} {op : Operation}
    (fields : Fields holding s) (isLive : op.this ∈ s.live ↔ op.constructs = false)
    (others : ∀ x ∈ op.other, x ∈ s.live) (compatible : ∀ t, ∀ task ∈ s.threads t, Compatible op.task task) :
    TaskOk s.cells holding op.task := by
  obtain ⟨shape, stays⟩ := task_shape op
  have ready : Ready s.cells holding op.task.rest := by
    cases rest : op.task.rest with
    | take other move =>
        exact fields.settled_of_used compatible (others other (other_of_rest rest)) (other_used rest)
    | write p => trivial
    | leave => trivial
  rw [shape]
  split
  · rename_i constructs
    have begins : op.task.rest.begin = .setPtr := by
      cases rest : op.task.rest with
      | take other move => rfl
      | write p => rfl
      | leave => exact absurd rest (stays constructs)
    have released : holding op.this = none := fields.outside _ (not_live_of_constructs isLive constructs)
    have ok : TaskOk s.cells holding ⟨op.this, op.task.rest, op.task.rest.begin⟩ := TaskOk.begin released ready
    rw [begins] at ok
    exact ok
  · rename_i assigns
    have wasLive := isLive.mpr (by simpa using assigns)
    exact ⟨fields.settled_of_used compatible wasLive (this_used op.task), ready⟩

theorem start_fields {holding : Object → Option Nat} {s : State Thread} {thread : Thread} {op : Operation}
    {given : List Nat} (fields : Fields holding s) (idle : s.threads thread = none)
    (isLive : op.this ∈ s.live ↔ op.constructs = false) (others : ∀ x ∈ op.other, x ∈ s.live)
    (notSelf : op.toSelf = false) (compatible : ∀ t, ∀ task ∈ s.threads t, Compatible op.task task) :
    Fields holding { s with
      live := begun s.live op
      given := given
      threads := Function.update s.threads thread (some op.task) } where
  distinct := nodup_begun isLive fields.distinct
  used t task there x uses := by
    rcases started_cases there with ⟨-, rfl⟩ | ⟨-, was⟩
    · rcases mem_used uses with rfl | ⟨move, taking⟩
      · exact (mem_begun isLive).mpr (.inl rfl)
      · exact (mem_begun isLive).mpr (.inr (others x (other_of_rest taking)))
    · exact (mem_begun isLive).mpr (.inr (fields.used t task was x uses))
  another t task other move there taking := by
    rcases started_cases there with ⟨-, rfl⟩ | ⟨-, was⟩
    · rintro rfl
      have assigns := isLive.mp (others _ (other_of_rest taking))
      simp only [Operation.toSelf, assigns, other_of_rest taking] at notSelf
      simp [Operation.this] at notSelf
    · exact fields.another t task other move was taking
  apart t t' a b different there there' := by
    rcases started_cases there with ⟨mine, rfl⟩ | ⟨-, was⟩
    · rcases started_cases there' with ⟨mine', -⟩ | ⟨-, was'⟩
      · exact absurd (mine.trans mine'.symm) different
      · exact compatible t' b was'
    · rcases started_cases there' with ⟨-, rfl⟩ | ⟨-, was'⟩
      · exact (compatible t a was).symm
      · exact fields.apart t t' a b different was was'
  outside x notLive := fields.outside x fun wasLive => notLive ((mem_begun isLive).mpr (.inr wasLive))
  settled x member free := by
    have notThis : x ≠ op.this := by
      rintro rfl
      exact free thread op.task (Function.update_self ..) (this_modified _)
    refine fields.settled x (((mem_begun isLive).mp member).resolve_left notThis) ?_
    intro t task was
    have different : t ≠ thread := by
      rintro rfl
      rw [idle] at was
      cases was
    exact free t task ((Function.update_of_ne different ..).trans was)
  tasks t task there := by
    rcases started_cases there with ⟨-, rfl⟩ | ⟨-, was⟩
    · exact fields.start_ok isLive others compatible
    · exact fields.tasks t task was

omit [DecidableEq Thread] in
theorem Linked.more {s s' : State Thread} {p : Nat} {phase : Phase Thread} (linked : Linked s p phase)
    (cells : s'.cells = s.cells) (threads : ∀ t task, s.threads t = some task → s'.threads t = some task) :
    Linked s' p phase := by
  cases phase with
  | unmade | alive | dead => trivial
  | reserved t =>
      obtain ⟨task, was, writes⟩ := linked
      exact ⟨task, threads t task was, writes⟩
  | dying t =>
      obtain ⟨task, was, point, cell⟩ := linked
      exact ⟨task, threads t task was, point, by rw [cells]; exact cell⟩
  | deleting t =>
      obtain ⟨task, was, point, cell⟩ := linked
      exact ⟨task, threads t task was, point, by rw [cells]; exact cell⟩

theorem start_life {phase : Nat → Phase Thread} {holding : Object → Option Nat} {s : State Thread}
    {thread : Thread} {op : Operation} (fields : Fields holding s) (life : Life phase holding s)
    (idle : s.threads thread = none) (isLive : op.this ∈ s.live ↔ op.constructs = false)
    (fresh : ∀ p ∈ op.raw, p ∉ s.given) :
    Life (fun p => if op.raw = some p then .reserved thread else phase p) holding { s with
      live := begun s.live op
      given := s.given ++ op.raw.toList
      threads := Function.update s.threads thread (some op.task) } := by
  obtain ⟨shape, -⟩ := task_shape op
  have counts := count_begun isLive fields.outside
  have unmade : ∀ p, op.raw = some p → phase p = .unmade := by
    intro p raw
    by_contra made
    exact fresh p raw ((life.stock p).given.mpr made)
  have kept : ∀ {p : Nat} {is : Phase Thread}, phase p = is → is ≠ .unmade →
      (if op.raw = some p then .reserved thread else phase p) = is := by
    intro p is now made
    rw [if_neg, now]
    intro raw
    exact made (now.symm.trans (unmade p raw))
  have there : ∀ t task, s.threads t = some task →
      Function.update s.threads thread (some op.task) t = some task := by
    intro t task was
    refine (Function.update_of_ne ?_ ..).trans was
    rintro rfl
    rw [idle] at was
    cases was
  have notDeleting : op.task.point ≠ .deletePtr ∧ op.task.point ≠ .deleteCount := by
    rw [shape]
    cases op.constructs <;> simp
  exact
    { stock := by
        intro p
        obtain ⟨given, counter, held, ptr, refCount⟩ := life.stock p
        by_cases raw : op.raw = some p
        · rw [if_pos raw]
          rw [unmade p raw] at counter held ptr refCount
          exact
            { given := iff_of_true (List.mem_append_right _ (by simp [raw])) (by simp)
              counter := counter
              held := by
                rw [counts]
                exact iff_of_false (fun positive => by simpa using held.mp positive) (by simp)
              ptr := iff_of_false (fun member => by simpa using ptr.mp member) (by simp)
              refCount := iff_of_false (fun member => by simpa using refCount.mp member) (by simp) }
        · rw [if_neg raw]
          have sameGiven : p ∈ s.given ++ op.raw.toList ↔ p ∈ s.given := by simp [raw]
          exact (life.stock p).same ⟨sameGiven, rfl, counts p, Iff.rfl, Iff.rfl⟩
      linked := by
        intro p
        by_cases raw : op.raw = some p
        · rw [if_pos raw]
          exact ⟨op.task, Function.update_self .., raw_iff.mp raw⟩
        · rw [if_neg raw]
          exact (life.linked p).more rfl there
      reserved := by
        intro t task p at_ writes
        rcases started_cases at_ with ⟨rfl, rfl⟩ | ⟨-, was⟩
        · rw [if_pos (raw_iff.mpr writes)]
        · exact kept (life.reserved t task p was writes) (by simp)
      deletePtr := by
        intro t task at_ point
        rcases started_cases at_ with ⟨-, rfl⟩ | ⟨-, was⟩
        · exact absurd point notDeleting.1
        · obtain ⟨p, is⟩ := life.deletePtr t task was point
          exact ⟨p, kept is (by simp)⟩
      deleteCount := by
        intro t task at_ point
        rcases started_cases at_ with ⟨-, rfl⟩ | ⟨-, was⟩
        · exact absurd point notDeleting.2
        · obtain ⟨p, is⟩ := life.deleteCount t task was point
          exact ⟨p, kept is (by simp)⟩
      ptrsOnce := life.ptrsOnce
      countsOnce := life.countsOnce }

theorem step_good (s : State Thread) (event : Event Thread) (good : Good s) (meets : Meets s event) :
    ∃ next, step s event = some next ∧ Good next := by
  cases event with
  | start thread op =>
      obtain ⟨phase, holding, fields, life⟩ := good
      obtain ⟨idle, isLive, rest⟩ := meets
      cases self : op.toSelf with
      | true => exact ⟨s, by simp [step, idle, self], phase, holding, fields, life⟩
      | false =>
          obtain ⟨others, fresh, compatible⟩ := rest self
          exact ⟨_, by simp only [step, idle, self, Bool.false_eq_true, if_false, begun], _, holding,
            start_fields fields idle isLive others self compatible, start_life fields life idle isLive fresh⟩
  | advance thread =>
      obtain ⟨task, here⟩ := Option.ne_none_iff_exists'.mp meets
      obtain ⟨next, performed, kept⟩ := perform_good good here
      exact ⟨next, by rw [step, here]; exact performed, kept⟩

def Holder (s : State Thread) (x : Object) (p : Nat) : Prop :=
  x ∈ s.live ∧ (s.cells x).refCount = some p ∧
    ∀ thread task, s.threads thread = some task → task.this = x → task.point = .fetchSub

def State.holders (s : State Thread) (p : Nat) : List Object :=
  s.live.filter fun x => (s.cells x).refCount = some p

theorem TaskOk.other_count {cells : Object → Cell} {holding : Object → Option Nat} {task : Task} {other : Object}
    {move : Bool} (ok : TaskOk cells holding task) (taking : task.rest = .take other move) :
    (cells other).refCount = holding other := by
  obtain ⟨this, rest, point⟩ := task
  simp only at taking
  subst taking
  have settled : Settled cells holding other → (cells other).refCount = holding other := by
    intro settled
    rw [settled]
  cases point with
  | fetchSub => exact settled ok.2
  | deletePtr => exact settled ok.2
  | deleteCount => exact settled ok.2
  | setPtr => exact settled ok.2
  | setCount => exact settled ok.2.1
  | fetchAdd =>
      cases move with
      | false => exact settled ok.2.1
      | true => cases ok
  | nullPtr =>
      cases move with
      | true => exact settled ok.2.1
      | false => cases ok
  | nullCount =>
      cases move with
      | true => rw [ok.2.1]
      | false => cases ok
  | endLife => cases ok

omit [DecidableEq Thread] in
theorem Fields.holding_of_holder {holding : Object → Option Nat} {s : State Thread} (fields : Fields holding s)
    {x : Object} {p : Nat} (holder : Holder s x p) : holding x = some p := by
  obtain ⟨isLive, count, free⟩ := holder
  have field : (s.cells x).refCount = holding x := by
    by_cases modified : ∃ thread task, s.threads thread = some task ∧ x ∈ task.modified
    · obtain ⟨thread, task, there, modifies⟩ := modified
      have ok := fields.tasks thread task there
      rcases mem_used (modified_used modifies) with rfl | ⟨move, taking⟩
      · have point := free thread task there rfl
        obtain ⟨this, rest, at_⟩ := task
        simp only at point
        subst point
        have settled : s.cells this = ⟨holding this, holding this⟩ := ok.1
        rw [settled]
      · exact ok.other_count taking
    · have settled := fields.settled x isLive fun thread task there modifies =>
        modified ⟨thread, task, there, modifies⟩
      rw [settled]
  rw [← field, count]

omit [DecidableEq Thread] in
theorem Fields.holders_length {holding : Object → Option Nat} {s : State Thread} (fields : Fields holding s)
    (quiet : ∀ thread, s.threads thread = none) (p : Nat) :
    (s.holders p).length = count holding s.live p := by
  have same : s.holders p = s.live.filter fun x => holding x = some p := by
    apply List.filter_congr
    intro x isLive
    have settled := fields.settled x isLive fun thread task there => by
      rw [quiet thread] at there
      cases there
    rw [settled]
  rw [same, count, List.count_eq_countP, List.countP_map, List.countP_eq_length_filter]
  congr 1
  apply List.filter_congr
  intro x _
  rw [Bool.eq_iff_iff]
  simp

structure Exact (s : State Thread) : Prop where
  ptrs_once : s.deletedPtrs.Nodup
  counts_once : s.deletedCounts.Nodup
  after_last : ∀ x p, Holder s x p → p ∉ s.deletedPtrs ∧ p ∉ s.deletedCounts
  fields : (∀ thread, s.threads thread = none) → ∀ x ∈ s.live, (s.cells x).ptr = (s.cells x).refCount
  counters : (∀ thread, s.threads thread = none) → ∀ p,
    s.counters p = if s.holders p = [] then none else some (s.holders p).length
  deleted : (∀ thread, s.threads thread = none) → ∀ p ∈ s.given,
    (p ∈ s.deletedPtrs ↔ s.holders p = []) ∧ (p ∈ s.deletedCounts ↔ s.holders p = [])

omit [DecidableEq Thread] in
theorem Life.quiet {phase : Nat → Phase Thread} {holding : Object → Option Nat} {s : State Thread}
    (life : Life phase holding s) (quiet : ∀ thread, s.threads thread = none) (p : Nat) :
    phase p = .unmade ∨ phase p = .alive ∨ phase p = .dead := by
  have linked := life.linked p
  cases is : phase p with
  | unmade => exact .inl rfl
  | alive => exact .inr (.inl rfl)
  | dead => exact .inr (.inr rfl)
  | reserved t | dying t | deleting t =>
      rw [is] at linked
      obtain ⟨task, there, -⟩ := linked
      rw [quiet t] at there
      cases there

omit [DecidableEq Thread] in
theorem Good.exact {s : State Thread} (good : Good s) : Exact s := by
  obtain ⟨phase, holding, fields, life⟩ := good
  have empty : (∀ thread, s.threads thread = none) → ∀ p, s.holders p = [] ↔ phase p ≠ .alive := by
    intro quiet p
    rw [← List.length_eq_zero_iff, fields.holders_length quiet, ne_eq, ← (life.stock p).held]
    omega
  exact
    { ptrs_once := life.ptrsOnce
      counts_once := life.countsOnce
      after_last := by
        intro x p holder
        obtain ⟨alive, -, -⟩ := life.counter_of_holding fields (fields.holding_of_holder holder)
        obtain ⟨-, -, -, ptr, refCount⟩ := life.stock p
        rw [ptr, refCount, alive]
        simp
      fields := by
        intro quiet x isLive
        have settled := fields.settled x isLive fun thread task there => by
          rw [quiet thread] at there
          cases there
        rw [settled]
      counters := by
        intro quiet p
        rw [(life.stock p).counter, fields.holders_length quiet]
        rcases life.quiet quiet p with is | is | is
        · rw [if_pos ((empty quiet p).mpr (by simp [is])), is]
          rfl
        · rw [if_neg (fun none_ => (empty quiet p).mp none_ is), is]
          rfl
        · rw [if_pos ((empty quiet p).mpr (by simp [is])), is]
          rfl
      deleted := by
        intro quiet p isGiven
        obtain ⟨given, -, -, ptr, refCount⟩ := life.stock p
        have made := given.mp isGiven
        rw [ptr, refCount, empty quiet p]
        rcases life.quiet quiet p with is | is | is
        · exact absurd is made
        · simp [is]
        · simp [is] }

theorem shared_ptr_exact (Thread : Type) [DecidableEq Thread] (events : List (Event Thread))
    (met : Along step Meets (State.initial Thread) events) :
    ∃ s, run step (State.initial Thread) events = some s ∧ Exact s := by
  obtain ⟨s, ran, good⟩ := run_possible Good step_good initial_good met
  exact ⟨s, ran, good.exact⟩

instance meetsDecidable [Fintype Thread] (s : State Thread) : (event : Event Thread) → Decidable (Meets s event)
  | .start _ _ => inferInstanceAs (Decidable (_ ∧ _))
  | .advance thread =>
      match there : s.threads thread with
      | none => .isFalse fun meets => meets there
      | some _ => .isTrue fun gone => by cases there.symm.trans gone

-- Two threads copy one object at the same time; later one of the copies is moved onto the other while the first
-- object is destroyed, and the last holder is reset.
def copiesAndMoves (a b c : Object) : List (Event Bool) :=
  [.start true (.construct a (some 7)), .advance true, .advance true, .start true (.copyConstruct b a),
    .start false (.copyConstruct c a), .advance true, .advance false, .advance true, .advance false, .advance false,
    .advance true, .start true (.destroy a), .start false (.moveAssign b c), .advance false, .advance true,
    .advance false, .advance false, .advance true, .advance false, .advance false, .start true (.reset b none),
    .advance true, .advance true, .advance true, .advance true, .advance true]

theorem shared_ptr_exact_copiesAndMoves :
    ∃ s, run step (State.initial Bool) (copiesAndMoves ⟨2, by decide⟩ ⟨4, by decide⟩ ⟨6, by decide⟩) = some s ∧
      Exact s ∧ s.live = [⟨4, by decide⟩, ⟨6, by decide⟩] ∧ s.deletedPtrs = [7] ∧ s.deletedCounts = [7] := by
  have met : Along step Meets (State.initial Bool)
      (copiesAndMoves ⟨2, by decide⟩ ⟨4, by decide⟩ ⟨6, by decide⟩) := by decide
  have results : (run step (State.initial Bool) (copiesAndMoves ⟨2, by decide⟩ ⟨4, by decide⟩ ⟨6, by decide⟩)).map
      (fun s => (s.live, s.deletedPtrs, s.deletedCounts)) =
      some ([⟨4, by decide⟩, ⟨6, by decide⟩], [7], [7]) := by decide
  obtain ⟨s, ran, exact_⟩ := shared_ptr_exact Bool _ met
  rw [ran, Option.map_some, Option.some.injEq] at results
  simp only [Prod.mk.injEq] at results
  exact ⟨s, ran, exact_, results⟩

end CppInfra.AtomicLock.SharedPtr
