import CppInfra.MySQLConnPool.Work
import Mathlib.Data.List.Perm.Basic

set_option autoImplicit false

namespace CppInfra.MySQLConnPool

open Transition ThreadPool Pool

variable {poolSize : Nat} {Sql Callback Result Processor : Type}

inductive Owner (Processor : Type) where
  | caller
  | processor (processor : Processor)
  | gone

def AsyncProcessor.waiting (a : AsyncProcessor Callback) : List (QueryCallback Callback) :=
  match a.poll with
  | some poll => if poll.calling then a.pendingQueries.eraseIdx poll.it else a.pendingQueries
  | none => a.pendingQueries

structure Polled (a : AsyncProcessor Callback) (poll : Poll Callback) : Prop where
  place : poll.it ≤ a.waiting.length
  rest : poll.start = poll.looked.map Prod.fst ++ a.waiting.drop poll.it
  kept : a.waiting.take poll.it = (poll.looked.filter fun asked => !asked.2).map Prod.fst

structure Polls (owner : Nat → Owner Processor) (s : System poolSize Sql Callback Result Processor) : Prop where
  returned : ∀ query ∈ s.returned, owner query.future = .caller
  waiting : ∀ processor, ∀ query ∈ (s.processors processor).waiting, owner query.future = .processor processor
  spent : ∀ op ∈ s.spent, owner op = .gone
  distinct : ∀ processor, ((s.processors processor).waiting.map QueryCallback.future).Nodup
  once : s.spent.Nodup
  own_returned : ∀ query ∈ s.returned, ∃ sql, s.queries[query.future]? = some (sql, query.cb)
  own_waiting : ∀ processor, ∀ query ∈ (s.processors processor).waiting,
    ∃ sql, s.queries[query.future]? = some (sql, query.cb)
  own_invoked : ∀ invocation ∈ s.invoked,
    ∃ sql, s.queries[invocation.query.future]? = some (sql, invocation.query.cb)
  values : ∀ invocation ∈ s.invoked, s.promises invocation.query.future = some invocation.value
  polled : ∀ processor poll, (s.processors processor).poll = some poll → Polled (s.processors processor) poll
  asked : ∀ processor poll, (s.processors processor).poll = some poll →
    ∀ query, (query, true) ∈ poll.looked → query ∈ s.invoked.map Invocation.query

theorem Polls.answered {owner : Nat → Owner Processor} {s : System poolSize Sql Callback Result Processor}
    (polls : Polls owner s) {pool : Pool poolSize Nat} {stages : Fin poolSize → Stage Result}
    {executions : List (Execution poolSize Sql Result)} {promises : Nat → Option Result}
    (kept : ∀ op value, s.promises op = some value → promises op = some value) :
    Polls owner
      { s with pool := pool, stages := stages, executions := executions, promises := promises } :=
  { polls with values := fun invocation member => kept _ _ (polls.values invocation member) }

theorem Polls.query {owner : Nat → Owner Processor} {s : System poolSize Sql Callback Result Processor}
    (polls : Polls owner s) {pool : Pool poolSize Nat} (sql : Sql) (cb : Callback) :
    Polls (Function.update owner s.queries.length .caller)
      { s with
        pool := pool
        queries := s.queries ++ [(sql, cb)]
        returned := s.returned ++ [⟨s.queries.length, cb⟩] } := by
  have earlier : ∀ {query : QueryCallback Callback} {sql : Sql},
      s.queries[query.future]? = some (sql, query.cb) → query.future < s.queries.length :=
    fun found => (List.getElem?_eq_some_iff.mp found).1
  have still : ∀ {query : QueryCallback Callback}, (∃ sql, s.queries[query.future]? = some (sql, query.cb)) →
      ∃ x, (s.queries ++ [(sql, cb)])[query.future]? = some (x, query.cb) := by
    rintro query ⟨x, found⟩
    exact ⟨x, by rw [List.getElem?_append_left (earlier found), found]⟩
  have old : ∀ {query : QueryCallback Callback}, (∃ sql, s.queries[query.future]? = some (sql, query.cb)) →
      Function.update owner s.queries.length .caller query.future = owner query.future := by
    rintro query ⟨x, found⟩
    exact Function.update_of_ne (Nat.ne_of_lt (earlier found)) _ _
  exact
    { returned := by
        intro query member
        rcases List.mem_append.mp member with before | last
        · rw [old (polls.own_returned query before)]
          exact polls.returned query before
        · rw [List.mem_singleton.mp last, Function.update_self]
      waiting := by
        intro processor query member
        rw [old (polls.own_waiting processor query member)]
        exact polls.waiting processor query member
      spent := by
        intro op member
        obtain ⟨invocation, inside, rfl⟩ := List.mem_map.mp member
        rw [old (polls.own_invoked invocation inside)]
        exact polls.spent _ member
      distinct := polls.distinct
      once := polls.once
      own_returned := by
        intro query member
        rcases List.mem_append.mp member with before | last
        · exact still (polls.own_returned query before)
        · rw [List.mem_singleton.mp last]
          exact ⟨sql, by simp⟩
      own_waiting := fun processor query member => still (polls.own_waiting processor query member)
      own_invoked := fun invocation member => still (polls.own_invoked invocation member)
      values := polls.values
      polled := polls.polled
      asked := polls.asked }

theorem Work.processors {s : System poolSize Sql Callback Result Processor} (work : Work s)
    {returned : List (QueryCallback Callback)} {processors : Processor → AsyncProcessor Callback}
    {invoked : List (Invocation Callback Result)} :
    Work { s with returned := returned, processors := processors, invoked := invoked } :=
  { work with }

theorem Work.withPool (atLeastOne : 1 ≤ poolSize) {owner : Nat → Owner Processor}
    {s t : System poolSize Sql Callback Result Processor} (work : Work s) (polls : Polls owner s)
    {event : Pool.Event poolSize Nat} (quiet : Quiet event) (taken : s.withPool event = some t) :
    Work t ∧ Polls owner t := by
  obtain ⟨pool, stepped, rest⟩ := Option.bind_eq_some_iff.mp taken
  obtain rfl := Option.some.inj rest
  exact ⟨work.calm (Pool.step_inv atLeastOne work.pool stepped) (step_calm quiet stepped),
    polls.answered fun _ _ set => set⟩

variable [DecidableEq Processor]

theorem forall_setProcessor {s : System poolSize Sql Callback Result Processor} {processor : Processor}
    {pendingQueries : List (QueryCallback Callback)} {poll : Option (Poll Callback)}
    {p : Processor → AsyncProcessor Callback → Prop} (here : p processor ⟨pendingQueries, poll⟩)
    (others : ∀ other, other ≠ processor → p other (s.processors other)) :
    ∀ other, p other ((s.setProcessor processor pendingQueries poll).processors other) :=
  (Function.forall_update_iff s.processors p).mpr ⟨here, others⟩

theorem Polls.moved {owner : Nat → Owner Processor} {s : System poolSize Sql Callback Result Processor}
    (polls : Polls owner s) {processor : Processor} {pendingQueries : List (QueryCallback Callback)}
    {poll : Option (Poll Callback)}
    (same : AsyncProcessor.waiting ⟨pendingQueries, poll⟩ = (s.processors processor).waiting)
    (polled : ∀ p, poll = some p → Polled ⟨pendingQueries, poll⟩ p)
    (asked : ∀ p, poll = some p → ∀ query, (query, true) ∈ p.looked → query ∈ s.invoked.map Invocation.query) :
    Polls owner (s.setProcessor processor pendingQueries poll) := by
  have waiting : ∀ other, ((s.setProcessor processor pendingQueries poll).processors other).waiting =
      (s.processors other).waiting :=
    forall_setProcessor (p := fun other a => a.waiting = (s.processors other).waiting) same fun _ _ => rfl
  exact
    { polls with
      waiting := by
        intro other query member
        rw [waiting] at member
        exact polls.waiting other query member
      distinct := by
        intro other
        rw [waiting]
        exact polls.distinct other
      own_waiting := by
        intro other query member
        rw [waiting] at member
        exact polls.own_waiting other query member
      polled := forall_setProcessor (p := fun _ a => ∀ poll, a.poll = some poll → Polled a poll) polled
        fun other _ => polls.polled other
      asked := forall_setProcessor
        (p := fun _ a => ∀ poll, a.poll = some poll →
          ∀ query, (query, true) ∈ poll.looked → query ∈ s.invoked.map Invocation.query)
        asked fun other _ => polls.asked other }

theorem Polls.addQueryCallback {owner : Nat → Owner Processor} {s : System poolSize Sql Callback Result Processor}
    (polls : Polls owner s) {processor : Processor} {pendingQueries : List (QueryCallback Callback)}
    (at_ : s.processors processor = ⟨pendingQueries, none⟩) {query : QueryCallback Callback}
    (member : query ∈ s.returned) :
    Polls (Function.update owner query.future (.processor processor))
      { s.setProcessor processor (pendingQueries ++ [query]) none with
        returned := s.returned.filter fun other => other.future ≠ query.future } := by
  have mine := polls.returned query member
  have content : (s.processors processor).waiting = pendingQueries := by simp [at_, AsyncProcessor.waiting]
  have kept : ∀ op, owner op ≠ .caller →
      Function.update owner query.future (.processor processor) op = owner op := by
    intro op owned
    refine Function.update_of_ne ?_ _ _
    rintro rfl
    exact owned mine
  have cases_ : ∀ other q, q ∈ ((s.setProcessor processor (pendingQueries ++ [query]) none).processors other).waiting →
      q ∈ (s.processors other).waiting ∨ other = processor ∧ q = query := by
    refine forall_setProcessor
      (p := fun other a => ∀ q ∈ a.waiting, q ∈ (s.processors other).waiting ∨ other = processor ∧ q = query) ?_ ?_
    · intro q inside
      rw [content]
      simpa [AsyncProcessor.waiting] using inside
    · intro other _ q inside
      exact .inl inside
  have fresh : query.future ∉ pendingQueries.map QueryCallback.future := by
    intro inside
    obtain ⟨q, old, same⟩ := List.mem_map.mp inside
    rw [← content] at old
    have owned := polls.waiting processor q old
    rw [same, mine] at owned
    cases owned
  exact
    { returned := by
        intro q inside
        obtain ⟨old, apart⟩ := List.mem_filter.mp inside
        simp only [ne_eq, decide_not, Bool.not_eq_true', decide_eq_false_iff_not] at apart
        rw [Function.update_of_ne apart]
        exact polls.returned q old
      waiting := by
        intro other q inside
        rcases cases_ other q inside with old | ⟨rfl, rfl⟩
        · have owned := polls.waiting other q old
          rw [kept q.future (by simp [owned])]
          exact owned
        · rw [Function.update_self]
      spent := by
        intro op member
        have owned := polls.spent op member
        rw [kept op (by simp [owned])]
        exact owned
      distinct := by
        refine forall_setProcessor (p := fun _ a => (a.waiting.map QueryCallback.future).Nodup) ?_
          fun other _ => polls.distinct other
        have before := polls.distinct processor
        rw [content] at before
        simp only [AsyncProcessor.waiting, List.map_append, List.map_singleton]
        simpa using before.concat fresh
      once := polls.once
      own_returned := fun q inside => polls.own_returned q (List.mem_filter.mp inside).1
      own_waiting := by
        intro other q inside
        rcases cases_ other q inside with old | ⟨rfl, rfl⟩
        · exact polls.own_waiting other q old
        · exact polls.own_returned q member
      own_invoked := polls.own_invoked
      values := polls.values
      polled := forall_setProcessor (p := fun _ a => ∀ poll, a.poll = some poll → Polled a poll) (by simp)
        fun other _ => polls.polled other
      asked := forall_setProcessor
        (p := fun _ a => ∀ poll, a.poll = some poll →
          ∀ query, (query, true) ∈ poll.looked → query ∈ s.invoked.map Invocation.query)
        (by simp) fun other _ => polls.asked other }

theorem Polled.passed {pendingQueries : List (QueryCallback Callback)} {poll : Poll Callback}
    {query : QueryCallback Callback} (polled : Polled ⟨pendingQueries, some poll⟩ poll) (idle : poll.calling = false)
    (at_ : pendingQueries[poll.it]? = some query) :
    let next := { poll with it := poll.it + 1, looked := poll.looked ++ [(query, false)] }
    Polled ⟨pendingQueries, some next⟩ next := by
  obtain ⟨inside, rfl⟩ := List.getElem?_eq_some_iff.mp at_
  obtain ⟨-, rest, kept⟩ := polled
  simp only [AsyncProcessor.waiting, idle, Bool.false_eq_true, if_false] at rest kept
  constructor
  · simp only [AsyncProcessor.waiting, idle, Bool.false_eq_true, if_false]
    exact inside
  · simp only [AsyncProcessor.waiting, idle, Bool.false_eq_true, if_false, List.map_append, List.map_singleton]
    rw [rest, List.drop_eq_getElem_cons inside]
    simp
  · simp only [AsyncProcessor.waiting, idle, Bool.false_eq_true, if_false]
    rw [← List.take_append_getElem inside, kept]
    simp

theorem Polled.invoked {pendingQueries : List (QueryCallback Callback)} {poll : Poll Callback}
    {query : QueryCallback Callback} (polled : Polled ⟨pendingQueries, some poll⟩ poll) (idle : poll.calling = false)
    (at_ : pendingQueries[poll.it]? = some query) :
    let next := { poll with calling := true, looked := poll.looked ++ [(query, true)] }
    Polled ⟨pendingQueries, some next⟩ next := by
  obtain ⟨inside, rfl⟩ := List.getElem?_eq_some_iff.mp at_
  obtain ⟨-, rest, kept⟩ := polled
  simp only [AsyncProcessor.waiting, idle, Bool.false_eq_true, if_false] at rest kept
  have long : (pendingQueries.take poll.it).length = poll.it := by
    rw [List.length_take]
    omega
  constructor
  · simp only [AsyncProcessor.waiting, if_true, List.length_eraseIdx]
    split <;> omega
  · simp only [AsyncProcessor.waiting, if_true, List.map_append, List.map_singleton]
    rw [rest, List.drop_eq_getElem_cons inside, List.eraseIdx_eq_take_drop_succ, List.drop_left' long]
    simp
  · simp only [AsyncProcessor.waiting, if_true]
    rw [List.eraseIdx_eq_take_drop_succ, List.take_left' long, kept]
    simp

omit [DecidableEq Processor] in
theorem Polls.taken {owner : Nat → Owner Processor} {s : System poolSize Sql Callback Result Processor}
    (polls : Polls owner s) {processor : Processor} {pendingQueries : List (QueryCallback Callback)}
    {query : QueryCallback Callback} {it : Nat} (content : (s.processors processor).waiting = pendingQueries)
    (found : pendingQueries[it]? = some query) :
    (∀ q ∈ pendingQueries.eraseIdx it, q ∈ pendingQueries ∧ q.future ≠ query.future) ∧
      ((pendingQueries.eraseIdx it).map QueryCallback.future).Nodup := by
  obtain ⟨inside, isQuery⟩ := List.getElem?_eq_some_iff.mp found
  have split_ : (query :: pendingQueries.eraseIdx it).Perm pendingQueries :=
    isQuery ▸ List.getElem_cons_eraseIdx_perm inside
  have distinct := polls.distinct processor
  rw [content] at distinct
  have apart := (split_.map QueryCallback.future).nodup_iff.mpr distinct
  rw [List.map_cons, List.nodup_cons] at apart
  refine ⟨?_, apart.2⟩
  intro q stays
  refine ⟨split_.subset (List.mem_cons_of_mem _ stays), ?_⟩
  intro equal
  exact apart.1 (equal ▸ List.mem_map_of_mem stays)

theorem Polls.invokeIfReady {owner : Nat → Owner Processor} {s : System poolSize Sql Callback Result Processor}
    (polls : Polls owner s) {processor : Processor} {pendingQueries : List (QueryCallback Callback)}
    (at_ : s.processors processor = ⟨pendingQueries, none⟩) :
    Polls owner (s.setProcessor processor pendingQueries (some ⟨0, false, pendingQueries, []⟩)) := by
  apply polls.moved
  · simp [at_, AsyncProcessor.waiting]
  · rintro p ⟨⟩
    constructor <;> simp [AsyncProcessor.waiting]
  · rintro p ⟨⟩
    simp

theorem Polls.callbackDone {owner : Nat → Owner Processor} {s : System poolSize Sql Callback Result Processor}
    (polls : Polls owner s) {processor : Processor} {pendingQueries : List (QueryCallback Callback)}
    {poll : Poll Callback} (at_ : s.processors processor = ⟨pendingQueries, some poll⟩)
    (calling : poll.calling = true) :
    Polls owner (s.setProcessor processor (pendingQueries.eraseIdx poll.it) (some { poll with calling := false })) := by
  have polled := polls.polled processor poll (by rw [at_])
  have same : AsyncProcessor.waiting ⟨pendingQueries.eraseIdx poll.it, some { poll with calling := false }⟩ =
      (s.processors processor).waiting := by
    simp [at_, AsyncProcessor.waiting, calling]
  refine polls.moved same ?_ ?_
  · rintro p ⟨⟩
    constructor
    · rw [same]
      exact polled.place
    · rw [same]
      exact polled.rest
    · rw [same]
      exact polled.kept
  · rintro p ⟨⟩
    exact polls.asked processor poll (by rw [at_])

omit [DecidableEq Processor] in
theorem Work.none_lost {s : System poolSize Sql Callback Result Processor} (work : Work s) {op : Nat}
    (made : op < s.queries.length) :
    op ∈ s.pool.taskQueue.queue ∨ (∃ worker, s.pool.workers worker = .running op) ∨
      op ∈ s.executions.map Execution.operation := by
  have member : op ∈ (s.pool.posted : Multiset Nat) := by
    rw [work.posted]
    exact Multiset.mem_coe.mpr (List.mem_range.mpr made)
  rw [work.pool.tasks, Multiset.mem_add, Multiset.mem_add] at member
  rcases member with (finished | held) | queued
  · exact .inr (.inr ((work.executed op).mpr (.inl finished)))
  · obtain ⟨worker, -, inside⟩ := Multiset.mem_sum.mp held
    refine .inr (.inl ⟨worker, ?_⟩)
    cases at_ : s.pool.workers worker with
    | running task =>
        rw [at_] at inside
        rw [Multiset.mem_singleton.mp inside]
    | looking | blocked | left =>
        rw [at_] at inside
        cases inside
  · exact .inl queued

end CppInfra.MySQLConnPool
