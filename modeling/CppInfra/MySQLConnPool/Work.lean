import CppInfra.MySQLConnPool.Query

set_option autoImplicit false

namespace CppInfra.MySQLConnPool

open Transition ThreadPool Pool

section Workers

variable {poolSize : Nat} {p t : Pool poolSize Nat} {worker : Fin poolSize} {op : Nat}

theorem held_without (workers : Fin poolSize → Worker Nat) (worker : Fin poolSize) :
    held (Function.update workers worker .looking) + load (workers worker) = held workers :=
  (held_update workers worker .looking).trans (add_zero _)

theorem load_le_held (workers : Fin poolSize → Worker Nat) (worker : Fin poolSize) :
    load (workers worker) ≤ held workers := by
  rw [← held_without workers worker]
  exact Multiset.le_add_left _ _

theorem running_exclusive (inv : Pool.Inv p) (distinct : p.posted.Nodup) (running : p.workers worker = .running op) :
    op ∈ p.posted ∧ op ∉ p.executed ∧ ∀ other, p.workers other = .running op → other = worker := by
  have nodup : ((p.executed : Multiset Nat) + held p.workers + p.taskQueue.queue).Nodup := by
    rw [← inv.tasks]
    exact Multiset.coe_nodup.mpr distinct
  have inside : op ∈ held p.workers := by
    have le := load_le_held p.workers worker
    rw [running] at le
    exact Multiset.mem_of_le le (Multiset.mem_singleton_self op)
  obtain ⟨left, -, -⟩ := Multiset.nodup_add.mp nodup
  obtain ⟨-, once, apart⟩ := Multiset.nodup_add.mp left
  refine ⟨?_, ?_, ?_⟩
  · have member : op ∈ (p.posted : Multiset Nat) := by
      rw [inv.tasks]
      exact Multiset.mem_add.mpr (.inl (Multiset.mem_add.mpr (.inr inside)))
    exact member
  · intro finished
    exact Multiset.disjoint_left.mp apart finished inside
  · intro other also
    by_contra different
    have without := held_without p.workers worker
    rw [running] at without
    have le := load_le_held (Function.update p.workers worker .looking) other
    rw [Function.update_of_ne different, also] at le
    rw [← without] at once
    exact Multiset.disjoint_left.mp (Multiset.nodup_add.mp once).2.2
      (Multiset.mem_of_le le (Multiset.mem_singleton_self op)) (Multiset.mem_singleton_self op)

def Quiet : Pool.Event poolSize Nat → Prop
  | .pop _ | .resume _ | .wakeUp _ | .destroy | .cancel => True
  | _ => False

structure Calm (p t : Pool poolSize Nat) : Prop where
  posted : t.posted = p.posted
  executed : t.executed = p.executed
  workers : ∀ worker, t.workers worker = p.workers worker ∨ ∀ op, p.workers worker ≠ .running op

theorem popReturns_calm {result : BlockingQueue Nat (Fin poolSize) × BlockingQueue.Outcome Nat}
    (idle : ∀ op, p.workers worker ≠ .running op) : Calm p (p.popReturns worker result) where
  posted := rfl
  executed := rfl
  workers := by
    intro other
    by_cases same : other = worker
    · subst same
      exact .inr idle
    · exact .inl (by simp [Pool.popReturns, Function.update_of_ne same])

theorem step_calm {event : Pool.Event poolSize Nat} (quiet : Quiet event) (taken : Pool.step p event = some t) :
    Calm p t := by
  cases event with
  | post task choice => cases quiet
  | postFrom worker task choice => cases quiet
  | finish worker => cases quiet
  | pop worker =>
      simp only [Pool.step] at taken
      split at taken
      · rename_i at_
        obtain ⟨result, -, rfl⟩ := Option.map_eq_some_iff.mp taken
        exact popReturns_calm (by simp [at_])
      · cases taken
  | resume worker =>
      simp only [Pool.step] at taken
      split at taken
      · rename_i at_
        obtain ⟨result, -, rfl⟩ := Option.map_eq_some_iff.mp taken
        exact popReturns_calm (by simp [at_])
      · cases taken
  | wakeUp worker =>
      obtain ⟨taskQueue, -, rfl⟩ := Option.map_eq_some_iff.mp taken
      exact ⟨rfl, rfl, fun _ => .inl rfl⟩
  | destroy =>
      simp only [Pool.step] at taken
      split at taken
      · cases taken
      · obtain rfl := Option.some.inj taken
        exact ⟨rfl, rfl, fun _ => .inl rfl⟩
  | cancel =>
      simp only [Pool.step] at taken
      split at taken
      · obtain rfl := Option.some.inj taken
        exact ⟨rfl, rfl, fun _ => .inl rfl⟩
      · cases taken

theorem post_spec {choice : Option (Fin poolSize)} (taken : Pool.step p (.post op choice) = some t) :
    t.workers = p.workers ∧ t.executed = p.executed ∧ t.posted = p.posted ++ [op] := by
  simp only [Pool.step] at taken
  split at taken
  · cases taken
  · obtain ⟨taskQueue, -, rest⟩ := Option.bind_eq_some_iff.mp taken
    obtain rfl := Option.some.inj rest
    exact ⟨rfl, rfl, rfl⟩

theorem finish_spec (taken : Pool.step p (.finish worker) = some t) :
    ∃ op, p.workers worker = .running op ∧ t.workers = Function.update p.workers worker .looking ∧
      t.executed = p.executed ++ [op] ∧ t.posted = p.posted := by
  simp only [Pool.step] at taken
  split at taken
  · rename_i op at_
    obtain rfl := Option.some.inj taken
    exact ⟨op, at_, rfl, rfl, rfl⟩
  · cases taken

end Workers

variable {poolSize : Nat} {Sql Callback Result Processor : Type}

structure Work (s : System poolSize Sql Callback Result Processor) : Prop where
  pool : Pool.Inv s.pool
  posted : s.pool.posted = List.range s.queries.length
  idle : ∀ worker, (∀ op, s.pool.workers worker ≠ .running op) → s.stages worker = .popped
  once : (s.executions.map Execution.operation).Nodup
  executed : ∀ op, op ∈ s.executions.map Execution.operation ↔
    op ∈ s.pool.executed ∨ ∃ worker, s.pool.workers worker = .running op ∧ s.stages worker ≠ .popped
  own : ∀ execution ∈ s.executions, ∃ cb, s.queries[execution.operation]? = some (execution.sql, cb)
  fetched : ∀ worker op result, s.pool.workers worker = .running op → s.stages worker = .fetched result →
    s.promises op = none ∧ ∃ execution ∈ s.executions, execution.operation = op ∧ execution.result = result
  answered : ∀ op, (op ∈ s.pool.executed ∨ ∃ worker, s.pool.workers worker = .running op ∧
    s.stages worker = .answered) → s.promises op ≠ none
  promised : ∀ op result, s.promises op = some result →
    ∃ execution ∈ s.executions, execution.operation = op ∧ execution.result = result

theorem Work.exclusive {s : System poolSize Sql Callback Result Processor} (work : Work s) {worker : Fin poolSize}
    {op : Nat} (running : s.pool.workers worker = .running op) :
    op < s.queries.length ∧ op ∉ s.pool.executed ∧ ∀ other, s.pool.workers other = .running op → other = worker := by
  have distinct : s.pool.posted.Nodup := by
    rw [work.posted]
    exact List.nodup_range
  obtain ⟨posted, rest⟩ := running_exclusive work.pool distinct running
  rw [work.posted, List.mem_range] at posted
  exact ⟨posted, rest⟩

theorem Work.operation {s : System poolSize Sql Callback Result Processor} (work : Work s) {worker : Fin poolSize}
    {op : Nat} (running : s.pool.workers worker = .running op) :
    ∃ sql cb, s.operation op = some sql ∧ s.queries[op]? = some (sql, cb) := by
  obtain ⟨made, unfinished, -⟩ := work.exclusive running
  have found := List.getElem?_eq_getElem made
  exact ⟨_, _, by simp [System.operation, unfinished, found], found⟩

theorem Work.calm {s : System poolSize Sql Callback Result Processor} (work : Work s) {pool : Pool poolSize Nat}
    (inv : Pool.Inv pool) (calm : Calm s.pool pool) : Work { s with pool := pool } := by
  have busy : ∀ worker, s.stages worker ≠ .popped → pool.workers worker = s.pool.workers worker := by
    intro worker stage
    rcases calm.workers worker with same | idle
    · exact same
    · exact absurd (work.idle worker idle) stage
  exact
    { work with
      pool := inv
      posted := calm.posted.trans work.posted
      idle := by
        intro worker idle
        by_contra stage
        refine stage (work.idle worker ?_)
        rw [← busy worker stage]
        exact idle
      executed := by
        intro op
        rw [work.executed op, calm.executed]
        refine or_congr Iff.rfl (exists_congr fun worker => and_congr_left fun stage => ?_)
        rw [busy worker stage]
      fetched := by
        intro worker op result running stage
        refine work.fetched worker op result ?_ stage
        rw [← busy worker (fun popped => by cases popped.symm.trans stage)]
        exact running
      answered := by
        intro op answered
        refine work.answered op ?_
        rw [calm.executed] at answered
        refine answered.imp_right ?_
        rintro ⟨worker, running, stage⟩
        refine ⟨worker, ?_, stage⟩
        rw [← busy worker (fun popped => by cases popped.symm.trans stage)]
        exact running }

theorem Work.query {s : System poolSize Sql Callback Result Processor} (work : Work s) {pool : Pool poolSize Nat}
    (inv : Pool.Inv pool) {choice : Option (Fin poolSize)} {sql : Sql} {cb : Callback}
    {returned : List (QueryCallback Callback)}
    (pushed : Pool.step s.pool (.post s.queries.length choice) = some pool) :
    Work { s with pool := pool, queries := s.queries ++ [(sql, cb)], returned := returned } := by
  obtain ⟨workers, executed, posted⟩ := post_spec pushed
  exact
    { pool := inv
      posted := by
        rw [posted, work.posted, List.length_append, List.length_singleton, List.range_succ]
      idle := by
        rw [workers]
        exact work.idle
      once := work.once
      executed := by
        rw [workers, executed]
        exact work.executed
      own := by
        intro execution member
        obtain ⟨callback, found⟩ := work.own execution member
        have made := (List.getElem?_eq_some_iff.mp found).1
        exact ⟨callback, by rw [List.getElem?_append_left made, found]⟩
      fetched := by
        rw [workers]
        exact work.fetched
      answered := by
        rw [workers, executed]
        exact work.answered
      promised := work.promised }

theorem Work.execute {s : System poolSize Sql Callback Result Processor} (work : Work s) {worker : Fin poolSize}
    {op : Nat} {sql : Sql} {cb : Callback} (result : Result) (running : s.pool.workers worker = .running op)
    (stage : s.stages worker = .popped) (found : s.queries[op]? = some (sql, cb)) :
    Work { s with
      stages := Function.update s.stages worker (.fetched result)
      executions := s.executions ++ [⟨op, sql, worker, result⟩] } := by
  obtain ⟨-, unfinished, only⟩ := work.exclusive running
  -- The operation is new to the log, because its only worker has just popped it.
  have fresh : op ∉ s.executions.map Execution.operation := by
    rw [work.executed op]
    rintro (finished | ⟨other, also, behind⟩)
    · exact unfinished finished
    · rw [only other also] at behind
      exact behind stage
  have unset : s.promises op = none := by
    by_contra value
    obtain ⟨r, set⟩ := Option.ne_none_iff_exists'.mp value
    obtain ⟨execution, member, rfl, -⟩ := work.promised op r set
    exact fresh (List.mem_map_of_mem member)
  exact
    { work with
      idle := by
        intro other idle
        have apart : other ≠ worker := by
          rintro rfl
          exact idle op running
        simp only [Function.update_of_ne apart]
        exact work.idle other idle
      once := by
        rw [List.map_append]
        simpa using work.once.concat fresh
      executed := by
        intro x
        rw [List.map_append, List.mem_append, work.executed x, List.map_singleton, List.mem_singleton]
        constructor
        · rintro ((finished | ⟨other, runs, behind⟩) | rfl)
          · exact .inl finished
          · have apart : other ≠ worker := by
              rintro rfl
              exact behind stage
            exact .inr ⟨other, runs, by simpa only [Function.update_of_ne apart] using behind⟩
          · exact .inr ⟨worker, running, by simp⟩
        · rintro (finished | ⟨other, runs, behind⟩)
          · exact .inl (.inl finished)
          · by_cases same : other = worker
            · subst same
              rw [running, Worker.running.injEq] at runs
              exact .inr runs.symm
            · simp only [Function.update_of_ne same] at behind
              exact .inl (.inr ⟨other, runs, behind⟩)
      own := by
        intro execution member
        rcases List.mem_append.mp member with old | last
        · exact work.own execution old
        · rw [List.mem_singleton.mp last]
          exact ⟨cb, found⟩
      fetched := by
        intro other x r runs at_
        by_cases same : other = worker
        · subst same
          rw [running, Worker.running.injEq] at runs
          simp only [Function.update_self, Stage.fetched.injEq] at at_
          subst runs at_
          exact ⟨unset, ⟨op, sql, other, result⟩, by simp, rfl, rfl⟩
        · simp only [Function.update_of_ne same] at at_
          obtain ⟨none_, execution, member, values⟩ := work.fetched other x r runs at_
          exact ⟨none_, execution, List.mem_append_left _ member, values⟩
      answered := by
        intro x answered
        refine work.answered x (answered.imp_right ?_)
        rintro ⟨other, runs, at_⟩
        have apart : other ≠ worker := by
          rintro rfl
          simp at at_
        exact ⟨other, runs, by simpa only [Function.update_of_ne apart] using at_⟩
      promised := by
        intro x r set
        obtain ⟨execution, member, values⟩ := work.promised x r set
        exact ⟨execution, List.mem_append_left _ member, values⟩ }

theorem Work.setValue {s : System poolSize Sql Callback Result Processor} (work : Work s) {worker : Fin poolSize}
    {op : Nat} {result : Result} (running : s.pool.workers worker = .running op)
    (stage : s.stages worker = .fetched result) :
    Work { s with
      stages := Function.update s.stages worker .answered
      promises := Function.update s.promises op (some result) } := by
  obtain ⟨-, -, only⟩ := work.exclusive running
  obtain ⟨-, mine⟩ := work.fetched worker op result running stage
  exact
    { work with
      idle := by
        intro other idle
        have apart : other ≠ worker := by
          rintro rfl
          exact idle op running
        simp only [Function.update_of_ne apart]
        exact work.idle other idle
      executed := by
        intro x
        rw [work.executed x]
        refine or_congr Iff.rfl (exists_congr fun other => and_congr_right fun _ => ?_)
        by_cases same : other = worker
        · subst same
          simp [stage]
        · simp only [Function.update_of_ne same]
      fetched := by
        intro other x r runs at_
        have apart : other ≠ worker := by
          rintro rfl
          simp at at_
        have different : x ≠ op := by
          rintro rfl
          exact apart (only other runs)
        simp only [Function.update_of_ne apart] at at_
        simp only [Function.update_of_ne different]
        exact work.fetched other x r runs at_
      answered := by
        intro x answered
        by_cases same : x = op
        · subst same
          simp
        · simp only [Function.update_of_ne same]
          refine work.answered x (answered.imp_right ?_)
          rintro ⟨other, runs, at_⟩
          have apart : other ≠ worker := by
            rintro rfl
            rw [running, Worker.running.injEq] at runs
            exact same runs.symm
          exact ⟨other, runs, by simpa only [Function.update_of_ne apart] using at_⟩
      promised := by
        intro x r set
        by_cases same : x = op
        · subst same
          simp only [Function.update_self, Option.some.injEq] at set
          subst set
          exact mine
        · simp only [Function.update_of_ne same] at set
          exact work.promised x r set }

theorem Work.deleteOperation {s : System poolSize Sql Callback Result Processor} (work : Work s)
    {pool : Pool poolSize Nat} (inv : Pool.Inv pool) {worker : Fin poolSize} (stage : s.stages worker = .answered)
    (finished : Pool.step s.pool (.finish worker) = some pool) :
    Work { s with pool := pool, stages := Function.update s.stages worker .popped } := by
  obtain ⟨op, running, workers, executed, posted⟩ := finish_spec finished
  have others : ∀ other, other ≠ worker → pool.workers other = s.pool.workers other := by
    intro other apart
    rw [workers, Function.update_of_ne apart]
  have looks : pool.workers worker = .looking := by rw [workers, Function.update_self]
  exact
    { work with
      pool := inv
      posted := posted.trans work.posted
      idle := by
        intro other idle
        by_cases same : other = worker
        · subst same
          simp
        · simp only [Function.update_of_ne same]
          refine work.idle other ?_
          rw [← others other same]
          exact idle
      executed := by
        intro x
        rw [work.executed x, executed, List.mem_append, List.mem_singleton]
        constructor
        · rintro (old | ⟨other, runs, behind⟩)
          · exact .inl (.inl old)
          · by_cases same : other = worker
            · subst same
              rw [running, Worker.running.injEq] at runs
              exact .inl (.inr runs.symm)
            · exact .inr ⟨other, (others other same).trans runs,
                by simpa only [Function.update_of_ne same] using behind⟩
        · rintro ((old | rfl) | ⟨other, runs, behind⟩)
          · exact .inl old
          · exact .inr ⟨worker, running, by simp [stage]⟩
          · have apart : other ≠ worker := by
              rintro rfl
              simp at behind
            exact .inr ⟨other, (others other apart).symm.trans runs,
              by simpa only [Function.update_of_ne apart] using behind⟩
      fetched := by
        intro other x r runs at_
        have apart : other ≠ worker := by
          rintro rfl
          simp at at_
        simp only [Function.update_of_ne apart] at at_
        exact work.fetched other x r ((others other apart).symm.trans runs) at_
      answered := by
        intro x answered
        rw [executed, List.mem_append, List.mem_singleton] at answered
        rcases answered with (old | rfl) | ⟨other, runs, at_⟩
        · exact work.answered x (.inl old)
        · exact work.answered x (.inr ⟨worker, running, stage⟩)
        · have apart : other ≠ worker := by
            rintro rfl
            simp at at_
          simp only [Function.update_of_ne apart] at at_
          exact work.answered x (.inr ⟨other, (others other apart).symm.trans runs, at_⟩) }

theorem Work.all_left {s : System poolSize Sql Callback Result Processor} (work : Work s)
    (left : ∀ worker, s.pool.workers worker = .left) :
    (s.executions.map Execution.operation).Perm (List.range s.queries.length) ∧
      ∀ op < s.queries.length, s.promises op ≠ none := by
  have finished := work.pool.all_left left
  rw [work.posted] at finished
  have nobody : ∀ op, op ∈ s.executions.map Execution.operation ↔ op ∈ s.pool.executed := by
    intro op
    rw [work.executed op]
    simp [left]
  refine ⟨?_, fun op made => work.answered op (.inl (finished.mem_iff.mpr (List.mem_range.mpr made)))⟩
  refine ((List.perm_ext_iff_of_nodup work.once ?_).mpr nobody).trans finished
  exact finished.nodup_iff.mpr List.nodup_range

end CppInfra.MySQLConnPool
