import CppInfra.ThreadPool.ThreadPool

set_option autoImplicit false

namespace CppInfra.MySQLConnPool

open Transition ThreadPool

inductive Stage (Result : Type) where
  | popped
  | fetched (result : Result)
  | answered

structure Execution (poolSize : Nat) (Sql Result : Type) where
  operation : Nat
  sql : Sql
  worker : Fin poolSize
  result : Result

-- `future_` is that of the operation with this number.
structure QueryCallback (Callback : Type) where
  future : Nat
  cb : Callback

structure Invocation (Callback Result : Type) where
  query : QueryCallback Callback
  value : Result

-- An `InvokeIfReady` in progress: the place of its iterator, and whether it is in `cb_` there. `start` are the
-- callbacks it began with, `looked` those it has asked, with the answer of `wait_for`.
structure Poll (Callback : Type) where
  it : Nat
  calling : Bool
  start : List (QueryCallback Callback)
  looked : List (QueryCallback Callback × Bool)

structure AsyncProcessor (Callback : Type) where
  pendingQueries : List (QueryCallback Callback)
  poll : Option (Poll Callback)

-- Operations are numbered by the `Query` calls, in the order in which these push them. `promises` are the values
-- that were set, `returned` the results of `Query` that are with the callers.
structure System (poolSize : Nat) (Sql Callback Result Processor : Type) where
  pool : Pool poolSize Nat
  queries : List (Sql × Callback)
  stages : Fin poolSize → Stage Result
  executions : List (Execution poolSize Sql Result)
  promises : Nat → Option Result
  returned : List (QueryCallback Callback)
  processors : Processor → AsyncProcessor Callback
  invoked : List (Invocation Callback Result)

inductive Event (poolSize : Nat) (Sql Callback Result Processor : Type) where
  | query (sql : Sql) (cb : Callback) (choice : Option (Fin poolSize))
  | pop (worker : Fin poolSize)
  | resume (worker : Fin poolSize)
  | wakeUp (worker : Fin poolSize)
  | execute (worker : Fin poolSize) (result : Result)
  | setValue (worker : Fin poolSize)
  | deleteOperation (worker : Fin poolSize)
  | destroy
  | cancel
  | addQueryCallback (processor : Processor) (future : Nat)
  | invokeIfReady (processor : Processor)
  | look (processor : Processor)
  | callbackDone (processor : Processor)

variable {poolSize : Nat} {Sql Callback Result Processor : Type}

-- `sql_` of an operation that is not deleted yet.
def System.operation (s : System poolSize Sql Callback Result Processor) (op : Nat) : Option Sql :=
  if op ∈ s.pool.executed then none else (s.queries[op]?).map Prod.fst

def System.spent (s : System poolSize Sql Callback Result Processor) : List Nat :=
  s.invoked.map fun invocation => invocation.query.future

def System.withPool (s : System poolSize Sql Callback Result Processor) (event : Pool.Event poolSize Nat) :
    Option (System poolSize Sql Callback Result Processor) := do
  let pool ← Pool.step s.pool event
  some { s with pool := pool }

variable [DecidableEq Processor]

def System.setProcessor (s : System poolSize Sql Callback Result Processor) (processor : Processor)
    (pendingQueries : List (QueryCallback Callback)) (poll : Option (Poll Callback)) :
    System poolSize Sql Callback Result Processor :=
  { s with processors := Function.update s.processors processor ⟨pendingQueries, poll⟩ }

-- `it->InvokeIfReady()` up to the call of `cb_`; at `end()` the poll is over.
def System.look (s : System poolSize Sql Callback Result Processor) (processor : Processor)
    (pendingQueries : List (QueryCallback Callback)) (poll : Poll Callback) :
    Option (System poolSize Sql Callback Result Processor) :=
  match pendingQueries[poll.it]? with
  | none => some (s.setProcessor processor pendingQueries none)
  | some query =>
      if query.future ∈ s.spent then none
      else
        match s.promises query.future with
        | none =>
            let next := { poll with it := poll.it + 1, looked := poll.looked ++ [(query, false)] }
            some (s.setProcessor processor pendingQueries (some next))
        | some value =>
            let next := { poll with calling := true, looked := poll.looked ++ [(query, true)] }
            some { s.setProcessor processor pendingQueries (some next) with
              invoked := s.invoked ++ [⟨query, value⟩] }

-- No result where the event is not the next one of its thread, and where a deleted operation, a promise that has
-- its value or a future without a state would be used. The calls of one processor are made by one thread.
def step (s : System poolSize Sql Callback Result Processor) :
    Event poolSize Sql Callback Result Processor → Option (System poolSize Sql Callback Result Processor)
  | .query sql cb choice => do
      let s' ← s.withPool (.post s.queries.length choice)
      some { s' with
        queries := s.queries ++ [(sql, cb)]
        returned := s.returned ++ [⟨s.queries.length, cb⟩] }
  | .pop worker => s.withPool (.pop worker)
  | .resume worker => s.withPool (.resume worker)
  | .wakeUp worker => s.withPool (.wakeUp worker)
  | .execute worker result =>
      match s.pool.workers worker, s.stages worker with
      | .running op, .popped => do
          let sql ← s.operation op
          some { s with
            stages := Function.update s.stages worker (.fetched result)
            executions := s.executions ++ [⟨op, sql, worker, result⟩] }
      | _, _ => none
  | .setValue worker =>
      match s.pool.workers worker, s.stages worker with
      | .running op, .fetched result => do
          let _ ← s.operation op
          match s.promises op with
          | some _ => none
          | none =>
              some { s with
                stages := Function.update s.stages worker .answered
                promises := Function.update s.promises op (some result) }
      | _, _ => none
  | .deleteOperation worker =>
      match s.stages worker with
      | .answered => do
          let s' ← s.withPool (.finish worker)
          some { s' with stages := Function.update s.stages worker .popped }
      | _ => none
  | .destroy => s.withPool .destroy
  | .cancel => s.withPool .cancel
  | .addQueryCallback processor future =>
      match s.processors processor, s.returned.find? fun query => query.future = future with
      | ⟨pendingQueries, none⟩, some query =>
          some { s.setProcessor processor (pendingQueries ++ [query]) none with
            returned := s.returned.filter fun query => query.future ≠ future }
      | _, _ => none
  | .invokeIfReady processor =>
      match s.processors processor with
      | ⟨pendingQueries, none⟩ => some (s.setProcessor processor pendingQueries (some ⟨0, false, pendingQueries, []⟩))
      | _ => none
  | .look processor =>
      match s.processors processor with
      | ⟨pendingQueries, some poll⟩ => if poll.calling then none else s.look processor pendingQueries poll
      | _ => none
  | .callbackDone processor =>
      match s.processors processor with
      | ⟨pendingQueries, some poll⟩ =>
          if poll.calling then
            some (s.setProcessor processor (pendingQueries.eraseIdx poll.it) (some { poll with calling := false }))
          else none
      | _ => none

end CppInfra.MySQLConnPool
