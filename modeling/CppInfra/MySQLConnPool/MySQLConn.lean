import CppInfra.MySQLConnPool.Open

set_option autoImplicit false

namespace CppInfra.MySQLConnPool.MySQLConn

-- `Query` does not look at the schema.
inductive Pointer where
  | null
  | wild
  | live
  deriving DecidableEq, Repr

def Held.pointer : Held → Pointer
  | .null => .null
  | .wild => .wild
  | .live _ => .live

def Pointer.held : Pointer → Held
  | .null => .null
  | .wild => .wild
  | .live => .live true

def openConn (attempts : List Attempt) (conn : Pointer) : Except Fault (Pointer × Int) :=
  (openReport attempts conn.held).map fun opening => (opening.held.pointer, opening.err)

-- A call of `Query`: `executeQuery` returns or throws, and then the driver answers a new `Open`.
structure Call where
  threw : Option Int
  attempts : List Attempt
  deriving DecidableEq, Repr

-- The result says whether it is other than `nullptr`.
def query (conn : Pointer) (call : Call) : Except Fault (Pointer × Bool) :=
  match conn with
  | .null => .error .down
  | .wild => .error .down
  | .live =>
      match call.threw with
      | none => .ok (conn, true)
      | some code =>
          (handlerException (openReport call.attempts) conn.held code).map fun left => (left.1.pointer, false)

def queries : Pointer → List Call → Except Fault Pointer
  | conn, [] => .ok conn
  | conn, call :: rest => (query conn call).bind fun result => queries result.1 rest

-- `conn->Open()` in `InitPool`, then the queries of the worker.
def run (conn : Pointer) (attempts : List Attempt) (calls : List Call) : Except Fault Pointer :=
  (openConn attempts conn).bind fun result => queries result.1 calls

-- No call uses `conn_` while it is down, and neither does the next `Query`, whichever it is.
def NeverDown (conn : Pointer) (attempts : List Attempt) (calls : List Call) : Prop :=
  ∀ next, run conn attempts (calls ++ [next]) ≠ .error .down

inductive Ending where
  | up
  | down
  | never
  deriving DecidableEq, Repr

-- Each attempt in which the server has gone away is followed by another one; the first other one counts.
def Ending.ofAttempts : List Attempt → Ending
  | [] => .never
  | .null :: _ => .down
  | .threw code :: rest => if goneAway code then ofAttempts rest else .down
  | .connected none :: _ => .up
  | .connected (some code) :: rest => if goneAway code then ofAttempts rest else .up

-- In the first `Open` the server must not have gone away before `conn_` is written, unless it is null by chance.
def Ending.ofFirst (conn : Pointer) (attempts : List Attempt) : Ending :=
  match conn, attempts with
  | .wild, .threw _ :: _ => .down
  | _, _ => ofAttempts attempts

def Call.ending (call : Call) : Ending :=
  match call.threw with
  | none => .up
  | some code => if goneAway code then .ofAttempts call.attempts else .up

def Reconnects (conn : Pointer) (attempts : List Attempt) (calls : List Call) : Prop :=
  .down ∉ (Ending.ofFirst conn attempts :: calls.map Call.ending).takeWhile (· ≠ .never)

instance (conn : Pointer) (attempts : List Attempt) (calls : List Call) : Decidable (Reconnects conn attempts calls) :=
  inferInstanceAs (Decidable (¬ _))

def Ending.left : Ending → Except Fault Pointer
  | .up => .ok .live
  | .down => .ok .null
  | .never => .error .waits

variable {conn : Pointer}

theorem left_eq (attempts : List Attempt) :
    (Ending.ofAttempts attempts).left =
      (attempts.find? (!lost ·)).elim (.error .waits) fun last => .ok (leaves last).pointer := by
  induction attempts with
  | nil => rfl
  | cons attempt rest ih =>
      cases attempt with
      | null => rfl
      | threw code =>
          by_cases gone : goneAway code
          · rw [List.find?_cons_of_neg (by simp [lost, thrown, gone]), ← ih, Ending.ofAttempts, if_pos gone]
          · rw [List.find?_cons_of_pos (by simp [lost, thrown, gone]), Ending.ofAttempts, if_neg gone]
            rfl
      | connected setSchema =>
          cases setSchema with
          | none => rfl
          | some code =>
              by_cases gone : goneAway code
              · rw [List.find?_cons_of_neg (by simp [lost, thrown, gone]), ← ih, Ending.ofAttempts, if_pos gone]
              · rw [List.find?_cons_of_pos (by simp [lost, thrown, gone]), Ending.ofAttempts, if_neg gone]
                rfl

theorem reopen_left (attempts : List Attempt) :
    (openReport attempts .null).map (·.held.pointer) = (Ending.ofAttempts attempts).left := by
  have split : (openReport attempts .null).map (·.held.pointer) =
      ((openReport attempts .null).map Opening.held).map Held.pointer := by
    cases openReport attempts .null <;> rfl
  rw [split, openReport_null, left_eq]
  cases attempts.find? (!lost ·) <;> rfl

theorem openConn_null (attempts : List Attempt) :
    (openConn attempts .null).map Prod.fst = (Ending.ofAttempts attempts).left := by
  rw [← reopen_left, openConn, Pointer.held]
  cases openReport attempts .null <;> rfl

theorem query_live (call : Call) : (query .live call).map Prod.fst = call.ending.left := by
  cases threw : call.threw with
  | none => simp [query, Call.ending, threw, Except.map, Ending.left]
  | some code =>
      simp only [query, Call.ending, threw]
      split_ifs with gone
      · rw [handlerException_lost _ (by simp [Pointer.held]) gone, ← reopen_left]
        cases openReport call.attempts .null <;> rfl
      · rw [handlerException_kept _ _ gone]
        rfl

theorem query_down (down : conn ≠ .live) (call : Call) : query conn call = .error .down := by
  cases conn with
  | null => rfl
  | wild => rfl
  | live => exact absurd rfl down

theorem queries_down (down : conn ≠ .live) (calls : List Call) (next : Call) :
    queries conn (calls ++ [next]) = .error .down := by
  cases calls with
  | nil => rw [List.nil_append, queries, query_down down]; rfl
  | cons call rest => rw [List.cons_append, queries, query_down down]; rfl

theorem bind_fst {α β γ : Type} (result : Except Fault (α × β)) (rest : α → Except Fault γ) :
    (result.bind fun pair => rest pair.1) = (result.map Prod.fst).bind rest := by
  cases result <;> rfl

theorem queries_live (call : Call) (rest : List Call) :
    queries .live (call :: rest) = call.ending.left.bind fun conn => queries conn rest := by
  rw [← query_live, ← bind_fst]
  rfl

theorem neverDown_iff (ending : Ending) (calls : List Call) :
    (∀ next, (ending.left.bind fun conn => queries conn (calls ++ [next])) ≠ .error .down) ↔
      .down ∉ (ending :: calls.map Call.ending).takeWhile (· ≠ .never) := by
  induction calls generalizing ending with
  | nil =>
      cases ending with
      | up =>
          refine iff_of_true ?_ (by decide)
          intro next
          change queries .live [next] ≠ .error .down
          rw [queries_live]
          cases next.ending <;> simp [Ending.left, Except.bind, queries]
      | down => exact iff_of_false (fun safe => safe ⟨none, []⟩ rfl) (by decide)
      | never => exact iff_of_true (fun _ => by simp [Ending.left, Except.bind]) (by decide)
  | cons call rest ih =>
      cases ending with
      | up =>
          have skip : Ending.down ∉ (Ending.up :: (call :: rest).map Call.ending).takeWhile (· ≠ .never) ↔
              Ending.down ∉ (call.ending :: rest.map Call.ending).takeWhile (· ≠ .never) := by
            simp [List.takeWhile_cons]
          refine Iff.trans (forall_congr' fun next => ?_) ((ih call.ending).trans skip.symm)
          rw [← queries_live]
          rfl
      | down => exact iff_of_false (fun safe => safe ⟨none, []⟩ rfl) (by simp)
      | never => exact iff_of_true (fun _ => by simp [Ending.left, Except.bind]) (by simp)

theorem run_null (attempts : List Attempt) (calls : List Call) :
    run .null attempts calls = (Ending.ofAttempts attempts).left.bind fun conn => queries conn calls := by
  rw [← openConn_null, ← bind_fst]
  rfl

theorem run_wild (code : Int) (rest : List Attempt) (calls : List Call) (next : Call) :
    run .wild (.threw code :: rest) (calls ++ [next]) = .error .down := by
  rw [run, openConn, Pointer.held]
  by_cases gone : goneAway code
  · rw [openReport_wild rfl gone rfl]
    rfl
  · rw [openReport_kept rfl gone]
    exact queries_down (show Pointer.wild ≠ .live by decide) calls next

theorem query_neverDown_iff (conn : Pointer) (fresh : conn ≠ .live) (attempts : List Attempt) (calls : List Call) :
    NeverDown conn attempts calls ↔ Reconnects conn attempts calls := by
  have written : NeverDown .null attempts calls ↔ Reconnects .null attempts calls := by
    simp only [NeverDown, run_null]
    exact neverDown_iff (.ofAttempts attempts) calls
  cases conn with
  | live => exact absurd rfl fresh
  | null => exact written
  | wild =>
      -- the old `conn_` matters only when the first `connect` throws
      cases attempts with
      | nil => exact written
      | cons attempt rest =>
          cases attempt with
          | null => exact written
          | threw code =>
              refine iff_of_false (fun safe => safe ⟨none, []⟩ (run_wild code rest calls _)) ?_
              simp [Reconnects, Ending.ofFirst]
          | connected setSchema => cases setSchema <;> exact written

def lostConnection (second : Attempt) : List Call :=
  [⟨none, []⟩, ⟨some 2006, [.threw 2013, second]⟩, ⟨some 1064, []⟩]

theorem query_neverDown_iff_back :
    NeverDown .wild [.connected none] (lostConnection (.connected none)) :=
  (query_neverDown_iff .wild (by decide) _ _).mpr (by decide)

theorem query_neverDown_iff_lost :
    run .wild [.connected none] (lostConnection (.threw 2002)) = .error .down ∧
      run .wild [.connected none] (lostConnection .null) = .error .down ∧
      ¬ NeverDown .wild [.connected none] (lostConnection (.threw 2002)) := by
  refine ⟨by decide, by decide, fun safe => safe ⟨none, []⟩ ?_⟩
  decide

end CppInfra.MySQLConnPool.MySQLConn
