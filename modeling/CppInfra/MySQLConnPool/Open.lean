import Mathlib.Data.List.Basic

set_option autoImplicit false

namespace CppInfra.MySQLConnPool.MySQLConn

-- What `conn_` holds: the constructor leaves in it whatever the memory held before, null or anything else. Of a
-- connection it says whether its last `setSchema` returned.
inductive Held where
  | null
  | wild
  | live (schema : Bool)
  deriving DecidableEq, Repr

-- What the driver does in one pass through the `try` block of `Open`: `connect` returns null, throws or connects, and
-- then `setSchema` returns or throws. The codes are those of `getErrorCode`.
inductive Attempt where
  | null
  | threw (code : Int)
  | connected (setSchema : Option Int)
  deriving DecidableEq, Repr

-- `down` is a use of `conn_` while it holds no open connection. `waits` is an `Open` that has not returned: the
-- driver was asked once more than it is known to have answered.
inductive Fault where
  | down
  | waits
  deriving DecidableEq, Repr

-- MySQL server has gone away.
def goneAway (code : Int) : Bool := code = 2006 ∨ code = 2013

structure Opening where
  held : Held
  err : Int
  connects : Nat
  deriving DecidableEq, Repr

def close : Held → Except Fault Held
  | .null => .ok .null
  | .wild => .error .down
  | .live _ => .ok .null

-- The number of calls of `connect` goes with what `conn_` holds; the result of the nested `Open` is not used.
def handlerException (reopen : Held → Except Fault Opening) (held : Held) (code : Int) : Except Fault (Held × Nat) :=
  if goneAway code then
    (close held).bind fun held => (reopen held).map fun opening => (opening.held, opening.connects)
  else .ok (held, 0)

-- The exception of `connect` leaves `conn_` as it was, that of `setSchema` leaves a connection without a schema.
def openReport : List Attempt → Held → Except Fault Opening
  | [], _ => .error .waits
  | .null :: _, _ => .ok ⟨.null, -1, 1⟩
  | .threw code :: rest, held =>
      (handlerException (openReport rest) held code).map fun left => ⟨left.1, code, left.2 + 1⟩
  | .connected none :: _, _ => .ok ⟨.live true, 0, 1⟩
  | .connected (some code) :: rest, _ =>
      (handlerException (openReport rest) (.live false) code).map fun left => ⟨left.1, code, left.2 + 1⟩

def thrown : Attempt → Option Int
  | .null => none
  | .threw code => some code
  | .connected setSchema => setSchema

-- The server has gone away: there will be another attempt.
def lost (attempt : Attempt) : Bool := (thrown attempt).any goneAway

-- What an attempt after which there is no other leaves in a `conn_` that was null.
def leaves : Attempt → Held
  | .null => .null
  | .threw _ => .null
  | .connected setSchema => .live setSchema.isNone

variable {attempts : List Attempt} {held : Held} {code : Int}

def raisedOn (held : Held) : Attempt → Held
  | .connected _ => .live false
  | _ => held

theorem openReport_thrown {attempt : Attempt} (threw : thrown attempt = some code) (rest : List Attempt) (held : Held) :
    openReport (attempt :: rest) held =
      (handlerException (openReport rest) (raisedOn held attempt) code).map fun left => ⟨left.1, code, left.2 + 1⟩ := by
  cases attempt with
  | null => cases threw
  | threw code => cases threw; rfl
  | connected setSchema => cases threw; rfl

theorem raisedOn_wild {attempt : Attempt} (threw : thrown attempt = some code) :
    raisedOn held attempt = .wild ↔ attempt = .threw code ∧ held = .wild := by
  cases attempt <;> simp_all [thrown, raisedOn]

theorem raisedOn_schema {attempt : Attempt} (threw : thrown attempt = some code) :
    raisedOn held attempt = .live true ↔ attempt = .threw code ∧ held = .live true := by
  cases attempt <;> simp_all [thrown, raisedOn]

theorem close_eq (known : held ≠ .wild) : close held = .ok .null := by
  cases held with
  | wild => exact absurd rfl known
  | null | live schema => rfl

theorem handlerException_kept (reopen : Held → Except Fault Opening) (held : Held) (stays : ¬ goneAway code) :
    handlerException reopen held code = .ok (held, 0) :=
  if_neg stays

theorem handlerException_lost (reopen : Held → Except Fault Opening) (known : held ≠ .wild) (gone : goneAway code) :
    handlerException reopen held code = (reopen .null).map fun opening => (opening.held, opening.connects) := by
  rw [handlerException, if_pos gone, close_eq known]
  rfl

theorem openReport_kept {attempt : Attempt} (threw : thrown attempt = some code) (stays : ¬ goneAway code)
    (rest : List Attempt) (held : Held) :
    openReport (attempt :: rest) held = .ok ⟨raisedOn held attempt, code, 1⟩ := by
  rw [openReport_thrown threw, handlerException_kept _ _ stays]
  rfl

theorem openReport_lost {attempt : Attempt} (threw : thrown attempt = some code) (gone : goneAway code)
    (known : raisedOn held attempt ≠ .wild) (rest : List Attempt) :
    openReport (attempt :: rest) held =
      (openReport rest .null).map fun opening => ⟨opening.held, code, opening.connects + 1⟩ := by
  rw [openReport_thrown threw, handlerException_lost _ known gone]
  cases openReport rest .null <;> rfl

theorem openReport_wild {attempt : Attempt} (threw : thrown attempt = some code) (gone : goneAway code)
    (wild : raisedOn held attempt = .wild) (rest : List Attempt) :
    openReport (attempt :: rest) held = .error .down := by
  rw [openReport_thrown threw, handlerException, if_pos gone, wild]
  rfl

theorem openReport_silent {attempt : Attempt} (silent : thrown attempt = none) (rest : List Attempt) (held : Held) :
    ∃ err, openReport (attempt :: rest) held = .ok ⟨leaves attempt, err, 1⟩ ∧
      (err = 0 ↔ leaves attempt = .live true) := by
  cases attempt with
  | null => exact ⟨-1, rfl, by decide⟩
  | threw code => cases silent
  | connected setSchema => cases silent; exact ⟨0, rfl, by decide⟩

theorem raisedOn_null {attempt : Attempt} (threw : thrown attempt = some code) :
    raisedOn .null attempt = leaves attempt := by
  cases attempt with
  | null => cases threw
  | threw code => rfl
  | connected setSchema => cases threw; rfl

-- The nested `Open` begins with a null pointer, and so do those in it: what is left is up to the first attempt that is
-- not lost.
theorem openReport_null (attempts : List Attempt) :
    (openReport attempts .null).map Opening.held =
      ((attempts.find? (!lost ·)).map leaves).elim (.error .waits) .ok := by
  induction attempts with
  | nil => rfl
  | cons attempt rest ih =>
      cases threw : thrown attempt with
      | none =>
          obtain ⟨err, returns, -⟩ := openReport_silent threw rest .null
          rw [returns, List.find?_cons_of_pos (by simp [lost, threw])]
          rfl
      | some code =>
          by_cases gone : goneAway code
          · have known : raisedOn .null attempt ≠ .wild := by simp [Ne, raisedOn_wild threw]
            rw [openReport_lost threw gone known, List.find?_cons_of_neg (by simp [lost, threw, gone]), ← ih]
            cases openReport rest .null <;> rfl
          · rw [openReport_kept threw gone, raisedOn_null threw, List.find?_cons_of_pos (by simp [lost, threw, gone])]
            rfl

end CppInfra.MySQLConnPool.MySQLConn
