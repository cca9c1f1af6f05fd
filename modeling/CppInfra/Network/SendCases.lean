import CppInfra.Network.TcpConnection

set_option autoImplicit false

namespace CppInfra.Network

open Words

def SendOutcome.value : SendOutcome → Int
  | .accepted count => toSigned 32 count
  | .failed _ => -1

def SendOutcome.errnoAfter (errno : Nat) : SendOutcome → Nat
  | .accepted _ => errno
  | .failed errno => errno

def SendOutcome.blocked (errno : Nat) (outcome : SendOutcome) : Bool :=
  outcome.errnoAfter errno = eagain ∨ outcome.errnoAfter errno = ewouldblock

inductive SendEnd where
  | whole
  | rest
  | blocked
  | fatal
  deriving DecidableEq, Repr

def sendEnd (errno size : Nat) (outcome : SendOutcome) : SendEnd :=
  if outcome.value < 0 then if outcome.blocked errno then .blocked else .fatal
  else if outcome.value < size then .rest
  else .whole

theorem sendEnd_whole {errno size : Nat} {outcome : SendOutcome} (ends : sendEnd errno size outcome = .whole) :
    outcome.errnoAfter errno = errno ∧ size ≤ outcome.value := by
  unfold sendEnd at ends
  split_ifs at ends with negative blocked part
  refine ⟨?_, by omega⟩
  cases outcome with
  | accepted count => rfl
  | failed errno => exact absurd (by decide : (-1 : Int) < 0) negative

theorem sendEnd_rest {errno size : Nat} {outcome : SendOutcome} (ends : sendEnd errno size outcome = .rest) :
    0 ≤ outcome.value ∧ outcome.value < size := by
  unfold sendEnd at ends
  split_ifs at ends with negative blocked part
  exact ⟨by omega, part⟩

theorem sendEnd_blocked {errno size : Nat} {outcome : SendOutcome} (ends : sendEnd errno size outcome = .blocked) :
    outcome.value < 0 := by
  unfold sendEnd at ends
  split_ifs at ends with negative blocked
  exact negative

namespace TcpConn

variable {c : TcpConn} {data : Bytes} {outcome : SendOutcome}

theorem kernelSend_value (c : TcpConn) (data : Bytes) (outcome : SendOutcome) :
    (c.kernelSend data outcome).1 = outcome.value := by
  cases outcome <;> rfl

theorem kernelSend_errno (c : TcpConn) (data : Bytes) (outcome : SendOutcome) :
    (c.kernelSend data outcome).2.errno = outcome.errnoAfter c.errno := by
  cases outcome <;> rfl

theorem kernelSend_closed (c : TcpConn) (data : Bytes) (outcome : SendOutcome) :
    (c.kernelSend data outcome).2.closed = c.closed := by
  cases outcome <;> rfl

theorem kernelSend_outputBuffer (c : TcpConn) (data : Bytes) (outcome : SendOutcome) :
    (c.kernelSend data outcome).2.outputBuffer = c.outputBuffer := by
  cases outcome <;> rfl

theorem kernelSend_calls (c : TcpConn) (data : Bytes) (outcome : SendOutcome) :
    (c.kernelSend data outcome).2.calls = c.calls ++ [.send data.length] := by
  cases outcome <;> rfl

theorem kernelSend_wouldBlock (c : TcpConn) (data : Bytes) (outcome : SendOutcome) :
    (c.kernelSend data outcome).2.wouldBlock = outcome.blocked c.errno := by
  rw [wouldBlock, kernelSend_errno, SendOutcome.blocked]

@[simp] theorem queue_outputBuffer (c : TcpConn) (data : Bytes) :
    (c.queue data).outputBuffer = c.outputBuffer ++ data := rfl

theorem close_closed (c : TcpConn) : c.close.closed = true := by
  rw [close]
  split_ifs with already
  · exact already
  · rfl

theorem close_of_closed (closed : c.closed = true) : c.close = c := if_pos closed

theorem send_refused {data : Option Bytes} (refused : c.closed = true ∨ data.getD [] = []) :
    c.send data outcome = (c, -1) := by
  cases data with
  | none => rfl
  | some data =>
      have condition : (c.closed || data.isEmpty) = true := by simpa using refused
      exact if_pos condition

theorem exists_bytes {data : Option Bytes} (nonempty : data.getD [] ≠ []) :
    ∃ bytes, data = some bytes ∧ bytes ≠ [] := by
  cases data with
  | none => exact absurd rfl nonempty
  | some bytes => exact ⟨bytes, rfl, nonempty⟩

theorem send_busy (opened : c.closed = false) (nonempty : data ≠ []) (busy : c.outputBuffer ≠ []) :
    c.send (some data) outcome = (c.queue data, toSigned 32 data.length) := by
  simp [send, opened, nonempty, busy]

theorem send_idle (opened : c.closed = false) (nonempty : data ≠ []) (idle : c.outputBuffer = []) :
    c.send (some data) outcome =
      (match sendEnd c.errno data.length outcome with
        | .whole => (c.kernelSend data outcome).2
        | .rest => (c.kernelSend data outcome).2.queue (data.drop outcome.value.toNat)
        | .blocked => (c.kernelSend data outcome).2.queue data
        | .fatal => (c.kernelSend data outcome).2.close, outcome.value) := by
  have direct : c.send (some data) outcome =
      ((c.kernelSend data outcome).2.sendReturned data (c.kernelSend data outcome).1,
        (c.kernelSend data outcome).1) := by
    simp [send, opened, nonempty, idle]
  rw [direct, kernelSend_value, sendReturned, sendEnd, kernelSend_wouldBlock]
  split_ifs <;> rfl

end TcpConn

end CppInfra.Network
