import CppInfra.Network.SendCases

set_option autoImplicit false

namespace CppInfra.Network.SendResult

open Words Transition TcpConn

def stream (c : TcpConn) : Bytes := c.sent ++ c.outputBuffer

-- If the connection is still open, the result says how much of `data` was taken over.
def Tells (c : TcpConn) (data : Bytes) (outcome : SendOutcome) : Prop :=
  (c.send (some data) outcome).1.closed = false →
    ∃ n : Nat, (c.send (some data) outcome).2 = n ∧ n ≤ data.length ∧
      stream (c.send (some data) outcome).1 = stream c ++ data.take n

def Bounded (size : Nat) : SendOutcome → Prop
  | .accepted count => count ≤ size
  | .failed _ => True

-- All of `data` is queued behind other bytes, or the kernel takes all of it, or the connection is closed; and the
-- size fits the `int` that is returned.
def Whole (c : TcpConn) (data : Bytes) (outcome : SendOutcome) : Prop :=
  c.outputBuffer ≠ [] ∧ data.length < 2 ^ 31 ∨
    c.outputBuffer = [] ∧
      (outcome = .accepted data.length ∧ data.length < 2 ^ 31 ∨ sendEnd c.errno data.length outcome = .fatal)

structure Caller where
  conn : TcpConn
  rest : Bytes
  deriving DecidableEq

inductive Move where
  | send (outcome : SendOutcome)
  | epollout (outcome : SendOutcome)
  deriving DecidableEq

-- `data + n, size - n`, or all of it after a negative result.
def Caller.returned (s : Caller) (result : TcpConn × Int) : Caller :=
  ⟨result.1, if result.2 < 0 then s.rest else s.rest.drop result.2.toNat⟩

-- The caller passes what it takes for the unaccepted rest; in between the loop drains the queue.
def step (s : Caller) : Move → Option Caller
  | .send outcome => some (s.returned (s.conn.send (some s.rest) outcome))
  | .epollout outcome => (OutputStream.step s.conn (.epollout outcome)).map fun conn => { s with conn := conn }

def Offered (s : Caller) : Move → Prop
  | .send outcome => Bounded s.rest.length outcome
  | .epollout outcome => Bounded s.conn.outputBuffer.length outcome

def Meets (s : Caller) : Move → Prop
  | .send outcome => s.conn.closed = false → s.rest ≠ [] → Whole s.conn s.rest outcome
  | .epollout outcome => Bounded (2 ^ 31 - 1) outcome

instance (size : Nat) (outcome : SendOutcome) : Decidable (Bounded size outcome) :=
  match outcome with
  | .accepted _ => inferInstanceAs (Decidable (_ ≤ _))
  | .failed _ => .isTrue trivial

instance (c : TcpConn) (data : Bytes) (outcome : SendOutcome) : Decidable (Whole c data outcome) :=
  inferInstanceAs (Decidable (_ ∨ _))

instance (s : Caller) (move : Move) : Decidable (Offered s move) :=
  match move with
  | .send _ => inferInstanceAs (Decidable (Bounded _ _))
  | .epollout _ => inferInstanceAs (Decidable (Bounded _ _))

instance (s : Caller) (move : Move) : Decidable (Meets s move) :=
  match move with
  | .send _ => inferInstanceAs (Decidable (_ → _ → Whole _ _ _))
  | .epollout _ => inferInstanceAs (Decidable (Bounded _ _))

variable {c : TcpConn} {data : Bytes} {outcome : SendOutcome}

theorem toSigned_le (a : Nat) : toSigned 32 a ≤ a := by
  have low := Nat.mod_le a (2 ^ 32)
  rcases toSigned_cases 32 a with ⟨-, value⟩ | ⟨-, value⟩ <;> omega

theorem toSigned_eq_iff (a : Nat) : toSigned 32 a = a ↔ a < 2 ^ 31 := by
  constructor
  · intro same
    have low := Nat.mod_lt a (Nat.two_pow_pos 32)
    rcases toSigned_cases 32 a with ⟨small, value⟩ | ⟨-, value⟩ <;> omega
  · exact fun small => toSigned_exact small

theorem whole_of_sendEnd {errno size : Nat} (bounded : Bounded size outcome)
    (ends : sendEnd errno size outcome = .whole) (some : 0 < size) : outcome = .accepted size ∧ size < 2 ^ 31 := by
  have large := (sendEnd_whole ends).2
  cases outcome with
  | failed errno =>
      simp only [SendOutcome.value] at large
      omega
  | accepted count =>
      simp only [SendOutcome.value] at large
      have upper := toSigned_le count
      simp only [Bounded] at bounded
      obtain rfl : count = size := by omega
      exact ⟨rfl, (toSigned_eq_iff count).mp (by omega)⟩

theorem sendEnd_of_whole {errno size : Nat} (small : size < 2 ^ 31) :
    sendEnd errno size (.accepted size) = .whole := by
  have exact := (toSigned_eq_iff size).mpr small
  simp [sendEnd, SendOutcome.value, exact]

theorem tells_busy (opened : c.closed = false) (nonempty : data ≠ []) (busy : c.outputBuffer ≠ []) :
    Tells c data outcome ↔ data.length < 2 ^ 31 := by
  have after : stream (c.queue data) = stream c ++ data := by simp [stream, queue, enableWrite, modEvent]
  rw [Tells, send_busy opened nonempty busy, ← toSigned_eq_iff]
  constructor
  · intro tells
    obtain ⟨n, value, bound, same⟩ := tells opened
    rw [after] at same
    have all := congrArg List.length (List.append_cancel_left same)
    simp only [List.length_take] at all
    refine value.trans (congrArg _ ?_)
    omega
  · intro exact _
    exact ⟨data.length, exact, Nat.le_refl _, by rw [after, List.take_length]⟩

theorem tells_idle (opened : c.closed = false) (nonempty : data ≠ []) (idle : c.outputBuffer = [])
    (bounded : Bounded data.length outcome) :
    Tells c data outcome ↔
      outcome = .accepted data.length ∧ data.length < 2 ^ 31 ∨ sendEnd c.errno data.length outcome = .fatal := by
  have some : 0 < data.length := List.length_pos_iff.mpr nonempty
  have called : (c.kernelSend data outcome).2.closed = false := (kernelSend_closed ..).trans opened
  have otherwise : sendEnd c.errno data.length outcome ≠ .whole →
      ¬ (outcome = .accepted data.length ∧ data.length < 2 ^ 31) := by
    rintro other ⟨rfl, small⟩
    exact other (sendEnd_of_whole small)
  rw [Tells, send_idle opened nonempty idle]
  cases ends : sendEnd c.errno data.length outcome with
  | whole =>
      obtain ⟨rfl, small⟩ := whole_of_sendEnd bounded ends some
      refine iff_of_true ?_ (.inl ⟨rfl, small⟩)
      intro _
      refine ⟨data.length, toSigned_exact small, Nat.le_refl _, ?_⟩
      simp [stream, kernelSend, idle]
  | rest =>
      refine iff_of_false ?_ (not_or.mpr ⟨otherwise (by simp [ends]), by simp⟩)
      intro tells
      obtain ⟨n, value, bound, same⟩ := tells called
      obtain ⟨low, part⟩ := sendEnd_rest ends
      cases outcome with
      | failed errno => exact absurd low (show ¬ (0 : Int) ≤ -1 by decide)
      | accepted count =>
          have more := toSigned_le count
          have sizes := congrArg List.length same
          simp only [stream, kernelSend, queue, enableWrite, modEvent, idle, List.length_append,
            List.length_take, List.length_drop, List.length_nil] at sizes
          simp only [SendOutcome.value] at value part sizes
          simp only [Bounded] at bounded
          omega
  | blocked =>
      refine iff_of_false ?_ (not_or.mpr ⟨otherwise (by simp [ends]), by simp⟩)
      intro tells
      obtain ⟨n, value, -⟩ := tells called
      have negative := sendEnd_blocked ends
      change outcome.value = n at value
      omega
  | fatal =>
      refine iff_of_true ?_ (.inr rfl)
      intro stillOpen
      exact absurd ((close_closed _).symm.trans stillOpen) (by simp)

theorem tells_iff (opened : c.closed = false) (nonempty : data ≠ []) (bounded : Bounded data.length outcome) :
    Tells c data outcome ↔ Whole c data outcome := by
  by_cases idle : c.outputBuffer = []
  · simp [Whole, idle, tells_idle opened nonempty idle bounded]
  · simp [Whole, idle, tells_busy opened nonempty idle]

structure Once (all : Bytes) (s : Caller) : Prop where
  transmitted : s.conn.sent <+: all
  opened : s.conn.closed = false → stream s.conn ++ s.rest = all

theorem Once.of_stream {all : Bytes} {s : Caller} (total : stream s.conn ++ s.rest = all) : Once all s := by
  refine ⟨⟨s.conn.outputBuffer ++ s.rest, ?_⟩, fun _ => total⟩
  rw [← total, stream, List.append_assoc]

theorem kernelSend_prefix (idle : c.outputBuffer = []) (data : Bytes) (outcome : SendOutcome) :
    (c.kernelSend data outcome).2.sent <+: stream c ++ data := by
  rw [stream, idle, List.append_nil]
  cases outcome with
  | accepted count => exact (List.prefix_append_right_inj c.sent).mpr (List.take_prefix count data)
  | failed errno => exact List.prefix_append c.sent data

theorem close_sent (c : TcpConn) : c.close.sent = c.sent := by
  rw [close]
  split_ifs <;> rfl

theorem close_outputBuffer (c : TcpConn) : c.close.outputBuffer = c.outputBuffer := by
  rw [close]
  split_ifs <;> rfl

theorem Once.send {all : Bytes} {s : Caller} (once : Once all s) (bounded : Bounded s.rest.length outcome)
    (meets : Meets s (.send outcome)) : Once all (s.returned (s.conn.send (some s.rest) outcome)) := by
  by_cases refused : s.conn.closed = true ∨ s.rest = []
  · rw [send_refused refused]
    exact once
  · simp only [not_or, Bool.not_eq_true] at refused
    obtain ⟨opened, nonempty⟩ := refused
    have before := once.opened opened
    have whole := meets opened nonempty
    by_cases stillOpen : (s.conn.send (some s.rest) outcome).1.closed = false
    · obtain ⟨n, value, -, after⟩ := (tells_iff opened nonempty bounded).mpr whole stillOpen
      refine .of_stream ?_
      rw [Caller.returned, value, if_neg (by omega), Int.toNat_natCast, after, List.append_assoc,
        List.take_append_drop, before]
    · refine ⟨?_, fun opened => absurd opened stillOpen⟩
      rcases whole with ⟨busy, -⟩ | ⟨idle, -⟩
      · rw [send_busy opened nonempty busy] at stillOpen
        exact absurd opened stillOpen
      · have taken := kernelSend_prefix idle s.rest outcome
        rw [before] at taken
        simp only [Caller.returned, send_idle opened nonempty idle]
        cases sendEnd s.conn.errno s.rest.length outcome with
        | whole => exact taken
        | rest => exact taken
        | blocked => exact taken
        | fatal =>
            simp only [close_sent]
            exact taken

theorem value_accepted {count : Nat} (small : Bounded (2 ^ 31 - 1) (.accepted count)) :
    (SendOutcome.accepted count).value = count :=
  (toSigned_eq_iff count).mpr (Nat.lt_of_le_of_lt small (by decide))

theorem kernelSend_erased (small : Bounded (2 ^ 31 - 1) outcome) :
    (c.kernelSend c.outputBuffer outcome).2.sent ++ c.outputBuffer.drop outcome.value.toNat = stream c := by
  cases outcome with
  | failed errno => rfl
  | accepted count =>
      rw [value_accepted small, Int.toNat_natCast, kernelSend, List.append_assoc, List.take_append_drop, stream]

theorem handleWrite_stream (small : Bounded (2 ^ 31 - 1) outcome) : stream (c.handleWrite outcome) = stream c := by
  have erased := kernelSend_erased (c := c) small
  simp only [handleWrite, kernelSend_value, kernelSend_outputBuffer]
  split_ifs with positive drained failed
  · exact erased
  · exact erased
  · rw [stream, close_sent, close_outputBuffer, kernelSend_outputBuffer, ← erased, Int.toNat_of_nonpos (by omega)]
    rfl
  · rw [stream, kernelSend_outputBuffer, ← erased, Int.toNat_of_nonpos (by omega)]
    rfl

theorem Once.epollout {all : Bytes} {s : Caller} (once : Once all s) (small : Bounded (2 ^ 31 - 1) outcome) :
    ∃ next, step s (.epollout outcome) = some next ∧ Once all next := by
  by_cases closed : s.conn.closed = true
  · refine ⟨s, ?_, once⟩
    simp [step, OutputStream.step, TcpConn.handleIO, closed]
  · rw [Bool.not_eq_true] at closed
    refine ⟨{ s with conn := s.conn.handleWrite outcome }, ?_, .of_stream ?_⟩
    · simp [step, OutputStream.step, TcpConn.handleIO, closed, Events.none]
    · exact (congrArg (· ++ s.rest) (handleWrite_stream small)).trans (once.opened closed)

theorem step_once {all : Bytes} (s : Caller) (move : Move) (once : Once all s)
    (met : Offered s move ∧ Meets s move) : ∃ next, step s move = some next ∧ Once all next := by
  cases move with
  | send outcome => exact ⟨_, rfl, once.send met.1 met.2⟩
  | epollout outcome => exact once.epollout met.2

theorem send_result_iff (c : TcpConn) (data : Bytes) (opened : c.closed = false) :
    (∀ outcome, data ≠ [] → Bounded data.length outcome → (Tells c data outcome ↔ Whole c data outcome)) ∧
      ∀ moves : List Move, Along step (fun s move => Offered s move ∧ Meets s move) ⟨c, data⟩ moves →
        ∃ s, run step ⟨c, data⟩ moves = some s ∧ s.conn.sent <+: stream c ++ data ∧
          (s.conn.closed = false → stream s.conn ++ s.rest = stream c ++ data) := by
  refine ⟨fun outcome nonempty bounded => tells_iff opened nonempty bounded, ?_⟩
  intro moves met
  have initial : Once (stream c ++ data) ⟨c, data⟩ := .of_stream rfl
  obtain ⟨s, ran, once⟩ := run_possible (Once (stream c ++ data)) step_once initial met
  exact ⟨s, ran, once.transmitted, once.opened⟩

def waiting : TcpConn := ((TcpConn.create 0).send (some [9]) (.failed eagain)).1

theorem send_result_iff_queued :
    (Tells waiting [1, 2, 3] (.accepted 0) ↔ Whole waiting [1, 2, 3] (.accepted 0)) ∧
      ∃ s, run step ⟨waiting, [1, 2, 3]⟩ [.send (.accepted 0), .epollout (.accepted 2), .send (.accepted 0)] = some s ∧
        s.conn.sent <+: stream waiting ++ [1, 2, 3] ∧
        (s.conn.closed = false → stream s.conn ++ s.rest = stream waiting ++ [1, 2, 3]) :=
  ⟨(send_result_iff waiting [1, 2, 3] rfl).1 (.accepted 0) (by simp) (by decide),
    (send_result_iff waiting [1, 2, 3] rfl).2 [.send (.accepted 0), .epollout (.accepted 2), .send (.accepted 0)]
      (by decide)⟩

-- The rest of a partial send is queued and still not counted: the caller sends it again.
theorem send_result_partial :
    ¬ Tells (.create 0) [1, 2] (.accepted 1) ∧
      ((TcpConn.create 0).send (some [1, 2]) (.accepted 1)).2 = 1 ∧
      stream ((TcpConn.create 0).send (some [1, 2]) (.accepted 1)).1 = [1, 2] ∧
      (run step ⟨.create 0, [1, 2]⟩ [.send (.accepted 1), .send (.accepted 0), .epollout (.accepted 2)]).map
        (fun s => s.conn.sent) = some [1, 2, 2] ∧
      ¬ Tells (.create 0) [1, 2] (.failed eagain) ∧
      (run step ⟨.create 0, [1, 2]⟩ [.send (.failed eagain), .send (.accepted 0), .epollout (.accepted 4)]).map
        (fun s => s.conn.sent) = some [1, 2, 1, 2] := by
  refine ⟨?_, by decide, by decide, by decide, ?_, by decide⟩
  · rw [tells_iff rfl (by simp) (by decide)]
    decide
  · rw [tells_iff rfl (by simp) (by decide)]
    decide

end CppInfra.Network.SendResult
