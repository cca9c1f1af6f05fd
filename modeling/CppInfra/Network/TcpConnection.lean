import CppInfra.Network.MessageBuffer

set_option autoImplicit false

namespace CppInfra.Network

open Words Transition

structure Events where
  epollin : Bool
  epollout : Bool
  epollrdhup : Bool
  epollerr : Bool
  epollhup : Bool
  deriving DecidableEq, Repr

def Events.none : Events := ⟨false, false, false, false, false⟩

inductive SendOutcome where
  | accepted (count : Nat)
  | failed (errno : Nat)
  deriving DecidableEq, Repr

inductive Syscall where
  | epollAdd (events : Events)
  | epollMod (events : Events)
  | epollDel
  | send (size : Nat)
  | readv
  | close
  deriving DecidableEq, Repr

-- The connection, and of the kernel the errno, the interest registered for `fd_`, the bytes it has
-- accepted and the calls made to it. `ioHandler` says whether `io_handler_` is set.
structure TcpConn where
  closed : Bool
  outputBuffer : Bytes
  inputBuffer : MessageBuffer
  ioHandler : Bool
  errno : Nat
  interest : Option Events
  sent : Bytes
  calls : List Syscall
  deriving DecidableEq, Repr

namespace TcpConn

def readInterest : Events := { Events.none with epollin := true, epollrdhup := true }

def writeInterest : Events := { readInterest with epollout := true }

def create (errno : Nat) : TcpConn :=
  { closed := false
    outputBuffer := []
    inputBuffer := .ofSize 4096
    ioHandler := true
    errno := errno
    interest := some readInterest
    sent := []
    calls := [.epollAdd readInterest] }

-- `EPOLL_CTL_MOD` changes the mask of a registered descriptor and fails on any other.
def modEvent (c : TcpConn) (events : Events) : TcpConn :=
  { c with interest := c.interest.map fun _ => events, calls := c.calls ++ [.epollMod events] }

def disableWrite (c : TcpConn) : TcpConn := c.modEvent readInterest

def enableWrite (c : TcpConn) : TcpConn := c.modEvent writeInterest

def close (c : TcpConn) : TcpConn :=
  if c.closed then c
  else
    { c with
      closed := true
      interest := Option.none
      calls := c.calls ++ [.epollDel, .close]
      ioHandler := false }

-- `::send(fd_, data, size, MSG_NOSIGNAL)`; its `ssize_t` result is stored in an `int`.
def kernelSend (c : TcpConn) (data : Bytes) : SendOutcome → Int × TcpConn
  | .accepted count =>
      (toSigned 32 count,
        { c with sent := c.sent ++ data.take count, calls := c.calls ++ [.send data.length] })
  | .failed errno => (-1, { c with errno := errno, calls := c.calls ++ [.send data.length] })

def wouldBlock (c : TcpConn) : Bool := c.errno = eagain ∨ c.errno = ewouldblock

-- `output_buffer_.append(...)` followed by `EnableWrite()`.
def queue (c : TcpConn) (data : Bytes) : TcpConn :=
  enableWrite { c with outputBuffer := c.outputBuffer ++ data }

def sendReturned (c : TcpConn) (data : Bytes) (n : Int) : TcpConn :=
  if n < 0 then
    if c.wouldBlock then c.queue data else c.close
  else if n < data.length then c.queue (data.drop n.toNat)
  else c

-- A null `data` is `none`. The outcome is that of the kernel call, when the branch makes one.
def send (c : TcpConn) (data : Option Bytes) (outcome : SendOutcome) : TcpConn × Int :=
  match data with
  | none => (c, -1)
  | some data =>
      if c.closed || data.isEmpty then (c, -1)
      else if c.outputBuffer ≠ [] then (c.queue data, toSigned 32 data.length)
      else
        let (n, c) := c.kernelSend data outcome
        (c.sendReturned data n, n)

def handleWrite (c : TcpConn) (outcome : SendOutcome) : TcpConn :=
  let (n, c) := c.kernelSend c.outputBuffer outcome
  if n > 0 then
    let c := { c with outputBuffer := c.outputBuffer.drop n.toNat }
    if c.outputBuffer = [] then c.disableWrite else c
  else if n < 0 ∧ ¬ c.wouldBlock then c.close
  else c

-- `readCb` is what the read callback does to the connection, when one is set.
def handleRead (c : TcpConn) (readv : MessageBuffer.Readv) (readCb : Option (TcpConn → TcpConn)) :
    Option TcpConn := do
  let result ← c.inputBuffer.recv readv
  let err := result.err.getD 0
  let errno := match readv with
    | .failed errno => errno
    | .received _ => c.errno
  let c := { c with inputBuffer := result.buffer, errno := errno, calls := c.calls ++ [.readv] }
  if result.value > 0 then some ((readCb.getD id) c)
  else if result.value = 0 ∨ (result.value < 0 ∧ (err ≠ eagain ∧ err ≠ ewouldblock)) then some c.close
  else some c

-- The mask is worked through in order, and `closed_` is not looked at again in between.
def handleIO (c : TcpConn) (events : Events) (readv : MessageBuffer.Readv)
    (readCb : Option (TcpConn → TcpConn)) (outcome : SendOutcome) : Option TcpConn :=
  if c.closed then some c
  else do
    let c ← if events.epollin then c.handleRead readv readCb else some c
    let c := if events.epollout then c.handleWrite outcome else c
    if events.epollerr || events.epollhup || events.epollrdhup then some c.close else some c

end TcpConn

namespace OutputStream

inductive Event where
  | send (data : Option Bytes) (outcome : SendOutcome)
  | epollout (outcome : SendOutcome)
  deriving DecidableEq, Repr

def step (c : TcpConn) : Event → Option TcpConn
  | .send data outcome => some (c.send data outcome).1
  | .epollout outcome =>
      c.handleIO { Events.none with epollout := true } (.received []) none outcome

def submitted (events : List Event) : Bytes :=
  events.flatMap fun
    | .send data _ => data.getD []
    | .epollout _ => []

-- The kernel takes at most what it is offered and at most `limit` bytes, or would block.
def Outcome (limit size : Nat) : SendOutcome → Prop
  | .accepted count => count ≤ size ∧ count ≤ limit
  | .failed errno => errno = eagain ∨ errno = ewouldblock

def Offered (limit : Nat) (c : TcpConn) : Event → Prop
  | .send data outcome => Outcome limit (data.getD []).length outcome
  | .epollout outcome => Outcome limit c.outputBuffer.length outcome

instance (limit : Nat) (c : TcpConn) (e : Event) : Decidable (Offered limit c e) := by
  cases e with
  | send data outcome => cases outcome <;> unfold Offered Outcome <;> infer_instance
  | epollout outcome => cases outcome <;> unfold Offered Outcome <;> infer_instance

structure Streams (past : List Event) (c : TcpConn) : Prop where
  opened : c.closed = false
  stream : c.sent ++ c.outputBuffer = submitted past
  interest : ∃ events, c.interest = some events ∧ (events.epollout = true ↔ c.outputBuffer ≠ [])

def Event.data : Event → Bytes
  | .send data _ => data.getD []
  | .epollout _ => []

theorem submitted_concat (past : List Event) (event : Event) :
    submitted (past ++ [event]) = submitted past ++ event.data := by
  cases event <;> simp [submitted, Event.data]

theorem streams_queue {past : List Event} {c : TcpConn} {data : Bytes} (opened : c.closed = false)
    (registered : c.interest.isSome) (nonempty : data ≠ [])
    (stream : c.sent ++ c.outputBuffer ++ data = submitted past) : Streams past (c.queue data) := by
  obtain ⟨events, known⟩ := Option.isSome_iff_exists.mp registered
  refine ⟨opened, ?_, TcpConn.writeInterest, ?_, ?_⟩
  · rw [← stream, List.append_assoc]
    rfl
  · simp [TcpConn.queue, TcpConn.enableWrite, TcpConn.modEvent, known]
  · simp [TcpConn.writeInterest, TcpConn.queue, TcpConn.enableWrite, TcpConn.modEvent, nonempty]

theorem direct_streams {past : List Event} {c : TcpConn} {data : Bytes} (opened : c.closed = false)
    {events : Events} (registered : c.interest = some events) (reading : events.epollout = false)
    (idle : c.outputBuffer = []) (nonempty : data ≠ []) (stream : c.sent ++ data = submitted past)
    (outcome : SendOutcome) (offered : Outcome (2 ^ 31 - 1) data.length outcome) :
    Streams past ((c.kernelSend data outcome).2.sendReturned data (c.kernelSend data outcome).1) := by
  cases outcome with
  | failed errno =>
      have blocked : (c.kernelSend data (.failed errno)).2.wouldBlock = true := decide_eq_true offered
      have negative : (c.kernelSend data (.failed errno)).1 < 0 := by simp [TcpConn.kernelSend]
      rw [TcpConn.sendReturned, if_pos negative, if_pos blocked]
      exact streams_queue opened (by simp [TcpConn.kernelSend, registered]) nonempty
        (by simpa [TcpConn.kernelSend, idle] using stream)
  | accepted count =>
      obtain ⟨bounded, small⟩ := offered
      have exact : toSigned 32 count = count := toSigned_exact (by omega)
      simp only [TcpConn.kernelSend, exact, TcpConn.sendReturned, Int.natCast_nonneg, Int.not_lt.mpr,
        if_false, Int.toNat_natCast, Int.ofNat_lt]
      split_ifs with part
      · refine streams_queue opened (by simp [registered]) ?_ ?_
        · rw [ne_eq, List.drop_eq_nil_iff]
          omega
        · simpa [idle] using stream
      · have whole : data.take count = data := List.take_of_length_le (by omega)
        exact ⟨opened, by simpa [idle, whole] using stream, events, registered, by simp [reading, idle]⟩

theorem send_streams {past : List Event} {c : TcpConn} (streams : Streams past c) (data : Option Bytes)
    (outcome : SendOutcome) (offered : Outcome (2 ^ 31 - 1) (data.getD []).length outcome) :
    Streams (past ++ [.send data outcome]) (c.send data outcome).1 := by
  obtain ⟨events, registered, watching⟩ := streams.interest
  have opened := streams.opened
  have stream : submitted (past ++ [.send data outcome]) = c.sent ++ c.outputBuffer ++ data.getD [] := by
    rw [submitted_concat, streams.stream]
    rfl
  have silent (empty : data.getD [] = []) : Streams (past ++ [.send data outcome]) c :=
    ⟨opened, by rw [stream, empty, List.append_nil], events, registered, watching⟩
  cases data with
  | none => exact silent rfl
  | some data =>
      by_cases empty : data = []
      · simpa [TcpConn.send, empty] using silent empty
      rw [Option.getD_some] at stream offered
      by_cases idle : c.outputBuffer = []
      · simp only [TcpConn.send, opened, idle, List.isEmpty_eq_false_iff.mpr empty, Bool.or_self,
          Bool.false_eq_true, if_false, ne_eq, not_true]
        rw [idle, List.append_nil] at stream
        exact direct_streams opened registered (by simpa [idle] using watching) idle empty stream.symm
          outcome offered
      · simp only [TcpConn.send, opened, idle, List.isEmpty_eq_false_iff.mpr empty, Bool.or_self,
          Bool.false_eq_true, if_false, ne_eq, not_false_eq_true, if_true]
        exact streams_queue opened (by simp [registered]) empty stream.symm

theorem handleWrite_streams {past : List Event} {c : TcpConn} (streams : Streams past c)
    (outcome : SendOutcome) (offered : Outcome (2 ^ 31 - 1) c.outputBuffer.length outcome) :
    Streams past (c.handleWrite outcome) := by
  obtain ⟨events, registered, watching⟩ := streams.interest
  cases outcome with
  | failed errno =>
      have blocked : (c.kernelSend c.outputBuffer (.failed errno)).2.wouldBlock = true :=
        decide_eq_true offered
      have value : (c.kernelSend c.outputBuffer (.failed errno)).1 = -1 := rfl
      simp only [TcpConn.handleWrite, blocked, value]
      exact ⟨streams.opened, streams.stream, events, registered, watching⟩
  | accepted count =>
      obtain ⟨bounded, small⟩ := offered
      have exact : toSigned 32 count = count := toSigned_exact (by omega)
      have stream : c.sent ++ c.outputBuffer.take count ++ c.outputBuffer.drop count = submitted past := by
        rw [List.append_assoc, List.take_append_drop, streams.stream]
      have nonnegative : ¬ (count : Int) < 0 := by omega
      simp only [TcpConn.handleWrite, TcpConn.kernelSend, exact, Int.toNat_natCast, nonnegative,
        false_and, if_false]
      split_ifs with some drained
      · -- The queue ran empty: the write event is taken off again.
        refine ⟨streams.opened, by simpa [TcpConn.disableWrite, TcpConn.modEvent] using stream,
          TcpConn.readInterest, by simp [TcpConn.disableWrite, TcpConn.modEvent, registered], ?_⟩
        simpa [TcpConn.disableWrite, TcpConn.modEvent, TcpConn.readInterest, Events.none] using drained
      · refine ⟨streams.opened, stream, events, registered, ?_⟩
        have queued : c.outputBuffer ≠ [] := fun empty => drained (by simp [empty])
        simp [watching.mpr queued, drained]
      · obtain rfl : count = 0 := by omega
        exact ⟨streams.opened, by simpa using streams.stream, events, registered, watching⟩

theorem step_streams (past : List Event) (c : TcpConn) (event : Event) (streams : Streams past c)
    (offered : Offered (2 ^ 31 - 1) c event) :
    ∃ next, step c event = some next ∧ Streams (past ++ [event]) next := by
  cases event with
  | send data outcome => exact ⟨_, rfl, send_streams streams data outcome offered⟩
  | epollout outcome =>
      refine ⟨c.handleWrite outcome, by simp [step, TcpConn.handleIO, streams.opened, Events.none], ?_⟩
      have written := handleWrite_streams streams outcome offered
      exact { written with stream := by rw [submitted_concat, written.stream]; simp [Event.data] }

theorem output_stream (errno : Nat) (events : List Event)
    (offered : Along step (Offered (2 ^ 31 - 1)) (.create errno) events) :
    ∃ c, run step (.create errno) events = some c ∧ c.closed = false ∧
      c.sent ++ c.outputBuffer = submitted events ∧
      ∃ interest, c.interest = some interest ∧ (interest.epollout = true ↔ c.outputBuffer ≠ []) := by
  have initial : Streams [] (.create errno) :=
    ⟨rfl, rfl, TcpConn.readInterest, rfl, by simp [TcpConn.create, TcpConn.readInterest, Events.none]⟩
  obtain ⟨c, ran, streams⟩ := run_total Streams step_streams initial offered
  exact ⟨c, ran, streams.opened, streams.stream, streams.interest⟩

theorem output_stream_partial :
    ∃ c, run step (.create 0)
        [.send (some [1, 2, 3]) (.accepted 1), .send (some [4]) (.accepted 0), .epollout (.accepted 2),
          .epollout (.failed eagain)] = some c ∧ c.closed = false ∧
      c.sent ++ c.outputBuffer = [1, 2, 3, 4] ∧
      ∃ interest, c.interest = some interest ∧ (interest.epollout = true ↔ c.outputBuffer ≠ []) :=
  output_stream 0 [.send (some [1, 2, 3]) (.accepted 1), .send (some [4]) (.accepted 0),
    .epollout (.accepted 2), .epollout (.failed eagain)] (by decide)

theorem send_narrowed {data : Bytes} (size : data.length = 2 ^ 32) :
    ∃ c, run step (.create 0) [.send (some data) (.accepted (2 ^ 32))] = some c ∧
      c.sent = data ∧ c.outputBuffer = data := by
  have nonempty : data.isEmpty = false := by
    cases data with
    | nil => simp at size
    | cons first rest => rfl
  have zero : toSigned 32 (2 ^ 32) = 0 := by decide
  have less : (0 : Int) < data.length := by omega
  have sent : ((TcpConn.create 0).send (some data) (.accepted (2 ^ 32))).1 =
      TcpConn.queue ((TcpConn.create 0).kernelSend data (.accepted (2 ^ 32))).2 data := by
    simp only [TcpConn.send, TcpConn.create, nonempty, TcpConn.kernelSend, zero, TcpConn.sendReturned, less,
      if_true, Int.lt_irrefl, if_false, Int.toNat_zero, List.drop_zero, Bool.or_self, Bool.false_eq_true,
      ne_eq, not_true]
  refine ⟨_, rfl, ?_, ?_⟩
  · rw [sent, TcpConn.queue, TcpConn.kernelSend]
    exact List.take_of_length_le (by omega)
  · rw [sent]
    rfl

theorem output_stream_narrowed :
    Along step (Offered (2 ^ 63 - 1)) (.create 0) [.send (some (List.replicate (2 ^ 32) 0)) (.accepted (2 ^ 32))] ∧
    ∃ c, run step (.create 0) [.send (some (List.replicate (2 ^ 32) 0)) (.accepted (2 ^ 32))] = some c ∧
      c.sent ++ c.outputBuffer ≠ submitted [.send (some (List.replicate (2 ^ 32) 0)) (.accepted (2 ^ 32))] := by
  have size : (List.replicate (2 ^ 32) (0 : UInt8)).length = 2 ^ 32 := List.length_replicate
  generalize List.replicate (2 ^ 32) (0 : UInt8) = data at size ⊢
  obtain ⟨c, ran, sent, queued⟩ := send_narrowed size
  refine ⟨⟨⟨?_, ?_⟩, fun _ _ => trivial⟩, c, ran, ?_⟩
  · rw [Option.getD_some, size]
  · decide
  · intro same
    have lengths := congrArg List.length same
    simp only [sent, queued, submitted, List.flatMap_singleton, Option.getD_some, List.length_append,
      size] at lengths
    omega

end OutputStream

namespace RecvError

open MessageBuffer

-- What the branch `n < 0` of `Recv` is written to do.
def Atomic (b : MessageBuffer) (errno : Nat) : Prop :=
  ∃ result, b.recv (.failed errno) = some result ∧
    result.err = some errno ∧ result.value < 0 ∧ result.buffer = b

def Kept (c : TcpConn) (errno : Nat) (readCb : Option (TcpConn → TcpConn)) : Prop :=
  ∃ after, c.handleRead (.failed errno) readCb = some after ∧ after.closed = c.closed ∧
    after.inputBuffer.content = c.inputBuffer.content

theorem recv_failed_cases {b : MessageBuffer} {errno : Nat} {result : RecvResult}
    (returned : b.recv (.failed errno) = some result) :
    result.err = none ∧ result.value = -1 ∧ 2 ^ 64 - 1 ≤ b.getFreeSize + extraSize := by
  have narrowed : toSigned 32 (2 ^ 64 - 1) = -1 := by decide
  have small : b.getFreeSize < 2 ^ 64 := Nat.mod_lt _ (Nat.two_pow_pos 64)
  simp only [recv, recvReturn, narrowed, if_neg (show ¬ 2 ^ 64 - 1 = 0 by decide)] at returned
  split_ifs at returned with fits enough
  · obtain rfl := Option.some.inj returned
    exact ⟨rfl, rfl, by omega⟩
  · obtain ⟨after, -, rfl⟩ := Option.map_eq_some_iff.mp (by simpa [Option.map_eq_bind] using returned)
    rw [sub_exact (by omega) (by decide)] at enough
    exact ⟨rfl, rfl, by omega⟩

theorem recv_failed_undefined {b : MessageBuffer} (valid : b.Valid) (small : b.buffer.length < 2 ^ 63)
    (errno : Nat) : b.recv (.failed errno) = none := by
  cases returned : b.recv (.failed errno) with
  | none => rfl
  | some result =>
      have huge := (recv_failed_cases returned).2.2
      rw [valid.freeSize] at huge
      simp only [extraSize] at huge
      omega

theorem not_atomic (b : MessageBuffer) (errno : Nat) : ¬ Atomic b errno := by
  rintro ⟨result, returned, stored, -⟩
  rw [(recv_failed_cases returned).1] at stored
  cases stored

-- `err` still holds the 0 it was initialised with, so a returned error is taken for a fatal one.
theorem handleRead_failed_closes {c after : TcpConn} {errno : Nat} {readCb : Option (TcpConn → TcpConn)}
    (returned : c.handleRead (.failed errno) readCb = some after) : after.closed = true := by
  cases received : c.inputBuffer.recv (.failed errno) with
  | none => simp [TcpConn.handleRead, received] at returned
  | some result =>
      obtain ⟨stored, value, -⟩ := recv_failed_cases received
      have unset : (0 : Nat) ≠ eagain ∧ (0 : Nat) ≠ ewouldblock := by decide
      simp only [TcpConn.handleRead, received, Option.bind_eq_bind, Option.bind_some, stored, value,
        Option.getD_none, unset, ne_eq, not_false_eq_true, and_self, and_true] at returned
      obtain rfl := Option.some.inj returned
      simp only [TcpConn.close]
      split_ifs with already
      · exact already
      · rfl

theorem recv_error_never_atomic (b : MessageBuffer) (c : TcpConn) (errno : Nat)
    (readCb : Option (TcpConn → TcpConn)) (opened : c.closed = false) :
    ¬ Atomic b errno ∧ ¬ Kept c eagain readCb ∧ ¬ Kept c ewouldblock readCb := by
  have closes (code : Nat) : ¬ Kept c code readCb := by
    rintro ⟨after, returned, same, -⟩
    rw [handleRead_failed_closes returned, opened] at same
    cases same
  exact ⟨not_atomic b errno, closes eagain, closes ewouldblock⟩

theorem recv_error_never_atomic_fresh :
    ¬ Atomic (.ofSize 4096) econnreset ∧ ¬ Kept (.create 0) eagain none ∧
      ¬ Kept (.create 0) ewouldblock none :=
  recv_error_never_atomic (.ofSize 4096) (.create 0) econnreset none rfl

-- `Write` asks `vector::resize` for about `2 ^ 64` bytes, which throws `std::length_error`. If `wpos_` was not 0 the
-- size wraps to `wpos_ - 1`, and `memcpy` leaves `extra`.
theorem recv_error_undefined :
    (MessageBuffer.ofSize 4096).Valid ∧ (MessageBuffer.ofSize 4096).recv (.failed eagain) = none ∧
      (TcpConn.create 0).handleRead (.failed eagain) none = none ∧
      ¬ Atomic (.ofSize 4096) eagain ∧ ¬ Kept (.create 0) eagain none := by
  have valid : (MessageBuffer.ofSize 4096).Valid := (ofSize_holds (by decide)).toValid
  have size : (MessageBuffer.ofSize 4096).buffer.length = 4096 := List.length_replicate
  have undefined := recv_failed_undefined valid (by rw [size]; decide) eagain
  have read : (TcpConn.create 0).handleRead (.failed eagain) none = none := by
    simp [TcpConn.handleRead, TcpConn.create, undefined]
  refine ⟨valid, undefined, read, not_atomic _ _, ?_⟩
  rintro ⟨after, returned, -⟩
  rw [read] at returned
  cases returned

end RecvError

end CppInfra.Network
