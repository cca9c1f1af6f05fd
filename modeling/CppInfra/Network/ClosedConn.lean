import CppInfra.Network.SendCases

set_option autoImplicit false

namespace CppInfra.Network.ClosedConn

open Words Transition MessageBuffer TcpConn

-- The calls a read callback makes, in order. `GetAllData` and `GetDataUntilCrLf` mark some of the unread bytes as
-- read, which is all they do to the connection.
inductive Action where
  | send (data : Option Bytes) (outcome : SendOutcome)
  | read (size : Nat)
  deriving DecidableEq

def act (c : TcpConn) : Action → TcpConn
  | .send data outcome => (c.send data outcome).1
  | .read size => { c with inputBuffer := c.inputBuffer.readCompleted (min size c.inputBuffer.getActiveSize) }

def callback : List Action → TcpConn → TcpConn
  | [], c => c
  | action :: rest, c => callback rest (act c action)

inductive Event where
  | ready (events : Events) (readv : Readv) (readCb : Option (List Action)) (outcome : SendOutcome)
  | send (data : Option Bytes) (outcome : SendOutcome)
  | destroy
  deriving DecidableEq

def step (c : TcpConn) : Event → Option TcpConn
  | .ready events readv readCb outcome => c.handleIO events readv (readCb.map callback) outcome
  | .send data outcome => some (c.send data outcome).1
  | .destroy => some c.close

-- `readv` returns no more than it was given room for, and the vector can grow once more.
def Offered (c : TcpConn) : Event → Prop
  | .ready _ readv _ _ =>
      c.inputBuffer.buffer.length + max extraSize (c.inputBuffer.buffer.length / 2) < 2 ^ 63 ∧
        match readv with
        | .failed _ => True
        | .received bytes => bytes.length ≤ c.inputBuffer.getFreeSize + extraSize
  | .send _ _ => True
  | .destroy => True

instance (c : TcpConn) (event : Event) : Decidable (Offered c event) :=
  match event with
  | .ready _ (.failed _) _ _ => inferInstanceAs (Decidable (_ ∧ True))
  | .ready _ (.received _) _ _ => inferInstanceAs (Decidable (_ ∧ _ ≤ _))
  | .send _ _ => .isTrue trivial
  | .destroy => .isTrue trivial

-- With `output_buffer_` empty: a `Send` of the callback fails before another one was queued.
def fails (errno : Nat) : List Action → Bool
  | [] => false
  | .read _ :: rest => fails errno rest
  | .send data outcome :: rest =>
      if data.getD [] = [] then fails errno rest
      else
        match sendEnd errno (data.getD []).length outcome with
        | .whole => fails errno rest
        | .rest => false
        | .blocked => false
        | .fatal => true

-- The `int` that `Recv` returns is not positive, or the callback closes the connection.
def ReadCloses (c : TcpConn) (bytes : Bytes) (readCb : Option (List Action)) : Prop :=
  toSigned 32 bytes.length ≤ 0 ∨ c.outputBuffer = [] ∧ fails c.errno (readCb.getD []) = true

def Spares (c : TcpConn) : Event → Prop
  | .ready events readv readCb _ =>
      c.closed = false → events.epollin = true →
        match readv with
        | .failed _ => False
        | .received bytes => events.epollout = true → ¬ ReadCloses c bytes readCb
  | .send _ _ => True
  | .destroy => True

instance (c : TcpConn) (bytes : Bytes) (readCb : Option (List Action)) : Decidable (ReadCloses c bytes readCb) :=
  inferInstanceAs (Decidable (_ ∨ _ ∧ _))

instance (c : TcpConn) (event : Event) : Decidable (Spares c event) :=
  match event with
  | .ready _ (.failed _) _ _ => inferInstanceAs (Decidable (_ → _ → False))
  | .ready _ (.received _) _ _ => inferInstanceAs (Decidable (_ → _ → _ → ¬ _))
  | .send _ _ => .isTrue trivial
  | .destroy => .isTrue trivial

structure Opened (c : TcpConn) : Prop where
  opened : c.closed = false
  registered : .epollDel ∉ c.calls
  descriptor : .close ∉ c.calls

def Shut (c : TcpConn) : Prop :=
  c.closed = true ∧ ∃ before, c.calls = before ++ [.epollDel, .close] ∧ .epollDel ∉ before ∧ .close ∉ before

def Silent (c : TcpConn) : Prop := Opened c ∨ Shut c

structure Running (c : TcpConn) : Prop extends Opened c where
  valid : c.inputBuffer.Valid

def Kept (c : TcpConn) : Prop := Running c ∨ Shut c

variable {c next : TcpConn} {data : Bytes} {outcome : SendOutcome}

theorem Kept.silent (kept : Kept c) : Silent c := kept.imp Running.toOpened id

theorem Kept.running (kept : Kept c) (opened : c.closed = false) : Running c :=
  kept.resolve_right fun shut => Bool.false_ne_true (opened.symm.trans shut.1)

theorem Running.log {call : Syscall} (running : Running c) (closed : next.closed = c.closed)
    (input : next.inputBuffer.Valid) (calls : next.calls = c.calls ++ [call]) (noDel : call ≠ .epollDel)
    (noClose : call ≠ .close) : Running next where
  opened := closed.trans running.opened
  registered := by
    rw [calls, List.mem_append, List.mem_singleton]
    exact fun member => member.elim running.registered (Ne.symm noDel)
  descriptor := by
    rw [calls, List.mem_append, List.mem_singleton]
    exact fun member => member.elim running.descriptor (Ne.symm noClose)
  valid := input

theorem Running.close (running : Running c) : Shut c.close := by
  refine ⟨close_closed c, c.calls, ?_, running.registered, running.descriptor⟩
  simp [TcpConn.close, running.opened]

theorem Kept.close (kept : Kept c) : Kept c.close := by
  rcases kept with running | shut
  · exact .inr running.close
  · rw [close_of_closed shut.1]
    exact .inr shut

theorem Running.modEvent (running : Running c) (events : Events) : Running (c.modEvent events) :=
  running.log rfl running.valid rfl (by simp) (by simp)

theorem Running.queue (running : Running c) (data : Bytes) : Running (c.queue data) :=
  running.log rfl running.valid rfl (by simp) (by simp)

theorem Running.kernelSend (running : Running c) (data : Bytes) (outcome : SendOutcome) :
    Running (c.kernelSend data outcome).2 := by
  cases outcome with
  | accepted count => exact running.log rfl running.valid rfl (by simp) (by simp)
  | failed errno => exact running.log rfl running.valid rfl (by simp) (by simp)

theorem Kept.send (kept : Kept c) (data : Option Bytes) (outcome : SendOutcome) : Kept (c.send data outcome).1 := by
  by_cases refused : c.closed = true ∨ data.getD [] = []
  · rw [send_refused refused]
    exact kept
  · simp only [not_or, Bool.not_eq_true] at refused
    obtain ⟨opened, given⟩ := refused
    obtain ⟨bytes, rfl, nonempty⟩ := exists_bytes given
    have running := kept.running opened
    by_cases idle : c.outputBuffer = []
    · have called := running.kernelSend bytes outcome
      rw [send_idle opened nonempty idle]
      cases sendEnd c.errno bytes.length outcome with
      | whole => exact .inl called
      | rest => exact .inl (called.queue _)
      | blocked => exact .inl (called.queue _)
      | fatal => exact .inr called.close
    · rw [send_busy opened nonempty idle]
      exact .inl (running.queue bytes)

theorem Kept.act (kept : Kept c) (action : Action) : Kept (ClosedConn.act c action) := by
  cases action with
  | send data outcome => exact kept.send data outcome
  | read size =>
      rcases kept with ⟨⟨opened, registered, descriptor⟩, valid⟩ | shut
      · have holds : c.inputBuffer.Holds c.inputBuffer.content := ⟨valid, rfl⟩
        exact .inl ⟨⟨opened, registered, descriptor⟩, (holds.readCompleted (Nat.min_le_right ..)).toValid⟩
      · exact .inr shut

theorem Kept.callback (kept : Kept c) (actions : List Action) : Kept (ClosedConn.callback actions c) := by
  induction actions generalizing c with
  | nil => exact kept
  | cons action rest ih => exact ih (kept.act action)

theorem Running.handleWrite (running : Running c) (outcome : SendOutcome) : Kept (c.handleWrite outcome) := by
  have called := running.kernelSend c.outputBuffer outcome
  have erased (buffer : Bytes) : Running { (c.kernelSend c.outputBuffer outcome).2 with outputBuffer := buffer } :=
    ⟨⟨called.opened, called.registered, called.descriptor⟩, called.valid⟩
  simp only [TcpConn.handleWrite]
  split_ifs with some drained failed
  · exact .inl ((erased _).modEvent readInterest)
  · exact .inl (erased _)
  · exact .inr called.close
  · exact .inl called

theorem callback_of_closed (closed : c.closed = true) (actions : List Action) :
    (callback actions c).closed = true := by
  induction actions generalizing c with
  | nil => exact closed
  | cons action rest ih =>
      cases action with
      | read size => exact ih closed
      | send data outcome =>
          rw [callback, act, send_refused (.inl closed)]
          exact ih closed

theorem callback_busy (opened : c.closed = false) (busy : c.outputBuffer ≠ []) (actions : List Action) :
    (callback actions c).closed = false := by
  induction actions generalizing c with
  | nil => exact opened
  | cons action rest ih =>
      cases action with
      | read size => exact ih opened busy
      | send data outcome =>
          by_cases empty : data.getD [] = []
          · rw [callback, act, send_refused (.inr empty)]
            exact ih opened busy
          · obtain ⟨bytes, rfl, nonempty⟩ := exists_bytes empty
            rw [callback, act, send_busy opened nonempty busy]
            exact ih opened (by simp [busy])

theorem callback_queued (opened : c.closed = false) (nonempty : data ≠ []) (actions : List Action) :
    (callback actions (c.queue data)).closed = false := by
  refine callback_busy (show (c.queue data).closed = false from opened) ?_ actions
  rw [queue_outputBuffer]
  exact List.append_ne_nil_of_right_ne_nil _ nonempty

-- The induction follows `fails` for as long as nothing is queued.
theorem callback_idle (opened : c.closed = false) (idle : c.outputBuffer = []) (actions : List Action) :
    (callback actions c).closed = fails c.errno actions := by
  induction actions generalizing c with
  | nil => exact opened
  | cons action rest ih =>
      cases action with
      | read size => exact ih opened idle
      | send data outcome =>
          by_cases empty : data.getD [] = []
          · rw [callback, act, send_refused (.inr empty), fails, if_pos empty]
            exact ih opened idle
          · obtain ⟨bytes, rfl, nonempty⟩ := exists_bytes empty
            have called := (kernelSend_closed c bytes outcome).trans opened
            have buffer := (kernelSend_outputBuffer c bytes outcome).trans idle
            rw [callback, act, send_idle opened nonempty idle, fails, if_neg empty, Option.getD_some]
            cases ends : sendEnd c.errno bytes.length outcome with
            | whole =>
                have same := (kernelSend_errno c bytes outcome).trans (sendEnd_whole ends).1
                exact same ▸ ih called buffer
            | rest =>
                obtain ⟨low, part⟩ := sendEnd_rest ends
                have left : bytes.drop outcome.value.toNat ≠ [] := by
                  rw [ne_eq, List.drop_eq_nil_iff]
                  omega
                exact callback_queued called left rest
            | blocked => exact callback_queued called empty rest
            | fatal => exact callback_of_closed (close_closed _) rest

theorem callback_closed_iff (opened : c.closed = false) (actions : List Action) :
    (callback actions c).closed = true ↔ c.outputBuffer = [] ∧ fails c.errno actions = true := by
  by_cases idle : c.outputBuffer = []
  · rw [callback_idle opened idle, and_iff_right idle]
  · simp [callback_busy opened idle, idle]

theorem recv_received {b : MessageBuffer} {bytes : Bytes} (valid : b.Valid)
    (room : b.buffer.length + max extraSize (b.buffer.length / 2) < 2 ^ 63)
    (bounded : bytes.length ≤ b.getFreeSize + extraSize) :
    ∃ after err, b.recv (.received bytes) = some ⟨after, toSigned 32 bytes.length, err⟩ ∧ after.Valid ∧
      err.getD 0 ≠ eagain ∧ err.getD 0 ≠ ewouldblock := by
  by_cases empty : bytes = []
  · subst empty
    have inside : b.getWritePointer + ([] : Bytes).length ≤ b.buffer.length := valid.written
    obtain ⟨copy, copied⟩ : ∃ copy, memcpy b.buffer b.getWritePointer [] = some copy := ⟨_, memcpy_inside inside⟩
    refine ⟨{ b with buffer := copy }, some econnreset, ?_, ?_, by decide⟩
    · rw [recv, List.take_nil, copied]
      rfl
    · have size := memcpy_length copied
      exact ⟨valid.read, size ▸ valid.written, size ▸ valid.word⟩
  · have holds : b.Holds b.content := ⟨valid, rfl⟩
    have small : b.NoWrap (bytes.length - b.getFreeSize) := by
      unfold NoWrap
      omega
    obtain ⟨after, received, held⟩ := holds.recv (List.length_pos_iff.mpr empty) bounded small
    exact ⟨after, none, received, held.toValid, by decide⟩

theorem Running.handleRead {bytes : Bytes} (running : Running c)
    (room : c.inputBuffer.buffer.length + max extraSize (c.inputBuffer.buffer.length / 2) < 2 ^ 63)
    (bounded : bytes.length ≤ c.inputBuffer.getFreeSize + extraSize) (readCb : Option (List Action)) :
    ∃ next, c.handleRead (.received bytes) (readCb.map callback) = some next ∧ Kept next ∧
      (next.closed = true ↔ ReadCloses c bytes readCb) := by
  obtain ⟨after, err, received, valid, noAgain, noBlock⟩ := recv_received running.valid room bounded
  let read : TcpConn := { c with inputBuffer := after, calls := c.calls ++ [.readv] }
  have called : Running read := running.log rfl valid rfl (by simp) (by simp)
  simp only [TcpConn.handleRead, received, Option.bind_eq_bind, Option.bind_some]
  by_cases positive : toSigned 32 bytes.length > 0
  · have calledBack : (readCb.map callback).getD id read = callback (readCb.getD []) read := by
      cases readCb <;> rfl
    refine ⟨_, (if_pos positive).trans (congrArg some calledBack), Kept.callback (.inl called) _, ?_⟩
    rw [callback_closed_iff called.opened, ReadCloses, or_iff_right (Int.not_le.mpr positive)]
  · have stops : toSigned 32 bytes.length = 0 ∨
        toSigned 32 bytes.length < 0 ∧ (err.getD 0 ≠ eagain ∧ err.getD 0 ≠ ewouldblock) := by
      by_cases zero : toSigned 32 bytes.length = 0
      · exact .inl zero
      · exact .inr ⟨by omega, noAgain, noBlock⟩
    refine ⟨read.close, (if_neg positive).trans (if_pos stops), .inr called.close, ?_⟩
    exact iff_of_true (close_closed read) (.inl (Int.not_lt.mp positive))

theorem step_closed (closed : c.closed = true) (event : Event) : step c event = some c := by
  cases event with
  | ready events readv readCb outcome => exact if_pos closed
  | send data outcome => rw [step, send_refused (.inl closed)]
  | destroy => rw [step, close_of_closed closed]

theorem run_closed (closed : c.closed = true) (events : List Event) : run step c events = some c := by
  induction events with
  | nil => rfl
  | cons event rest ih => exact run_cons.mpr ⟨c, step_closed closed event, ih⟩

-- `HandleIO` after `HandleRead`.
def handleOut (events : Events) (outcome : SendOutcome) (c : TcpConn) : TcpConn :=
  if events.epollout then c.handleWrite outcome else c

def handleHup (events : Events) (c : TcpConn) : TcpConn :=
  if events.epollerr || events.epollhup || events.epollrdhup then c.close else c

theorem handleIO_eq (opened : c.closed = false) (events : Events) (readv : Readv)
    (readCb : Option (TcpConn → TcpConn)) (outcome : SendOutcome) :
    c.handleIO events readv readCb outcome =
      (if events.epollin then c.handleRead readv readCb else some c).map fun c =>
        handleHup events (handleOut events outcome c) := by
  rw [TcpConn.handleIO, if_neg (by simp [opened]), Option.map_eq_bind]
  simp only [handleHup, handleOut]
  split_ifs <;> rfl

theorem Kept.handleHup (kept : Kept c) (events : Events) : Kept (ClosedConn.handleHup events c) := by
  unfold ClosedConn.handleHup
  split_ifs
  · exact kept.close
  · exact kept

theorem Kept.handleOut {events : Events} (kept : Kept c) (running : events.epollout = true → Running c)
    (outcome : SendOutcome) : Kept (ClosedConn.handleOut events outcome c) := by
  unfold ClosedConn.handleOut
  split_ifs with writable
  · exact (running writable).handleWrite outcome
  · exact kept

def Noisy (c : TcpConn) : Prop :=
  c.closed = true ∧ ∃ before later, c.calls = before ++ .close :: later ∧ later ≠ []

theorem Noisy.not_silent (noisy : Noisy c) : ¬ Silent c := by
  obtain ⟨closed, before, later, calls, more⟩ := noisy
  rintro (fresh | ⟨-, first, ends, -, once⟩)
  · exact Bool.false_ne_true (fresh.opened.symm.trans closed)
  · obtain ⟨rest, last, rfl⟩ := (List.eq_nil_or_concat later).resolve_left more
    have same : (before ++ .close :: rest) ++ [last] = (first ++ [.epollDel]) ++ [.close] := by
      simpa using calls.symm.trans ends
    have front := (List.append_inj' same rfl).1
    have member : Syscall.close ∈ first ++ [.epollDel] := front ▸ by simp
    simp [once] at member

theorem Shut.handleWrite (shut : Shut c) (outcome : SendOutcome) : Noisy (c.handleWrite outcome) := by
  obtain ⟨closed, before, calls, -⟩ := shut
  have called : (c.kernelSend c.outputBuffer outcome).2.closed = true := (kernelSend_closed ..).trans closed
  have logged : (c.kernelSend c.outputBuffer outcome).2.calls =
      (before ++ [.epollDel]) ++ .close :: [.send c.outputBuffer.length] := by
    rw [kernelSend_calls, calls]
    simp
  simp only [TcpConn.handleWrite]
  split_ifs with some drained failed
  · refine ⟨called, before ++ [.epollDel], [.send c.outputBuffer.length, .epollMod readInterest], ?_, by simp⟩
    simp [disableWrite, modEvent, logged]
  · exact ⟨called, _, _, logged, by simp⟩
  · rw [close_of_closed called]
    exact ⟨called, _, _, logged, by simp⟩
  · exact ⟨called, _, _, logged, by simp⟩

theorem Running.step {event : Event} (running : Running c) (offered : Offered c event) (spares : Spares c event) :
    ∃ next, ClosedConn.step c event = some next ∧ Kept next := by
  cases event with
  | send data outcome => exact ⟨_, rfl, Kept.send (.inl running) data outcome⟩
  | destroy => exact ⟨_, rfl, .inr running.close⟩
  | ready events readv readCb outcome =>
      rw [ClosedConn.step, handleIO_eq running.opened]
      by_cases readable : events.epollin = true
      · have spared := spares running.opened readable
        cases readv with
        | failed errno => exact absurd spared id
        | received bytes =>
            obtain ⟨next, read, kept, closes⟩ := running.handleRead offered.1 offered.2 readCb
            refine ⟨_, by rw [if_pos readable, read]; rfl, Kept.handleHup (kept.handleOut ?_ outcome) events⟩
            intro writable
            refine kept.running ?_
            rw [← Bool.not_eq_true, closes]
            exact spared writable
      · refine ⟨_, by rw [if_neg readable]; rfl, Kept.handleHup ?_ events⟩
        exact Kept.handleOut (.inl running) (fun _ => running) outcome

theorem Running.step_not {event : Event} (running : Running c) (offered : Offered c event)
    (unmet : ¬ Spares c event) : ∀ next, ClosedConn.step c event = some next → Noisy next := by
  cases event with
  | send data outcome => exact absurd trivial unmet
  | destroy => exact absurd trivial unmet
  | ready events readv readCb outcome =>
      simp only [Spares, Classical.not_imp] at unmet
      obtain ⟨-, readable, unmet⟩ := unmet
      rw [ClosedConn.step, handleIO_eq running.opened, if_pos readable]
      cases readv with
      | failed errno =>
          have small : c.inputBuffer.buffer.length < 2 ^ 63 := by
            have room := offered.1
            omega
          have overrun := RecvError.recv_failed_undefined running.valid small errno
          simp [TcpConn.handleRead, overrun]
      | received bytes =>
          simp only [Classical.not_imp, not_not] at unmet
          obtain ⟨writable, reads⟩ := unmet
          obtain ⟨read, returned, kept, closes⟩ := running.handleRead offered.1 offered.2 readCb
          have shut : Shut read := by
            refine kept.resolve_left fun running => ?_
            exact Bool.false_ne_true (running.opened.symm.trans (closes.mpr reads))
          have noisy := shut.handleWrite outcome
          rw [returned]
          rintro next ⟨⟩
          change Noisy (handleHup events (handleOut events outcome read))
          rw [handleOut, if_pos writable, handleHup, close_of_closed noisy.1, ite_self]
          exact noisy

theorem Kept.silent_iff (kept : Kept c) (events : List Event) (offered : Along step Offered c events) :
    (∃ final, run step c events = some final ∧ Silent final) ↔ Along step Spares c events := by
  induction events generalizing c with
  | nil => exact iff_of_true ⟨c, rfl, kept.silent⟩ trivial
  | cons event rest ih =>
      rcases kept with running | shut
      · by_cases spares : Spares c event
        · obtain ⟨next, taken, kept⟩ := running.step offered.1 spares
          simp [run, Along, taken, spares, ih kept (offered.2 next taken)]
        · refine iff_of_false ?_ fun met => spares met.1
          rintro ⟨final, ran, silent⟩
          obtain ⟨next, taken, after⟩ := run_cons.mp ran
          have noisy := running.step_not offered.1 spares next taken
          obtain rfl := Option.some.inj ((run_closed noisy.1 rest).symm.trans after)
          exact noisy.not_silent silent
      · have taken := step_closed shut.1 event
        have spares : Spares c event := by
          cases event with
          | ready events readv readCb outcome => simp [Spares, shut.1]
          | send data outcome => trivial
          | destroy => trivial
        simp [run, Along, taken, spares, ih (.inr shut) (offered.2 c taken)]

theorem create_running (errno : Nat) : Running (.create errno) where
  opened := rfl
  registered := by simp [create]
  descriptor := by simp [create]
  valid := (ofSize_holds (by decide)).toValid

theorem close_silent_iff (errno : Nat) (events : List Event) (offered : Along step Offered (.create errno) events) :
    (∃ c, run step (.create errno) events = some c ∧ Silent c) ↔ Along step Spares (.create errno) events :=
  Kept.silent_iff (.inl (create_running errno)) events offered

def peerCloses (writable : Bool) : List Event :=
  [.send (some [1]) (.failed eagain),
    .ready { writeInterest with epollout := writable } (.received []) none (.accepted 1),
    .send (some [2]) (.accepted 1), .destroy]

theorem close_silent_iff_readable :
    ∃ c, run step (.create 0) (peerCloses false) = some c ∧ Silent c :=
  (close_silent_iff 0 (peerCloses false) (by decide +kernel)).mpr (by decide +kernel)

theorem close_silent_iff_writable :
    Along step Offered (.create 0) (peerCloses true) ∧
      (run step (.create 0) (peerCloses true)).map TcpConn.calls =
        some [.epollAdd readInterest, .send 1, .epollMod writeInterest, .readv, .epollDel, .close, .send 1,
          .epollMod readInterest] ∧
      ¬ ∃ c, run step (.create 0) (peerCloses true) = some c ∧ Silent c := by
  have offered : Along step Offered (.create 0) (peerCloses true) := by decide +kernel
  refine ⟨offered, by decide +kernel, ?_⟩
  rw [Kept.silent_iff (.inl (create_running 0)) _ offered]
  decide +kernel

end CppInfra.Network.ClosedConn
