import CppInfra.Network.MessageBuffer

set_option autoImplicit false

namespace CppInfra.Network.ByteFifo

open Transition MessageBuffer

-- `place` stores bytes at the write pointer by hand and then calls `WriteCompleted`.
inductive Call where
  | write (data : Bytes)
  | recv (bytes : Bytes)
  | readCompleted (size : Nat)
  | place (bytes : Bytes)
  | normalize
  | ensureFreeSpace (size : Nat)
  deriving DecidableEq, Repr

def call (b : MessageBuffer) : Call → Option MessageBuffer
  | .write data => b.write data
  | .recv bytes => (b.recv (.received bytes)).map RecvResult.buffer
  | .readCompleted size => some (b.readCompleted size)
  | .place bytes => do
      let buffer ← memcpy b.buffer b.getWritePointer bytes
      some ({ b with buffer := buffer }.writeCompleted bytes.length)
  | .normalize => b.normalize
  | .ensureFreeSpace size => b.ensureFreeSpace size

-- What callers keep to, with sizes small enough for `size_t`.
def Allowed (b : MessageBuffer) : Call → Prop
  | .write data => b.NoWrap data.length
  | .recv bytes => 0 < bytes.length ∧ bytes.length ≤ b.getFreeSize + extraSize ∧
      b.NoWrap (bytes.length - b.getFreeSize)
  | .readCompleted size => size ≤ b.getActiveSize
  | .place bytes => bytes.length ≤ b.getFreeSize
  | .normalize => True
  | .ensureFreeSpace size => b.NoWrap size

instance (b : MessageBuffer) (c : Call) : Decidable (Allowed b c) := by
  cases c <;> unfold Allowed <;> infer_instance

def Call.appends : Call → Bytes
  | .write data => data
  | .recv bytes => bytes
  | .place bytes => bytes
  | _ => []

def Call.consumes : Call → Nat
  | .readCompleted size => size
  | _ => 0

def appended (calls : List Call) : Bytes := calls.flatMap Call.appends

def consumed (calls : List Call) : Nat := (calls.map Call.consumes).sum

theorem call_holds {b : MessageBuffer} {queue : Bytes} (holds : b.Holds queue) (c : Call)
    (allowed : Allowed b c) :
    ∃ after, call b c = some after ∧ after.Holds ((queue ++ c.appends).drop c.consumes) ∧
      c.consumes ≤ queue.length := by
  cases c with
  | write data =>
      obtain ⟨after, written, held⟩ := holds.write allowed
      exact ⟨after, written, by simpa [Call.appends, Call.consumes] using held, Nat.zero_le _⟩
  | recv bytes =>
      obtain ⟨after, received, held⟩ := holds.recv allowed.1 allowed.2.1 allowed.2.2
      exact ⟨after, by simp [call, received], by simpa [Call.appends, Call.consumes] using held,
        Nat.zero_le _⟩
  | readCompleted size =>
      refine ⟨_, rfl, by simpa [Call.appends, Call.consumes] using holds.readCompleted allowed, ?_⟩
      rw [← holds.content, holds.content_length, ← holds.activeSize]
      exact allowed
  | place bytes =>
      obtain ⟨buffer, copied, held⟩ := holds.complete bytes allowed
      exact ⟨{ b with buffer := buffer }.writeCompleted bytes.length, by simp [call, copied],
        by simpa [Call.appends, Call.consumes] using held, Nat.zero_le _⟩
  | normalize =>
      obtain ⟨moved, normalized, held, -⟩ := holds.normalize
      exact ⟨moved, normalized, by simpa [Call.appends, Call.consumes] using held, Nat.zero_le _⟩
  | ensureFreeSpace size =>
      obtain ⟨roomy, ensured, held, -⟩ := holds.ensureFreeSpace allowed
      exact ⟨roomy, ensured, by simpa [Call.appends, Call.consumes] using held, Nat.zero_le _⟩

def Queue (past : List Call) (b : MessageBuffer) : Prop :=
  consumed past ≤ (appended past).length ∧ b.Holds ((appended past).drop (consumed past))

theorem call_queue (past : List Call) (b : MessageBuffer) (c : Call) (queue : Queue past b)
    (allowed : Allowed b c) : ∃ after, call b c = some after ∧ Queue (past ++ [c]) after := by
  obtain ⟨bounded, holds⟩ := queue
  obtain ⟨after, called, held, consumes⟩ := call_holds holds c allowed
  simp only [List.length_drop] at consumes
  refine ⟨after, called, ?_, ?_⟩
  · simp only [appended, consumed, List.flatMap_append, List.map_append, List.sum_append,
      List.length_append, List.flatMap_singleton, List.map_singleton, List.sum_singleton] at *
    omega
  · rw [← List.drop_append_of_le_length bounded, List.drop_drop] at held
    simpa [appended, consumed] using held

theorem run_queue {size : Nat} (word : size < 2 ^ 64) {calls : List Call}
    (allowed : Along call Allowed (ofSize size) calls) :
    ∃ b, run call (ofSize size) calls = some b ∧ Queue calls b := by
  have initial : Queue [] (ofSize size) := ⟨Nat.zero_le _, by simpa [appended] using ofSize_holds word⟩
  simpa using run_total Queue call_queue initial allowed

theorem messageBuffer_fifo (size : Nat) (calls : List Call) (word : size < 2 ^ 64)
    (allowed : Along call Allowed (ofSize size) calls) :
    ∃ b, run call (ofSize size) calls = some b ∧
      (b.rpos ≤ b.wpos ∧ b.wpos ≤ b.buffer.length) ∧
      (consumed calls ≤ (appended calls).length ∧
        b.content = (appended calls).drop (consumed calls)) ∧
      ∀ n, b.NoWrap n → ∃ roomy, b.ensureFreeSpace n = some roomy ∧ n ≤ roomy.getFreeSize := by
  obtain ⟨b, ran, bounded, holds⟩ := run_queue word allowed
  refine ⟨b, ran, ⟨holds.read, holds.written⟩, ⟨bounded, holds.content⟩, ?_⟩
  intro n small
  obtain ⟨roomy, ensured, -, room⟩ := holds.ensureFreeSpace small
  exact ⟨roomy, ensured, room⟩

theorem messageBuffer_fifo_growing :
    ∃ b, run call (ofSize 4) [.write [1, 2, 3], .readCompleted 2, .recv [4, 5, 6, 7]] = some b ∧
      (b.rpos ≤ b.wpos ∧ b.wpos ≤ b.buffer.length) ∧
      (consumed [.write [1, 2, 3], .readCompleted 2, .recv [4, 5, 6, 7]] ≤ 7 ∧
        b.content = [3, 4, 5, 6, 7]) ∧
      ∀ n, b.NoWrap n → ∃ roomy, b.ensureFreeSpace n = some roomy ∧ n ≤ roomy.getFreeSize :=
  messageBuffer_fifo 4 [.write [1, 2, 3], .readCompleted 2, .recv [4, 5, 6, 7]]
    (by decide) (by decide)

end CppInfra.Network.ByteFifo
