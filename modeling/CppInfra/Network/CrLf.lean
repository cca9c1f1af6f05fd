import CppInfra.Shared.Framing
import CppInfra.Network.MessageBuffer

set_option autoImplicit false

namespace CppInfra.Network

open Words Transition Framing

def carriageReturn : UInt8 := 13
def lineFeed : UInt8 := 10

namespace MessageBuffer

-- The loop of `GetDataUntilCRLF` with `remaining` turns to go. `read i` is `data[i]`; the second
-- byte is read only after the first matched.
def crlfScan (read : Nat → Option UInt8) : Nat → Nat → Option (Option Nat)
  | 0, _ => some none
  | remaining + 1, i => do
      let byte ← read i
      if byte = carriageReturn then
        let following ← read (i + 1)
        if following = lineFeed then some (some i) else crlfScan read remaining (i + 1)
      else crlfScan read remaining (i + 1)

-- The bound `active_size - 1` is a `size_t`: it wraps when the buffer holds no unread byte.
def getDataUntilCRLF (b : MessageBuffer) : Option (Option Nat × Nat) :=
  let data := b.getReadPointer
  (crlfScan (fun i => b.buffer[data + i]?) (sub 64 b.getActiveSize 1) 0).map fun
    | some i => (some data, i)
    | none => (none, 0)

theorem crlfScan_congr {read other : Nat → Option UInt8} {remaining i : Nat}
    (same : ∀ k, i ≤ k → k ≤ i + remaining → read k = other k) :
    crlfScan read remaining i = crlfScan other remaining i := by
  induction remaining generalizing i with
  | zero => rfl
  | succ remaining ih =>
      have rest := @ih (i + 1) fun k low high => same k (by omega) (by omega)
      simp only [crlfScan, same i (by omega) (by omega), same (i + 1) (by omega) (by omega), rest]

theorem crlfScan_list (s : Bytes) (remaining i : Nat) (size : s.length = i + remaining + 1) :
    crlfScan (fun k => s[k]?) remaining i =
      some ((firstPair carriageReturn lineFeed (s.drop i)).map (· + i)) := by
  induction remaining generalizing i with
  | zero =>
      have last : s.drop i = [s[i]] := by
        rw [List.drop_eq_getElem_cons (by omega), List.drop_of_length_le (by omega)]
      simp [crlfScan, last, firstPair]
  | succ remaining ih =>
      have here : s[i]? = some s[i] := List.getElem?_eq_getElem (by omega)
      have following : s[i + 1]? = some s[i + 1] := List.getElem?_eq_getElem (by omega)
      have tail : s.drop (i + 1) = s[i + 1] :: s.drop (i + 2) := List.drop_eq_getElem_cons (by omega)
      have split : s.drop i = s[i] :: s[i + 1] :: s.drop (i + 2) := by
        rw [List.drop_eq_getElem_cons (by omega), tail]
      have shift (found : Option Nat) :
          (found.map (· + 1)).map (· + i) = found.map (· + (i + 1)) := by
        cases found with
        | none => rfl
        | some j =>
            simp only [Option.map_some]
            exact congrArg some (by omega)
      simp only [crlfScan, here, following, Option.bind_eq_bind, Option.bind_some, split, firstPair,
        ih (i + 1) (by omega), tail]
      by_cases first : s[i] = carriageReturn <;> by_cases second : s[i + 1] = lineFeed <;>
        simp only [first, second, if_true, if_false, and_true, and_false, shift, Option.map_some,
          Nat.zero_add]

theorem Holds.crlfScan {b : MessageBuffer} {queue : Bytes} (holds : b.Holds queue)
    (nonempty : 0 < b.getActiveSize) :
    MessageBuffer.crlfScan (fun i => b.buffer[b.getReadPointer + i]?) (sub 64 b.getActiveSize 1) 0 =
      some (firstPair carriageReturn lineFeed queue) := by
  have order := holds.read
  have inside := holds.written
  have word := holds.word
  have active := holds.activeSize
  have length : queue.length = b.getActiveSize := by
    rw [active, ← holds.content_length, holds.content]
  have bound : sub 64 b.getActiveSize 1 = queue.length - 1 := by
    rw [length]
    exact sub_exact nonempty (by omega)
  have inQueue (k : Nat) (within : k < queue.length) : b.buffer[b.getReadPointer + k]? = queue[k]? := by
    rw [← holds.content, holds.content_eq, List.getElem?_take_of_lt (by omega), List.getElem?_drop]
    rfl
  rw [crlfScan_congr fun k _ high => inQueue k (by omega), bound,
    crlfScan_list queue (queue.length - 1) 0 (by omega)]
  simp

end MessageBuffer

def getDataUntilCrLf (input : MessageBuffer) : Option (Bytes × MessageBuffer) := do
  let (first, second) ← input.getDataUntilCRLF
  match first with
  | some data =>
      -- The string is built from `second` bytes at `data`, which must be inside the vector.
      if data + second ≤ input.buffer.length then
        some ((input.buffer.drop data).take second, input.readCompleted (add 64 second 2))
      else none
  | none => some ([], input)

theorem getDataUntilCrLf_none {input : MessageBuffer} {queue : Bytes} (holds : input.Holds queue)
    (nonempty : 0 < input.getActiveSize) (missing : firstPair carriageReturn lineFeed queue = none) :
    input.getDataUntilCRLF = some (none, 0) ∧ getDataUntilCrLf input = some ([], input) := by
  have scanned : input.getDataUntilCRLF = some (none, 0) := by
    simp [MessageBuffer.getDataUntilCRLF, holds.crlfScan nonempty, missing]
  exact ⟨scanned, by simp [getDataUntilCrLf, scanned]⟩

theorem getDataUntilCrLf_some {input : MessageBuffer} {queue : Bytes} {i : Nat} (holds : input.Holds queue)
    (nonempty : 0 < input.getActiveSize) (found : firstPair carriageReturn lineFeed queue = some i) :
    ∃ after, input.getDataUntilCRLF = some (some input.rpos, i) ∧
      getDataUntilCrLf input = some (queue.take i, after) ∧ after.Holds (queue.drop (i + 2)) := by
  have order := holds.read
  have inside := holds.written
  have word := holds.word
  have active := holds.activeSize
  have length : queue.length = input.wpos - input.rpos := by
    rw [← holds.content_length, holds.content]
  have within : i + 2 ≤ queue.length := by
    have total := congrArg List.length (firstPair_split found)
    simp only [List.length_append, List.length_cons, List.length_take, List.length_drop] at total
    omega
  have scanned : input.getDataUntilCRLF = some (some input.rpos, i) := by
    simp only [MessageBuffer.getDataUntilCRLF, holds.crlfScan nonempty, found]
    rfl
  have line : (input.buffer.drop input.rpos).take i = queue.take i := by
    rw [← holds.content, holds.content_eq, List.take_take, Nat.min_eq_left (by omega)]
  have size : add 64 i 2 = i + 2 := add_exact (by omega)
  refine ⟨input.readCompleted (i + 2), scanned, ?_, holds.readCompleted (by omega)⟩
  simp [getDataUntilCrLf, scanned, line, size, show input.rpos + i ≤ input.buffer.length by omega]

namespace CrLf

inductive Event where
  | recv (bytes : Bytes)
  | getDataUntilCrLf
  deriving DecidableEq, Repr

-- An empty line and no line both give the empty string; `found` tells them apart.
structure Reply where
  found : Bool
  line : Bytes
  deriving DecidableEq, Repr

structure Reader where
  input : MessageBuffer
  replies : List Reply
  deriving DecidableEq, Repr

def Reader.ofSize (size : Nat) : Reader := ⟨.ofSize size, []⟩

def Reader.lines (r : Reader) : List Bytes := (r.replies.filter Reply.found).map Reply.line

def step (r : Reader) : Event → Option Reader
  | .recv bytes => do
      let result ← r.input.recv (.received bytes)
      some { r with input := result.buffer }
  | .getDataUntilCrLf => do
      let (pointer, _) ← r.input.getDataUntilCRLF
      let (line, input) ← Network.getDataUntilCrLf r.input
      some ⟨input, r.replies ++ [⟨pointer.isSome, line⟩]⟩

def Allowed (r : Reader) : Event → Prop
  | .recv bytes => 0 < bytes.length ∧ bytes.length ≤ r.input.getFreeSize + MessageBuffer.extraSize ∧
      r.input.NoWrap (bytes.length - r.input.getFreeSize)
  | .getDataUntilCrLf => 0 < r.input.getActiveSize

instance (r : Reader) (e : Event) : Decidable (Allowed r e) := by
  cases e <;> unfold Allowed <;> infer_instance

def received (events : List Event) : Bytes :=
  events.flatMap fun
    | .recv bytes => bytes
    | .getDataUntilCrLf => []

structure Framed (past : List Event) (r : Reader) : Prop where
  isFrame : ∀ line ∈ r.lines, IsFrame carriageReturn lineFeed line
  holds : ∃ rest, r.input.Holds rest ∧ received past = unframe carriageReturn lineFeed r.lines ++ rest

theorem step_framed (past : List Event) (r : Reader) (event : Event) (framed : Framed past r)
    (allowed : Allowed r event) : ∃ next, step r event = some next ∧ Framed (past ++ [event]) next := by
  obtain ⟨isFrame, rest, holds, stream⟩ := framed
  cases event with
  | recv bytes =>
      obtain ⟨after, recvd, held⟩ := holds.recv allowed.1 allowed.2.1 allowed.2.2
      refine ⟨{ r with input := after }, by simp [step, recvd], isFrame, rest ++ bytes, held, ?_⟩
      simp only [received, List.flatMap_append, List.flatMap_singleton] at stream ⊢
      rw [stream, List.append_assoc]
      rfl
  | getDataUntilCrLf =>
      have same : received (past ++ [.getDataUntilCrLf]) = received past := by simp [received]
      cases found : firstPair carriageReturn lineFeed rest with
      | none =>
          obtain ⟨scanned, result⟩ := getDataUntilCrLf_none holds allowed found
          have lines : Reader.lines ⟨r.input, r.replies ++ [⟨false, []⟩]⟩ = r.lines := by
            simp [Reader.lines]
          refine ⟨⟨r.input, r.replies ++ [⟨false, []⟩]⟩, by simp [step, scanned, result],
            by rwa [lines], rest, holds, by rw [lines, same, stream]⟩
      | some i =>
          obtain ⟨after, scanned, result, held⟩ := getDataUntilCrLf_some holds allowed found
          have lines : Reader.lines ⟨after, r.replies ++ [⟨true, rest.take i⟩]⟩ =
              r.lines ++ [rest.take i] := by simp [Reader.lines]
          refine ⟨⟨after, r.replies ++ [⟨true, rest.take i⟩]⟩, by simp [step, scanned, result], ?_,
            rest.drop (i + 2), held, ?_⟩
          · rw [lines]
            intro line member
            rcases List.mem_append.mp member with earlier | last
            · exact isFrame line earlier
            · rw [List.mem_singleton.mp last]
              exact isFrame_take found
          · rw [lines, same, stream]
            conv_lhs => rw [firstPair_split found]
            simp [unframe]

theorem run_framed {size : Nat} (word : size < 2 ^ 64) {events : List Event}
    (allowed : Along step Allowed (.ofSize size) events) :
    ∃ r, run step (.ofSize size) events = some r ∧ Framed events r := by
  have initial : Framed [] (.ofSize size) :=
    ⟨by simp [Reader.lines, Reader.ofSize], [], MessageBuffer.ofSize_holds word,
      by simp [received, unframe, Reader.lines, Reader.ofSize]⟩
  simpa using run_total Framed step_framed initial allowed

def NextCall (r : Reader) : Prop :=
  ∃ next, step r .getDataUntilCrLf = some next ∧
    (next = { r with replies := r.replies ++ [⟨false, []⟩] } ∧
        firstPair carriageReturn lineFeed r.input.content = none ∨
      ∃ line, next.replies = r.replies ++ [⟨true, line⟩] ∧
        IsFrame carriageReturn lineFeed line ∧
        r.input.content = line ++ [carriageReturn, lineFeed] ++ next.input.content)

theorem Framed.nextCall {past : List Event} {r : Reader} (framed : Framed past r)
    (nonempty : 0 < r.input.getActiveSize) : NextCall r := by
  obtain ⟨-, rest, holds, -⟩ := framed
  rw [NextCall, holds.content]
  cases found : firstPair carriageReturn lineFeed rest with
  | none =>
      obtain ⟨scanned, result⟩ := getDataUntilCrLf_none holds nonempty found
      exact ⟨_, by simp [step, scanned, result], .inl ⟨rfl, rfl⟩⟩
  | some i =>
      obtain ⟨after, scanned, result, held⟩ := getDataUntilCrLf_some holds nonempty found
      refine ⟨⟨after, r.replies ++ [⟨true, rest.take i⟩]⟩, by simp [step, scanned, result],
        .inr ⟨rest.take i, rfl, isFrame_take found, ?_⟩⟩
      rw [held.content]
      simpa using firstPair_split found

theorem getDataUntilCrLf_lines (stream : Bytes) (size : Nat) (events : List Event) (word : size < 2 ^ 64)
    (arrived : received events <+: stream) (allowed : Along step Allowed (.ofSize size) events) :
    ∃ r, run step (.ofSize size) events = some r ∧
      r.lines <+: (frames carriageReturn lineFeed stream).1 ∧
      received events = unframe carriageReturn lineFeed r.lines ++ r.input.content ∧
      (0 < r.input.getActiveSize → NextCall r) := by
  obtain ⟨r, ran, framed⟩ := run_framed word allowed
  obtain ⟨rest, holds, sofar⟩ := framed.holds
  refine ⟨r, ran, ?_, by rw [holds.content, sofar], framed.nextCall⟩
  obtain ⟨later, rfl⟩ := arrived
  rw [sofar, List.append_assoc, frames_unframe framed.isFrame]
  exact List.prefix_append _ _

theorem getDataUntilCrLf_lines_split :
    ∃ r, run step (.ofSize 2) [.recv [65, 13], .getDataUntilCrLf, .recv [10, 66], .getDataUntilCrLf] = some r ∧
      r.lines <+: [[65], [66]] ∧ [65, 13, 10, 66] = unframe carriageReturn lineFeed r.lines ++ r.input.content ∧
      (0 < r.input.getActiveSize → NextCall r) :=
  getDataUntilCrLf_lines [65, 13, 10, 66, 13, 10] 2
    [.recv [65, 13], .getDataUntilCrLf, .recv [10, 66], .getDataUntilCrLf]
    (by decide) (by decide) (by decide)

end CrLf

end CppInfra.Network
