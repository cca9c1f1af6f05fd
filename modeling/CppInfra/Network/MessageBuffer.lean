import CppInfra.Shared.Transition
import CppInfra.Shared.Words

set_option autoImplicit false

namespace CppInfra.Network

open Words Transition

abbrev Bytes := List UInt8

-- The errno values the network code compares against, as Linux numbers them.
def eagain : Nat := 11
def ewouldblock : Nat := 11
def econnreset : Nat := 104

-- A pointer into the vector is its offset.
structure MessageBuffer where
  buffer : Bytes
  rpos : Nat
  wpos : Nat
  deriving DecidableEq, Repr

namespace MessageBuffer

def ofSize (size : Nat) : MessageBuffer := { buffer := List.replicate size 0, rpos := 0, wpos := 0 }

def getReadPointer (b : MessageBuffer) : Nat := b.rpos

def getWritePointer (b : MessageBuffer) : Nat := b.wpos

def readCompleted (b : MessageBuffer) (size : Nat) : MessageBuffer :=
  { b with rpos := add 64 b.rpos size }

def writeCompleted (b : MessageBuffer) (size : Nat) : MessageBuffer :=
  { b with wpos := add 64 b.wpos size }

def getActiveSize (b : MessageBuffer) : Nat := sub 64 b.wpos b.rpos

def getFreeSize (b : MessageBuffer) : Nat := sub 64 b.buffer.length b.wpos

def getBufferSize (b : MessageBuffer) : Nat := b.buffer.length

-- A copy that leaves the vector has no result.
def memcpy (buffer : Bytes) (dst : Nat) (data : Bytes) : Option Bytes :=
  if dst + data.length ≤ buffer.length then
    some (buffer.take dst ++ data ++ buffer.drop (dst + data.length))
  else none

def memmove (buffer : Bytes) (dst src size : Nat) : Option Bytes :=
  if src + size ≤ buffer.length then memcpy buffer dst ((buffer.drop src).take size) else none

-- New elements of a resized vector are zero. The allocation itself is taken to succeed.
def resize (buffer : Bytes) (size : Nat) : Bytes :=
  buffer.take size ++ List.replicate (size - buffer.length) 0

def normalize (b : MessageBuffer) : Option MessageBuffer :=
  if b.rpos > 0 then do
    let buffer ← memmove b.buffer 0 b.rpos b.getActiveSize
    some { buffer := buffer, rpos := 0, wpos := sub 64 b.wpos b.rpos }
  else some b

def ensureFreeSpace (b : MessageBuffer) (size : Nat) : Option MessageBuffer :=
  if sub 64 b.getBufferSize b.getActiveSize < size then do
    let b ← b.normalize
    some { b with buffer := resize b.buffer (add 64 b.buffer.length (max size (b.buffer.length / 2))) }
  else if b.getFreeSize < size then b.normalize
  else some b

def write (b : MessageBuffer) (data : Bytes) : Option MessageBuffer :=
  if data.length > 0 then do
    let b ← b.ensureFreeSpace data.length
    let buffer ← memcpy b.buffer b.getWritePointer data
    some ({ b with buffer := buffer }.writeCompleted data.length)
  else some b

def getAllData (b : MessageBuffer) : Nat × Nat := (b.getReadPointer, b.getActiveSize)

inductive Readv where
  | failed (errno : Nat)
  | received (bytes : Bytes)
  deriving DecidableEq, Repr

structure RecvResult where
  buffer : MessageBuffer
  value : Int
  err : Option Nat
  deriving DecidableEq, Repr

def extraSize : Nat := 65535

-- What `Recv` does once `readv` has returned `n`. The source holds `n` in a `size_t`, so its test
-- `n < 0` never succeeds and the branch that stores `errno` is dead.
def recvReturn (b : MessageBuffer) (n : Nat) (extra : Bytes) : Option RecvResult :=
  if n = 0 then some ⟨b, 0, some econnreset⟩
  else if n ≤ b.getFreeSize then some ⟨b.writeCompleted n, toSigned 32 n, none⟩
  else
    let extraBytes := sub 64 n b.getFreeSize
    let full := b.writeCompleted b.getFreeSize
    -- `Write` reads `extraBytes` bytes of `extra`, which holds only `extraSize`.
    if extraBytes ≤ extraSize then do
      let b ← full.write (extra.take extraBytes)
      some ⟨b, toSigned 32 n, none⟩
    else none

-- `readv` fills the free tail first and `extra` with what does not fit there.
def recv (b : MessageBuffer) : Readv → Option RecvResult
  | .failed _ => recvReturn b (2 ^ 64 - 1) (List.replicate extraSize 0)
  | .received bytes => do
      let buffer ← memcpy b.buffer b.getWritePointer (bytes.take b.getFreeSize)
      let spilled := bytes.drop b.getFreeSize
      recvReturn { b with buffer := buffer } bytes.length
        (spilled ++ List.replicate (extraSize - spilled.length) 0)

def content (b : MessageBuffer) : Bytes := (b.buffer.drop b.getAllData.1).take b.getAllData.2

structure Valid (b : MessageBuffer) : Prop where
  read : b.rpos ≤ b.wpos
  written : b.wpos ≤ b.buffer.length
  word : b.buffer.length < 2 ^ 64

structure Holds (b : MessageBuffer) (queue : Bytes) : Prop extends Valid b where
  content : b.content = queue

def NoWrap (b : MessageBuffer) (size : Nat) : Prop :=
  b.buffer.length + max size (b.buffer.length / 2) < 2 ^ 64

instance (b : MessageBuffer) (size : Nat) : Decidable (b.NoWrap size) :=
  inferInstanceAs (Decidable (_ < _))

theorem Valid.activeSize {b : MessageBuffer} (valid : b.Valid) : b.getActiveSize = b.wpos - b.rpos := by
  have := valid.read
  have := valid.written
  have := valid.word
  exact sub_exact (by omega) (by omega)

theorem Valid.freeSize {b : MessageBuffer} (valid : b.Valid) :
    b.getFreeSize = b.buffer.length - b.wpos :=
  sub_exact valid.written valid.word

theorem Valid.content_eq {b : MessageBuffer} (valid : b.Valid) :
    b.content = (b.buffer.drop b.rpos).take (b.wpos - b.rpos) := by
  simp [content, getAllData, getReadPointer, valid.activeSize]

theorem Valid.content_length {b : MessageBuffer} (valid : b.Valid) :
    b.content.length = b.wpos - b.rpos := by
  have := valid.written
  rw [valid.content_eq]
  simp only [List.length_take, List.length_drop]
  omega

theorem ofSize_holds {size : Nat} (word : size < 2 ^ 64) : (ofSize size).Holds [] where
  read := by simp [ofSize]
  written := by simp [ofSize]
  word := by simpa [ofSize] using word
  content := by simp [ofSize, MessageBuffer.content, getAllData, getActiveSize, sub]

theorem memcpy_inside {buffer data : Bytes} {dst : Nat} (inside : dst + data.length ≤ buffer.length) :
    memcpy buffer dst data =
      some (buffer.take dst ++ data ++ buffer.drop (dst + data.length)) := if_pos inside

theorem memcpy_length {buffer data copied : Bytes} {dst : Nat} (done : memcpy buffer dst data = some copied) :
    copied.length = buffer.length := by
  unfold memcpy at done
  split at done
  · obtain rfl := Option.some.inj done
    simp only [List.length_append, List.length_take, List.length_drop]
    omega
  · cases done

theorem Holds.complete {b : MessageBuffer} {queue : Bytes} (holds : b.Holds queue) (data : Bytes)
    (room : data.length ≤ b.getFreeSize) :
    ∃ buffer, memcpy b.buffer b.getWritePointer data = some buffer ∧
      ({ b with buffer := buffer }.writeCompleted data.length).Holds (queue ++ data) := by
  have order := holds.read
  have inside := holds.written
  have word := holds.word
  rw [holds.freeSize] at room
  simp only [getWritePointer]
  refine ⟨_, memcpy_inside (by omega), ?_⟩
  have wpos : add 64 b.wpos data.length = b.wpos + data.length := add_exact (by omega)
  have valid : ({ b with buffer := b.buffer.take b.wpos ++ data ++ b.buffer.drop (b.wpos + data.length) }
      |>.writeCompleted data.length).Valid := by
    constructor <;> simp only [writeCompleted, wpos, List.length_append, List.length_take,
      List.length_drop] <;> omega
  refine ⟨valid, ?_⟩
  have before : (b.buffer.take b.wpos).length = b.wpos := by
    simp only [List.length_take]
    omega
  have queued := holds.content
  rw [holds.content_eq, ← List.drop_take] at queued
  have queueLength : queue.length = b.wpos - b.rpos := by
    rw [← queued]
    simp only [List.length_drop, before]
  rw [valid.content_eq]
  simp only [writeCompleted, wpos, List.append_assoc]
  rw [List.drop_append_of_le_length (by omega), queued, ← List.append_assoc,
    List.take_append_of_le_length (by simp only [List.length_append]; omega), List.take_of_length_le]
  simp only [List.length_append]
  omega

theorem Holds.normalize {b : MessageBuffer} {queue : Bytes} (holds : b.Holds queue) :
    ∃ moved, b.normalize = some moved ∧ moved.Holds queue ∧
      moved.buffer.length = b.buffer.length ∧ moved.wpos = b.wpos - b.rpos := by
  have order := holds.read
  have inside := holds.written
  have word := holds.word
  by_cases atFront : b.rpos > 0
  · have size : ((b.buffer.drop b.rpos).take (b.wpos - b.rpos)).length = b.wpos - b.rpos := by
      simp only [List.length_take, List.length_drop]
      omega
    have wpos : sub 64 b.wpos b.rpos = b.wpos - b.rpos := sub_exact order (by omega)
    have active := holds.activeSize
    obtain ⟨buffer, copied, moved⟩ : ∃ buffer,
        memcpy b.buffer 0 ((b.buffer.drop b.rpos).take (b.wpos - b.rpos)) = some buffer ∧
          buffer.take (b.wpos - b.rpos) = (b.buffer.drop b.rpos).take (b.wpos - b.rpos) := by
      refine ⟨_, memcpy_inside (by omega), ?_⟩
      simp only [List.take_zero, List.nil_append]
      exact List.take_left' size
    have length := memcpy_length copied
    simp only [MessageBuffer.normalize, atFront, if_true, memmove, active, copied, wpos,
      if_pos (show b.rpos + (b.wpos - b.rpos) ≤ b.buffer.length by omega)]
    have valid : MessageBuffer.Valid ⟨buffer, 0, b.wpos - b.rpos⟩ := by
      constructor <;> simp only <;> omega
    refine ⟨_, rfl, ⟨valid, ?_⟩, length, rfl⟩
    rw [valid.content_eq, ← holds.content, holds.content_eq]
    simpa using moved
  · have zero : b.rpos = 0 := by omega
    exact ⟨b, by simp [MessageBuffer.normalize, zero], holds, rfl, by omega⟩

theorem Holds.grow {b : MessageBuffer} {queue : Bytes} (holds : b.Holds queue) {size : Nat}
    (larger : b.buffer.length ≤ size) (word : size < 2 ^ 64) :
    ({ b with buffer := MessageBuffer.resize b.buffer size }).Holds queue := by
  have order := holds.read
  have inside := holds.written
  have grown : resize b.buffer size = b.buffer ++ List.replicate (size - b.buffer.length) 0 := by
    rw [resize, List.take_of_length_le larger]
  have valid : ({ b with buffer := resize b.buffer size }).Valid := by
    constructor <;> simp only [grown, List.length_append, List.length_replicate] <;> omega
  refine ⟨valid, ?_⟩
  rw [valid.content_eq, ← holds.content, holds.content_eq]
  simp only [grown]
  rw [List.drop_append_of_le_length (by omega), List.take_append_of_le_length]
  simp only [List.length_drop]
  omega

theorem Holds.ensureFreeSpace {b : MessageBuffer} {queue : Bytes} (holds : b.Holds queue) {size : Nat}
    (small : b.NoWrap size) :
    ∃ roomy, b.ensureFreeSpace size = some roomy ∧ roomy.Holds queue ∧ size ≤ roomy.getFreeSize := by
  have order := holds.read
  have inside := holds.written
  have word := holds.word
  have active := holds.activeSize
  have total : sub 64 b.getBufferSize b.getActiveSize = b.buffer.length - (b.wpos - b.rpos) := by
    rw [active]
    exact sub_exact (by simp only [getBufferSize]; omega) word
  unfold NoWrap at small
  obtain ⟨moved, normalized, movedHolds, sameSize, wpos⟩ := holds.normalize
  simp only [MessageBuffer.ensureFreeSpace, total, normalized]
  split_ifs with full late
  · -- Even the compacted buffer is too small: it grows.
    have target : add 64 moved.buffer.length (max size (moved.buffer.length / 2)) =
        b.buffer.length + max size (b.buffer.length / 2) := by
      rw [sameSize]
      exact add_exact small
    simp only [Option.bind_eq_bind, Option.bind_some, target]
    have grown := movedHolds.grow (by rw [sameSize]; exact Nat.le_add_right _ _) small
    refine ⟨_, rfl, grown, ?_⟩
    rw [grown.freeSize]
    simp only [resize, List.length_append, List.length_take, List.length_replicate, sameSize, wpos]
    omega
  · -- The room is there, but in front of the unread bytes.
    refine ⟨moved, rfl, movedHolds, ?_⟩
    rw [movedHolds.freeSize, sameSize, wpos]
    omega
  · exact ⟨b, rfl, holds, by omega⟩

theorem Holds.write {b : MessageBuffer} {queue data : Bytes} (holds : b.Holds queue)
    (small : b.NoWrap data.length) :
    ∃ after, b.write data = some after ∧ after.Holds (queue ++ data) := by
  unfold MessageBuffer.write
  split_ifs with some
  · obtain ⟨roomy, ensured, roomyHolds, room⟩ := holds.ensureFreeSpace small
    obtain ⟨buffer, copied, completed⟩ := roomyHolds.complete data room
    exact ⟨_, by simp [ensured, copied], completed⟩
  · have empty : data = [] := List.length_eq_zero_iff.mp (by omega)
    exact ⟨b, rfl, by simpa [empty] using holds⟩

theorem Holds.recv {b : MessageBuffer} {queue bytes : Bytes} (holds : b.Holds queue)
    (nonempty : 0 < bytes.length) (bounded : bytes.length ≤ b.getFreeSize + extraSize)
    (small : b.NoWrap (bytes.length - b.getFreeSize)) :
    ∃ after, b.recv (.received bytes) = some ⟨after, toSigned 32 bytes.length, none⟩ ∧
      after.Holds (queue ++ bytes) := by
  have inside := holds.written
  have word := holds.word
  have free := holds.freeSize
  obtain ⟨buffer, copied, completed⟩ := holds.complete (bytes.take b.getFreeSize) (by simp)
  have sameFree : getFreeSize { b with buffer := buffer } = b.getFreeSize := by
    simp only [getFreeSize, memcpy_length copied]
  simp only [MessageBuffer.recv, copied, Option.bind_eq_bind, Option.bind_some, recvReturn, sameFree,
    if_neg (show ¬ bytes.length = 0 by omega)]
  split_ifs with fits enough
  · rw [List.take_of_length_le fits] at completed
    exact ⟨_, rfl, completed⟩
  · -- The tail is full; the rest goes through `Write`.
    unfold NoWrap at small
    have wide : bytes.length < 2 ^ 64 := by omega
    have extraBytes : sub 64 bytes.length b.getFreeSize = (bytes.drop b.getFreeSize).length := by
      rw [sub_exact (by omega) wide, List.length_drop]
    have tail : (bytes.take b.getFreeSize).length = b.getFreeSize := by
      simp only [List.length_take]
      omega
    rw [tail] at completed
    have roomForRest : (writeCompleted { b with buffer := buffer } b.getFreeSize).NoWrap
        (bytes.drop b.getFreeSize).length := by
      simp only [NoWrap, writeCompleted, memcpy_length copied, List.length_drop]
      exact small
    obtain ⟨after, written, afterHolds⟩ := completed.write roomForRest
    rw [extraBytes, List.take_left' rfl, written]
    refine ⟨after, rfl, ?_⟩
    simpa [List.append_assoc] using afterHolds
  · unfold NoWrap at small
    rw [sub_exact (by omega) (by omega)] at enough
    omega

theorem Holds.readCompleted {b : MessageBuffer} {queue : Bytes} (holds : b.Holds queue) {size : Nat}
    (bounded : size ≤ b.getActiveSize) : (b.readCompleted size).Holds (queue.drop size) := by
  have order := holds.read
  have inside := holds.written
  have word := holds.word
  rw [holds.activeSize] at bounded
  have rpos : add 64 b.rpos size = b.rpos + size := add_exact (by omega)
  have valid : (b.readCompleted size).Valid := by
    constructor <;> simp only [MessageBuffer.readCompleted, rpos] <;> omega
  refine ⟨valid, ?_⟩
  rw [valid.content_eq, ← holds.content, holds.content_eq]
  simp only [MessageBuffer.readCompleted, rpos, List.drop_take, List.drop_drop]
  congr 1
  omega

end MessageBuffer

end CppInfra.Network
