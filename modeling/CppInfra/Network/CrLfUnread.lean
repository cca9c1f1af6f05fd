import Mathlib.Data.Nat.Find
import Mathlib.Order.Bounds.Basic
import CppInfra.Network.ByteFifo
import CppInfra.Network.CrLf

set_option autoImplicit false

namespace CppInfra.Network

open Words Transition Framing

namespace MessageBuffer

-- A reader of the bytes `[rpos_, wpos_)` only: every other read has no result.
def unreadByte (b : MessageBuffer) (i : Nat) : Option UInt8 :=
  if b.rpos + i < b.wpos then b.buffer[b.getReadPointer + i]? else none

def CrLfAt (b : MessageBuffer) (i : Nat) : Prop :=
  b.content[i]? = some carriageReturn ∧ b.content[i + 1]? = some lineFeed

structure LooksOnlyAtUnread (b : MessageBuffer) : Prop where
  inside : (crlfScan b.unreadByte (sub 64 b.getActiveSize 1) 0).isSome
  found : ∀ i, b.getDataUntilCRLF = some (some b.getReadPointer, i) ↔ IsLeast {i | b.CrLfAt i} i
  absent : b.getDataUntilCRLF = some (none, 0) ↔ ∀ i, ¬ b.CrLfAt i

theorem firstPair_content_iff (b : MessageBuffer) (i : Nat) :
    firstPair carriageReturn lineFeed b.content = some i ↔ IsLeast {i | b.CrLfAt i} i := by
  rw [firstPair_some_iff]
  refine and_congr_right fun _ => ⟨fun least j here => ?_, fun lower j below here => ?_⟩
  · by_contra before
    exact least j (Nat.lt_of_not_le before) here
  · exact absurd (lower here) (Nat.not_le_of_lt below)

theorem firstPair_content_none (b : MessageBuffer) :
    firstPair carriageReturn lineFeed b.content = none ↔ ∀ i, ¬ b.CrLfAt i := by
  constructor
  · intro missing i here
    -- The least match would have been found.
    classical
    have somewhere : ∃ j, b.CrLfAt j := ⟨i, here⟩
    have least := (firstPair_content_iff b _).mpr ⟨Nat.find_spec somewhere, fun j => Nat.find_min' somewhere⟩
    rw [missing] at least
    cases least
  · intro nowhere
    cases found : firstPair carriageReturn lineFeed b.content with
    | none => rfl
    | some i => exact absurd ((firstPair_content_iff b i).mp found).1 (nowhere i)

theorem Valid.scan {b : MessageBuffer} (valid : b.Valid) (nonempty : 0 < b.getActiveSize) :
    b.getDataUntilCRLF = some (match firstPair carriageReturn lineFeed b.content with
      | some i => (some b.getReadPointer, i)
      | none => (none, 0)) := by
  have holds : b.Holds b.content := ⟨valid, rfl⟩
  have scanned := holds.crlfScan nonempty
  cases found : firstPair carriageReturn lineFeed b.content with
  | none => simp [getDataUntilCRLF, scanned, found]
  | some i => simp [getDataUntilCRLF, scanned, found]

theorem Valid.looksOnlyAtUnread {b : MessageBuffer} (valid : b.Valid) (nonempty : 0 < b.getActiveSize) :
    b.LooksOnlyAtUnread := by
  have scanned := valid.scan nonempty
  have active := valid.activeSize
  have word := valid.word
  have inside := valid.written
  have holds : b.Holds b.content := ⟨valid, rfl⟩
  have bound : sub 64 b.getActiveSize 1 = b.getActiveSize - 1 := sub_exact nonempty (by omega)
  refine ⟨?_, fun i => ?_, ?_⟩
  · have same : crlfScan b.unreadByte (sub 64 b.getActiveSize 1) 0 =
        crlfScan (fun i => b.buffer[b.getReadPointer + i]?) (sub 64 b.getActiveSize 1) 0 :=
      crlfScan_congr fun k _ high => if_pos (by omega)
    rw [same, holds.crlfScan nonempty]
    rfl
  · rw [scanned, ← firstPair_content_iff]
    cases firstPair carriageReturn lineFeed b.content <;> simp
  · rw [scanned, ← firstPair_content_none]
    cases firstPair carriageReturn lineFeed b.content <;> simp

theorem Valid.not_looksOnlyAtUnread {b : MessageBuffer} (valid : b.Valid) (empty : b.getActiveSize = 0) :
    ¬ b.LooksOnlyAtUnread := by
  intro looks
  have active := valid.activeSize
  have outside : b.unreadByte 0 = none := if_neg (by omega)
  have bound : sub 64 b.getActiveSize 1 = (2 ^ 64 - 2) + 1 := by rw [empty]; decide
  have inside := looks.inside
  rw [bound, crlfScan, outside] at inside
  cases inside

theorem Valid.looksOnlyAtUnread_iff {b : MessageBuffer} (valid : b.Valid) :
    b.LooksOnlyAtUnread ↔ 0 < b.getActiveSize := by
  refine ⟨fun looks => ?_, valid.looksOnlyAtUnread⟩
  by_contra empty
  exact valid.not_looksOnlyAtUnread (by omega) looks

theorem crlfScan_absent {read : Nat → Option UInt8} {remaining i : Nat}
    (scanned : crlfScan read remaining i = some none) (k : Nat) (low : i ≤ k) (high : k < i + remaining) :
    (read k).isSome := by
  induction remaining generalizing i with
  | zero => omega
  | succ remaining ih =>
      simp only [crlfScan, Option.bind_eq_bind, Option.bind_eq_some_iff] at scanned
      obtain ⟨byte, here, rest⟩ := scanned
      by_cases first : k = i
      · simp [first, here]
      split_ifs at rest with cr
      · obtain ⟨following, -, rest⟩ := Option.bind_eq_some_iff.mp rest
        split_ifs at rest with lf
        · cases rest
        · exact ih rest (by omega) (by omega)
      · exact ih rest (by omega) (by omega)

theorem crlfScan_found {read : Nat → Option UInt8} {remaining i k : Nat}
    (scanned : crlfScan read remaining i = some (some k)) : (read (k + 1)).isSome := by
  induction remaining generalizing i with
  | zero => simp [crlfScan] at scanned
  | succ remaining ih =>
      simp only [crlfScan, Option.bind_eq_bind, Option.bind_eq_some_iff] at scanned
      obtain ⟨byte, -, rest⟩ := scanned
      split_ifs at rest with cr
      · obtain ⟨following, next, rest⟩ := Option.bind_eq_some_iff.mp rest
        split_ifs at rest with lf
        · obtain rfl : i = k := by simpa using rest
          simp [next]
        · exact ih rest
      · exact ih rest

end MessageBuffer

theorem getDataUntilCrLf_empty {b after : MessageBuffer} {line : Bytes} (valid : b.Valid)
    (small : b.buffer.length < 2 ^ 64 - 1) (empty : b.getActiveSize = 0)
    (called : getDataUntilCrLf b = some (line, after)) : after.wpos < after.rpos := by
  have active := valid.activeSize
  have order := valid.read
  have inside := valid.written
  have bound : sub 64 b.getActiveSize 1 = 2 ^ 64 - 1 := by rw [empty]; decide
  cases scanned : MessageBuffer.crlfScan (fun i => b.buffer[b.getReadPointer + i]?)
      (sub 64 b.getActiveSize 1) 0 with
  | none => simp [getDataUntilCrLf, MessageBuffer.getDataUntilCRLF, scanned] at called
  | some found =>
      cases found with
      | none =>
          rw [bound] at scanned
          have past := MessageBuffer.crlfScan_absent scanned (b.buffer.length - b.rpos) (by omega) (by omega)
          simp only [MessageBuffer.getReadPointer, isSome_getElem?] at past
          omega
      | some k =>
          have next := MessageBuffer.crlfScan_found scanned
          simp only [MessageBuffer.getReadPointer, isSome_getElem?] at next
          have size : add 64 k 2 = k + 2 := add_exact (by omega)
          have rpos : add 64 b.rpos (k + 2) = b.rpos + (k + 2) := add_exact (by omega)
          simp only [getDataUntilCrLf, MessageBuffer.getDataUntilCRLF, scanned, Option.map_some,
            Option.bind_eq_bind, Option.bind_some, size] at called
          split_ifs at called
          obtain ⟨-, rfl⟩ := Prod.mk.inj (Option.some.inj called)
          simp only [MessageBuffer.readCompleted, rpos]
          omega

namespace CrLfUnread

inductive Use where
  | call (c : ByteFifo.Call)
  | getDataUntilCrLf
  deriving DecidableEq, Repr

def step (b : MessageBuffer) : Use → Option MessageBuffer
  | .call c => ByteFifo.call b c
  | .getDataUntilCrLf => (getDataUntilCrLf b).map Prod.snd

def Allowed (b : MessageBuffer) : Use → Prop
  | .call c => ByteFifo.Allowed b c
  | .getDataUntilCrLf => 0 < b.getActiveSize

instance (b : MessageBuffer) (use : Use) : Decidable (Allowed b use) := by
  cases use <;> unfold Allowed <;> infer_instance

theorem getDataUntilCrLf_valid {b : MessageBuffer} (valid : b.Valid) (nonempty : 0 < b.getActiveSize) :
    ∃ line after, getDataUntilCrLf b = some (line, after) ∧ after.Valid := by
  have holds : b.Holds b.content := ⟨valid, rfl⟩
  cases found : firstPair carriageReturn lineFeed b.content with
  | none => exact ⟨[], b, (getDataUntilCrLf_none holds nonempty found).2, valid⟩
  | some i =>
      obtain ⟨after, -, called, held⟩ := getDataUntilCrLf_some holds nonempty found
      exact ⟨_, after, called, held.toValid⟩

theorem step_valid (b : MessageBuffer) (use : Use) (valid : b.Valid) (allowed : Allowed b use) :
    ∃ after, step b use = some after ∧ after.Valid := by
  cases use with
  | call c =>
      have holds : b.Holds b.content := ⟨valid, rfl⟩
      obtain ⟨after, called, held, -⟩ := ByteFifo.call_holds holds c allowed
      exact ⟨after, called, held.toValid⟩
  | getDataUntilCrLf =>
      obtain ⟨line, after, called, held⟩ := getDataUntilCrLf_valid valid allowed
      exact ⟨after, by simp [step, called], held⟩

def NextKeeps (b : MessageBuffer) : Prop :=
  ∃ after, step b .getDataUntilCrLf = some after ∧ after.rpos ≤ after.wpos

theorem nextKeeps_iff {b : MessageBuffer} (valid : b.Valid) (small : b.buffer.length < 2 ^ 64 - 1) :
    NextKeeps b ↔ 0 < b.getActiveSize := by
  constructor
  · rintro ⟨after, stepped, order⟩
    rw [step, Option.map_eq_some_iff] at stepped
    obtain ⟨⟨line, next⟩, called, rfl⟩ := stepped
    by_contra empty
    have passed := getDataUntilCrLf_empty valid small (by omega) called
    exact absurd order (Nat.not_le_of_lt passed)
  · intro nonempty
    obtain ⟨line, after, called, held⟩ := getDataUntilCrLf_valid valid nonempty
    exact ⟨after, by simp [step, called], held.read⟩

theorem getDataUntilCRLF_unread (size : Nat) (uses : List Use) (word : size < 2 ^ 64)
    (allowed : Along step Allowed (.ofSize size) uses) :
    ∃ b, run step (.ofSize size) uses = some b ∧ b.rpos ≤ b.wpos ∧
      (b.LooksOnlyAtUnread ↔ 0 < b.getActiveSize) ∧
      (b.buffer.length < 2 ^ 64 - 1 → (NextKeeps b ↔ 0 < b.getActiveSize)) := by
  have initial : (MessageBuffer.ofSize size).Valid := (MessageBuffer.ofSize_holds word).toValid
  obtain ⟨b, ran, valid⟩ := run_possible MessageBuffer.Valid step_valid initial allowed
  exact ⟨b, ran, valid.read, valid.looksOnlyAtUnread_iff, nextKeeps_iff valid⟩

-- Two lines fill the buffer and are taken; a third arrives in front of the second, is taken too,
-- and the buffer is empty with the second line behind the write position.
def draining : List Use :=
  [.call (.recv [65, 13, 10, 66, 13, 10]), .getDataUntilCrLf, .getDataUntilCrLf,
    .call (.recv [67, 13, 10]), .getDataUntilCrLf]

theorem getDataUntilCRLF_unread_draining :
    ∃ b, run step (.ofSize 6) draining = some b ∧ b.rpos ≤ b.wpos ∧
      (b.LooksOnlyAtUnread ↔ 0 < b.getActiveSize) ∧
      (b.buffer.length < 2 ^ 64 - 1 → (NextKeeps b ↔ 0 < b.getActiveSize)) :=
  getDataUntilCRLF_unread 6 draining (by decide) (by decide)

-- Asked for a line once more, the drained connection hands out the second one again.
theorem getDataUntilCRLF_stale :
    ∃ b, run step (.ofSize 6) draining = some b ∧ b.getActiveSize = 0 ∧ b.content = [] ∧
      b.getDataUntilCRLF = some (some 3, 1) ∧ getDataUntilCrLf b = some ([66], { b with rpos := 6 }) ∧
      b.wpos < 6 ∧ ¬ b.LooksOnlyAtUnread := by
  refine ⟨⟨[67, 13, 10, 66, 13, 10], 3, 3⟩, by decide, by decide, by decide, by decide, by decide,
    by decide, ?_⟩
  intro looks
  have outside := looks.inside
  revert outside
  decide

end CrLfUnread

end CppInfra.Network
