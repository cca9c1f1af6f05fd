import Mathlib.Data.List.Infix

set_option autoImplicit false

namespace CppInfra.Framing

variable {A : Type*} [DecidableEq A]

def firstPair (a b : A) : List A → Option Nat
  | x :: y :: rest =>
      if x = a ∧ y = b then some 0 else (firstPair a b (y :: rest)).map (· + 1)
  | _ => none

-- The complete frames of a stream, without their delimiters, and what follows the last of them.
def frames (a b : A) : List A → List (List A) × List A
  | x :: y :: rest =>
      if x = a ∧ y = b then
        ([] :: (frames a b rest).1, (frames a b rest).2)
      else
        match frames a b (y :: rest) with
        | ([], tail) => ([], x :: tail)
        | (line :: lines, tail) => ((x :: line) :: lines, tail)
  | short => ([], short)

def unframe (a b : A) (lines : List (List A)) : List A :=
  lines.flatMap fun line => line ++ [a, b]

theorem firstPair_split {a b : A} {s : List A} {i : Nat} (found : firstPair a b s = some i) :
    s = s.take i ++ a :: b :: s.drop (i + 2) := by
  induction s generalizing i with
  | nil => simp [firstPair] at found
  | cons x rest ih =>
      cases rest with
      | nil => simp [firstPair] at found
      | cons y rest =>
          by_cases here : x = a ∧ y = b
          · obtain rfl : 0 = i := by simpa [firstPair, here] using found
            simp [here]
          · simp only [firstPair, here, if_false, Option.map_eq_some_iff] at found
            obtain ⟨j, foundLater, rfl⟩ := found
            simpa using ih foundLater

theorem firstPair_some_iff {a b : A} {s : List A} {i : Nat} :
    firstPair a b s = some i ↔
      (s[i]? = some a ∧ s[i + 1]? = some b) ∧ ∀ j < i, ¬ (s[j]? = some a ∧ s[j + 1]? = some b) := by
  induction s generalizing i with
  | nil => simp [firstPair]
  | cons x rest ih =>
      cases rest with
      | nil => cases i <;> simp [firstPair]
      | cons y rest =>
          by_cases here : x = a ∧ y = b
          · cases i with
            | zero => simp [firstPair, here]
            | succ i =>
                simp only [firstPair, here, and_self, if_true, Option.some.injEq]
                constructor
                · intro absurd
                  omega
                · intro ⟨_, least⟩
                  exact absurd ⟨by simp, by simp⟩ (least 0 (by omega))
          · cases i with
            | zero => simp [firstPair, here]
            | succ i =>
                simp only [firstPair, here, if_false, Option.map_eq_some_iff, Nat.add_right_cancel_iff,
                  exists_eq_right, ih, List.getElem?_cons_succ]
                refine and_congr_right fun _ => ⟨fun least j below => ?_, fun least j below => ?_⟩
                · cases j with
                  | zero => simpa using here
                  | succ j => simpa using least j (by omega)
                · simpa using least (j + 1) (by omega)

theorem firstPair_append {a b : A} {s : List A} {i : Nat} (t : List A)
    (found : firstPair a b s = some i) : firstPair a b (s ++ t) = some i := by
  induction s generalizing i with
  | nil => simp [firstPair] at found
  | cons x rest ih =>
      cases rest with
      | nil => simp [firstPair] at found
      | cons y rest =>
          by_cases here : x = a ∧ y = b
          · simpa [firstPair, here] using found
          · simp only [firstPair, here, if_false, Option.map_eq_some_iff] at found
            obtain ⟨j, foundLater, rfl⟩ := found
            have later := ih foundLater
            simp only [List.cons_append] at later
            simp [firstPair, here, later]

theorem frames_of_some {a b : A} {s : List A} {i : Nat} (found : firstPair a b s = some i) :
    frames a b s =
      (s.take i :: (frames a b (s.drop (i + 2))).1, (frames a b (s.drop (i + 2))).2) := by
  induction s generalizing i with
  | nil => simp [firstPair] at found
  | cons x rest ih =>
      cases rest with
      | nil => simp [firstPair] at found
      | cons y rest =>
          by_cases here : x = a ∧ y = b
          · obtain rfl : 0 = i := by simpa [firstPair, here] using found
            simp [frames, here]
          · simp only [firstPair, here, if_false, Option.map_eq_some_iff] at found
            obtain ⟨j, foundLater, rfl⟩ := found
            simp [frames, here, ih foundLater]

def IsFrame (a b : A) (line : List A) : Prop := firstPair a b (line ++ [a, b]) = some line.length

theorem isFrame_take {a b : A} {s : List A} {i : Nat} (found : firstPair a b s = some i) :
    IsFrame a b (s.take i) := by
  have split := firstPair_split found
  have length : (s.take i).length = i := by
    have total := congrArg List.length split
    simp only [List.length_append, List.length_cons, List.length_take, List.length_drop] at total ⊢
    omega
  have same (k : Nat) (within : k < i + 2) : (s.take i ++ [a, b])[k]? = s[k]? := by
    have whole : s = (s.take i ++ [a, b]) ++ s.drop (i + 2) := by simpa using split
    have inside : k < (s.take i ++ [a, b]).length := by
      simp only [List.length_append, length, List.length_cons, List.length_nil]
      omega
    conv_rhs => rw [whole]
    exact (List.getElem?_append_left inside).symm
  rw [firstPair_some_iff] at found
  rw [IsFrame, firstPair_some_iff, length]
  refine ⟨by simpa only [same i (by omega), same (i + 1) (by omega)] using found.1, ?_⟩
  intro j below
  simpa only [same j (by omega), same (j + 1) (by omega)] using found.2 j below

theorem frames_unframe {a b : A} {lines : List (List A)} (all : ∀ line ∈ lines, IsFrame a b line)
    (rest : List A) :
    frames a b (unframe a b lines ++ rest) = (lines ++ (frames a b rest).1, (frames a b rest).2) := by
  induction lines with
  | nil => simp [unframe]
  | cons line lines ih =>
      have first : firstPair a b (line ++ [a, b] ++ (unframe a b lines ++ rest)) = some line.length :=
        firstPair_append _ (all line (by simp))
      have whole : unframe a b (line :: lines) ++ rest = line ++ [a, b] ++ (unframe a b lines ++ rest) := by
        simp [unframe]
      have after : (line ++ [a, b] ++ (unframe a b lines ++ rest)).drop (line.length + 2) =
          unframe a b lines ++ rest := List.drop_left' (by simp)
      rw [whole, frames_of_some first, after, ih fun line member => all line (by simp [member])]
      simp

end CppInfra.Framing
