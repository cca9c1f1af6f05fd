import CppInfra.MemPool.MpPoolRuns

set_option autoImplicit false

namespace CppInfra.MemPool.MpPool

open Words Transition ByteMemory LinkedChain

-- The answers of `malloc` and `posix_memalign` for ever, of which `k` have been given. What `malloc` returns is taken
-- as it comes: the address space has no bound here.
abbrev Allocator := Nat → Option Nat

def allocSmallWithin (malloc : Allocator) (place : Nat → Nat) (k : Nat) (s : Pool) (size : Nat) :
    Except Fault (Nat × Pool × Nat) :=
  (allocSmall place s size [malloc k]).map fun (p, t, left) => (p, t, k + 1 - left.length)

def keepLargeWithin (p : Nat) : Nat × Pool × Nat → Nat × Pool × Nat
  | (large, s, k) =>
      let (q, t, _) := keepLarge p (large, s, [])
      (q, t, k)

def mpAllocLargeWithin (malloc : Allocator) (record : Nat → Pool → Except Fault (Nat × Pool × Nat)) (k : Nat) (s : Pool)
    (size : Nat) : Except Fault (Nat × Pool × Nat) :=
  match malloc k with
  | none => .ok (0, s, k + 1)
  | some p =>
      let s := { s with larges := ⟨p, size⟩ :: s.larges }
      match freeRecord s.records 5 s.large with
      | some large =>
          .ok (p, { s with records := Function.update s.records large { s.records large with alloc := p } }, k + 1)
      | none => (record (k + 1) s).map (keepLargeWithin p)

-- `depth` is how deep the calls of `mp_alloc` may nest.
def mpAllocWithin (malloc : Allocator) : Nat → Nat → Pool → Nat → Except Fault (Nat × Pool × Nat)
  | 0, _, _, _ => .error .loops
  | depth + 1, k, s, size =>
      if size ≤ s.max then allocSmallWithin malloc (mpAlignPtr · mpAlignment) k s size
      else mpAllocLargeWithin malloc (fun k s => mpAllocWithin malloc depth k s sizeofLarge) k s size

def mpNallocWithin (malloc : Allocator) (depth k : Nat) (s : Pool) (size : Nat) : Except Fault (Nat × Pool × Nat) :=
  if size ≤ s.max then allocSmallWithin malloc id k s size
  else mpAllocLargeWithin malloc (fun k s => mpAllocWithin malloc depth k s sizeofLarge) k s size

def mpMemalignWithin (malloc : Allocator) (depth k : Nat) (s : Pool) (size : Nat) : Except Fault (Nat × Pool × Nat) :=
  match malloc k with
  | none => .ok (0, s, k + 1)
  | some p =>
      (mpAllocWithin malloc depth (k + 1) { s with larges := ⟨p, size⟩ :: s.larges } sizeofLarge).map
        (keepLargeWithin p)

-- The calls for `size` bytes come to an end without nesting deeper than `depth`.
def Ends (malloc : Allocator) (depth : Nat) (s : Pool) (size : Nat) : Prop :=
  mpAllocWithin malloc depth 0 s size ≠ .error .loops ∧ mpNallocWithin malloc depth 0 s size ≠ .error .loops ∧
    mpMemalignWithin malloc depth 0 s size ≠ .error .loops

variable {size : Nat} {s : Pool}

theorem map_ends {A B : Type} {f : A → B} {outcome : Except Fault A} (ends : outcome ≠ .error .loops) :
    outcome.map f ≠ .error .loops := by
  cases outcome with
  | ok result => simp [Except.map]
  | error fault =>
      cases fault with
      | loops => exact absurd rfl ends
      | refused => simp [Except.map]

theorem Fine.ends {A : Type} {good : A → Prop} {outcome : Except Fault A} (fine : Fine good outcome) :
    outcome ≠ .error .loops := by
  rintro rfl
  exact fine

theorem Chained.allocSmall_ends (chained : Chained size s) (malloc : Allocator) (place : Nat → Nat) (k n : Nat) :
    allocSmallWithin malloc place k s n ≠ .error .loops := map_ends (chained.allocSmall place n [malloc k]).ends

theorem mpAllocLarge_ends {malloc : Allocator} {record : Nat → Pool → Except Fault (Nat × Pool × Nat)} {k n : Nat}
    (ends : ∀ p k, record k { s with larges := ⟨p, n⟩ :: s.larges } ≠ .error .loops) :
    mpAllocLargeWithin malloc record k s n ≠ .error .loops := by
  rw [mpAllocLargeWithin]
  split
  · simp
  · simp only
    split
    · simp
    · exact map_ends (ends _ _)

theorem Chained.ends (chained : Chained size s) (record : sizeofLarge ≤ s.max) (malloc : Allocator) (n : Nat) :
    Ends malloc 2 s n := by
  have records : ∀ depth p k,
      mpAllocWithin malloc (depth + 1) k { s with larges := ⟨p, n⟩ :: s.larges } sizeofLarge ≠ .error .loops := by
    intro depth p k
    have obtained : Chained size { s with larges := ⟨p, n⟩ :: s.larges } :=
      chained.congr rfl rfl rfl fun _ => ⟨rfl, rfl⟩
    rw [mpAllocWithin, if_pos record]
    exact obtained.allocSmall_ends malloc _ k sizeofLarge
  refine ⟨?_, ?_, ?_⟩
  · rw [mpAllocWithin]
    split
    · exact chained.allocSmall_ends malloc _ 0 n
    · exact mpAllocLarge_ends fun p k => records 0 p k
  · rw [mpNallocWithin]
    split
    · exact chained.allocSmall_ends malloc id 0 n
    · exact mpAllocLarge_ends fun p k => records 1 p k
  · rw [mpMemalignWithin]
    split
    · simp
    · exact map_ends (records 1 _ _)

theorem mpAllocWithin_nests {malloc : Allocator} {n : Nat} (unfailing : ∀ k, malloc k ≠ none)
    (small : s.max < sizeofLarge) (none : s.large = 0) (large : ¬ n ≤ s.max) (depth k : Nat) :
    mpAllocWithin malloc depth k s n = .error .loops := by
  induction depth generalizing s n k with
  | zero => rfl
  | succ depth ih =>
      obtain ⟨p, answer⟩ := Option.ne_none_iff_exists'.mp (unfailing k)
      have nothing : freeRecord s.records 5 s.large = .none := by
        rw [none]
        rfl
      rw [mpAllocWithin, if_neg large, mpAllocLargeWithin, answer]
      simp only [nothing]
      rw [ih (s := { s with larges := ⟨p, n⟩ :: s.larges }) small none (by show ¬ _ ≤ s.max; omega)]
      rfl

theorem mpAllocBlock_first {n : Nat} (answer : Option Nat) (rest : Answers) :
    mpAllocBlock s n (answer :: rest) = (mpAllocBlock s n [answer]).map fun (p, t, _) => (p, t, rest) := by
  cases answer with
  | none => rfl
  | some m =>
      rw [mpAllocBlock, mpAllocBlock]
      simp only
      split
      · split
        · rfl
        · rfl
      · rfl

theorem allocSmallWithin_agrees {malloc : Allocator} {place : Nat → Nat} {k n p : Nat} {t : Pool}
    {answers rest : Answers} (answered : ∀ answer ∈ answers.head?, malloc k = answer)
    (done : allocSmall place s n answers = .ok (p, t, rest)) :
    allocSmallWithin malloc place k s n = .ok (p, t, k + answers.length - rest.length) ∧
      rest.length ≤ answers.length := by
  rw [allocSmall] at done
  rw [allocSmallWithin, allocSmall]
  cases found : search s.nodes place n s.blocks.length s.current with
  | none =>
      rw [found] at done
      cases done
  | some place' =>
      rw [found] at done
      cases place' with
      | some q =>
          obtain ⟨rfl, rfl, rfl⟩ := by simpa using done
          simp [Except.map]
      | none =>
          cases answers with
          | nil => cases done
          | cons answer later =>
              rw [answered answer rfl]
              simp only [mpAllocBlock_first answer later] at done
              cases outcome : mpAllocBlock s n [answer] with
              | error fault =>
                  rw [outcome] at done
                  cases done
              | ok result =>
                  have used := mpAllocBlock_first (s := s) (n := n) answer []
                  rw [outcome] at done used
                  obtain ⟨p', t', left⟩ := result
                  obtain rfl : left = [] := by simpa [Except.map] using used
                  obtain ⟨rfl, rfl, rfl⟩ := by simpa [Except.map] using done
                  simp only [Except.map, List.length_nil, List.length_cons]
                  exact ⟨by congr 3; omega, by omega⟩

theorem keepLargeWithin_agrees {p large k : Nat} {answers rest : Answers} {q : Nat} {t : Pool}
    (kept : keepLarge p (large, s, answers) = (q, t, rest)) :
    keepLargeWithin p (large, s, k) = (q, t, k) ∧ rest = answers := by
  rw [keepLarge] at kept
  rw [keepLargeWithin, keepLarge]
  split at kept
  · rename_i null
    obtain ⟨rfl, rfl, rfl⟩ := by simpa using kept
    simp [null]
  · rename_i nonnull
    obtain ⟨rfl, rfl, rfl⟩ := by simpa using kept
    simp [nonnull]

theorem answered_first {malloc : Allocator} {k : Nat} {answers : Answers}
    (answered : ∀ i answer, answers[i]? = some answer → malloc (k + i) = answer) :
    ∀ answer ∈ answers.head?, malloc k = answer := by
  intro answer head
  exact answered 0 answer (by rw [← List.head?_eq_getElem?]; exact head)

theorem mpAllocWithin_agrees {malloc : Allocator} {k n p : Nat} {t : Pool} {answers rest : Answers}
    (answered : ∀ i answer, answers[i]? = some answer → malloc (k + i) = answer)
    (done : mpAlloc answers s n = .ok (p, t, rest)) :
    mpAllocWithin malloc (answers.length + 1) k s n = .ok (p, t, k + answers.length - rest.length) ∧
      rest.length ≤ answers.length := by
  induction answers generalizing s n p t rest k with
  | nil =>
      rw [mpAlloc] at done
      split at done
      · rename_i small
        rw [mpAllocWithin, if_pos small]
        exact allocSmallWithin_agrees (answered_first answered) done
      · cases done
  | cons answer later ih =>
      rw [mpAlloc] at done
      rw [mpAllocWithin]
      split at done
      · rename_i small
        rw [if_pos small]
        exact allocSmallWithin_agrees (answered_first answered) done
      · rename_i large
        rw [if_neg large, mpAllocLargeWithin, answered_first answered answer rfl]
        cases answer with
        | none =>
            obtain ⟨rfl, rfl, rfl⟩ := by simpa [mpAllocLarge] using done
            simp only [List.length_cons]
            exact ⟨by congr 3; omega, by omega⟩
        | some q =>
            rw [mpAllocLarge] at done
            split at done
            · simp only at done ⊢
              cases free : freeRecord s.records 5 s.large with
              | some record =>
                  rw [free] at done
                  obtain ⟨rfl, rfl, rfl⟩ := by simpa using done
                  simp only [List.length_cons]
                  exact ⟨by congr 3; omega, by omega⟩
              | none =>
                  rw [free] at done
                  simp only at done ⊢
                  cases outcome : mpAlloc later { s with larges := ⟨q, n⟩ :: s.larges } sizeofLarge with
                  | error fault =>
                      rw [outcome] at done
                      cases done
                  | ok result =>
                      obtain ⟨record, u, left⟩ := result
                      rw [outcome] at done
                      obtain ⟨kept, rfl⟩ := keepLargeWithin_agrees (k := k + 1 + later.length - left.length)
                        (Except.ok.inj done)
                      obtain ⟨deeper, shorter⟩ := ih (k := k + 1) (fun i answer there => by
                        rw [Nat.add_assoc, Nat.add_comm 1 i]
                        exact answered (i + 1) answer there) outcome
                      rw [List.length_cons, deeper]
                      simp only [Except.map, kept]
                      exact ⟨by congr 3; omega, by omega⟩
            · cases done

theorem run_ends {t : Pool} {p : Nat} {nodes : Nat → Node} {records : Nat → Large} {events : List Event}
    (enough : sizeofLarge ≤ size) (fits : size + sizeofPool + sizeofNode < 2 ^ 64)
    (zeroed : (nodes (p + sizeofPool)).next = 0)
    (created : mpCreatePool size nodes records (some p) = .ok (some s))
    (inside : Along step StaysInside s events) (ran : run step s events = some t) (malloc : Allocator) (n : Nat) :
    Ends malloc 2 t n := by
  have inv := run_invariant_along (Inv size) (fun _ _ _ inv stays taken => step_inv inv stays taken)
    (created_inv enough fits zeroed created) inside ran
  exact inv.chained.ends inv.record malloc n

theorem mpAlloc_terminates (size p : Nat) (nodes : Nat → Node) (records : Nat → Large) (s : Pool)
    (fits : size + sizeofPool + sizeofNode < 2 ^ 64) (zeroed : (nodes (p + sizeofPool)).next = 0)
    (created : mpCreatePool size nodes records (some p) = .ok (some s)) :
    ((∀ events t, Along step StaysInside s events → run step s events = some t →
        ∀ malloc n, ∃ depth, Ends malloc depth t n) ↔ 16 ≤ size) ∧
      (16 ≤ size → ∀ events t, Along step StaysInside s events → run step s events = some t →
        ∀ malloc n, Ends malloc 2 t n) := by
  have record : sizeofLarge = 16 := rfl
  have most : mpMaxAllocFromPool = 4095 := rfl
  refine ⟨⟨?_, ?_⟩, ?_⟩
  · intro all
    by_contra few
    obtain ⟨depth, ends, -, -⟩ := all [] s trivial rfl (fun k => some (0x10000 + 32 * k)) sizeofLarge
    obtain ⟨rfl, -, -⟩ := created_eq fits created
    have small : (emptyPool size p nodes records).max < sizeofLarge := by
      simp only [emptyPool]
      split
      · omega
      · omega
    exact ends (mpAllocWithin_nests (by simp) small rfl (by omega) depth 0)
  · intro enough events t inside ran malloc n
    exact ⟨2, run_ends enough fits zeroed created inside ran malloc n⟩
  · intro enough events t inside ran malloc n
    exact run_ends enough fits zeroed created inside ran malloc n

def recordBehind : List Event := [.alloc 60 [], .alloc 100 [some 0x8000, some 0x2000]]

theorem mpAlloc_terminates_recorded :
    ∃ s t, onZeros 72 0x1000 = .ok (some s) ∧ run step s recordBehind = some t ∧
      t.made = [0x2020] ∧ ∀ malloc n, Ends malloc 2 t n := by
  have possible : ((onZeros 72 0x1000).toOption.join.bind fun s =>
      (run step s recordBehind).bind fun t =>
        if Along step StaysInside s recordBehind ∧ t.made = [0x2020] then some t else none).isSome := by decide
  obtain ⟨t, all⟩ := Option.isSome_iff_exists.mp possible
  obtain ⟨s, created, after⟩ := Option.bind_eq_some_iff.mp all
  obtain ⟨u, ran, rest⟩ := Option.bind_eq_some_iff.mp after
  split at rest
  · rename_i facts
    obtain ⟨inside, made⟩ := facts
    have ends := (mpAlloc_terminates 72 0x1000 _ _ s (by decide) rfl (onZeros_created created)).2 (by decide)
    exact ⟨s, u, onZeros_created created, ran, made, ends _ u inside ran⟩
  · cases rest

-- A pool of 8 bytes: as long as `malloc` succeeds, `mp_alloc` calls itself for the record of the record.
theorem mpAlloc_terminates_never :
    ∃ s, onZeros 8 0x1000 = .ok (some s) ∧
      ∀ depth, mpAllocWithin (fun k => some (0x10000 + 32 * k)) depth 0 s 9 = .error .loops :=
  ⟨_, rfl, fun depth => mpAllocWithin_nests (by simp) (by decide) rfl (by decide) depth 0⟩

end CppInfra.MemPool.MpPool
