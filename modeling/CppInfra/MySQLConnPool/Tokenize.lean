import Mathlib.Data.List.Basic

set_option autoImplicit false

namespace CppInfra.MySQLConnPool.Tokenize

-- `std::string_view::find`: the first position from `start` on that holds `sep`. `none` is `npos`.
def find (str : List UInt8) (sep : UInt8) (start : Nat) : Option Nat :=
  ((str.drop start).findIdx? (· == sep)).map (start + ·)

-- `std::string_view::substr`: it throws when `pos` is past the end, and without a `count` it takes all that follows.
def substr (str : List UInt8) (pos : Nat) (count : Option Nat) : Option (List UInt8) :=
  if pos ≤ str.length then some ((str.drop pos).take (count.getD str.length)) else none

def pushIf (keep : Bool) (token : Option (List UInt8)) (tokens : List (List UInt8)) : Option (List (List UInt8)) :=
  if keep then token.map fun token => tokens ++ [token] else some tokens

-- The loop and the push after it. `none` is an exception or a loop that is not done after `turns` searches.
def tokenizeFrom (str : List UInt8) (sep : UInt8) (keepEmpty : Bool) :
    Nat → Nat → List (List UInt8) → Option (List (List UInt8))
  | 0, _, _ => none
  | turns + 1, start, tokens =>
      match find str sep start with
      | some stop =>
          (pushIf (keepEmpty || stop - start > 0) (substr str start (some (stop - start))) tokens).bind
            (tokenizeFrom str sep keepEmpty turns (stop + 1))
      | none => pushIf (keepEmpty || start < str.length) (substr str start none) tokens

-- No two searches stop at the same position.
def tokenize (str : List UInt8) (sep : UInt8) (keepEmpty : Bool) : Option (List (List UInt8)) :=
  tokenizeFrom str sep keepEmpty (str.length + 1) 0 []

structure MySQLConnInfo where
  url : List UInt8 := []
  user : List UInt8 := []
  password : List UInt8 := []
  database : List UInt8 := []
  deriving DecidableEq, Repr

-- `';'`
def semicolon : UInt8 := 59

-- Unless there are three tokens the constructor prints `MySQLConnInfo info format error` and assigns no field.
def mySQLConnInfo (info db : List UInt8) : Option MySQLConnInfo :=
  (tokenize info semicolon false).map fun tokens =>
    match tokens with
    | [url, user, password] => { url, user, password, database := db }
    | _ => {}

def kept (keepEmpty : Bool) (pieces : List (List UInt8)) : List (List UInt8) :=
  if keepEmpty then pieces else pieces.filter (· ≠ [])

variable {str : List UInt8} {sep : UInt8} {keepEmpty : Bool} {start stop turns : Nat}

theorem find_none (absent : find str sep start = none) : sep ∉ str.drop start := by
  have := List.findIdx?_eq_none_iff.mp (Option.map_eq_none_iff.mp absent)
  intro held
  simpa using this sep held

theorem find_some (found : find str sep start = some stop) :
    start ≤ stop ∧ stop < str.length ∧ sep ∉ (str.drop start).take (stop - start) ∧
      str.drop start = (str.drop start).take (stop - start) ++ sep :: str.drop (stop + 1) := by
  obtain ⟨offset, index, rfl⟩ := Option.map_eq_some_iff.mp found
  obtain ⟨inside, here, before⟩ := List.findIdx?_eq_some_iff_getElem.mp index
  have here : (str.drop start)[offset] = sep := by simpa using here
  have length := List.length_drop (l := str) (i := start)
  rw [Nat.add_sub_cancel_left]
  refine ⟨by omega, by omega, ?_, ?_⟩
  · intro held
    obtain ⟨i, bound, eq⟩ := List.mem_take_iff_getElem.mp held
    exact before i (by omega) (by simpa using eq)
  · conv_lhs => rw [← List.take_append_drop offset (str.drop start), List.drop_eq_getElem_cons inside, here]
    rw [List.drop_drop, Nat.add_assoc]

theorem substr_of_le (count : Option Nat) (inside : start ≤ str.length) :
    substr str start count = some ((str.drop start).take (count.getD str.length)) :=
  if_pos inside

theorem pushIf_some (keepEmpty : Bool) (token : List UInt8) (tokens : List (List UInt8)) :
    pushIf (keepEmpty || token.length > 0) (some token) tokens = some (tokens ++ kept keepEmpty [token]) := by
  cases keepEmpty <;> cases token <;> simp [pushIf, kept]

theorem kept_cons (keepEmpty : Bool) (piece : List UInt8) (pieces : List (List UInt8)) :
    kept keepEmpty (piece :: pieces) = kept keepEmpty [piece] ++ kept keepEmpty pieces := by
  cases keepEmpty <;> by_cases empty : piece = [] <;> simp [kept, empty]

-- The induction is on the turns. What is still to come is what the rest of the string splits into, and each turn takes
-- the first piece of it.
theorem tokenizeFrom_eq (str : List UInt8) (sep : UInt8) (keepEmpty : Bool) (turns start : Nat)
    (tokens : List (List UInt8)) (inside : start ≤ str.length) (enough : str.length - start < turns) :
    tokenizeFrom str sep keepEmpty turns start tokens =
      some (tokens ++ kept keepEmpty ((str.drop start).splitOn sep)) := by
  induction turns generalizing start tokens with
  | zero => omega
  | succ turns ih =>
      rw [tokenizeFrom]
      have length := List.length_drop (l := str) (i := start)
      cases found : find str sep start with
      | none =>
          simp only [substr_of_le none inside, Option.getD_none]
          rw [List.take_of_length_le (by omega), List.splitOn_eq_singleton (find_none found), ← pushIf_some]
          congr 3
          exact propext (by omega)
      | some stop =>
          obtain ⟨le, lt, clean, cut⟩ := find_some found
          simp only [substr_of_le (some (stop - start)) inside, Option.getD_some]
          generalize piece_eq : (str.drop start).take (stop - start) = piece at clean cut ⊢
          have size : stop - start = piece.length := by
            rw [← piece_eq, List.length_take]
            omega
          rw [size, pushIf_some, Option.bind_some, ih _ _ (by omega) (by omega), cut,
            List.splitOn_append_cons_self_of_not_mem clean, List.append_assoc,
            ← kept_cons]

theorem tokenize_eq (str : List UInt8) (sep : UInt8) (keepEmpty : Bool) :
    tokenize str sep keepEmpty = some (kept keepEmpty (str.splitOn sep)) :=
  tokenizeFrom_eq str sep keepEmpty _ 0 [] (Nat.zero_le _) (Nat.lt_succ_self _)

-- Both facts are of one induction: a separator opens a new piece, any other character joins the first one.
theorem splitOn_pieces (str : List UInt8) (sep : UInt8) :
    (∀ piece ∈ str.splitOn sep, sep ∉ piece) ∧ (str.splitOn sep).length = str.count sep + 1 := by
  induction str with
  | nil => simp
  | cons head rest ih =>
      obtain ⟨clean, length⟩ := ih
      rw [List.splitOn_cons_eq_if_modifyHead, List.count_cons]
      by_cases same : head = sep
      · simpa [same, length] using clean
      · cases pieces : rest.splitOn sep with
        | nil => exact absurd pieces (List.splitOn_ne_nil sep rest)
        | cons first others =>
            rw [pieces] at clean length
            have length : others.length = rest.count sep := by simpa using length
            simpa [same, Ne.symm same, length] using clean

theorem mySQLConnInfo_intercalate {pieces : List (List UInt8)} {url user password : List UInt8} (db : List UInt8)
    (clean : ∀ piece ∈ pieces, semicolon ∉ piece) (fields : pieces.filter (· ≠ []) = [url, user, password]) :
    mySQLConnInfo ([semicolon].intercalate pieces) db = some { url, user, password, database := db } := by
  have nonempty : pieces ≠ [] := by
    rintro rfl
    cases fields
  have tokens : kept false pieces = [url, user, password] := fields
  rw [mySQLConnInfo, tokenize_eq, List.splitOn_intercalate semicolon clean nonempty, tokens]
  rfl

theorem tokenize_recovers (str : List UInt8) (sep : UInt8) :
    (∃ pieces, tokenize str sep true = some pieces ∧ (∀ piece ∈ pieces, sep ∉ piece) ∧
      [sep].intercalate pieces = str ∧ pieces.length = str.count sep + 1 ∧
      tokenize str sep false = some (pieces.filter (· ≠ []))) ∧
    ∀ url user password db : List UInt8, url ≠ [] → user ≠ [] → password ≠ [] →
      semicolon ∉ url → semicolon ∉ user → semicolon ∉ password →
      mySQLConnInfo (url ++ [semicolon] ++ user ++ [semicolon] ++ password) db =
        some { url, user, password, database := db } := by
  constructor
  · obtain ⟨clean, length⟩ := splitOn_pieces str sep
    exact ⟨str.splitOn sep, tokenize_eq str sep true, clean, List.intercalate_splitOn sep, length,
      tokenize_eq str sep false⟩
  · intro url user password db someUrl someUser somePassword cleanUrl cleanUser cleanPassword
    have fields : [url, user, password].filter (· ≠ []) = [url, user, password] := by
      simp [someUrl, someUser, somePassword]
    simpa using mySQLConnInfo_intercalate db (by simp [cleanUrl, cleanUser, cleanPassword]) fields

theorem tokenize_recovers_root :
    (∃ pieces, tokenize [59, 59] 59 true = some pieces ∧ pieces.length = 3) ∧
      mySQLConnInfo ([116, 99, 112] ++ [semicolon] ++ [114, 111, 111, 116] ++ [semicolon] ++ [49, 50, 51]) [100, 98] =
        some { url := [116, 99, 112], user := [114, 111, 111, 116], password := [49, 50, 51],
               database := [100, 98] } := by
  obtain ⟨⟨pieces, whole, -, -, length, -⟩, recovers⟩ := tokenize_recovers [59, 59] 59
  exact ⟨⟨pieces, whole, length⟩, recovers _ _ _ _ (by decide) (by decide) (by decide) (by decide) (by decide)
    (by decide)⟩

end CppInfra.MySQLConnPool.Tokenize
