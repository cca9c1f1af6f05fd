import Mathlib.Data.Seq.Basic
import CppInfra.MySQLConnPool.Open

set_option autoImplicit false

namespace CppInfra.MySQLConnPool.OpenReport

open MySQLConn

-- With the first `bound` outcomes of the driver `Open` returns, it has called `connect` no more than `bound` times, and
-- it says 0 of a connection with its schema and of nothing else.
def Reports (bound : Nat) (held : Held) (driver : Stream'.Seq Attempt) : Prop :=
  ∃ opening, openReport (driver.take bound) held = .ok opening ∧ opening.connects ≤ bound ∧
    (opening.err = 0 ↔ opening.held = .live true)

-- The code of the first attempt stands for all of them: it must be an error if there is one, and after a lost attempt
-- there must be no connection in the end, but an end.
def Accounted (held : Held) : List Attempt → Prop
  | [] => False
  | attempt :: rest =>
      match thrown attempt with
      | none => True
      | some code =>
          if goneAway code then
            (attempt = .threw code → held ≠ .wild) ∧ ∃ last, rest.find? (!lost ·) = some last ∧ last ≠ .connected none
          else code = 0 ↔ attempt = .threw code ∧ held = .live true

variable {attempts : List Attempt} {held : Held} {code : Int}

theorem openReport_cases {attempt : Attempt} {rest : List Attempt} {opening : Opening}
    (returned : openReport (attempt :: rest) held = .ok opening) :
    (lost attempt = false ∧ opening.connects = 1) ∨
      ∃ inner, openReport rest .null = .ok inner ∧ opening.connects = inner.connects + 1 := by
  cases threw : thrown attempt with
  | none =>
      obtain ⟨err, returns, -⟩ := openReport_silent threw rest held
      cases returns.symm.trans returned
      exact .inl ⟨by rw [lost, threw]; rfl, rfl⟩
  | some code =>
      by_cases gone : goneAway code
      · by_cases wild : raisedOn held attempt = .wild
        · cases (openReport_wild threw gone wild rest).symm.trans returned
        · rw [openReport_lost threw gone wild] at returned
          cases nested : openReport rest .null with
          | error fault => rw [nested] at returned; cases returned
          | ok inner =>
              rw [nested] at returned
              cases returned
              exact .inr ⟨inner, rfl, rfl⟩
      · cases (openReport_kept threw gone rest held).symm.trans returned
        exact .inl ⟨by simpa [lost, threw] using gone, rfl⟩

theorem openReport_connects {opening : Opening} (returned : openReport attempts held = .ok opening) :
    opening.connects ≤ attempts.length := by
  induction attempts generalizing held opening with
  | nil => cases returned
  | cons attempt rest ih =>
      rw [List.length_cons]
      obtain ⟨-, one⟩ | ⟨inner, nested, count⟩ := openReport_cases returned
      · omega
      · have := ih nested
        omega

theorem openReport_settles {opening : Opening} (returned : openReport attempts held = .ok opening) :
    ∃ attempt ∈ attempts, lost attempt = false := by
  induction attempts generalizing held opening with
  | nil => cases returned
  | cons attempt rest ih =>
      obtain ⟨stays, -⟩ | ⟨inner, nested, -⟩ := openReport_cases returned
      · exact ⟨attempt, List.mem_cons_self, stays⟩
      · obtain ⟨last, member, stays⟩ := ih nested
        exact ⟨last, List.mem_cons_of_mem attempt member, stays⟩

theorem goneAway_ne (gone : goneAway code) : code ≠ 0 := by
  rintro rfl
  cases gone

theorem leaves_schema (attempt : Attempt) : leaves attempt = .live true ↔ attempt = .connected none := by
  cases attempt with
  | null | threw code => simp [leaves]
  | connected setSchema => cases setSchema <;> simp [leaves]

theorem lost_accounted {attempt : Attempt} (threw : thrown attempt = some code) (gone : goneAway code)
    (known : raisedOn held attempt ≠ .wild) (rest : List Attempt) :
    (∃ opening, openReport (attempt :: rest) held = .ok opening ∧ (opening.err = 0 ↔ opening.held = .live true)) ↔
      ∃ last, rest.find? (!lost ·) = some last ∧ last ≠ .connected none := by
  have nested := openReport_null rest
  rw [openReport_lost threw gone known]
  cases opened : openReport rest .null with
  | error fault =>
      rw [opened] at nested
      cases settled : rest.find? (!lost ·) with
      | none => simp [Except.map]
      | some last => rw [settled] at nested; cases nested
  | ok inner =>
      rw [opened] at nested
      cases settled : rest.find? (!lost ·) with
      | none => rw [settled] at nested; cases nested
      | some last =>
          rw [settled] at nested
          have left : inner.held = leaves last := Except.ok.inj nested
          simp [Except.map, left, goneAway_ne gone, leaves_schema]

theorem openReport_accounted (attempts : List Attempt) (held : Held) :
    (∃ opening, openReport attempts held = .ok opening ∧ (opening.err = 0 ↔ opening.held = .live true)) ↔
      Accounted held attempts := by
  cases attempts with
  | nil => exact iff_of_false (fun ⟨_, returned, _⟩ => nomatch returned) id
  | cons attempt rest =>
      rw [Accounted]
      cases threw : thrown attempt with
      | none =>
          obtain ⟨err, returns, right⟩ := openReport_silent threw rest held
          exact iff_of_true ⟨_, returns, right⟩ trivial
      | some code =>
          by_cases gone : goneAway code
          · by_cases wild : raisedOn held attempt = .wild
            · have raised := (raisedOn_wild threw).mp wild
              rw [openReport_wild threw gone wild]
              simp [gone, raised]
            · rw [lost_accounted threw gone wild]
              have known : attempt = .threw code → held ≠ .wild :=
                fun direct isWild => wild ((raisedOn_wild threw).mpr ⟨direct, isWild⟩)
              simp only [gone, if_true, and_iff_right known]
          · rw [openReport_kept threw gone]
            simp [gone, raisedOn_schema threw]

theorem open_reports_iff (bound : Nat) (held : Held) (driver : Stream'.Seq Attempt) :
    Reports bound held driver ↔ Accounted held (driver.take bound) := by
  rw [← openReport_accounted]
  constructor
  · rintro ⟨opening, returned, -, right⟩
    exact ⟨opening, returned, right⟩
  · rintro ⟨opening, returned, right⟩
    have connects := openReport_connects returned
    exact ⟨opening, returned, connects.trans Stream'.Seq.length_take_le, right⟩

-- The server is never back; it is back at the second attempt; it refuses the first one with the code of no error.
theorem open_reports_iff_gone :
    (∀ bound, ¬ Reports bound .null (Stream'.const (Attempt.threw 2006) : Stream' Attempt)) ∧
      openReport [.threw 2006, .connected none] .null = .ok ⟨.live true, 2006, 2⟩ ∧
      openReport [.threw 0] .null = .ok ⟨.null, 0, 1⟩ ∧
      ¬ ∀ held driver, ∃ bound, Reports bound held driver := by
  have never : ∀ bound, ¬ Reports bound .null (Stream'.const (Attempt.threw 2006) : Stream' Attempt) := by
    rintro bound ⟨opening, returned, -, -⟩
    obtain ⟨attempt, member, stays⟩ := openReport_settles returned
    have same : attempt = .threw 2006 := by
      refine Stream'.Seq.take_all (p := (· = Attempt.threw 2006)) ?_ member
      rintro attempt ⟨n, here⟩
      exact Option.some.inj here
    rw [same] at stays
    cases stays
  refine ⟨never, rfl, rfl, fun reports => ?_⟩
  obtain ⟨bound, reported⟩ := reports .null (Stream'.const (Attempt.threw 2006) : Stream' Attempt)
  exact never bound reported

end CppInfra.MySQLConnPool.OpenReport
