import Monkey.Syntax.Rule.Progress
import Monkey.Token.Lexer

/-!
  Monkey/Syntax/Parser.lean
  =========================
  **From tokens to programs.**

  A program is read statement by statement up to the first `endOfInput` token
  that no block takes.  A statement that fails is dropped; it leaves one failure,
  and reading goes on where the failure says.
-/
namespace Monkey

namespace Rule

/-- Reads the statements of a program: the loop of `parse_program`.  Each round reads
    one statement or fails, and its outcome is kept, in the order of the input. -/
def rounds : List Token → List (Except Failure Statement)
  | [] => []
  | t :: rest =>
    if t.kind = .endOfInput then []
    else
      match h : statement (t :: rest) with
      | .ok (s, ⟨ts, _⟩) => .ok s :: rounds ts
      | .error f =>
        have _ := length_resume_lt_of_statement h
        .error f :: rounds f.resume
termination_by ts => ts.length
decreasing_by all_goals grind

theorem rounds_of_ok {t : Token} {rest ts : List Token} {s : Statement}
    {h : ts.length < (t :: rest).length} (hk : t.kind ≠ .endOfInput)
    (hs : statement (t :: rest) = .ok (s, ⟨ts, h⟩)) :
    rounds (t :: rest) = .ok s :: rounds ts := by
  rw [rounds, if_neg hk]
  split
  · rename_i e
    rw [hs] at e
    cases e
    rfl
  · rename_i e
    rw [hs] at e
    cases e

theorem rounds_of_error {t : Token} {rest : List Token} {f : Failure}
    (hk : t.kind ≠ .endOfInput) (hs : statement (t :: rest) = .error f) :
    rounds (t :: rest) = .error f :: rounds f.resume := by
  rw [rounds, if_neg hk]
  split
  · rename_i e
    rw [hs] at e
    cases e
  · rename_i e
    rw [hs] at e
    cases e
    rfl

/-- The statement of a round that read one. -/
def statement? : Except Failure Statement → Option Statement
  | .ok s => some s
  | .error _ => none

/-- The failure of a round that failed. -/
def failure? : Except Failure Statement → Option Failure
  | .ok _ => none
  | .error f => some f

theorem eq_map_ok {xs : List (Except Failure Statement)} (h : xs.filterMap failure? = []) :
    xs = (xs.filterMap statement?).map .ok := by
  induction xs with
  | nil => rfl
  | cons x xs ih =>
    cases x with
    | ok s => exact congrArg (List.cons _) (ih h)
    | error f => cases h

end Rule

/-- What reading a program yields: the statements that were read, and one
    diagnostic for each that was dropped. -/
structure Reading where
  program : Program
  diagnostics : List Diagnostic
deriving Repr

namespace Reading

/-- Whether nothing was wrong. -/
def isClean (r : Reading) : Bool :=
  r.diagnostics.isEmpty

/-- The text of all diagnostics, a line each. -/
def report (r : Reading) : String :=
  "\n".intercalate (r.diagnostics.map Diagnostic.render)

end Reading

namespace Program

/-- The tokens without a final `endOfInput`. -/
def body (tokens : List Token) : List Token :=
  match tokens.getLast? with
  | some last => if last.kind = .endOfInput then tokens.dropLast else tokens
  | none => []

theorem body_concat {ts : List Token} {t : Token} (h : t.kind = .endOfInput) :
    body (ts ++ [t]) = ts := by
  rw [body, List.getLast?_concat]
  simp only [h, if_true, List.dropLast_concat]

/-- The line of the end of the input: that of the last token, or the first line
    if there is no token. -/
def endLine (tokens : List Token) : Nat :=
  match tokens.getLast? with
  | some last => last.line
  | none => 1

/-- Reads a program (`parse`).  A final `endOfInput` token is expected but not
    required. -/
def read (tokens : List Token) : Reading :=
  let rounds := Rule.rounds (body tokens)
  { program := { statements := rounds.filterMap Rule.statement? }
    diagnostics := (rounds.filterMap Rule.failure?).map (Failure.diagnostic (endLine tokens)) }

/-- Where no round fails, the program consists of what the rounds read. -/
theorem read_of_rounds {ts : List Token} {t : Token} {ss : List Statement}
    (ht : t.kind = .endOfInput) (h : Rule.rounds ts = ss.map .ok) :
    read (ts ++ [t]) = { program := { statements := ss }, diagnostics := [] } := by
  have hs : (ss.map Except.ok).filterMap Rule.statement? = ss := by
    rw [List.filterMap_map]
    exact List.filterMap_some
  have hf : (ss.map Except.ok).filterMap Rule.failure? = [] := by
    rw [List.filterMap_map]
    exact List.filterMap_eq_nil_iff.2 fun _ _ => rfl
  rw [read, body_concat ht, h]
  simp only [hs, hf, List.map_nil]

/-- Where there is no diagnostic, no round failed. -/
theorem rounds_of_read {ts : List Token} {t : Token} (ht : t.kind = .endOfInput)
    (h : (read (ts ++ [t])).diagnostics = []) :
    Rule.rounds ts = (read (ts ++ [t])).program.statements.map .ok := by
  rw [read, body_concat ht] at h ⊢
  exact Rule.eq_map_ok (List.map_eq_nil_iff.1 h)

/-- Scans and reads the bytes of a source. -/
def readSource (source : List UInt8) : Reading :=
  read (Token.scan source)

end Program

end Monkey
