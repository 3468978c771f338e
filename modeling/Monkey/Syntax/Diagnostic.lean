import Monkey.Text.Decimal
import Monkey.Token

/-!
  Monkey/Syntax/Diagnostic.lean
  =============================
  **What can be wrong with a statement, and where reading goes on.**

  There are three problems.  A rule that fails names its problem and the tokens
  from the offending one on; from these follow the line of the diagnostic
  (`Failure.diagnostic`) and the tokens at which the next statement is looked
  for (`Failure.resume`), which are a tail of those that remained
  (`suffix_resume`).
-/
namespace Monkey

open Text

/-! ### Problems -/

/-- What is wrong with a statement. -/
inductive Problem where
  /-- A token of one kind is required and another one stands there. -/
  | unexpected (wanted found : Token.Kind)
  /-- No expression starts with a token of this kind. -/
  | noOperand (found : Token.Kind)
  /-- An integer token whose text is no 64-bit integer. -/
  | notAnInteger (literal : String)
deriving DecidableEq, Repr

/-- The wording of a problem. -/
def Problem.message : Problem → String
  | unexpected wanted found =>
    "expected next token to be " ++ wanted.name ++ ", got " ++ found.name ++ " instead"
  | noOperand found => "no prefix parse function for " ++ found.name ++ " found"
  | notAnInteger literal => "could not parse \"" ++ literal ++ "\" as integer"

/-- A problem and the line of the offending token. -/
structure Diagnostic where
  line : Nat
  problem : Problem
deriving DecidableEq, Repr

/-- The text of a diagnostic. -/
def Diagnostic.render (d : Diagnostic) : String :=
  "[line " ++ Decimal.ofNat d.line ++ "] Error: " ++ d.problem.message

/-! ### Failures -/

/-- Why a rule fails: a problem, and the remaining tokens, the offending one
    first. -/
structure Failure where
  problem : Problem
  remaining : List Token
deriving DecidableEq, Repr

/-- The kind of the first of the remaining tokens; behind the last one stands the
    end of the input. -/
def kindAt (ts : List Token) : Token.Kind :=
  match ts with
  | [] => .endOfInput
  | t :: _ => t.kind

/-- The line of the first of the remaining tokens; `endLine` is the line of the
    end of the input. -/
def lineAt (endLine : Nat) (ts : List Token) : Nat :=
  match ts with
  | [] => endLine
  | t :: _ => t.line

/-- The diagnostic of a failure. -/
def Failure.diagnostic (endLine : Nat) (f : Failure) : Diagnostic :=
  { line := lineAt endLine f.remaining, problem := f.problem }

/-! ### Where the next statement starts -/

/-- Drops tokens up to and with the next `;`, or up to and without the next
    `let`, `return` or `endOfInput`, whichever comes first.  This is the loop of
    `synchronize`. -/
def nextBoundary : List Token → List Token
  | [] => []
  | t :: ts =>
    if t.kind = .letWord ∨ t.kind = .returnWord ∨ t.kind = .endOfInput then t :: ts
    else if t.kind = .semicolon then ts
    else nextBoundary ts

/-- The tokens at which the next statement is looked for, where `synchronize` stops.
    It goes on by one token before it looks at any.  So a token that was only looked
    at is looked at again; one that should have started an expression is dropped, and
    if it is a `;`, the next statement starts behind it. -/
def Failure.resume (f : Failure) : List Token :=
  match f.problem, f.remaining with
  | .unexpected _ _, ts => nextBoundary ts
  | _, [] => []
  | _, t :: ts => if t.kind = .semicolon then ts else nextBoundary ts

theorem suffix_nextBoundary (ts : List Token) : nextBoundary ts <:+ ts := by
  induction ts with
  | nil => exact List.suffix_rfl
  | cons t ts ih =>
    unfold nextBoundary
    split
    · exact List.suffix_rfl
    · split
      · exact List.suffix_cons t ts
      · exact ih.trans (List.suffix_cons t ts)

theorem length_nextBoundary_le (ts : List Token) : (nextBoundary ts).length ≤ ts.length :=
  (suffix_nextBoundary ts).length_le

theorem suffix_resume (f : Failure) : f.resume <:+ f.remaining := by
  obtain ⟨problem, _ | ⟨t, ts⟩⟩ := f
  · cases problem <;> exact List.suffix_rfl
  · cases problem with
    | unexpected => exact suffix_nextBoundary (t :: ts)
    | noOperand | notAnInteger =>
      simp only [Failure.resume]
      split
      · exact List.suffix_cons t ts
      · exact (suffix_nextBoundary ts).trans (List.suffix_cons t ts)

theorem length_resume_le (f : Failure) : f.resume.length ≤ f.remaining.length :=
  (suffix_resume f).length_le

/-- A token that should have started an expression is not read again. -/
theorem length_resume_lt {f : Failure} (hp : ∀ wanted found, f.problem ≠ .unexpected wanted found)
    (hr : f.remaining ≠ []) : f.resume.length < f.remaining.length := by
  obtain ⟨problem, _ | ⟨t, ts⟩⟩ := f
  · exact absurd rfl hr
  · have h := length_nextBoundary_le ts
    cases problem with
    | unexpected wanted found => exact absurd rfl (hp wanted found)
    | noOperand | notAnInteger =>
      simp only [Failure.resume, List.length_cons]
      split <;> omega

end Monkey
