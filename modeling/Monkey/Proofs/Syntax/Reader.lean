import Monkey.Syntax.Parser

/-!
  Monkey/Proofs/Syntax/Reader.lean
  ================================
  **Reading by position.**

  A reader keeps all tokens, of which the last one is the end of the input, and the
  number of the one on which it stands.  What it does (`Act`) changes the number and the
  reports, and has a result, or none if it has failed; then nothing more of the statement
  is read.  Looking for a token where there is none halts it altogether.

  The rules leave the reader on the last token of what they read.  They call one
  another, and they repeat rounds, to a depth that is given; so they are definitions by
  recursion on the depth, and whether the depth is enough is a theorem.

  What is done here follows the parser function by function, and the comments name the
  functions.
-/
namespace Monkey

open Text

/-! ### Readers -/

/-- A diagnostic as a reader keeps it: the number of the offending token, its line, and the
    text. -/
structure Report where
  position : Nat
  line : Nat
  message : String
deriving DecidableEq, Repr

/-- A reader on its way: its tokens, the number of the one that it stands on, what it has
    reported, and the trail of the numbers that it has stood on, the latest one first. -/
structure Reader where
  tokens : List Token
  current : Nat
  reports : List Report
  trail : List Nat
deriving DecidableEq, Repr

namespace Reader

/-- Some tokens and behind them the end of the input, if it is not there. -/
def closed (ts : List Token) : List Token :=
  match ts.getLast? with
  | some last => if last.kind = .endOfInput then ts else ts ++ [⟨.endOfInput, "", last.line⟩]
  | none => [⟨.endOfInput, "", 1⟩]

/-- The reader in front of some tokens (`new`). -/
def ofTokens (ts : List Token) : Reader :=
  { tokens := closed ts, current := 0, reports := [], trail := [0] }

/-- The number of the next token; behind the last token it stands once more. -/
def following (r : Reader) : Nat :=
  min (r.current + 1) (r.tokens.length - 1)

/-- Why a reader halts: it looks for a token that it does not have, or the depth is not
    enough. -/
inductive Halt where
  | outside
  | tooDeep
deriving DecidableEq, Repr

/-- What a reader does. -/
def Act (α : Type) : Type :=
  Reader → Except Halt (Option α × Reader)

namespace Act

/-- One after the other, if the first one does not fail. -/
def andThen (x : Act α) (f : α → Act β) : Act β := fun r =>
  match x r with
  | .ok (some a, r) => f a r
  | .ok (none, r) => .ok (none, r)
  | .error halt => .error halt

instance : Monad Act where
  pure a := fun r => .ok (some a, r)
  bind := andThen

instance : LawfulMonad Act :=
  .mk' Act
    (fun x => by
      funext r
      change (match x r with
        | .ok (some a, r) => .ok (some a, r)
        | .ok (none, r) => .ok (none, r)
        | .error halt => .error halt) = x r
      rcases x r with h | ⟨a | a, r'⟩ <;> rfl)
    (fun _ _ => rfl)
    (fun x f g => by
      funext r
      simp only [bind, andThen]
      rcases x r with h | ⟨a | a, r'⟩ <;> rfl)

end Act

section

variable {x : Act α} {f : α → Act β} {r r₁ r₂ : Reader}

theorem bind_some {a : α} (h : x r = .ok (some a, r₁)) : (x >>= f) r = f a r₁ := by
  change Act.andThen x f r = _
  simp only [Act.andThen, h]

theorem bind_none (h : x r = .ok (none, r₁)) : (x >>= f) r = .ok (none, r₁) := by
  change Act.andThen x f r = _
  simp only [Act.andThen, h]

theorem bind_error {halt : Halt} (h : x r = .error halt) : (x >>= f) r = .error halt := by
  change Act.andThen x f r = _
  simp only [Act.andThen, h]

theorem bind_congr_at {y : Act α} (h : x r = y r) : (x >>= f) r = (y >>= f) r := by
  change Act.andThen x f r = Act.andThen y f r
  simp only [Act.andThen, h]

theorem of_bind_some {b : β} (h : (x >>= f) r = .ok (some b, r₂)) :
    ∃ a r₁, x r = .ok (some a, r₁) ∧ f a r₁ = .ok (some b, r₂) := by
  rcases hx : x r with halt | ⟨a | a, r₁⟩
  · rw [bind_error hx] at h
    cases h
  · rw [bind_none hx] at h
    cases h
  · rw [bind_some hx] at h
    exact ⟨a, r₁, rfl, h⟩

end

/-! ### Tokens and reports -/

/-- Gives up. -/
def halt (h : Halt) : Act α := fun _ => .error h

/-- The token of a number. -/
def tokenAt (i : Nat) : Act Token := fun r =>
  match r.tokens[i]? with
  | some t => .ok (some t, r)
  | none => .error .outside

/-- The token that the reader stands on (`cur`). -/
def cur : Act Token := fun r => tokenAt r.current r

/-- The next token (`peek`). -/
def peek : Act Token := fun r => tokenAt r.following r

/-- The token in front of the one that the reader stands on. -/
def previous : Act Token := fun r =>
  if r.current = 0 then .error .outside else tokenAt (r.current - 1) r

/-- Whether the reader stands on a token of a given kind (`cur_is`). -/
def curIs (k : Token.Kind) : Act Bool := do
  return (← cur).kind = k

/-- Whether the next token is of a given kind (`peek_is`). -/
def peekIs (k : Token.Kind) : Act Bool := do
  return (← peek).kind = k

/-- The reader one token further on; it does not leave the last one.  Going there is
    `next_token`. -/
def next (r : Reader) : Reader :=
  let current := if r.current + 1 < r.tokens.length then r.current + 1 else r.current
  { r with current, trail := current :: r.trail }

def nextToken : Act Unit := fun r => .ok (some (), r.next)

theorem nextToken_bind (f : Unit → Act α) (r : Reader) : (nextToken >>= f) r = f () r.next :=
  rfl

/-- Fails with a report about a token, of which the number is given (`error`). -/
def fail (position : Reader → Nat) (t : Token) (message : String) : Act α := fun r =>
  .ok (none, { r with reports := r.reports ++ [⟨position r, t.line, message⟩] })

/-- Goes on to the next token, which must be of a given kind (`expect_peek`). -/
def expectPeek (wanted : Token.Kind) : Act Unit := do
  let t ← peek
  if t.kind = wanted then nextToken
  else fail following t (Problem.unexpected wanted t.kind).message

/-- Goes on to the next token if it is a `;`. -/
def skipSemicolon : Act Unit := do
  if ← peekIs .semicolon then nextToken else pure ()

/-! ### Repetition -/

/-- Repeats a round for as long as something holds, and collects the results. -/
def collect (guard : Act Bool) (round : Act α) : Nat → Act (List α)
  | 0 => halt .tooDeep
  | depth + 1 => do
    if ← guard then
      let a ← round
      let as ← collect guard round depth
      return a :: as
    else return []

/-- Repeats a round for as long as something holds, each time with the last result. -/
def iterate (guard : Act Bool) (round : α → Act α) : Nat → α → Act α
  | 0, _ => halt .tooDeep
  | depth + 1, a => do
    if ← guard then
      let b ← round a
      iterate guard round depth b
    else return a

/-! ### Rules

  The rules below read expressions by `expression`, and repeat rounds up to `depth` times.
  Each of them is a function of the parser, or a branch or the loop of one:

    * `letStatement`, `returnStatement`, `expressionStatement` and `statement` are
      `parse_let_statement`, `parse_return_statement`, `parse_expression_statement` and
      `parse_statement`, and `block` is `parse_block_statement`
    * `operand` is `parse_prefix`; `integer`, `prefixed`, `group`, `conditional`,
      `functionLiteral` and `hash` are `parse_integer_literal`,
      `parse_prefix_expression`, `parse_grouped_expression`, `parse_if_expression`,
      `parse_function_literal` and `parse_hash_literal`
    * `parameters` and `items` are `parse_function_parameters` and
      `parse_expression_list`
    * `extension` is `parse_infix`, `indexed` is `parse_index_expression`, and
      `extended` is `parse_expression` -/

section

variable (depth : Nat) (expression : Precedence → Act Expr)

def letStatement : Act Statement := do
  let token ← cur
  expectPeek .identifier
  let name ← cur
  expectPeek .equal
  nextToken
  let value ← expression .lowest
  skipSemicolon
  return .letBind token (.ofToken name) value

/-- The value of a `return`, if there is one. -/
def returned : Act (Option Expr) := do
  let k := (← peek).kind
  if k = .semicolon ∨ k = .rightBrace ∨ k = .endOfInput then return none
  else
    nextToken
    let value ← expression .lowest
    return some value

def returnStatement : Act Statement := do
  let token ← cur
  let value ← returned expression
  skipSemicolon
  return .returnValue token value

def expressionStatement : Act Statement := do
  let token ← cur
  let e ← expression .lowest
  skipSemicolon
  return .expression token e

def statement : Act Statement := do
  let token ← cur
  match token.kind with
  | .letWord => letStatement expression
  | .returnWord => returnStatement expression
  | _ => expressionStatement expression

/-- Whether the reader stands on a token at which a statement of a block starts. -/
def insideBlock : Act Bool := do
  let k := (← cur).kind
  return k ≠ .rightBrace ∧ k ≠ .endOfInput

def blockRound : Act Statement := do
  let s ← statement expression
  nextToken
  return s

def block : Act Block := do
  let token ← cur
  nextToken
  let statements ← collect insideBlock (blockRound expression) depth
  return { token, statements }

def integer (token : Token) : Act Expr :=
  match Decimal.int64? token.literal with
  | some value => return .integer token value
  | none => fail current token (Problem.notAnInteger token.literal).message

def prefixed (token : Token) (op : PrefixOperator) : Act Expr := do
  nextToken
  let right ← expression .prefixOp
  return .prefixOp token op right

def group : Act Expr := do
  nextToken
  let e ← expression .lowest
  expectPeek .rightParen
  return e

/-- The block behind the word `else`, if there is one. -/
def alternative : Act (Option Block) := do
  if ← peekIs .elseWord then
    nextToken
    expectPeek .leftBrace
    let b ← block depth expression
    return some b
  else return none

def conditional (token : Token) : Act Expr := do
  expectPeek .leftParen
  nextToken
  let condition ← expression .lowest
  expectPeek .rightParen
  expectPeek .leftBrace
  let consequence ← block depth expression
  let otherwise ← alternative depth expression
  return .cond token condition consequence otherwise

def parameter : Act Identifier := do
  expectPeek .identifier
  return .ofToken (← cur)

def parameterRound : Act Identifier := do
  nextToken
  parameter

def parameters : Act (List Identifier) := do
  if ← peekIs .rightParen then
    nextToken
    return []
  else
    let name ← parameter
    let names ← collect (peekIs .comma) parameterRound depth
    expectPeek .rightParen
    return name :: names

def functionLiteral (token : Token) : Act Expr := do
  expectPeek .leftParen
  let names ← parameters depth
  expectPeek .leftBrace
  let body ← block depth expression
  return .function ⟨token, names, body, 0⟩

def itemRound : Act Expr := do
  nextToken
  nextToken
  expression .lowest

def items (closing : Token.Kind) : Act (List Expr) := do
  if ← peekIs closing then
    nextToken
    return []
  else
    nextToken
    let e ← expression .lowest
    let es ← collect (peekIs .comma) (itemRound expression) depth
    expectPeek closing
    return e :: es

def indexed (token : Token) (left : Expr) : Act Expr := do
  nextToken
  let i ← expression .lowest
  expectPeek .rightBracket
  return .index token left i

/-- Whether a pair of a hash literal is next. -/
def insideHash : Act Bool := do
  return (← peek).kind ≠ .rightBrace

/-- Goes to the comma behind a pair, which may be missing behind the last one. -/
def separator : Act Unit := do
  if ← insideHash then expectPeek .comma else pure ()

def pairRound : Act (Expr × Expr) := do
  nextToken
  let key ← expression .lowest
  expectPeek .colon
  nextToken
  let value ← expression .lowest
  separator
  return (key, value)

def hash (token : Token) : Act Expr := do
  let pairs ← collect insideHash (pairRound expression) depth
  expectPeek .rightBrace
  return .hash token pairs

def array (token : Token) : Act Expr := do
  let elements ← items depth expression .rightBracket
  return .array token elements

def operand : Act Expr := do
  let token ← cur
  match token.kind with
  | .identifier => return .identifier (.ofToken token)
  | .integer => integer token
  | .string => return .string token token.literal
  | .trueWord => return .boolean token true
  | .falseWord => return .boolean token false
  | .bang => prefixed expression token .bang
  | .minus => prefixed expression token .minus
  | .leftParen => group expression
  | .ifWord => conditional depth expression token
  | .fnWord => functionLiteral depth expression token
  | .leftBracket => array depth expression token
  | .leftBrace => hash depth expression token
  | kind => fail current token (Problem.noOperand kind).message

/-- What would be said of a token that extends no expression. -/
def noExtension (k : Token.Kind) : String :=
  "no infix parse function for " ++ k.name ++ " found"

def call (token : Token) (left : Expr) : Act Expr := do
  let arguments ← items depth expression .rightParen
  return .call token left arguments

/-- The rest of an infix expression; the reader stands on the operator. -/
def infixed (token : Token) (left : Expr) (op : InfixOperator) : Act Expr := do
  let level := Precedence.of (← cur).kind
  nextToken
  let right ← expression level
  return .infixOp token left op right

def extension (left : Expr) : Act Expr := do
  let token ← cur
  match Extension.ofKind? token.kind with
  | some .call => call depth expression token left
  | some .index => indexed expression token left
  | some (.infixOp op) => infixed expression token left op
  | none => fail current token (noExtension token.kind)

/-- Whether the next token extends an expression that is read at a level. -/
def continues (level : Precedence) : Act Bool := do
  let k := (← peek).kind
  return k ≠ .semicolon ∧ level < .of k

def extensionRound (left : Expr) : Act Expr := do
  nextToken
  extension depth expression left

def extended (level : Precedence) : Act Expr := do
  let left ← operand depth expression
  iterate (continues level) (extensionRound depth expression) depth left

end

/-- Reads an expression (`parse_expression`), with calls and rounds to a depth. -/
def expression : Nat → Precedence → Act Expr
  | 0, _ => halt .tooDeep
  | depth + 1, level => extended depth (expression depth) level

/-! ### Programs -/

/-- Whether the reader stands where no statement starts and none has ended. -/
def unsynchronized : Act Bool := do
  if ← curIs .endOfInput then return false
  else if (← previous).kind = .semicolon then return false
  else
    let k := (← cur).kind
    return ¬ (k = .letWord ∨ k = .returnWord)

/-- Goes to where the next statement may start (`synchronize`). -/
def synchronize (depth : Nat) : Act Unit := do
  nextToken
  iterate unsynchronized (fun _ => nextToken) depth ()

/-- Goes on whether something fails or not. -/
def attempt (x : Act α) : Act (Option α) := fun r =>
  match x r with
  | .ok (o, r) => .ok (some o, r)
  | .error halt => .error halt

theorem attempt_of_ok {x : Act α} {r r' : Reader} {o : Option α} (h : x r = .ok (o, r')) :
    attempt x r = .ok (some o, r') := by
  rw [attempt, h]

theorem attempt_of_error {x : Act α} {r : Reader} {halt : Halt} (h : x r = .error halt) :
    attempt x r = .error halt := by
  rw [attempt, h]

/-- Reads a statement, or fails to and goes to where the next one may start. -/
def round (depth : Nat) : Act (Option Statement) := do
  match ← attempt (statement (expression depth)) with
  | some s =>
    nextToken
    return some s
  | none =>
    synchronize depth
    return none

/-- Whether there is a statement to read. -/
def unfinished : Act Bool := do
  return (← cur).kind ≠ .endOfInput

/-- The rounds of a program, each with its statement or without. -/
def rounds (depth : Nat) : Act (List (Option Statement)) :=
  collect unfinished (round depth) depth

/-- Reads a program (`parse_program`). -/
def program (depth : Nat) : Act Program := do
  let outcomes ← rounds depth
  return { statements := outcomes.filterMap id }

end Reader

end Monkey
