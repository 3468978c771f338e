import Monkey.Syntax.Diagnostic
import Monkey.Syntax.Precedence

/-!
  Monkey/Syntax/Rule.lean
  =======================
  **The rules of the grammar.**

  A rule reads from a list of tokens whose head is the first token of the
  construct, and hands back the tokens behind it.  The list holds no final
  `endOfInput` token: where it is used up, a rule sees the end of the input, as
  often as it looks.

    * statement  : `let` name `=` expression, or `return` with or without an
      expression, or an expression; then an optional `;`
    * expression : an operand, extended by infix operators, calls and indexings
      as long as they bind more tightly than the level asks for
    * block      : statements up to `}` or an `endOfInput` token

  Each rule stands for a function of the parser, which its comment names, or for the
  loop of one.

  The result type of a rule says that it leaves fewer tokens than it was given
  (`Shorter`), or for a rule that may read nothing, no more (`NoLonger`).
-/
namespace Monkey.Rule

open Text

/-! ### Results -/

/-- The remaining tokens after a rule that reads at least one. -/
abbrev Shorter (ts : List Token) : Type :=
  { rest : List Token // rest.length < ts.length }

/-- The remaining tokens after a rule that may read none. -/
abbrev NoLonger (ts : List Token) : Type :=
  { rest : List Token // rest.length ≤ ts.length }

/-! ### Rules without expressions -/

/-- Reads one token of a given kind (`expect_peek`). -/
def expect (wanted : Token.Kind) (ts : List Token) : Except Failure (Token × Shorter ts) :=
  match ts with
  | [] => .error ⟨.unexpected wanted .endOfInput, []⟩
  | t :: rest =>
    if t.kind = wanted then .ok (t, ⟨rest, by simp⟩)
    else .error ⟨.unexpected wanted t.kind, t :: rest⟩

/-- Reads a `;` if there is one. -/
def optionalSemicolon (ts : List Token) : NoLonger ts :=
  match ts with
  | [] => ⟨[], by simp⟩
  | t :: rest => if t.kind = .semicolon then ⟨rest, by simp⟩ else ⟨t :: rest, by simp⟩

/-- Reads the names behind a parameter, each after a comma, and then `)`: the loop of
    `parse_function_parameters`. -/
def moreParameters (ts : List Token) : Except Failure (List Identifier × Shorter ts) :=
  match ts with
  | [] => .error ⟨.unexpected .rightParen .endOfInput, []⟩
  | t :: rest =>
    if t.kind = .comma then do
      let (name, ⟨ts₁, _⟩) ← expect .identifier rest
      let (names, ⟨ts₂, _⟩) ← moreParameters ts₁
      return (.ofToken name :: names, ⟨ts₂, by grind⟩)
    else do
      let (_, rest) ← expect .rightParen (t :: rest)
      return ([], rest)
termination_by ts.length
decreasing_by all_goals grind

/-- Reads parameters and the `)` behind them (`parse_function_parameters`). -/
def parameters (ts : List Token) : Except Failure (List Identifier × Shorter ts) :=
  if kindAt ts = .rightParen then do
    let (_, rest) ← expect .rightParen ts
    return ([], rest)
  else do
    let (name, ⟨ts₁, _⟩) ← expect .identifier ts
    let (names, ⟨ts₂, _⟩) ← moreParameters ts₁
    return (.ofToken name :: names, ⟨ts₂, by grind⟩)

/-! ### Expressions and statements -/

mutual

/-- Reads an expression whose infix operators, calls and indexings all bind more
    tightly than `level` (`parse_expression`). -/
def expression (level : Precedence) (ts : List Token) : Except Failure (Expr × Shorter ts) := do
  let (left, ⟨ts₁, _⟩) ← operand ts
  let (e, ⟨ts₂, _⟩) ← extend level left ts₁
  return (e, ⟨ts₂, by grind⟩)
termination_by 4 * ts.length + 1
decreasing_by all_goals grind

/-- Extends an expression as far as its extensions bind more tightly than `level`.
    This is the loop of `parse_expression`, with `parse_infix` and
    `parse_index_expression`. -/
def extend (level : Precedence) (left : Expr) (ts : List Token) :
    Except Failure (Expr × NoLonger ts) :=
  match ts with
  | [] => .ok (left, ⟨[], by simp⟩)
  | t :: rest =>
    if level < .of t.kind then
      match Extension.ofKind? t.kind with
      | some (.infixOp op) => do
        let (right, ⟨ts₁, _⟩) ← expression (.of t.kind) rest
        let (e, ⟨ts₂, _⟩) ← extend level (.infixOp t left op right) ts₁
        return (e, ⟨ts₂, by grind⟩)
      | some .call => do
        let (arguments, ⟨ts₁, _⟩) ← items .rightParen rest
        let (e, ⟨ts₂, _⟩) ← extend level (.call t left arguments) ts₁
        return (e, ⟨ts₂, by grind⟩)
      | some .index => do
        let (i, ⟨ts₁, _⟩) ← expression .lowest rest
        let (_, ⟨ts₂, _⟩) ← expect .rightBracket ts₁
        let (e, ⟨ts₃, _⟩) ← extend level (.index t left i) ts₂
        return (e, ⟨ts₃, by grind⟩)
      | none => .ok (left, ⟨t :: rest, by simp⟩)
    else .ok (left, ⟨t :: rest, by simp⟩)
termination_by 4 * ts.length
decreasing_by all_goals grind

/-- Reads an expression without extensions (`parse_prefix`).  A function literal is
    `parse_function_literal`. -/
def operand (ts : List Token) : Except Failure (Expr × Shorter ts) :=
  match ts with
  | [] => .error ⟨.noOperand .endOfInput, []⟩
  | t :: rest =>
    match t.kind with
    | .identifier => .ok (.identifier (.ofToken t), ⟨rest, by simp⟩)
    | .integer =>
      match Decimal.int64? t.literal with
      | some value => .ok (.integer t value, ⟨rest, by simp⟩)
      | none => .error ⟨.notAnInteger t.literal, t :: rest⟩
    | .string => .ok (.string t t.literal, ⟨rest, by simp⟩)
    | .trueWord => .ok (.boolean t true, ⟨rest, by simp⟩)
    | .falseWord => .ok (.boolean t false, ⟨rest, by simp⟩)
    | .bang => do
      let (right, ⟨ts₁, _⟩) ← expression .prefixOp rest
      return (.prefixOp t .bang right, ⟨ts₁, by grind⟩)
    | .minus => do
      let (right, ⟨ts₁, _⟩) ← expression .prefixOp rest
      return (.prefixOp t .minus right, ⟨ts₁, by grind⟩)
    | .leftParen => do
      let (e, ⟨ts₁, _⟩) ← expression .lowest rest
      let (_, ⟨ts₂, _⟩) ← expect .rightParen ts₁
      return (e, ⟨ts₂, by grind⟩)
    | .leftBracket => do
      let (elements, ⟨ts₁, _⟩) ← items .rightBracket rest
      return (.array t elements, ⟨ts₁, by grind⟩)
    | .leftBrace => do
      let (entries, ⟨ts₁, _⟩) ← pairs rest
      return (.hash t entries, ⟨ts₁, by grind⟩)
    | .ifWord => do
      let (e, ⟨ts₁, _⟩) ← conditional t rest
      return (e, ⟨ts₁, by grind⟩)
    | .fnWord => do
      let (_, ⟨ts₁, _⟩) ← expect .leftParen rest
      let (names, ⟨ts₂, _⟩) ← parameters ts₁
      let (brace, ⟨ts₃, _⟩) ← expect .leftBrace ts₂
      let (statements, ⟨ts₄, _⟩) ← blockBody ts₃
      return (.function ⟨t, names, ⟨brace, statements⟩, 0⟩, ⟨ts₄, by grind⟩)
    | kind => .error ⟨.noOperand kind, t :: rest⟩
termination_by 4 * ts.length
decreasing_by all_goals grind

/-- Reads what stands behind the word `if`, which is the token `t`
    (`parse_if_expression`). -/
def conditional (t : Token) (ts : List Token) : Except Failure (Expr × Shorter ts) := do
  let (_, ⟨ts₁, _⟩) ← expect .leftParen ts
  let (condition, ⟨ts₂, _⟩) ← expression .lowest ts₁
  let (_, ⟨ts₃, _⟩) ← expect .rightParen ts₂
  let (brace, ⟨ts₄, _⟩) ← expect .leftBrace ts₃
  let (statements, ⟨ts₅, _⟩) ← blockBody ts₄
  if kindAt ts₅ = .elseWord then
    let (_, ⟨ts₆, _⟩) ← expect .elseWord ts₅
    let (brace', ⟨ts₇, _⟩) ← expect .leftBrace ts₆
    let (statements', ⟨ts₈, _⟩) ← blockBody ts₇
    return (.cond t condition ⟨brace, statements⟩ (some ⟨brace', statements'⟩), ⟨ts₈, by grind⟩)
  else
    return (.cond t condition ⟨brace, statements⟩ none, ⟨ts₅, by grind⟩)
termination_by 4 * ts.length
decreasing_by all_goals grind

/-- Reads expressions, separated by commas, and the bracket that closes them
    (`parse_expression_list`). -/
def items (closing : Token.Kind) (ts : List Token) : Except Failure (List Expr × Shorter ts) :=
  if kindAt ts = closing then do
    let (_, rest) ← expect closing ts
    return ([], rest)
  else do
    let (e, ⟨ts₁, _⟩) ← expression .lowest ts
    let (es, ⟨ts₂, _⟩) ← moreItems closing ts₁
    return (e :: es, ⟨ts₂, by grind⟩)
termination_by 4 * ts.length + 2
decreasing_by all_goals grind

/-- Reads expressions, each after a comma, and the bracket that closes them: the loop
    of `parse_expression_list`. -/
def moreItems (closing : Token.Kind) (ts : List Token) : Except Failure (List Expr × Shorter ts) :=
  match ts with
  | [] => .error ⟨.unexpected closing .endOfInput, []⟩
  | t :: rest =>
    if t.kind = .comma then do
      let (e, ⟨ts₁, _⟩) ← expression .lowest rest
      let (es, ⟨ts₂, _⟩) ← moreItems closing ts₁
      return (e :: es, ⟨ts₂, by grind⟩)
    else do
      let (_, rest) ← expect closing (t :: rest)
      return ([], rest)
termination_by 4 * ts.length
decreasing_by all_goals grind

/-- Reads the pairs of a hash literal and the `}` behind them (`parse_hash_literal`).
    A comma is required between two pairs and allowed behind the last one. -/
def pairs (ts : List Token) : Except Failure (List (Expr × Expr) × Shorter ts) :=
  if kindAt ts = .rightBrace then do
    let (_, rest) ← expect .rightBrace ts
    return ([], rest)
  else do
    let (key, ⟨ts₁, _⟩) ← expression .lowest ts
    let (_, ⟨ts₂, _⟩) ← expect .colon ts₁
    let (value, ⟨ts₃, _⟩) ← expression .lowest ts₂
    if kindAt ts₃ = .rightBrace then
      let (_, ⟨ts₄, _⟩) ← expect .rightBrace ts₃
      return ([(key, value)], ⟨ts₄, by grind⟩)
    else
      let (_, ⟨ts₄, _⟩) ← expect .comma ts₃
      let (entries, ⟨ts₅, _⟩) ← pairs ts₄
      return ((key, value) :: entries, ⟨ts₅, by grind⟩)
termination_by 4 * ts.length + 2
decreasing_by all_goals grind

/-- Reads the statements of a block and the `}` or `endOfInput` token behind them
    (`parse_block_statement`); the end of the input closes a block too. -/
def blockBody (ts : List Token) : Except Failure (List Statement × NoLonger ts) :=
  match ts with
  | [] => .ok ([], ⟨[], by simp⟩)
  | t :: rest =>
    if t.kind = .rightBrace ∨ t.kind = .endOfInput then .ok ([], ⟨rest, by simp⟩)
    else do
      let (s, ⟨ts₁, _⟩) ← statement (t :: rest)
      let (ss, ⟨ts₂, _⟩) ← blockBody ts₁
      return (s :: ss, ⟨ts₂, by grind⟩)
termination_by 4 * ts.length + 3
decreasing_by all_goals grind

/-- Reads a statement (`parse_statement`), which is a `let`, a `return` or an
    expression (`parse_let_statement`, `parse_return_statement`,
    `parse_expression_statement`). -/
def statement (ts : List Token) : Except Failure (Statement × Shorter ts) :=
  match ts with
  | [] => .error ⟨.noOperand .endOfInput, []⟩
  | t :: rest =>
    match t.kind with
    | .letWord => do
      let (name, ⟨ts₁, _⟩) ← expect .identifier rest
      let (_, ⟨ts₂, _⟩) ← expect .equal ts₁
      let (value, ⟨ts₃, _⟩) ← expression .lowest ts₂
      let ⟨ts₄, _⟩ := optionalSemicolon ts₃
      return (.letBind t (.ofToken name) value, ⟨ts₄, by grind⟩)
    | .returnWord =>
      if kindAt rest = .semicolon ∨ kindAt rest = .rightBrace ∨ kindAt rest = .endOfInput then
        let ⟨ts₁, _⟩ := optionalSemicolon rest
        .ok (.returnValue t none, ⟨ts₁, by grind⟩)
      else do
        let (value, ⟨ts₁, _⟩) ← expression .lowest rest
        let ⟨ts₂, _⟩ := optionalSemicolon ts₁
        return (.returnValue t (some value), ⟨ts₂, by grind⟩)
    | _ => do
      let (e, ⟨ts₁, _⟩) ← expression .lowest (t :: rest)
      let ⟨ts₂, _⟩ := optionalSemicolon ts₁
      return (.expression t e, ⟨ts₂, by grind⟩)
termination_by 4 * ts.length + 2
decreasing_by all_goals grind

end

end Monkey.Rule
