import Monkey.Json
import Monkey.Syntax

/-!
  Monkey/Syntax/Document.lean
  ===========================
  **Tokens and trees as JSON documents.**

  A node becomes an object with its parts in a fixed order, and expressions and
  statements, of which there are several sorts, an object with one member that
  is named for the sort.  The label of a function literal is left out.
-/
namespace Monkey

/-- A token as a document. -/
def Token.toJson (t : Token) : Json :=
  .object [("token_type", .string t.kind.name), ("literal", .string t.literal), ("line", .nat t.line)]

/-- The name of an operator that stands before its operand. -/
def PrefixOperator.name : PrefixOperator → String
  | bang => "Bang"
  | minus => "Minus"

/-- The name of an operator that stands between its operands. -/
def InfixOperator.name : InfixOperator → String
  | plus => "Plus"
  | minus => "Minus"
  | star => "Star"
  | slash => "Slash"
  | less => "Less"
  | greater => "Greater"
  | equal => "Equal"
  | notEqual => "NotEqual"

/-- The name of the sort of an expression. -/
def Expr.sortName : Expr → String
  | identifier .. => "Identifier"
  | integer .. => "Integer"
  | string .. => "Str"
  | boolean .. => "Boolean"
  | array .. => "Array"
  | hash .. => "Hash"
  | prefixOp .. => "Prefix"
  | infixOp .. => "Infix"
  | cond .. => "If"
  | function .. => "Function"
  | call .. => "Call"
  | index .. => "Index"

/-- The name of the sort of a statement. -/
def Statement.sortName : Statement → String
  | letBind .. => "Let"
  | returnValue .. => "Return"
  | expression .. => "Expression"
  | block .. => "Block"

/-- An identifier as a document. -/
def Identifier.toJson (id : Identifier) : Json :=
  .object [("token", id.token.toJson), ("value", .string id.name)]

mutual

/-- An expression as a document. -/
def Expr.toJson : Expr → Json
  | .identifier id => .object [("Identifier", id.toJson)]
  | .integer token value =>
    .object [("Integer", .object [("token", token.toJson), ("value", .int value.toInt)])]
  | .string token value =>
    .object [("Str", .object [("token", token.toJson), ("value", .string value)])]
  | .boolean token value =>
    .object [("Boolean", .object [("token", token.toJson), ("value", .bool value)])]
  | .array token elements =>
    .object [("Array", .object [("token", token.toJson), ("elements", .array (Expr.toJsonAll elements))])]
  | .hash token pairs =>
    .object [("Hash", .object [("token", token.toJson), ("pairs", .array (Expr.toJsonPairs pairs))])]
  | .prefixOp token op right =>
    .object [("Prefix", .object
      [("token", token.toJson), ("operator", .string op.name), ("right", right.toJson)])]
  | .infixOp token left op right =>
    .object [("Infix", .object
      [("token", token.toJson), ("left", left.toJson), ("operator", .string op.name),
        ("right", right.toJson)])]
  | .cond token condition consequence alternative =>
    .object [("If", .object
      [("token", token.toJson), ("condition", condition.toJson), ("consequence", consequence.toJson),
        ("alternative", Block.toJsonOption alternative)])]
  | .function literal => .object [("Function", literal.toJson)]
  | .call token callee arguments =>
    .object [("Call", .object
      [("token", token.toJson), ("function", callee.toJson),
        ("arguments", .array (Expr.toJsonAll arguments))])]
  | .index token left i =>
    .object [("Index", .object [("token", token.toJson), ("left", left.toJson), ("index", i.toJson)])]

/-- Expressions as documents. -/
def Expr.toJsonAll : List Expr → List Json
  | [] => []
  | e :: es => e.toJson :: Expr.toJsonAll es

/-- The pairs of a hash literal as documents. -/
def Expr.toJsonPairs : List (Expr × Expr) → List Json
  | [] => []
  | (key, value) :: pairs => .array [key.toJson, value.toJson] :: Expr.toJsonPairs pairs

/-- A function literal as a document. -/
def FunctionLiteral.toJson : FunctionLiteral → Json
  | ⟨token, parameters, body, _⟩ =>
    .object [("token", token.toJson), ("parameters", .array (parameters.map Identifier.toJson)),
      ("body", body.toJson)]

/-- A block as a document. -/
def Block.toJson : Block → Json
  | ⟨token, statements⟩ =>
    .object [("token", token.toJson), ("statements", .array (Statement.toJsonAll statements))]

/-- A block that may be missing. -/
def Block.toJsonOption : Option Block → Json
  | none => .null
  | some b => b.toJson

/-- A statement as a document. -/
def Statement.toJson : Statement → Json
  | .letBind token name value =>
    .object [("Let", .object [("token", token.toJson), ("name", name.toJson), ("value", value.toJson)])]
  | .returnValue token none =>
    .object [("Return", .object [("token", token.toJson), ("value", .null)])]
  | .returnValue token (some value) =>
    .object [("Return", .object [("token", token.toJson), ("value", value.toJson)])]
  | .expression token e =>
    .object [("Expression", .object [("token", token.toJson), ("expression", e.toJson)])]
  | .block b => .object [("Block", b.toJson)]

/-- Statements as documents. -/
def Statement.toJsonAll : List Statement → List Json
  | [] => []
  | s :: ss => s.toJson :: Statement.toJsonAll ss

end

/-- A program as a document. -/
def Program.toJson (p : Program) : Json :=
  .object [("statements", .array (Statement.toJsonAll p.statements))]

end Monkey
