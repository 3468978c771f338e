import Monkey.Syntax
import Monkey.Text.Decimal

/-!
  Monkey/Syntax/Printer.lean
  ==========================
  **The canonical text of a tree.**

  Operators and indexings are written in parentheses, so that no text depends on
  binding strength.  Statements are separated by one blank.  An expression or a
  block that another statement follows gets a `;`, since `a (b)` would read back
  as a call.
-/
namespace Monkey

open Text

/-- Whether a statement needs a `;` between itself and the next one. -/
def Statement.needsSemicolon : Statement → Bool
  | letBind .. => false
  | returnValue .. => false
  | expression .. => true
  | block _ => true

mutual

/-- The text of an expression. -/
def Expr.render : Expr → String
  | .identifier id => id.name
  | .integer _ value => Decimal.ofInt value.toInt
  | .string _ value => "\"" ++ value ++ "\""
  | .boolean _ value => if value then "true" else "false"
  | .array _ elements => "[" ++ ", ".intercalate (Expr.renderAll elements) ++ "]"
  | .hash _ pairs => "\x7b" ++ ", ".intercalate (Expr.renderPairs pairs) ++ "\x7d"
  | .prefixOp _ op right => "(" ++ op.text ++ right.render ++ ")"
  | .infixOp _ left op right => "(" ++ left.render ++ " " ++ op.text ++ " " ++ right.render ++ ")"
  | .cond _ condition consequence alternative =>
    "if (" ++ condition.render ++ ") " ++ consequence.render ++ Block.renderElse alternative
  | .function literal => literal.render
  | .call _ callee arguments =>
    callee.render ++ "(" ++ ", ".intercalate (Expr.renderAll arguments) ++ ")"
  | .index _ left i => "(" ++ left.render ++ "[" ++ i.render ++ "])"

/-- The texts of expressions. -/
def Expr.renderAll : List Expr → List String
  | [] => []
  | e :: es => e.render :: Expr.renderAll es

/-- The texts of the pairs of a hash literal. -/
def Expr.renderPairs : List (Expr × Expr) → List String
  | [] => []
  | (key, value) :: pairs => (key.render ++ ": " ++ value.render) :: Expr.renderPairs pairs

/-- The text of a function literal. -/
def FunctionLiteral.render : FunctionLiteral → String
  | ⟨_, parameters, body, _⟩ =>
    "fn(" ++ ", ".intercalate (parameters.map Identifier.name) ++ ") " ++ body.render

/-- The text of a block. -/
def Block.render : Block → String
  | ⟨_, statements⟩ =>
    "\x7b " ++ Statement.renderAll statements ++ (if statements.isEmpty then "\x7d" else " \x7d")

/-- The text of the `else` part of a conditional. -/
def Block.renderElse : Option Block → String
  | none => ""
  | some b => " else " ++ b.render

/-- The text of a statement. -/
def Statement.render : Statement → String
  | .letBind _ name value => "let " ++ name.name ++ " = " ++ value.render ++ ";"
  | .returnValue _ none => "return;"
  | .returnValue _ (some value) => "return " ++ value.render ++ ";"
  | .expression _ e => e.render
  | .block b => b.render

/-- The text of a sequence of statements. -/
def Statement.renderAll : List Statement → String
  | [] => ""
  | s :: ss =>
    s.render ++ (if ss.isEmpty then "" else if s.needsSemicolon then "; " else " ") ++
      Statement.renderAll ss

end

/-- The text of a program. -/
def Program.render (p : Program) : String :=
  Statement.renderAll p.statements

end Monkey
