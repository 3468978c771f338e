import Monkey.Token

/-!
  Monkey/Syntax.lean
  ==================
  **Syntax trees.**

  Expressions, statements, blocks and programs.  Every node keeps the token it
  starts from: an infix expression its operator, a call its `(`, an indexing its
  `[`, and any other node its first token.

  A function literal carries a label besides.  Reading a program leaves all
  labels at zero; before a program is run every function literal in it gets a
  label of its own, by which two functions of equal text are told apart.
-/
namespace Monkey

/-! ### Operators -/

/-- The operators that stand before their operand. -/
inductive PrefixOperator where
  | bang
  | minus
deriving DecidableEq, Repr

/-- The operators that stand between their operands. -/
inductive InfixOperator where
  | plus
  | minus
  | star
  | slash
  | less
  | greater
  | equal
  | notEqual
deriving DecidableEq, Repr

/-- The text of an operator that stands before its operand. -/
def PrefixOperator.text : PrefixOperator → String
  | bang => "!"
  | minus => "-"

/-- The text of an operator that stands between its operands. -/
def InfixOperator.text : InfixOperator → String
  | plus => "+"
  | minus => "-"
  | star => "*"
  | slash => "/"
  | less => "<"
  | greater => ">"
  | equal => "=="
  | notEqual => "!="

/-! ### Trees -/

/-- An occurrence of a name: the target of a `let`, a parameter or a variable. -/
structure Identifier where
  token : Token
  name : String
deriving DecidableEq, Repr

/-- The identifier that a token spells. -/
def Identifier.ofToken (t : Token) : Identifier :=
  { token := t, name := t.literal }

mutual

/-- Expressions. -/
inductive Expr where
  | identifier (id : Identifier)
  | integer (token : Token) (value : Int64)
  | string (token : Token) (value : String)
  | boolean (token : Token) (value : Bool)
  /-- `[a, b, c]` -/
  | array (token : Token) (elements : List Expr)
  /-- The pairs of `{k: v, …}` in the order in which they are written. -/
  | hash (token : Token) (pairs : List (Expr × Expr))
  | prefixOp (token : Token) (op : PrefixOperator) (right : Expr)
  | infixOp (token : Token) (left : Expr) (op : InfixOperator) (right : Expr)
  /-- `if (condition) consequence`, with or without `else alternative` -/
  | cond (token : Token) (condition : Expr) (consequence : Block) (alternative : Option Block)
  | function (literal : FunctionLiteral)
  | call (token : Token) (callee : Expr) (arguments : List Expr)
  | index (token : Token) (left : Expr) (index : Expr)

/-- Statements. -/
inductive Statement where
  /-- `let name = value;` -/
  | letBind (token : Token) (name : Identifier) (value : Expr)
  /-- `return value;`, or `return;` -/
  | returnValue (token : Token) (value : Option Expr)
  | expression (token : Token) (expression : Expr)
  | block (block : Block)

/-- A sequence of statements between braces; `token` is the opening brace. -/
structure Block where
  token : Token
  statements : List Statement

/-- `fn(parameters) body`; `token` is the word `fn`. -/
structure FunctionLiteral where
  token : Token
  parameters : List Identifier
  body : Block
  label : Nat

end

deriving instance Repr for Expr, Statement, Block, FunctionLiteral
deriving instance Inhabited for Expr, Statement, Block, FunctionLiteral

/-- A program: statements that stand in no block. -/
structure Program where
  statements : List Statement
deriving Repr, Inhabited

/-! ### The token of a node -/

/-- The token that an expression keeps. -/
def Expr.token : Expr → Token
  | identifier id => id.token
  | integer token _ => token
  | string token _ => token
  | boolean token _ => token
  | array token _ => token
  | hash token _ => token
  | prefixOp token _ _ => token
  | infixOp token _ _ _ => token
  | cond token _ _ _ => token
  | function literal => literal.token
  | call token _ _ => token
  | index token _ _ => token

/-- The token that a statement keeps. -/
def Statement.token : Statement → Token
  | letBind token _ _ => token
  | returnValue token _ => token
  | expression token _ => token
  | block b => b.token

end Monkey
