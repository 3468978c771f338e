import Monkey.Syntax

/-!
  Monkey/Syntax/Label.lean
  ========================
  **Labels for function literals.**

  Labelling counts the function literals of a tree in the order in which they
  start, and gives each of them its number, counting on from a first free label.
  Nothing else in the tree changes.
-/
namespace Monkey

/-- Takes the next free label. -/
def freshLabel : StateM Nat Nat := fun n => (n, n + 1)

mutual

/-- Labels the function literals of an expression. -/
def Expr.label : Expr → StateM Nat Expr
  | .identifier id => pure (.identifier id)
  | .integer token value => pure (.integer token value)
  | .string token value => pure (.string token value)
  | .boolean token value => pure (.boolean token value)
  | .array token elements => return .array token (← Expr.labelAll elements)
  | .hash token pairs => return .hash token (← Expr.labelPairs pairs)
  | .prefixOp token op right => return .prefixOp token op (← right.label)
  | .infixOp token left op right => return .infixOp token (← left.label) op (← right.label)
  | .cond token condition consequence alternative =>
    return .cond token (← condition.label) (← consequence.label) (← Block.labelOption alternative)
  | .function literal => return .function (← literal.relabel)
  | .call token callee arguments => return .call token (← callee.label) (← Expr.labelAll arguments)
  | .index token left i => return .index token (← left.label) (← i.label)

/-- Labels the function literals of expressions. -/
def Expr.labelAll : List Expr → StateM Nat (List Expr)
  | [] => pure []
  | e :: es => return (← e.label) :: (← Expr.labelAll es)

/-- Labels the function literals in the pairs of a hash literal. -/
def Expr.labelPairs : List (Expr × Expr) → StateM Nat (List (Expr × Expr))
  | [] => pure []
  | (key, value) :: pairs =>
    return (← key.label, ← value.label) :: (← Expr.labelPairs pairs)

/-- Labels a function literal and then those in its body. -/
def FunctionLiteral.relabel : FunctionLiteral → StateM Nat FunctionLiteral
  | ⟨token, parameters, body, _⟩ => do
    let label ← freshLabel
    return ⟨token, parameters, ← body.label, label⟩

/-- Labels the function literals of a block. -/
def Block.label : Block → StateM Nat Block
  | ⟨token, statements⟩ => return ⟨token, ← Statement.labelAll statements⟩

/-- Labels the function literals of a block that may be missing. -/
def Block.labelOption : Option Block → StateM Nat (Option Block)
  | none => pure none
  | some b => return some (← b.label)

/-- Labels the function literals of a statement. -/
def Statement.label : Statement → StateM Nat Statement
  | .letBind token name value => return .letBind token name (← value.label)
  | .returnValue token none => pure (.returnValue token none)
  | .returnValue token (some value) => return .returnValue token (some (← value.label))
  | .expression token e => return .expression token (← e.label)
  | .block b => return .block (← b.label)

/-- Labels the function literals of statements. -/
def Statement.labelAll : List Statement → StateM Nat (List Statement)
  | [] => pure []
  | s :: ss => return (← s.label) :: (← Statement.labelAll ss)

end

/-- Labels the function literals of a program. -/
def Program.label (p : Program) : StateM Nat Program :=
  return { statements := ← Statement.labelAll p.statements }

end Monkey
