import Monkey.Syntax.Rule

/-!
  Monkey/Syntax/Rule/Induction.lean
  =================================
  **What holds of all rules, shown rule by rule.**

  The rules call one another.  Some of the calls are made at once, before anything is
  read: an expression starts with an operand, items, pairs and statements start with an
  expression, and a block starts with a statement.  All others are made on fewer
  tokens.

  So a property of the rules is shown for one rule after the other.  On tokens `ts` a
  rule may rely on all rules where they are given fewer tokens (`Property.Below`), and
  on the one that it starts with.  If each rule has the property then
  (`Property.Hereditary`), all of them have it on all tokens (`Hereditary.everywhere`).
-/
namespace Monkey.Rule

/-- What is to hold of each rule, with what it is given. -/
structure Property where
  expression : Precedence → List Token → Prop
  extend : Precedence → Expr → List Token → Prop
  operand : List Token → Prop
  conditional : Token → List Token → Prop
  items : Token.Kind → List Token → Prop
  moreItems : Token.Kind → List Token → Prop
  pairs : List Token → Prop
  blockBody : List Token → Prop
  statement : List Token → Prop

namespace Property

/-- Every rule has the property where it is given `ts`. -/
structure On (p : Property) (ts : List Token) : Prop where
  expression (level : Precedence) : p.expression level ts
  extend (level : Precedence) (left : Expr) : p.extend level left ts
  operand : p.operand ts
  conditional (t : Token) : p.conditional t ts
  items (closing : Token.Kind) : p.items closing ts
  moreItems (closing : Token.Kind) : p.moreItems closing ts
  pairs : p.pairs ts
  blockBody : p.blockBody ts
  statement : p.statement ts

/-- Every rule has the property where it is given fewer tokens than `ts`. -/
def Below (p : Property) (ts : List Token) : Prop :=
  ∀ us, us.length < ts.length → p.On us

/-- Each rule has the property, if the rules that it calls have it. -/
structure Hereditary (p : Property) : Prop where
  operand {ts : List Token} (below : p.Below ts) : p.operand ts
  expression {ts : List Token} (below : p.Below ts) (operand : p.operand ts)
    (level : Precedence) : p.expression level ts
  extend {ts : List Token} (below : p.Below ts) (level : Precedence) (left : Expr) :
    p.extend level left ts
  conditional {ts : List Token} (below : p.Below ts) (t : Token) : p.conditional t ts
  items {ts : List Token} (below : p.Below ts) (expression : ∀ level, p.expression level ts)
    (closing : Token.Kind) : p.items closing ts
  moreItems {ts : List Token} (below : p.Below ts) (closing : Token.Kind) :
    p.moreItems closing ts
  pairs {ts : List Token} (below : p.Below ts) (expression : ∀ level, p.expression level ts) :
    p.pairs ts
  statement {ts : List Token} (below : p.Below ts)
    (expression : ∀ level, p.expression level ts) : p.statement ts
  blockBody {ts : List Token} (below : p.Below ts) (statement : p.statement ts) :
    p.blockBody ts

variable {p : Property}

theorem Below.tail {t : Token} {ts : List Token} (h : p.Below (t :: ts)) : p.On ts :=
  h ts (Nat.lt_succ_self ts.length)

/-- A hereditary property is one of all rules on all tokens. -/
theorem Hereditary.everywhere (h : p.Hereditary) (ts : List Token) : p.On ts :=
  have below : p.Below ts := fun us _ => h.everywhere us
  have operand := h.operand below
  have expression := h.expression below operand
  have statement := h.statement below expression
  { expression, operand, statement
    extend := h.extend below
    conditional := h.conditional below
    items := h.items below expression
    moreItems := h.moreItems below
    pairs := h.pairs below expression
    blockBody := h.blockBody below statement }
termination_by ts.length

end Property

end Monkey.Rule
