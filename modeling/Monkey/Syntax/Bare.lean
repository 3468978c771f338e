import Monkey.Syntax.Printer

/-!
  Monkey/Syntax/Bare.lean
  =======================
  **Trees without their tokens.**

  Two trees that differ in the tokens of their nodes only, which is in where and
  how they were written, have the same bare tree.  The text of a tree is the text
  of its bare tree (`Program.render_bare`).
-/
namespace Monkey

/-- The occurrence of a name, whatever token spells it. -/
def Identifier.bare (id : Identifier) : Identifier :=
  { id with token := default }

mutual

/-- An expression without its tokens. -/
def Expr.bare : Expr → Expr
  | .identifier id => .identifier id.bare
  | .integer _ value => .integer default value
  | .string _ value => .string default value
  | .boolean _ value => .boolean default value
  | .array _ elements => .array default (Expr.bareAll elements)
  | .hash _ pairs => .hash default (Expr.barePairs pairs)
  | .prefixOp _ op right => .prefixOp default op right.bare
  | .infixOp _ left op right => .infixOp default left.bare op right.bare
  | .cond _ condition consequence alternative =>
    .cond default condition.bare consequence.bare (Block.bareOption alternative)
  | .function literal => .function literal.bare
  | .call _ callee arguments => .call default callee.bare (Expr.bareAll arguments)
  | .index _ left i => .index default left.bare i.bare

/-- Expressions without their tokens. -/
def Expr.bareAll : List Expr → List Expr
  | [] => []
  | e :: es => e.bare :: Expr.bareAll es

/-- The pairs of a hash literal without their tokens. -/
def Expr.barePairs : List (Expr × Expr) → List (Expr × Expr)
  | [] => []
  | (key, value) :: pairs => (key.bare, value.bare) :: Expr.barePairs pairs

/-- A function literal without its tokens. -/
def FunctionLiteral.bare : FunctionLiteral → FunctionLiteral
  | ⟨_, parameters, body, label⟩ => ⟨default, parameters.map Identifier.bare, body.bare, label⟩

/-- A block without its tokens. -/
def Block.bare : Block → Block
  | ⟨_, statements⟩ => ⟨default, Statement.bareAll statements⟩

/-- A block that may be missing, without its tokens. -/
def Block.bareOption : Option Block → Option Block
  | none => none
  | some b => some b.bare

/-- A statement without its tokens. -/
def Statement.bare : Statement → Statement
  | .letBind _ name value => .letBind default name.bare value.bare
  | .returnValue _ none => .returnValue default none
  | .returnValue _ (some value) => .returnValue default (some value.bare)
  | .expression _ e => .expression default e.bare
  | .block b => .block b.bare

/-- Statements without their tokens. -/
def Statement.bareAll : List Statement → List Statement
  | [] => []
  | s :: ss => s.bare :: Statement.bareAll ss

end

/-- A program without its tokens. -/
def Program.bare (p : Program) : Program :=
  { statements := Statement.bareAll p.statements }

/-! ### The text of a bare tree -/

mutual

theorem Expr.render_bare (e : Expr) : e.bare.render = e.render := by
  cases e with
  | identifier id | integer t value | string t value | boolean t value => rfl
  | array t elements =>
    simp only [Expr.bare, Expr.render, Expr.renderAll_bareAll elements]
  | hash t pairs =>
    simp only [Expr.bare, Expr.render, Expr.renderPairs_barePairs pairs]
  | prefixOp t op right =>
    simp only [Expr.bare, Expr.render, right.render_bare]
  | infixOp t left op right =>
    simp only [Expr.bare, Expr.render, left.render_bare, right.render_bare]
  | cond t condition consequence alternative =>
    simp only [Expr.bare, Expr.render, condition.render_bare, consequence.render_bare,
      Block.renderElse_bareOption alternative]
  | function literal =>
    simp only [Expr.bare, Expr.render, literal.render_bare]
  | call t callee arguments =>
    simp only [Expr.bare, Expr.render, callee.render_bare, Expr.renderAll_bareAll arguments]
  | index t left i =>
    simp only [Expr.bare, Expr.render, left.render_bare, i.render_bare]

theorem Expr.renderAll_bareAll (es : List Expr) :
    Expr.renderAll (Expr.bareAll es) = Expr.renderAll es := by
  cases es with
  | nil => rfl
  | cons e es => simp only [Expr.bareAll, Expr.renderAll, e.render_bare, Expr.renderAll_bareAll es]

theorem Expr.renderPairs_barePairs (ps : List (Expr × Expr)) :
    Expr.renderPairs (Expr.barePairs ps) = Expr.renderPairs ps := by
  cases ps with
  | nil => rfl
  | cons p ps =>
    obtain ⟨key, value⟩ := p
    simp only [Expr.barePairs, Expr.renderPairs, key.render_bare, value.render_bare,
      Expr.renderPairs_barePairs ps]

theorem FunctionLiteral.render_bare (f : FunctionLiteral) : f.bare.render = f.render := by
  obtain ⟨t, parameters, body, label⟩ := f
  have hn : Identifier.name ∘ Identifier.bare = Identifier.name := rfl
  simp only [FunctionLiteral.bare, FunctionLiteral.render, body.render_bare, List.map_map, hn]

theorem Block.render_bare (b : Block) : b.bare.render = b.render := by
  obtain ⟨t, statements⟩ := b
  have he : (Statement.bareAll statements).isEmpty = statements.isEmpty := by
    cases statements <;> rfl
  simp only [Block.bare, Block.render, Statement.renderAll_bareAll statements, he]

theorem Block.renderElse_bareOption (b : Option Block) :
    Block.renderElse (Block.bareOption b) = Block.renderElse b := by
  cases b with
  | none => rfl
  | some b => simp only [Block.bareOption, Block.renderElse, b.render_bare]

theorem Statement.render_bare (s : Statement) : s.bare.render = s.render := by
  cases s with
  | letBind t name value =>
    simp only [Statement.bare, Statement.render, value.render_bare, Identifier.bare]
  | returnValue t value =>
    cases value with
    | none => rfl
    | some value => simp only [Statement.bare, Statement.render, value.render_bare]
  | expression t e => simp only [Statement.bare, Statement.render, e.render_bare]
  | block b => simp only [Statement.bare, Statement.render, b.render_bare]

theorem Statement.renderAll_bareAll (ss : List Statement) :
    Statement.renderAll (Statement.bareAll ss) = Statement.renderAll ss := by
  cases ss with
  | nil => rfl
  | cons s ss =>
    have hs : s.bare.needsSemicolon = s.needsSemicolon := by
      cases s with
      | returnValue t value => cases value <;> rfl
      | letBind | expression | block => rfl
    have he : (Statement.bareAll ss).isEmpty = ss.isEmpty := by
      cases ss <;> rfl
    simp only [Statement.bareAll, Statement.renderAll, s.render_bare, hs, he,
      Statement.renderAll_bareAll ss]

end

theorem Program.render_bare (p : Program) : p.bare.render = p.render :=
  Statement.renderAll_bareAll p.statements

end Monkey
