import Monkey.Syntax.Bare
import Monkey.Syntax.Label

/-!
  Monkey/Syntax/MapTokens.lean
  ============================
  **Changing the tokens of a tree.**

  The nodes of a tree keep tokens.  `mapTokens f` puts `f t` in the place of each
  token `t` and leaves all else as it is: names, values, labels and the shape of the
  tree.  A bare tree is the case in which all tokens become the same
  (`Expr.bare_eq_mapTokens`), and labels are given out in the same way whatever the
  tokens (`Program.label_mapTokens`).
-/
namespace Monkey

variable (f g : Token → Token)

def Identifier.mapTokens (id : Identifier) : Identifier :=
  { id with token := f id.token }

mutual

def Expr.mapTokens : Expr → Expr
  | .identifier id => .identifier (id.mapTokens f)
  | .integer token value => .integer (f token) value
  | .string token value => .string (f token) value
  | .boolean token value => .boolean (f token) value
  | .array token elements => .array (f token) (Expr.mapTokensAll elements)
  | .hash token pairs => .hash (f token) (Expr.mapTokensPairs pairs)
  | .prefixOp token op right => .prefixOp (f token) op right.mapTokens
  | .infixOp token left op right => .infixOp (f token) left.mapTokens op right.mapTokens
  | .cond token condition consequence alternative =>
    .cond (f token) condition.mapTokens consequence.mapTokens (Block.mapTokensOption alternative)
  | .function literal => .function literal.mapTokens
  | .call token callee arguments => .call (f token) callee.mapTokens (Expr.mapTokensAll arguments)
  | .index token left i => .index (f token) left.mapTokens i.mapTokens

def Expr.mapTokensAll : List Expr → List Expr
  | [] => []
  | e :: es => e.mapTokens :: Expr.mapTokensAll es

def Expr.mapTokensPairs : List (Expr × Expr) → List (Expr × Expr)
  | [] => []
  | (key, value) :: pairs => (key.mapTokens, value.mapTokens) :: Expr.mapTokensPairs pairs

def FunctionLiteral.mapTokens : FunctionLiteral → FunctionLiteral
  | ⟨token, parameters, body, label⟩ =>
    ⟨f token, parameters.map (Identifier.mapTokens f), body.mapTokens, label⟩

def Block.mapTokens : Block → Block
  | ⟨token, statements⟩ => ⟨f token, Statement.mapTokensAll statements⟩

def Block.mapTokensOption : Option Block → Option Block
  | none => none
  | some b => some b.mapTokens

def Statement.mapTokens : Statement → Statement
  | .letBind token name value => .letBind (f token) (name.mapTokens f) value.mapTokens
  | .returnValue token none => .returnValue (f token) none
  | .returnValue token (some value) => .returnValue (f token) (some value.mapTokens)
  | .expression token e => .expression (f token) e.mapTokens
  | .block b => .block b.mapTokens

def Statement.mapTokensAll : List Statement → List Statement
  | [] => []
  | s :: ss => s.mapTokens :: Statement.mapTokensAll ss

end

def Program.mapTokens (p : Program) : Program :=
  { statements := Statement.mapTokensAll f p.statements }

theorem Statement.mapTokensAll_eq_map (ss : List Statement) :
    Statement.mapTokensAll f ss = ss.map (Statement.mapTokens f) := by
  induction ss with
  | nil => rfl
  | cons s ss ih => simp only [Statement.mapTokensAll, List.map_cons, ih]

/-! ### One change after another -/

mutual

theorem Expr.mapTokens_mapTokens (e : Expr) :
    (e.mapTokens g).mapTokens f = e.mapTokens (f ∘ g) := by
  cases e with
  | identifier id | integer t value | string t value | boolean t value => rfl
  | array t elements =>
    simp only [Expr.mapTokens, Expr.mapTokensAll_mapTokensAll elements, Function.comp]
  | hash t pairs =>
    simp only [Expr.mapTokens, Expr.mapTokensPairs_mapTokensPairs pairs, Function.comp]
  | prefixOp t op right => simp only [Expr.mapTokens, right.mapTokens_mapTokens, Function.comp]
  | infixOp t left op right =>
    simp only [Expr.mapTokens, left.mapTokens_mapTokens, right.mapTokens_mapTokens, Function.comp]
  | cond t condition consequence alternative =>
    simp only [Expr.mapTokens, condition.mapTokens_mapTokens, consequence.mapTokens_mapTokens,
      Block.mapTokensOption_mapTokensOption alternative, Function.comp]
  | function literal => simp only [Expr.mapTokens, literal.mapTokens_mapTokens]
  | call t callee arguments =>
    simp only [Expr.mapTokens, callee.mapTokens_mapTokens,
      Expr.mapTokensAll_mapTokensAll arguments, Function.comp]
  | index t left i =>
    simp only [Expr.mapTokens, left.mapTokens_mapTokens, i.mapTokens_mapTokens, Function.comp]

theorem Expr.mapTokensAll_mapTokensAll (es : List Expr) :
    Expr.mapTokensAll f (Expr.mapTokensAll g es) = Expr.mapTokensAll (f ∘ g) es := by
  cases es with
  | nil => rfl
  | cons e es =>
    simp only [Expr.mapTokensAll, e.mapTokens_mapTokens, Expr.mapTokensAll_mapTokensAll es]

theorem Expr.mapTokensPairs_mapTokensPairs (ps : List (Expr × Expr)) :
    Expr.mapTokensPairs f (Expr.mapTokensPairs g ps) = Expr.mapTokensPairs (f ∘ g) ps := by
  cases ps with
  | nil => rfl
  | cons p ps =>
    obtain ⟨key, value⟩ := p
    simp only [Expr.mapTokensPairs, key.mapTokens_mapTokens, value.mapTokens_mapTokens,
      Expr.mapTokensPairs_mapTokensPairs ps]

theorem FunctionLiteral.mapTokens_mapTokens (l : FunctionLiteral) :
    (l.mapTokens g).mapTokens f = l.mapTokens (f ∘ g) := by
  obtain ⟨t, parameters, body, label⟩ := l
  have hp : Identifier.mapTokens f ∘ Identifier.mapTokens g = Identifier.mapTokens (f ∘ g) := rfl
  simp only [FunctionLiteral.mapTokens, body.mapTokens_mapTokens, List.map_map, hp, Function.comp]

theorem Block.mapTokens_mapTokens (b : Block) :
    (b.mapTokens g).mapTokens f = b.mapTokens (f ∘ g) := by
  obtain ⟨t, statements⟩ := b
  simp only [Block.mapTokens, Statement.mapTokensAll_mapTokensAll statements, Function.comp]

theorem Block.mapTokensOption_mapTokensOption (b : Option Block) :
    Block.mapTokensOption f (Block.mapTokensOption g b) = Block.mapTokensOption (f ∘ g) b := by
  cases b with
  | none => rfl
  | some b => simp only [Block.mapTokensOption, b.mapTokens_mapTokens]

theorem Statement.mapTokens_mapTokens (s : Statement) :
    (s.mapTokens g).mapTokens f = s.mapTokens (f ∘ g) := by
  cases s with
  | letBind t name value =>
    simp only [Statement.mapTokens, value.mapTokens_mapTokens, Identifier.mapTokens, Function.comp]
  | returnValue t value =>
    cases value with
    | none => rfl
    | some value => simp only [Statement.mapTokens, value.mapTokens_mapTokens, Function.comp]
  | expression t e => simp only [Statement.mapTokens, e.mapTokens_mapTokens, Function.comp]
  | block b => simp only [Statement.mapTokens, b.mapTokens_mapTokens]

theorem Statement.mapTokensAll_mapTokensAll (ss : List Statement) :
    Statement.mapTokensAll f (Statement.mapTokensAll g ss) = Statement.mapTokensAll (f ∘ g) ss := by
  cases ss with
  | nil => rfl
  | cons s ss =>
    simp only [Statement.mapTokensAll, s.mapTokens_mapTokens,
      Statement.mapTokensAll_mapTokensAll ss]

end

theorem Program.mapTokens_mapTokens (p : Program) :
    (p.mapTokens g).mapTokens f = p.mapTokens (f ∘ g) :=
  congrArg Program.mk (Statement.mapTokensAll_mapTokensAll f g p.statements)

/-! ### Bare trees -/

mutual

theorem Expr.bare_eq_mapTokens (e : Expr) : e.bare = e.mapTokens fun _ => default := by
  cases e with
  | identifier id | integer t value | string t value | boolean t value => rfl
  | array t elements => simp only [Expr.bare, Expr.mapTokens, Expr.bareAll_eq_mapTokensAll elements]
  | hash t pairs => simp only [Expr.bare, Expr.mapTokens, Expr.barePairs_eq_mapTokensPairs pairs]
  | prefixOp t op right => simp only [Expr.bare, Expr.mapTokens, right.bare_eq_mapTokens]
  | infixOp t left op right =>
    simp only [Expr.bare, Expr.mapTokens, left.bare_eq_mapTokens, right.bare_eq_mapTokens]
  | cond t condition consequence alternative =>
    simp only [Expr.bare, Expr.mapTokens, condition.bare_eq_mapTokens,
      consequence.bare_eq_mapTokens, Block.bareOption_eq_mapTokensOption alternative]
  | function literal => simp only [Expr.bare, Expr.mapTokens, literal.bare_eq_mapTokens]
  | call t callee arguments =>
    simp only [Expr.bare, Expr.mapTokens, callee.bare_eq_mapTokens,
      Expr.bareAll_eq_mapTokensAll arguments]
  | index t left i =>
    simp only [Expr.bare, Expr.mapTokens, left.bare_eq_mapTokens, i.bare_eq_mapTokens]

theorem Expr.bareAll_eq_mapTokensAll (es : List Expr) :
    Expr.bareAll es = Expr.mapTokensAll (fun _ => default) es := by
  cases es with
  | nil => rfl
  | cons e es =>
    simp only [Expr.bareAll, Expr.mapTokensAll, e.bare_eq_mapTokens,
      Expr.bareAll_eq_mapTokensAll es]

theorem Expr.barePairs_eq_mapTokensPairs (ps : List (Expr × Expr)) :
    Expr.barePairs ps = Expr.mapTokensPairs (fun _ => default) ps := by
  cases ps with
  | nil => rfl
  | cons p ps =>
    obtain ⟨key, value⟩ := p
    simp only [Expr.barePairs, Expr.mapTokensPairs, key.bare_eq_mapTokens, value.bare_eq_mapTokens,
      Expr.barePairs_eq_mapTokensPairs ps]

theorem FunctionLiteral.bare_eq_mapTokens (l : FunctionLiteral) :
    l.bare = l.mapTokens fun _ => default := by
  obtain ⟨t, parameters, body, label⟩ := l
  have hp : Identifier.bare = Identifier.mapTokens fun _ => default := rfl
  simp only [FunctionLiteral.bare, FunctionLiteral.mapTokens, body.bare_eq_mapTokens, hp]

theorem Block.bare_eq_mapTokens (b : Block) : b.bare = b.mapTokens fun _ => default := by
  obtain ⟨t, statements⟩ := b
  simp only [Block.bare, Block.mapTokens, Statement.bareAll_eq_mapTokensAll statements]

theorem Block.bareOption_eq_mapTokensOption (b : Option Block) :
    Block.bareOption b = Block.mapTokensOption (fun _ => default) b := by
  cases b with
  | none => rfl
  | some b => simp only [Block.bareOption, Block.mapTokensOption, b.bare_eq_mapTokens]

theorem Statement.bare_eq_mapTokens (s : Statement) : s.bare = s.mapTokens fun _ => default := by
  cases s with
  | letBind t name value =>
    simp only [Statement.bare, Statement.mapTokens, value.bare_eq_mapTokens, Identifier.bare,
      Identifier.mapTokens]
  | returnValue t value =>
    cases value with
    | none => rfl
    | some value => simp only [Statement.bare, Statement.mapTokens, value.bare_eq_mapTokens]
  | expression t e => simp only [Statement.bare, Statement.mapTokens, e.bare_eq_mapTokens]
  | block b => simp only [Statement.bare, Statement.mapTokens, b.bare_eq_mapTokens]

theorem Statement.bareAll_eq_mapTokensAll (ss : List Statement) :
    Statement.bareAll ss = Statement.mapTokensAll (fun _ => default) ss := by
  cases ss with
  | nil => rfl
  | cons s ss =>
    simp only [Statement.bareAll, Statement.mapTokensAll, s.bare_eq_mapTokens,
      Statement.bareAll_eq_mapTokensAll ss]

end

theorem Program.bare_eq_mapTokens (p : Program) : p.bare = p.mapTokens fun _ => default :=
  congrArg Program.mk (Statement.bareAll_eq_mapTokensAll p.statements)

/-- The text of a function literal does not depend on its tokens. -/
theorem FunctionLiteral.render_mapTokens (l : FunctionLiteral) :
    (l.mapTokens f).render = l.render := by
  have h : (l.mapTokens f).bare = l.bare := by
    rw [bare_eq_mapTokens, bare_eq_mapTokens, mapTokens_mapTokens]
    rfl
  rw [← render_bare, h, render_bare]

/-! ### Labels -/

mutual

theorem Expr.label_mapTokens (e : Expr) : (e.mapTokens f).label = Expr.mapTokens f <$> e.label := by
  cases e with
  | identifier id | integer t value | string t value | boolean t value => rfl
  | array t elements =>
    simp only [Expr.mapTokens, Expr.label, Expr.labelAll_mapTokensAll elements, bind_pure_comp,
      Functor.map_map]
  | hash t pairs =>
    simp only [Expr.mapTokens, Expr.label, Expr.labelPairs_mapTokensPairs pairs, bind_pure_comp,
      Functor.map_map]
  | prefixOp t op right =>
    simp only [Expr.mapTokens, Expr.label, right.label_mapTokens, bind_pure_comp, Functor.map_map]
  | infixOp t left op right =>
    simp only [Expr.mapTokens, Expr.label, left.label_mapTokens, right.label_mapTokens,
      bind_pure_comp, map_bind, bind_map_left, Functor.map_map]
  | cond t condition consequence alternative =>
    simp only [Expr.mapTokens, Expr.label, condition.label_mapTokens, consequence.label_mapTokens,
      Block.labelOption_mapTokensOption alternative, bind_pure_comp, map_bind, bind_map_left,
      Functor.map_map]
  | function literal =>
    simp only [Expr.mapTokens, Expr.label, literal.relabel_mapTokens, bind_pure_comp,
      Functor.map_map]
  | call t callee arguments =>
    simp only [Expr.mapTokens, Expr.label, callee.label_mapTokens,
      Expr.labelAll_mapTokensAll arguments, bind_pure_comp, map_bind, bind_map_left,
      Functor.map_map]
  | index t left i =>
    simp only [Expr.mapTokens, Expr.label, left.label_mapTokens, i.label_mapTokens, bind_pure_comp,
      map_bind, bind_map_left, Functor.map_map]

theorem Expr.labelAll_mapTokensAll (es : List Expr) :
    Expr.labelAll (Expr.mapTokensAll f es) = Expr.mapTokensAll f <$> Expr.labelAll es := by
  cases es with
  | nil => rfl
  | cons e es =>
    simp only [Expr.mapTokensAll, Expr.labelAll, e.label_mapTokens, Expr.labelAll_mapTokensAll es,
      bind_pure_comp, map_bind, bind_map_left, Functor.map_map]

theorem Expr.labelPairs_mapTokensPairs (ps : List (Expr × Expr)) :
    Expr.labelPairs (Expr.mapTokensPairs f ps) = Expr.mapTokensPairs f <$> Expr.labelPairs ps := by
  cases ps with
  | nil => rfl
  | cons p ps =>
    obtain ⟨key, value⟩ := p
    simp only [Expr.mapTokensPairs, Expr.labelPairs, key.label_mapTokens, value.label_mapTokens,
      Expr.labelPairs_mapTokensPairs ps, bind_pure_comp, map_bind, bind_map_left, Functor.map_map]

theorem FunctionLiteral.relabel_mapTokens (l : FunctionLiteral) :
    (l.mapTokens f).relabel = FunctionLiteral.mapTokens f <$> l.relabel := by
  obtain ⟨t, parameters, body, label⟩ := l
  simp only [FunctionLiteral.mapTokens, FunctionLiteral.relabel, body.label_mapTokens,
    bind_pure_comp, map_bind, Functor.map_map]

theorem Block.label_mapTokens (b : Block) :
    (b.mapTokens f).label = Block.mapTokens f <$> b.label := by
  obtain ⟨t, statements⟩ := b
  simp only [Block.mapTokens, Block.label, Statement.labelAll_mapTokensAll statements,
    bind_pure_comp, Functor.map_map]

theorem Block.labelOption_mapTokensOption (b : Option Block) :
    Block.labelOption (Block.mapTokensOption f b) =
      Block.mapTokensOption f <$> Block.labelOption b := by
  cases b with
  | none => rfl
  | some b =>
    simp only [Block.mapTokensOption, Block.labelOption, b.label_mapTokens, bind_pure_comp,
      Functor.map_map]

theorem Statement.label_mapTokens (s : Statement) :
    (s.mapTokens f).label = Statement.mapTokens f <$> s.label := by
  cases s with
  | letBind t name value =>
    simp only [Statement.mapTokens, Statement.label, value.label_mapTokens, bind_pure_comp,
      Functor.map_map]
  | returnValue t value =>
    cases value with
    | none => rfl
    | some value =>
      simp only [Statement.mapTokens, Statement.label, value.label_mapTokens, bind_pure_comp,
        Functor.map_map]
  | expression t e =>
    simp only [Statement.mapTokens, Statement.label, e.label_mapTokens, bind_pure_comp,
      Functor.map_map]
  | block b =>
    simp only [Statement.mapTokens, Statement.label, b.label_mapTokens, bind_pure_comp,
      Functor.map_map]

theorem Statement.labelAll_mapTokensAll (ss : List Statement) :
    Statement.labelAll (Statement.mapTokensAll f ss) =
      Statement.mapTokensAll f <$> Statement.labelAll ss := by
  cases ss with
  | nil => rfl
  | cons s ss =>
    simp only [Statement.mapTokensAll, Statement.labelAll, s.label_mapTokens,
      Statement.labelAll_mapTokensAll ss, bind_pure_comp, map_bind, bind_map_left, Functor.map_map]

end

theorem Program.label_mapTokens (p : Program) :
    (p.mapTokens f).label = Program.mapTokens f <$> p.label := by
  simp only [Program.mapTokens, Program.label, Statement.labelAll_mapTokensAll, bind_pure_comp,
    Functor.map_map]

end Monkey
