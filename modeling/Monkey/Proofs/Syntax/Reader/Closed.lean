import Monkey.Proofs.Syntax.Reader

/-!
  Monkey/Proofs/Syntax/Reader/Closed.lean
  =======================================
  **What all rules do because of what they are made of.**

  The rules are put together from a few actions.  A property that these have, and that
  one action after another has if both have it (`Closed`), is a property of every rule, at
  every depth (`Closed.rules`).
-/
namespace Monkey.Reader

/-- A property that what is put together has, if its parts have it. -/
structure Closed (P : (α : Type) → Act α → Prop) : Prop where
  pure {α : Type} (a : α) : P α (pure a)
  bind {α β : Type} {x : Act α} {f : α → Act β} (hx : P α x) (hf : ∀ a, P β (f a)) : P β (x >>= f)
  tooDeep {α : Type} : P α (halt .tooDeep)
  cur : P Token cur
  peek : P Token peek
  nextToken : P Unit nextToken
  fail {α : Type} (position : Reader → Nat) (t : Token) (message : String) :
    P α (fail position t message)

/-- Every rule has the property. -/
structure EveryRule (P : (α : Type) → Act α → Prop) (depth : Nat)
    (e : Precedence → Act Expr) : Prop where
  expectPeek (k : Token.Kind) : P Unit (expectPeek k)
  letStatement : P Statement (letStatement e)
  returnStatement : P Statement (returnStatement e)
  expressionStatement : P Statement (expressionStatement e)
  statement : P Statement (statement e)
  block : P Block (block depth e)
  expression (level : Precedence) : P Expr (e level)
  operand : P Expr (operand depth e)
  integer (token : Token) : P Expr (integer token)
  prefixed (token : Token) (op : PrefixOperator) : P Expr (prefixed e token op)
  group : P Expr (group e)
  conditional (token : Token) : P Expr (conditional depth e token)
  functionLiteral (token : Token) : P Expr (functionLiteral depth e token)
  parameters : P (List Identifier) (parameters depth)
  items (closing : Token.Kind) : P (List Expr) (items depth e closing)
  hash (token : Token) : P Expr (hash depth e token)
  extension (left : Expr) : P Expr (extension depth e left)
  indexed (token : Token) (left : Expr) : P Expr (indexed e token left)

theorem of_branches {P : (α : Type) → Act α → Prop} {c : Prop} [Decidable c] {x y : Act α}
    (hx : P α x) (hy : P α y) : P α (if c then x else y) := by
  split
  · exact hx
  · exact hy

namespace Closed

variable {P : (α : Type) → Act α → Prop} (hP : Closed P)

include hP

theorem peekIs (k : Token.Kind) : P Bool (peekIs k) :=
  hP.bind hP.peek fun _ => hP.pure _

theorem expectPeek (k : Token.Kind) : P Unit (expectPeek k) :=
  hP.bind hP.peek fun _ => of_branches hP.nextToken (hP.fail _ _ _)

theorem skipSemicolon : P Unit skipSemicolon :=
  hP.bind (hP.peekIs _) fun _ => of_branches hP.nextToken (hP.pure _)

theorem insideBlock : P Bool insideBlock :=
  hP.bind hP.cur fun _ => hP.pure _

theorem insideHash : P Bool insideHash :=
  hP.bind hP.peek fun _ => hP.pure _

theorem separator : P Unit separator :=
  hP.bind hP.insideHash fun _ => of_branches (hP.expectPeek _) (hP.pure _)

theorem continues (level : Precedence) : P Bool (continues level) :=
  hP.bind hP.peek fun _ => hP.pure _

theorem collect {guard : Act Bool} {round : Act α} (hg : P Bool guard) (hr : P α round)
    (depth : Nat) : P (List α) (collect guard round depth) := by
  induction depth with
  | zero => exact hP.tooDeep
  | succ depth ih =>
    refine hP.bind hg fun _ => of_branches ?_ (hP.pure _)
    exact hP.bind hr fun _ => hP.bind ih fun _ => hP.pure _

theorem iterate {guard : Act Bool} {round : α → Act α} (hg : P Bool guard)
    (hr : ∀ a, P α (round a)) (depth : Nat) (a : α) : P α (iterate guard round depth a) := by
  induction depth generalizing a with
  | zero => exact hP.tooDeep
  | succ depth ih =>
    refine hP.bind hg fun _ => of_branches ?_ (hP.pure _)
    exact hP.bind (hr a) fun b => ih b

theorem integer (token : Token) : P Expr (integer token) := by
  unfold Reader.integer
  split
  · exact hP.pure _
  · exact hP.fail _ _ _

theorem parameter : P Identifier parameter :=
  hP.bind (hP.expectPeek _) fun _ => hP.bind hP.cur fun _ => hP.pure _

theorem parameterRound : P Identifier parameterRound :=
  hP.bind hP.nextToken fun _ => hP.parameter

theorem parameters (depth : Nat) : P (List Identifier) (parameters depth) := by
  refine hP.bind (hP.peekIs _) fun _ => of_branches (hP.bind hP.nextToken fun _ => hP.pure _) ?_
  refine hP.bind hP.parameter fun _ => ?_
  refine hP.bind (hP.collect (hP.peekIs _) hP.parameterRound depth) fun _ => ?_
  exact hP.bind (hP.expectPeek _) fun _ => hP.pure _

section

variable {expression : Precedence → Act Expr} (he : ∀ level, P Expr (expression level))
  (depth : Nat)

include he

theorem letStatement : P Statement (letStatement expression) := by
  refine hP.bind hP.cur fun _ => hP.bind (hP.expectPeek _) fun _ => ?_
  refine hP.bind hP.cur fun _ => hP.bind (hP.expectPeek _) fun _ => ?_
  refine hP.bind hP.nextToken fun _ => hP.bind (he _) fun _ => ?_
  exact hP.bind hP.skipSemicolon fun _ => hP.pure _

theorem returned : P (Option Expr) (returned expression) := by
  refine hP.bind hP.peek fun _ => of_branches (hP.pure _) ?_
  exact hP.bind hP.nextToken fun _ => hP.bind (he _) fun _ => hP.pure _

theorem returnStatement : P Statement (returnStatement expression) := by
  refine hP.bind hP.cur fun _ => hP.bind (hP.returned he) fun _ => ?_
  exact hP.bind hP.skipSemicolon fun _ => hP.pure _

theorem expressionStatement : P Statement (expressionStatement expression) := by
  refine hP.bind hP.cur fun _ => hP.bind (he _) fun _ => ?_
  exact hP.bind hP.skipSemicolon fun _ => hP.pure _

theorem statement : P Statement (statement expression) := by
  refine hP.bind hP.cur fun token => ?_
  split
  · exact hP.letStatement he
  · exact hP.returnStatement he
  · exact hP.expressionStatement he

theorem blockRound : P Statement (blockRound expression) :=
  hP.bind (hP.statement he) fun _ => hP.bind hP.nextToken fun _ => hP.pure _

theorem block : P Block (block depth expression) := by
  refine hP.bind hP.cur fun _ => hP.bind hP.nextToken fun _ => ?_
  exact hP.bind (hP.collect hP.insideBlock (hP.blockRound he) depth) fun _ => hP.pure _

theorem prefixed (token : Token) (op : PrefixOperator) : P Expr (prefixed expression token op) :=
  hP.bind hP.nextToken fun _ => hP.bind (he _) fun _ => hP.pure _

theorem group : P Expr (group expression) := by
  refine hP.bind hP.nextToken fun _ => hP.bind (he _) fun _ => ?_
  exact hP.bind (hP.expectPeek _) fun _ => hP.pure _

theorem alternative : P (Option Block) (alternative depth expression) := by
  refine hP.bind (hP.peekIs _) fun _ => of_branches ?_ (hP.pure _)
  refine hP.bind hP.nextToken fun _ => hP.bind (hP.expectPeek _) fun _ => ?_
  exact hP.bind (hP.block he depth) fun _ => hP.pure _

theorem conditional (token : Token) : P Expr (conditional depth expression token) := by
  refine hP.bind (hP.expectPeek _) fun _ => hP.bind hP.nextToken fun _ => ?_
  refine hP.bind (he _) fun _ => hP.bind (hP.expectPeek _) fun _ => ?_
  refine hP.bind (hP.expectPeek _) fun _ => hP.bind (hP.block he depth) fun _ => ?_
  exact hP.bind (hP.alternative he depth) fun _ => hP.pure _

theorem functionLiteral (token : Token) : P Expr (functionLiteral depth expression token) := by
  refine hP.bind (hP.expectPeek _) fun _ => hP.bind (hP.parameters depth) fun _ => ?_
  refine hP.bind (hP.expectPeek _) fun _ => hP.bind (hP.block he depth) fun _ => ?_
  exact hP.pure _

theorem itemRound : P Expr (itemRound expression) :=
  hP.bind hP.nextToken fun _ => hP.bind hP.nextToken fun _ => he _

theorem items (closing : Token.Kind) : P (List Expr) (items depth expression closing) := by
  refine hP.bind (hP.peekIs _) fun _ => of_branches (hP.bind hP.nextToken fun _ => hP.pure _) ?_
  refine hP.bind hP.nextToken fun _ => hP.bind (he _) fun _ => ?_
  refine hP.bind (hP.collect (hP.peekIs _) (hP.itemRound he) depth) fun _ => ?_
  exact hP.bind (hP.expectPeek _) fun _ => hP.pure _

theorem indexed (token : Token) (left : Expr) : P Expr (indexed expression token left) := by
  refine hP.bind hP.nextToken fun _ => hP.bind (he _) fun _ => ?_
  exact hP.bind (hP.expectPeek _) fun _ => hP.pure _

theorem pairRound : P (Expr × Expr) (pairRound expression) := by
  refine hP.bind hP.nextToken fun _ => hP.bind (he _) fun _ => ?_
  refine hP.bind (hP.expectPeek _) fun _ => hP.bind hP.nextToken fun _ => ?_
  exact hP.bind (he _) fun _ => hP.bind hP.separator fun _ => hP.pure _

theorem hash (token : Token) : P Expr (hash depth expression token) := by
  refine hP.bind (hP.collect hP.insideHash (hP.pairRound he) depth) fun _ => ?_
  exact hP.bind (hP.expectPeek _) fun _ => hP.pure _

theorem array (token : Token) : P Expr (array depth expression token) :=
  hP.bind (hP.items he depth _) fun _ => hP.pure _

theorem operand : P Expr (operand depth expression) := by
  refine hP.bind hP.cur fun token => ?_
  split
  · exact hP.pure _
  · exact hP.integer _
  · exact hP.pure _
  · exact hP.pure _
  · exact hP.pure _
  · exact hP.prefixed he _ _
  · exact hP.prefixed he _ _
  · exact hP.group he
  · exact hP.conditional he depth _
  · exact hP.functionLiteral he depth _
  · exact hP.array he depth _
  · exact hP.hash he depth _
  · exact hP.fail _ _ _

theorem call (token : Token) (left : Expr) : P Expr (call depth expression token left) :=
  hP.bind (hP.items he depth _) fun _ => hP.pure _

theorem infixed (token : Token) (left : Expr) (op : InfixOperator) :
    P Expr (infixed expression token left op) := by
  refine hP.bind hP.cur fun _ => hP.bind hP.nextToken fun _ => ?_
  exact hP.bind (he _) fun _ => hP.pure _

theorem extension (left : Expr) : P Expr (extension depth expression left) := by
  refine hP.bind hP.cur fun token => ?_
  split
  · exact hP.call he depth _ _
  · exact hP.indexed he _ _
  · exact hP.infixed he _ _ _
  · exact hP.fail _ _ _

theorem extensionRound (left : Expr) : P Expr (extensionRound depth expression left) :=
  hP.bind hP.nextToken fun _ => hP.extension he depth left

theorem extended (level : Precedence) : P Expr (extended depth expression level) :=
  hP.bind (hP.operand he depth) fun _ =>
    hP.iterate (hP.continues level) (hP.extensionRound he depth) depth _

/-- The rules have the property, if what reads expressions for them has it. -/
theorem everyRule : EveryRule P depth expression where
  expectPeek := hP.expectPeek
  letStatement := hP.letStatement he
  returnStatement := hP.returnStatement he
  expressionStatement := hP.expressionStatement he
  statement := hP.statement he
  block := hP.block he depth
  expression := he
  operand := hP.operand he depth
  integer := hP.integer
  prefixed := hP.prefixed he
  group := hP.group he
  conditional := hP.conditional he depth
  functionLiteral := hP.functionLiteral he depth
  parameters := hP.parameters depth
  items := hP.items he depth
  hash := hP.hash he depth
  extension := hP.extension he depth
  indexed := hP.indexed he

end

theorem expression (depth : Nat) (level : Precedence) : P Expr (expression depth level) := by
  induction depth generalizing level with
  | zero => exact hP.tooDeep
  | succ depth ih => exact hP.extended ih depth level

/-- **What the actions do that rules are put together from, every rule does**, at every
    depth. -/
theorem rules (depth : Nat) : EveryRule P depth (Reader.expression depth) :=
  hP.everyRule (hP.expression depth) depth

end Closed

end Monkey.Reader
