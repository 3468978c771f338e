import Monkey.Syntax.Bare
import Monkey.Syntax.Parser
import Monkey.Proofs.Syntax.Grammar

/-!
  Monkey/Proofs/Syntax/Writing.lean
  =================================
  **Every writing of a tree is read back as that tree.**

  A tree can be written in many ways: around any expression in it there may stand
  parentheses, and the last statement of a block may go without its `;`.  `Writes`
  is the relation between trees and the tokens that write them.  It looks at
  levels only where an expression stands next to an operator, a `(` or a `[`: an
  infix operation there binds at the documented level of its operator (`Binds`), a
  prefix operation at that of prefix operators, and all else at the level of calls,
  also whatever stands in parentheses.

  The reading of an expression goes on where its writing ends, as long as the
  token behind it binds no more tightly than the expression and is no `else`
  (`Item.Reads`).  Neither a missing pair of parentheses nor an additional one
  changes the tree (`expression_of_writing`).
-/
namespace Monkey

open Text

/-- The kind of the token of an operator that stands before its operand. -/
def PrefixOperator.kind : PrefixOperator → Token.Kind
  | bang => .bang
  | minus => .minus

namespace Rule

/-! ### Operators -/

/-- The documented binding strength of infix operators: the token of an operator and
    the level at which the operator binds. -/
inductive Binds : Token.Kind → InfixOperator → Precedence → Prop where
  | equal : Binds .equalEqual .equal .equals
  | notEqual : Binds .bangEqual .notEqual .equals
  | less : Binds .less .less .lessGreater
  | greater : Binds .greater .greater .lessGreater
  | plus : Binds .plus .plus .sum
  | minus : Binds .minus .minus .sum
  | star : Binds .star .star .product
  | slash : Binds .slash .slash .product

/-- The tables by which expressions are read agree with the documented one. -/
theorem binds_iff {k : Token.Kind} {op : InfixOperator} {l : Precedence} :
    Binds k op l ↔ InfixOperator.ofKind? k = some op ∧ Precedence.of k = l := by
  constructor
  · rintro ⟨⟩ <;> exact ⟨rfl, rfl⟩
  · rintro ⟨h, rfl⟩
    cases k <;> cases h <;> constructor

theorem Binds.lowest_lt {k : Token.Kind} {op : InfixOperator} {l : Precedence}
    (h : Binds k op l) : .lowest < l := by
  cases h <;> decide

/-- Every infix operator binds more weakly than a prefix operator. -/
theorem Binds.lt_prefixOp {k : Token.Kind} {op : InfixOperator} {l : Precedence}
    (h : Binds k op l) : l < .prefixOp := by
  cases h <;> decide

theorem Binds.lt_call {k : Token.Kind} {op : InfixOperator} {l : Precedence} (h : Binds k op l) :
    l < .call :=
  Nat.lt_trans h.lt_prefixOp (Nat.lt_succ_self _)

/-! ### Writings -/

/-- The tokens of names, each behind a comma. -/
inductive WritesMoreNames : List Identifier → List Token → Prop where
  | nil : WritesMoreNames [] []
  | cons {m t id ids ts} (hm : m.kind = .comma) (ht : t.kind = .identifier)
      (hn : t.literal = id.name) (h : WritesMoreNames ids ts) :
      WritesMoreNames (id :: ids) (m :: t :: ts)

/-- The tokens of names with commas between them. -/
inductive WritesNames : List Identifier → List Token → Prop where
  | nil : WritesNames [] []
  | cons {t id ids ts} (ht : t.kind = .identifier) (hn : t.literal = id.name)
      (h : WritesMoreNames ids ts) : WritesNames (id :: ids) (t :: ts)

/-- What can be written: an expression that binds at some level to what stands
    around it, the insides of brackets, and statements. -/
inductive Item where
  | expression (level : Precedence) (e : Expr)
  | items (es : List Expr)
  | moreItems (es : List Expr)
  | pairs (ps : List (Expr × Expr))
  | statement (s : Statement)
  | statements (ss : List Statement)

/-- The tokens that write an item.  Which tokens the nodes keep does not matter. -/
inductive Writes : Item → List Token → Prop where
  | paren {l e o ts c} (ho : o.kind = .leftParen) (h : Writes (.expression l e) ts)
      (hc : c.kind = .rightParen) : Writes (.expression .call e) (o :: ts ++ [c])
  | identifier {id t} (ht : t.kind = .identifier) (hn : t.literal = id.name) :
      Writes (.expression .call (.identifier id)) [t]
  | integer {k value t} (ht : t.kind = .integer) (hv : Decimal.int64? t.literal = some value) :
      Writes (.expression .call (.integer k value)) [t]
  | string {k value t} (ht : t.kind = .string) (hv : t.literal = value) :
      Writes (.expression .call (.string k value)) [t]
  | true {k t} (ht : t.kind = .trueWord) : Writes (.expression .call (.boolean k true)) [t]
  | false {k t} (ht : t.kind = .falseWord) : Writes (.expression .call (.boolean k false)) [t]
  | array {k es o ts c} (ho : o.kind = .leftBracket) (h : Writes (.items es) ts)
      (hc : c.kind = .rightBracket) : Writes (.expression .call (.array k es)) (o :: ts ++ [c])
  | hash {k ps o ts c} (ho : o.kind = .leftBrace) (h : Writes (.pairs ps) ts)
      (hc : c.kind = .rightBrace) : Writes (.expression .call (.hash k ps)) (o :: ts ++ [c])
  | prefixOp {k op right l t ts} (ht : t.kind = op.kind) (hl : .prefixOp ≤ l)
      (h : Writes (.expression l right) ts) :
      Writes (.expression .prefixOp (.prefixOp k op right)) (t :: ts)
  | infixOp {k left op right m l ts t r us} (ht : Binds t.kind op m) (hl : m ≤ l) (hr : m < r)
      (h : Writes (.expression l left) ts) (h' : Writes (.expression r right) us) :
      Writes (.expression m (.infixOp k left op right)) (ts ++ t :: us)
  | ifThen {k condition k' ss l t o ts c b us c'} (ht : t.kind = .ifWord) (ho : o.kind = .leftParen)
      (h : Writes (.expression l condition) ts) (hc : c.kind = .rightParen)
      (hb : b.kind = .leftBrace) (hs : Writes (.statements ss) us) (hc' : c'.kind = .rightBrace) :
      Writes (.expression .call (.cond k condition ⟨k', ss⟩ none))
        (t :: o :: ts ++ c :: b :: us ++ [c'])
  | ifElse {k condition k' ss k'' ss' l t o ts c b us c' w b' us' c''} (ht : t.kind = .ifWord)
      (ho : o.kind = .leftParen) (h : Writes (.expression l condition) ts)
      (hc : c.kind = .rightParen) (hb : b.kind = .leftBrace) (hs : Writes (.statements ss) us)
      (hc' : c'.kind = .rightBrace) (hw : w.kind = .elseWord) (hb' : b'.kind = .leftBrace)
      (hs' : Writes (.statements ss') us') (hc'' : c''.kind = .rightBrace) :
      Writes (.expression .call (.cond k condition ⟨k', ss⟩ (some ⟨k'', ss'⟩)))
        (t :: o :: ts ++ c :: b :: us ++ c' :: w :: b' :: us' ++ [c''])
  | function {k ids k' ss t o ts c b us c'} (ht : t.kind = .fnWord) (ho : o.kind = .leftParen)
      (hn : WritesNames ids ts) (hc : c.kind = .rightParen) (hb : b.kind = .leftBrace)
      (hs : Writes (.statements ss) us) (hc' : c'.kind = .rightBrace) :
      Writes (.expression .call (.function ⟨k, ids, ⟨k', ss⟩, 0⟩))
        (t :: o :: ts ++ c :: b :: us ++ [c'])
  | call {k callee arguments l ts o us c} (hl : .call ≤ l) (h : Writes (.expression l callee) ts)
      (ho : o.kind = .leftParen) (hi : Writes (.items arguments) us) (hc : c.kind = .rightParen) :
      Writes (.expression .call (.call k callee arguments)) (ts ++ o :: us ++ [c])
  | index {k left i l ts o l' us c} (hl : .call ≤ l) (h : Writes (.expression l left) ts)
      (ho : o.kind = .leftBracket) (hi : Writes (.expression l' i) us)
      (hc : c.kind = .rightBracket) :
      Writes (.expression .call (.index k left i)) (ts ++ o :: us ++ [c])
  -- the insides of brackets
  | noItems : Writes (.items []) []
  | items {l e es ts us} (h : Writes (.expression l e) ts) (h' : Writes (.moreItems es) us) :
      Writes (.items (e :: es)) (ts ++ us)
  | noMoreItems : Writes (.moreItems []) []
  | moreItems {m l e es ts us} (hm : m.kind = .comma) (h : Writes (.expression l e) ts)
      (h' : Writes (.moreItems es) us) : Writes (.moreItems (e :: es)) (m :: ts ++ us)
  | noPairs : Writes (.pairs []) []
  | lastPair {l key l' value ts m us} (h : Writes (.expression l key) ts) (hm : m.kind = .colon)
      (h' : Writes (.expression l' value) us) : Writes (.pairs [(key, value)]) (ts ++ m :: us)
  | pairs {l key l' value ps ts m us c vs} (h : Writes (.expression l key) ts)
      (hm : m.kind = .colon) (h' : Writes (.expression l' value) us) (hc : c.kind = .comma)
      (hne : ps ≠ []) (hp : Writes (.pairs ps) vs) :
      Writes (.pairs ((key, value) :: ps)) (ts ++ m :: us ++ c :: vs)
  -- statements
  | letBind {k id value l t i q ts} (ht : t.kind = .letWord) (hi : i.kind = .identifier)
      (hn : i.literal = id.name) (hq : q.kind = .equal) (h : Writes (.expression l value) ts) :
      Writes (.statement (.letBind k id value)) (t :: i :: q :: ts)
  | returnNothing {k t} (ht : t.kind = .returnWord) :
      Writes (.statement (.returnValue k none)) [t]
  | returnValue {k value l t ts} (ht : t.kind = .returnWord) (h : Writes (.expression l value) ts) :
      Writes (.statement (.returnValue k (some value))) (t :: ts)
  | expressionStatement {k e l ts} (h : Writes (.expression l e) ts) :
      Writes (.statement (.expression k e)) ts
  | noStatements : Writes (.statements []) []
  | lastStatement {s ts} (h : Writes (.statement s) ts) : Writes (.statements [s]) ts
  | statements {s ts m ss us} (h : Writes (.statement s) ts) (hm : m.kind = .semicolon)
      (h' : Writes (.statements ss) us) : Writes (.statements (s :: ss)) (ts ++ m :: us)

/-! ### First tokens -/

/-- Whether an expression may start with a token of a given kind. -/
def StartsExpression (k : Token.Kind) : Prop :=
  k ∈ [.identifier, .integer, .string, .trueWord, .falseWord, .bang, .minus, .leftParen,
    .leftBracket, .leftBrace, .ifWord, .fnWord]

instance (k : Token.Kind) : Decidable (StartsExpression k) :=
  inferInstanceAs (Decidable (k ∈ _))

theorem StartsExpression.ne {k k' : Token.Kind} (h : StartsExpression k)
    (h' : ¬ StartsExpression k') : k ≠ k' := by
  rintro rfl
  exact h' h

/-- Whether a statement may start with a token of a given kind. -/
def StartsStatement (k : Token.Kind) : Prop :=
  k = .letWord ∨ k = .returnWord ∨ StartsExpression k

/-- How the tokens of an item may start. -/
def Item.Starts : Item → List Token → Prop
  | expression _ _, ts => ∃ t us, ts = t :: us ∧ StartsExpression t.kind
  | statement _, ts => ∃ t us, ts = t :: us ∧ StartsStatement t.kind
  | moreItems _, ts => ts = [] ∨ ∃ t us, ts = t :: us ∧ t.kind = .comma
  | _, _ => True

theorem starts_of_writes {x : Item} {ts : List Token} (h : Writes x ts) : x.Starts ts := by
  induction h with
  | paren ho | array ho | hash ho => exact ⟨_, _, rfl, by simp [StartsExpression, ho]⟩
  | identifier ht | integer ht | string ht | true ht | false ht =>
    exact ⟨_, _, rfl, by simp [StartsExpression, ht]⟩
  | ifThen ht | ifElse ht | function ht => exact ⟨_, _, rfl, by simp [StartsExpression, ht]⟩
  | @prefixOp _ op _ _ _ _ ht =>
    refine ⟨_, _, rfl, ?_⟩
    cases op <;> simp [StartsExpression, ht, PrefixOperator.kind]
  | infixOp _ _ _ _ _ ih | call _ _ _ _ _ ih | index _ _ _ _ _ ih =>
    obtain ⟨t, us, rfl, ht⟩ := ih
    exact ⟨t, _, rfl, ht⟩
  | noItems | items | noPairs | lastPair | pairs => trivial
  | noStatements | lastStatement | statements => trivial
  | noMoreItems => exact .inl rfl
  | moreItems hm => exact .inr ⟨_, _, rfl, hm⟩
  | letBind ht => exact ⟨_, _, rfl, .inl ht⟩
  | returnNothing ht | returnValue ht => exact ⟨_, _, rfl, .inr (.inl ht)⟩
  | expressionStatement _ ih =>
    obtain ⟨t, us, rfl, ht⟩ := ih
    exact ⟨t, us, rfl, .inr (.inr ht)⟩

theorem kindAt_writing_ne {l : Precedence} {e : Expr} {ts rest : List Token} {k : Token.Kind}
    (h : Writes (.expression l e) ts) (hk : ¬ StartsExpression k) : kindAt (ts ++ rest) ≠ k := by
  obtain ⟨t, us, rfl, ht⟩ := starts_of_writes h
  rintro rfl
  exact hk ht

/-! ### Levels of writings -/

theorem lowest_lt_of_writes {l : Precedence} {e : Expr} {ts : List Token}
    (h : Writes (.expression l e) ts) : .lowest < l := by
  cases h with
  | infixOp ht => exact ht.lowest_lt
  | _ => decide

theorem le_call (l : Precedence) : l ≤ .call := by
  cases l <;> decide

/-! ### Names -/

theorem words_of_writesMoreNames {ids : List Identifier} {ts : List Token}
    (h : WritesMoreNames ids ts) :
    ∃ ids₀, ids₀.map Identifier.bare = ids.map Identifier.bare ∧ WordsMoreNames ids₀ ts := by
  induction h with
  | nil => exact ⟨[], rfl, .nil⟩
  | @cons m t id ids ts hm ht hn h ih =>
    obtain ⟨ids₀, hb, hw⟩ := ih
    refine ⟨.ofToken t :: ids₀, ?_, .cons hm ht hw⟩
    simp only [List.map_cons, hb, Identifier.bare, Identifier.ofToken, hn]

theorem parameters_of_writes {ids : List Identifier} {ts : List Token} (h : WritesNames ids ts)
    {c : Token} (hc : c.kind = .rightParen) (rest : List Token) :
    ∃ ids₀, ids₀.map Identifier.bare = ids.map Identifier.bare ∧
      Yields (parameters (ts ++ c :: rest)) ids₀ rest := by
  cases h with
  | nil => exact ⟨[], rfl, parameters_of_words .nil hc rest⟩
  | @cons t id ids ts ht hn h =>
    obtain ⟨ids₀, hb, hw⟩ := words_of_writesMoreNames h
    refine ⟨.ofToken t :: ids₀, ?_, parameters_of_words (.cons ht hw) hc rest⟩
    simp only [List.map_cons, hb, Identifier.bare, Identifier.ofToken, hn]

/-! ### Reading a writing -/

/-- A kind that neither extends an expression nor goes on with a conditional. -/
def EndsExpression (k : Token.Kind) : Prop :=
  Precedence.of k = .lowest ∧ k ≠ .elseWord

instance (k : Token.Kind) : Decidable (EndsExpression k) :=
  inferInstanceAs (Decidable (_ ∧ _))

theorem endsExpression_cons {t : Token} {k : Token.Kind} (ts : List Token) (ht : t.kind = k)
    (hk : EndsExpression k) : EndsExpression (kindAt (t :: ts)) := by
  rw [← ht] at hk
  exact hk

/-- A kind that may stand behind the last of some items. -/
def EndsItems (k : Token.Kind) : Prop :=
  EndsExpression k ∧ ¬ StartsExpression k ∧ k ≠ .comma

instance (k : Token.Kind) : Decidable (EndsItems k) :=
  inferInstanceAs (Decidable (_ ∧ _ ∧ _))

/-- Whether an expression that binds at level `l` is read to its end by the rule
    that asks for more than level `p`.  A prefix operation is a single operand,
    and so it may stand behind a prefix operator as well. -/
def Fits (p l : Precedence) : Prop :=
  p < l ∨ p = .prefixOp ∧ l = .prefixOp

/-- That the rule for an item reads it from given tokens, up to the tokens that
    the nodes keep, whatever stands behind. -/
def Item.Reads : Item → List Token → Prop
  | expression l e, ts => ∀ p rest, Fits p l → .of (kindAt rest) ≤ l →
      kindAt rest ≠ .elseWord → ∃ e₀ : Expr, e₀.bare = e.bare ∧
        ∀ e' rest', Derives (.extension p e₀ rest e' rest') →
          Derives (.expression p (ts ++ rest) e' rest')
  | items es, ts => ∀ c rest, EndsItems c.kind → ∃ es₀, Expr.bareAll es₀ = Expr.bareAll es ∧
      Derives (.items c.kind (ts ++ c :: rest) es₀ rest)
  | moreItems es, ts => ∀ c rest, EndsItems c.kind → ∃ es₀, Expr.bareAll es₀ = Expr.bareAll es ∧
      Derives (.moreItems c.kind (ts ++ c :: rest) es₀ rest)
  | pairs ps, ts => ∀ c rest, c.kind = .rightBrace →
      ∃ ps₀, Expr.barePairs ps₀ = Expr.barePairs ps ∧ Derives (.pairs (ts ++ c :: rest) ps₀ rest)
  | statement s, ts => ∀ rest, EndsReturn (kindAt rest) → ∃ s₀ : Statement, s₀.bare = s.bare ∧
      Derives (.statement (ts ++ rest) s₀ (optionalSemicolon rest).1)
  | statements ss, ts => ∀ c rest, c.kind = .rightBrace →
      ∃ ss₀, Statement.bareAll ss₀ = Statement.bareAll ss ∧
        Derives (.block (ts ++ c :: rest) ss₀ rest)

theorem Fits.le {p l : Precedence} (h : Fits p l) : p ≤ l := by
  rcases h with h | ⟨rfl, rfl⟩
  · exact Nat.le_of_lt h
  · exact Nat.le_refl _

theorem Fits.lt_call {p : Precedence} (h : Fits p .call) : p < .call := by
  rcases h with h | ⟨-, h⟩
  · exact h
  · cases h

theorem EndsReturn.endsExpression {k : Token.Kind} (h : EndsReturn k) : EndsExpression k := by
  rcases h with rfl | rfl | rfl <;> exact ⟨rfl, by decide⟩

/-- Behind an operand an expression may go on. -/
theorem reads_of_operand {l : Precedence} {e : Expr} {ts : List Token}
    (h : ∀ rest, .of (kindAt rest) ≤ l → kindAt rest ≠ .elseWord →
      ∃ e₀ : Expr, e₀.bare = e.bare ∧ Derives (.operand (ts ++ rest) e₀ rest)) :
    (Item.expression l e).Reads ts := by
  intro p rest _ hl hn
  obtain ⟨e₀, hb, ho⟩ := h rest hl hn
  exact ⟨e₀, hb, fun e' rest' hx => .expression ho hx⟩

/-- Where no extension follows, the reading of an expression ends. -/
theorem Item.Reads.ends {l : Precedence} {e : Expr} {ts : List Token}
    (h : (Item.expression l e).Reads ts) {p : Precedence} {rest : List Token} (hp : Fits p l)
    (hl : .of (kindAt rest) ≤ p) (hn : kindAt rest ≠ .elseWord) :
    ∃ e₀ : Expr, e₀.bare = e.bare ∧ Derives (.expression p (ts ++ rest) e₀ rest) := by
  obtain ⟨e₀, hb, hx⟩ := h p rest hp (Nat.le_trans hl hp.le) hn
  exact ⟨e₀, hb, hx e₀ rest (.stop (Nat.not_lt.2 hl))⟩

/-- Between tokens that end expressions, one is read whatever its level. -/
theorem Item.Reads.whole {l : Precedence} {e : Expr} {ts : List Token}
    (h : (Item.expression l e).Reads ts) (hw : Writes (.expression l e) ts) {rest : List Token}
    (hk : EndsExpression (kindAt rest)) :
    ∃ e₀ : Expr, e₀.bare = e.bare ∧ Derives (.expression .lowest (ts ++ rest) e₀ rest) := by
  have hl : .of (kindAt rest) ≤ Precedence.lowest := by
    rw [hk.1]
    decide
  exact h.ends (.inl (lowest_lt_of_writes hw)) hl hk.2

/-- What a `(` or a `[` extends. -/
theorem Item.Reads.before_bracket {l : Precedence} {e : Expr} {ts : List Token}
    (h : (Item.expression l e).Reads ts) (hl : .call ≤ l) {p : Precedence} (hp : Fits p .call)
    (rest : List Token) (ho : kindAt rest = .leftParen ∨ kindAt rest = .leftBracket) :
    ∃ e₀ : Expr, e₀.bare = e.bare ∧ ∀ e' rest', Derives (.extension p e₀ rest e' rest') →
      Derives (.expression p (ts ++ rest) e' rest') := by
  have hk : .of (kindAt rest) ≤ l ∧ kindAt rest ≠ .elseWord := by
    rcases ho with ho | ho <;> exact ⟨ho ▸ hl, by rw [ho]; decide⟩
  exact h p rest (.inl (Nat.lt_of_lt_of_le hp.lt_call hl)) hk.1 hk.2

theorem endsExpression_moreItems {es : List Expr} {ts : List Token}
    (h : Writes (.moreItems es) ts) {c : Token} (hc : EndsItems c.kind) (rest : List Token) :
    EndsExpression (kindAt (ts ++ c :: rest)) := by
  obtain rfl | ⟨t, us, rfl, ht⟩ := starts_of_writes h
  · exact hc.1
  · simp only [List.cons_append, kindAt, ht]
    decide

theorem StartsStatement.ne_closing {k : Token.Kind} (h : StartsStatement k) :
    k ≠ .rightBrace ∧ k ≠ .endOfInput := by
  constructor
  all_goals
    rintro rfl
    rcases h with h | h | h
    · cases h
    · cases h
    · exact absurd h (by decide)

theorem block_of_statement {s s₀ : Statement} {ts rest ts₁ rest' : List Token}
    {ss₀ : List Statement} (h : Writes (.statement s) ts)
    (hs : Derives (.statement (ts ++ rest) s₀ ts₁)) (hb : Derives (.block ts₁ ss₀ rest')) :
    Derives (.block (ts ++ rest) (s₀ :: ss₀) rest') := by
  obtain ⟨t, us, rfl, ht⟩ := starts_of_writes h
  obtain ⟨h₁, h₂⟩ := ht.ne_closing
  refine .block ?_ hs hb
  rintro (h | h)
  · exact h₁ h
  · exact h₂ h

/-- Every writing is read. -/
theorem reads_of_writes {x : Item} {ts : List Token} (h : Writes x ts) : x.Reads ts := by
  -- on the writing, not on the tree: a pair of parentheses is a step that leaves
  -- the tree as it is
  induction h with
  | @paren l e o ts c ho hw hc ih =>
    refine reads_of_operand fun rest _ _ => ?_
    have hk := endsExpression_cons rest hc (by decide)
    obtain ⟨e₀, hb, he⟩ := ih.whole hw hk
    refine ⟨e₀, hb, ?_⟩
    simp only [List.cons_append, List.append_assoc, List.nil_append]
    exact .group ho he hc
  | @identifier id t ht hn =>
    refine reads_of_operand fun rest _ _ => ⟨.identifier (.ofToken t), ?_, .identifier ht⟩
    simp only [Expr.bare, Identifier.bare, Identifier.ofToken, hn]
  | @integer k value t ht hv =>
    exact reads_of_operand fun rest _ _ => ⟨.integer t value, rfl, .integer ht hv⟩
  | @string k value t ht hv =>
    subst hv
    exact reads_of_operand fun rest _ _ => ⟨.string t t.literal, rfl, .string ht⟩
  | @true k t ht => exact reads_of_operand fun rest _ _ => ⟨.boolean t true, rfl, .true ht⟩
  | @false k t ht => exact reads_of_operand fun rest _ _ => ⟨.boolean t false, rfl, .false ht⟩
  | @array k es o ts c ho hw hc ih =>
    refine reads_of_operand fun rest _ _ => ?_
    have hk : EndsItems c.kind := by
      rw [hc]
      decide
    obtain ⟨es₀, hb, hi⟩ := ih c rest hk
    refine ⟨.array o es₀, by simp only [Expr.bare, hb], ?_⟩
    simp only [List.cons_append, List.append_assoc, List.nil_append]
    exact .array ho (hc ▸ hi)
  | @hash k ps o ts c ho hw hc ih =>
    refine reads_of_operand fun rest _ _ => ?_
    obtain ⟨ps₀, hb, hp⟩ := ih c rest hc
    refine ⟨.hash o ps₀, by simp only [Expr.bare, hb], ?_⟩
    simp only [List.cons_append, List.append_assoc, List.nil_append]
    exact .hash ho hp
  | @prefixOp k op right l t ts ht hl hw ih =>
    refine reads_of_operand fun rest hr hn => ?_
    have hp : Fits .prefixOp l := by
      rcases Nat.eq_or_lt_of_le hl with h | h
      · cases l <;> first | exact .inr ⟨rfl, rfl⟩ | cases h
      · exact .inl h
    obtain ⟨right₀, hb, he⟩ := ih.ends hp hr hn
    refine ⟨.prefixOp t op right₀, by simp only [Expr.bare, hb], ?_⟩
    cases op with
    | bang => exact .bang ht he
    | minus => exact .minus ht he
  | @infixOp k left op right m l ts t r us ht hl hr hw hw' ih ih' =>
    intro p rest hp hle hn
    -- the right operand is read above the level of the operator and ends where the
    -- whole ends; the left one is then extended by the operator
    have hp : p < m := by
      rcases hp with h | ⟨-, h⟩
      · exact h
      · exact absurd h (Nat.ne_of_lt ht.lt_prefixOp ∘ congrArg Precedence.rank)
    obtain ⟨hk, rfl⟩ := binds_iff.1 ht
    obtain ⟨right₀, hb', he⟩ := ih'.ends (.inl hr) hle hn
    have hn' : kindAt (t :: (us ++ rest)) ≠ .elseWord := by
      intro h
      have h : t.kind = .elseWord := h
      rw [h] at hk
      cases hk
    obtain ⟨left₀, hb, hx⟩ := ih p (t :: (us ++ rest)) (.inl (Nat.lt_of_lt_of_le hp hl)) hl hn'
    refine ⟨.infixOp t left₀ op right₀, by simp only [Expr.bare, hb, hb'], fun e' rest' he' => ?_⟩
    rw [List.append_assoc, List.cons_append]
    exact hx e' rest' (.infixOp hk hp he he')
  | @ifThen k condition k' ss l t o ts c b us c' ht ho hw hc hb hs hc' ih ihs =>
    refine reads_of_operand fun rest _ hn => ?_
    have hk := endsExpression_cons (b :: (us ++ c' :: rest)) hc (by decide)
    obtain ⟨e₀, he, hx⟩ := ih.whole hw hk
    obtain ⟨ss₀, hss, hy⟩ := ihs c' rest hc'
    refine ⟨.cond t e₀ ⟨b, ss₀⟩ none, ?_, ?_⟩
    · simp only [Expr.bare, Block.bare, Block.bareOption, he, hss]
    · simp only [List.cons_append, List.append_assoc, List.nil_append]
      exact .ifThen ht ho hx hc hb hy hn
  | @ifElse k condition k' ss k'' ss' l t o ts c b us c' w b' us' c'' ht ho hw hc hb hs hc' he hb'
      hs' hc'' ih ihs ihs' =>
    refine reads_of_operand fun rest _ _ => ?_
    have hk :=
      endsExpression_cons (b :: (us ++ c' :: w :: b' :: (us' ++ c'' :: rest))) hc (by decide)
    obtain ⟨e₀, hb₀, hx⟩ := ih.whole hw hk
    obtain ⟨ss₀, hss, hy⟩ := ihs c' (w :: b' :: (us' ++ c'' :: rest)) hc'
    obtain ⟨ss₁, hss', hy'⟩ := ihs' c'' rest hc''
    refine ⟨.cond t e₀ ⟨b, ss₀⟩ (some ⟨b', ss₁⟩), ?_, ?_⟩
    · simp only [Expr.bare, Block.bare, Block.bareOption, hb₀, hss, hss']
    · simp only [List.cons_append, List.append_assoc, List.nil_append]
      exact .ifElse ht ho hx hc hb hy he hb' hy'
  | @function k ids k' ss t o ts c b us c' ht ho hn hc hb hs hc' ihs =>
    refine reads_of_operand fun rest _ _ => ?_
    obtain ⟨ids₀, hi, hp⟩ := parameters_of_writes hn hc (b :: (us ++ c' :: rest))
    obtain ⟨ss₀, hss, hy⟩ := ihs c' rest hc'
    refine ⟨.function ⟨t, ids₀, ⟨b, ss₀⟩, 0⟩, ?_, ?_⟩
    · simp only [Expr.bare, FunctionLiteral.bare, Block.bare, hi, hss]
    · simp only [List.cons_append, List.append_assoc, List.nil_append]
      exact .function ht ho hp hb hy
  | @call k callee arguments l ts o us c hl hw ho hi hc ih ihi =>
    intro p rest hp hle hn
    have hk : EndsItems c.kind := by
      rw [hc]
      decide
    obtain ⟨es₀, hes, hi⟩ := ihi c rest hk
    obtain ⟨e₀, hb, hx⟩ := ih.before_bracket hl hp (o :: (us ++ c :: rest)) (.inl ho)
    refine ⟨.call o e₀ es₀, by simp only [Expr.bare, hb, hes], fun e' rest' he' => ?_⟩
    simp only [List.cons_append, List.append_assoc, List.nil_append]
    exact hx e' rest' (.call ho hp.lt_call (hc ▸ hi) he')
  | @index k left i l ts o l' us c hl hw ho hi hc ih ihi =>
    intro p rest hp hle hn
    have hk := endsExpression_cons rest hc (by decide)
    obtain ⟨i₀, hbi, hi⟩ := ihi.whole hi hk
    obtain ⟨e₀, hb, hx⟩ := ih.before_bracket hl hp (o :: (us ++ c :: rest)) (.inr ho)
    refine ⟨.index o e₀ i₀, by simp only [Expr.bare, hb, hbi], fun e' rest' he' => ?_⟩
    simp only [List.cons_append, List.append_assoc, List.nil_append]
    exact hx e' rest' (.index ho hp.lt_call hi hc he')
  | noItems => exact fun c rest _ => ⟨[], rfl, .noItems rfl⟩
  | @items l e es ts us hw hm ih ihm =>
    intro c rest hk
    obtain ⟨es₀, hes, hd⟩ := ihm c rest hk
    obtain ⟨e₀, hb, hx⟩ := ih.whole hw (endsExpression_moreItems hm hk rest)
    refine ⟨e₀ :: es₀, by simp only [Expr.bareAll, hb, hes], ?_⟩
    rw [List.append_assoc]
    exact .items (kindAt_writing_ne hw hk.2.1) hx hd
  | noMoreItems => exact fun c rest hk => ⟨[], rfl, .noMoreItems hk.2.2 rfl⟩
  | @moreItems m l e es ts us hmk hw hm ih ihm =>
    intro c rest hk
    obtain ⟨es₀, hes, hd⟩ := ihm c rest hk
    obtain ⟨e₀, hb, hx⟩ := ih.whole hw (endsExpression_moreItems hm hk rest)
    refine ⟨e₀ :: es₀, by simp only [Expr.bareAll, hb, hes], ?_⟩
    rw [List.cons_append, List.cons_append, List.append_assoc]
    exact .moreItems hmk hx hd
  | noPairs => exact fun c rest hc => ⟨[], rfl, .noPairs hc⟩
  | @lastPair l key l' value ts m us hw hm hw' ih ih' =>
    intro c rest hc
    have hk := endsExpression_cons (us ++ c :: rest) hm (by decide)
    have hk' := endsExpression_cons rest hc (by decide)
    obtain ⟨key₀, hb, hx⟩ := ih.whole hw hk
    obtain ⟨value₀, hb', hx'⟩ := ih'.whole hw' hk'
    refine ⟨[(key₀, value₀)], by simp only [Expr.barePairs, hb, hb'], ?_⟩
    rw [List.append_assoc, List.cons_append]
    exact .lastPair (kindAt_writing_ne hw (by decide)) hx hm hx' hc
  | @pairs l key l' value ps ts m us c' vs hw hm hw' hc' hne hp ih ih' ihp =>
    intro c rest hc
    have hk := endsExpression_cons (us ++ c' :: (vs ++ c :: rest)) hm (by decide)
    have hk' := endsExpression_cons (vs ++ c :: rest) hc' (by decide)
    obtain ⟨key₀, hb, hx⟩ := ih.whole hw hk
    obtain ⟨value₀, hb', hx'⟩ := ih'.whole hw' hk'
    obtain ⟨ps₀, hbp, hxp⟩ := ihp c rest hc
    refine ⟨(key₀, value₀) :: ps₀, by simp only [Expr.barePairs, hb, hb', hbp], ?_⟩
    simp only [List.cons_append, List.append_assoc]
    exact .pairs (kindAt_writing_ne hw (by decide)) hx hm hx' hc' hxp
  | @letBind k id value l t i q ts ht hi hn hq hw ih =>
    intro rest hk
    obtain ⟨value₀, hb, hx⟩ := ih.whole hw hk.endsExpression
    refine ⟨.letBind t (.ofToken i) value₀, ?_, .letBind ht hi hq hx⟩
    simp only [Statement.bare, Identifier.bare, Identifier.ofToken, hn, hb]
  | @returnNothing k t ht =>
    exact fun rest hk => ⟨.returnValue t none, rfl, .returnNothing ht hk⟩
  | @returnValue k value l t ts ht hw ih =>
    intro rest hk
    obtain ⟨value₀, hb, hx⟩ := ih.whole hw hk.endsExpression
    refine ⟨.returnValue t (some value₀), by simp only [Statement.bare, hb], ?_⟩
    have hn : ¬ EndsReturn (kindAt (ts ++ rest)) := by
      rintro (h | h | h)
      all_goals exact kindAt_writing_ne hw (by decide) h
    exact .returnValue ht hn hx
  | @expressionStatement k e l ts hw ih =>
    intro rest hk
    obtain ⟨e₀, hb, hx⟩ := ih.whole hw hk.endsExpression
    obtain ⟨t, us, rfl, ht⟩ := starts_of_writes hw
    refine ⟨.expression t e₀, by simp only [Statement.bare, hb], ?_⟩
    refine .expressionStatement ?_ ?_ hx
    · intro h
      exact absurd (h ▸ ht) (by decide)
    · intro h
      exact absurd (h ▸ ht) (by decide)
  | noStatements => exact fun c rest hc => ⟨[], rfl, .closeBlock (.inl hc)⟩
  | @lastStatement s ts hw ih =>
    intro c rest hc
    -- the closing brace ends the statement as well as a `;` does
    obtain ⟨s₀, hb, hx⟩ := ih (c :: rest) (.inr (.inl hc))
    refine ⟨[s₀], by simp only [Statement.bareAll, hb], ?_⟩
    have hc' : c.kind ≠ .semicolon := by
      rw [hc]
      decide
    rw [optionalSemicolon_of_ne hc'] at hx
    exact block_of_statement hw hx (.closeBlock (.inl hc))
  | @statements s ts m ss us hw hm hws ih ihs =>
    intro c rest hc
    obtain ⟨s₀, hb, hx⟩ := ih (m :: (us ++ c :: rest)) (.inl hm)
    obtain ⟨ss₀, hbs, hxs⟩ := ihs c rest hc
    refine ⟨s₀ :: ss₀, by simp only [Statement.bareAll, hb, hbs], ?_⟩
    rw [optionalSemicolon_of_eq hm] at hx
    rw [List.append_assoc, List.cons_append]
    exact block_of_statement hw hx hxs

/-! ### Whole expressions and whole programs -/

/-- Whatever its parentheses and its `;`, a writing of an expression is read as
    that expression, without a failure and exactly to its end, where no token
    follows that extends an expression and no `else`. -/
theorem expression_of_writing {l : Precedence} {e : Expr} {ts rest : List Token}
    (h : Writes (.expression l e) ts) (hl : Precedence.of (kindAt rest) = .lowest)
    (hn : kindAt rest ≠ .elseWord) :
    ∃ e₀ hr, expression .lowest (ts ++ rest) = .ok (e₀, ⟨rest, hr⟩) ∧ e₀.bare = e.bare := by
  obtain ⟨e₀, hb, hx⟩ := (reads_of_writes h).whole h ⟨hl, hn⟩
  obtain ⟨hr, he⟩ := holds_of_derives hx
  exact ⟨e₀, hr, he, hb⟩

/-- A name that was read nowhere. -/
def nameOf (s : String) : Expr :=
  .identifier ⟨default, s⟩

/-- `-b[0]` -/
def negatedEntry : Expr :=
  .prefixOp default .minus (.index default (nameOf "b") (.integer default 0))

/-- `a + -b[0] * c - d` -/
def difference : Expr :=
  .infixOp default
    (.infixOp default (nameOf "a") .plus (.infixOp default negatedEntry .star (nameOf "c")))
    .minus (nameOf "d")

/-- `a + -b[0] * c - d < e == f`, which has an operator of every level. -/
def everyLevel : Expr :=
  .infixOp default (.infixOp default difference .less (nameOf "e")) .equal (nameOf "f")

/-- The tokens of that text. -/
def everyLevelTokens : List Token :=
  [⟨.identifier, "a", 1⟩, ⟨.plus, "+", 1⟩, ⟨.minus, "-", 1⟩, ⟨.identifier, "b", 1⟩,
    ⟨.leftBracket, "[", 1⟩, ⟨.integer, "0", 1⟩, ⟨.rightBracket, "]", 1⟩, ⟨.star, "*", 1⟩,
    ⟨.identifier, "c", 1⟩, ⟨.minus, "-", 1⟩, ⟨.identifier, "d", 1⟩, ⟨.less, "<", 1⟩,
    ⟨.identifier, "e", 1⟩, ⟨.equalEqual, "==", 1⟩, ⟨.identifier, "f", 1⟩]

theorem writes_nameOf (s : String) : Writes (.expression .call (nameOf s)) [⟨.identifier, s, 1⟩] :=
  .identifier rfl rfl

theorem writes_negatedEntry :
    Writes (.expression .prefixOp negatedEntry) ((everyLevelTokens.drop 2).take 5) := by
  have zero : Writes (.expression .call (.integer default 0)) [⟨.integer, "0", 1⟩] :=
    .integer rfl (by decide)
  have entry : Writes (.expression .call (.index default (nameOf "b") (.integer default 0)))
      ([_] ++ ⟨.leftBracket, "[", 1⟩ :: [_] ++ [⟨.rightBracket, "]", 1⟩]) :=
    .index (by decide) (writes_nameOf "b") rfl zero rfl
  exact .prefixOp rfl (by decide) entry

theorem writes_difference : Writes (.expression .sum difference) (everyLevelTokens.take 11) := by
  have product : Writes (.expression .product _) (_ ++ ⟨.star, "*", 1⟩ :: [_]) :=
    .infixOp (k := default) .star (by decide) (by decide) writes_negatedEntry (writes_nameOf "c")
  have sum : Writes (.expression .sum _) ([_] ++ ⟨.plus, "+", 1⟩ :: _) :=
    .infixOp (k := default) .plus (by decide) (by decide) (writes_nameOf "a") product
  have hm : Binds (⟨.minus, "-", 1⟩ : Token).kind .minus .sum := .minus
  exact .infixOp hm (by decide) (by decide) sum (writes_nameOf "d")

theorem writes_everyLevel : Writes (.expression .equals everyLevel) everyLevelTokens := by
  have comparison : Writes (.expression .lessGreater _) (_ ++ ⟨.less, "<", 1⟩ :: [_]) :=
    .infixOp (k := default) .less (by decide) (by decide) writes_difference (writes_nameOf "e")
  have he : Binds (⟨.equalEqual, "==", 1⟩ : Token).kind .equal .equals := .equal
  exact .infixOp he (by decide) (by decide) comparison (writes_nameOf "f")

/-- In front of a `;` that text, which has no parentheses, is read as that tree. -/
theorem expression_of_everyLevel :
    ∃ e₀ hr, expression .lowest (everyLevelTokens ++ [⟨.semicolon, ";", 1⟩]) =
      .ok (e₀, ⟨[⟨.semicolon, ";", 1⟩], hr⟩) ∧ e₀.bare = everyLevel.bare :=
  expression_of_writing writes_everyLevel rfl (by decide)

theorem rounds_of_statement {s s₀ : Statement} {ts rest ts₁ : List Token}
    (h : Writes (.statement s) ts) (hs : Derives (.statement (ts ++ rest) s₀ ts₁)) :
    rounds (ts ++ rest) = .ok s₀ :: rounds ts₁ := by
  obtain ⟨t, us, rfl, ht⟩ := starts_of_writes h
  obtain ⟨hr, he⟩ := holds_of_derives hs
  exact rounds_of_ok ht.ne_closing.2 he

/-- The statements of a program are read one by one. -/
theorem rounds_of_writing {ss : List Statement} {ts : List Token}
    (h : Writes (.statements ss) ts) :
    ∃ ss₀, rounds ts = ss₀.map .ok ∧ Statement.bareAll ss₀ = Statement.bareAll ss := by
  generalize hx : Item.statements ss = x at h
  induction h generalizing ss with
  | noStatements =>
    cases hx
    refine ⟨[], ?_, rfl⟩
    rw [rounds]
    rfl
  | @lastStatement s ts hw ih =>
    cases hx
    obtain ⟨s₀, hb, hd⟩ := reads_of_writes hw [] (.inr (.inr rfl))
    refine ⟨[s₀], ?_, by simp only [Statement.bareAll, hb]⟩
    have he := rounds_of_statement hw hd
    rw [List.append_nil] at he
    rw [he, optionalSemicolon, rounds]
    rfl
  | @statements s ts m ss us hw hm hws ih ihs =>
    cases hx
    obtain ⟨s₀, hb, hd⟩ := reads_of_writes hw (m :: us) (.inl hm)
    obtain ⟨ss₀, he, hbs⟩ := ihs rfl
    refine ⟨s₀ :: ss₀, ?_, by simp only [Statement.bareAll, hb, hbs]⟩
    rw [rounds_of_statement hw hd, optionalSemicolon_of_eq hm, he]
    rfl
  | _ => cases hx

end Rule

end Monkey
