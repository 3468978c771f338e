import Monkey.Syntax.Rule.Progress

/-!
  Monkey/Proofs/Syntax/Grammar.lean
  =================================
  **What the rules read, as derivations.**

  A judgement says that a rule, given some tokens, reads a construct and leaves the
  rest.  `Derives` has one constructor for each way in which a rule succeeds, with
  the tokens in plain sight.  A rule hands back a construct and a rest exactly if
  the judgement is derivable (`derives_iff`), so that facts about what is read are
  inductions on derivations, and nothing else unfolds the rules.
-/
namespace Monkey.Rule

open Text

/-! ### Results of rules -/

/-- The rule reads `a` and leaves `rest`. -/
def Yields {P : List Token → Prop} (x : Except Failure (α × { rest // P rest })) (a : α)
    (rest : List Token) : Prop :=
  ∃ h, x = .ok (a, ⟨rest, h⟩)

namespace Yields

variable {P Q : List Token → Prop}

theorem ok {a : α} {rest : List Token} {h : P rest} : Yields (.ok (a, ⟨rest, h⟩)) a rest :=
  ⟨h, rfl⟩

theorem bind {x : Except Failure (α × { rest // P rest })}
    {f : α × { rest // P rest } → Except Failure (β × { rest // Q rest })} {a : α} {b : β}
    {ts rest : List Token} (hx : Yields x a ts) (hf : ∀ h, Yields (f (a, ⟨ts, h⟩)) b rest) :
    Yields (x >>= f) b rest := by
  obtain ⟨h, rfl⟩ := hx
  exact hf h

theorem of_ok {a b : α} {ts rest : List Token} {h : P ts}
    (hx : Yields (.ok (a, ⟨ts, h⟩)) b rest) : a = b ∧ ts = rest := by
  obtain ⟨h, e⟩ := hx
  cases e
  exact ⟨rfl, rfl⟩

theorem not_error {f : Failure} {a : α} {rest : List Token} :
    ¬ Yields (P := P) (.error f) a rest := by
  rintro ⟨h, e⟩
  cases e

theorem of_bind {x : Except Failure (α × { rest // P rest })}
    {f : α × { rest // P rest } → Except Failure (β × { rest // Q rest })} {b : β}
    {rest : List Token} (hx : Yields (x >>= f) b rest) :
    ∃ a ts h, Yields x a ts ∧ Yields (f (a, ⟨ts, h⟩)) b rest := by
  obtain ⟨hq, e⟩ := hx
  cases x with
  | error f' => cases e
  | ok p =>
    obtain ⟨a, ts, h⟩ := p
    exact ⟨a, ts, h, ⟨h, rfl⟩, hq, e⟩

end Yields

theorem yields_expect {wanted : Token.Kind} {t : Token} {rest : List Token}
    (h : t.kind = wanted) : Yields (expect wanted (t :: rest)) t rest := by
  rw [expect, if_pos h]
  exact .ok

theorem of_expect_bind {Q : List Token → Prop} {wanted : Token.Kind} {ts rest : List Token}
    {f : Token × Shorter ts → Except Failure (β × { rest // Q rest })} {b : β}
    (hx : Yields (expect wanted ts >>= f) b rest) :
    ∃ t ts₁ h, ts = t :: ts₁ ∧ t.kind = wanted ∧ Yields (f (t, ⟨ts₁, h⟩)) b rest := by
  obtain ⟨t, ts₁, h, he, hf⟩ := hx.of_bind
  refine ⟨t, ts₁, h, ?_, ?_, hf⟩
  all_goals
    unfold expect at he
    split at he
    · exact absurd he Yields.not_error
    split at he
    · obtain ⟨rfl, rfl⟩ := he.of_ok
      first | rfl | assumption
    · exact absurd he Yields.not_error

theorem optionalSemicolon_of_eq {t : Token} {ts : List Token} (h : t.kind = .semicolon) :
    (optionalSemicolon (t :: ts)).1 = ts := by
  rw [optionalSemicolon, if_pos h]

theorem optionalSemicolon_of_ne {t : Token} {ts : List Token} (h : t.kind ≠ .semicolon) :
    (optionalSemicolon (t :: ts)).1 = t :: ts := by
  rw [optionalSemicolon, if_neg h]

/-! ### Levels -/

theorem not_lt_lowest (level : Precedence) : ¬ level < .lowest :=
  Nat.not_lt_zero _

/-! ### Derivations -/

/-- What a rule reads from which tokens, and what it leaves. -/
inductive Judgement where
  | expression (level : Precedence) (ts : List Token) (e : Expr) (rest : List Token)
  | extension (level : Precedence) (left : Expr) (ts : List Token) (e : Expr) (rest : List Token)
  | operand (ts : List Token) (e : Expr) (rest : List Token)
  | items (closing : Token.Kind) (ts : List Token) (es : List Expr) (rest : List Token)
  | moreItems (closing : Token.Kind) (ts : List Token) (es : List Expr) (rest : List Token)
  | pairs (ts : List Token) (ps : List (Expr × Expr)) (rest : List Token)
  | block (ts : List Token) (ss : List Statement) (rest : List Token)
  | statement (ts : List Token) (s : Statement) (rest : List Token)

/-- A kind at which a `return` has no value. -/
def EndsReturn (k : Token.Kind) : Prop :=
  k = .semicolon ∨ k = .rightBrace ∨ k = .endOfInput

/-- The derivable judgements. -/
inductive Derives : Judgement → Prop where
  | expression {level ts left ts₁ e ts₂} (ho : Derives (.operand ts left ts₁))
      (he : Derives (.extension level left ts₁ e ts₂)) : Derives (.expression level ts e ts₂)
  -- extensions
  | stop {level left ts} (h : ¬ level < .of (kindAt ts)) :
      Derives (.extension level left ts left ts)
  | infixOp {level left t op ts right ts₁ e ts₂} (ht : InfixOperator.ofKind? t.kind = some op)
      (hl : level < .of t.kind) (hr : Derives (.expression (.of t.kind) ts right ts₁))
      (he : Derives (.extension level (.infixOp t left op right) ts₁ e ts₂)) :
      Derives (.extension level left (t :: ts) e ts₂)
  | call {level left t ts arguments ts₁ e ts₂} (ht : t.kind = .leftParen) (hl : level < .call)
      (hi : Derives (.items .rightParen ts arguments ts₁))
      (he : Derives (.extension level (.call t left arguments) ts₁ e ts₂)) :
      Derives (.extension level left (t :: ts) e ts₂)
  | index {level left t ts i c ts₁ e ts₂} (ht : t.kind = .leftBracket) (hl : level < .call)
      (hi : Derives (.expression .lowest ts i (c :: ts₁))) (hc : c.kind = .rightBracket)
      (he : Derives (.extension level (.index t left i) ts₁ e ts₂)) :
      Derives (.extension level left (t :: ts) e ts₂)
  -- operands
  | identifier {t ts} (ht : t.kind = .identifier) :
      Derives (.operand (t :: ts) (.identifier (.ofToken t)) ts)
  | integer {t ts value} (ht : t.kind = .integer) (hv : Decimal.int64? t.literal = some value) :
      Derives (.operand (t :: ts) (.integer t value) ts)
  | string {t ts} (ht : t.kind = .string) : Derives (.operand (t :: ts) (.string t t.literal) ts)
  | true {t ts} (ht : t.kind = .trueWord) : Derives (.operand (t :: ts) (.boolean t true) ts)
  | false {t ts} (ht : t.kind = .falseWord) : Derives (.operand (t :: ts) (.boolean t false) ts)
  | bang {t ts right ts₁} (ht : t.kind = .bang)
      (hr : Derives (.expression .prefixOp ts right ts₁)) :
      Derives (.operand (t :: ts) (.prefixOp t .bang right) ts₁)
  | minus {t ts right ts₁} (ht : t.kind = .minus)
      (hr : Derives (.expression .prefixOp ts right ts₁)) :
      Derives (.operand (t :: ts) (.prefixOp t .minus right) ts₁)
  | group {t ts e c ts₁} (ht : t.kind = .leftParen)
      (he : Derives (.expression .lowest ts e (c :: ts₁))) (hc : c.kind = .rightParen) :
      Derives (.operand (t :: ts) e ts₁)
  | array {t ts elements ts₁} (ht : t.kind = .leftBracket)
      (hi : Derives (.items .rightBracket ts elements ts₁)) :
      Derives (.operand (t :: ts) (.array t elements) ts₁)
  | hash {t ts ps ts₁} (ht : t.kind = .leftBrace) (hp : Derives (.pairs ts ps ts₁)) :
      Derives (.operand (t :: ts) (.hash t ps) ts₁)
  | ifThen {t o ts condition c b ts₁ ss ts₂} (ht : t.kind = .ifWord) (ho : o.kind = .leftParen)
      (he : Derives (.expression .lowest ts condition (c :: b :: ts₁))) (hc : c.kind = .rightParen)
      (hb : b.kind = .leftBrace) (hs : Derives (.block ts₁ ss ts₂))
      (hn : kindAt ts₂ ≠ .elseWord) :
      Derives (.operand (t :: o :: ts) (.cond t condition ⟨b, ss⟩ none) ts₂)
  | ifElse {t o ts condition c b ts₁ ss w b' ts₂ ss' ts₃} (ht : t.kind = .ifWord)
      (ho : o.kind = .leftParen) (he : Derives (.expression .lowest ts condition (c :: b :: ts₁)))
      (hc : c.kind = .rightParen) (hb : b.kind = .leftBrace)
      (hs : Derives (.block ts₁ ss (w :: b' :: ts₂))) (hw : w.kind = .elseWord)
      (hb' : b'.kind = .leftBrace) (hs' : Derives (.block ts₂ ss' ts₃)) :
      Derives (.operand (t :: o :: ts) (.cond t condition ⟨b, ss⟩ (some ⟨b', ss'⟩)) ts₃)
  | function {t o ts names b ts₁ ss ts₂} (ht : t.kind = .fnWord) (ho : o.kind = .leftParen)
      (hn : Yields (parameters ts) names (b :: ts₁)) (hb : b.kind = .leftBrace)
      (hs : Derives (.block ts₁ ss ts₂)) :
      Derives (.operand (t :: o :: ts) (.function ⟨t, names, ⟨b, ss⟩, 0⟩) ts₂)
  -- items and pairs
  | noItems {closing c ts} (hc : c.kind = closing) : Derives (.items closing (c :: ts) [] ts)
  | items {closing ts e ts₁ es ts₂} (hn : kindAt ts ≠ closing)
      (he : Derives (.expression .lowest ts e ts₁)) (hm : Derives (.moreItems closing ts₁ es ts₂)) :
      Derives (.items closing ts (e :: es) ts₂)
  | noMoreItems {closing c ts} (hn : c.kind ≠ .comma) (hc : c.kind = closing) :
      Derives (.moreItems closing (c :: ts) [] ts)
  | moreItems {closing m ts e ts₁ es ts₂} (hm : m.kind = .comma)
      (he : Derives (.expression .lowest ts e ts₁)) (hi : Derives (.moreItems closing ts₁ es ts₂)) :
      Derives (.moreItems closing (m :: ts) (e :: es) ts₂)
  | noPairs {c ts} (hc : c.kind = .rightBrace) : Derives (.pairs (c :: ts) [] ts)
  | lastPair {ts key m ts₁ value c ts₂} (hn : kindAt ts ≠ .rightBrace)
      (hk : Derives (.expression .lowest ts key (m :: ts₁))) (hm : m.kind = .colon)
      (hv : Derives (.expression .lowest ts₁ value (c :: ts₂))) (hc : c.kind = .rightBrace) :
      Derives (.pairs ts [(key, value)] ts₂)
  | pairs {ts key m ts₁ value c ts₂ ps ts₃} (hn : kindAt ts ≠ .rightBrace)
      (hk : Derives (.expression .lowest ts key (m :: ts₁))) (hm : m.kind = .colon)
      (hv : Derives (.expression .lowest ts₁ value (c :: ts₂))) (hc : c.kind = .comma)
      (hp : Derives (.pairs ts₂ ps ts₃)) : Derives (.pairs ts ((key, value) :: ps) ts₃)
  -- blocks and statements
  | openBlock : Derives (.block [] [] [])
  | closeBlock {c ts} (hc : c.kind = .rightBrace ∨ c.kind = .endOfInput) :
      Derives (.block (c :: ts) [] ts)
  | block {t ts s ts₁ ss ts₂} (hn : ¬ (t.kind = .rightBrace ∨ t.kind = .endOfInput))
      (hs : Derives (.statement (t :: ts) s ts₁)) (hb : Derives (.block ts₁ ss ts₂)) :
      Derives (.block (t :: ts) (s :: ss) ts₂)
  | letBind {t i q ts value ts₁} (ht : t.kind = .letWord) (hi : i.kind = .identifier)
      (hq : q.kind = .equal) (he : Derives (.expression .lowest ts value ts₁)) :
      Derives (.statement (t :: i :: q :: ts) (.letBind t (.ofToken i) value)
        (optionalSemicolon ts₁).1)
  | returnNothing {t ts} (ht : t.kind = .returnWord) (hn : EndsReturn (kindAt ts)) :
      Derives (.statement (t :: ts) (.returnValue t none) (optionalSemicolon ts).1)
  | returnValue {t ts value ts₁} (ht : t.kind = .returnWord) (hn : ¬ EndsReturn (kindAt ts))
      (he : Derives (.expression .lowest ts value ts₁)) :
      Derives (.statement (t :: ts) (.returnValue t (some value)) (optionalSemicolon ts₁).1)
  | expressionStatement {t ts e ts₁} (hl : t.kind ≠ .letWord) (hr : t.kind ≠ .returnWord)
      (he : Derives (.expression .lowest (t :: ts) e ts₁)) :
      Derives (.statement (t :: ts) (.expression t e) (optionalSemicolon ts₁).1)

/-! ### The rules read what is derivable -/

/-- That a rule reads what a judgement says. -/
def Judgement.Holds : Judgement → Prop
  | expression level ts e rest => Yields (Rule.expression level ts) e rest
  | extension level left ts e rest => Yields (extend level left ts) e rest
  | operand ts e rest => Yields (Rule.operand ts) e rest
  | items closing ts es rest => Yields (Rule.items closing ts) es rest
  | moreItems closing ts es rest => Yields (Rule.moreItems closing ts) es rest
  | pairs ts ps rest => Yields (Rule.pairs ts) ps rest
  | block ts ss rest => Yields (blockBody ts) ss rest
  | statement ts s rest => Yields (Rule.statement ts) s rest

theorem extension_of_operator {k : Token.Kind} {op : InfixOperator}
    (h : InfixOperator.ofKind? k = some op) : Extension.ofKind? k = some (.infixOp op) := by
  cases k <;> cases h <;> rfl

theorem operator_of_extension {k : Token.Kind} {op : InfixOperator}
    (h : Extension.ofKind? k = some (.infixOp op)) : InfixOperator.ofKind? k = some op := by
  cases k <;> cases h <;> rfl

theorem kind_of_call {k : Token.Kind} (h : Extension.ofKind? k = some .call) : k = .leftParen := by
  cases k <;> first | rfl | cases h

theorem kind_of_index {k : Token.Kind} (h : Extension.ofKind? k = some .index) :
    k = .leftBracket := by
  cases k <;> first | rfl | cases h

theorem not_lt_of_no_extension {k : Token.Kind} (h : Extension.ofKind? k = none)
    (level : Precedence) : ¬ level < .of k := by
  intro hl
  have hk : Precedence.lowest < .of k := Nat.lt_of_le_of_lt (Nat.zero_le level.rank) hl
  rw [Precedence.lowest_lt_of_iff, h] at hk
  exact Bool.noConfusion hk

/-- Whatever is derivable is read. -/
theorem holds_of_derives {j : Judgement} (h : Derives j) : j.Holds := by
  induction h with
  | expression _ _ iho ihe =>
    simp only [Judgement.Holds] at *
    rw [Rule.expression]
    exact .bind iho fun _ => .bind ihe fun _ => .ok
  | @stop level left ts h =>
    simp only [Judgement.Holds]
    rcases ts with _ | ⟨t, ts⟩
    · rw [extend]
      exact .ok
    · have h' : ¬ level < .of t.kind := h
      rw [extend, if_neg h']
      exact .ok
  | infixOp ht hl _ _ ihr ihe =>
    simp only [Judgement.Holds] at *
    rw [extend, if_pos hl]
    simp only [extension_of_operator ht]
    exact .bind ihr fun _ => .bind ihe fun _ => .ok
  | @call level _ _ _ _ _ _ _ ht hl _ _ ihi ihe =>
    have hl' : level < .of .leftParen := hl
    simp only [Judgement.Holds] at *
    rw [extend, ht, if_pos hl']
    exact .bind ihi fun _ => .bind ihe fun _ => .ok
  | @index level _ _ _ _ _ _ _ _ ht hl _ hc _ ihi ihe =>
    have hl' : level < .of .leftBracket := hl
    simp only [Judgement.Holds] at *
    rw [extend, ht, if_pos hl']
    exact .bind ihi fun _ => .bind (yields_expect hc) fun _ => .bind ihe fun _ => .ok
  | identifier ht =>
    simp only [Judgement.Holds]
    rw [Rule.operand, ht]
    exact .ok
  | integer ht hv =>
    simp only [Judgement.Holds]
    rw [Rule.operand, ht]
    simp only [hv]
    exact .ok
  | string ht | true ht | false ht =>
    simp only [Judgement.Holds]
    rw [Rule.operand, ht]
    exact .ok
  | bang ht _ ihr | minus ht _ ihr =>
    simp only [Judgement.Holds] at *
    rw [Rule.operand, ht]
    exact .bind ihr fun _ => .ok
  | group ht _ hc ihe =>
    simp only [Judgement.Holds] at *
    rw [Rule.operand, ht]
    exact .bind ihe fun _ => .bind (yields_expect hc) fun _ => .ok
  | array ht _ ihi | hash ht _ ihi =>
    simp only [Judgement.Holds] at *
    rw [Rule.operand, ht]
    exact .bind ihi fun _ => .ok
  | ifThen ht ho _ hc hb _ hn ihe ihs =>
    simp only [Judgement.Holds] at *
    rw [Rule.operand, ht]
    refine .bind ?_ fun _ => .ok
    rw [conditional]
    refine .bind (yields_expect ho) fun _ => .bind ihe fun _ => .bind (yields_expect hc) fun _ => ?_
    refine .bind (yields_expect hb) fun _ => .bind ihs fun _ => ?_
    dsimp only
    rw [if_neg hn]
    exact .ok
  | @ifElse _ _ _ _ _ _ _ _ w b' ts₂ _ _ ht ho _ hc hb _ hw hb' _ ihe ihs ihs' =>
    have hw' : kindAt (w :: b' :: ts₂) = .elseWord := hw
    simp only [Judgement.Holds] at *
    rw [Rule.operand, ht]
    refine .bind ?_ fun _ => .ok
    rw [conditional]
    refine .bind (yields_expect ho) fun _ => .bind ihe fun _ => .bind (yields_expect hc) fun _ => ?_
    refine .bind (yields_expect hb) fun _ => .bind ihs fun _ => ?_
    dsimp only
    rw [if_pos hw']
    refine .bind (yields_expect hw) fun _ => .bind (yields_expect hb') fun _ => ?_
    exact .bind ihs' fun _ => .ok
  | function ht ho hn hb _ ihs =>
    simp only [Judgement.Holds] at *
    rw [Rule.operand, ht]
    refine .bind (yields_expect ho) fun _ => .bind hn fun _ => ?_
    exact .bind (yields_expect hb) fun _ => .bind ihs fun _ => .ok
  | @noItems closing c ts hc =>
    have hc' : kindAt (c :: ts) = closing := hc
    simp only [Judgement.Holds]
    rw [Rule.items, if_pos hc']
    exact .bind (yields_expect hc) fun _ => .ok
  | items hn _ _ ihe ihm =>
    simp only [Judgement.Holds] at *
    rw [Rule.items, if_neg hn]
    exact .bind ihe fun _ => .bind ihm fun _ => .ok
  | noMoreItems hn hc =>
    simp only [Judgement.Holds]
    rw [Rule.moreItems, if_neg hn]
    exact .bind (yields_expect hc) fun _ => .ok
  | moreItems hm _ _ ihe ihi =>
    simp only [Judgement.Holds] at *
    rw [Rule.moreItems, if_pos hm]
    exact .bind ihe fun _ => .bind ihi fun _ => .ok
  | @noPairs c ts hc =>
    have hc' : kindAt (c :: ts) = .rightBrace := hc
    simp only [Judgement.Holds]
    rw [Rule.pairs, if_pos hc']
    exact .bind (yields_expect hc) fun _ => .ok
  | @lastPair _ _ _ _ _ c ts₂ hn _ hm _ hc ihk ihv =>
    have hc' : kindAt (c :: ts₂) = .rightBrace := hc
    simp only [Judgement.Holds] at *
    rw [Rule.pairs, if_neg hn]
    refine .bind ihk fun _ => .bind (yields_expect hm) fun _ => .bind ihv fun _ => ?_
    dsimp only
    rw [if_pos hc']
    exact .bind (yields_expect hc) fun _ => .ok
  | @pairs _ _ _ _ _ c ts₂ _ _ hn _ hm _ hc _ ihk ihv ihp =>
    have hb : ¬ kindAt (c :: ts₂) = .rightBrace := by
      simp only [kindAt, hc]
      decide
    simp only [Judgement.Holds] at *
    rw [Rule.pairs, if_neg hn]
    refine .bind ihk fun _ => .bind (yields_expect hm) fun _ => .bind ihv fun _ => ?_
    dsimp only
    rw [if_neg hb]
    exact .bind (yields_expect hc) fun _ => .bind ihp fun _ => .ok
  | openBlock =>
    simp only [Judgement.Holds]
    rw [blockBody]
    exact .ok
  | closeBlock hc =>
    simp only [Judgement.Holds]
    rw [blockBody, if_pos hc]
    exact .ok
  | block hn _ _ ihs ihb =>
    simp only [Judgement.Holds] at *
    rw [blockBody, if_neg hn]
    exact .bind ihs fun _ => .bind ihb fun _ => .ok
  | letBind ht hi hq _ ihe =>
    simp only [Judgement.Holds] at *
    rw [Rule.statement, ht]
    refine .bind (yields_expect hi) fun _ => .bind (yields_expect hq) fun _ => ?_
    exact .bind ihe fun _ => .ok
  | returnNothing ht hn =>
    unfold EndsReturn at hn
    simp only [Judgement.Holds]
    rw [Rule.statement, ht]
    simp only
    rw [if_pos hn]
    exact .ok
  | returnValue ht hn _ ihe =>
    unfold EndsReturn at hn
    simp only [Judgement.Holds] at *
    rw [Rule.statement, ht]
    simp only
    rw [if_neg hn]
    exact .bind ihe fun _ => .ok
  | @expressionStatement t _ _ _ hl hr _ ihe =>
    simp only [Judgement.Holds] at *
    rw [Rule.statement]
    split
    · rename_i h
      exact absurd h hl
    · rename_i h
      exact absurd h hr
    · exact .bind ihe fun _ => .ok

/-! ### What the rules read is derivable -/

/-- Whatever a rule reads is derivable.  A conditional is read without its first word, and
    its derivation has it back. -/
def derivable : Property where
  expression level ts := ∀ e rest, Yields (expression level ts) e rest →
    Derives (.expression level ts e rest)
  extend level left ts := ∀ e rest, Yields (extend level left ts) e rest →
    Derives (.extension level left ts e rest)
  operand ts := ∀ e rest, Yields (operand ts) e rest → Derives (.operand ts e rest)
  conditional t ts := ∀ e rest, t.kind = .ifWord → Yields (conditional t ts) e rest →
    Derives (.operand (t :: ts) e rest)
  items closing ts := ∀ es rest, Yields (items closing ts) es rest →
    Derives (.items closing ts es rest)
  moreItems closing ts := ∀ es rest, Yields (moreItems closing ts) es rest →
    Derives (.moreItems closing ts es rest)
  pairs ts := ∀ ps rest, Yields (pairs ts) ps rest → Derives (.pairs ts ps rest)
  blockBody ts := ∀ ss rest, Yields (blockBody ts) ss rest → Derives (.block ts ss rest)
  statement ts := ∀ s rest, Yields (statement ts) s rest → Derives (.statement ts s rest)

section

variable {ts : List Token} (below : derivable.Below ts)

include below

theorem derives_operand_of_below (e : Expr) (rest : List Token) (h : Yields (operand ts) e rest) :
    Derives (.operand ts e rest) := by
  cases ts with
  | nil =>
    rw [operand] at h
    exact absurd h Yields.not_error
  | cons t ts =>
    have on := below.tail
    rw [operand] at h
    cases hk : t.kind with
    | identifier =>
      simp only [hk] at h
      obtain ⟨rfl, rfl⟩ := h.of_ok
      exact .identifier hk
    | integer =>
      simp only [hk] at h
      split at h
      · obtain ⟨rfl, rfl⟩ := h.of_ok
        exact .integer hk ‹_›
      · exact absurd h Yields.not_error
    | string =>
      simp only [hk] at h
      obtain ⟨rfl, rfl⟩ := h.of_ok
      exact .string hk
    | trueWord =>
      simp only [hk] at h
      obtain ⟨rfl, rfl⟩ := h.of_ok
      exact .true hk
    | falseWord =>
      simp only [hk] at h
      obtain ⟨rfl, rfl⟩ := h.of_ok
      exact .false hk
    | bang =>
      simp only [hk] at h
      obtain ⟨right, ts₁, h₁, hr, h⟩ := h.of_bind
      obtain ⟨rfl, rfl⟩ := h.of_ok
      exact .bang hk (on.expression _ _ _ hr)
    | minus =>
      simp only [hk] at h
      obtain ⟨right, ts₁, h₁, hr, h⟩ := h.of_bind
      obtain ⟨rfl, rfl⟩ := h.of_ok
      exact .minus hk (on.expression _ _ _ hr)
    | leftParen =>
      simp only [hk] at h
      obtain ⟨e', ts₁, h₁, he, h⟩ := h.of_bind
      obtain ⟨c, ts₂, h₂, rfl, hc, h⟩ := of_expect_bind h
      obtain ⟨rfl, rfl⟩ := h.of_ok
      exact .group hk (on.expression _ _ _ he) hc
    | leftBracket =>
      simp only [hk] at h
      obtain ⟨elements, ts₁, h₁, hi, h⟩ := h.of_bind
      obtain ⟨rfl, rfl⟩ := h.of_ok
      exact .array hk (on.items _ _ _ hi)
    | leftBrace =>
      simp only [hk] at h
      obtain ⟨ps, ts₁, h₁, hp, h⟩ := h.of_bind
      obtain ⟨rfl, rfl⟩ := h.of_ok
      exact .hash hk (on.pairs _ _ hp)
    | ifWord =>
      simp only [hk] at h
      obtain ⟨e', ts₁, h₁, he, h⟩ := h.of_bind
      obtain ⟨rfl, rfl⟩ := h.of_ok
      exact on.conditional t _ _ hk he
    | fnWord =>
      simp only [hk] at h
      obtain ⟨o, ts₁, h₁, rfl, ho, h⟩ := of_expect_bind h
      obtain ⟨names, ts₂, h₂, hn, h⟩ := h.of_bind
      obtain ⟨b, ts₃, h₃, rfl, hb, h⟩ := of_expect_bind h
      obtain ⟨ss, ts₄, h₄, hs, h⟩ := h.of_bind
      obtain ⟨rfl, rfl⟩ := h.of_ok
      exact .function hk ho hn hb ((below ts₃ (by grind)).blockBody _ _ hs)
    | _ =>
      simp only [hk] at h
      exact absurd h Yields.not_error

theorem derives_expression_of_below (ho : derivable.operand ts) (level : Precedence) (e : Expr)
    (rest : List Token) (h : Yields (expression level ts) e rest) :
    Derives (.expression level ts e rest) := by
  rw [expression] at h
  obtain ⟨left, ts₁, h₁, hl, h⟩ := h.of_bind
  obtain ⟨e', ts₂, h₂, he, h⟩ := h.of_bind
  obtain ⟨rfl, rfl⟩ := h.of_ok
  exact .expression (ho _ _ hl) ((below ts₁ h₁).extend level left _ _ he)

theorem derives_extend_of_below (level : Precedence) (left e : Expr) (rest : List Token)
    (h : Yields (extend level left ts) e rest) : Derives (.extension level left ts e rest) := by
  cases ts with
  | nil =>
    rw [extend] at h
    obtain ⟨rfl, rfl⟩ := h.of_ok
    exact .stop (not_lt_lowest level)
  | cons t ts =>
    have on := below.tail
    rw [extend] at h
    by_cases hl : level < .of t.kind
    · rw [if_pos hl] at h
      cases hx : Extension.ofKind? t.kind with
      | none =>
        simp only [hx] at h
        obtain ⟨rfl, rfl⟩ := h.of_ok
        exact .stop (not_lt_of_no_extension hx level)
      | some x =>
        cases x with
        | infixOp op =>
          simp only [hx] at h
          obtain ⟨right, ts₁, h₁, hr, h⟩ := h.of_bind
          obtain ⟨e', ts₂, h₂, he, h⟩ := h.of_bind
          obtain ⟨rfl, rfl⟩ := h.of_ok
          have more := (below ts₁ (by grind)).extend level _ _ _ he
          exact .infixOp (operator_of_extension hx) hl (on.expression _ _ _ hr) more
        | call =>
          simp only [hx] at h
          obtain ⟨arguments, ts₁, h₁, hi, h⟩ := h.of_bind
          obtain ⟨e', ts₂, h₂, he, h⟩ := h.of_bind
          obtain ⟨rfl, rfl⟩ := h.of_ok
          have ht := kind_of_call hx
          have hl' : level < .of .leftParen := ht ▸ hl
          have more := (below ts₁ (by grind)).extend level _ _ _ he
          exact .call ht hl' (on.items _ _ _ hi) more
        | index =>
          simp only [hx] at h
          obtain ⟨i, ts₁, h₁, hi, h⟩ := h.of_bind
          obtain ⟨c, ts₂, h₂, rfl, hc, h⟩ := of_expect_bind h
          obtain ⟨e', ts₃, h₃, he, h⟩ := h.of_bind
          obtain ⟨rfl, rfl⟩ := h.of_ok
          have ht := kind_of_index hx
          have hl' : level < .of .leftBracket := ht ▸ hl
          have more := (below ts₂ (by grind)).extend level _ _ _ he
          exact .index ht hl' (on.expression _ _ _ hi) hc more
    · rw [if_neg hl] at h
      obtain ⟨rfl, rfl⟩ := h.of_ok
      exact .stop hl

theorem derives_conditional_of_below (t : Token) (e : Expr) (rest : List Token)
    (ht : t.kind = .ifWord) (h : Yields (conditional t ts) e rest) :
    Derives (.operand (t :: ts) e rest) := by
  rw [conditional] at h
  obtain ⟨o, ts₁, h₁, rfl, ho, h⟩ := of_expect_bind h
  obtain ⟨condition, ts₂, h₂, he, h⟩ := h.of_bind
  obtain ⟨c, ts₃, h₃, rfl, hc, h⟩ := of_expect_bind h
  obtain ⟨b, ts₄, h₄, rfl, hb, h⟩ := of_expect_bind h
  obtain ⟨ss, ts₅, h₅, hs, h⟩ := h.of_bind
  replace he := below.tail.expression .lowest _ _ he
  replace hs := (below ts₄ (by grind)).blockBody _ _ hs
  dsimp only at h
  split at h
  · obtain ⟨w, ts₆, h₆, rfl, hw, h⟩ := of_expect_bind h
    obtain ⟨b', ts₇, h₇, rfl, hb', h⟩ := of_expect_bind h
    obtain ⟨ss', ts₈, h₈, hs', h⟩ := h.of_bind
    obtain ⟨rfl, rfl⟩ := h.of_ok
    replace hs' := (below ts₇ (by grind)).blockBody _ _ hs'
    exact .ifElse ht ho he hc hb hs hw hb' hs'
  · rename_i hn
    obtain ⟨rfl, rfl⟩ := h.of_ok
    exact .ifThen ht ho he hc hb hs hn

theorem derives_items_of_below (hx : ∀ level, derivable.expression level ts)
    (closing : Token.Kind) (es : List Expr) (rest : List Token)
    (h : Yields (items closing ts) es rest) : Derives (.items closing ts es rest) := by
  rw [items] at h
  split at h
  · obtain ⟨c, ts₁, h₁, rfl, hc, h⟩ := of_expect_bind h
    obtain ⟨rfl, rfl⟩ := h.of_ok
    exact .noItems hc
  · rename_i hn
    obtain ⟨e, ts₁, h₁, he, h⟩ := h.of_bind
    obtain ⟨es', ts₂, h₂, hm, h⟩ := h.of_bind
    obtain ⟨rfl, rfl⟩ := h.of_ok
    exact .items hn (hx _ _ _ he) ((below ts₁ h₁).moreItems closing _ _ hm)

theorem derives_moreItems_of_below (closing : Token.Kind) (es : List Expr) (rest : List Token)
    (h : Yields (moreItems closing ts) es rest) : Derives (.moreItems closing ts es rest) := by
  cases ts with
  | nil =>
    rw [moreItems] at h
    exact absurd h Yields.not_error
  | cons t ts =>
    rw [moreItems] at h
    split at h
    · rename_i hm
      obtain ⟨e, ts₁, h₁, he, h⟩ := h.of_bind
      obtain ⟨es', ts₂, h₂, hi, h⟩ := h.of_bind
      obtain ⟨rfl, rfl⟩ := h.of_ok
      have more := (below ts₁ (by grind)).moreItems closing _ _ hi
      exact .moreItems hm (below.tail.expression _ _ _ he) more
    · rename_i hn
      obtain ⟨c, ts₁, h₁, he, hc, h⟩ := of_expect_bind h
      obtain ⟨rfl, rfl⟩ := h.of_ok
      cases he
      exact .noMoreItems hn hc

theorem derives_pairs_of_below (hx : ∀ level, derivable.expression level ts)
    (ps : List (Expr × Expr)) (rest : List Token) (h : Yields (pairs ts) ps rest) :
    Derives (.pairs ts ps rest) := by
  rw [pairs] at h
  split at h
  · obtain ⟨c, ts₁, h₁, rfl, hc, h⟩ := of_expect_bind h
    obtain ⟨rfl, rfl⟩ := h.of_ok
    exact .noPairs hc
  · rename_i hn
    obtain ⟨key, ts₁, h₁, hk, h⟩ := h.of_bind
    obtain ⟨m, ts₂, h₂, rfl, hm, h⟩ := of_expect_bind h
    obtain ⟨value, ts₃, h₃, hv, h⟩ := h.of_bind
    replace hk := hx _ _ _ hk
    replace hv := (below ts₂ (by grind)).expression .lowest _ _ hv
    dsimp only at h
    split at h
    · obtain ⟨c, ts₄, h₄, rfl, hc, h⟩ := of_expect_bind h
      obtain ⟨rfl, rfl⟩ := h.of_ok
      exact .lastPair hn hk hm hv hc
    · obtain ⟨c, ts₄, h₄, rfl, hc, h⟩ := of_expect_bind h
      obtain ⟨ps', ts₅, h₅, hp, h⟩ := h.of_bind
      obtain ⟨rfl, rfl⟩ := h.of_ok
      exact .pairs hn hk hm hv hc ((below ts₄ (by grind)).pairs _ _ hp)

theorem derives_statement_of_below (hx : ∀ level, derivable.expression level ts)
    (s : Statement) (rest : List Token) (h : Yields (statement ts) s rest) :
    Derives (.statement ts s rest) := by
  cases ts with
  | nil =>
    rw [statement] at h
    exact absurd h Yields.not_error
  | cons t ts =>
    rw [statement] at h
    split at h
    · rename_i ht
      obtain ⟨i, ts₁, h₁, rfl, hi, h⟩ := of_expect_bind h
      obtain ⟨q, ts₂, h₂, rfl, hq, h⟩ := of_expect_bind h
      obtain ⟨value, ts₃, h₃, he, h⟩ := h.of_bind
      obtain ⟨rfl, rfl⟩ := h.of_ok
      exact .letBind ht hi hq ((below ts₂ (by grind)).expression _ _ _ he)
    · rename_i ht
      split at h
      · obtain ⟨rfl, rfl⟩ := h.of_ok
        exact .returnNothing ht ‹_›
      · obtain ⟨value, ts₁, h₁, he, h⟩ := h.of_bind
        obtain ⟨rfl, rfl⟩ := h.of_ok
        exact .returnValue ht ‹_› (below.tail.expression _ _ _ he)
    · rename_i hl hr
      obtain ⟨e, ts₁, h₁, he, h⟩ := h.of_bind
      obtain ⟨rfl, rfl⟩ := h.of_ok
      exact .expressionStatement hl hr (hx _ _ _ he)

theorem derives_blockBody_of_below (hs : derivable.statement ts) (ss : List Statement)
    (rest : List Token) (h : Yields (blockBody ts) ss rest) : Derives (.block ts ss rest) := by
  cases ts with
  | nil =>
    rw [blockBody] at h
    obtain ⟨rfl, rfl⟩ := h.of_ok
    exact .openBlock
  | cons t ts =>
    rw [blockBody] at h
    split at h
    · obtain ⟨rfl, rfl⟩ := h.of_ok
      exact .closeBlock ‹_›
    · rename_i hn
      obtain ⟨s, ts₁, h₁, hs', h⟩ := h.of_bind
      obtain ⟨ss', ts₂, h₂, hb, h⟩ := h.of_bind
      obtain ⟨rfl, rfl⟩ := h.of_ok
      exact .block hn (hs _ _ hs') ((below ts₁ h₁).blockBody _ _ hb)

end

theorem hereditary_derivable : derivable.Hereditary where
  operand := derives_operand_of_below
  expression := derives_expression_of_below
  extend := derives_extend_of_below
  conditional := derives_conditional_of_below
  items := derives_items_of_below
  moreItems := derives_moreItems_of_below
  pairs := derives_pairs_of_below
  statement := derives_statement_of_below
  blockBody := derives_blockBody_of_below

theorem derivable_rules (ts : List Token) : derivable.On ts :=
  hereditary_derivable.everywhere ts

/-- The derivations are those of what the rules read. -/
theorem derives_iff {j : Judgement} : Derives j ↔ j.Holds := by
  constructor
  · exact holds_of_derives
  · intro h
    cases j with
    | expression level ts e rest => exact (derivable_rules ts).expression level e rest h
    | extension level left ts e rest => exact (derivable_rules ts).extend level left e rest h
    | operand ts e rest => exact (derivable_rules ts).operand e rest h
    | items closing ts es rest => exact (derivable_rules ts).items closing es rest h
    | moreItems closing ts es rest => exact (derivable_rules ts).moreItems closing es rest h
    | pairs ts ps rest => exact (derivable_rules ts).pairs ps rest h
    | block ts ss rest => exact (derivable_rules ts).blockBody ss rest h
    | statement ts s rest => exact (derivable_rules ts).statement s rest h

/-! ### Which tokens are read -/

/-- The tokens that the rule of a judgement is given. -/
def Judgement.given : Judgement → List Token
  | expression _ ts _ _ | extension _ _ ts _ _ | operand ts _ _ | items _ ts _ _ => ts
  | moreItems _ ts _ _ | pairs ts _ _ | block ts _ _ | statement ts _ _ => ts

/-- The tokens that the rule of a judgement leaves. -/
def Judgement.rest : Judgement → List Token
  | expression _ _ _ rest | extension _ _ _ _ rest | operand _ _ rest | items _ _ _ rest => rest
  | moreItems _ _ _ rest | pairs _ _ rest | block _ _ rest | statement _ _ rest => rest

theorem Orderly.suffix {P : List Token → Prop} {x : Except Failure (α × { rest // P rest })}
    {n : Nat} {ts rest : List Token} {a : α} (h : Orderly ts n x) (hx : Yields x a rest) :
    rest <:+ ts := by
  obtain ⟨hr, e⟩ := hx
  exact h.rest _ e

theorem suffix_of_derives {j : Judgement} (h : Derives j) : j.rest <:+ j.given := by
  have h := holds_of_derives h
  cases j with
  | expression level ts e rest => exact ((orderly_rules ts).expression level).suffix h
  | extension level left ts e rest => exact ((orderly_rules ts).extend level left).suffix h
  | operand ts e rest => exact (orderly_rules ts).operand.suffix h
  | items closing ts es rest => exact ((orderly_rules ts).items closing).suffix h
  | moreItems closing ts es rest => exact ((orderly_rules ts).moreItems closing).suffix h
  | pairs ts ps rest => exact (orderly_rules ts).pairs.suffix h
  | block ts ss rest => exact (orderly_rules ts).blockBody.suffix h
  | statement ts s rest => exact (orderly_rules ts).statement.suffix h

/-! ### Names -/

/-- The tokens of names, each behind a comma. -/
inductive WordsMoreNames : List Identifier → List Token → Prop where
  | nil : WordsMoreNames [] []
  | cons {m t ids ts} (hm : m.kind = .comma) (ht : t.kind = .identifier)
      (h : WordsMoreNames ids ts) : WordsMoreNames (.ofToken t :: ids) (m :: t :: ts)

/-- The tokens of names with commas between them. -/
inductive WordsNames : List Identifier → List Token → Prop where
  | nil : WordsNames [] []
  | cons {t ids ts} (ht : t.kind = .identifier) (h : WordsMoreNames ids ts) :
      WordsNames (.ofToken t :: ids) (t :: ts)

theorem words_of_moreParameters {ts rest : List Token} {ids : List Identifier}
    (h : Yields (moreParameters ts) ids rest) :
    ∃ us c, ts = us ++ c :: rest ∧ c.kind = .rightParen ∧ WordsMoreNames ids us := by
  fun_induction moreParameters ts generalizing ids rest with
  | case1 => exact absurd h Yields.not_error
  | case2 m ts hm ih =>
    obtain ⟨t, ts₁, h₁, rfl, ht, h⟩ := of_expect_bind h
    obtain ⟨ids', ts₂, h₂, hi, h⟩ := h.of_bind
    obtain ⟨rfl, rfl⟩ := h.of_ok
    obtain ⟨us, c, rfl, hc, hw⟩ := ih ts₁ h₁ hi
    exact ⟨m :: t :: us, c, rfl, hc, .cons hm ht hw⟩
  | case3 m ts hm =>
    obtain ⟨c, ts₁, h₁, he, hc, h⟩ := of_expect_bind h
    obtain ⟨rfl, rfl⟩ := h.of_ok
    cases he
    exact ⟨[], m, rfl, hc, .nil⟩

theorem words_of_parameters {ts rest : List Token} {ids : List Identifier}
    (h : Yields (parameters ts) ids rest) :
    ∃ us c, ts = us ++ c :: rest ∧ c.kind = .rightParen ∧ WordsNames ids us := by
  unfold parameters at h
  split at h
  · obtain ⟨c, ts₁, h₁, rfl, hc, h⟩ := of_expect_bind h
    obtain ⟨rfl, rfl⟩ := h.of_ok
    exact ⟨[], c, rfl, hc, .nil⟩
  · obtain ⟨t, ts₁, h₁, rfl, ht, h⟩ := of_expect_bind h
    obtain ⟨ids', ts₂, h₂, hi, h⟩ := h.of_bind
    obtain ⟨rfl, rfl⟩ := h.of_ok
    obtain ⟨us, c, rfl, hc, hw⟩ := words_of_moreParameters hi
    exact ⟨t :: us, c, rfl, hc, .cons ht hw⟩

theorem moreParameters_of_words {ids : List Identifier} {ts : List Token}
    (h : WordsMoreNames ids ts) {c : Token} (hc : c.kind = .rightParen) (rest : List Token) :
    Yields (moreParameters (ts ++ c :: rest)) ids rest := by
  induction h with
  | nil =>
    have hn : ¬ c.kind = .comma := by
      rw [hc]
      decide
    rw [List.nil_append, moreParameters, if_neg hn]
    exact .bind (yields_expect hc) fun _ => .ok
  | @cons m t ids ts hm ht h ih =>
    rw [List.cons_append, List.cons_append, moreParameters, if_pos hm]
    exact .bind (yields_expect ht) fun _ => .bind ih fun _ => .ok

theorem parameters_of_words {ids : List Identifier} {ts : List Token} (h : WordsNames ids ts)
    {c : Token} (hc : c.kind = .rightParen) (rest : List Token) :
    Yields (parameters (ts ++ c :: rest)) ids rest := by
  cases h with
  | nil =>
    have hc' : kindAt (c :: rest) = .rightParen := hc
    rw [List.nil_append, parameters, if_pos hc']
    exact .bind (yields_expect hc) fun _ => .ok
  | @cons t ids ts ht h =>
    have ht' : ¬ kindAt (t :: (ts ++ c :: rest)) = .rightParen := by
      simp only [kindAt, ht]
      decide
    rw [List.cons_append, parameters, if_neg ht']
    exact .bind (yields_expect ht) fun _ => .bind (moreParameters_of_words h hc rest) fun _ => .ok

theorem WordsMoreNames.mem {ids : List Identifier} {ts : List Token} (h : WordsMoreNames ids ts)
    {id : Identifier} (hid : id ∈ ids) : ∃ t ∈ ts, t.kind = .identifier ∧ id = .ofToken t := by
  induction h with
  | nil => cases hid
  | @cons m t ids ts hm ht h ih =>
    rcases List.mem_cons.1 hid with rfl | hid
    · exact ⟨t, List.mem_cons_of_mem m List.mem_cons_self, ht, rfl⟩
    · obtain ⟨t', hmem, ht', he⟩ := ih hid
      exact ⟨t', List.mem_cons_of_mem m (List.mem_cons_of_mem t hmem), ht', he⟩

/-- A parameter is spelt by one of the tokens. -/
theorem mem_of_parameters {ts rest : List Token} {ids : List Identifier}
    (h : Yields (parameters ts) ids rest) {id : Identifier} (hid : id ∈ ids) :
    ∃ t ∈ ts, t.kind = .identifier ∧ id = .ofToken t := by
  obtain ⟨us, c, rfl, -, hw⟩ := words_of_parameters h
  cases hw with
  | nil => cases hid
  | @cons t ids us ht hw =>
    rcases List.mem_cons.1 hid with rfl | hid
    · exact ⟨t, List.mem_cons_self, ht, rfl⟩
    · obtain ⟨t', hmem, ht', he⟩ := hw.mem hid
      exact ⟨t', List.mem_cons_of_mem t (List.mem_append_left _ hmem), ht', he⟩

end Monkey.Rule
