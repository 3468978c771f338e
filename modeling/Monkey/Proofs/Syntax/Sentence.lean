import Monkey.Proofs.Syntax.Ebnf
import Monkey.Proofs.Syntax.Wording

/-!
  Monkey/Proofs/Syntax/Sentence.lean
  ==================================
  **The grammar of programs, and what is read besides.**

  The documented grammar of programs is a table of right sides (`Construct.rules`), in
  which lists of expressions, of parameters and of pairs are alike: items with a comma
  between any two of them.  In the lenient grammar the pairs of a hash literal may have a
  comma behind the last one too.

  Whatever is read without a diagnostic is a sentence of the lenient grammar: each of its
  constructs is derived from its rule, by induction on what it is worded with
  (`Rule.derivable_of_words`).  It is a sentence of the documented one exactly if no comma
  stands in front of a closing brace (`Program.sentence_of_read`), because the rules of
  that never put one there (`Construct.apart_documented`).

  A block may end with the input, and so may the blocks around it, at one and the same
  place.  So the end of the input stands behind the tokens of a construct as often as it
  is looked at from within (`Construct.Padding`).
-/
namespace Monkey

open Ebnf

/-- The constructs that have a rule in the grammar. -/
inductive Construct where
  | program
  | statement
  | letStatement
  | returnStatement
  | expressionStatement
  | block
  | expression
  | operand
  | extension
  | operator
  | parameters
  | list
  | pair
deriving DecidableEq, Repr

namespace Construct

/-- The right sides of the rules. -/
abbrev Side : Type :=
  Ebnf Construct Token.Kind

/-- A name, a literal or a truth value. -/
def leaf : Side :=
  anyOf .identifier [.integer, .string, .trueWord, .falseWord]

/-- `( "!" | "-" ) expression` -/
def signed : Side :=
  anyOf .bang [.minus] ++ rule expression

/-- `"(" expression ")"` -/
def group : Side :=
  terminal .leftParen ++ rule expression ++ terminal .rightParen

/-- `"if" "(" expression ")" block ( "else" block )?` -/
def conditional : Side :=
  terminal .ifWord ++ terminal .leftParen ++ rule expression ++ terminal .rightParen ++
    rule block ++ maybe (terminal .elseWord ++ rule block)

/-- `"fn" "(" parameters? ")" block` -/
def function : Side :=
  terminal .fnWord ++ terminal .leftParen ++ maybe (rule parameters) ++ terminal .rightParen ++
    rule block

/-- `"[" list? "]"` -/
def array : Side :=
  terminal .leftBracket ++ maybe (rule list) ++ terminal .rightBracket

/-- `pair ( "," pair )*` -/
def pairs : Side :=
  rule pair ++ many (terminal .comma ++ rule pair)

/-- `"{" entries? "}"` -/
def hash (entries : Side) : Side :=
  terminal .leftBrace ++ maybe entries ++ terminal .rightBrace

/-- The right side of each rule, where `entries` may stand between the braces of a hash
    literal. -/
def rules (entries : Side) : Construct → Side
  | program => many (rule statement) ++ terminal .endOfInput
  | statement => rule letStatement ||| rule returnStatement ||| rule expressionStatement
  | letStatement => terminal .letWord ++ terminal .identifier ++ terminal .equal ++
      rule expression ++ maybe (terminal .semicolon)
  | returnStatement =>
      terminal .returnWord ++ maybe (rule expression) ++ maybe (terminal .semicolon)
  | expressionStatement => rule expression ++ maybe (terminal .semicolon)
  | block => terminal .leftBrace ++ many (rule statement) ++
      (terminal .rightBrace ||| terminal .endOfInput)
  | expression => rule operand ++ many (rule extension)
  | operand => leaf ||| signed ||| group ||| conditional ||| function ||| array ||| hash entries
  | extension => rule operator ++ rule expression |||
      terminal .leftParen ++ maybe (rule list) ++ terminal .rightParen |||
      terminal .leftBracket ++ rule expression ++ terminal .rightBracket
  | operator =>
      anyOf .equalEqual [.bangEqual, .less, .greater, .plus, .minus, .star, .slash]
  | parameters => terminal .identifier ++ many (terminal .comma ++ terminal .identifier)
  | list => rule expression ++ many (terminal .comma ++ rule expression)
  | pair => rule expression ++ terminal .colon ++ rule expression

/-- The grammar as it is documented. -/
def documented : Construct → Side :=
  rules pairs

/-- The grammar that has a comma behind the last pair of a hash literal too. -/
def lenient : Construct → Side :=
  rules (pairs ++ maybe (terminal .comma))

theorem apart_documented : Apart .comma .rightBrace documented where
  nullable n := by cases n <;> rfl
  starts n := by cases n <;> rfl
  ends n := by cases n <;> rfl
  meets n := by cases n <;> rfl

/-! ### Parts of derivations -/

theorem expression_of_operand {w : List Token.Kind} (h : Derives lenient (lenient operand) w) :
    Derives lenient (rule expression) w := by
  have he := Derives.append (.rule h) (.none (a := rule extension))
  rw [List.append_nil] at he
  exact .rule he

theorem expression_of_leaf {k : Token.Kind}
    (h : k ∈ [.identifier, .integer, .string, .trueWord, .falseWord]) :
    Derives lenient (rule expression) [k] :=
  expression_of_operand (.left (.left (.left (.left (.left (.left (derives_anyOf h)))))))

theorem expression_of_signed {w : List Token.Kind} (h : Derives lenient signed w) :
    Derives lenient (rule expression) w :=
  expression_of_operand (.left (.left (.left (.left (.left (.right h))))))

theorem expression_of_group {w : List Token.Kind} (h : Derives lenient group w) :
    Derives lenient (rule expression) w :=
  expression_of_operand (.left (.left (.left (.left (.right h)))))

theorem expression_of_conditional {w : List Token.Kind} (h : Derives lenient conditional w) :
    Derives lenient (rule expression) w :=
  expression_of_operand (.left (.left (.left (.right h))))

theorem expression_of_function {w : List Token.Kind} (h : Derives lenient function w) :
    Derives lenient (rule expression) w :=
  expression_of_operand (.left (.left (.right h)))

theorem expression_of_array {w : List Token.Kind} (h : Derives lenient array w) :
    Derives lenient (rule expression) w :=
  expression_of_operand (.left (.right h))

theorem expression_of_hash {w : List Token.Kind}
    (h : Derives lenient (hash (pairs ++ maybe (terminal .comma))) w) :
    Derives lenient (rule expression) w :=
  expression_of_operand (.right h)

theorem expression_extended {v w : List Token.Kind} (h : Derives lenient (rule expression) v)
    (h' : Derives lenient (rule extension) w) : Derives lenient (rule expression) (v ++ w) := by
  cases h with
  | rule h =>
    cases h with
    | append ho hm =>
      rw [List.append_assoc]
      exact .rule (.append ho (hm.concat h'))

theorem operator_of_binds {k : Token.Kind} {op : InfixOperator} {l : Precedence}
    (h : Rule.Binds k op l) : Derives lenient (rule operator) [k] := by
  refine .rule (derives_anyOf ?_)
  cases h <;> decide

/-- A comma in front of the other pairs of a hash literal. -/
theorem pairs_cons {u v : List Token.Kind} (h : Derives lenient (rule pair) u)
    (h' : Derives lenient (pairs ++ maybe (terminal .comma)) v) :
    Derives lenient (pairs ++ maybe (terminal .comma)) (u ++ .comma :: v) := by
  cases h' with
  | append hp hc =>
    cases hp with
    | @append _ _ v₁ v₂ hp hm =>
      refine .of_eq (.append (.append h (.more (.append .terminal hp) hm)) hc) ?_
      simp only [List.append_assoc, List.cons_append, List.nil_append]

/-- How the end of the input is seen behind some tokens: as often as one looks, but not where
    there are more tokens. -/
def Padding (rest : List Token) (z : List Token.Kind) : Prop :=
  ∃ n, z = List.replicate n .endOfInput ∧ (n ≠ 0 → rest = [])

theorem padding_nil (rest : List Token) : Padding rest [] :=
  ⟨0, rfl, fun h => absurd rfl h⟩

theorem Padding.cases {rest : List Token} {z : List Token.Kind} (h : Padding rest z) :
    z = [] ∨ rest = [] := by
  obtain ⟨n, rfl, hn⟩ := h
  by_cases h0 : n = 0
  · rw [h0]
    exact .inl rfl
  · exact .inr (hn h0)

theorem Padding.eq_nil {rest : List Token} {z : List Token.Kind} (h : Padding rest z)
    (hne : rest ≠ []) : z = [] :=
  h.cases.resolve_right hne

theorem Padding.append {rest : List Token} {z z' : List Token.Kind} (h : Padding rest z)
    (h' : Padding rest z') : Padding rest (z ++ z') := by
  obtain ⟨n, rfl, hn⟩ := h
  obtain ⟨m, rfl, hm⟩ := h'
  refine ⟨n + m, List.replicate_append_replicate, fun h => ?_⟩
  by_cases h0 : n = 0
  · exact hm (by omega)
  · exact hn h0

/-- The kinds of some tokens. -/
abbrev kinds (ts : List Token) : List Token.Kind :=
  ts.map Token.kind

theorem block_of_statements {b : Token} {us cs rest : List Token} (hb : b.kind = .leftBrace)
    (hcs : Rule.Optional .rightBrace cs) (hend : cs = [] → rest = [])
    (h : ∃ z, Padding (cs ++ rest) z ∧ Derives lenient (many (rule statement)) (kinds us ++ z)) :
    ∃ z, Padding rest z ∧ Derives lenient (rule block) (kinds (b :: us ++ cs) ++ z) := by
  obtain ⟨z, hz, h⟩ := h
  cases hcs with
  | @present c hc =>
    obtain rfl := hz.eq_nil (List.cons_ne_nil c rest)
    refine ⟨[], padding_nil rest,
      .rule (.of_eq (.append (.append .terminal h) (.left .terminal)) ?_)⟩
    simp [hb, hc]
  | absent =>
    obtain ⟨n, rfl, -⟩ := hz
    refine ⟨List.replicate (n + 1) .endOfInput, ⟨n + 1, rfl, fun _ => hend rfl⟩,
      .rule (.of_eq (.append (.append .terminal h) (.right .terminal)) ?_)⟩
    simp [hb, List.replicate_succ']

end Construct

namespace Rule

open Construct

/-- The tokens of an item are derived from the rule that it belongs to.  What stands between
    brackets always has tokens behind it; a statement may have a `;` behind it. -/
def Item.Derivable : Item → List Token → List Token → Prop
  | expression _ _, ts, rest =>
    ∃ z, Padding rest z ∧ Ebnf.Derives lenient (rule .expression) (kinds ts ++ z)
  | items _, ts, rest => rest ≠ [] → Ebnf.Derives lenient (maybe (rule .list)) (kinds ts)
  | moreItems _, ts, rest =>
    rest ≠ [] → Ebnf.Derives lenient (many (terminal .comma ++ rule .expression)) (kinds ts)
  | pairs ps, ts, rest => rest ≠ [] → ps = [] ∧ ts = [] ∨
      Ebnf.Derives lenient (Construct.pairs ++ maybe (terminal .comma)) (kinds ts)
  | statement _, ts, rest =>
    ∃ z, Padding rest z ∧ ∀ v, Ebnf.Derives lenient (maybe (terminal .semicolon)) v →
      Ebnf.Derives lenient (rule .statement) (kinds ts ++ z ++ v)
  | statements _, ts, rest =>
    ∃ z, Padding rest z ∧ Ebnf.Derives lenient (many (rule .statement)) (kinds ts ++ z)

theorem parameters_derivable {ids : List Identifier} {ts : List Token} (h : WordsNames ids ts) :
    Ebnf.Derives lenient (maybe (rule .parameters)) (kinds ts) := by
  cases h with
  | nil => exact .absent
  | @cons t ids ts ht h =>
    have hm : Ebnf.Derives lenient (many (terminal .comma ++ terminal .identifier)) (kinds ts) := by
      induction h with
      | nil => exact .none
      | @cons m t ids ts hm ht _ ih =>
        refine .of_eq (.more (.append .terminal .terminal) ih) ?_
        simp [hm, ht]
    refine .present (.rule (.of_eq (.append .terminal hm) ?_))
    simp [ht]

theorem derivable_leaf {t : Token} {k : Token.Kind} (ht : t.kind = k)
    (hk : k ∈ [.identifier, .integer, .string, .trueWord, .falseWord]) {l : Precedence} {e : Expr}
    (rest : List Token) : Item.Derivable (.expression l e) [t] rest := by
  refine ⟨[], padding_nil rest, .of_eq (expression_of_leaf hk) ?_⟩
  simp [ht]

theorem Optional.derives {k : Token.Kind} {ts : List Token} (h : Optional k ts) :
    Ebnf.Derives lenient (maybe (terminal k)) (kinds ts) := by
  cases h with
  | absent => exact .absent
  | present ht => exact .present (.of_eq .terminal (by simp [ht]))

/-- The tokens of what is read are derived. -/
theorem derivable_of_words {x : Item} {ts rest : List Token} (h : Words x ts rest) :
    x.Derivable ts rest := by
  induction h with
  | paren ho _ hc ih =>
    obtain ⟨z, hz, h⟩ := ih
    obtain rfl := hz.eq_nil (List.cons_ne_nil _ _)
    refine ⟨[], padding_nil _,
      expression_of_group (.of_eq (.append (.append .terminal h) .terminal) ?_)⟩
    simp [ho, hc]
  | identifier ht | integer ht | string ht | true ht | false ht =>
    exact derivable_leaf ht (by decide) _
  | array ht _ hc ih =>
    have h := ih (List.cons_ne_nil _ _)
    refine ⟨[], padding_nil _,
      expression_of_array (.of_eq (.append (.append .terminal h) .terminal) ?_)⟩
    simp [ht, hc]
  | @hash t ps ts c rest ht _ hc ih =>
    have h : Ebnf.Derives lenient (maybe (Construct.pairs ++ maybe (terminal .comma)))
        (kinds ts) := by
      rcases ih (List.cons_ne_nil _ _) with ⟨-, rfl⟩ | h
      · exact .absent
      · exact .present h
    refine ⟨[], padding_nil _,
      expression_of_hash (.of_eq (.append (.append .terminal h) .terminal) ?_)⟩
    simp [ht, hc]
  | @prefixOp t op right l ts rest ht _ _ ih =>
    obtain ⟨z, hz, h⟩ := ih
    have ho : op.kind ∈ [Token.Kind.bang, .minus] := by cases op <;> decide
    refine ⟨z, hz, expression_of_signed (.of_eq (.append (derives_anyOf ho) h) ?_)⟩
    simp [ht]
  | infixOp ht _ _ _ _ ih ih' =>
    obtain ⟨z, hz, h⟩ := ih
    obtain ⟨z', hz', h'⟩ := ih'
    obtain rfl := hz.eq_nil (List.cons_ne_nil _ _)
    have hx : Ebnf.Derives lenient (rule .extension) _ :=
      .rule (.left (.left (.append (operator_of_binds ht) h')))
    refine ⟨z', hz', .of_eq (expression_extended h hx) ?_⟩
    simp
  | ifThen ht ho _ hc hb _ hcs hend ih ihs =>
    obtain ⟨z, hz, h⟩ := ih
    obtain rfl := hz.eq_nil (by simp)
    obtain ⟨z, hz, hs⟩ := block_of_statements hb hcs hend ihs
    refine ⟨z, hz, expression_of_conditional (.of_eq
      (.append (.append (.append (.append (.append .terminal .terminal) h) .terminal) hs)
        .absent) ?_)⟩
    simp [ht, ho, hc]
  | ifElse ht ho _ hc hb _ hc' hw hb' _ hcs hend ih ihs ihs' =>
    obtain ⟨z, hz, h⟩ := ih
    obtain rfl := hz.eq_nil (by simp)
    simp only [Item.Derivable, List.cons_append, List.append_assoc] at ihs
    obtain ⟨z, hz, hs⟩ := block_of_statements hb (.present hc') nofun ihs
    obtain rfl := hz.eq_nil (List.cons_ne_nil _ _)
    obtain ⟨z, hz, hs'⟩ := block_of_statements hb' hcs hend ihs'
    refine ⟨z, hz, expression_of_conditional (.of_eq
      (.append (.append (.append (.append (.append .terminal .terminal) h) .terminal) hs)
        (.present (.append .terminal hs'))) ?_)⟩
    simp [ht, ho, hc, hw]
  | function ht ho hn hc hb _ hcs hend ihs =>
    obtain ⟨z, hz, hs⟩ := block_of_statements hb hcs hend ihs
    have hn := parameters_derivable hn
    refine ⟨z, hz, expression_of_function (.of_eq
      (.append (.append (.append (.append .terminal .terminal) hn) .terminal) hs) ?_)⟩
    simp [ht, ho, hc]
  | call _ _ ht _ hc ih ihi =>
    obtain ⟨z, hz, h⟩ := ih
    obtain rfl := hz.eq_nil (by simp)
    have hi := ihi (List.cons_ne_nil _ _)
    have hx : Ebnf.Derives lenient (rule .extension) _ :=
      .rule (.left (.right (.append (.append .terminal hi) .terminal)))
    refine ⟨[], padding_nil _, .of_eq (expression_extended h hx) ?_⟩
    simp [ht, hc]
  | index _ _ ht _ hc ih ihi =>
    obtain ⟨z, hz, h⟩ := ih
    obtain rfl := hz.eq_nil (by simp)
    obtain ⟨z, hz, hi⟩ := ihi
    obtain rfl := hz.eq_nil (List.cons_ne_nil _ _)
    have hx : Ebnf.Derives lenient (rule .extension) _ :=
      .rule (.right (.append (.append .terminal hi) .terminal))
    refine ⟨[], padding_nil _, .of_eq (expression_extended h hx) ?_⟩
    simp [ht, hc]
  | noItems => exact fun _ => .absent
  | items _ _ ih ih' =>
    intro hne
    obtain ⟨z, hz, h⟩ := ih
    obtain rfl := hz.eq_nil (List.append_ne_nil_of_right_ne_nil _ hne)
    refine .present (.rule (.of_eq (.append h (ih' hne)) ?_))
    simp
  | noMoreItems => exact fun _ => .none
  | moreItems hm _ _ ih ih' =>
    intro hne
    obtain ⟨z, hz, h⟩ := ih
    obtain rfl := hz.eq_nil (List.append_ne_nil_of_right_ne_nil _ hne)
    refine .of_eq (.more (.append .terminal h) (ih' hne)) ?_
    simp [hm]
  | noPairs => exact fun _ => .inl ⟨rfl, rfl⟩
  | lastPair _ hm _ hcs ih ih' =>
    intro hne
    obtain ⟨z, hz, h⟩ := ih
    obtain ⟨z', hz', h'⟩ := ih'
    obtain rfl := hz.eq_nil (by simp)
    obtain rfl := hz'.eq_nil (List.append_ne_nil_of_right_ne_nil _ hne)
    have hp : Ebnf.Derives lenient (rule .pair) _ := .rule (.append (.append h .terminal) h')
    refine .inr (.of_eq (.append (.append hp .none) hcs.derives) ?_)
    simp [hm]
  | pairs _ hm _ hc hps _ ih ih' ihp =>
    intro hne
    obtain ⟨z, hz, h⟩ := ih
    obtain ⟨z', hz', h'⟩ := ih'
    obtain rfl := hz.eq_nil (by simp)
    obtain rfl := hz'.eq_nil (by simp)
    have hp : Ebnf.Derives lenient (rule .pair) _ := .rule (.append (.append h .terminal) h')
    have hvs := (ihp hne).resolve_left fun hn => hps hn.1
    refine .inr (.of_eq (pairs_cons hp hvs) ?_)
    simp [hm, hc]
  | letBind ht hi hq _ ih =>
    obtain ⟨z, hz, h⟩ := ih
    refine ⟨z, hz, fun v hv => .rule (.left (.left (.rule (.of_eq
      (.append (.append (.append (.append .terminal .terminal) .terminal) h) hv) ?_))))⟩
    simp [ht, hi, hq]
  | returnNothing ht =>
    refine ⟨[], padding_nil _, fun v hv => .rule (.left (.right (.rule (.of_eq
      (.append (.append .terminal .absent) hv) ?_))))⟩
    simp [ht]
  | returnValue ht _ ih =>
    obtain ⟨z, hz, h⟩ := ih
    refine ⟨z, hz, fun v hv => .rule (.left (.right (.rule (.of_eq
      (.append (.append .terminal (.present h)) hv) ?_))))⟩
    simp [ht]
  | expressionStatement _ ih =>
    obtain ⟨z, hz, h⟩ := ih
    exact ⟨z, hz, fun v hv => .rule (.right (.rule (.append h hv)))⟩
  | noStatements => exact ⟨[], padding_nil _, .none⟩
  | statements _ hms _ ih ih' =>
    obtain ⟨z, hz, h⟩ := ih
    obtain ⟨z', hz', h'⟩ := ih'
    have hs := Ebnf.Derives.more (h _ hms.derives) h'
    rcases hz.cases with rfl | hnil
    · exact ⟨z', hz', .of_eq hs (by simp)⟩
    · -- what is seen of the end behind this statement is seen behind all of them
      obtain ⟨hu, rfl⟩ := List.append_eq_nil_iff.1 hnil
      obtain ⟨rfl, rfl⟩ := List.append_eq_nil_iff.1 hu
      exact ⟨z ++ z', hz.append hz', .of_eq hs (by simp)⟩

end Rule

/-! ### Sentences -/

namespace Construct

/-- The relation of neighbours that no comma in front of a closing brace satisfies. -/
def Separated (a b : Token.Kind) : Prop :=
  a = .comma → b ≠ .rightBrace

instance : DecidableRel Separated := fun a b =>
  inferInstanceAs (Decidable (a = .comma → b ≠ .rightBrace))

/-- Some tokens are a program.  The end of the input, which stands behind them, is seen as
    often as something may end there. -/
def Sentence (g : Construct → Side) (ts : List Token) : Prop :=
  ∃ n, Derives g (rule program) (kinds ts ++ List.replicate (n + 1) .endOfInput)

theorem hash_of_lenient {g : Construct → Side} {w : List Token.Kind} (hw : w.IsChain Separated)
    (h : Derives g (hash (pairs ++ maybe (terminal .comma))) w) : Derives g (hash pairs) w := by
  cases h with
  | append h hclose =>
    cases h with
    | append hopen he =>
      cases hclose
      cases hopen
      cases he with
      | absent => exact .append (.append .terminal .absent) .terminal
      | present he =>
        cases he with
        | append hp hc =>
          cases hc with
          | absent =>
            rw [List.append_nil]
            exact .append (.append .terminal (.present hp)) .terminal
          | present hc =>
            cases hc
            have hcomma := (List.isChain_append.1 hw).2.2 .comma (by simp [List.getLast?_cons])
              .rightBrace rfl
            exact absurd rfl (hcomma rfl)

/-- Where no comma stands in front of a closing brace, the rules derive what the documented
    ones do. -/
theorem documented_of_lenient (n : Construct) {w : List Token.Kind} (hw : w.IsChain Separated)
    (h : Derives documented (lenient n) w) : Derives documented (documented n) w := by
  cases n with
  | operand =>
    cases h with
    | left h => exact .left h
    | right h => exact .right (hash_of_lenient hw h)
  | _ => exact h

theorem isChain_kinds {ts : List Token} {n : Nat} :
    (kinds ts ++ List.replicate (n + 1) Token.Kind.endOfInput).IsChain Separated ↔
      (kinds ts).IsChain Separated := by
  refine ⟨List.IsChain.left_of_append, fun h => ?_⟩
  refine List.isChain_append.2 ⟨h, List.isChain_replicate_of_rel _ nofun, ?_⟩
  rintro a - b hb -
  rw [List.head?_replicate, if_neg (Nat.succ_ne_zero n)] at hb
  cases hb
  decide

theorem sentence_documented_iff {ts : List Token} (h : Sentence lenient ts) :
    Sentence documented ts ↔ (kinds ts).IsChain Separated := by
  refine ⟨fun ⟨n, hd⟩ => isChain_kinds.1 (apart_documented.isChain hd rfl), fun hw => ?_⟩
  obtain ⟨n, h⟩ := h
  exact ⟨n, h.exchange (fun n _ => documented_of_lenient n) (isChain_kinds.2 hw)⟩

end Construct

/-- **Only sentences of the grammar are read without a diagnostic**, of that which has a comma
    behind the last pair of a hash literal too.  The input ends with the last token and not
    before.  What is read without a diagnostic is a sentence of the documented grammar exactly
    if no comma stands in front of a closing brace. -/
theorem Program.sentence_of_read {ts : List Token} {t : Token}
    (hts : ∀ s ∈ ts, s.kind ≠ .endOfInput) (ht : t.kind = .endOfInput)
    (hd : (read (ts ++ [t])).diagnostics = []) :
    Construct.Sentence Construct.lenient ts ∧
      (Construct.Sentence Construct.documented ts ↔
        (Construct.kinds ts).IsChain Construct.Separated) := by
  suffices h : Construct.Sentence Construct.lenient ts from ⟨h, Construct.sentence_documented_iff h⟩
  have hf := List.map_eq_nil_iff.1 hd
  rw [body_concat ht] at hf
  obtain ⟨z, ⟨n, rfl, -⟩, h⟩ := Rule.derivable_of_words (Rule.words_of_rounds hts hf)
  refine ⟨n, .rule (.of_eq (.append h .terminal) ?_)⟩
  rw [List.replicate_succ', List.append_assoc]

/-- The tokens of `f(1, 2); fn(a, b) { {a: b}`, where the block is open. -/
def openFunctionTokens : List Token :=
  [⟨.identifier, "f", 1⟩, ⟨.leftParen, "(", 1⟩, ⟨.integer, "1", 1⟩, ⟨.comma, ",", 1⟩,
    ⟨.integer, "2", 1⟩, ⟨.rightParen, ")", 1⟩, ⟨.semicolon, ";", 1⟩, ⟨.fnWord, "fn", 1⟩,
    ⟨.leftParen, "(", 1⟩, ⟨.identifier, "a", 1⟩, ⟨.comma, ",", 1⟩, ⟨.identifier, "b", 1⟩,
    ⟨.rightParen, ")", 1⟩, ⟨.leftBrace, "\x7b", 1⟩, ⟨.leftBrace, "\x7b", 1⟩, ⟨.identifier, "a", 1⟩,
    ⟨.colon, ":", 1⟩, ⟨.identifier, "b", 1⟩, ⟨.rightBrace, "\x7d", 1⟩]

theorem Program.sentence_openFunction :
    (read (openFunctionTokens ++ [⟨.endOfInput, "", 1⟩])).diagnostics = [] ∧
      Construct.Sentence Construct.documented openFunctionTokens := by
  have hd : (read (openFunctionTokens ++ [⟨.endOfInput, "", 1⟩])).diagnostics = [] := by
    decide +kernel
  exact ⟨hd, (sentence_of_read (by decide) rfl hd).2.2 (by decide)⟩

/-- The tokens of `{1: 2,}`. -/
def commaTokens : List Token :=
  [⟨.leftBrace, "\x7b", 1⟩, ⟨.integer, "1", 1⟩, ⟨.colon, ":", 1⟩, ⟨.integer, "2", 1⟩,
    ⟨.comma, ",", 1⟩, ⟨.rightBrace, "\x7d", 1⟩]

/-- Not only sentences of the documented grammar are read without a diagnostic. -/
theorem Program.not_documented_of_read :
    ¬ ∀ (ts : List Token) (t : Token), (∀ s ∈ ts, s.kind ≠ .endOfInput) → t.kind = .endOfInput →
      (read (ts ++ [t])).diagnostics = [] → Construct.Sentence Construct.documented ts := by
  intro h
  obtain ⟨n, hs⟩ := h commaTokens ⟨.endOfInput, "", 1⟩ (by decide) rfl (by decide +kernel)
  have hw := Construct.isChain_kinds.1 (Construct.apart_documented.isChain hs rfl)
  exact absurd hw (by decide)

end Monkey
