import Monkey.Proofs.Syntax.Writing
import Monkey.Proofs.Token.Scan

/-!
  Monkey/Proofs/Syntax/Canonical.lean
  ===================================
  **The canonical text of a tree is scanned as a writing of it.**

  A tree is canonical if the scan of its text is one of its writings.  Not every
  tree is: a name may be a reserved word and a string may hold a double quote.  But
  each sort of node keeps the property, and so every tree that is read from
  well-spelt tokens has it (`canonical_of_derives`).

  The text of an expression says nothing about what stands behind it, apart from
  that it must not go on a word or a numeral (`Stops`).
-/
namespace Monkey

open Text Utf8 Token
open Rule (Item Writes WritesNames WritesMoreNames)

/-- The kind of the token of an operator that stands between its operands. -/
def InfixOperator.kind : InfixOperator → Token.Kind
  | plus => .plus
  | minus => .minus
  | star => .star
  | slash => .slash
  | less => .less
  | greater => .greater
  | equal => .equalEqual
  | notEqual => .bangEqual

theorem InfixOperator.exists_binds (op : InfixOperator) : ∃ l, Rule.Binds op.kind op l := by
  cases op <;> exact ⟨_, by constructor⟩

/-! ### The texts of operators -/

/-- The blank is there for the sake of `/`, which might start a comment. -/
theorem scanFrom_infix (op : InfixOperator) (line : Nat) (rest : List UInt8) :
    scanFrom line (encode op.text ++ (encode " " ++ rest)) =
      ⟨op.kind, op.text, line⟩ :: scanFrom line rest := by
  have h : scanFrom line (encode op.text ++ (encode " " ++ rest)) =
      ⟨op.kind, op.text, line⟩ :: scanFrom line (encode " " ++ rest) := by
    cases op with
    | plus => exact scanFrom_punctuator "+" rfl rfl line _
    | minus => exact scanFrom_punctuator "-" rfl rfl line _
    | star => exact scanFrom_punctuator "*" rfl rfl line _
    | less => exact scanFrom_punctuator "<" rfl rfl line _
    | greater => exact scanFrom_punctuator ">" rfl rfl line _
    | slash => exact scanFrom_lexeme (.slash rfl) (by decide) (by decide) line
    | equal => exact scanFrom_lexeme .equalEqual (by decide) (by decide) line
    | notEqual => exact scanFrom_lexeme .bangEqual (by decide) (by decide) line
  rw [h, scanFrom_blank]

theorem kindAt_scanFrom {b : UInt8} {bs : List UInt8} {k : Token.Kind} {n : Nat}
    (h : Piece.munch b bs = (some k, n)) (line : Nat) : kindAt (scanFrom line (b :: bs)) = k := by
  rw [scanFrom, Piece.cut, h]
  rfl

/-- What is scanned as an expression does not start with `=`. -/
theorem startsWith_equal_eq_false {line : Nat} {bs : List UInt8}
    (h : Rule.StartsExpression (kindAt (scanFrom line bs))) : Piece.startsWith '=' bs = false := by
  cases bs with
  | nil => rfl
  | cons b bs =>
    refine beq_eq_false_iff_ne.2 fun hb => ?_
    rw [(Byte.eq_of_char hb : b = 0x3D)] at h
    have hm : Piece.munch 0x3D bs =
        if Piece.startsWith '=' bs then (some .equalEqual, 1) else (some .equal, 0) := rfl
    split at hm
    all_goals
      rw [kindAt_scanFrom hm] at h
      exact absurd h (by decide)

theorem scanFrom_prefix (op : PrefixOperator) {line : Nat} {rest : List UInt8}
    (h : Rule.StartsExpression (kindAt (scanFrom line rest))) :
    scanFrom line (encode op.text ++ rest) = ⟨op.kind, op.text, line⟩ :: scanFrom line rest := by
  cases op with
  | minus => exact scanFrom_punctuator "-" rfl rfl line rest
  | bang => exact scanFrom_bang (startsWith_equal_eq_false h) line

/-! ### Texts and writings -/

/-- In front of whatever does not go on a word or a numeral, a text is scanned as
    tokens that write an item. -/
def Spells (s : String) (x : Item) : Prop :=
  ∀ line rest, Stops rest → ∃ ts line', Writes x ts ∧
    scanFrom line (encode s ++ rest) = ts ++ scanFrom line' rest

/-- The text of the expression is scanned as a writing of it. -/
def Expr.Canonical (e : Expr) : Prop :=
  Spells e.render (.expression .call e)

namespace Expr.Canonical

theorem identifier {id : Identifier} (hw : isWord id.name = true)
    (hk : Kind.ofWord id.name = .identifier) : (Expr.identifier id).Canonical := by
  intro line rest hr
  refine ⟨[⟨.identifier, id.name, line⟩], line, .identifier rfl rfl, ?_⟩
  rw [Expr.render, scanFrom_word hw hr, hk]
  rfl

theorem integer {k : Token} {value : Int64} (h : 0 ≤ value.toInt) :
    (Expr.integer k value).Canonical := by
  intro line rest hr
  refine ⟨[⟨.integer, Decimal.ofInt value.toInt, line⟩], line,
    .integer rfl (Decimal.int64?_ofInt h), ?_⟩
  rw [Expr.render, scanFrom_numeral (isNumeral_ofInt h) hr]
  rfl

theorem string {k : Token} {value : String} (h : '"' ∉ value.toList) :
    (Expr.string k value).Canonical := by
  intro line rest hr
  obtain ⟨line', e⟩ := scanFrom_string h line rest
  refine ⟨[⟨.string, value, line⟩], line', .string rfl rfl, ?_⟩
  simp only [Expr.render, encode_append, List.append_assoc]
  rw [e]
  rfl

theorem boolean {k : Token} {value : Bool} : (Expr.boolean k value).Canonical := by
  intro line rest hr
  cases value with
  | true =>
    refine ⟨[⟨.trueWord, "true", line⟩], line, .true rfl, ?_⟩
    exact scanFrom_word (s := "true") rfl hr line
  | false =>
    refine ⟨[⟨.falseWord, "false", line⟩], line, .false rfl, ?_⟩
    exact scanFrom_word (s := "false") rfl hr line

theorem prefixOp {k : Token} {op : PrefixOperator} {right : Expr} (h : right.Canonical) :
    (Expr.prefixOp k op right).Canonical := by
  intro line rest hr
  obtain ⟨ts, line', hw, e⟩ := h line (encode ")" ++ rest) rfl
  have hs : Rule.StartsExpression
      (kindAt (scanFrom line (encode right.render ++ (encode ")" ++ rest)))) := by
    obtain ⟨t, us, rfl, ht⟩ := Rule.starts_of_writes hw
    rw [e]
    exact ht
  refine ⟨⟨.leftParen, "(", line⟩ :: (⟨op.kind, op.text, line⟩ :: ts) ++
    [⟨.rightParen, ")", line'⟩], line', .paren rfl (.prefixOp rfl (Rule.le_call _) hw) rfl, ?_⟩
  simp only [Expr.render, encode_append, List.append_assoc]
  rw [scanFrom_punctuator "(" rfl rfl, scanFrom_prefix op hs, e, scanFrom_punctuator ")" rfl rfl]
  simp only [List.cons_append, List.nil_append]

theorem infixOp {k : Token} {left right : Expr} {op : InfixOperator} (hl : left.Canonical)
    (hr : right.Canonical) : (Expr.infixOp k left op right).Canonical := by
  intro line rest hs
  obtain ⟨ts, l, hw, e⟩ := hl line (encode " " ++ (encode op.text ++ (encode " " ++
    (encode right.render ++ (encode ")" ++ rest))))) rfl
  obtain ⟨us, l', hw', e'⟩ := hr l (encode ")" ++ rest) rfl
  obtain ⟨m, hm⟩ := op.exists_binds
  refine ⟨⟨.leftParen, "(", line⟩ :: (ts ++ ⟨op.kind, op.text, l⟩ :: us) ++
    [⟨.rightParen, ")", l'⟩], l',
    .paren rfl (.infixOp hm (Rule.le_call _) hm.lt_call hw hw') rfl, ?_⟩
  simp only [Expr.render, encode_append, List.append_assoc]
  rw [scanFrom_punctuator "(" rfl rfl, e, scanFrom_blank, scanFrom_infix, e',
    scanFrom_punctuator ")" rfl rfl]
  simp only [List.cons_append, List.append_assoc, List.nil_append]

end Expr.Canonical

/-! ### The insides of brackets -/

/-- What the scanner asks of a name. -/
def Identifier.Canonical (id : Identifier) : Prop :=
  isWord id.name = true ∧ Kind.ofWord id.name = .identifier

theorem scanFrom_name {id : Identifier} (h : id.Canonical) {rest : List UInt8} (hr : Stops rest)
    (line : Nat) : scanFrom line (encode id.name ++ rest) =
      ⟨.identifier, id.name, line⟩ :: scanFrom line rest := by
  rw [scanFrom_word h.1 hr, h.2]

theorem scanFrom_names {id : Identifier} {ids : List Identifier}
    (h : ∀ i ∈ id :: ids, i.Canonical) (line : Nat) {rest : List UInt8} (hr : Stops rest) :
    ∃ t us, t.kind = .identifier ∧ t.literal = id.name ∧ WritesMoreNames ids us ∧
      scanFrom line (encode (", ".intercalate ((id :: ids).map Identifier.name)) ++ rest) =
        t :: us ++ scanFrom line rest := by
  induction ids generalizing id with
  | nil =>
    refine ⟨⟨.identifier, id.name, line⟩, [], rfl, rfl, .nil, ?_⟩
    have hi := h id List.mem_cons_self
    rw [List.map_singleton, String.intercalate_singleton, scanFrom_name hi hr]
    rfl
  | cons id' ids ih =>
    obtain ⟨hi, hids⟩ := List.forall_mem_cons.1 h
    obtain ⟨t, us, ht, hn, hm, e⟩ := ih hids
    refine ⟨⟨.identifier, id.name, line⟩, ⟨.comma, ",", line⟩ :: t :: us, rfl, rfl,
      .cons rfl ht hn hm, ?_⟩
    simp only [List.map_cons] at e
    simp only [List.map_cons, String.intercalate_cons_cons, encode_append, List.append_assoc]
    have hs : Stops (encode ", " ++
      (encode (", ".intercalate (id'.name :: ids.map Identifier.name)) ++ rest)) := rfl
    rw [scanFrom_name hi hs, scanFrom_spaced "," ", " rfl rfl rfl, e]
    rfl

theorem scanFrom_items {e : Expr} {es : List Expr} (h : ∀ x ∈ e :: es, x.Canonical) (line : Nat)
    {rest : List UInt8} (hr : Stops rest) :
    ∃ ts us line', Writes (.expression .call e) ts ∧ Writes (.moreItems es) us ∧
      scanFrom line (encode (", ".intercalate (Expr.renderAll (e :: es))) ++ rest) =
        ts ++ us ++ scanFrom line' rest := by
  induction es generalizing e line with
  | nil =>
    obtain ⟨ts, line', hw, e₁⟩ := h e List.mem_cons_self line rest hr
    refine ⟨ts, [], line', hw, .noMoreItems, ?_⟩
    rw [Expr.renderAll, Expr.renderAll, String.intercalate_singleton, e₁, List.append_nil]
  | cons e' es ih =>
    obtain ⟨he, hes⟩ := List.forall_mem_cons.1 h
    obtain ⟨ts, l, hw, e₁⟩ := he line
      (encode ", " ++ (encode (", ".intercalate (Expr.renderAll (e' :: es))) ++ rest)) rfl
    obtain ⟨us, vs, line', hw', hm, e₂⟩ := ih hes l
    refine ⟨ts, ⟨.comma, ",", l⟩ :: us ++ vs, line', hw, .moreItems rfl hw' hm, ?_⟩
    simp only [Expr.renderAll] at e₁ e₂
    simp only [Expr.renderAll, String.intercalate_cons_cons, encode_append, List.append_assoc]
    rw [e₁, scanFrom_spaced "," ", " rfl rfl rfl, e₂]
    simp only [List.cons_append, List.append_assoc]

theorem spells_items {es : List Expr} (h : ∀ e ∈ es, e.Canonical) :
    Spells (", ".intercalate (Expr.renderAll es)) (.items es) := by
  intro line rest hr
  cases es with
  | nil => exact ⟨[], line, .noItems, rfl⟩
  | cons e es =>
    obtain ⟨ts, us, line', hw, hm, e₁⟩ := scanFrom_items h line hr
    exact ⟨ts ++ us, line', .items hw hm, e₁⟩

theorem spells_pairs {ps : List (Expr × Expr)} (h : ∀ p ∈ ps, p.1.Canonical ∧ p.2.Canonical) :
    Spells (", ".intercalate (Expr.renderPairs ps)) (.pairs ps) := by
  induction ps with
  | nil => exact fun line rest _ => ⟨[], line, .noPairs, rfl⟩
  | cons p ps ih =>
    obtain ⟨key, value⟩ := p
    obtain ⟨⟨hk, hv⟩, hps⟩ := List.forall_mem_cons.1 h
    intro line rest hr
    cases ps with
    | nil =>
      obtain ⟨ts, l, hw, e₁⟩ := hk line (encode ": " ++ (encode value.render ++ rest)) rfl
      obtain ⟨us, l', hw', e₂⟩ := hv l rest hr
      refine ⟨ts ++ ⟨.colon, ":", l⟩ :: us, l', .lastPair hw rfl hw', ?_⟩
      simp only [Expr.renderPairs, String.intercalate_singleton, encode_append, List.append_assoc]
      rw [e₁, scanFrom_spaced ":" ": " rfl rfl rfl, e₂]
      rfl
    | cons p ps =>
      obtain ⟨key', value'⟩ := p
      obtain ⟨ts, l, hw, e₁⟩ := hk line (encode ": " ++ (encode value.render ++ (encode ", " ++
        (encode (", ".intercalate (Expr.renderPairs ((key', value') :: ps))) ++ rest)))) rfl
      obtain ⟨us, l', hw', e₂⟩ := hv l (encode ", " ++
        (encode (", ".intercalate (Expr.renderPairs ((key', value') :: ps))) ++ rest)) rfl
      obtain ⟨vs, l'', hp, e₃⟩ := ih hps l' rest hr
      refine ⟨ts ++ ⟨.colon, ":", l⟩ :: us ++ ⟨.comma, ",", l'⟩ :: vs, l'',
        .pairs hw rfl hw' rfl (List.cons_ne_nil _ _) hp, ?_⟩
      simp only [Expr.renderPairs] at e₁ e₂ e₃
      simp only [Expr.renderPairs, String.intercalate_cons_cons, encode_append, List.append_assoc]
      rw [e₁, scanFrom_spaced ":" ": " rfl rfl rfl, e₂, scanFrom_spaced "," ", " rfl rfl rfl, e₃]
      simp only [List.cons_append]

/-! ### Statements and blocks -/

/-- The text of the statement, up to a final `;`, is scanned as a writing of it. -/
def Statement.Canonical (s : Statement) : Prop :=
  ∃ core, Spells core (.statement s) ∧ s.render = if s.needsSemicolon then core else core ++ ";"

namespace Statement.Canonical

theorem letBind {k : Token} {id : Identifier} {value : Expr} (hi : id.Canonical)
    (h : value.Canonical) : (Statement.letBind k id value).Canonical := by
  refine ⟨"let " ++ id.name ++ " = " ++ value.render, ?_, rfl⟩
  intro line rest hr
  obtain ⟨ts, line', hw, e⟩ := h line rest hr
  refine ⟨⟨.letWord, "let", line⟩ :: ⟨.identifier, id.name, line⟩ :: ⟨.equal, "=", line⟩ :: ts,
    line', .letBind rfl rfl rfl rfl hw, ?_⟩
  have hl : "let " = "let" ++ " " := rfl
  have hq : " = " = " " ++ "=" ++ " " := rfl
  have he : Lexeme .equal (encode "=") (encode " " ++ (encode value.render ++ rest)) := .equal rfl
  simp only [hl, hq, encode_append, List.append_assoc]
  rw [scanFrom_word (s := "let") rfl (stops_blank _), scanFrom_blank,
    scanFrom_name hi (stops_blank _), scanFrom_blank, scanFrom_lexeme he (by decide) (by decide),
    scanFrom_blank, e]
  rfl

theorem returnNothing {k : Token} : (Statement.returnValue k none).Canonical := by
  refine ⟨"return", ?_, rfl⟩
  intro line rest hr
  refine ⟨[⟨.returnWord, "return", line⟩], line, .returnNothing rfl, ?_⟩
  exact scanFrom_word (s := "return") rfl hr line

theorem returnValue {k : Token} {value : Expr} (h : value.Canonical) :
    (Statement.returnValue k (some value)).Canonical := by
  refine ⟨"return " ++ value.render, ?_, rfl⟩
  intro line rest hr
  obtain ⟨ts, line', hw, e⟩ := h line rest hr
  refine ⟨⟨.returnWord, "return", line⟩ :: ts, line', .returnValue rfl hw, ?_⟩
  have hl : "return " = "return" ++ " " := rfl
  simp only [hl, encode_append, List.append_assoc]
  rw [scanFrom_word (s := "return") rfl (stops_blank _), scanFrom_blank, e]
  rfl

theorem expression {k : Token} {e : Expr} (h : e.Canonical) :
    (Statement.expression k e).Canonical := by
  refine ⟨e.render, ?_, rfl⟩
  intro line rest hr
  obtain ⟨ts, line', hw, e₁⟩ := h line rest hr
  exact ⟨ts, line', .expressionStatement hw, e₁⟩

end Statement.Canonical

theorem spells_statements {ss : List Statement} (h : ∀ s ∈ ss, s.Canonical) :
    Spells (Statement.renderAll ss) (.statements ss) := by
  induction ss with
  | nil => exact fun line rest _ => ⟨[], line, .noStatements, rfl⟩
  | cons s ss ih =>
    obtain ⟨⟨core, hc, hs⟩, hss⟩ := List.forall_mem_cons.1 h
    intro line rest hr
    cases ss with
    | nil =>
      have hn : Statement.renderAll [s] = if s.needsSemicolon then core else core ++ ";" := by
        rw [Statement.renderAll, List.isEmpty_nil, if_pos rfl, Statement.renderAll, hs,
          String.append_empty, String.append_empty]
      rw [hn]
      split
      · obtain ⟨ts, line', hw, e⟩ := hc line rest hr
        exact ⟨ts, line', .lastStatement hw, e⟩
      · obtain ⟨ts, l, hw, e⟩ := hc line (encode ";" ++ rest) rfl
        refine ⟨ts ++ [⟨.semicolon, ";", l⟩], l, .statements hw rfl .noStatements, ?_⟩
        rw [encode_append, List.append_assoc, e, scanFrom_punctuator ";" rfl rfl, List.append_assoc]
        rfl
    | cons s' ss =>
      have hn : Statement.renderAll (s :: s' :: ss) =
          core ++ ";" ++ " " ++ Statement.renderAll (s' :: ss) := by
        rw [Statement.renderAll, hs, List.isEmpty_cons, if_neg Bool.false_ne_true]
        split
        · have hb : "; " = ";" ++ " " := rfl
          rw [hb, ← String.append_assoc]
        · rfl
      obtain ⟨ts, l, hw, e⟩ := hc line
        (encode ";" ++ (encode " " ++ (encode (Statement.renderAll (s' :: ss)) ++ rest))) rfl
      obtain ⟨us, line', hw', e'⟩ := ih hss l rest hr
      refine ⟨ts ++ ⟨.semicolon, ";", l⟩ :: us, line', .statements hw rfl hw', ?_⟩
      rw [hn]
      simp only [encode_append, List.append_assoc]
      rw [e, scanFrom_punctuator ";" rfl rfl, scanFrom_blank, e']
      rfl

theorem scanFrom_block {k : Token} {ss : List Statement} (h : ∀ s ∈ ss, s.Canonical) (line : Nat)
    (rest : List UInt8) :
    ∃ us l, Writes (.statements ss) us ∧
      scanFrom line (encode (Block.render ⟨k, ss⟩) ++ rest) =
        ⟨.leftBrace, "\x7b", line⟩ :: us ++ ⟨.rightBrace, "\x7d", l⟩ :: scanFrom l rest := by
  have hs : Stops (encode (if ss.isEmpty then "\x7d" else " \x7d") ++ rest) := by
    split <;> exact rfl
  have hc : ∀ l, scanFrom l (encode (if ss.isEmpty then "\x7d" else " \x7d") ++ rest) =
      ⟨.rightBrace, "\x7d", l⟩ :: scanFrom l rest := by
    intro l
    split
    · exact scanFrom_punctuator "\x7d" rfl rfl l rest
    · have hb : " \x7d" = " " ++ "\x7d" := rfl
      rw [hb, encode_append, List.append_assoc, scanFrom_blank, scanFrom_punctuator "\x7d" rfl rfl]
  obtain ⟨us, l, hw, e⟩ := spells_statements h line _ hs
  refine ⟨us, l, hw, ?_⟩
  simp only [Block.render, encode_append, List.append_assoc]
  rw [scanFrom_spaced "\x7b" "\x7b " rfl rfl rfl, e, hc]
  rfl

/-! ### Nodes with brackets and blocks -/

namespace Expr.Canonical

theorem array {k : Token} {es : List Expr} (h : ∀ e ∈ es, e.Canonical) :
    (Expr.array k es).Canonical := by
  intro line rest hr
  obtain ⟨ts, l, hw, e⟩ := spells_items h line (encode "]" ++ rest) rfl
  refine ⟨⟨.leftBracket, "[", line⟩ :: ts ++ [⟨.rightBracket, "]", l⟩], l, .array rfl hw rfl, ?_⟩
  simp only [Expr.render, encode_append, List.append_assoc]
  rw [scanFrom_punctuator "[" rfl rfl, e, scanFrom_punctuator "]" rfl rfl]
  rfl

theorem hash {k : Token} {ps : List (Expr × Expr)}
    (h : ∀ p ∈ ps, p.1.Canonical ∧ p.2.Canonical) : (Expr.hash k ps).Canonical := by
  intro line rest hr
  obtain ⟨ts, l, hw, e⟩ := spells_pairs h line (encode "\x7d" ++ rest) rfl
  refine ⟨⟨.leftBrace, "\x7b", line⟩ :: ts ++ [⟨.rightBrace, "\x7d", l⟩], l, .hash rfl hw rfl, ?_⟩
  simp only [Expr.render, encode_append, List.append_assoc]
  rw [scanFrom_punctuator "\x7b" rfl rfl, e, scanFrom_punctuator "\x7d" rfl rfl]
  rfl

theorem call {k : Token} {callee : Expr} {arguments : List Expr} (h : callee.Canonical)
    (ha : ∀ e ∈ arguments, e.Canonical) : (Expr.call k callee arguments).Canonical := by
  intro line rest hr
  obtain ⟨ts, l, hw, e⟩ := h line (encode "(" ++
    (encode (", ".intercalate (Expr.renderAll arguments)) ++ (encode ")" ++ rest))) rfl
  obtain ⟨us, l', hi, e'⟩ := spells_items ha l (encode ")" ++ rest) rfl
  refine ⟨ts ++ ⟨.leftParen, "(", l⟩ :: us ++ [⟨.rightParen, ")", l'⟩], l',
    .call (Rule.le_call _) hw rfl hi rfl, ?_⟩
  simp only [Expr.render, encode_append, List.append_assoc]
  rw [e, scanFrom_punctuator "(" rfl rfl, e', scanFrom_punctuator ")" rfl rfl]
  rfl

theorem index {k : Token} {left i : Expr} (h : left.Canonical) (hi : i.Canonical) :
    (Expr.index k left i).Canonical := by
  intro line rest hr
  obtain ⟨ts, l, hw, e⟩ := h line
    (encode "[" ++ (encode i.render ++ (encode "]" ++ (encode ")" ++ rest)))) rfl
  obtain ⟨us, l', hw', e'⟩ := hi l (encode "]" ++ (encode ")" ++ rest)) rfl
  refine ⟨⟨.leftParen, "(", line⟩ ::
    (ts ++ ⟨.leftBracket, "[", l⟩ :: us ++ [⟨.rightBracket, "]", l'⟩]) ++
    [⟨.rightParen, ")", l'⟩], l', .paren rfl (.index (Rule.le_call _) hw rfl hw' rfl) rfl, ?_⟩
  have hb : "])" = "]" ++ ")" := rfl
  simp only [Expr.render, hb, encode_append, List.append_assoc]
  rw [scanFrom_punctuator "(" rfl rfl, e, scanFrom_punctuator "[" rfl rfl, e',
    scanFrom_punctuator "]" rfl rfl, scanFrom_punctuator ")" rfl rfl]
  simp only [List.cons_append, List.append_assoc, List.nil_append]

theorem function {k k' : Token} {ids : List Identifier} {ss : List Statement}
    (hi : ∀ id ∈ ids, id.Canonical) (h : ∀ s ∈ ss, s.Canonical) :
    (Expr.function ⟨k, ids, ⟨k', ss⟩, 0⟩).Canonical := by
  intro line rest hr
  have hf : "fn(" = "fn" ++ "(" := rfl
  have hs : ∀ t : List UInt8, Stops (encode "(" ++ t) := fun _ => rfl
  obtain ⟨us, l, hw, e⟩ := scanFrom_block (k := k') h line rest
  obtain ⟨ts, hn, e'⟩ : ∃ ts, WritesNames ids ts ∧
      scanFrom line (encode (", ".intercalate (ids.map Identifier.name)) ++
        (encode ") " ++ (encode (Block.render ⟨k', ss⟩) ++ rest))) =
        ts ++ scanFrom line (encode ") " ++ (encode (Block.render ⟨k', ss⟩) ++ rest)) := by
    cases ids with
    | nil => exact ⟨[], .nil, rfl⟩
    | cons id ids =>
      have hp : Stops (encode ") " ++ (encode (Block.render ⟨k', ss⟩) ++ rest)) := rfl
      obtain ⟨t, ts, ht, hl, hm, e'⟩ := scanFrom_names hi line hp
      exact ⟨t :: ts, .cons ht hl hm, e'⟩
  refine ⟨⟨.fnWord, "fn", line⟩ :: ⟨.leftParen, "(", line⟩ :: ts ++ ⟨.rightParen, ")", line⟩ ::
    ⟨.leftBrace, "\x7b", line⟩ :: us ++ [⟨.rightBrace, "\x7d", l⟩], l,
    .function rfl rfl hn rfl rfl hw rfl, ?_⟩
  simp only [Expr.render, FunctionLiteral.render, hf, encode_append, List.append_assoc]
  rw [scanFrom_word (s := "fn") rfl (hs _), scanFrom_punctuator "(" rfl rfl, e',
    scanFrom_spaced ")" ") " rfl rfl rfl, e]
  simp only [List.cons_append]
  rfl

/-- What the two forms of a conditional share. -/
theorem scanFrom_cond {k : Token} {condition : Expr} {ss : List Statement}
    (h : condition.Canonical) (hs : ∀ s ∈ ss, s.Canonical) (line : Nat) (rest : List UInt8) :
    ∃ ts us l l', Writes (.expression .call condition) ts ∧ Writes (.statements ss) us ∧
      scanFrom line (encode "if (" ++ (encode condition.render ++
        (encode ") " ++ (encode (Block.render ⟨k, ss⟩) ++ rest)))) =
        ⟨.ifWord, "if", line⟩ :: ⟨.leftParen, "(", line⟩ :: ts ++ ⟨.rightParen, ")", l⟩ ::
          ⟨.leftBrace, "\x7b", l⟩ :: us ++ ⟨.rightBrace, "\x7d", l'⟩ :: scanFrom l' rest := by
  obtain ⟨ts, l, hw, e⟩ := h line (encode ") " ++ (encode (Block.render ⟨k, ss⟩) ++ rest)) rfl
  obtain ⟨us, l', hb, e'⟩ := scanFrom_block (k := k) hs l rest
  have hi : "if (" = "if" ++ " " ++ "(" := rfl
  refine ⟨ts, us, l, l', hw, hb, ?_⟩
  simp only [hi, encode_append, List.append_assoc]
  rw [scanFrom_word (s := "if") rfl (stops_blank _), scanFrom_blank,
    scanFrom_punctuator "(" rfl rfl, e, scanFrom_spaced ")" ") " rfl rfl rfl, e']
  simp only [List.cons_append]
  rfl

theorem ifThen {k k' : Token} {condition : Expr} {ss : List Statement} (h : condition.Canonical)
    (hs : ∀ s ∈ ss, s.Canonical) : (Expr.cond k condition ⟨k', ss⟩ none).Canonical := by
  intro line rest hr
  obtain ⟨ts, us, l, l', hw, hb, e⟩ := scanFrom_cond (k := k') h hs line rest
  refine ⟨⟨.ifWord, "if", line⟩ :: ⟨.leftParen, "(", line⟩ :: ts ++ ⟨.rightParen, ")", l⟩ ::
    ⟨.leftBrace, "\x7b", l⟩ :: us ++ [⟨.rightBrace, "\x7d", l'⟩], l',
    .ifThen rfl rfl hw rfl rfl hb rfl, ?_⟩
  simp only [Expr.render, Block.renderElse, String.append_empty, encode_append, List.append_assoc]
  rw [e]
  simp only [List.cons_append, List.append_assoc, List.nil_append]

theorem ifElse {k k' k'' : Token} {condition : Expr} {ss ss' : List Statement}
    (h : condition.Canonical) (hs : ∀ s ∈ ss, s.Canonical) (hs' : ∀ s ∈ ss', s.Canonical) :
    (Expr.cond k condition ⟨k', ss⟩ (some ⟨k'', ss'⟩)).Canonical := by
  intro line rest hr
  obtain ⟨ts, us, l, l', hw, hb, e⟩ := scanFrom_cond (k := k') h hs line
    (encode " else " ++ (encode (Block.render ⟨k'', ss'⟩) ++ rest))
  obtain ⟨vs, l'', hb', e'⟩ := scanFrom_block (k := k'') hs' l' rest
  have he : " else " = " " ++ "else" ++ " " := rfl
  refine ⟨⟨.ifWord, "if", line⟩ :: ⟨.leftParen, "(", line⟩ :: ts ++ ⟨.rightParen, ")", l⟩ ::
    ⟨.leftBrace, "\x7b", l⟩ :: us ++ ⟨.rightBrace, "\x7d", l'⟩ :: ⟨.elseWord, "else", l'⟩ ::
    ⟨.leftBrace, "\x7b", l'⟩ :: vs ++ [⟨.rightBrace, "\x7d", l''⟩], l'',
    .ifElse rfl rfl hw rfl rfl hb rfl rfl rfl hb' rfl, ?_⟩
  simp only [Expr.render, Block.renderElse, encode_append, List.append_assoc]
  rw [e, he]
  simp only [encode_append, List.append_assoc]
  rw [scanFrom_blank, scanFrom_word (s := "else") rfl (stops_blank _), scanFrom_blank, e']
  simp only [List.cons_append, List.nil_append]
  rfl

end Expr.Canonical

/-! ### Trees that are read -/

namespace Token.WellSpelt

theorem identifier {t : Token} (h : t.WellSpelt) (ht : t.kind = .identifier) :
    (Identifier.ofToken t).Canonical := by
  unfold WellSpelt at h
  rw [ht] at h
  exact h

theorem integer {t : Token} (h : t.WellSpelt) (ht : t.kind = .integer) {value : Int64}
    (hv : Decimal.int64? t.literal = some value) : 0 ≤ value.toInt := by
  unfold WellSpelt at h
  rw [ht] at h
  exact Decimal.nonneg_of_int64? hv h

theorem string {t : Token} (h : t.WellSpelt) (ht : t.kind = .string) : '"' ∉ t.literal.toList := by
  unfold WellSpelt at h
  rw [ht] at h
  exact h

end Token.WellSpelt

/-- Tokens as the scanner spells them. -/
def Spelt (ts : List Token) : Prop :=
  ∀ t ∈ ts, t.WellSpelt

namespace Spelt

theorem head {t : Token} {ts : List Token} (h : Spelt (t :: ts)) : t.WellSpelt :=
  h t List.mem_cons_self

theorem tail {t : Token} {ts : List Token} (h : Spelt (t :: ts)) : Spelt ts :=
  fun t' ht => h t' (List.mem_cons_of_mem t ht)

theorem suffix {ts us : List Token} (h : Spelt ts) (hs : us <:+ ts) : Spelt us :=
  fun t ht => h t (hs.subset ht)

/-- What a rule leaves is spelt as well as what it is given. -/
theorem rest {j : Rule.Judgement} (hj : Rule.Derives j) (h : Spelt j.given) : Spelt j.rest :=
  h.suffix (Rule.suffix_of_derives hj)

theorem parameters {ts rest : List Token} {ids : List Identifier} (h : Spelt ts)
    (hp : Rule.Yields (Rule.parameters ts) ids rest) : ∀ id ∈ ids, id.Canonical := by
  intro id hid
  obtain ⟨t, ht, hk, rfl⟩ := Rule.mem_of_parameters hp hid
  exact (h t ht).identifier hk

end Spelt

/-- That what a rule reads is canonical, if its tokens are well spelt. -/
def Rule.Judgement.Canonical : Rule.Judgement → Prop
  | expression _ ts e _ | operand ts e _ => Spelt ts → e.Canonical
  | extension _ left ts e _ => Spelt ts → left.Canonical → e.Canonical
  | items _ ts es _ | moreItems _ ts es _ => Spelt ts → ∀ e ∈ es, e.Canonical
  | pairs ts ps _ => Spelt ts → ∀ p ∈ ps, p.1.Canonical ∧ p.2.Canonical
  | block ts ss _ => Spelt ts → ∀ s ∈ ss, s.Canonical
  | statement ts s _ => Spelt ts → s.Canonical

/-- Every node that is read from well-spelt tokens is canonical. -/
theorem canonical_of_derives {j : Rule.Judgement} (h : Rule.Derives j) : j.Canonical := by
  induction h with
  | expression ho he iho ihe => exact fun h => ihe (Spelt.rest ho h) (iho h)
  | stop => exact fun _ hl => hl
  | infixOp ht hl hr he ihr ihe =>
    exact fun h hleft => ihe (Spelt.rest hr h.tail) (.infixOp hleft (ihr h.tail))
  | call ht hl hi he ihi ihe =>
    exact fun h hleft => ihe (Spelt.rest hi h.tail) (.call hleft (ihi h.tail))
  | index ht hl hi hc he ihi ihe =>
    exact fun h hleft => ihe (Spelt.rest hi h.tail).tail (.index hleft (ihi h.tail))
  | identifier ht =>
    intro h
    obtain ⟨hw, hk⟩ := h.head.identifier ht
    exact .identifier hw hk
  | integer ht hv => exact fun h => .integer (h.head.integer ht hv)
  | string ht => exact fun h => .string (h.head.string ht)
  | true ht | false ht => exact fun _ => .boolean
  | bang ht hr ihr | minus ht hr ihr => exact fun h => .prefixOp (ihr h.tail)
  | group ht he hc ihe => exact fun h => ihe h.tail
  | array ht hi ihi => exact fun h => .array (ihi h.tail)
  | hash ht hp ihp => exact fun h => .hash (ihp h.tail)
  | ifThen ht ho he hc hb hs hn ihe ihs =>
    intro h
    have hr := (Spelt.rest he h.tail.tail).tail.tail
    exact .ifThen (ihe h.tail.tail) (ihs hr)
  | ifElse ht ho he hc hb hs hw hb' hs' ihe ihs ihs' =>
    intro h
    have hr := (Spelt.rest he h.tail.tail).tail.tail
    exact .ifElse (ihe h.tail.tail) (ihs hr) (ihs' (Spelt.rest hs hr).tail.tail)
  | function ht ho hn hb hs ihs =>
    intro h
    have hr := h.tail.tail.suffix ((Rule.orderly_parameters _).suffix hn)
    exact .function (h.tail.tail.parameters hn) (ihs hr.tail)
  | noItems | noMoreItems | noPairs | openBlock | closeBlock => exact fun _ _ hx => nomatch hx
  | items hn he hm ihe ihm =>
    exact fun h => List.forall_mem_cons.2 ⟨ihe h, ihm (Spelt.rest he h)⟩
  | moreItems hm he hi ihe ihi =>
    exact fun h => List.forall_mem_cons.2 ⟨ihe h.tail, ihi (Spelt.rest he h.tail)⟩
  | lastPair hn hk hm hv hc ihk ihv =>
    intro h p hp
    rw [List.mem_singleton.1 hp]
    exact ⟨ihk h, ihv (Spelt.rest hk h).tail⟩
  | pairs hn hk hm hv hc hp ihk ihv ihp =>
    intro h
    have hr := (Spelt.rest hk h).tail
    exact List.forall_mem_cons.2 ⟨⟨ihk h, ihv hr⟩, ihp (Spelt.rest hv hr).tail⟩
  | block hn hs hb ihs ihb => exact fun h => List.forall_mem_cons.2 ⟨ihs h, ihb (Spelt.rest hs h)⟩
  | letBind ht hi hq he ihe =>
    intro h
    exact .letBind (h.tail.head.identifier hi) (ihe h.tail.tail.tail)
  | returnNothing => exact fun _ => .returnNothing
  | returnValue ht hn he ihe => exact fun h => .returnValue (ihe h.tail)
  | expressionStatement hl hr he ihe => exact fun h => .expression (ihe h)

end Monkey
