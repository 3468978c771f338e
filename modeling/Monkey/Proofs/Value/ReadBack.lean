import Mathlib.Data.List.Forall2
import Monkey.Proofs.Eval.Rules
import Monkey.Proofs.Eval.Tokens
import Monkey.Proofs.Syntax.Recovery
import Monkey.Proofs.Syntax.Writing
import Monkey.Proofs.Token.Scan
import Monkey.Value.Render

/-!
  Monkey/Proofs/Value/ReadBack.lean
  =================================
  **The text of a plain value is a program that gives the value.**

  A plain value is built from integers, booleans and arrays.  Its text is scanned as its
  tokens (`Value.Plain.spelt`), in which an integer below zero takes two: a sign and the
  digits of its opposite.  What is read from them is an expression that quotes the value
  (`Value.Plain.quoted`): the sign is an operator, which evaluation applies.

  The digits of `-2^63` are out of the range of integers, though the value is not.  Where
  it stands in a value, at the first place where it does, reading fails; as no statement
  ends inside the text of a plain value, it does not go on (`Value.Plain.overflows`).
-/
namespace Monkey

open Text Utf8 Token

/-! ### Plain values -/

/-- A value that is built from integers, booleans and arrays of such values. -/
inductive Value.Plain : Value → Prop where
  | integer (i : Int64) : Plain (.integer i)
  | boolean (b : Bool) : Plain (.boolean b)
  | array {vs : List Value} (h : ∀ v ∈ vs, Plain v) : Plain (.array vs)

/-- Whether a value is a given integer or an array in which, at whatever depth, the integer
    stands. -/
inductive Value.Contains (i : Int64) : Value → Prop where
  | integer : Contains i (.integer i)
  | array {v : Value} {vs : List Value} (hv : v ∈ vs) (h : Contains i v) : Contains i (.array vs)

@[simp]
theorem Value.plain_integer (i : Int64) : (Value.integer i).Plain :=
  .integer i

@[simp]
theorem Value.plain_boolean (b : Bool) : (Value.boolean b).Plain :=
  .boolean b

@[simp]
theorem Value.plain_array_iff {vs : List Value} :
    (Value.array vs).Plain ↔ ∀ v ∈ vs, v.Plain := by
  constructor
  · intro h
    cases h with
    | array h => exact h
  · exact .array

@[simp]
theorem Value.contains_integer_iff {i j : Int64} : (Value.integer j).Contains i ↔ j = i := by
  constructor
  · rintro ⟨⟩
    rfl
  · rintro rfl
    exact .integer

@[simp]
theorem Value.not_contains_boolean {i : Int64} {b : Bool} : ¬ (Value.boolean b).Contains i := by
  rintro ⟨⟩

@[simp]
theorem Value.contains_array_iff {i : Int64} {vs : List Value} :
    (Value.array vs).Contains i ↔ ∃ v ∈ vs, v.Contains i := by
  constructor
  · rintro (_ | ⟨hv, h⟩)
    exact ⟨_, hv, h⟩
  · rintro ⟨v, hv, h⟩
    exact .array hv h

theorem Value.Plain.unwrapReturn {v : Value} (h : v.Plain) : v.unwrapReturn = v := by
  cases h <;> rfl

/-! ### Their tokens -/

mutual

/-- The tokens of a plain value, all on one line. -/
def Value.tokens (line : Nat) : Value → List Token
  | .integer i =>
    if i.toInt < 0 then [⟨.minus, "-", line⟩, ⟨.integer, Decimal.ofInt (-i.toInt), line⟩]
    else [⟨.integer, Decimal.ofInt i.toInt, line⟩]
  | .boolean true => [⟨.trueWord, "true", line⟩]
  | .boolean false => [⟨.falseWord, "false", line⟩]
  | .array vs =>
    ⟨.leftBracket, "[", line⟩ :: Value.itemTokens line vs ++ [⟨.rightBracket, "]", line⟩]
  | _ => []

/-- The tokens of values with commas between them. -/
def Value.itemTokens (line : Nat) : List Value → List Token
  | [] => []
  | v :: vs => v.tokens line ++ Value.moreTokens line vs

/-- The tokens of values, each behind a comma. -/
def Value.moreTokens (line : Nat) : List Value → List Token
  | [] => []
  | v :: vs => ⟨.comma, ",", line⟩ :: v.tokens line ++ Value.moreTokens line vs

end

/-- Behind any number of values that each stand behind a comma, an expression still ends. -/
theorem Value.precedence_kindAt_moreTokens {line : Nat} {vs : List Value} {rest : List Token}
    (h : Precedence.of (kindAt rest) = .lowest) :
    Precedence.of (kindAt (Value.moreTokens line vs ++ rest)) = .lowest := by
  cases vs with
  | nil => exact h
  | cons => rfl

theorem Value.mem_moreTokens {line : Nat} {vs : List Value} {t : Token}
    (h : t ∈ Value.moreTokens line vs) :
    t = ⟨.comma, ",", line⟩ ∨ ∃ v ∈ vs, t ∈ v.tokens line := by
  induction vs with
  | nil => cases h
  | cons v vs ih =>
    rw [Value.moreTokens, List.mem_append, List.mem_cons] at h
    rcases h with (h | h) | h
    · exact .inl h
    · exact .inr ⟨v, List.mem_cons_self, h⟩
    · rcases ih h with h | ⟨w, hw, h⟩
      · exact .inl h
      · exact .inr ⟨w, List.mem_cons_of_mem v hw, h⟩

theorem Value.mem_itemTokens {line : Nat} {vs : List Value} {t : Token}
    (h : t ∈ Value.itemTokens line vs) :
    t = ⟨.comma, ",", line⟩ ∨ ∃ v ∈ vs, t ∈ v.tokens line := by
  cases vs with
  | nil => cases h
  | cons v vs =>
    rcases List.mem_append.1 h with h | h
    · exact .inr ⟨v, List.mem_cons_self, h⟩
    · rcases Value.mem_moreTokens h with h | ⟨w, hw, h⟩
      · exact .inl h
      · exact .inr ⟨w, List.mem_cons_of_mem v hw, h⟩

namespace Value.Plain

variable {v : Value}

theorem starts_tokens (h : v.Plain) (line : Nat) :
    ∃ t ts, v.tokens line = t :: ts ∧ Rule.StartsExpression t.kind := by
  cases h with
  | integer i =>
    rw [Value.tokens]
    split <;> exact ⟨_, _, rfl, by simp [Rule.StartsExpression]⟩
  | boolean b => cases b <;> exact ⟨_, _, rfl, by simp [Rule.StartsExpression]⟩
  | array => exact ⟨_, _, rfl, by simp [Rule.StartsExpression]⟩

theorem kindAt_ne (h : v.Plain) (line : Nat) (rest : List Token) :
    kindAt (v.tokens line ++ rest) ≠ .rightBracket := by
  obtain ⟨t, ts, ht, hstart⟩ := h.starts_tokens line
  rw [ht]
  exact hstart.ne (by decide)

theorem kind_of_mem {line : Nat} {t : Token} (h : v.Plain) (ht : t ∈ v.tokens line) :
    t.kind ∈
      [Kind.minus, .integer, .trueWord, .falseWord, .leftBracket, .comma, .rightBracket] := by
  induction h with
  | integer i =>
    rw [Value.tokens] at ht
    split at ht
    · rcases List.mem_pair.1 ht with rfl | rfl <;> simp
    · rw [List.mem_singleton.1 ht]
      simp
  | boolean b =>
    cases b <;>
    · rw [List.mem_singleton.1 ht]
      simp
  | array _ ih =>
    rw [Value.tokens, List.mem_append, List.mem_cons, List.mem_singleton] at ht
    rcases ht with (rfl | ht) | rfl
    · simp
    · rcases Value.mem_itemTokens ht with rfl | ⟨v, hv, ht⟩
      · simp
      · exact ih v hv ht
    · simp

/-- No statement ends inside of the tokens. -/
theorem not_boundary {line : Nat} {t : Token} (h : v.Plain) (ht : t ∈ v.tokens line) :
    ¬ Rule.Boundary t ∧ t.kind ≠ .endOfInput := by
  have hk := h.kind_of_mem ht
  rw [Rule.Boundary]
  generalize t.kind = k at hk
  decide +revert

end Value.Plain

/-! ### Scanning -/

section

variable {o : Enumeration}

theorem Value.render_integer (i : Int64) : (Value.integer i).render o = Decimal.ofInt i.toInt :=
  rfl

theorem Value.render_array (vs : List Value) :
    (Value.array vs).render o = "[" ++ ", ".intercalate (Value.renderAll o vs) ++ "]" :=
  rfl

theorem Value.renderAll_cons (v : Value) (vs : List Value) :
    Value.renderAll o (v :: vs) = v.render o :: Value.renderAll o vs :=
  rfl

/-- In front of whatever does not go on a word or a numeral, the text of a value is scanned
    as its tokens. -/
def Value.Spelt (o : Enumeration) (line : Nat) (v : Value) : Prop :=
  ∀ rest, Stops rest →
    scanFrom line (encode (v.render o) ++ rest) = v.tokens line ++ scanFrom line rest

theorem Value.scanFrom_items {line : Nat} {v : Value} {vs : List Value}
    (h : ∀ w ∈ v :: vs, w.Spelt o line) {rest : List UInt8} (hr : Stops rest) :
    scanFrom line (encode (", ".intercalate (Value.renderAll o (v :: vs))) ++ rest) =
      Value.itemTokens line (v :: vs) ++ scanFrom line rest := by
  induction vs generalizing v with
  | nil =>
    have hv := h v List.mem_cons_self rest hr
    rw [Value.renderAll_cons, Value.renderAll, String.intercalate_singleton, hv, Value.itemTokens,
      Value.moreTokens, List.append_nil]
  | cons w vs ih =>
    obtain ⟨hv, hvs⟩ := List.forall_mem_cons.1 h
    have hv := hv (encode ", " ++
      (encode (", ".intercalate (Value.renderAll o (w :: vs))) ++ rest)) rfl
    have hvs := ih hvs
    simp only [Value.renderAll_cons, Value.itemTokens] at hv hvs
    simp only [Value.renderAll_cons, Value.itemTokens, Value.moreTokens,
      String.intercalate_cons_cons, encode_append, List.append_assoc]
    rw [hv, scanFrom_spaced "," ", " rfl rfl rfl, hvs]
    simp only [List.cons_append, List.append_assoc]

theorem Value.Plain.spelt {v : Value} (h : v.Plain) (line : Nat) : v.Spelt o line := by
  induction h with
  | integer i =>
    intro rest hr
    rw [Value.render_integer, Value.tokens]
    split
    · rename_i hi
      have hn : 0 ≤ -i.toInt := by omega
      rw [Decimal.ofInt_of_neg hi, encode_append, List.append_assoc,
        scanFrom_punctuator "-" rfl rfl, scanFrom_numeral (isNumeral_ofInt hn) hr]
      rfl
    · rename_i hi
      rw [scanFrom_numeral (isNumeral_ofInt (Int.not_lt.1 hi)) hr]
      rfl
  | boolean b =>
    intro rest hr
    cases b with
    | true => exact scanFrom_word (s := "true") rfl hr line
    | false => exact scanFrom_word (s := "false") rfl hr line
  | @array vs _ ih =>
    intro rest hr
    have hitems : scanFrom line (encode (", ".intercalate (Value.renderAll o vs)) ++
        (encode "]" ++ rest)) = Value.itemTokens line vs ++ scanFrom line (encode "]" ++ rest) := by
      cases vs with
      | nil => rfl
      | cons v vs => exact Value.scanFrom_items ih rfl
    simp only [Value.render_array, Value.tokens, encode_append, List.append_assoc]
    rw [scanFrom_punctuator "[" rfl rfl, hitems, scanFrom_punctuator "]" rfl rfl]
    simp only [List.cons_append, List.nil_append]

/-- The tokens of the text of a plain value as a program. -/
theorem Value.Plain.scan_render {v : Value} (h : v.Plain) :
    scan (encode (v.render o)) = v.tokens 1 ++ [⟨.endOfInput, "", 1⟩] := by
  have hspelt : v.Spelt o 1 := h.spelt 1
  have hs := hspelt [] trivial
  rw [List.append_nil, scanFrom_nil] at hs
  exact hs

end

/-! ### Expressions that quote values -/

/-- An expression without function literals that evaluates to a given value, wherever it
    stands, and changes nothing. -/
structure Expr.Quotes (x : Expr) (v : Value) : Prop where
  label : ∀ n, x.label.run n = (x, n)
  gives : ∀ σ e, Store.Gives σ e (.expression x) v σ
  isSignal : v.isSignal = false

namespace Expr.Quotes

theorem integer (t : Token) (i : Int64) : (Expr.integer t i).Quotes (.integer i) where
  label _ := rfl
  gives _ _ := .integer t i
  isSignal := rfl

theorem boolean (t : Token) (b : Bool) : (Expr.boolean t b).Quotes (.boolean b) where
  label _ := rfl
  gives _ _ := .boolean t b
  isSignal := rfl

theorem negative (t : Token) {x : Expr} {i : Int64} (h : x.Quotes (.integer i)) :
    (Expr.prefixOp t .minus x).Quotes (.integer (-i)) where
  label n := by
    have hx : x.label n = (x, n) := h.label n
    simp only [Expr.label, StateT.run, bind, StateT.bind, hx]
    rfl
  gives σ e := (h.gives σ e).prefixOp t .minus rfl
  isSignal := rfl

theorem labelAll {xs : List Expr} {vs : List Value} (h : List.Forall₂ Quotes xs vs) (n : Nat) :
    (Expr.labelAll xs).run n = (xs, n) := by
  induction h with
  | nil => rfl
  | @cons x _ xs _ hx _ ih =>
    have hx : x.label n = (x, n) := hx.label n
    have hxs : Expr.labelAll xs n = (xs, n) := ih
    simp only [Expr.labelAll, StateT.run, bind, StateT.bind, hx, hxs]
    rfl

theorem givesAll {xs : List Expr} {vs : List Value} (h : List.Forall₂ Quotes xs vs) (σ : Store)
    (e : ScopeId) : Store.GivesAll e σ xs vs σ := by
  induction h with
  | nil => exact .nil
  | cons hx _ ih => exact .cons (hx.gives σ e) hx.isSignal ih

theorem array (t : Token) {xs : List Expr} {vs : List Value} (h : List.Forall₂ Quotes xs vs) :
    (Expr.array t xs).Quotes (.array vs) where
  label n := by
    have hxs : Expr.labelAll xs n = (xs, n) := labelAll h n
    simp only [Expr.label, StateT.run, bind, StateT.bind, hxs]
    rfl
  gives σ e := .array t (givesAll h σ e)
  isSignal := rfl

end Expr.Quotes

/-! ### Reading -/

namespace Rule

theorem Derives.alone {ts rest : List Token} {x : Expr} (h : Derives (.operand ts x rest))
    (hr : Precedence.of (kindAt rest) = .lowest) (level : Precedence) :
    Derives (.expression level ts x rest) := by
  refine .expression h (.stop ?_)
  rw [hr]
  exact not_lt_lowest level

theorem derives_numeral {s : String} {i : Int64} (h : Decimal.int64? s = some i) (line : Nat)
    (rest : List Token) : Derives (.operand (⟨.integer, s, line⟩ :: rest)
      (.integer ⟨.integer, s, line⟩ i) rest) :=
  .integer rfl h

theorem expression_of_operand_error {ts : List Token} {f : Failure} (h : operand ts = .error f)
    (level : Precedence) : expression level ts = .error f := by
  rw [expression]
  exact bind_of_error h

theorem statement_of_expression_error {t : Token} {ts : List Token} {f : Failure}
    (ht : StartsExpression t.kind) (h : expression .lowest (t :: ts) = .error f) :
    statement (t :: ts) = .error f := by
  rw [statement]
  split
  · rename_i hk
    exact absurd hk (ht.ne (by decide))
  · rename_i hk
    exact absurd hk (ht.ne (by decide))
  · exact bind_of_error h

end Rule

/-- The tokens of the value are read as an expression that quotes it, where nothing behind
    them extends an expression. -/
def Value.Quoted (line : Nat) (v : Value) : Prop :=
  ∃ x : Expr, x.Quotes v ∧ ∀ level rest, Precedence.of (kindAt rest) = .lowest →
    Rule.Derives (.expression level (v.tokens line ++ rest) x rest)

theorem Value.Quoted.yields {line : Nat} {v : Value} (h : v.Quoted line) {rest : List Token}
    (hr : Precedence.of (kindAt rest) = .lowest) :
    ∃ x, Rule.Yields (Rule.expression .lowest (v.tokens line ++ rest)) x rest := by
  obtain ⟨x, -, hread⟩ := h
  exact ⟨x, Rule.holds_of_derives (hread .lowest rest hr)⟩

theorem Value.exists_moreItems {line : Nat} {vs : List Value} (h : ∀ v ∈ vs, v.Quoted line) :
    ∃ xs, List.Forall₂ Expr.Quotes xs vs ∧ ∀ rest, Rule.Derives (.moreItems .rightBracket
      (Value.moreTokens line vs ++ ⟨.rightBracket, "]", line⟩ :: rest) xs rest) := by
  induction vs with
  | nil => exact ⟨[], .nil, fun rest => .noMoreItems (by simp) rfl⟩
  | cons v vs ih =>
    obtain ⟨⟨x, hx, hread⟩, hvs⟩ := List.forall_mem_cons.1 h
    obtain ⟨xs, hxs, hreads⟩ := ih hvs
    refine ⟨x :: xs, .cons hx hxs, fun rest => ?_⟩
    rw [Value.moreTokens, List.cons_append, List.cons_append, List.append_assoc]
    exact .moreItems rfl (hread .lowest _ (Value.precedence_kindAt_moreTokens rfl)) (hreads rest)

theorem Value.exists_items {line : Nat} {vs : List Value} (hp : ∀ v ∈ vs, v.Plain)
    (h : ∀ v ∈ vs, v.Quoted line) :
    ∃ xs, List.Forall₂ Expr.Quotes xs vs ∧ ∀ rest, Rule.Derives (.items .rightBracket
      (Value.itemTokens line vs ++ ⟨.rightBracket, "]", line⟩ :: rest) xs rest) := by
  cases vs with
  | nil => exact ⟨[], .nil, fun rest => .noItems rfl⟩
  | cons v vs =>
    obtain ⟨⟨x, hx, hread⟩, hvs⟩ := List.forall_mem_cons.1 h
    obtain ⟨xs, hxs, hreads⟩ := Value.exists_moreItems hvs
    refine ⟨x :: xs, .cons hx hxs, fun rest => ?_⟩
    rw [Value.itemTokens, List.append_assoc]
    exact .items ((hp v List.mem_cons_self).kindAt_ne line _)
      (hread .lowest _ (Value.precedence_kindAt_moreTokens rfl)) (hreads rest)

theorem Value.quoted_array {line : Nat} {vs : List Value} (hp : ∀ v ∈ vs, v.Plain)
    (h : ∀ v ∈ vs, v.Quoted line) : (Value.array vs).Quoted line := by
  obtain ⟨xs, hxs, hreads⟩ := Value.exists_items hp h
  refine ⟨.array ⟨.leftBracket, "[", line⟩ xs, .array _ hxs, fun level rest hr => ?_⟩
  rw [Value.tokens, List.append_assoc, List.singleton_append, List.cons_append]
  exact .alone (.array rfl (hreads rest)) hr level

theorem Value.quoted_integer {i : Int64} (h : i ≠ Int64.minValue) (line : Nat) :
    (Value.integer i).Quoted line := by
  rw [Value.Quoted, Value.tokens]
  split
  · rename_i hneg
    have hv := Decimal.int64?_ofInt_neg h hneg
    -- the sign is read back as an operator, whose operand is the opposite
    have hx := (Expr.Quotes.integer ⟨.integer, Decimal.ofInt (-i.toInt), line⟩ (-i)).negative
      ⟨.minus, "-", line⟩
    rw [Int64.neg_neg] at hx
    refine ⟨_, hx, fun level rest hr => ?_⟩
    exact .alone (.minus rfl (.alone (Rule.derives_numeral hv line rest) hr .prefixOp)) hr level
  · rename_i hneg
    have hv := Decimal.int64?_ofInt (Int.not_lt.1 hneg)
    refine ⟨_, .integer ⟨.integer, Decimal.ofInt i.toInt, line⟩ i, fun level rest hr => ?_⟩
    exact .alone (Rule.derives_numeral hv line rest) hr level

theorem Value.quoted_boolean (b : Bool) (line : Nat) : (Value.boolean b).Quoted line := by
  cases b with
  | true =>
    refine ⟨_, .boolean ⟨.trueWord, "true", line⟩ true, fun level rest hr => ?_⟩
    exact .alone (.true rfl) hr level
  | false =>
    refine ⟨_, .boolean ⟨.falseWord, "false", line⟩ false, fun level rest hr => ?_⟩
    exact .alone (.false rfl) hr level

/-- The tokens of a plain value without `-2^63` are read. -/
theorem Value.Plain.quoted {v : Value} (h : v.Plain) (hm : ¬ v.Contains Int64.minValue)
    (line : Nat) : v.Quoted line := by
  induction h with
  | integer i =>
    refine Value.quoted_integer ?_ line
    rintro rfl
    exact hm .integer
  | boolean b => exact Value.quoted_boolean b line
  | array hvs ih =>
    exact Value.quoted_array hvs fun v hv => ih v hv fun hc => hm (.array hv hc)

/-! ### Failing to read -/

/-- The digits of `-2^63` without the sign. -/
def Value.minDigits : String := "9223372036854775808"

theorem Value.ofInt_neg_minValue : Decimal.ofInt (-Int64.minValue.toInt) = minDigits := by
  decide +kernel

/-- The failure in front of these digits; `behind` are the tokens behind them. -/
def Value.overflow (line : Nat) (behind : List Token) : Failure :=
  ⟨.notAnInteger minDigits, ⟨.integer, minDigits, line⟩ :: behind⟩

/-- The reading of the tokens of the value fails in front of the digits of `-2^63`. -/
def Value.Overflows (line : Nat) (v : Value) : Prop :=
  ∀ level rest, ∃ behind,
    Rule.expression level (v.tokens line ++ rest) = .error (overflow line behind)

theorem Value.overflows_integer (line : Nat) : (Value.integer Int64.minValue).Overflows line := by
  intro level rest
  have hdigits : Rule.operand (⟨.integer, minDigits, line⟩ :: rest) =
      .error (overflow line rest) := by
    have hnone := Decimal.int64?_ofInt_neg_minValue
    rw [Value.ofInt_neg_minValue] at hnone
    rw [Rule.operand]
    simp only [hnone]
    rfl
  have hneg : Int64.minValue.toInt < 0 := by decide
  refine ⟨rest, Rule.expression_of_operand_error ?_ level⟩
  rw [Value.tokens, if_pos hneg, Value.ofInt_neg_minValue, List.cons_append, List.cons_append,
    List.nil_append, Rule.operand]
  exact Rule.bind_of_error (Rule.expression_of_operand_error hdigits .prefixOp)

/-- What becomes of the tokens of a value: they are read, unless `-2^63` stands in it. -/
structure Value.ReadOrFails (line : Nat) (v : Value) : Prop where
  quoted : ¬ v.Contains Int64.minValue → v.Quoted line
  overflows : v.Contains Int64.minValue → v.Overflows line

section Elements

variable {line : Nat} {vs : List Value} {rest : List Token}

/-- If `-2^63` stands in the first of some values, then the reading of its tokens fails.  If
    not, they are read, and it is left to what reads the tokens of the others. -/
theorem Value.elements_error {v : Value}
    {g : Expr × Rule.Shorter (v.tokens line ++ (Value.moreTokens line vs ++ rest)) →
      Except Failure β}
    (hr : Precedence.of (kindAt rest) = .lowest) (h : v.ReadOrFails line)
    (hex : ∃ w ∈ v :: vs, w.Contains Int64.minValue)
    (hg : (∃ w ∈ vs, w.Contains Int64.minValue) → ∃ behind, ∀ x h,
      g (x, ⟨Value.moreTokens line vs ++ rest, h⟩) = .error (overflow line behind)) :
    ∃ behind, Rule.expression .lowest (v.tokens line ++ (Value.moreTokens line vs ++ rest)) >>= g =
      .error (overflow line behind) := by
  by_cases hv : v.Contains Int64.minValue
  · obtain ⟨behind, he⟩ := h.overflows hv .lowest (Value.moreTokens line vs ++ rest)
    exact ⟨behind, Rule.bind_of_error he⟩
  · have hexs : ∃ w ∈ vs, w.Contains Int64.minValue := by
      simpa only [List.exists_mem_cons_iff, hv, false_or] using hex
    obtain ⟨x, hx⟩ := (h.quoted hv).yields (Value.precedence_kindAt_moreTokens hr)
    obtain ⟨behind, he⟩ := hg hexs
    exact ⟨behind, hx.bind_error (he x)⟩

theorem Value.moreItems_error (hr : Precedence.of (kindAt rest) = .lowest)
    (h : ∀ v ∈ vs, v.ReadOrFails line) (hex : ∃ v ∈ vs, v.Contains Int64.minValue) :
    ∃ behind, Rule.moreItems .rightBracket (Value.moreTokens line vs ++ rest) =
      .error (overflow line behind) := by
  induction vs with
  | nil =>
    obtain ⟨v, hv, -⟩ := hex
    cases hv
  | cons v vs ih =>
    obtain ⟨hv, hvs⟩ := List.forall_mem_cons.1 h
    rw [Value.moreTokens, List.cons_append, List.cons_append, List.append_assoc, Rule.moreItems,
      if_pos rfl]
    refine Value.elements_error hr hv hex fun hexs => ?_
    obtain ⟨behind, he⟩ := ih hvs hexs
    exact ⟨behind, fun _ _ => Rule.bind_of_error he⟩

theorem Value.items_error (hr : Precedence.of (kindAt rest) = .lowest)
    (hp : ∀ v ∈ vs, v.Plain) (h : ∀ v ∈ vs, v.ReadOrFails line)
    (hex : ∃ v ∈ vs, v.Contains Int64.minValue) :
    ∃ behind, Rule.items .rightBracket (Value.itemTokens line vs ++ rest) =
      .error (overflow line behind) := by
  cases vs with
  | nil =>
    obtain ⟨v, hv, -⟩ := hex
    cases hv
  | cons v vs =>
    obtain ⟨hv, hvs⟩ := List.forall_mem_cons.1 h
    have hopen := (hp v List.mem_cons_self).kindAt_ne line (Value.moreTokens line vs ++ rest)
    rw [Value.itemTokens, List.append_assoc, Rule.items, if_neg hopen]
    refine Value.elements_error hr hv hex fun hexs => ?_
    obtain ⟨behind, he⟩ := Value.moreItems_error hr hvs hexs
    exact ⟨behind, fun _ _ => Rule.bind_of_error he⟩

theorem Value.overflows_array (hp : ∀ v ∈ vs, v.Plain) (h : ∀ v ∈ vs, v.ReadOrFails line)
    (hex : ∃ v ∈ vs, v.Contains Int64.minValue) : (Value.array vs).Overflows line := by
  intro level rest
  have hitems : ∃ behind, Rule.items .rightBracket (Value.itemTokens line vs ++
      ⟨.rightBracket, "]", line⟩ :: rest) = .error (overflow line behind) :=
    Value.items_error rfl hp h hex
  obtain ⟨behind, he⟩ := hitems
  refine ⟨behind, Rule.expression_of_operand_error ?_ level⟩
  rw [Value.tokens, List.cons_append, List.cons_append, List.append_assoc, List.singleton_append,
    Rule.operand]
  exact Rule.bind_of_error he

end Elements

/-- Where `-2^63` stands in a plain value, reading fails. -/
theorem Value.Plain.overflows {v : Value} (h : v.Plain) (hm : v.Contains Int64.minValue)
    (line : Nat) : v.Overflows line := by
  induction h with
  | integer i =>
    cases hm
    exact Value.overflows_integer line
  | boolean b => cases hm
  | @array vs hvs ih =>
    have hreads : ∀ v ∈ vs, v.ReadOrFails line := by
      intro v hv
      exact { quoted := fun hm => (hvs v hv).quoted hm line, overflows := ih v hv }
    exact Value.overflows_array hvs hreads (Value.contains_array_iff.1 hm)

/-! ### Programs -/

namespace Value.Plain

variable {v : Value}

theorem rounds_tokens (h : v.Plain) (hm : ¬ v.Contains Int64.minValue) (line : Nat) :
    ∃ t x, Expr.Quotes x v ∧ Rule.rounds (v.tokens line) = [.expression t x].map .ok := by
  obtain ⟨x, hx, hread⟩ := h.quoted hm line
  have hd := hread .lowest [] rfl
  obtain ⟨t, ts, ht, hstart⟩ := h.starts_tokens line
  rw [ht, List.append_nil] at hd
  have hs := Rule.Derives.expressionStatement (hstart.ne (by decide)) (hstart.ne (by decide)) hd
  obtain ⟨_, he⟩ := Rule.holds_of_derives hs
  refine ⟨t, x, hx, ?_⟩
  rw [ht, Rule.rounds_of_ok (hstart.ne (by decide)) he, Rule.optionalSemicolon, Rule.rounds]
  rfl

theorem rounds_tokens_error (h : v.Plain) (hm : v.Contains Int64.minValue) (line : Nat) :
    ∃ behind, Rule.rounds (v.tokens line) = [.error (overflow line behind)] := by
  obtain ⟨behind, he⟩ := h.overflows hm line .lowest []
  rw [List.append_nil] at he
  -- no statement ends behind the digits, and so nothing is left to read
  have hresume : (overflow line behind).resume = [] := by
    have hs := (List.suffix_cons _ _).trans (((Rule.orderly_rules _).expression .lowest).remaining _ he)
    have hnone := Rule.nextBoundary_of_none (fun t ht => h.not_boundary (hs.subset ht)) []
    rw [List.append_nil] at hnone
    change nextBoundary behind = []
    rw [hnone, nextBoundary]
  obtain ⟨t, ts, ht, hstart⟩ := h.starts_tokens line
  rw [ht] at he ⊢
  refine ⟨behind, ?_⟩
  rw [Rule.rounds_of_error (hstart.ne (by decide)) (Rule.statement_of_expression_error hstart he),
    hresume, Rule.rounds]

end Value.Plain

/-- An expression that quotes a value, as a program, gives the value in any session and leaves
    the session as it was. -/
theorem Expr.Quotes.run {x : Expr} {v : Value} (h : x.Quotes v) (hv : v.unwrapReturn = v)
    (t : Token) (s : Session) : ∃ limit, ∀ n, limit ≤ n →
      s.run n { statements := [.expression t x] } = some (v, s) := by
  have hlabel : ∀ n, (Program.label { statements := [.expression t x] }).run n =
      ({ statements := [.expression t x] }, n) := by
    intro n
    have hx : x.label n = (x, n) := h.label n
    simp only [Program.label, Statement.labelAll, Statement.label, StateT.run, bind, StateT.bind,
      hx]
    rfl
  obtain ⟨limit, hl⟩ := Store.Gives.program (p := { statements := [.expression t x] })
    (Store.Gives.lastStatement ((h.gives s.store s.root).expression t))
  refine ⟨limit, fun n hn => ?_⟩
  have hrun : eval n (.program { statements := [.expression t x] }) s.root
      (s.store.withNextLabel s.store.nextLabel) = some (v.unwrapReturn, s.store) := hl n hn
  rw [Session.run_eq, hlabel, hrun, hv]
  rfl

/-- **The text of a plain value is a program that gives the value.**  If `-2^63` does not
    stand in the value, then nothing is wrong with the program, and in any session it gives
    the value and leaves the session as it was.  If it does, then its digits are too large for
    an integer: there is one diagnostic, however often it stands there, and no statement. -/
theorem Value.Plain.readSource_render {v : Value} (h : v.Plain) (o : Enumeration) :
    (¬ v.Contains Int64.minValue →
      (Program.readSource (encode (v.render o))).diagnostics = [] ∧
      ∀ s : Session, ∃ limit, ∀ n, limit ≤ n →
        s.run n (Program.readSource (encode (v.render o))).program = some (v, s)) ∧
    (v.Contains Int64.minValue →
      Program.readSource (encode (v.render o)) =
        { program := { statements := [] }
          diagnostics := [{ line := 1, problem := .notAnInteger "9223372036854775808" }] }) := by
  rw [Program.readSource, h.scan_render]
  constructor
  · intro hm
    obtain ⟨t, x, hx, hrounds⟩ := h.rounds_tokens hm 1
    rw [Program.read_of_rounds rfl hrounds]
    exact ⟨rfl, hx.run h.unwrapReturn t⟩
  · intro hm
    obtain ⟨behind, hrounds⟩ := h.rounds_tokens_error hm 1
    rw [Program.read, Program.body_concat rfl, hrounds]
    rfl

/-- `[-5, [true, -9223372036854775807], []]` -/
def Value.nested : Value :=
  .array [.integer (-5), .array [.boolean true, .integer (-9223372036854775807)], .array []]

/-- `[7, [-9223372036854775808, 7], -9223372036854775808]` -/
def Value.nestedMin : Value :=
  .array [.integer 7, .array [.integer Int64.minValue, .integer 7], .integer Int64.minValue]

/-- The integers below zero are read back.  Where `-2^63` stands twice, the first one ends the
    reading. -/
theorem Value.readSource_nested :
    (Program.readSource (encode "[-5, [true, -9223372036854775807], []]")).diagnostics = [] ∧
    (∃ limit, ∀ n, limit ≤ n → Session.start.run n
        (Program.readSource (encode "[-5, [true, -9223372036854775807], []]")).program =
      some (nested, Session.start)) ∧
    Program.readSource (encode "[7, [-9223372036854775808, 7], -9223372036854775808]") =
      { program := { statements := [] }
        diagnostics := [{ line := 1, problem := .notAnInteger "9223372036854775808" }] } := by
  have hrender : nested.render = "[-5, [true, -9223372036854775807], []]" := by decide +kernel
  have hrender' : nestedMin.render = "[7, [-9223372036854775808, 7], -9223372036854775808]" := by
    decide +kernel
  have hplain : nested.Plain ∧ nestedMin.Plain := by simp [nested, nestedMin]
  have hread := (hplain.1.readSource_render .stored).1 (by simp [nested])
  have hfault := (hplain.2.readSource_render .stored).2 (by simp [nestedMin])
  rw [hrender] at hread
  rw [hrender'] at hfault
  exact ⟨hread.1, hread.2 Session.start, hfault⟩

end Monkey
