import Monkey.Proofs.Syntax.Writing

/-!
  Monkey/Proofs/Syntax/Wording.lean
  =================================
  **A program that is read without a failure accounts for all its tokens.**

  `Words x ts rest` says that the tokens `ts` are those of the item `x`, in order and
  none left over, where the tokens `rest` stand behind them up to the end of the
  input.  In contrast to `Writes` the tree is the one that was read: each node keeps
  the token at its place.  Three things are left free.

    * Around an expression there may be parentheses.  There must be, where it binds
      too weakly for its place.
    * Behind a statement there may be a `;`, and behind the last pair of a hash
      literal a comma (`Optional`).
    * The `}` of a block may be missing where the input ends.

  The rules read what they word (`worded_of_derives`).  Levels are the point of the
  induction: an expression read above `p` fits there, and the token behind an operand
  that may still be extended binds no more tightly than the operand.
-/
namespace Monkey

open Text

namespace Rule

/-! ### Wordings -/

/-- No token, or one of the given kind. -/
inductive Optional (k : Token.Kind) : List Token → Prop where
  | absent : Optional k []
  | present {t} (h : t.kind = k) : Optional k [t]

/-- The tokens of an item, and the tokens behind them.  No tokens are those of a
    block that stands as a statement. -/
inductive Words : Item → List Token → List Token → Prop where
  | paren {l e o ts c rest} (ho : o.kind = .leftParen) (h : Words (.expression l e) ts (c :: rest))
      (hc : c.kind = .rightParen) : Words (.expression .call e) (o :: ts ++ [c]) rest
  | identifier {t rest} (ht : t.kind = .identifier) :
      Words (.expression .call (.identifier (.ofToken t))) [t] rest
  | integer {t value rest} (ht : t.kind = .integer) (hv : Decimal.int64? t.literal = some value) :
      Words (.expression .call (.integer t value)) [t] rest
  | string {t rest} (ht : t.kind = .string) :
      Words (.expression .call (.string t t.literal)) [t] rest
  | true {t rest} (ht : t.kind = .trueWord) : Words (.expression .call (.boolean t true)) [t] rest
  | false {t rest} (ht : t.kind = .falseWord) :
      Words (.expression .call (.boolean t false)) [t] rest
  | array {t es ts c rest} (ht : t.kind = .leftBracket) (h : Words (.items es) ts (c :: rest))
      (hc : c.kind = .rightBracket) : Words (.expression .call (.array t es)) (t :: ts ++ [c]) rest
  | hash {t ps ts c rest} (ht : t.kind = .leftBrace) (h : Words (.pairs ps) ts (c :: rest))
      (hc : c.kind = .rightBrace) : Words (.expression .call (.hash t ps)) (t :: ts ++ [c]) rest
  | prefixOp {t op right l ts rest} (ht : t.kind = op.kind) (hl : .prefixOp ≤ l)
      (h : Words (.expression l right) ts rest) :
      Words (.expression .prefixOp (.prefixOp t op right)) (t :: ts) rest
  | infixOp {t left op right m l ts r us rest} (ht : Binds t.kind op m) (hl : m ≤ l) (hr : m < r)
      (h : Words (.expression l left) ts (t :: us ++ rest))
      (h' : Words (.expression r right) us rest) :
      Words (.expression m (.infixOp t left op right)) (ts ++ t :: us) rest
  | ifThen {t o l condition ts c b ss us cs rest} (ht : t.kind = .ifWord) (ho : o.kind = .leftParen)
      (h : Words (.expression l condition) ts (c :: b :: us ++ cs ++ rest))
      (hc : c.kind = .rightParen) (hb : b.kind = .leftBrace)
      (hs : Words (.statements ss) us (cs ++ rest)) (hcs : Optional .rightBrace cs)
      (hend : cs = [] → rest = []) :
      Words (.expression .call (.cond t condition ⟨b, ss⟩ none))
        (t :: o :: ts ++ c :: b :: us ++ cs) rest
  | ifElse {t o l condition ts c b ss us c' w b' ss' us' cs rest} (ht : t.kind = .ifWord)
      (ho : o.kind = .leftParen)
      (h : Words (.expression l condition) ts (c :: b :: us ++ c' :: w :: b' :: us' ++ cs ++ rest))
      (hc : c.kind = .rightParen) (hb : b.kind = .leftBrace)
      (hs : Words (.statements ss) us (c' :: w :: b' :: us' ++ cs ++ rest))
      (hc' : c'.kind = .rightBrace) (hw : w.kind = .elseWord) (hb' : b'.kind = .leftBrace)
      (hs' : Words (.statements ss') us' (cs ++ rest)) (hcs : Optional .rightBrace cs)
      (hend : cs = [] → rest = []) :
      Words (.expression .call (.cond t condition ⟨b, ss⟩ (some ⟨b', ss'⟩)))
        (t :: o :: ts ++ c :: b :: us ++ c' :: w :: b' :: us' ++ cs) rest
  | function {t o ids ts c b ss us cs rest} (ht : t.kind = .fnWord) (ho : o.kind = .leftParen)
      (hn : WordsNames ids ts) (hc : c.kind = .rightParen) (hb : b.kind = .leftBrace)
      (hs : Words (.statements ss) us (cs ++ rest)) (hcs : Optional .rightBrace cs)
      (hend : cs = [] → rest = []) :
      Words (.expression .call (.function ⟨t, ids, ⟨b, ss⟩, 0⟩))
        (t :: o :: ts ++ c :: b :: us ++ cs) rest
  | call {t callee arguments l ts us c rest} (hl : .call ≤ l)
      (h : Words (.expression l callee) ts (t :: us ++ c :: rest)) (ht : t.kind = .leftParen)
      (hi : Words (.items arguments) us (c :: rest)) (hc : c.kind = .rightParen) :
      Words (.expression .call (.call t callee arguments)) (ts ++ t :: us ++ [c]) rest
  | index {t left i l ts l' us c rest} (hl : .call ≤ l)
      (h : Words (.expression l left) ts (t :: us ++ c :: rest)) (ht : t.kind = .leftBracket)
      (hi : Words (.expression l' i) us (c :: rest)) (hc : c.kind = .rightBracket) :
      Words (.expression .call (.index t left i)) (ts ++ t :: us ++ [c]) rest
  -- the insides of brackets
  | noItems {rest} : Words (.items []) [] rest
  | items {l e es ts us rest} (h : Words (.expression l e) ts (us ++ rest))
      (h' : Words (.moreItems es) us rest) : Words (.items (e :: es)) (ts ++ us) rest
  | noMoreItems {rest} : Words (.moreItems []) [] rest
  | moreItems {m l e es ts us rest} (hm : m.kind = .comma)
      (h : Words (.expression l e) ts (us ++ rest)) (h' : Words (.moreItems es) us rest) :
      Words (.moreItems (e :: es)) (m :: ts ++ us) rest
  | noPairs {rest} : Words (.pairs []) [] rest
  | lastPair {l key ts m l' value us cs rest}
      (h : Words (.expression l key) ts (m :: us ++ cs ++ rest)) (hm : m.kind = .colon)
      (h' : Words (.expression l' value) us (cs ++ rest)) (hcs : Optional .comma cs) :
      Words (.pairs [(key, value)]) (ts ++ m :: us ++ cs) rest
  | pairs {l key ts m l' value us c ps vs rest}
      (h : Words (.expression l key) ts (m :: us ++ c :: vs ++ rest)) (hm : m.kind = .colon)
      (h' : Words (.expression l' value) us (c :: vs ++ rest)) (hc : c.kind = .comma)
      (hne : ps ≠ []) (hp : Words (.pairs ps) vs rest) :
      Words (.pairs ((key, value) :: ps)) (ts ++ m :: us ++ c :: vs) rest
  -- statements
  | letBind {t i q l value ts rest} (ht : t.kind = .letWord) (hi : i.kind = .identifier)
      (hq : q.kind = .equal) (h : Words (.expression l value) ts rest) :
      Words (.statement (.letBind t (.ofToken i) value)) (t :: i :: q :: ts) rest
  | returnNothing {t rest} (ht : t.kind = .returnWord) :
      Words (.statement (.returnValue t none)) [t] rest
  | returnValue {t l value ts rest} (ht : t.kind = .returnWord)
      (h : Words (.expression l value) ts rest) :
      Words (.statement (.returnValue t (some value))) (t :: ts) rest
  | expressionStatement {t l e ts rest} (h : Words (.expression l e) (t :: ts) rest) :
      Words (.statement (.expression t e)) (t :: ts) rest
  | noStatements {rest} : Words (.statements []) [] rest
  | statements {s ts ms ss us rest} (h : Words (.statement s) ts (ms ++ us ++ rest))
      (hms : Optional .semicolon ms) (h' : Words (.statements ss) us rest) :
      Words (.statements (s :: ss)) (ts ++ ms ++ us) rest

theorem Words.ne_nil {l : Precedence} {e : Expr} {ts rest : List Token}
    (h : Words (.expression l e) ts rest) : ts ≠ [] := by
  cases h <;> simp

/-! ### What is read is worded -/

/-- No token of the kind that ends the input. -/
def Endless (ts : List Token) : Prop :=
  ∀ t ∈ ts, t.kind ≠ .endOfInput

theorem Endless.right {ts us : List Token} (h : Endless (ts ++ us)) : Endless us :=
  fun t ht => h t (List.mem_append_right ts ht)

theorem Endless.tail {t : Token} {ts : List Token} (h : Endless (t :: ts)) : Endless ts :=
  fun u hu => h u (List.mem_cons_of_mem t hu)

/-- What the tokens given to a rule consist of: the wording of what is read, the tokens
    that the rule reads besides, and the rest. -/
def Judgement.Worded : Judgement → Prop
  | expression p ts e rest => p ≤ .prefixOp → ∃ us l, ts = us ++ rest ∧
      Words (.expression l e) us rest ∧ Fits p l ∧ ¬ p < .of (kindAt rest)
  | extension p left ts e rest => p ≤ .prefixOp → ∃ us, ts = us ++ rest ∧
      ¬ p < .of (kindAt rest) ∧ ∀ vs l, Words (.expression l left) vs ts → Fits p l →
        .of (kindAt ts) ≤ l → ∃ l', Words (.expression l' e) (vs ++ us) rest ∧ Fits p l'
  | operand ts e rest => ∃ us l, ts = us ++ rest ∧ Words (.expression l e) us rest ∧
      .prefixOp ≤ l ∧ .of (kindAt rest) ≤ l
  | items closing ts es rest => ∃ us c, ts = us ++ c :: rest ∧ c.kind = closing ∧
      Words (.items es) us (c :: rest)
  | moreItems closing ts es rest => ∃ us c, ts = us ++ c :: rest ∧ c.kind = closing ∧
      Words (.moreItems es) us (c :: rest)
  | pairs ts ps rest => ∃ us c, ts = us ++ c :: rest ∧ c.kind = .rightBrace ∧
      Words (.pairs ps) us (c :: rest)
  | block ts ss rest => ∃ us cs, ts = us ++ cs ++ rest ∧ Optional .rightBrace cs ∧
      (cs = [] → rest = []) ∧ Words (.statements ss) us (cs ++ rest)
  | statement ts s rest => ∃ us ms, ts = us ++ ms ++ rest ∧ Optional .semicolon ms ∧
      Words (.statement s) us (ms ++ rest)

theorem optionalSemicolon_eq (ts : List Token) :
    ∃ ms, ts = ms ++ (optionalSemicolon ts).1 ∧ Optional .semicolon ms := by
  rcases ts with _ | ⟨t, ts⟩
  · exact ⟨[], rfl, .absent⟩
  · by_cases ht : t.kind = .semicolon
    · exact ⟨[t], by rw [optionalSemicolon_of_eq ht]; rfl, .present ht⟩
    · exact ⟨[], by rw [optionalSemicolon_of_ne ht]; rfl, .absent⟩

/-- An operand may stand wherever an expression is read. -/
theorem fits_of_le {p l : Precedence} (hp : p ≤ .prefixOp) (hl : .prefixOp ≤ l) : Fits p l := by
  cases p <;> cases l <;> first
    | exact .inl (by decide)
    | exact .inr ⟨rfl, rfl⟩
    | exact absurd hp (by decide)
    | exact absurd hl (by decide)

theorem lowest_le (l : Precedence) : .lowest ≤ l :=
  Nat.zero_le _

theorem worded_of_derives {j : Judgement} (h : Derives j) (hj : Endless j.given) : j.Worded := by
  induction h with
  | expression _ _ iho ihe =>
    intro hp
    obtain ⟨us, l, rfl, hw, hl, hn⟩ := iho hj
    obtain ⟨vs, rfl, hend, hext⟩ := ihe hj.right hp
    obtain ⟨l', hw', hf⟩ := hext us l hw (fits_of_le hp hl) hn
    exact ⟨us ++ vs, l', (List.append_assoc ..).symm, hw', hf, hend⟩
  | stop hn =>
    intro hp
    refine ⟨[], rfl, hn, fun vs l hw hf _ => ⟨l, ?_, hf⟩⟩
    rwa [List.append_nil]
  | @infixOp p left t op ts right ts₁ e ts₂ ht hl _ _ ihr ihe =>
    intro hp
    have hb : Binds t.kind op (.of t.kind) := binds_iff.2 ⟨ht, rfl⟩
    obtain ⟨us, r, rfl, hr, hfr, hn⟩ := ihr hj.tail (Nat.le_of_lt hb.lt_prefixOp)
    obtain ⟨vs, rfl, hend, hext⟩ := ihe hj.tail.right hp
    refine ⟨t :: us ++ vs, by simp only [List.cons_append, List.append_assoc], hend, ?_⟩
    intro ws l hw hf hk
    have hr' : .of t.kind < r := by
      rcases hfr with h | ⟨h, -⟩
      · exact h
      · exact absurd (congrArg Precedence.rank h) (Nat.ne_of_lt hb.lt_prefixOp)
    obtain ⟨l', hw', hf'⟩ := hext (ws ++ t :: us) (.of t.kind) (.infixOp hb hk hr' hw hr)
      (.inl hl) (Nat.not_lt.1 hn)
    refine ⟨l', ?_, hf'⟩
    simpa only [List.append_assoc, List.cons_append] using hw'
  | @call p left t ts arguments ts₁ e ts₂ ht hl _ _ ihi ihe =>
    intro hp
    obtain ⟨us, c, rfl, hc, hi⟩ := ihi hj.tail
    obtain ⟨vs, rfl, hend, hext⟩ := ihe hj.tail.right.tail hp
    refine ⟨t :: us ++ c :: vs, by simp only [List.cons_append, List.append_assoc], hend, ?_⟩
    intro ws l hw hf hk
    have hk : Precedence.of t.kind ≤ l := hk
    rw [ht] at hk
    obtain ⟨l', hw', hf'⟩ := hext (ws ++ t :: us ++ [c]) .call (.call hk hw ht hi hc)
      (.inl hl) (le_call _)
    refine ⟨l', ?_, hf'⟩
    simpa only [List.append_assoc, List.cons_append, List.nil_append] using hw'
  | @index p left t ts i c ts₁ e ts₂ ht hl _ hc _ ihi ihe =>
    intro hp
    obtain ⟨us, l', rfl, hi, -, -⟩ := ihi hj.tail (lowest_le _)
    obtain ⟨vs, rfl, hend, hext⟩ := ihe hj.tail.right.tail hp
    refine ⟨t :: us ++ c :: vs, by simp only [List.cons_append, List.append_assoc], hend, ?_⟩
    intro ws l hw hf hk
    have hk : Precedence.of t.kind ≤ l := hk
    rw [ht] at hk
    obtain ⟨l', hw', hf'⟩ := hext (ws ++ t :: us ++ [c]) .call (.index hk hw ht hi hc)
      (.inl hl) (le_call _)
    refine ⟨l', ?_, hf'⟩
    simpa only [List.append_assoc, List.cons_append, List.nil_append] using hw'
  | @identifier t ts ht => exact ⟨[t], .call, rfl, .identifier ht, le_call _, le_call _⟩
  | @integer t ts value ht hv => exact ⟨[t], .call, rfl, .integer ht hv, le_call _, le_call _⟩
  | @string t ts ht => exact ⟨[t], .call, rfl, .string ht, le_call _, le_call _⟩
  | @true t ts ht => exact ⟨[t], .call, rfl, .true ht, le_call _, le_call _⟩
  | @false t ts ht => exact ⟨[t], .call, rfl, .false ht, le_call _, le_call _⟩
  | @bang t ts right ts₁ ht _ ihr =>
    obtain ⟨us, l, rfl, hw, hf, hn⟩ := ihr hj.tail (Nat.le_refl _)
    have ht : t.kind = PrefixOperator.bang.kind := ht
    exact ⟨t :: us, .prefixOp, rfl, .prefixOp ht hf.le hw, Nat.le_refl _, Nat.not_lt.1 hn⟩
  | @minus t ts right ts₁ ht _ ihr =>
    obtain ⟨us, l, rfl, hw, hf, hn⟩ := ihr hj.tail (Nat.le_refl _)
    have ht : t.kind = PrefixOperator.minus.kind := ht
    exact ⟨t :: us, .prefixOp, rfl, .prefixOp ht hf.le hw, Nat.le_refl _, Nat.not_lt.1 hn⟩
  | @group t ts e c ts₁ ht _ hc ihe =>
    obtain ⟨us, l, rfl, hw, -, -⟩ := ihe hj.tail (lowest_le _)
    refine ⟨t :: us ++ [c], .call, ?_, .paren ht hw hc, le_call _, le_call _⟩
    simp only [List.cons_append, List.append_assoc, List.nil_append]
  | @array t ts elements ts₁ ht _ ihi =>
    obtain ⟨us, c, rfl, hc, hw⟩ := ihi hj.tail
    refine ⟨t :: us ++ [c], .call, ?_, .array ht hw hc, le_call _, le_call _⟩
    simp only [List.cons_append, List.append_assoc, List.nil_append]
  | @hash t ts ps ts₁ ht _ ihp =>
    obtain ⟨us, c, rfl, hc, hw⟩ := ihp hj.tail
    refine ⟨t :: us ++ [c], .call, ?_, .hash ht hw hc, le_call _, le_call _⟩
    simp only [List.cons_append, List.append_assoc, List.nil_append]
  | @ifThen t o ts condition c b ts₁ ss ts₂ ht ho _ hc hb _ hn ihe ihs =>
    obtain ⟨us, l, rfl, hw, -, -⟩ := ihe hj.tail.tail (lowest_le _)
    obtain ⟨vs, cs, rfl, hcs, hend, hs⟩ := ihs hj.tail.tail.right.tail.tail
    have hw : Words (.expression l condition) us (c :: b :: vs ++ cs ++ ts₂) := by
      simpa only [List.cons_append, List.append_assoc] using hw
    refine ⟨t :: o :: us ++ c :: b :: vs ++ cs, .call, ?_, .ifThen ht ho hw hc hb hs hcs hend,
      le_call _, le_call _⟩
    simp only [List.cons_append, List.append_assoc]
  | @ifElse t o ts condition c b ts₁ ss w b' ts₂ ss' ts₃ ht ho _ hc hb _ hw hb' _ ihe ihs ihs' =>
    obtain ⟨us, l, rfl, hwe, -, -⟩ := ihe hj.tail.tail (lowest_le _)
    have hj₁ := hj.tail.tail.right.tail.tail
    obtain ⟨vs, cs, rfl, hcs, hend, hs⟩ := ihs hj₁
    obtain ⟨ws, cs', rfl, hcs', hend', hs'⟩ := ihs' hj₁.right.tail.tail
    -- the first block is closed, since `else` stands behind it
    cases hcs with
    | absent => cases hend rfl
    | @present c' hc' =>
      have hwe : Words (.expression l condition) us
          (c :: b :: vs ++ c' :: w :: b' :: ws ++ cs' ++ ts₃) := by
        simpa only [List.cons_append, List.append_assoc, List.nil_append] using hwe
      have hs : Words (.statements ss) vs (c' :: w :: b' :: ws ++ cs' ++ ts₃) := by
        simpa only [List.cons_append, List.append_assoc, List.nil_append] using hs
      refine ⟨t :: o :: us ++ c :: b :: vs ++ c' :: w :: b' :: ws ++ cs', .call, ?_,
        .ifElse ht ho hwe hc hb hs hc' hw hb' hs' hcs' hend', le_call _, le_call _⟩
      simp only [List.cons_append, List.append_assoc, List.nil_append]
  | @function t o ts names b ts₁ ss ts₂ ht ho hn hb _ ihs =>
    obtain ⟨us, c, rfl, hc, hw⟩ := words_of_parameters hn
    obtain ⟨vs, cs, rfl, hcs, hend, hs⟩ := ihs hj.tail.tail.right.tail.tail
    refine ⟨t :: o :: us ++ c :: b :: vs ++ cs, .call, ?_, .function ht ho hw hc hb hs hcs hend,
      le_call _, le_call _⟩
    simp only [List.cons_append, List.append_assoc]
  | @noItems closing c ts hc => exact ⟨[], c, rfl, hc, .noItems⟩
  | items _ _ _ ihe ihm =>
    obtain ⟨us, l, rfl, hw, -, -⟩ := ihe hj (lowest_le _)
    obtain ⟨vs, c, rfl, hc, hm⟩ := ihm hj.right
    exact ⟨us ++ vs, c, (List.append_assoc ..).symm, hc, .items hw hm⟩
  | @noMoreItems closing c ts hn hc => exact ⟨[], c, rfl, hc, .noMoreItems⟩
  | @moreItems closing m ts e ts₁ es ts₂ hm _ _ ihe ihi =>
    obtain ⟨us, l, rfl, hw, -, -⟩ := ihe hj.tail (lowest_le _)
    obtain ⟨vs, c, rfl, hc, hi⟩ := ihi hj.tail.right
    refine ⟨m :: us ++ vs, c, ?_, hc, .moreItems hm hw hi⟩
    simp only [List.cons_append, List.append_assoc]
  | @noPairs c ts hc => exact ⟨[], c, rfl, hc, .noPairs⟩
  | @lastPair ts key m ts₁ value c ts₂ _ _ hm _ hc ihk ihv =>
    obtain ⟨us, l, rfl, hw, -, -⟩ := ihk hj (lowest_le _)
    obtain ⟨vs, l', rfl, hw', -, -⟩ := ihv hj.right.tail (lowest_le _)
    have hw : Words (.expression l key) us (m :: vs ++ [] ++ c :: ts₂) := by
      simpa only [List.cons_append, List.append_assoc, List.nil_append] using hw
    refine ⟨us ++ m :: vs ++ [], c, ?_, hc, .lastPair hw hm hw' .absent⟩
    simp only [List.cons_append, List.append_assoc, List.nil_append]
  | @pairs ts key m ts₁ value c ts₂ ps ts₃ _ _ hm _ hc _ ihk ihv ihp =>
    obtain ⟨us, l, rfl, hw, -, -⟩ := ihk hj (lowest_le _)
    obtain ⟨vs, l', rfl, hw', -, -⟩ := ihv hj.right.tail (lowest_le _)
    obtain ⟨ws, c', rfl, hc', hp⟩ := ihp hj.right.tail.right.tail
    -- a comma with no pair behind it is that of the last pair
    rcases ps with _ | ⟨p, ps⟩
    · cases hp
      have hw : Words (.expression l key) us (m :: vs ++ [c] ++ c' :: ts₃) := by
        simpa only [List.cons_append, List.append_assoc, List.nil_append] using hw
      refine ⟨us ++ m :: vs ++ [c], c', ?_, hc', .lastPair hw hm hw' (.present hc)⟩
      simp only [List.cons_append, List.append_assoc, List.nil_append]
    · have hw : Words (.expression l key) us (m :: vs ++ c :: ws ++ c' :: ts₃) := by
        simpa only [List.cons_append, List.append_assoc] using hw
      refine ⟨us ++ m :: vs ++ c :: ws, c', ?_, hc', .pairs hw hm hw' hc (List.cons_ne_nil p ps) hp⟩
      simp only [List.cons_append, List.append_assoc]
  | openBlock => exact ⟨[], [], rfl, .absent, fun _ => rfl, .noStatements⟩
  | @closeBlock c ts hc =>
    have hc' : c.kind = .rightBrace := hc.resolve_right (hj c List.mem_cons_self)
    exact ⟨[], [c], rfl, .present hc', fun h => absurd h (List.cons_ne_nil c []), .noStatements⟩
  | block _ _ _ ihs ihb =>
    obtain ⟨us, ms, hts, hms, hw⟩ := ihs hj
    have hj' := hj
    simp only [Judgement.given, hts] at hj'
    obtain ⟨vs, cs, rfl, hcs, hend, hb⟩ := ihb hj'.right
    refine ⟨us ++ ms ++ vs, cs, ?_, hcs, hend, .statements ?_ hms hb⟩
    · simpa only [List.append_assoc] using hts
    · simpa only [List.append_assoc] using hw
  | @letBind t i q ts value ts₁ ht hi hq _ ihe =>
    obtain ⟨us, l, rfl, hw, -, -⟩ := ihe hj.tail.tail.tail (lowest_le _)
    obtain ⟨ms, hms, ho⟩ := optionalSemicolon_eq ts₁
    refine ⟨t :: i :: q :: us, ms, ?_, ho, .letBind ht hi hq (hms ▸ hw)⟩
    simp only [List.cons_append, List.append_assoc, ← hms]
  | @returnNothing t ts ht hn =>
    obtain ⟨ms, hms, ho⟩ := optionalSemicolon_eq ts
    refine ⟨[t], ms, ?_, ho, .returnNothing ht⟩
    simp only [List.cons_append, List.nil_append, ← hms]
  | @returnValue t ts value ts₁ ht hn _ ihe =>
    obtain ⟨us, l, rfl, hw, -, -⟩ := ihe hj.tail (lowest_le _)
    obtain ⟨ms, hms, ho⟩ := optionalSemicolon_eq ts₁
    refine ⟨t :: us, ms, ?_, ho, .returnValue ht (hms ▸ hw)⟩
    simp only [List.cons_append, List.append_assoc, ← hms]
  | @expressionStatement t ts e ts₁ hl hr _ ihe =>
    obtain ⟨us, l, hts, hw, -, -⟩ := ihe hj (lowest_le _)
    obtain ⟨ms, hms, ho⟩ := optionalSemicolon_eq ts₁
    obtain ⟨t', us, rfl⟩ := List.exists_cons_of_ne_nil hw.ne_nil
    obtain ⟨rfl, rfl⟩ := List.cons.inj hts
    refine ⟨t :: us, ms, ?_, ho, .expressionStatement (hms ▸ hw)⟩
    rw [hts, List.append_assoc, ← hms]

/-! ### Whole programs -/

/-- Where no round fails, all tokens are those of the statements that were read. -/
theorem words_of_rounds {ts : List Token} (hts : Endless ts)
    (h : (rounds ts).filterMap failure? = []) :
    Words (.statements ((rounds ts).filterMap statement?)) ts [] := by
  fun_induction rounds ts with
  | case1 => exact .noStatements
  | case2 t ts ht => exact absurd ht (hts t List.mem_cons_self)
  | case3 t ts ht s ts₁ h₁ e ih =>
    have hd : Derives (.statement (t :: ts) s ts₁) := derives_iff.2 ⟨h₁, e⟩
    obtain ⟨us, ms, hus, hms, hw⟩ := worded_of_derives hd hts
    rw [hus] at hts ⊢
    refine .statements ?_ hms (ih hts.right h)
    rwa [List.append_nil]
  | case4 t ts ht f e => cases h

end Rule

/-- **A program that is read without a failure accounts for all its tokens.**  Where the
    input ends with the last token and not before, and nothing is wrong, the tokens in
    front of the last are those of the statements that were read, every one at its
    place, and none of the statements, at whatever depth, is a block. -/
theorem Program.words_of_read {ts : List Token} {t : Token}
    (hts : ∀ s ∈ ts, s.kind ≠ .endOfInput) (ht : t.kind = .endOfInput)
    (hd : (read (ts ++ [t])).diagnostics = []) :
    Rule.Words (.statements (read (ts ++ [t])).program.statements) ts [] ∧
      ∀ b us rest, ¬ Rule.Words (.statement (.block b)) us rest := by
  refine ⟨?_, fun b us rest h => nomatch h⟩
  have hf := List.map_eq_nil_iff.1 hd
  rw [body_concat ht] at hf
  simp only [read, body_concat ht]
  exact Rule.words_of_rounds hts hf

/-- The tokens of `if (a) { (-b)` where the block is open. -/
def openConditionalTokens : List Token :=
  [⟨.ifWord, "if", 1⟩, ⟨.leftParen, "(", 1⟩, ⟨.identifier, "a", 1⟩, ⟨.rightParen, ")", 1⟩,
    ⟨.leftBrace, "\x7b", 1⟩, ⟨.leftParen, "(", 1⟩, ⟨.minus, "-", 1⟩, ⟨.identifier, "b", 1⟩,
    ⟨.rightParen, ")", 1⟩]

theorem Program.words_of_openConditional :
    let reading := read (openConditionalTokens ++ [⟨.endOfInput, "", 1⟩])
    reading.diagnostics = [] ∧
      Rule.Words (.statements reading.program.statements) openConditionalTokens [] := by
  have hd : (read (openConditionalTokens ++ [⟨.endOfInput, "", 1⟩])).diagnostics = [] := by
    decide +kernel
  exact ⟨hd, (words_of_read (by decide) rfl hd).1⟩

end Monkey
