import Monkey.Proofs.Syntax.Grammar
import Monkey.Syntax.Parser

/-!
  Monkey/Proofs/Syntax/Append.lean
  ================================
  **Reading is not disturbed by what follows.**

  There are three ways in which the end of the tokens can have a part in what is read.
  An expression or a `;` may be looked for there, the word `else` may, and a block that
  is still open is closed there.

  If the last token is a `;`, then the first two happen inside of an open block only.
  Where a block is left open, there are more opening than closing braces.  So tokens
  that end with a `;` and have as many braces of the one sort as of the other are read
  in the same way whatever follows (`rounds_append`).

  The induction counts braces.  Either the rule ends inside of a block that it opened,
  at the end of the tokens and with an excess of opening braces (`Unfinished`), or it
  took as many of the one sort as of the other (`Finished`) and does the same with more
  tokens behind.
-/
namespace Monkey

/-! ### Braces -/

/-- An opening brace counts up and a closing one down. -/
def Token.Kind.weight : Token.Kind → Int
  | .leftBrace => 1
  | .rightBrace => -1
  | _ => 0

/-- A kind that is neither a brace nor a `;`. -/
def Token.Kind.Plain (k : Token.Kind) : Prop :=
  k.weight = 0 ∧ k ≠ .semicolon

namespace Rule

/-- By how much the opening braces outnumber the closing ones. -/
def excess : List Token → Int
  | [] => 0
  | t :: ts => t.kind.weight + excess ts

theorem excess_eq_zero {ts : List Token}
    (h : ts.countP (·.kind = .leftBrace) = ts.countP (·.kind = .rightBrace)) : excess ts = 0 := by
  have hc (us : List Token) : excess us =
      (us.countP (·.kind = .leftBrace) : Int) - us.countP (·.kind = .rightBrace) := by
    induction us with
    | nil => rfl
    | cons u us ih =>
      simp only [excess, ih, List.countP_cons, decide_eq_true_eq]
      by_cases hl : u.kind = .leftBrace
      · simp only [hl, Token.Kind.weight, if_true, reduceCtorEq, if_false]
        omega
      · by_cases hr : u.kind = .rightBrace
        · simp only [hr, Token.Kind.weight, if_true, reduceCtorEq, if_false]
          omega
        · have hw : u.kind.weight = 0 := by
            unfold Token.Kind.weight
            split <;> first | rfl | contradiction
          simp only [hw, if_neg hl, if_neg hr]
          omega
  rw [hc, h]
  exact Int.sub_self _

theorem excess_plain {t : Token} {k : Token.Kind} (ht : t.kind = k) (hk : k.weight = 0)
    (ts : List Token) : excess (t :: ts) = excess ts := by
  rw [excess, ht, hk]
  exact Int.zero_add _

theorem excess_open {t : Token} (ht : t.kind = .leftBrace) (ts : List Token) :
    excess (t :: ts) = 1 + excess ts := by
  rw [excess, ht]
  rfl

theorem excess_close {t : Token} (ht : t.kind = .rightBrace) (ts : List Token) :
    1 + excess (t :: ts) = excess ts := by
  have hw : t.kind.weight = -1 := by
    rw [ht]
    rfl
  rw [excess, hw]
  omega

theorem plain_of_operator {k : Token.Kind} {op : InfixOperator}
    (h : InfixOperator.ofKind? k = some op) : k.Plain := by
  cases k <;> cases h <;> exact ⟨rfl, by decide⟩

theorem excess_names {ids : List Identifier} {ts : List Token} (h : WordsNames ids ts)
    (us : List Token) : excess (ts ++ us) = excess us := by
  cases h with
  | nil => rfl
  | cons ht h =>
    rw [List.cons_append, excess_plain ht rfl]
    induction h with
    | nil => rfl
    | cons hm ht _ ih => rw [List.cons_append, excess_plain hm rfl, List.cons_append,
        excess_plain ht rfl, ih]

/-! ### Tokens that end with a `;` -/

/-- No token ends the input, and the last one, if there is one, is a `;`. -/
structure Terminated (ts : List Token) : Prop where
  endless : ∀ t ∈ ts, t.kind ≠ .endOfInput
  last : ∀ t ∈ ts.getLast?, t.kind = .semicolon

namespace Terminated

theorem suffix {ts us : List Token} (h : Terminated ts) (hs : us <:+ ts) : Terminated us := by
  refine ⟨fun t ht => h.endless t (hs.subset ht), fun t ht => h.last t ?_⟩
  obtain ⟨vs, rfl⟩ := hs
  rw [List.getLast?_append, Option.mem_def.1 ht]
  rfl

theorem tail {t : Token} {ts : List Token} (h : Terminated (t :: ts)) : Terminated ts :=
  h.suffix (List.suffix_cons t ts)

theorem rest {j : Judgement} (hd : Derives j) (h : Terminated j.given) : Terminated j.rest :=
  h.suffix (suffix_of_derives hd)

/-- Behind any other token than a `;` there are more. -/
theorem ne_nil {t : Token} {ts : List Token} (h : Terminated (t :: ts)) (ht : t.kind ≠ .semicolon) :
    ts ≠ [] := by
  rintro rfl
  exact ht (h.last t rfl)

end Terminated

/-! ### More tokens behind -/

theorem kindAt_append {ts : List Token} (h : ts ≠ []) (us : List Token) :
    kindAt (ts ++ us) = kindAt ts := by
  cases ts with
  | nil => exact absurd rfl h
  | cons t ts => rfl

theorem optionalSemicolon_append {ts : List Token} (h : ts ≠ []) (us : List Token) :
    (optionalSemicolon (ts ++ us)).1 = (optionalSemicolon ts).1 ++ us := by
  cases ts with
  | nil => exact absurd rfl h
  | cons t ts =>
    rw [List.cons_append]
    by_cases ht : t.kind = .semicolon
    · rw [optionalSemicolon_of_eq ht, optionalSemicolon_of_eq ht]
    · rw [optionalSemicolon_of_ne ht, optionalSemicolon_of_ne ht, List.cons_append]

theorem excess_optionalSemicolon (ts : List Token) :
    excess (optionalSemicolon ts).1 = excess ts := by
  cases ts with
  | nil => rfl
  | cons t ts =>
    by_cases ht : t.kind = .semicolon
    · rw [optionalSemicolon_of_eq ht, excess_plain ht rfl]
    · rw [optionalSemicolon_of_ne ht]

theorem parameters_append {ts rest : List Token} {ids : List Identifier}
    (h : Yields (parameters ts) ids rest) (us : List Token) :
    excess ts = excess rest ∧ Yields (parameters (ts ++ us)) ids (rest ++ us) := by
  obtain ⟨vs, c, rfl, hc, hw⟩ := words_of_parameters h
  constructor
  · rw [excess_names hw, excess_plain hc rfl]
  · rw [List.append_assoc, List.cons_append]
    exact parameters_of_words hw hc (rest ++ us)

theorem ne_nil_of_expression {level : Precedence} {ts rest : List Token} {e : Expr}
    (h : Derives (.expression level ts e rest)) : ts ≠ [] := by
  rintro rfl
  cases h with
  | expression ho _ => cases ho

/-- All tokens were taken, and a block is open.  `d` braces were open before. -/
def Unfinished (d : Int) (ts rest : List Token) : Prop :=
  rest = [] ∧ 0 < d + excess ts

/-- Tokens are left, and no block is open.  `d` braces were open before. -/
def Finished (d : Int) (ts rest : List Token) : Prop :=
  rest ≠ [] ∧ d + excess ts = excess rest

theorem finished_plain {t : Token} {k : Token.Kind} {ts : List Token} (h : Terminated (t :: ts))
    (ht : t.kind = k) (hk : k.Plain) : Finished 0 (t :: ts) ts := by
  refine ⟨h.ne_nil (ht ▸ hk.2), ?_⟩
  rw [excess_plain ht hk.1]
  exact Int.zero_add _

/-- The rule leaves a block open, or it reads the same where the tokens `us` follow.
    Only a statement may take the last token without leaving a block open. -/
def Judgement.Continues (us : List Token) : Judgement → Prop
  | expression level ts e rest => Unfinished 0 ts rest ∨
      Finished 0 ts rest ∧ Derives (.expression level (ts ++ us) e (rest ++ us))
  | extension level left ts e rest => ts ≠ [] → Unfinished 0 ts rest ∨
      Finished 0 ts rest ∧ Derives (.extension level left (ts ++ us) e (rest ++ us))
  | operand ts e rest => Unfinished 0 ts rest ∨
      Finished 0 ts rest ∧ Derives (.operand (ts ++ us) e (rest ++ us))
  | items closing ts es rest => closing.Plain →
      Finished 0 ts rest ∧ Derives (.items closing (ts ++ us) es (rest ++ us))
  | moreItems closing ts es rest => closing.Plain →
      Finished 0 ts rest ∧ Derives (.moreItems closing (ts ++ us) es (rest ++ us))
  | pairs ts ps rest => Finished 1 ts rest ∧ Derives (.pairs (ts ++ us) ps (rest ++ us))
  | block ts ss rest => Unfinished 1 ts rest ∨
      Finished 1 ts rest ∧ Derives (.block (ts ++ us) ss (rest ++ us))
  | statement ts s rest => Unfinished 0 ts rest ∨
      excess ts = excess rest ∧ Derives (.statement (ts ++ us) s (rest ++ us))

theorem continues_of_derives (us : List Token) {j : Judgement} (h : Derives j)
    (hj : Terminated j.given) : j.Continues us := by
  induction h with
  | @expression level ts left ts₁ e ts₂ ho he iho ihe =>
    rcases iho hj with ⟨rfl, hx⟩ | ⟨⟨hne, hx⟩, ho'⟩
    · exact .inl ⟨List.suffix_nil.1 (suffix_of_derives he), hx⟩
    · rcases ihe (Terminated.rest ho hj) hne with ⟨hr, hx'⟩ | ⟨⟨hr, hx'⟩, he'⟩
      · exact .inl ⟨hr, by omega⟩
      · exact .inr ⟨⟨hr, by omega⟩, .expression ho' he'⟩
  | stop hl =>
    intro hne
    refine .inr ⟨⟨hne, Int.zero_add _⟩, .stop ?_⟩
    rwa [kindAt_append hne]
  | @infixOp level left t op ts right ts₁ e ts₂ ht hl hr he ihr ihe =>
    intro _
    have ht' := excess_plain rfl (plain_of_operator ht).1 ts
    rcases ihr hj.tail with ⟨rfl, hx⟩ | ⟨⟨hne, hx⟩, hr'⟩
    · exact .inl ⟨List.suffix_nil.1 (suffix_of_derives he), by omega⟩
    · rcases ihe (Terminated.rest hr hj.tail) hne with ⟨hr, hx'⟩ | ⟨⟨hr, hx'⟩, he'⟩
      · exact .inl ⟨hr, by omega⟩
      · exact .inr ⟨⟨hr, by omega⟩, .infixOp ht hl hr' he'⟩
  | @call level left t ts arguments ts₁ e ts₂ ht hl hi he ihi ihe =>
    intro _
    have ht' := excess_plain ht rfl ts
    obtain ⟨⟨hne, hx⟩, hi'⟩ := ihi hj.tail ⟨rfl, by decide⟩
    rcases ihe (Terminated.rest hi hj.tail) hne with ⟨hr, hx'⟩ | ⟨⟨hr, hx'⟩, he'⟩
    · exact .inl ⟨hr, by omega⟩
    · exact .inr ⟨⟨hr, by omega⟩, .call ht hl hi' he'⟩
  | @index level left t ts i c ts₁ e ts₂ ht hl hi hc he ihi ihe =>
    intro _
    have ht' := excess_plain ht rfl ts
    have hc' := excess_plain hc rfl ts₁
    have hj₁ : Terminated (c :: ts₁) := Terminated.rest hi hj.tail
    rcases ihi hj.tail with ⟨hnil, -⟩ | ⟨⟨-, hx⟩, hi'⟩
    · cases hnil
    · rcases ihe hj₁.tail (hj₁.ne_nil (by rw [hc]; decide)) with ⟨hr, hx'⟩ | ⟨⟨hr, hx'⟩, he'⟩
      · exact .inl ⟨hr, by omega⟩
      · exact .inr ⟨⟨hr, by omega⟩, .index ht hl hi' hc he'⟩
  | identifier ht => exact .inr ⟨finished_plain hj ht ⟨rfl, by decide⟩, .identifier ht⟩
  | integer ht hv => exact .inr ⟨finished_plain hj ht ⟨rfl, by decide⟩, .integer ht hv⟩
  | string ht => exact .inr ⟨finished_plain hj ht ⟨rfl, by decide⟩, .string ht⟩
  | true ht => exact .inr ⟨finished_plain hj ht ⟨rfl, by decide⟩, .true ht⟩
  | false ht => exact .inr ⟨finished_plain hj ht ⟨rfl, by decide⟩, .false ht⟩
  | @bang t ts right ts₁ ht _ ihr =>
    have ht' := excess_plain ht rfl ts
    rcases ihr hj.tail with ⟨hr, hx⟩ | ⟨⟨hr, hx⟩, hr'⟩
    · exact .inl ⟨hr, by omega⟩
    · exact .inr ⟨⟨hr, by omega⟩, .bang ht hr'⟩
  | @minus t ts right ts₁ ht _ ihr =>
    have ht' := excess_plain ht rfl ts
    rcases ihr hj.tail with ⟨hr, hx⟩ | ⟨⟨hr, hx⟩, hr'⟩
    · exact .inl ⟨hr, by omega⟩
    · exact .inr ⟨⟨hr, by omega⟩, .minus ht hr'⟩
  | @group t ts e c ts₁ ht he hc ihe =>
    have ht' := excess_plain ht rfl ts
    have hc' := excess_plain hc rfl ts₁
    have hj₁ : Terminated (c :: ts₁) := Terminated.rest he hj.tail
    rcases ihe hj.tail with ⟨hnil, -⟩ | ⟨⟨-, hx⟩, he'⟩
    · cases hnil
    · exact .inr ⟨⟨hj₁.ne_nil (by rw [hc]; decide), by omega⟩, .group ht he' hc⟩
  | @array t ts elements ts₁ ht _ ihi =>
    have ht' := excess_plain ht rfl ts
    obtain ⟨⟨hne, hx⟩, hi'⟩ := ihi hj.tail ⟨rfl, by decide⟩
    exact .inr ⟨⟨hne, by omega⟩, .array ht hi'⟩
  | @hash t ts ps ts₁ ht _ ihp =>
    have ht' := excess_open ht ts
    obtain ⟨⟨hne, hx⟩, hp'⟩ := ihp hj.tail
    exact .inr ⟨⟨hne, by omega⟩, .hash ht hp'⟩
  | @ifThen t o ts condition c b ts₁ ss ts₂ ht ho he hc hb _ hn ihe ihs =>
    have ht' := excess_plain ht rfl (o :: ts)
    have ho' := excess_plain ho rfl ts
    have hc' := excess_plain hc rfl (b :: ts₁)
    have hb' := excess_open hb ts₁
    have hj₁ : Terminated (c :: b :: ts₁) := Terminated.rest he hj.tail.tail
    rcases ihe hj.tail.tail with ⟨hnil, -⟩ | ⟨⟨-, hx⟩, he'⟩
    · cases hnil
    · rcases ihs hj₁.tail.tail with ⟨hr, hx'⟩ | ⟨⟨hr, hx'⟩, hs'⟩
      · exact .inl ⟨hr, by omega⟩
      · refine .inr ⟨⟨hr, by omega⟩, .ifThen ht ho he' hc hb hs' ?_⟩
        rwa [kindAt_append hr]
  | @ifElse t o ts condition c b ts₁ ss w b₂ ts₂ ss' ts₃ ht ho he hc hb hs hw hb₂ _ ihe ihs ihs₂ =>
    have ht' := excess_plain ht rfl (o :: ts)
    have ho' := excess_plain ho rfl ts
    have hc' := excess_plain hc rfl (b :: ts₁)
    have hb' := excess_open hb ts₁
    have hw' := excess_plain hw rfl (b₂ :: ts₂)
    have hb₂' := excess_open hb₂ ts₂
    have hj₁ : Terminated (c :: b :: ts₁) := Terminated.rest he hj.tail.tail
    have hj₂ : Terminated (w :: b₂ :: ts₂) := Terminated.rest hs hj₁.tail.tail
    rcases ihe hj.tail.tail with ⟨hnil, -⟩ | ⟨⟨-, hx⟩, he'⟩
    · cases hnil
    · rcases ihs hj₁.tail.tail with ⟨hnil, -⟩ | ⟨⟨-, hx'⟩, hs'⟩
      · cases hnil
      · rcases ihs₂ hj₂.tail.tail with ⟨hr, hx''⟩ | ⟨⟨hr, hx''⟩, hs₂'⟩
        · exact .inl ⟨hr, by omega⟩
        · exact .inr ⟨⟨hr, by omega⟩, .ifElse ht ho he' hc hb hs' hw hb₂ hs₂'⟩
  | @function t o ts names b ts₁ ss ts₂ ht ho hn hb _ ihs =>
    have ht' := excess_plain ht rfl (o :: ts)
    have ho' := excess_plain ho rfl ts
    have hb' := excess_open hb ts₁
    obtain ⟨hx, hn'⟩ := parameters_append hn us
    have hj₁ : Terminated ts₁ := by
      obtain ⟨vs, c, rfl, -, -⟩ := words_of_parameters hn
      have hj₂ : Terminated (c :: b :: ts₁) := hj.tail.tail.suffix (List.suffix_append vs _)
      exact hj₂.tail.tail
    rcases ihs hj₁ with ⟨hr, hx'⟩ | ⟨⟨hr, hx'⟩, hs'⟩
    · exact .inl ⟨hr, by omega⟩
    · exact .inr ⟨⟨hr, by omega⟩, .function ht ho hn' hb hs'⟩
  | noItems hc =>
    intro hp
    exact ⟨finished_plain hj hc hp, .noItems hc⟩
  | @items closing ts e ts₁ es ts₂ hn he hm ihe ihm =>
    intro hp
    rcases ihe hj with ⟨rfl, -⟩ | ⟨⟨-, hx⟩, he'⟩
    · cases hm
    · obtain ⟨⟨hr, hx'⟩, hm'⟩ := ihm (Terminated.rest he hj) hp
      refine ⟨⟨hr, by omega⟩, .items ?_ he' hm'⟩
      rwa [kindAt_append (ne_nil_of_expression he)]
  | noMoreItems hn hc =>
    intro hp
    exact ⟨finished_plain hj hc hp, .noMoreItems hn hc⟩
  | @moreItems closing m ts e ts₁ es ts₂ hm he hi ihe ihi =>
    intro hp
    have hm' := excess_plain hm rfl ts
    rcases ihe hj.tail with ⟨rfl, -⟩ | ⟨⟨-, hx⟩, he'⟩
    · cases hi
    · obtain ⟨⟨hr, hx'⟩, hi'⟩ := ihi (Terminated.rest he hj.tail) hp
      exact ⟨⟨hr, by omega⟩, .moreItems hm he' hi'⟩
  | @noPairs c ts hc =>
    exact ⟨⟨Terminated.ne_nil hj (by rw [hc]; decide), excess_close hc ts⟩, .noPairs hc⟩
  | @lastPair ts key m ts₁ value c ts₂ hn hk hm hv hc ihk ihv =>
    have hm' := excess_plain hm rfl ts₁
    have hc' := excess_close hc ts₂
    have hj₁ : Terminated (m :: ts₁) := Terminated.rest hk hj
    have hj₂ : Terminated (c :: ts₂) := Terminated.rest hv hj₁.tail
    rcases ihk hj with ⟨hnil, -⟩ | ⟨⟨-, hx⟩, hk'⟩
    · cases hnil
    · rcases ihv hj₁.tail with ⟨hnil, -⟩ | ⟨⟨-, hx'⟩, hv'⟩
      · cases hnil
      · refine ⟨⟨hj₂.ne_nil (by rw [hc]; decide), by omega⟩, .lastPair ?_ hk' hm hv' hc⟩
        rwa [kindAt_append (ne_nil_of_expression hk)]
  | @pairs ts key m ts₁ value c ts₂ ps ts₃ hn hk hm hv hc hp ihk ihv ihp =>
    have hm' := excess_plain hm rfl ts₁
    have hc' := excess_plain hc rfl ts₂
    have hj₁ : Terminated (m :: ts₁) := Terminated.rest hk hj
    have hj₂ : Terminated (c :: ts₂) := Terminated.rest hv hj₁.tail
    rcases ihk hj with ⟨hnil, -⟩ | ⟨⟨-, hx⟩, hk'⟩
    · cases hnil
    · rcases ihv hj₁.tail with ⟨hnil, -⟩ | ⟨⟨-, hx'⟩, hv'⟩
      · cases hnil
      · obtain ⟨⟨hr, hx''⟩, hp'⟩ := ihp hj₂.tail
        refine ⟨⟨hr, by omega⟩, .pairs ?_ hk' hm hv' hc hp'⟩
        rwa [kindAt_append (ne_nil_of_expression hk)]
  | openBlock => exact .inl ⟨rfl, by decide⟩
  | @closeBlock c ts hc =>
    have hc' : c.kind = .rightBrace := hc.resolve_right (hj.endless c List.mem_cons_self)
    exact .inr ⟨⟨Terminated.ne_nil hj (by rw [hc']; decide), excess_close hc' ts⟩, .closeBlock hc⟩
  | @block t ts s ts₁ ss ts₂ hn hs hb ihs ihb =>
    rcases ihs hj with ⟨rfl, hx⟩ | ⟨hx, hs'⟩
    · exact .inl ⟨List.suffix_nil.1 (suffix_of_derives hb), by omega⟩
    · rcases ihb (Terminated.rest hs hj) with ⟨hr, hx'⟩ | ⟨⟨hr, hx'⟩, hb'⟩
      · exact .inl ⟨hr, by omega⟩
      · exact .inr ⟨⟨hr, by omega⟩, .block hn hs' hb'⟩
  | @letBind t i q ts value ts₁ ht hi hq _ ihe =>
    have ht' := excess_plain ht rfl (i :: q :: ts)
    have hi' := excess_plain hi rfl (q :: ts)
    have hq' := excess_plain hq rfl ts
    have ho := excess_optionalSemicolon ts₁
    rcases ihe hj.tail.tail.tail with ⟨rfl, hx⟩ | ⟨⟨hne, hx⟩, he'⟩
    · exact .inl ⟨rfl, by omega⟩
    · refine .inr ⟨by omega, ?_⟩
      rw [← optionalSemicolon_append hne]
      exact .letBind ht hi hq he'
  | @returnNothing t ts ht hn =>
    have ht' := excess_plain ht rfl ts
    have ho := excess_optionalSemicolon ts
    have hne := Terminated.ne_nil hj (by rw [ht]; decide)
    have hn' : EndsReturn (kindAt (ts ++ us)) := by rwa [kindAt_append hne]
    refine .inr ⟨by omega, ?_⟩
    rw [← optionalSemicolon_append hne]
    exact .returnNothing ht hn'
  | @returnValue t ts value ts₁ ht hn he ihe =>
    have ht' := excess_plain ht rfl ts
    have ho := excess_optionalSemicolon ts₁
    rcases ihe hj.tail with ⟨rfl, hx⟩ | ⟨⟨hne, hx⟩, he'⟩
    · exact .inl ⟨rfl, by omega⟩
    · have hn' : ¬ EndsReturn (kindAt (ts ++ us)) := by
        rwa [kindAt_append (ne_nil_of_expression he)]
      refine .inr ⟨by omega, ?_⟩
      rw [← optionalSemicolon_append hne]
      exact .returnValue ht hn' he'
  | @expressionStatement t ts e ts₁ hl hr _ ihe =>
    have ho := excess_optionalSemicolon ts₁
    rcases ihe hj with ⟨rfl, hx⟩ | ⟨⟨hne, hx⟩, he'⟩
    · exact .inl ⟨rfl, by omega⟩
    · refine .inr ⟨by omega, ?_⟩
      rw [← optionalSemicolon_append hne]
      exact .expressionStatement hl hr he'

/-- Statements that end with a `;` and leave no block open are read in the same way
    whatever follows, and then what follows is read. -/
theorem rounds_append {ts : List Token} {ss : List Statement} (hts : Terminated ts)
    (hx : excess ts = 0) (h : rounds ts = ss.map .ok) (us : List Token) :
    rounds (ts ++ us) = ss.map .ok ++ rounds us := by
  fun_induction rounds ts generalizing ss with
  | case1 => rw [← h, List.nil_append, List.nil_append]
  | case2 t ts ht => exact absurd ht (hts.endless t List.mem_cons_self)
  | case3 t ts ht s ts₁ h₁ e ih =>
    obtain ⟨s', ss, rfl, hs, hss⟩ := List.map_eq_cons_iff.1 h.symm
    cases hs
    have hd : Derives (.statement (t :: ts) s ts₁) := derives_iff.2 ⟨h₁, e⟩
    rcases continues_of_derives us hd hts with ⟨-, hx'⟩ | ⟨hx', hd'⟩
    · omega
    · obtain ⟨h₂, e'⟩ := holds_of_derives hd'
      have hr : rounds (t :: (ts ++ us)) = .ok s :: rounds (ts₁ ++ us) := rounds_of_ok ht e'
      rw [List.cons_append, hr, List.map_cons, List.cons_append]
      rw [ih (Terminated.rest hd hts) (hx'.symm.trans hx) hss.symm]
  | case4 t ts ht f e _ ih =>
    obtain ⟨s, ss, rfl, hs, -⟩ := List.map_eq_cons_iff.1 h.symm
    cases hs

end Rule

end Monkey
