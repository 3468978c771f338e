import Monkey.Proofs.Syntax.Grammar
import Monkey.Syntax.MapTokens
import Monkey.Syntax.Parser

/-!
  Monkey/Proofs/Syntax/Transport.lean
  ===================================
  **Reading goes by the kinds and the texts of tokens.**

  If `f` keeps the kind and the text of every token, for example because it changes
  lines only, then what is read from tokens changed by `f` is what is read from the
  tokens themselves, changed by `f` (`derives_mapTokens`).
-/
namespace Monkey

/-- A change of tokens after which each has the kind and the text that it had. -/
structure Token.KeepsText (f : Token → Token) : Prop where
  kind : ∀ t, (f t).kind = t.kind
  literal : ∀ t, (f t).literal = t.literal

namespace Rule

variable {f : Token → Token} (hf : Token.KeepsText f)

include hf

theorem ofToken_mapTokens (t : Token) :
    Identifier.ofToken (f t) = (Identifier.ofToken t).mapTokens f := by
  rw [Identifier.ofToken, hf.literal]
  rfl

theorem kindAt_map (ts : List Token) : kindAt (ts.map f) = kindAt ts := by
  cases ts with
  | nil => rfl
  | cons t ts => exact hf.kind t

theorem optionalSemicolon_map (ts : List Token) :
    (optionalSemicolon (ts.map f)).1 = (optionalSemicolon ts).1.map f := by
  cases ts with
  | nil => rfl
  | cons t ts =>
    rw [List.map_cons]
    by_cases ht : t.kind = .semicolon
    · rw [optionalSemicolon_of_eq ht, optionalSemicolon_of_eq ((hf.kind t).trans ht)]
    · have ht' : (f t).kind ≠ .semicolon := by rwa [hf.kind]
      rw [optionalSemicolon_of_ne ht, optionalSemicolon_of_ne ht', List.map_cons]

theorem WordsMoreNames.map {ids : List Identifier} {ts : List Token} (h : WordsMoreNames ids ts) :
    WordsMoreNames (ids.map (Identifier.mapTokens f)) (ts.map f) := by
  induction h with
  | nil => exact .nil
  | cons hm ht _ ih =>
    rw [List.map_cons, ← ofToken_mapTokens hf]
    exact .cons ((hf.kind _).trans hm) ((hf.kind _).trans ht) ih

theorem WordsNames.map {ids : List Identifier} {ts : List Token} (h : WordsNames ids ts) :
    WordsNames (ids.map (Identifier.mapTokens f)) (ts.map f) := by
  cases h with
  | nil => exact .nil
  | cons ht h =>
    rw [List.map_cons, ← ofToken_mapTokens hf]
    exact .cons ((hf.kind _).trans ht) (h.map hf)

theorem parameters_map {ts rest : List Token} {ids : List Identifier}
    (h : Yields (parameters ts) ids rest) :
    Yields (parameters (ts.map f)) (ids.map (Identifier.mapTokens f)) (rest.map f) := by
  obtain ⟨us, c, rfl, hc, hw⟩ := words_of_parameters h
  rw [List.map_append]
  exact parameters_of_words (hw.map hf) ((hf.kind c).trans hc) (rest.map f)

omit hf in
/-- The judgement about the changed tokens. -/
def Judgement.mapTokens (f : Token → Token) : Judgement → Judgement
  | expression level ts e rest => .expression level (ts.map f) (e.mapTokens f) (rest.map f)
  | extension level left ts e rest =>
    .extension level (left.mapTokens f) (ts.map f) (e.mapTokens f) (rest.map f)
  | operand ts e rest => .operand (ts.map f) (e.mapTokens f) (rest.map f)
  | items closing ts es rest => .items closing (ts.map f) (Expr.mapTokensAll f es) (rest.map f)
  | moreItems closing ts es rest =>
    .moreItems closing (ts.map f) (Expr.mapTokensAll f es) (rest.map f)
  | pairs ts ps rest => .pairs (ts.map f) (Expr.mapTokensPairs f ps) (rest.map f)
  | block ts ss rest => .block (ts.map f) (Statement.mapTokensAll f ss) (rest.map f)
  | statement ts s rest => .statement (ts.map f) (s.mapTokens f) (rest.map f)

theorem derives_mapTokens {j : Judgement} (h : Derives j) : Derives (j.mapTokens f) := by
  have hk {t : Token} {k : Token.Kind} (ht : t.kind = k) : (f t).kind = k := (hf.kind t).trans ht
  induction h with
  | expression _ _ iho ihe => exact .expression iho ihe
  | stop h =>
    refine .stop ?_
    rwa [kindAt_map hf]
  | @infixOp _ _ t _ _ _ _ _ _ ht hl _ _ ihr ihe =>
    rw [← hf.kind t] at ht hl ihr
    exact .infixOp ht hl ihr ihe
  | call ht hl _ _ ihi ihe => exact .call (hk ht) hl ihi ihe
  | index ht hl _ hc _ ihi ihe => exact .index (hk ht) hl ihi (hk hc) ihe
  | @identifier t ts ht =>
    have hd : Derives (.operand (f t :: ts.map f) (.identifier (.ofToken (f t))) (ts.map f)) :=
      .identifier (hk ht)
    rwa [ofToken_mapTokens hf] at hd
  | integer ht hv =>
    refine .integer (hk ht) ?_
    rwa [hf.literal]
  | @string t ts ht =>
    have hd : Derives (.operand (f t :: ts.map f) (.string (f t) (f t).literal) (ts.map f)) :=
      .string (hk ht)
    rwa [hf.literal] at hd
  | true ht => exact .true (hk ht)
  | false ht => exact .false (hk ht)
  | bang ht _ ihr => exact .bang (hk ht) ihr
  | minus ht _ ihr => exact .minus (hk ht) ihr
  | group ht _ hc ihe => exact .group (hk ht) ihe (hk hc)
  | array ht _ ihi => exact .array (hk ht) ihi
  | hash ht _ ihp => exact .hash (hk ht) ihp
  | ifThen ht ho _ hc hb _ hn ihe ihs =>
    refine .ifThen (hk ht) (hk ho) ihe (hk hc) (hk hb) ihs ?_
    rwa [kindAt_map hf]
  | ifElse ht ho _ hc hb _ hw hb' _ ihe ihs ihs' =>
    exact .ifElse (hk ht) (hk ho) ihe (hk hc) (hk hb) ihs (hk hw) (hk hb') ihs'
  | function ht ho hn hb _ ihs =>
    exact .function (hk ht) (hk ho) (parameters_map hf hn) (hk hb) ihs
  | noItems hc => exact .noItems (hk hc)
  | items hn _ _ ihe ihm =>
    refine .items ?_ ihe ihm
    rwa [kindAt_map hf]
  | noMoreItems hn hc =>
    refine .noMoreItems ?_ (hk hc)
    rwa [hf.kind]
  | moreItems hm _ _ ihe ihi => exact .moreItems (hk hm) ihe ihi
  | noPairs hc => exact .noPairs (hk hc)
  | lastPair hn _ hm _ hc ihk ihv =>
    refine .lastPair ?_ ihk (hk hm) ihv (hk hc)
    rwa [kindAt_map hf]
  | pairs hn _ hm _ hc _ ihk ihv ihp =>
    refine .pairs ?_ ihk (hk hm) ihv (hk hc) ihp
    rwa [kindAt_map hf]
  | openBlock => exact .openBlock
  | closeBlock hc =>
    refine .closeBlock ?_
    rwa [hf.kind]
  | block hn _ _ ihs ihb =>
    refine .block ?_ ihs ihb
    rwa [hf.kind]
  | letBind ht hi hq _ ihe =>
    rw [Judgement.mapTokens, ← optionalSemicolon_map hf, Statement.mapTokens,
      ← ofToken_mapTokens hf]
    exact .letBind (hk ht) (hk hi) (hk hq) ihe
  | returnNothing ht hn =>
    rw [Judgement.mapTokens, ← optionalSemicolon_map hf]
    refine .returnNothing (hk ht) ?_
    rwa [kindAt_map hf]
  | returnValue ht hn _ ihe =>
    rw [Judgement.mapTokens, ← optionalSemicolon_map hf]
    refine .returnValue (hk ht) ?_ ihe
    rwa [kindAt_map hf]
  | expressionStatement hl hr _ ihe =>
    rw [Judgement.mapTokens, ← optionalSemicolon_map hf]
    refine .expressionStatement ?_ ?_ ihe
    · rwa [hf.kind]
    · rwa [hf.kind]

/-- Where no round fails, the statements that are read from the changed tokens are the
    changed statements. -/
theorem rounds_map {ts : List Token} {ss : List Statement} (h : rounds ts = ss.map .ok) :
    rounds (ts.map f) = (Statement.mapTokensAll f ss).map .ok := by
  fun_induction rounds ts generalizing ss with
  | case1 =>
    obtain rfl := List.map_eq_nil_iff.1 h.symm
    rw [List.map_nil, rounds]
    rfl
  | case2 t ts ht =>
    obtain rfl := List.map_eq_nil_iff.1 h.symm
    rw [List.map_cons, rounds, if_pos ((hf.kind t).trans ht)]
    rfl
  | case3 t ts ht s ts₁ h₁ e ih =>
    obtain ⟨s', ss, rfl, hs, hss⟩ := List.map_eq_cons_iff.1 h.symm
    cases hs
    have hd : Derives (.statement (t :: ts) s ts₁) := derives_iff.2 ⟨h₁, e⟩
    obtain ⟨h₂, e'⟩ := holds_of_derives (derives_mapTokens hf hd)
    have ht' : ¬ (f t).kind = .endOfInput := by rwa [hf.kind]
    rw [List.map_cons, rounds_of_ok ht' e', ih hss.symm]
    rfl
  | case4 t ts ht f' e _ ih =>
    obtain ⟨s, ss, rfl, hs, -⟩ := List.map_eq_cons_iff.1 h.symm
    cases hs

end Rule

end Monkey
