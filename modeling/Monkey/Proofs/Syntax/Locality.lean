import Monkey.Proofs.Syntax.Append

/-!
  Monkey/Proofs/Syntax/Locality.lean
  ==================================
  **A fault stays within its statement.**

  Tokens that are read without a failure may be followed by anything
  (`rounds_append`).  This is about tokens that are not.  If the last of them is a `;`
  and no part at their end opens more braces than it closes (`Closing`), then a rule
  comes to its outcome, whether it reads something or fails, in front of that `;` or
  behind it, and never by looking further.  So it comes to the same outcome whatever
  follows (`undisturbed_rules`).

  The braces are counted as before.  A block that is opened has more closing than
  opening braces in front of it, and is closed before the tokens are used up.  Inside
  of it this stays so, and hence a rule that fails there fails in front of the closing
  brace.

  After a failure the next statement is looked for behind the next `;`, and the last
  token is one.  So programs with such tokens in front are read piece by piece
  (`rounds_append_of_closing`).
-/
namespace Monkey

/-- The failure, where more tokens follow. -/
def Failure.before (us : List Token) (f : Failure) : Failure :=
  { f with remaining := f.remaining ++ us }

/-- The line of a failure in front of some token is that of the token. -/
theorem Failure.diagnostic_congr {f : Failure} (hf : f.remaining ≠ []) (l l' : Nat) :
    f.diagnostic l = f.diagnostic l' := by
  obtain ⟨problem, _ | ⟨t, ts⟩⟩ := f
  · exact absurd rfl hf
  · rfl

theorem Failure.diagnostic_before {f : Failure} (hf : f.remaining ≠ []) (us : List Token)
    (l l' : Nat) : (f.before us).diagnostic l = f.diagnostic l' := by
  obtain ⟨problem, _ | ⟨t, ts⟩⟩ := f
  · exact absurd rfl hf
  · rfl

namespace Rule

/-! ### Tokens that close what they open -/

/-- The last token is a `;`, and no part at the end opens more braces than it
    closes. -/
structure Closing (ts : List Token) : Prop where
  terminated : Terminated ts
  excess_le : ∀ us, us <:+ ts → excess us ≤ 0

namespace Closing

theorem suffix {ts us : List Token} (h : Closing ts) (hs : us <:+ ts) : Closing us where
  terminated := h.terminated.suffix hs
  excess_le _ hv := h.excess_le _ (hv.trans hs)

theorem tail {t : Token} {ts : List Token} (h : Closing (t :: ts)) : Closing ts :=
  h.suffix (List.suffix_cons t ts)

theorem ne_nil {t : Token} {ts : List Token} (h : Closing (t :: ts)) (ht : t.kind ≠ .semicolon) :
    ts ≠ [] :=
  h.terminated.ne_nil ht

end Closing

/-- Tokens are left, and the opening braces outnumber the closing ones by `m`. -/
def Leaves (m : Int) (rest : List Token) : Prop :=
  rest ≠ [] ∧ excess rest = m

/-! ### Two outcomes of a rule -/

/-- The outcomes of a rule that is given `ts`, and `ts` with `us` behind.  Either both
    times it reads the same, and for what it leaves of `ts` the condition `R` holds; or
    both times it fails in the same way, in front of a token of `ts` and inside of a
    block, if it was inside of one: the excess there is at most `n`. -/
inductive Undisturbed (us ts : List Token) (n : Int) (R : List Token → Prop)
    {P Q : List Token → Prop} :
    Except Failure (α × { rest // P rest }) → Except Failure (α × { rest // Q rest }) → Prop where
  | ok {a rest hp hq} (hs : rest <:+ ts) (hr : R rest) :
      Undisturbed us ts n R (.ok (a, ⟨rest, hp⟩)) (.ok (a, ⟨rest ++ us, hq⟩))
  | error {f} (hs : f.remaining <:+ ts) (hne : f.remaining ≠ []) (hx : excess f.remaining ≤ n) :
      Undisturbed us ts n R (.error f) (.error (f.before us))

namespace Undisturbed

variable {us : List Token} {R S P P' Q Q' : List Token → Prop}

theorem mono {ts ts' : List Token} {n n' : Int} {x : Except Failure (α × { rest // P rest })}
    {y : Except Failure (α × { rest // Q rest })} (h : Undisturbed us ts n R x y)
    (hs : ts <:+ ts') (hn : n ≤ n') : Undisturbed us ts' n' R x y := by
  cases h with
  | ok hs' hr => exact .ok (hs'.trans hs) hr
  | error hs' hne hx => exact .error (hs'.trans hs) hne (Int.le_trans hx hn)

/-- A rule on what others left, as a part of one that was given more. -/
theorem further {ts rest : List Token} {k n m m' : Int}
    {x : Except Failure (α × { rest // P rest })} {y : Except Failure (α × { rest // Q rest })}
    (h : Undisturbed us rest k (Leaves m) x y) (hs : rest <:+ ts) (hm : m = m') (hk : k ≤ n) :
    Undisturbed us ts n (Leaves m') x y := by
  subst hm
  exact h.mono hs hk

/-- One rule after another. -/
theorem bind {ts : List Token} {n : Int} {x : Except Failure (α × { rest // P rest })}
    {y : Except Failure (α × { rest // Q rest })}
    {f : α × { rest // P rest } → Except Failure (β × { rest // P' rest })}
    {g : α × { rest // Q rest } → Except Failure (β × { rest // Q' rest })}
    (h : Undisturbed us ts n R x y)
    (hfg : ∀ a rest hp hq, rest <:+ ts → R rest →
      Undisturbed us ts n S (f (a, ⟨rest, hp⟩)) (g (a, ⟨rest ++ us, hq⟩))) :
    Undisturbed us ts n S (x >>= f) (y >>= g) := by
  cases h with
  | ok hs hr => exact hfg _ _ _ _ hs hr
  | error hs hne hx => exact .error hs hne hx

end Undisturbed

/-! ### The rules without expressions -/

variable (us : List Token)

theorem undisturbed_expect {k : Token.Kind} (hk : k ≠ .semicolon) {ts : List Token}
    (hts : Closing ts) (hne : ts ≠ []) {m : Int} (hm : excess ts = k.weight + m) :
    Undisturbed us ts (excess ts) (Leaves m) (expect k ts) (expect k (ts ++ us)) := by
  obtain ⟨t, ts, rfl⟩ := List.exists_cons_of_ne_nil hne
  rw [List.cons_append, expect, expect]
  by_cases ht : t.kind = k
  · rw [if_pos ht, if_pos ht]
    rw [excess, ht] at hm
    exact .ok (List.suffix_cons t ts) ⟨hts.ne_nil (ht ▸ hk), by omega⟩
  · rw [if_neg ht, if_neg ht]
    exact .error (f := ⟨.unexpected k t.kind, t :: ts⟩) List.suffix_rfl hne (Int.le_refl _)

/-- A token that is no brace. -/
theorem undisturbed_plain {k : Token.Kind} (hk : k.Plain) {ts : List Token} (hts : Closing ts)
    (hne : ts ≠ []) :
    Undisturbed us ts (excess ts) (Leaves (excess ts)) (expect k ts) (expect k (ts ++ us)) := by
  refine undisturbed_expect us hk.2 hts hne ?_
  rw [hk.1, Int.zero_add]

theorem undisturbed_open {ts : List Token} (hts : Closing ts) (hne : ts ≠ []) :
    Undisturbed us ts (excess ts) (Leaves (excess ts - 1)) (expect .leftBrace ts)
      (expect .leftBrace (ts ++ us)) := by
  refine undisturbed_expect us (by decide) hts hne ?_
  rw [Token.Kind.weight]
  omega

theorem undisturbed_close {ts : List Token} (hts : Closing ts) (hne : ts ≠ []) :
    Undisturbed us ts (excess ts) (Leaves (excess ts + 1)) (expect .rightBrace ts)
      (expect .rightBrace (ts ++ us)) := by
  refine undisturbed_expect us (by decide) hts hne ?_
  rw [Token.Kind.weight]
  omega

theorem undisturbed_moreParameters {ts : List Token} (hts : Closing ts) (hne : ts ≠ []) :
    Undisturbed us ts (excess ts) (Leaves (excess ts)) (moreParameters ts)
      (moreParameters (ts ++ us)) := by
  fun_induction moreParameters ts with
  | case1 => exact absurd rfl hne
  | case2 t rest ht ih =>
    have hx := excess_plain ht rfl rest
    have hrest : rest ≠ [] := hts.ne_nil (by rw [ht]; decide)
    have he := undisturbed_plain us (k := .identifier) ⟨rfl, by decide⟩ hts.tail hrest
    rw [List.cons_append, moreParameters, if_pos ht]
    refine .bind (he.further (List.suffix_cons t rest) hx.symm (by omega)) ?_
    rintro name ts₁ h₁ _ s₁ ⟨hne₁, hx₁⟩
    have hm := ih ts₁ h₁ (hts.suffix s₁) hne₁
    exact .bind (hm.further s₁ hx₁ (by omega)) fun _ _ _ _ s l => .ok s l
  | case3 t rest ht =>
    rw [List.cons_append, moreParameters, if_neg ht]
    have he := undisturbed_plain us (k := .rightParen) ⟨rfl, by decide⟩ hts hne
    exact .bind he fun _ _ _ _ s l => .ok s l

theorem undisturbed_parameters {ts : List Token} (hts : Closing ts) (hne : ts ≠ []) :
    Undisturbed us ts (excess ts) (Leaves (excess ts)) (parameters ts)
      (parameters (ts ++ us)) := by
  unfold parameters
  rw [kindAt_append hne]
  by_cases hk : kindAt ts = .rightParen
  · rw [if_pos hk, if_pos hk]
    have he := undisturbed_plain us (k := .rightParen) ⟨rfl, by decide⟩ hts hne
    exact .bind he fun _ _ _ _ s l => .ok s l
  · rw [if_neg hk, if_neg hk]
    have he := undisturbed_plain us (k := .identifier) ⟨rfl, by decide⟩ hts hne
    refine .bind he ?_
    rintro name ts₁ h₁ _ s₁ ⟨hne₁, hx₁⟩
    have hm := undisturbed_moreParameters us (hts.suffix s₁) hne₁
    exact .bind (hm.further s₁ hx₁ (by omega)) fun _ _ _ _ s l => .ok s l

/-! ### Expressions and statements -/

/-- A token that is an operand on its own. -/
theorem undisturbed_leaf {t : Token} {k : Token.Kind} {ts : List Token} (hts : Closing (t :: ts))
    (ht : t.kind = k) (hk : k.Plain) {P Q : List Token → Prop} (e : Expr) {hp : P ts}
    {hq : Q (ts ++ us)} :
    Undisturbed us (t :: ts) (excess (t :: ts)) (Leaves (excess (t :: ts))) (P := P) (Q := Q)
      (.ok (e, ⟨ts, hp⟩)) (.ok (e, ⟨ts ++ us, hq⟩)) :=
  .ok (List.suffix_cons t ts) ⟨hts.ne_nil (ht ▸ hk.2), (excess_plain ht hk.1 ts).symm⟩

/-- A `;` that may be missing ends a statement. -/
theorem undisturbed_semicolon {ts rest : List Token} {n m : Int} {P Q : List Token → Prop} {a : α}
    {hp : P (optionalSemicolon rest).1} {hq : Q (optionalSemicolon (rest ++ us)).1}
    (hs : rest <:+ ts) (hne : rest ≠ []) (hx : excess rest = m) :
    Undisturbed us ts n (fun rest => excess rest = m) (P := P) (Q := Q)
      (.ok (a, ⟨(optionalSemicolon rest).1, hp⟩))
      (.ok (a, ⟨(optionalSemicolon (rest ++ us)).1, hq⟩)) := by
  simp only [optionalSemicolon_append hne]
  exact .ok ((suffix_optionalSemicolon rest).trans hs) ((excess_optionalSemicolon rest).trans hx)

/-- All rules come to the same outcome whatever follows.  A block is opened in front of its
    rule, and so is a hash literal. -/
def undisturbed : Property where
  expression level ts := Closing ts → ts ≠ [] →
    Undisturbed us ts (excess ts) (Leaves (excess ts)) (expression level ts)
      (expression level (ts ++ us))
  extend level left ts := Closing ts → ts ≠ [] →
    Undisturbed us ts (excess ts) (Leaves (excess ts)) (extend level left ts)
      (extend level left (ts ++ us))
  operand ts := Closing ts → ts ≠ [] →
    Undisturbed us ts (excess ts) (Leaves (excess ts)) (operand ts) (operand (ts ++ us))
  conditional t ts := Closing ts → ts ≠ [] →
    Undisturbed us ts (excess ts) (Leaves (excess ts)) (conditional t ts)
      (conditional t (ts ++ us))
  items closing ts := closing.Plain → Closing ts → ts ≠ [] →
    Undisturbed us ts (excess ts) (Leaves (excess ts)) (items closing ts)
      (items closing (ts ++ us))
  moreItems closing ts := closing.Plain → Closing ts → ts ≠ [] →
    Undisturbed us ts (excess ts) (Leaves (excess ts)) (moreItems closing ts)
      (moreItems closing (ts ++ us))
  pairs ts := Closing ts → ts ≠ [] →
    Undisturbed us ts (excess ts) (Leaves (excess ts + 1)) (pairs ts) (pairs (ts ++ us))
  blockBody ts := Closing ts → excess ts < 0 →
    Undisturbed us ts (excess ts) (Leaves (excess ts + 1)) (blockBody ts) (blockBody (ts ++ us))
  statement ts := Closing ts → ts ≠ [] →
    Undisturbed us ts (excess ts) (fun rest => excess rest = excess ts) (statement ts)
      (statement (ts ++ us))

section

variable {us} {ts : List Token} (below : (undisturbed us).Below ts)

include below

theorem undisturbed_operand_of_below (hts : Closing ts) (hne : ts ≠ []) :
    Undisturbed us ts (excess ts) (Leaves (excess ts)) (operand ts) (operand (ts ++ us)) := by
  obtain ⟨t, rest, rfl⟩ := List.exists_cons_of_ne_nil hne
  have on := below.tail
  have hs : rest <:+ t :: rest := List.suffix_cons t rest
  have hrest (hk : t.kind ≠ .semicolon) : rest ≠ [] := hts.ne_nil hk
  cases hk : t.kind with
  | identifier | string | trueWord | falseWord =>
    simp only [List.cons_append, operand, hk]
    exact undisturbed_leaf us hts hk ⟨rfl, by decide⟩ _
  | integer =>
    simp only [List.cons_append, operand, hk]
    split
    · exact undisturbed_leaf us hts hk ⟨rfl, by decide⟩ _
    · exact .error (f := ⟨.notAnInteger t.literal, t :: rest⟩) List.suffix_rfl hne (Int.le_refl _)
  | bang | minus =>
    have ht := excess_plain hk rfl rest
    have hr := on.expression .prefixOp hts.tail (hrest (by rw [hk]; decide))
    simp only [List.cons_append, operand, hk]
    exact .bind (hr.further hs ht.symm (by omega)) fun _ _ _ _ s l => .ok s l
  | leftParen =>
    have ht := excess_plain hk rfl rest
    have he := on.expression .lowest hts.tail (hrest (by rw [hk]; decide))
    simp only [List.cons_append, operand, hk]
    refine .bind (he.further hs ht.symm (by omega)) ?_
    rintro e ts₁ h₁ _ s₁ ⟨hne₁, hx₁⟩
    have hc := undisturbed_plain us (k := .rightParen) ⟨rfl, by decide⟩ (hts.suffix s₁) hne₁
    exact .bind (hc.further s₁ hx₁ (by omega)) fun _ _ _ _ s l => .ok s l
  | leftBracket =>
    have ht := excess_plain hk rfl rest
    have hi := on.items .rightBracket ⟨rfl, by decide⟩ hts.tail (hrest (by rw [hk]; decide))
    simp only [List.cons_append, operand, hk]
    exact .bind (hi.further hs ht.symm (by omega)) fun _ _ _ _ s l => .ok s l
  | leftBrace =>
    have ht := excess_open hk rest
    have hp := on.pairs hts.tail (hrest (by rw [hk]; decide))
    simp only [List.cons_append, operand, hk]
    exact .bind (hp.further hs (by omega) (by omega)) fun _ _ _ _ s l => .ok s l
  | ifWord =>
    have ht := excess_plain hk rfl rest
    have hc := on.conditional t hts.tail (hrest (by rw [hk]; decide))
    simp only [List.cons_append, operand, hk]
    exact .bind (hc.further hs ht.symm (by omega)) fun _ _ _ _ s l => .ok s l
  | fnWord =>
    have ht := excess_plain hk rfl rest
    have ho := undisturbed_plain us (k := .leftParen) ⟨rfl, by decide⟩ hts.tail
      (hrest (by rw [hk]; decide))
    simp only [List.cons_append, operand, hk]
    refine .bind (ho.further hs ht.symm (by omega)) ?_
    rintro _ ts₁ h₁ _ s₁ ⟨hne₁, hx₁⟩
    have hn := undisturbed_parameters us (hts.suffix s₁) hne₁
    refine .bind (hn.further s₁ hx₁ (by omega)) ?_
    rintro names ts₂ h₂ _ s₂ ⟨hne₂, hx₂⟩
    have hb := undisturbed_open us (hts.suffix s₂) hne₂
    refine .bind (hb.mono s₂ (by omega)) ?_
    rintro brace ts₃ h₃ _ s₃ ⟨_, hx₃⟩
    have hle := hts.excess_le _ List.suffix_rfl
    have body := (below ts₃ (by grind)).blockBody (hts.suffix s₃) (by omega)
    exact .bind (body.further s₃ (by omega) (by omega)) fun _ _ _ _ s l => .ok s l
  | _ =>
    simp only [List.cons_append, operand, hk]
    exact .error (f := ⟨.noOperand _, t :: rest⟩) List.suffix_rfl hne (Int.le_refl _)

theorem undisturbed_expression_of_below (ho : (undisturbed us).operand ts) (level : Precedence)
    (hts : Closing ts) (hne : ts ≠ []) :
    Undisturbed us ts (excess ts) (Leaves (excess ts)) (expression level ts)
      (expression level (ts ++ us)) := by
  simp only [expression]
  refine .bind (ho hts hne) ?_
  rintro left ts₁ h₁ _ s₁ ⟨hne₁, hx₁⟩
  have more := (below ts₁ h₁).extend level left (hts.suffix s₁) hne₁
  exact .bind (more.further s₁ hx₁ (by omega)) fun _ _ _ _ s l => .ok s l

theorem undisturbed_extend_of_below (level : Precedence) (left : Expr) (hts : Closing ts)
    (hne : ts ≠ []) :
    Undisturbed us ts (excess ts) (Leaves (excess ts)) (extend level left ts)
      (extend level left (ts ++ us)) := by
  obtain ⟨t, rest, rfl⟩ := List.exists_cons_of_ne_nil hne
  have on := below.tail
  have hs : rest <:+ t :: rest := List.suffix_cons t rest
  have stop : t :: rest <:+ t :: rest := List.suffix_rfl
  by_cases h : level < .of t.kind
  · cases hx : Extension.ofKind? t.kind with
    | none =>
      simp only [List.cons_append, extend, h, hx, if_true]
      exact .ok stop ⟨hne, rfl⟩
    | some x =>
      cases x with
      | infixOp op =>
        obtain ⟨hw, hk⟩ := plain_of_operator (operator_of_extension hx)
        have ht := excess_plain rfl hw rest
        have hr := on.expression (.of t.kind) hts.tail (hts.ne_nil hk)
        simp only [List.cons_append, extend, h, hx, if_true]
        refine .bind (hr.further hs ht.symm (by omega)) ?_
        rintro right ts₁ h₁ _ s₁ ⟨hne₁, hx₁⟩
        have more := (below ts₁ (by grind)).extend level (.infixOp t left op right) (hts.suffix s₁)
          hne₁
        exact .bind (more.further s₁ hx₁ (by omega)) fun _ _ _ _ s l => .ok s l
      | call =>
        have hk := kind_of_call hx
        have ht := excess_plain hk rfl rest
        have hi := on.items .rightParen ⟨rfl, by decide⟩ hts.tail (hts.ne_nil (by rw [hk]; decide))
        simp only [List.cons_append, extend, h, hx, if_true]
        refine .bind (hi.further hs ht.symm (by omega)) ?_
        rintro arguments ts₁ h₁ _ s₁ ⟨hne₁, hx₁⟩
        have more := (below ts₁ (by grind)).extend level (.call t left arguments) (hts.suffix s₁)
          hne₁
        exact .bind (more.further s₁ hx₁ (by omega)) fun _ _ _ _ s l => .ok s l
      | index =>
        have hk := kind_of_index hx
        have ht := excess_plain hk rfl rest
        have hi := on.expression .lowest hts.tail (hts.ne_nil (by rw [hk]; decide))
        simp only [List.cons_append, extend, h, hx, if_true]
        refine .bind (hi.further hs ht.symm (by omega)) ?_
        rintro i ts₁ h₁ _ s₁ ⟨hne₁, hx₁⟩
        have hc := undisturbed_plain us (k := .rightBracket) ⟨rfl, by decide⟩ (hts.suffix s₁) hne₁
        refine .bind (hc.further s₁ hx₁ (by omega)) ?_
        rintro _ ts₂ h₂ _ s₂ ⟨hne₂, hx₂⟩
        have more := (below ts₂ (by grind)).extend level (.index t left i) (hts.suffix s₂) hne₂
        exact .bind (more.further s₂ hx₂ (by omega)) fun _ _ _ _ s l => .ok s l
  · simp only [List.cons_append, extend, h, if_false]
    exact .ok stop ⟨hne, rfl⟩

theorem undisturbed_conditional_of_below (t : Token) (hts : Closing ts) (hne : ts ≠ []) :
    Undisturbed us ts (excess ts) (Leaves (excess ts)) (conditional t ts)
      (conditional t (ts ++ us)) := by
  have hle := hts.excess_le ts List.suffix_rfl
  simp only [conditional]
  refine .bind (undisturbed_plain us (k := .leftParen) ⟨rfl, by decide⟩ hts hne) ?_
  rintro _ ts₁ h₁ _ s₁ ⟨hne₁, hx₁⟩
  have condition := (below ts₁ h₁).expression .lowest (hts.suffix s₁) hne₁
  refine .bind (condition.further s₁ hx₁ (by omega)) ?_
  rintro condition ts₂ h₂ _ s₂ ⟨hne₂, hx₂⟩
  have hc := undisturbed_plain us (k := .rightParen) ⟨rfl, by decide⟩ (hts.suffix s₂) hne₂
  refine .bind (hc.further s₂ hx₂ (by omega)) ?_
  rintro _ ts₃ h₃ _ s₃ ⟨hne₃, hx₃⟩
  refine .bind ((undisturbed_open us (hts.suffix s₃) hne₃).mono s₃ (by omega)) ?_
  rintro brace ts₄ h₄ _ s₄ ⟨_, hx₄⟩
  have body := (below ts₄ (by grind)).blockBody (hts.suffix s₄) (by omega)
  refine .bind (body.mono s₄ (by omega)) ?_
  rintro statements ts₅ h₅ _ s₅ ⟨hne₅, hx₅⟩
  simp only [kindAt_append hne₅]
  split
  · have hw := undisturbed_plain us (k := .elseWord) ⟨rfl, by decide⟩ (hts.suffix s₅) hne₅
    refine .bind (hw.mono s₅ (by omega)) ?_
    rintro _ ts₆ h₆ _ s₆ ⟨hne₆, hx₆⟩
    refine .bind ((undisturbed_open us (hts.suffix s₆) hne₆).mono s₆ (by omega)) ?_
    rintro brace' ts₇ h₇ _ s₇ ⟨_, hx₇⟩
    have body' := (below ts₇ (by grind)).blockBody (hts.suffix s₇) (by omega)
    exact .bind (body'.further s₇ (by omega) (by omega)) fun _ _ _ _ s l => .ok s l
  · exact .ok s₅ ⟨hne₅, by omega⟩

theorem undisturbed_items_of_below (he : ∀ level, (undisturbed us).expression level ts)
    (closing : Token.Kind) (hp : closing.Plain) (hts : Closing ts) (hne : ts ≠ []) :
    Undisturbed us ts (excess ts) (Leaves (excess ts)) (items closing ts)
      (items closing (ts ++ us)) := by
  simp only [items, kindAt_append hne]
  split
  · exact .bind (undisturbed_plain us hp hts hne) fun _ _ _ _ s l => .ok s l
  · refine .bind (he .lowest hts hne) ?_
    rintro e ts₁ h₁ _ s₁ ⟨hne₁, hx₁⟩
    have more := (below ts₁ h₁).moreItems closing hp (hts.suffix s₁) hne₁
    exact .bind (more.further s₁ hx₁ (by omega)) fun _ _ _ _ s l => .ok s l

theorem undisturbed_moreItems_of_below (closing : Token.Kind) (hp : closing.Plain)
    (hts : Closing ts) (hne : ts ≠ []) :
    Undisturbed us ts (excess ts) (Leaves (excess ts)) (moreItems closing ts)
      (moreItems closing (ts ++ us)) := by
  obtain ⟨t, rest, rfl⟩ := List.exists_cons_of_ne_nil hne
  simp only [List.cons_append, moreItems]
  split
  · rename_i h
    have ht := excess_plain h rfl rest
    have he := below.tail.expression .lowest hts.tail (hts.ne_nil (by rw [h]; decide))
    refine .bind (he.further (List.suffix_cons t rest) ht.symm (by omega)) ?_
    rintro e ts₁ h₁ _ s₁ ⟨hne₁, hx₁⟩
    have more := (below ts₁ (by grind)).moreItems closing hp (hts.suffix s₁) hne₁
    exact .bind (more.further s₁ hx₁ (by omega)) fun _ _ _ _ s l => .ok s l
  · exact .bind (undisturbed_plain us hp hts hne) fun _ _ _ _ s l => .ok s l

theorem undisturbed_pairs_of_below (he : ∀ level, (undisturbed us).expression level ts)
    (hts : Closing ts) (hne : ts ≠ []) :
    Undisturbed us ts (excess ts) (Leaves (excess ts + 1)) (pairs ts) (pairs (ts ++ us)) := by
  rw [pairs, pairs, kindAt_append hne]
  split
  · exact .bind (undisturbed_close us hts hne) fun _ _ _ _ s l => .ok s l
  · refine .bind (he .lowest hts hne) ?_
    rintro key ts₁ h₁ _ s₁ ⟨hne₁, hx₁⟩
    have hm := undisturbed_plain us (k := .colon) ⟨rfl, by decide⟩ (hts.suffix s₁) hne₁
    refine .bind (hm.further s₁ hx₁ (by omega)) ?_
    rintro _ ts₂ h₂ _ s₂ ⟨hne₂, hx₂⟩
    have value := (below ts₂ (by grind)).expression .lowest (hts.suffix s₂) hne₂
    refine .bind (value.further s₂ hx₂ (by omega)) ?_
    rintro value ts₃ h₃ _ s₃ ⟨hne₃, hx₃⟩
    simp only [kindAt_append hne₃]
    split
    · have hc := undisturbed_close us (hts.suffix s₃) hne₃
      exact .bind (hc.further s₃ (by omega) (by omega)) fun _ _ _ _ s l => .ok s l
    · have hc := undisturbed_plain us (k := .comma) ⟨rfl, by decide⟩ (hts.suffix s₃) hne₃
      refine .bind (hc.further s₃ hx₃ (by omega)) ?_
      rintro _ ts₄ h₄ _ s₄ ⟨hne₄, hx₄⟩
      have more := (below ts₄ (by grind)).pairs (hts.suffix s₄) hne₄
      exact .bind (more.further s₄ (by omega) (by omega)) fun _ _ _ _ s l => .ok s l

theorem undisturbed_statement_of_below (hx : ∀ level, (undisturbed us).expression level ts)
    (hts : Closing ts) (hne : ts ≠ []) :
    Undisturbed us ts (excess ts) (fun rest => excess rest = excess ts) (statement ts)
      (statement (ts ++ us)) := by
  obtain ⟨t, rest, rfl⟩ := List.exists_cons_of_ne_nil hne
  have hs : rest <:+ t :: rest := List.suffix_cons t rest
  simp only [List.cons_append, statement]
  split
  · rename_i hk
    have ht := excess_plain hk rfl rest
    have hi := undisturbed_plain us (k := .identifier) ⟨rfl, by decide⟩ hts.tail
      (hts.ne_nil (by rw [hk]; decide))
    refine .bind (hi.further hs ht.symm (by omega)) ?_
    rintro _ ts₁ h₁ _ s₁ ⟨hne₁, hx₁⟩
    have hq := undisturbed_plain us (k := .equal) ⟨rfl, by decide⟩ (hts.suffix s₁) hne₁
    refine .bind (hq.further s₁ hx₁ (by omega)) ?_
    rintro _ ts₂ h₂ _ s₂ ⟨hne₂, hx₂⟩
    have he := (below ts₂ (by grind)).expression .lowest (hts.suffix s₂) hne₂
    refine .bind (he.further s₂ hx₂ (by omega)) ?_
    rintro e ts₃ _ _ s₃ ⟨hne₃, hx₃⟩
    exact undisturbed_semicolon us s₃ hne₃ hx₃
  · rename_i hk
    have ht := excess_plain hk rfl rest
    have hr : rest ≠ [] := hts.ne_nil (by rw [hk]; decide)
    simp only [kindAt_append hr]
    split
    · exact undisturbed_semicolon us hs hr ht.symm
    · have he := below.tail.expression .lowest hts.tail hr
      refine .bind (he.further hs ht.symm (by omega)) ?_
      rintro e ts₁ _ _ s₁ ⟨hne₁, hx₁⟩
      exact undisturbed_semicolon us s₁ hne₁ hx₁
  · refine .bind (hx .lowest hts hne) ?_
    rintro e ts₁ _ _ s₁ ⟨hne₁, hx₁⟩
    exact undisturbed_semicolon us s₁ hne₁ hx₁

theorem undisturbed_blockBody_of_below (hs : (undisturbed us).statement ts) (hts : Closing ts)
    (hx : excess ts < 0) :
    Undisturbed us ts (excess ts) (Leaves (excess ts + 1)) (blockBody ts)
      (blockBody (ts ++ us)) := by
  cases ts with
  | nil => exact absurd hx (by decide)
  | cons t rest =>
    simp only [List.cons_append, blockBody]
    split
    · rename_i h
      have ht : t.kind = .rightBrace :=
        h.resolve_right (hts.terminated.endless t List.mem_cons_self)
      have hx := excess_close ht rest
      exact .ok (List.suffix_cons t rest) ⟨hts.ne_nil (by rw [ht]; decide), by omega⟩
    · refine .bind (hs hts (List.cons_ne_nil t rest)) ?_
      intro s ts₁ h₁ _ s₁ hx₁
      have more := (below ts₁ h₁).blockBody (hts.suffix s₁) (by omega)
      exact .bind (more.further s₁ (by omega) (by omega)) fun _ _ _ _ s l => .ok s l

end

theorem hereditary_undisturbed : (undisturbed us).Hereditary where
  operand := undisturbed_operand_of_below
  expression := undisturbed_expression_of_below
  extend := undisturbed_extend_of_below
  conditional := undisturbed_conditional_of_below
  items := undisturbed_items_of_below
  moreItems := undisturbed_moreItems_of_below
  pairs := undisturbed_pairs_of_below
  statement := undisturbed_statement_of_below
  blockBody := undisturbed_blockBody_of_below

/-- **What follows does not matter** to a rule that comes to its outcome within tokens that
    close what they open. -/
theorem undisturbed_rules (ts : List Token) : (undisturbed us).On ts :=
  (hereditary_undisturbed us).everywhere ts

theorem statement_append_of_ok {ts rest : List Token} {s : Statement} (hts : Closing ts)
    (hne : ts ≠ []) (h : Yields (statement ts) s rest) :
    rest <:+ ts ∧ excess rest = excess ts ∧ Yields (statement (ts ++ us)) s (rest ++ us) := by
  have hu := (undisturbed_rules us ts).statement hts hne
  obtain ⟨hr, h⟩ := h
  generalize statement (ts ++ us) = y at hu ⊢
  rw [h] at hu
  cases hu with
  | ok hs hx => exact ⟨hs, hx, .ok⟩

theorem statement_append_of_error {ts : List Token} {f : Failure} (hts : Closing ts)
    (hne : ts ≠ []) (h : statement ts = .error f) :
    f.remaining <:+ ts ∧ f.remaining ≠ [] ∧ statement (ts ++ us) = .error (f.before us) := by
  have hu := (undisturbed_rules us ts).statement hts hne
  generalize statement (ts ++ us) = y at hu ⊢
  rw [h] at hu
  cases hu with
  | error hs hne' _ => exact ⟨hs, hne', rfl⟩

variable {us}

/-! ### Where the next statement starts -/

theorem nextBoundary_append {ts : List Token} (hts : Terminated ts) (hne : ts ≠ []) :
    nextBoundary (ts ++ us) = nextBoundary ts ++ us := by
  induction ts with
  | nil => exact absurd rfl hne
  | cons t ts ih =>
    rw [List.cons_append, nextBoundary, nextBoundary]
    by_cases hk : t.kind = .letWord ∨ t.kind = .returnWord ∨ t.kind = .endOfInput
    · rw [if_pos hk, if_pos hk, List.cons_append]
    · rw [if_neg hk, if_neg hk]
      by_cases ht : t.kind = .semicolon
      · rw [if_pos ht, if_pos ht]
      · rw [if_neg ht, if_neg ht]
        exact ih hts.tail (hts.ne_nil ht)

/-- More tokens behind do not change where the next statement is looked for. -/
theorem resume_before {f : Failure} (hf : Terminated f.remaining) (hne : f.remaining ≠ []) :
    (f.before us).resume = f.resume ++ us := by
  obtain ⟨problem, _ | ⟨t, ts⟩⟩ := f
  · exact absurd rfl hne
  · cases problem with
    | unexpected => exact nextBoundary_append hf hne
    | noOperand | notAnInteger =>
      simp only [Failure.before, Failure.resume, List.cons_append]
      by_cases ht : t.kind = .semicolon
      · rw [if_pos ht, if_pos ht]
      · rw [if_neg ht, if_neg ht]
        exact nextBoundary_append hf.tail (hf.ne_nil ht)

/-! ### Programs -/

/-- Statements, read or failed, that end with a `;` and close what they open are the same
    whatever follows, and then what follows is read. -/
theorem rounds_append_of_closing {ts : List Token} (hts : Closing ts) :
    rounds (ts ++ us) = (rounds ts).map (Except.mapError (Failure.before us)) ++ rounds us := by
  fun_induction rounds ts with
  | case1 => rfl
  | case2 t ts ht => exact absurd ht (hts.terminated.endless t List.mem_cons_self)
  | case3 t ts ht s ts₁ h₁ e ih =>
    obtain ⟨hs, -, h₂, e'⟩ := statement_append_of_ok us hts (List.cons_ne_nil t ts) ⟨h₁, e⟩
    have hr : rounds (t :: (ts ++ us)) = .ok s :: rounds (ts₁ ++ us) := rounds_of_ok ht e'
    rw [List.cons_append, hr, ih (hts.suffix hs)]
    rfl
  | case4 t ts ht f e _ ih =>
    obtain ⟨hs, hne, e'⟩ := statement_append_of_error us hts (List.cons_ne_nil t ts) e
    have hr : rounds (t :: (ts ++ us)) = .error (f.before us) :: rounds (f.before us).resume :=
      rounds_of_error ht e'
    rw [List.cons_append, hr, resume_before (hts.suffix hs).terminated hne,
      ih (hts.suffix ((suffix_resume f).trans hs))]
    rfl

/-- None of these statements fails at the end of the tokens. -/
theorem remaining_ne_nil {ts : List Token} (hts : Closing ts) {f : Failure}
    (h : .error f ∈ rounds ts) : f.remaining ≠ [] := by
  fun_induction rounds ts with
  | case1 => cases h
  | case2 => cases h
  | case3 t ts ht s ts₁ h₁ e ih =>
    obtain ⟨hs, -⟩ := statement_append_of_ok [] hts (List.cons_ne_nil t ts) ⟨h₁, e⟩
    rcases List.mem_cons.1 h with h | h
    · cases h
    · exact ih (hts.suffix hs) h
  | case4 t ts ht g e _ ih =>
    obtain ⟨hs, hne, -⟩ := statement_append_of_error [] hts (List.cons_ne_nil t ts) e
    rcases List.mem_cons.1 h with h | h
    · cases h
      exact hne
    · exact ih (hts.suffix ((suffix_resume g).trans hs)) h

/-- Statements that are all read open as many braces as they close. -/
theorem excess_of_rounds {ts : List Token} (hts : Closing ts) {ss : List Statement}
    (h : rounds ts = ss.map .ok) : excess ts = 0 := by
  fun_induction rounds ts generalizing ss with
  | case1 => rfl
  | case2 t ts ht => exact absurd ht (hts.terminated.endless t List.mem_cons_self)
  | case3 t ts ht s ts₁ h₁ e ih =>
    obtain ⟨hs, hx, -⟩ := statement_append_of_ok [] hts (List.cons_ne_nil t ts) ⟨h₁, e⟩
    obtain ⟨_, ss, rfl, -, hss⟩ := List.map_eq_cons_iff.1 h.symm
    exact hx.symm.trans (ih (hts.suffix hs) hss.symm)
  | case4 t ts ht f e _ ih =>
    obtain ⟨_, _, -, he, -⟩ := List.map_eq_cons_iff.1 h.symm
    cases he

theorem statement?_mapError (g : Failure → Failure) (x : Except Failure Statement) :
    statement? (x.mapError g) = statement? x := by
  cases x <;> rfl

theorem failure?_mapError (g : Failure → Failure) (x : Except Failure Statement) :
    failure? (x.mapError g) = (failure? x).map g := by
  cases x <;> rfl

theorem mem_of_mem_failures {xs : List (Except Failure Statement)} {f : Failure}
    (h : f ∈ xs.filterMap failure?) : .error f ∈ xs := by
  obtain ⟨x, hx, hf⟩ := List.mem_filterMap.1 h
  cases x with
  | ok s => cases hf
  | error g =>
    cases hf
    exact hx

/-- Where no brace is opened, none is left open. -/
theorem closing_of_no_open {ts : List Token} (hts : Terminated ts)
    (h : ∀ t ∈ ts, t.kind ≠ .leftBrace) : Closing ts := by
  have hle : ∀ us : List Token, (∀ t ∈ us, t.kind ≠ .leftBrace) → excess us ≤ 0 := by
    intro us hus
    induction us with
    | nil => exact Int.le_refl 0
    | cons u us ih =>
      obtain ⟨hu, hus⟩ := List.forall_mem_cons.1 hus
      have hw : u.kind.weight ≤ 0 := by
        unfold Token.Kind.weight
        split
        · contradiction
        · decide
        · decide
      have hx := ih hus
      rw [excess]
      omega
  exact ⟨hts, fun us hs => hle us fun t ht => h t (hs.subset ht)⟩

end Rule

namespace Program

open Rule

theorem body_of_terminated {ts : List Token} (hts : Terminated ts) : body ts = ts := by
  unfold body
  split
  · rename_i t ht
    have hk : t.kind ≠ .endOfInput := hts.endless t (List.mem_of_getLast? ht)
    rw [if_neg hk]
  · rename_i h
    exact (List.getLast?_eq_none_iff.1 h).symm

/-- Where there is no diagnostic, no round failed. -/
theorem rounds_of_terminated {ts : List Token} (hts : Terminated ts)
    (h : (read ts).diagnostics = []) : rounds ts = (read ts).program.statements.map .ok := by
  rw [read, body_of_terminated hts] at h ⊢
  exact eq_map_ok (List.map_eq_nil_iff.1 h)

theorem getLast?_append_of_ne_nil {ts us : List Token} (hus : us ≠ []) :
    (ts ++ us).getLast? = us.getLast? := by
  rw [List.getLast?_append, List.getLast?_eq_some_getLast hus, Option.some_or]

theorem body_append {ts us : List Token} (hus : us ≠ []) : body (ts ++ us) = ts ++ body us := by
  rw [body, body, getLast?_append_of_ne_nil hus, List.getLast?_eq_some_getLast hus,
    List.dropLast_append_of_ne_nil hus]
  simp only
  split <;> rfl

theorem endLine_append {ts us : List Token} (hus : us ≠ []) : endLine (ts ++ us) = endLine us := by
  rw [endLine, endLine, getLast?_append_of_ne_nil hus]

theorem read_nil : read [] = ⟨⟨[]⟩, []⟩ := by
  have hb : body [] = [] := rfl
  rw [read, hb, rounds]
  rfl

/-- Statements whose outcomes are the same whatever follows are read, and then what
    follows is read. -/
theorem read_append_of_rounds {ts us : List Token} (hts : Terminated ts)
    (hr : rounds (ts ++ body us) =
      (rounds ts).map (Except.mapError (Failure.before (body us))) ++ rounds (body us))
    (hne : ∀ f, .error f ∈ rounds ts → f.remaining ≠ []) :
    (read (ts ++ us)).program.statements =
        (read ts).program.statements ++ (read us).program.statements ∧
      (read (ts ++ us)).diagnostics = (read ts).diagnostics ++ (read us).diagnostics := by
  by_cases hus : us = []
  · subst hus
    rw [read_nil, List.append_nil, List.append_nil, List.append_nil]
    exact ⟨rfl, rfl⟩
  · simp only [read, body_append hus, body_of_terminated hts, endLine_append hus, hr,
      List.filterMap_append, List.map_append, List.filterMap_map, Function.comp_def,
      statement?_mapError, failure?_mapError, List.append_cancel_right_eq]
    refine ⟨trivial, ?_⟩
    rw [← List.map_filterMap, List.map_map]
    apply List.map_congr_left
    intro f hf
    exact Failure.diagnostic_before (hne f (mem_of_mem_failures hf)) _ _ _

theorem read_append_of_closing {ts : List Token} (hts : Closing ts) (us : List Token) :
    (read (ts ++ us)).program.statements =
        (read ts).program.statements ++ (read us).program.statements ∧
      (read (ts ++ us)).diagnostics = (read ts).diagnostics ++ (read us).diagnostics :=
  read_append_of_rounds hts.terminated (rounds_append_of_closing hts) fun _ => remaining_ne_nil hts

/-- **Reading is local to statement boundaries.**  Let some tokens end with a `;` and not
    hold the end of the input.  Let them open no brace, whatever is wrong with them, or
    let nothing be wrong with them and as many braces be opened as closed.  Then these
    tokens and any others behind them are read one after the other: the statements of
    the first stand in front of those of the second, and so do the diagnostics. -/
theorem read_append {ts : List Token} (hend : ∀ t ∈ ts, t.kind ≠ .endOfInput)
    (hlast : ts.getLast?.map Token.kind = some .semicolon)
    (h : (∀ t ∈ ts, t.kind ≠ .leftBrace) ∨
      (read ts).diagnostics = [] ∧
        ts.countP (·.kind = .leftBrace) = ts.countP (·.kind = .rightBrace))
    (us : List Token) :
    (read (ts ++ us)).program.statements =
        (read ts).program.statements ++ (read us).program.statements ∧
      (read (ts ++ us)).diagnostics = (read ts).diagnostics ++ (read us).diagnostics := by
  have hts : Terminated ts := by
    refine ⟨hend, fun t ht => ?_⟩
    rw [Option.mem_def.1 ht] at hlast
    exact Option.some.inj hlast
  rcases h with hopen | ⟨hclean, hbraces⟩
  · exact read_append_of_closing (closing_of_no_open hts hopen) us
  · obtain ⟨ss, hss⟩ : ∃ ss : List Statement, rounds ts = ss.map .ok :=
      ⟨_, rounds_of_terminated hts hclean⟩
    refine read_append_of_rounds hts ?_ ?_
    · rw [rounds_append hts (excess_eq_zero hbraces) hss, hss, List.map_map]
      rfl
    · intro f he
      rw [hss] at he
      obtain ⟨s, -, hs⟩ := List.mem_map.1 he
      cases hs

/-- The tokens of `let = 5; if (a) b; y;`, where two statements are faulty. -/
def faultyTokens : List Token :=
  body (Token.scan (Text.Utf8.encode "let = 5; if (a) b; y;"))

/-- The tokens of `} let z = 1`, the end of the input with them. -/
def strayBraceTokens : List Token :=
  Token.scan (Text.Utf8.encode "\x7d let z = 1")

/-- The third of these statements is read, and the one that follows. -/
theorem read_append_faultyTokens :
    (∀ t ∈ faultyTokens, t.kind ≠ .endOfInput) ∧
      faultyTokens.getLast?.map Token.kind = some .semicolon ∧
      (∀ t ∈ faultyTokens, t.kind ≠ .leftBrace) ∧
      (read (faultyTokens ++ strayBraceTokens)).program.statements =
        (read faultyTokens).program.statements ++ (read strayBraceTokens).program.statements ∧
      (read (faultyTokens ++ strayBraceTokens)).diagnostics =
        (read faultyTokens).diagnostics ++ (read strayBraceTokens).diagnostics ∧
      (read faultyTokens).program.statements.length = 1 ∧
      (read strayBraceTokens).program.statements.length = 1 ∧
      (read faultyTokens).diagnostics.length = 2 ∧
      (read strayBraceTokens).diagnostics.length = 1 := by
  have hend : ∀ t ∈ faultyTokens, t.kind ≠ .endOfInput := by decide +kernel
  have hlast : faultyTokens.getLast?.map Token.kind = some .semicolon := by decide +kernel
  have hopen : ∀ t ∈ faultyTokens, t.kind ≠ .leftBrace := by decide +kernel
  obtain ⟨hs, hd⟩ := read_append hend hlast (.inl hopen) strayBraceTokens
  refine ⟨hend, hlast, hopen, hs, hd, ?_⟩
  decide +kernel

end Program

end Monkey
