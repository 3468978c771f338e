import Monkey.Syntax.Rule.Induction

/-!
  Monkey/Syntax/Rule/Progress.lean
  ================================
  **A rule looks at no tokens but its own, and a failed statement costs one.**

  Whether a rule reads something or fails, the tokens it hands back are a tail of
  those it was given.  Wherever it fails, the tokens at which the next statement is
  looked for are no more than those; and where a statement fails that had a first
  token, they are fewer (`length_resume_lt_of_statement`).  So reading a program
  ends.
-/
namespace Monkey.Rule

/-- What every rule does that is given `ts`: it leaves a tail of them or fails in
    front of one, and if it fails, at most `n` tokens are left to read on from. -/
structure Orderly {P : List Token → Prop} (ts : List Token) (n : Nat)
    (x : Except Failure (α × { rest // P rest })) : Prop where
  rest : ∀ a, x = .ok a → a.2.1 <:+ ts
  remaining : ∀ f, x = .error f → f.remaining <:+ ts
  resume : ∀ f, x = .error f → f.resume.length ≤ n

namespace Orderly

variable {P Q : List Token → Prop}

theorem ok {ts rest : List Token} {n : Nat} {a : α} {h : P rest} (hs : rest <:+ ts) :
    Orderly ts n (.ok (a, ⟨rest, h⟩)) where
  rest := by
    rintro _ ⟨⟩
    exact hs
  remaining := by rintro _ ⟨⟩
  resume := by rintro _ ⟨⟩

theorem error {ts : List Token} {n : Nat} {f : Failure} (hs : f.remaining <:+ ts)
    (h : f.resume.length ≤ n) :
    Orderly ts n (.error f : Except Failure (α × { rest // P rest })) where
  rest := by rintro _ ⟨⟩
  remaining := by
    rintro _ ⟨⟩
    exact hs
  resume := by
    rintro _ ⟨⟩
    exact h

/-- The first token is no operand. -/
theorem noOperand {t : Token} {ts : List Token} (p : Problem)
    (hp : ∀ wanted found, p ≠ .unexpected wanted found) :
    Orderly (t :: ts) ((t :: ts).length - 1)
      (.error ⟨p, t :: ts⟩ : Except Failure (α × { rest // P rest })) :=
  .error List.suffix_rfl (Nat.le_sub_one_of_lt (length_resume_lt hp (List.cons_ne_nil t ts)))

theorem mono {ts us : List Token} {m n : Nat} {x : Except Failure (α × { rest // P rest })}
    (h : Orderly ts m x) (hs : ts <:+ us) (hmn : m ≤ n) : Orderly us n x where
  rest a e := (h.rest a e).trans hs
  remaining f e := (h.remaining f e).trans hs
  resume f e := Nat.le_trans (h.resume f e) hmn

/-- One rule after another. -/
theorem bind {ts : List Token} {n : Nat} {x : Except Failure (α × { rest // P rest })}
    {g : α × { rest // P rest } → Except Failure (β × { rest // Q rest })} (hx : Orderly ts n x)
    (hg : ∀ a rest (h : P rest), rest <:+ ts → Orderly ts n (g (a, ⟨rest, h⟩))) :
    Orderly ts n (x >>= g) := by
  cases x with
  | error f => exact ⟨nofun, fun _ e => hx.remaining _ (by cases e; rfl),
      fun _ e => hx.resume _ (by cases e; rfl)⟩
  | ok a => exact hg a.1 a.2.1 a.2.2 (hx.rest a rfl)

end Orderly

theorem suffix_optionalSemicolon (ts : List Token) : (optionalSemicolon ts).1 <:+ ts := by
  unfold optionalSemicolon
  split
  · exact List.suffix_rfl
  · split
    · exact List.suffix_cons _ _
    · exact List.suffix_rfl

theorem orderly_expect (wanted : Token.Kind) (ts : List Token) :
    Orderly ts ts.length (expect wanted ts) := by
  unfold expect
  split
  · exact .error List.suffix_rfl (length_resume_le _)
  · split
    · exact .ok (List.suffix_cons _ _)
    · exact .error List.suffix_rfl (length_resume_le _)

theorem orderly_moreParameters (ts : List Token) :
    Orderly ts ts.length (moreParameters ts) := by
  fun_induction moreParameters ts with
  | case1 => exact .error List.suffix_rfl (length_resume_le _)
  | case2 t rest _ ih =>
    have he : Orderly (t :: rest) (t :: rest).length (expect .identifier rest) :=
      (orderly_expect .identifier rest).mono (List.suffix_cons t rest) (by simp)
    refine .bind he fun name ts₁ h₁ s₁ => ?_
    exact .bind ((ih ts₁ h₁).mono s₁ (by grind)) fun _ _ _ s => .ok s
  | case3 t rest _ => exact .bind (orderly_expect _ _) fun _ _ _ s => .ok s

theorem orderly_parameters (ts : List Token) :
    Orderly ts ts.length (parameters ts) := by
  unfold parameters
  split
  · exact .bind (orderly_expect _ _) fun _ _ _ s => .ok s
  · refine .bind (orderly_expect _ _) fun name ts₁ h₁ s₁ => ?_
    exact .bind ((orderly_moreParameters ts₁).mono s₁ (by omega)) fun _ _ _ s => .ok s

/-! ### Expressions and statements -/

/-- All rules are orderly.  Expressions, operands and statements take a token before they
    fail, if there is one. -/
def orderly : Property where
  expression level ts := Orderly ts (ts.length - 1) (expression level ts)
  extend level left ts := Orderly ts ts.length (extend level left ts)
  operand ts := Orderly ts (ts.length - 1) (operand ts)
  conditional t ts := Orderly ts ts.length (conditional t ts)
  items closing ts := Orderly ts ts.length (items closing ts)
  moreItems closing ts := Orderly ts ts.length (moreItems closing ts)
  pairs ts := Orderly ts ts.length (pairs ts)
  blockBody ts := Orderly ts ts.length (blockBody ts)
  statement ts := Orderly ts (ts.length - 1) (statement ts)

section

variable {ts : List Token} (below : orderly.Below ts)

include below

theorem orderly_operand_of_below : Orderly ts (ts.length - 1) (operand ts) := by
  cases ts with
  | nil =>
    rw [operand]
    exact .error List.suffix_rfl (length_resume_le _)
  | cons t rest =>
    have hs : rest <:+ t :: rest := List.suffix_cons t rest
    have on := below.tail
    have hne (k wanted found) : Problem.noOperand k ≠ .unexpected wanted found := by rintro ⟨⟩
    rw [operand]
    cases t.kind with
    | identifier | string | trueWord | falseWord => exact .ok hs
    | integer =>
      dsimp only
      split
      · exact .ok hs
      · exact .noOperand _ (by rintro _ _ ⟨⟩)
    | bang | minus =>
      exact .bind ((on.expression .prefixOp).mono hs (Nat.sub_le _ 1)) fun _ _ _ s => .ok s
    | leftParen =>
      refine .bind ((on.expression .lowest).mono hs (Nat.sub_le _ 1)) fun e ts₁ h₁ s₁ => ?_
      exact .bind ((orderly_expect _ ts₁).mono s₁ (by grind)) fun _ _ _ s => .ok s
    | leftBracket =>
      exact .bind ((on.items .rightBracket).mono hs (by simp)) fun _ _ _ s => .ok s
    | leftBrace => exact .bind (on.pairs.mono hs (by simp)) fun _ _ _ s => .ok s
    | ifWord => exact .bind ((on.conditional t).mono hs (by simp)) fun _ _ _ s => .ok s
    | fnWord =>
      refine .bind ((orderly_expect _ rest).mono hs (by simp)) fun _ ts₁ h₁ s₁ => ?_
      refine .bind ((orderly_parameters ts₁).mono s₁ (by grind)) fun _ ts₂ h₂ s₂ => ?_
      refine .bind ((orderly_expect _ ts₂).mono s₂ (by grind)) fun _ ts₃ h₃ s₃ => ?_
      have body := (below ts₃ (by grind)).blockBody
      exact .bind (body.mono s₃ (by grind)) fun _ _ _ s => .ok s
    | _ => exact .noOperand _ (hne _)

theorem orderly_expression_of_below (ho : Orderly ts (ts.length - 1) (operand ts))
    (level : Precedence) : Orderly ts (ts.length - 1) (expression level ts) := by
  rw [expression]
  refine .bind ho fun left ts₁ h₁ s₁ => ?_
  have rest := (below ts₁ h₁).extend level left
  exact .bind (rest.mono s₁ (Nat.le_sub_one_of_lt h₁)) fun _ _ _ s => .ok s

theorem orderly_extend_of_below (level : Precedence) (left : Expr) :
    Orderly ts ts.length (extend level left ts) := by
  cases ts with
  | nil =>
    rw [extend]
    exact .ok List.suffix_rfl
  | cons t rest =>
    have hs : rest <:+ t :: rest := List.suffix_cons t rest
    have on := below.tail
    rw [extend]
    split
    · cases hx : Extension.ofKind? t.kind with
      | none => exact .ok List.suffix_rfl
      | some x =>
        cases x with
        | infixOp op =>
          refine .bind ((on.expression _).mono hs (by grind)) fun right ts₁ h₁ s₁ => ?_
          have more := (below ts₁ (by grind)).extend level (.infixOp t left op right)
          exact .bind (more.mono s₁ (by grind)) fun _ _ _ s => .ok s
        | call =>
          refine .bind ((on.items _).mono hs (by grind)) fun arguments ts₁ h₁ s₁ => ?_
          have more := (below ts₁ (by grind)).extend level (.call t left arguments)
          exact .bind (more.mono s₁ (by grind)) fun _ _ _ s => .ok s
        | index =>
          refine .bind ((on.expression _).mono hs (by grind)) fun i ts₁ h₁ s₁ => ?_
          refine .bind ((orderly_expect _ ts₁).mono s₁ (by grind)) fun _ ts₂ h₂ s₂ => ?_
          have more := (below ts₂ (by grind)).extend level (.index t left i)
          exact .bind (more.mono s₂ (by grind)) fun _ _ _ s => .ok s
    · exact .ok List.suffix_rfl

theorem orderly_conditional_of_below (t : Token) : Orderly ts ts.length (conditional t ts) := by
  rw [conditional]
  refine .bind (orderly_expect _ ts) fun _ ts₁ h₁ s₁ => ?_
  have condition := (below ts₁ h₁).expression .lowest
  refine .bind (condition.mono s₁ (by omega)) fun _ ts₂ h₂ s₂ => ?_
  refine .bind ((orderly_expect _ ts₂).mono s₂ (by omega)) fun _ ts₃ h₃ s₃ => ?_
  refine .bind ((orderly_expect _ ts₃).mono s₃ (by omega)) fun _ ts₄ h₄ s₄ => ?_
  have consequence := (below ts₄ (by omega)).blockBody
  refine .bind (consequence.mono s₄ (by omega)) fun _ ts₅ h₅ s₅ => ?_
  dsimp only
  split
  · refine .bind ((orderly_expect _ ts₅).mono s₅ (by omega)) fun _ ts₆ h₆ s₆ => ?_
    refine .bind ((orderly_expect _ ts₆).mono s₆ (by omega)) fun _ ts₇ h₇ s₇ => ?_
    have alternative := (below ts₇ (by grind)).blockBody
    exact .bind (alternative.mono s₇ (by grind)) fun _ _ _ s => .ok s
  · exact .ok s₅

theorem orderly_items_of_below (he : ∀ level, Orderly ts (ts.length - 1) (expression level ts))
    (closing : Token.Kind) : Orderly ts ts.length (items closing ts) := by
  rw [items]
  split
  · exact .bind (orderly_expect _ ts) fun _ _ _ s => .ok s
  · refine .bind ((he .lowest).mono List.suffix_rfl (Nat.sub_le _ 1)) fun e ts₁ h₁ s₁ => ?_
    have more := (below ts₁ h₁).moreItems closing
    exact .bind (more.mono s₁ (by omega)) fun _ _ _ s => .ok s

theorem orderly_moreItems_of_below (closing : Token.Kind) :
    Orderly ts ts.length (moreItems closing ts) := by
  cases ts with
  | nil =>
    rw [moreItems]
    exact .error List.suffix_rfl (length_resume_le _)
  | cons t rest =>
    have hs : rest <:+ t :: rest := List.suffix_cons t rest
    rw [moreItems]
    split
    · refine .bind ((below.tail.expression .lowest).mono hs (by grind)) fun e ts₁ h₁ s₁ => ?_
      have more := (below ts₁ (by grind)).moreItems closing
      exact .bind (more.mono s₁ (by grind)) fun _ _ _ s => .ok s
    · exact .bind (orderly_expect _ (t :: rest)) fun _ _ _ s => .ok s

theorem orderly_pairs_of_below (he : ∀ level, Orderly ts (ts.length - 1) (expression level ts)) :
    Orderly ts ts.length (pairs ts) := by
  rw [pairs]
  split
  · exact .bind (orderly_expect _ ts) fun _ _ _ s => .ok s
  · refine .bind ((he .lowest).mono List.suffix_rfl (Nat.sub_le _ 1)) fun key ts₁ h₁ s₁ => ?_
    refine .bind ((orderly_expect _ ts₁).mono s₁ (by omega)) fun _ ts₂ h₂ s₂ => ?_
    have value := (below ts₂ (by omega)).expression .lowest
    refine .bind (value.mono s₂ (by omega)) fun _ ts₃ h₃ s₃ => ?_
    dsimp only
    split
    · exact .bind ((orderly_expect _ ts₃).mono s₃ (by omega)) fun _ _ _ s => .ok s
    · refine .bind ((orderly_expect _ ts₃).mono s₃ (by omega)) fun _ ts₄ h₄ s₄ => ?_
      exact .bind ((below ts₄ (by omega)).pairs.mono s₄ (by omega)) fun _ _ _ s => .ok s

theorem orderly_statement_of_below
    (he : ∀ level, Orderly ts (ts.length - 1) (expression level ts)) :
    Orderly ts (ts.length - 1) (statement ts) := by
  cases ts with
  | nil =>
    rw [statement]
    exact .error List.suffix_rfl (length_resume_le _)
  | cons t rest =>
    have hs : rest <:+ t :: rest := List.suffix_cons t rest
    rw [statement]
    split
    · refine .bind ((orderly_expect _ rest).mono hs (by simp)) fun _ ts₁ h₁ s₁ => ?_
      refine .bind ((orderly_expect _ ts₁).mono s₁ (by grind)) fun _ ts₂ h₂ s₂ => ?_
      have value := (below ts₂ (by grind)).expression .lowest
      exact .bind (value.mono s₂ (by grind)) fun _ _ _ s =>
        .ok ((suffix_optionalSemicolon _).trans s)
    · split
      · exact .ok ((suffix_optionalSemicolon rest).trans hs)
      · have value := (below.tail.expression .lowest).mono hs (Nat.sub_le _ 1)
        exact .bind value fun _ _ _ s => .ok ((suffix_optionalSemicolon _).trans s)
    · exact .bind (he .lowest) fun _ _ _ s => .ok ((suffix_optionalSemicolon _).trans s)

theorem orderly_blockBody_of_below (hs : Orderly ts (ts.length - 1) (statement ts)) :
    Orderly ts ts.length (blockBody ts) := by
  cases ts with
  | nil =>
    rw [blockBody]
    exact .ok List.suffix_rfl
  | cons t rest =>
    rw [blockBody]
    split
    · exact .ok (List.suffix_cons t rest)
    · refine .bind (hs.mono List.suffix_rfl (Nat.sub_le _ 1)) fun s ts₁ h₁ s₁ => ?_
      exact .bind ((below ts₁ h₁).blockBody.mono s₁ (by omega)) fun _ _ _ s => .ok s

end

theorem hereditary_orderly : orderly.Hereditary where
  operand := orderly_operand_of_below
  expression := orderly_expression_of_below
  extend := orderly_extend_of_below
  conditional := orderly_conditional_of_below
  items := orderly_items_of_below
  moreItems := orderly_moreItems_of_below
  pairs := orderly_pairs_of_below
  statement := orderly_statement_of_below
  blockBody := orderly_blockBody_of_below

/-- **Every rule leaves a tail of its tokens**, or fails in front of one. -/
theorem orderly_rules (ts : List Token) : orderly.On ts :=
  hereditary_orderly.everywhere ts

/-- A statement that fails leaves fewer tokens to read on from than it was
    given. -/
theorem length_resume_lt_of_statement {t : Token} {ts : List Token} {f : Failure}
    (h : statement (t :: ts) = .error f) : f.resume.length < (t :: ts).length :=
  Nat.lt_succ_of_le ((orderly_rules (t :: ts)).statement.resume f h)

end Monkey.Rule
