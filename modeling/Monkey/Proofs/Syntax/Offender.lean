import Monkey.Syntax.Parser

/-!
  Monkey/Proofs/Syntax/Offender.lean
  ==================================
  **What a failure speaks of.**

  Every failure says something true about the first of the tokens that remain, or about the
  end of the input if none remains (`Failure.Apt`).

  Reading goes on behind that token.  Only if the token was looked at and no more, and is
  `let` or `return` or ends the program, does reading go on at it (`resume_cases`); a program that
  has ended has no more failures, and a statement takes its first word before it fails
  (`orderly_keyword`).  So each failure has fewer tokens remaining than the one before
  (`pairwise_failures`).
-/
namespace Monkey

open Text

/-! ### What is said is so -/

/-- A problem that a token has. -/
def Problem.About (t : Token) : Problem → Prop
  | unexpected wanted found => t.kind = found ∧ found ≠ wanted
  | noOperand found => t.kind = found
  | notAnInteger literal =>
    t.kind = .integer ∧ t.literal = literal ∧ Decimal.int64? literal = none

/-- The first of the remaining tokens has the problem; behind the last one stands a token that
    ends the input. -/
def Failure.Apt (f : Failure) : Prop :=
  ∀ t, (∀ u ∈ f.remaining.head?, t = u) → t.kind = kindAt f.remaining → f.problem.About t

namespace Rule

/-- If a rule fails, what it says is so. -/
def Truthful (x : Except Failure α) : Prop :=
  ∀ f, x = .error f → f.Apt

namespace Truthful

variable {P : List Token → Prop}

theorem ok {a : α} : Truthful (.ok a) :=
  nofun

theorem error {f : Failure} (h : f.Apt) : Truthful (.error f : Except Failure α) := by
  rintro _ ⟨⟩
  exact h

/-- One rule after another. -/
theorem bind {x : Except Failure (α × { rest // P rest })}
    {g : α × { rest // P rest } → Except Failure β} (hx : Truthful x)
    (hg : ∀ a rest (h : P rest), Truthful (g (a, ⟨rest, h⟩))) : Truthful (x >>= g) := by
  cases x with
  | error f => exact .error (hx f rfl)
  | ok a => exact hg a.1 a.2.1 a.2.2

end Truthful

section

variable {wanted : Token.Kind} {ts : List Token}

theorem apt_unexpected (h : kindAt ts ≠ wanted) :
    Failure.Apt ⟨.unexpected wanted (kindAt ts), ts⟩ :=
  fun _ _ hk => ⟨hk, h⟩

theorem apt_noOperand (ts : List Token) : Failure.Apt ⟨.noOperand (kindAt ts), ts⟩ :=
  fun _ _ hk => hk

theorem apt_notAnInteger {t : Token} (hk : t.kind = .integer)
    (h : Decimal.int64? t.literal = none) : Failure.Apt ⟨.notAnInteger t.literal, t :: ts⟩ := by
  intro u hu _
  rw [hu t rfl]
  exact ⟨hk, rfl, h⟩

theorem truthful_expect (hw : wanted ≠ .endOfInput) (ts : List Token) :
    Truthful (expect wanted ts) := by
  unfold expect
  split
  · exact .error (apt_unexpected hw.symm)
  · split
    · exact .ok
    · exact .error (apt_unexpected ‹_›)

theorem truthful_moreParameters (ts : List Token) : Truthful (moreParameters ts) := by
  fun_induction moreParameters ts with
  | case1 => exact .error (apt_unexpected (by decide))
  | case2 t rest _ ih =>
    refine .bind (truthful_expect (by decide) rest) fun _ ts₁ h₁ => ?_
    exact .bind (ih ts₁ h₁) fun _ _ _ => .ok
  | case3 t rest _ => exact .bind (truthful_expect (by decide) _) fun _ _ _ => .ok

theorem truthful_parameters (ts : List Token) : Truthful (parameters ts) := by
  unfold parameters
  split
  · exact .bind (truthful_expect (by decide) _) fun _ _ _ => .ok
  · refine .bind (truthful_expect (by decide) _) fun _ ts₁ _ => ?_
    exact .bind (truthful_moreParameters ts₁) fun _ _ _ => .ok

end

/-! ### All rules are truthful -/

/-- All rules are truthful, if a closing bracket is not the end of the input. -/
def truthful : Property where
  expression level ts := Truthful (expression level ts)
  extend level left ts := Truthful (extend level left ts)
  operand ts := Truthful (operand ts)
  conditional t ts := Truthful (conditional t ts)
  items closing ts := closing ≠ .endOfInput → Truthful (items closing ts)
  moreItems closing ts := closing ≠ .endOfInput → Truthful (moreItems closing ts)
  pairs ts := Truthful (pairs ts)
  blockBody ts := Truthful (blockBody ts)
  statement ts := Truthful (statement ts)

section

variable {ts : List Token} (below : truthful.Below ts)

include below

theorem truthful_operand_of_below : Truthful (operand ts) := by
  cases ts with
  | nil =>
    rw [operand]
    exact .error (apt_noOperand [])
  | cons t rest =>
    have on := below.tail
    rw [operand]
    cases hk : t.kind with
    | identifier | string | trueWord | falseWord => exact .ok
    | integer =>
      dsimp only
      split
      · exact .ok
      · exact .error (apt_notAnInteger hk ‹_›)
    | bang | minus => exact .bind (on.expression .prefixOp) fun _ _ _ => .ok
    | leftParen =>
      refine .bind (on.expression .lowest) fun e ts₁ h₁ => ?_
      exact .bind (truthful_expect (by decide) ts₁) fun _ _ _ => .ok
    | leftBracket => exact .bind (on.items .rightBracket (by decide)) fun _ _ _ => .ok
    | leftBrace => exact .bind on.pairs fun _ _ _ => .ok
    | ifWord => exact .bind (on.conditional t) fun _ _ _ => .ok
    | fnWord =>
      refine .bind (truthful_expect (by decide) rest) fun _ ts₁ h₁ => ?_
      refine .bind (truthful_parameters ts₁) fun _ ts₂ h₂ => ?_
      refine .bind (truthful_expect (by decide) ts₂) fun _ ts₃ h₃ => ?_
      exact .bind (below ts₃ (by grind)).blockBody fun _ _ _ => .ok
    | _ => exact .error fun _ _ h => h.trans hk

theorem truthful_expression_of_below (ho : Truthful (operand ts)) (level : Precedence) :
    Truthful (expression level ts) := by
  rw [expression]
  refine .bind ho fun left ts₁ h₁ => ?_
  exact .bind ((below ts₁ h₁).extend level left) fun _ _ _ => .ok

theorem truthful_extend_of_below (level : Precedence) (left : Expr) :
    Truthful (extend level left ts) := by
  cases ts with
  | nil =>
    rw [extend]
    exact .ok
  | cons t rest =>
    have on := below.tail
    rw [extend]
    split
    · cases Extension.ofKind? t.kind with
      | none => exact .ok
      | some x =>
        cases x with
        | infixOp op =>
          refine .bind (on.expression _) fun right ts₁ h₁ => ?_
          exact .bind ((below ts₁ (by grind)).extend level _) fun _ _ _ => .ok
        | call =>
          refine .bind (on.items .rightParen (by decide)) fun arguments ts₁ h₁ => ?_
          exact .bind ((below ts₁ (by grind)).extend level _) fun _ _ _ => .ok
        | index =>
          refine .bind (on.expression .lowest) fun i ts₁ h₁ => ?_
          refine .bind (truthful_expect (by decide) ts₁) fun _ ts₂ h₂ => ?_
          exact .bind ((below ts₂ (by grind)).extend level _) fun _ _ _ => .ok
    · exact .ok

theorem truthful_conditional_of_below (t : Token) : Truthful (conditional t ts) := by
  rw [conditional]
  refine .bind (truthful_expect (by decide) ts) fun _ ts₁ h₁ => ?_
  refine .bind ((below ts₁ h₁).expression .lowest) fun _ ts₂ h₂ => ?_
  refine .bind (truthful_expect (by decide) ts₂) fun _ ts₃ h₃ => ?_
  refine .bind (truthful_expect (by decide) ts₃) fun _ ts₄ h₄ => ?_
  refine .bind (below ts₄ (by omega)).blockBody fun _ ts₅ h₅ => ?_
  dsimp only
  split
  · refine .bind (truthful_expect (by decide) ts₅) fun _ ts₆ h₆ => ?_
    refine .bind (truthful_expect (by decide) ts₆) fun _ ts₇ h₇ => ?_
    exact .bind (below ts₇ (by grind)).blockBody fun _ _ _ => .ok
  · exact .ok

theorem truthful_items_of_below (he : ∀ level, Truthful (expression level ts))
    (closing : Token.Kind) (hend : closing ≠ .endOfInput) : Truthful (items closing ts) := by
  rw [items]
  split
  · exact .bind (truthful_expect hend ts) fun _ _ _ => .ok
  · refine .bind (he .lowest) fun e ts₁ h₁ => ?_
    exact .bind ((below ts₁ h₁).moreItems closing hend) fun _ _ _ => .ok

theorem truthful_moreItems_of_below (closing : Token.Kind) (hend : closing ≠ .endOfInput) :
    Truthful (moreItems closing ts) := by
  cases ts with
  | nil =>
    rw [moreItems]
    exact .error (apt_unexpected hend.symm)
  | cons t rest =>
    rw [moreItems]
    split
    · refine .bind (below.tail.expression .lowest) fun e ts₁ h₁ => ?_
      exact .bind ((below ts₁ (by grind)).moreItems closing hend) fun _ _ _ => .ok
    · exact .bind (truthful_expect hend (t :: rest)) fun _ _ _ => .ok

theorem truthful_pairs_of_below (he : ∀ level, Truthful (expression level ts)) :
    Truthful (pairs ts) := by
  rw [pairs]
  split
  · exact .bind (truthful_expect (by decide) ts) fun _ _ _ => .ok
  · refine .bind (he .lowest) fun key ts₁ h₁ => ?_
    refine .bind (truthful_expect (by decide) ts₁) fun _ ts₂ h₂ => ?_
    refine .bind ((below ts₂ (by omega)).expression .lowest) fun value ts₃ h₃ => ?_
    dsimp only
    split
    · exact .bind (truthful_expect (by decide) ts₃) fun _ _ _ => .ok
    · refine .bind (truthful_expect (by decide) ts₃) fun _ ts₄ h₄ => ?_
      exact .bind (below ts₄ (by omega)).pairs fun _ _ _ => .ok

theorem truthful_statement_of_below (he : ∀ level, Truthful (expression level ts)) :
    Truthful (statement ts) := by
  cases ts with
  | nil =>
    rw [statement]
    exact .error (apt_noOperand [])
  | cons t rest =>
    rw [statement]
    split
    · refine .bind (truthful_expect (by decide) rest) fun _ ts₁ h₁ => ?_
      refine .bind (truthful_expect (by decide) ts₁) fun _ ts₂ h₂ => ?_
      exact .bind ((below ts₂ (by grind)).expression .lowest) fun _ _ _ => .ok
    · split
      · exact .ok
      · exact .bind (below.tail.expression .lowest) fun _ _ _ => .ok
    · exact .bind (he .lowest) fun _ _ _ => .ok

theorem truthful_blockBody_of_below (hs : Truthful (statement ts)) : Truthful (blockBody ts) := by
  cases ts with
  | nil =>
    rw [blockBody]
    exact .ok
  | cons t rest =>
    rw [blockBody]
    split
    · exact .ok
    · refine .bind hs fun s ts₁ h₁ => ?_
      exact .bind (below ts₁ h₁).blockBody fun _ _ _ => .ok

end

theorem hereditary_truthful : truthful.Hereditary where
  operand := truthful_operand_of_below
  expression := truthful_expression_of_below
  extend := truthful_extend_of_below
  conditional := truthful_conditional_of_below
  items := truthful_items_of_below
  moreItems := truthful_moreItems_of_below
  pairs := truthful_pairs_of_below
  statement := truthful_statement_of_below
  blockBody := truthful_blockBody_of_below

/-- **What a rule says when it fails is so.** -/
theorem truthful_rules (ts : List Token) : truthful.On ts :=
  hereditary_truthful.everywhere ts

/-! ### Where reading goes on -/

theorem orderly_statement (ts : List Token) : Orderly ts (ts.length - 1) (statement ts) :=
  (orderly_rules ts).statement

/-- A statement that starts with `let` or `return` takes the word, whether it fails or not. -/
theorem orderly_keyword {t : Token} (hk : t.kind = .letWord ∨ t.kind = .returnWord)
    (rest : List Token) : Orderly rest rest.length (statement (t :: rest)) := by
  rw [statement]
  rcases hk with hk | hk
  · simp only [hk]
    refine .bind (orderly_expect _ _) fun _ ts₁ h₁ s₁ => ?_
    refine .bind ((orderly_expect _ ts₁).mono s₁ s₁.length_le) fun _ ts₂ h₂ s₂ => ?_
    have hle := Nat.le_trans (Nat.sub_le _ 1) s₂.length_le
    have he := ((orderly_rules ts₂).expression .lowest).mono s₂ hle
    exact .bind he fun _ _ _ s => .ok ((suffix_optionalSemicolon _).trans s)
  · simp only [hk]
    split
    · exact .ok (suffix_optionalSemicolon _)
    · have he := ((orderly_rules rest).expression .lowest).mono List.suffix_rfl (Nat.sub_le _ _)
      exact .bind he fun _ _ _ s => .ok ((suffix_optionalSemicolon _).trans s)

end Rule

/-- Kinds at which a search for the next statement stops. -/
abbrev Token.Kind.Stops (k : Token.Kind) : Prop :=
  k = .letWord ∨ k = .returnWord ∨ k = .endOfInput

theorem nextBoundary_cases (ts : List Token) :
    (nextBoundary ts).length < ts.length ∨ nextBoundary ts = ts ∧ (kindAt ts).Stops := by
  cases ts with
  | nil => exact .inr ⟨rfl, .inr (.inr rfl)⟩
  | cons t ts =>
    unfold nextBoundary
    split
    · exact .inr ⟨rfl, ‹_›⟩
    · split
      · exact .inl (Nat.lt_succ_self _)
      · exact .inl (Nat.lt_succ_of_le (length_nextBoundary_le ts))

/-- Reading goes on behind the token that a failure speaks of, or at it, if the search for the
    next statement stops there. -/
theorem resume_cases (f : Failure) : f.resume.length < f.remaining.length ∨
    f.resume = f.remaining ∧ (kindAt f.remaining).Stops := by
  obtain ⟨problem, _ | ⟨t, ts⟩⟩ := f
  · refine .inr ⟨?_, .inr (.inr rfl)⟩
    cases problem <;> rfl
  · cases problem with
    | unexpected wanted found => exact nextBoundary_cases (t :: ts)
    | noOperand | notAnInteger => exact .inl (length_resume_lt nofun nofun)

namespace Rule

/-! ### The failures of a program -/

/-- The failures of a program, in the order of the rounds. -/
def failures (ts : List Token) : List Failure :=
  (rounds ts).filterMap failure?

variable {ts : List Token} {f g : Failure}

/-- Each failure is that of a statement somewhere in the program. -/
theorem exists_statement_of_mem_failures (h : f ∈ failures ts) :
    ∃ us, us <:+ ts ∧ statement us = .error f := by
  unfold failures at h
  fun_induction rounds ts with
  | case1 => cases h
  | case2 => cases h
  | case3 t ts ht s ts₁ h₁ e ih =>
    obtain ⟨us, hus, he⟩ := ih h
    have hs := (orderly_statement (t :: ts)).rest _ e
    exact ⟨us, hus.trans hs, he⟩
  | case4 t ts ht g e _ ih =>
    rcases List.mem_cons.1 h with rfl | h
    · exact ⟨_, List.suffix_rfl, e⟩
    · obtain ⟨us, hus, he⟩ := ih h
      have hs := (orderly_statement (t :: ts)).remaining g e
      exact ⟨us, hus.trans ((suffix_resume g).trans hs), he⟩

theorem suffix_of_mem_failures (h : f ∈ failures ts) : f.remaining <:+ ts := by
  obtain ⟨us, hus, he⟩ := exists_statement_of_mem_failures h
  exact ((orderly_statement us).remaining f he).trans hus

theorem apt_of_mem_failures (h : f ∈ failures ts) : f.Apt := by
  obtain ⟨us, -, he⟩ := exists_statement_of_mem_failures h
  exact (truthful_rules us).statement f he

/-- Where a search stops, the token is not spoken of: a word is taken by its statement, and
    behind the end there is no statement. -/
theorem lt_of_mem_failures_of_stops (hk : (kindAt ts).Stops) (h : f ∈ failures ts) :
    f.remaining.length < ts.length := by
  rcases ts with _ | ⟨t, rest⟩
  · rw [failures, rounds] at h
    cases h
  by_cases hend : t.kind = .endOfInput
  · rw [failures, rounds, if_pos hend] at h
    cases h
  have hw : t.kind = .letWord ∨ t.kind = .returnWord :=
    hk.imp_right fun hor => hor.resolve_right hend
  obtain ⟨us, hus, he⟩ := exists_statement_of_mem_failures h
  -- it is the statement that starts with the word, or one further on
  rcases List.suffix_cons_iff.1 hus with rfl | hus
  · exact Nat.lt_succ_of_le ((orderly_keyword hw rest).remaining f he).length_le
  · have hs := (orderly_statement us).remaining f he
    exact Nat.lt_succ_of_le (hs.trans hus).length_le

/-- What fails after a failure fails further on. -/
theorem lt_of_mem_failures_resume (h : g ∈ failures f.resume) :
    g.remaining.length < f.remaining.length := by
  rcases resume_cases f with hlt | ⟨he, hk⟩
  · exact Nat.lt_of_le_of_lt (suffix_of_mem_failures h).length_le hlt
  · rw [he] at h
    exact lt_of_mem_failures_of_stops hk h

/-- **No token is spoken of twice.**  Each failure has fewer tokens remaining than all before. -/
theorem pairwise_failures (ts : List Token) :
    (failures ts).Pairwise fun f g => g.remaining.length < f.remaining.length := by
  unfold failures
  fun_induction rounds ts with
  | case1 => exact .nil
  | case2 => exact .nil
  | case3 t ts ht s ts₁ h₁ e ih => exact ih
  | case4 t ts ht f e _ ih =>
    exact List.pairwise_cons.2 ⟨fun g hg => lt_of_mem_failures_resume hg, ih⟩

end Rule

end Monkey
