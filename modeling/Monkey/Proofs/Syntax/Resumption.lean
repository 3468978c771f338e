import Monkey.Proofs.Syntax.Recovery

/-!
  Monkey/Proofs/Syntax/Resumption.lean
  ====================================
  **What a fault does to the `let` or `return` behind it.**

  Take tokens in which no other statement starts and no brace opens, and something is
  wrong with them.  Put a program behind them that starts with `let` or `return`.  For
  every rule that word is as good an end as the end of the input (`continued_rules`): the
  rule comes to the same outcome, and if it failed at the end of the input, it now fails
  in front of the word.

  The next statement is then looked for at that word, with one exception.  Where an
  expression should have started, the word is the token at fault, and such a token is
  dropped.  So its statement goes with the faulty one, and reading goes on at the next
  boundary behind the word (`read_append_keyword`, `keyword_dropped`).
-/
namespace Monkey

namespace Rule

/-! ### Two outcomes of a rule -/

/-- A word that starts a statement. -/
def Keyword (t : Token) : Prop :=
  t.kind = .letWord ∨ t.kind = .returnWord

/-- A token that neither bounds a statement nor opens a brace. -/
def Inner (t : Token) : Prop :=
  ¬ Boundary t ∧ t.kind ≠ .leftBrace ∧ t.kind ≠ .endOfInput

instance : DecidablePred Inner := fun t =>
  inferInstanceAs (Decidable (¬ Boundary t ∧ t.kind ≠ .leftBrace ∧ t.kind ≠ .endOfInput))

/-- The outcomes of a rule that is given `ts`, and `ts` with `us` behind.  Either both
    times it reads the same, or both times it fails in the same way: in front of a token
    of `ts`, or where `ts` is used up, and then in front of `us`. -/
inductive Continued (us ts : List Token) {P Q : List Token → Prop} :
    Except Failure (α × { rest // P rest }) → Except Failure (α × { rest // Q rest }) → Prop where
  | ok {a rest hp hq} (hs : rest <:+ ts) :
      Continued us ts (.ok (a, ⟨rest, hp⟩)) (.ok (a, ⟨rest ++ us, hq⟩))
  | inside {f} (hs : f.remaining <:+ ts) (hne : f.remaining ≠ [])
      (hf : f.problem ≠ .noOperand .endOfInput) :
      Continued us ts (.error f) (.error (f.before us))
  | unexpected {wanted} : Continued us ts (.error ⟨.unexpected wanted .endOfInput, []⟩)
      (.error ⟨.unexpected wanted (kindAt us), us⟩)
  | noOperand : Continued us ts (.error ⟨.noOperand .endOfInput, []⟩)
      (.error ⟨.noOperand (kindAt us), us⟩)

namespace Continued

variable {us : List Token} {P P' Q Q' : List Token → Prop}

theorem mono {ts ts' : List Token} {x : Except Failure (α × { rest // P rest })}
    {y : Except Failure (α × { rest // Q rest })} (h : Continued us ts x y) (hs : ts <:+ ts') :
    Continued us ts' x y := by
  cases h with
  | ok hs' => exact .ok (hs'.trans hs)
  | inside hs' hne hf => exact .inside (hs'.trans hs) hne hf
  | unexpected => exact .unexpected
  | noOperand => exact .noOperand

/-- One rule after another. -/
theorem bind {ts : List Token} {x : Except Failure (α × { rest // P rest })}
    {y : Except Failure (α × { rest // Q rest })}
    {f : α × { rest // P rest } → Except Failure (β × { rest // P' rest })}
    {g : α × { rest // Q rest } → Except Failure (β × { rest // Q' rest })}
    (h : Continued us ts x y)
    (hfg : ∀ a rest hp hq, x = .ok (a, ⟨rest, hp⟩) → rest <:+ ts →
      Continued us ts (f (a, ⟨rest, hp⟩)) (g (a, ⟨rest ++ us, hq⟩))) :
    Continued us ts (x >>= f) (y >>= g) := by
  cases h with
  | ok hs => exact hfg _ _ _ _ rfl hs
  | inside hs hne hf => exact .inside hs hne hf
  | unexpected => exact .unexpected
  | noOperand => exact .noOperand

end Continued

/-! ### The rules in front of a keyword -/

section

variable {w : Token} (hw : Keyword w) (us : List Token)

include hw

theorem Keyword.ne {k : Token.Kind} (hl : k ≠ .letWord) (hr : k ≠ .returnWord) : w.kind ≠ k := by
  rintro rfl
  exact hw.elim hl hr

theorem continued_expect {k : Token.Kind} (hl : k ≠ .letWord) (hr : k ≠ .returnWord)
    (ts : List Token) : Continued (w :: us) ts (expect k ts) (expect k (ts ++ w :: us)) := by
  rcases ts with _ | ⟨t, ts⟩
  · rw [List.nil_append, expect, expect, if_neg (hw.ne hl hr)]
    exact .unexpected
  · rw [List.cons_append, expect, expect]
    by_cases ht : t.kind = k
    · rw [if_pos ht, if_pos ht]
      exact .ok (List.suffix_cons t ts)
    · rw [if_neg ht, if_neg ht]
      exact .inside (f := ⟨.unexpected k t.kind, t :: ts⟩) List.suffix_rfl (List.cons_ne_nil t ts)
        (by rintro ⟨⟩)

/-- Neither the end of the input nor a keyword is a token of any other kind. -/
theorem kindAt_append_iff {k : Token.Kind} (hl : k ≠ .letWord) (hr : k ≠ .returnWord)
    (he : k ≠ .endOfInput) (ts : List Token) : kindAt (ts ++ w :: us) = k ↔ kindAt ts = k := by
  rcases ts with _ | ⟨t, ts⟩
  · exact ⟨fun h => absurd h (hw.ne hl hr), fun h => absurd h.symm he⟩
  · exact Iff.rfl

theorem optionalSemicolon_append_keyword (ts : List Token) :
    (optionalSemicolon (ts ++ w :: us)).1 = (optionalSemicolon ts).1 ++ w :: us := by
  rcases ts with _ | ⟨t, ts⟩
  · exact optionalSemicolon_of_ne (hw.ne (by decide) (by decide))
  · exact optionalSemicolon_append (List.cons_ne_nil t ts) (w :: us)

theorem continued_moreParameters (ts : List Token) :
    Continued (w :: us) ts (moreParameters ts) (moreParameters (ts ++ w :: us)) := by
  fun_induction moreParameters ts with
  | case1 =>
    have hc : w.kind ≠ .comma := hw.ne (by decide) (by decide)
    have hp : w.kind ≠ .rightParen := hw.ne (by decide) (by decide)
    rw [List.nil_append, moreParameters, if_neg hc, expect, if_neg hp]
    exact .unexpected
  | case2 t rest ht ih =>
    rw [List.cons_append, moreParameters, if_pos ht]
    have hi := continued_expect hw us (k := .identifier) (by decide) (by decide) rest
    refine .bind (hi.mono (List.suffix_cons t rest)) fun name ts₁ h₁ _ _ s₁ => ?_
    exact .bind ((ih ts₁ h₁).mono s₁) fun _ _ _ _ _ s => .ok s
  | case3 t rest ht =>
    rw [List.cons_append, moreParameters, if_neg ht]
    exact .bind (continued_expect hw us (by decide) (by decide) (t :: rest))
      fun _ _ _ _ _ s => .ok s

theorem continued_parameters (ts : List Token) :
    Continued (w :: us) ts (parameters ts) (parameters (ts ++ w :: us)) := by
  have hk := kindAt_append_iff hw us (k := .rightParen) (by decide) (by decide) (by decide) ts
  unfold parameters
  by_cases h : kindAt ts = .rightParen
  · rw [if_pos h, if_pos (hk.2 h)]
    exact .bind (continued_expect hw us (by decide) (by decide) ts) fun _ _ _ _ _ s => .ok s
  · rw [if_neg h, if_neg (mt hk.1 h)]
    refine .bind (continued_expect hw us (by decide) (by decide) ts) fun name ts₁ _ _ _ s₁ => ?_
    exact .bind ((continued_moreParameters hw us ts₁).mono s₁) fun _ _ _ _ _ s => .ok s

/-- Where no brace opens, what starts with one is not read. -/
theorem continued_brace {P Q : List Token → Prop} {ts : List Token}
    (hts : ∀ t ∈ ts, t.kind ≠ .leftBrace)
    (f : Token × Shorter ts → Except Failure (β × { rest // P rest }))
    (g : Token × Shorter (ts ++ w :: us) → Except Failure (β × { rest // Q rest })) :
    Continued (w :: us) ts (expect .leftBrace ts >>= f)
      (expect .leftBrace (ts ++ w :: us) >>= g) := by
  refine .bind (continued_expect hw us (by decide) (by decide) ts) fun b rest _ _ e _ => ?_
  exfalso
  rcases ts with _ | ⟨t, ts⟩
  · cases e
  · rw [expect, if_neg (hts t List.mem_cons_self)] at e
    cases e

/-- A closing bracket of a list of expressions. -/
def Closer (k : Token.Kind) : Prop :=
  k = .rightParen ∨ k = .rightBracket

omit hw in
theorem Closer.ne {k : Token.Kind} (h : Closer k) :
    k ≠ .letWord ∧ k ≠ .returnWord ∧ k ≠ .endOfInput := by
  rcases h with rfl | rfl <;> decide

omit hw in
theorem Inner.of_suffix {ts rest : List Token} (h : ∀ t ∈ ts, Inner t) (hs : rest <:+ ts) :
    ∀ t ∈ rest, Inner t :=
  fun t ht => h t (hs.subset ht)

omit hw in
theorem Inner.tail {t : Token} {ts : List Token} (h : ∀ s ∈ t :: ts, Inner s) :
    ∀ s ∈ ts, Inner s :=
  Inner.of_suffix h (List.suffix_cons t ts)

variable (w) in
omit hw in
/-- All rules come to the same outcome in front of the keyword.  Blocks and pairs stand
    behind a brace, and so nothing is to be said about them. -/
def continued : Property where
  expression level ts := (∀ t ∈ ts, Inner t) →
    Continued (w :: us) ts (expression level ts) (expression level (ts ++ w :: us))
  extend level left ts := (∀ t ∈ ts, Inner t) →
    Continued (w :: us) ts (extend level left ts) (extend level left (ts ++ w :: us))
  operand ts := (∀ t ∈ ts, Inner t) →
    Continued (w :: us) ts (operand ts) (operand (ts ++ w :: us))
  conditional t ts := (∀ t ∈ ts, Inner t) →
    Continued (w :: us) ts (conditional t ts) (conditional t (ts ++ w :: us))
  items closing ts := Closer closing → (∀ t ∈ ts, Inner t) →
    Continued (w :: us) ts (items closing ts) (items closing (ts ++ w :: us))
  moreItems closing ts := Closer closing → (∀ t ∈ ts, Inner t) →
    Continued (w :: us) ts (moreItems closing ts) (moreItems closing (ts ++ w :: us))
  pairs _ := True
  blockBody _ := True
  statement ts := (∀ t ∈ ts, Inner t) → ts ≠ [] →
    Continued (w :: us) ts (statement ts) (statement (ts ++ w :: us))

section

variable {us} {ts : List Token} (below : (continued w us).Below ts)

include below

theorem continued_operand_of_below (hts : ∀ t ∈ ts, Inner t) :
    Continued (w :: us) ts (operand ts) (operand (ts ++ w :: us)) := by
  cases ts with
  | nil =>
    have ho : operand (w :: us) = .error ⟨.noOperand (kindAt (w :: us)), w :: us⟩ := by
      rw [operand, kindAt]
      rcases hw with h | h <;> simp only [h]
    rw [List.nil_append, operand, ho]
    exact .noOperand
  | cons t rest =>
    have on := below.tail
    have hrest := Inner.tail hts
    have hs : rest <:+ t :: rest := List.suffix_cons t rest
    cases hk : t.kind with
    | identifier | string | trueWord | falseWord =>
      simp only [List.cons_append, operand, hk]
      exact .ok hs
    | integer =>
      simp only [List.cons_append, operand, hk]
      split
      · exact .ok hs
      · exact .inside (f := ⟨.notAnInteger t.literal, t :: rest⟩) List.suffix_rfl
          (List.cons_ne_nil t rest) (by rintro ⟨⟩)
    | bang | minus =>
      simp only [List.cons_append, operand, hk]
      exact .bind ((on.expression .prefixOp hrest).mono hs) fun _ _ _ _ _ s => .ok s
    | leftParen =>
      simp only [List.cons_append, operand, hk]
      refine .bind ((on.expression .lowest hrest).mono hs) fun e ts₁ h₁ _ _ s₁ => ?_
      have hc := continued_expect hw us (k := .rightParen) (by decide) (by decide) ts₁
      exact .bind (hc.mono s₁) fun _ _ _ _ _ s => .ok s
    | leftBracket =>
      simp only [List.cons_append, operand, hk]
      exact .bind ((on.items .rightBracket (.inr rfl) hrest).mono hs) fun _ _ _ _ _ s => .ok s
    | leftBrace => exact absurd hk (hts t List.mem_cons_self).2.1
    | ifWord =>
      simp only [List.cons_append, operand, hk]
      exact .bind ((on.conditional t hrest).mono hs) fun _ _ _ _ _ s => .ok s
    | fnWord =>
      simp only [List.cons_append, operand, hk]
      have ho := continued_expect hw us (k := .leftParen) (by decide) (by decide) rest
      refine .bind (ho.mono hs) fun _ ts₁ _ _ _ s₁ => ?_
      refine .bind ((continued_parameters hw us ts₁).mono s₁) fun names ts₂ _ _ _ s₂ => ?_
      exact (continued_brace hw us (fun b hb => (Inner.of_suffix hts s₂ b hb).2.1) _ _).mono s₂
    | _ =>
      have hne : t.kind ≠ .endOfInput := (hts t List.mem_cons_self).2.2
      simp only [List.cons_append, operand, hk]
      refine .inside (f := ⟨.noOperand _, t :: rest⟩) List.suffix_rfl (List.cons_ne_nil t rest) ?_
      exact fun he => hne (hk.trans (Problem.noOperand.inj he))

omit hw in
theorem continued_expression_of_below (ho : (continued w us).operand ts) (level : Precedence)
    (hts : ∀ t ∈ ts, Inner t) :
    Continued (w :: us) ts (expression level ts) (expression level (ts ++ w :: us)) := by
  rw [expression, expression]
  refine .bind (ho hts) fun left ts₁ h₁ _ _ s₁ => ?_
  have more := (below ts₁ h₁).extend level left (Inner.of_suffix hts s₁)
  exact .bind (more.mono s₁) fun _ _ _ _ _ s => .ok s

theorem continued_extend_of_below (level : Precedence) (left : Expr) (hts : ∀ t ∈ ts, Inner t) :
    Continued (w :: us) ts (extend level left ts) (extend level left (ts ++ w :: us)) := by
  cases ts with
  | nil =>
    have hl : ¬ level < .of w.kind := by
      rcases hw with h | h <;> rw [h] <;> exact Nat.not_lt_zero _
    have stop : ([] : List Token) <:+ [] := List.suffix_rfl
    rw [List.nil_append, extend, extend, if_neg hl]
    exact .ok stop
  | cons t rest =>
    have on := below.tail
    have hrest := Inner.tail hts
    have hs : rest <:+ t :: rest := List.suffix_cons t rest
    have stop : t :: rest <:+ t :: rest := List.suffix_rfl
    by_cases h : level < .of t.kind
    · cases hx : Extension.ofKind? t.kind with
      | none =>
        simp only [List.cons_append, extend, h, hx, if_true]
        exact .ok stop
      | some x =>
        cases x with
        | infixOp op =>
          simp only [List.cons_append, extend, h, hx, if_true]
          refine .bind ((on.expression _ hrest).mono hs) fun right ts₁ h₁ _ _ s₁ => ?_
          have more := (below ts₁ (by grind)).extend level (.infixOp t left op right)
            (Inner.of_suffix hts s₁)
          exact .bind (more.mono s₁) fun _ _ _ _ _ s => .ok s
        | call =>
          simp only [List.cons_append, extend, h, hx, if_true]
          refine .bind ((on.items _ (.inl rfl) hrest).mono hs) fun arguments ts₁ h₁ _ _ s₁ => ?_
          have more := (below ts₁ (by grind)).extend level (.call t left arguments)
            (Inner.of_suffix hts s₁)
          exact .bind (more.mono s₁) fun _ _ _ _ _ s => .ok s
        | index =>
          simp only [List.cons_append, extend, h, hx, if_true]
          refine .bind ((on.expression _ hrest).mono hs) fun i ts₁ h₁ _ _ s₁ => ?_
          have hc := continued_expect hw us (k := .rightBracket) (by decide) (by decide) ts₁
          refine .bind (hc.mono s₁) fun _ ts₂ h₂ _ _ s₂ => ?_
          have more := (below ts₂ (by grind)).extend level (.index t left i)
            (Inner.of_suffix hts s₂)
          exact .bind (more.mono s₂) fun _ _ _ _ _ s => .ok s
    · simp only [List.cons_append, extend, h, if_false]
      exact .ok stop

theorem continued_conditional_of_below (t : Token) (hts : ∀ t ∈ ts, Inner t) :
    Continued (w :: us) ts (conditional t ts) (conditional t (ts ++ w :: us)) := by
  rw [conditional, conditional]
  refine .bind (continued_expect hw us (by decide) (by decide) ts) fun _ ts₁ h₁ _ _ s₁ => ?_
  have condition := (below ts₁ h₁).expression .lowest (Inner.of_suffix hts s₁)
  refine .bind (condition.mono s₁) fun _ ts₂ _ _ _ s₂ => ?_
  have hc := continued_expect hw us (k := .rightParen) (by decide) (by decide) ts₂
  refine .bind (hc.mono s₂) fun _ ts₃ _ _ _ s₃ => ?_
  exact (continued_brace hw us (fun b hb => (Inner.of_suffix hts s₃ b hb).2.1) _ _).mono s₃

theorem continued_items_of_below (hx : ∀ level, (continued w us).expression level ts)
    (closing : Token.Kind) (hc : Closer closing) (hts : ∀ t ∈ ts, Inner t) :
    Continued (w :: us) ts (items closing ts) (items closing (ts ++ w :: us)) := by
  obtain ⟨hl, hr, he⟩ := hc.ne
  simp only [items, kindAt_append_iff hw us hl hr he ts]
  split
  · exact .bind (continued_expect hw us hl hr ts) fun _ _ _ _ _ s => .ok s
  · refine .bind (hx .lowest hts) fun e ts₁ h₁ _ _ s₁ => ?_
    have more := (below ts₁ h₁).moreItems closing hc (Inner.of_suffix hts s₁)
    exact .bind (more.mono s₁) fun _ _ _ _ _ s => .ok s

theorem continued_moreItems_of_below (closing : Token.Kind) (hc : Closer closing)
    (hts : ∀ t ∈ ts, Inner t) :
    Continued (w :: us) ts (moreItems closing ts) (moreItems closing (ts ++ w :: us)) := by
  obtain ⟨hl, hr, -⟩ := hc.ne
  cases ts with
  | nil =>
    have hm : w.kind ≠ .comma := hw.ne (by decide) (by decide)
    rw [List.nil_append, moreItems, moreItems, if_neg hm, expect, if_neg (hw.ne hl hr)]
    exact .unexpected
  | cons t rest =>
    simp only [List.cons_append, moreItems]
    split
    · have he := below.tail.expression .lowest (Inner.tail hts)
      refine .bind (he.mono (List.suffix_cons t rest)) fun e ts₁ h₁ _ _ s₁ => ?_
      have more := (below ts₁ (by grind)).moreItems closing hc (Inner.of_suffix hts s₁)
      exact .bind (more.mono s₁) fun _ _ _ _ _ s => .ok s
    · exact .bind (continued_expect hw us hl hr (t :: rest)) fun _ _ _ _ _ s => .ok s

theorem continued_statement_of_below (hx : ∀ level, (continued w us).expression level ts)
    (hts : ∀ t ∈ ts, Inner t) (hne : ts ≠ []) :
    Continued (w :: us) ts (statement ts) (statement (ts ++ w :: us)) := by
  obtain ⟨t, rest, rfl⟩ := List.exists_cons_of_ne_nil hne
  have ht : ¬ Boundary t := (hts t List.mem_cons_self).1
  simp only [List.cons_append, statement]
  split
  · rename_i hk
    exact absurd (.inr (.inl hk)) ht
  · rename_i hk
    exact absurd (.inr (.inr hk)) ht
  · refine .bind (hx .lowest hts) fun e ts₁ _ _ _ s₁ => ?_
    simp only [optionalSemicolon_append_keyword hw]
    exact .ok ((suffix_optionalSemicolon ts₁).trans s₁)

end

theorem hereditary_continued : (continued w us).Hereditary where
  operand := continued_operand_of_below hw
  expression := continued_expression_of_below
  extend := continued_extend_of_below hw
  conditional := continued_conditional_of_below hw
  items := continued_items_of_below hw
  moreItems := continued_moreItems_of_below hw
  pairs _ _ := trivial
  statement := continued_statement_of_below hw
  blockBody _ _ := trivial

/-- **To a rule, a keyword is as good an end as the end of the input.** -/
theorem continued_rules (ts : List Token) : (continued w us).On ts :=
  (hereditary_continued hw us).everywhere ts

end

/-! ### Where the next statement starts -/

/-- What is looked for behind a fault among such tokens is not among them. -/
theorem nextBoundary_inner {ts : List Token} (hts : ∀ t ∈ ts, Inner t) (us : List Token) :
    nextBoundary (ts ++ us) = nextBoundary us :=
  nextBoundary_of_none (fun t ht => ⟨(hts t ht).1, (hts t ht).2.2⟩) us

theorem resume_inner (problem : Problem) {ts : List Token} (hts : ∀ t ∈ ts, Inner t) (hne : ts ≠ [])
    (us : List Token) : (Failure.mk problem (ts ++ us)).resume = nextBoundary us := by
  obtain ⟨t, ts, rfl⟩ := List.exists_cons_of_ne_nil hne
  have ht : t.kind ≠ .semicolon := fun h => (hts t List.mem_cons_self).1 (.inl h)
  cases problem with
  | unexpected => exact nextBoundary_inner hts us
  | noOperand | notAnInteger =>
    simp only [Failure.resume, List.cons_append, if_neg ht]
    exact nextBoundary_inner (Inner.tail hts) us

theorem nextBoundary_keyword {w : Token} (hw : Keyword w) (us : List Token) :
    nextBoundary (w :: us) = w :: us := by
  rw [nextBoundary, if_pos (hw.elim .inl fun h => .inr (.inl h))]

/-- The word that should have been an operand is dropped. -/
theorem resume_keyword {w : Token} (hw : Keyword w) (k : Token.Kind) (us : List Token) :
    (Failure.mk (.noOperand k) (w :: us)).resume = nextBoundary us :=
  if_neg (hw.ne (by decide) (by decide))

/-- The outcome of a faulty statement, and its outcome in front of a keyword.  Reading goes
    on at the keyword, or else behind it. -/
theorem statement_append_keyword {w : Token} (hw : Keyword w) (us : List Token) {ts : List Token}
    (hts : ∀ t ∈ ts, Inner t) (hne : ts ≠ []) {f : Failure} (h : statement ts = .error f) :
    f.resume = [] ∧ ∃ g, statement (ts ++ w :: us) = .error g ∧
      ((f.problem ≠ .noOperand .endOfInput ∧ g.resume = w :: us) ∨
        (f.problem = .noOperand .endOfInput ∧ g = ⟨.noOperand w.kind, w :: us⟩)) := by
  have hc := (continued_rules hw us ts).statement hts hne
  generalize statement (ts ++ w :: us) = y at hc ⊢
  rw [h] at hc
  cases hc with
  | inside hs hne' hf =>
    have hi := Inner.of_suffix hts hs
    have hr := resume_inner f.problem hi hne' []
    rw [List.append_nil] at hr
    have hr' := resume_inner f.problem hi hne' (w :: us)
    exact ⟨hr, _, rfl, .inl ⟨hf, hr'.trans (nextBoundary_keyword hw us)⟩⟩
  | unexpected => exact ⟨rfl, _, rfl, .inl ⟨nofun, nextBoundary_keyword hw us⟩⟩
  | noOperand => exact ⟨rfl, _, rfl, .inr ⟨rfl, rfl⟩⟩

/-- Statements in front of a keyword are read as if it were the end of the input.  The first
    one that fails is the last. -/
theorem rounds_append_keyword {w : Token} (hw : Keyword w) (us : List Token) {ts : List Token}
    (hts : ∀ t ∈ ts, Inner t) :
    ∃ ss : List Statement,
      (rounds ts = ss.map .ok ∧ rounds (ts ++ w :: us) = ss.map .ok ++ rounds (w :: us)) ∨
      ∃ f g, rounds ts = ss.map .ok ++ [.error f] ∧
        rounds (ts ++ w :: us) = ss.map .ok ++ .error g :: rounds g.resume ∧
        ((f.problem ≠ .noOperand .endOfInput ∧ g.resume = w :: us) ∨
          (f.problem = .noOperand .endOfInput ∧ g = ⟨.noOperand w.kind, w :: us⟩)) := by
  fun_induction rounds ts with
  | case1 => exact ⟨[], .inl ⟨rfl, rfl⟩⟩
  | case2 t ts ht => exact absurd ht (hts t List.mem_cons_self).2.2
  | case3 t ts ht s ts₁ h₁ e ih =>
    have hc := (continued_rules hw us (t :: ts)).statement hts (List.cons_ne_nil t ts)
    rw [List.cons_append] at hc ⊢
    generalize hy : statement (t :: (ts ++ w :: us)) = y at hc
    rw [e] at hc
    cases hc with
    | ok hs =>
      obtain ⟨ss, h⟩ := ih (Inner.of_suffix hts hs)
      rw [rounds_of_ok ht hy]
      rcases h with ⟨h, h'⟩ | ⟨f, g, h, h', hg⟩
      · exact ⟨s :: ss, .inl ⟨congrArg (List.cons _) h, congrArg (List.cons _) h'⟩⟩
      · exact ⟨s :: ss, .inr ⟨f, g, congrArg (List.cons _) h, congrArg (List.cons _) h', hg⟩⟩
  | case4 t ts ht f e _ ih =>
    obtain ⟨hf, g, hg, hr⟩ := statement_append_keyword hw us hts (List.cons_ne_nil t ts) e
    refine ⟨[], .inr ⟨f, g, ?_, rounds_of_error ht hg, hr⟩⟩
    rw [hf, rounds]
    rfl

end Rule

namespace Program

open Rule

/-! ### Programs -/

theorem body_of_last {ts : List Token} (h : ∀ t ∈ ts.getLast?, t.kind ≠ .endOfInput) :
    body ts = ts := by
  unfold body
  split
  · rename_i t ht
    exact if_neg (h t ht)
  · rename_i hn
    exact (List.getLast?_eq_none_iff.1 hn).symm

theorem body_keyword {w : Token} (hw : Keyword w) (us : List Token) :
    body (w :: us) = w :: body us := by
  rcases us with _ | ⟨u, us⟩
  · exact if_neg (hw.ne (by decide) (by decide))
  · exact @body_append [w] _ (List.cons_ne_nil u us)

theorem nextBoundary_concat {t : Token} (ht : t.kind = .endOfInput) (ts : List Token) :
    nextBoundary (ts ++ [t]) = nextBoundary ts ++ [t] := by
  induction ts with
  | nil => exact if_pos (.inr (.inr ht))
  | cons u us ih =>
    rw [List.cons_append, nextBoundary, nextBoundary]
    split
    · rfl
    · split
      · rfl
      · exact ih

/-- A final `endOfInput` token is none of the tokens in which the next statement is looked
    for. -/
theorem body_nextBoundary (ts : List Token) : body (nextBoundary ts) = nextBoundary (body ts) := by
  rcases List.eq_nil_or_concat ts with rfl | ⟨ts, t, rfl⟩
  · rfl
  · rw [List.concat_eq_append]
    by_cases ht : t.kind = .endOfInput
    · rw [nextBoundary_concat ht, body_concat ht, body_concat ht]
    · have hlast : ∀ u ∈ (ts ++ [t]).getLast?, u.kind ≠ .endOfInput := by
        intro u hu
        rw [List.getLast?_concat] at hu
        cases hu
        exact ht
      rw [body_of_last hlast]
      refine body_of_last fun u hu => hlast u ?_
      obtain ⟨us, hus⟩ := suffix_nextBoundary (ts ++ [t])
      rw [← hus, List.getLast?_append, Option.mem_def.1 hu]
      rfl

/-- Tokens that are read on from a boundary have the same end of the input behind them. -/
theorem diagnostics_nextBoundary {ts us : List Token} (hs : us <:+ ts) :
    ((rounds (nextBoundary (body us))).filterMap failure?).map (Failure.diagnostic (endLine ts)) =
      (read (nextBoundary us)).diagnostics := by
  rw [read, body_nextBoundary]
  by_cases hne : nextBoundary us = []
  · have hb : nextBoundary (body us) = [] := by
      rw [← body_nextBoundary, hne]
      rfl
    rw [hb, rounds]
    rfl
  · obtain ⟨vs, rfl⟩ := (suffix_nextBoundary us).trans hs
    rw [endLine_append hne]

/-- **A fault in front of a `let` or `return`.**  Let something be wrong with tokens that hold
    no opening brace, no boundary of a statement and no end of the input, and let a program
    that starts with `let` or `return` have nothing wrong with it.  The tokens leave one
    diagnostic.  In front of the program they do so too, and its statements are read in full
    behind theirs, unless what is missing at their end is an operand.  Then the first word of
    the program is taken for the token at fault and dropped, and reading goes on at the next
    boundary behind it. -/
theorem read_append_keyword {ts us : List Token} {w : Token} (hts : ∀ t ∈ ts, Inner t)
    (hw : Keyword w) (hfaulty : (read ts).diagnostics ≠ [])
    (hclean : (read (w :: us)).diagnostics = []) :
    ∃ d, (read ts).diagnostics = [d] ∧
      (d.problem ≠ .noOperand .endOfInput →
        (read (ts ++ w :: us)).program.statements =
            (read ts).program.statements ++ (read (w :: us)).program.statements ∧
          (read (ts ++ w :: us)).diagnostics.length = 1) ∧
      (d.problem = .noOperand .endOfInput →
        (read (ts ++ w :: us)).program.statements =
            (read ts).program.statements ++ (read (nextBoundary us)).program.statements ∧
          (read (ts ++ w :: us)).diagnostics =
            ⟨w.line, .noOperand w.kind⟩ :: (read (nextBoundary us)).diagnostics) := by
  have hbody : body ts = ts :=
    body_of_last fun t ht => (hts t (List.mem_of_getLast? ht)).2.2
  have hbody' : body (ts ++ w :: us) = ts ++ w :: body us := by
    rw [body_append (List.cons_ne_nil w us), body_keyword hw]
  have hclean' : (rounds (w :: body us)).filterMap failure? = [] := by
    rw [← body_keyword hw]
    exact List.map_eq_nil_iff.1 hclean
  have hkept : (read (w :: us)).program.statements =
      (rounds (w :: body us)).filterMap statement? := by rw [read, body_keyword hw]
  have hok (ss : List Statement) : (ss.map Except.ok).filterMap statement? = ss ∧
      (ss.map Except.ok).filterMap failure? = [] := by
    rw [List.filterMap_map, List.filterMap_map]
    exact ⟨List.filterMap_some, List.filterMap_eq_nil_iff.2 fun _ _ => rfl⟩
  simp only [read, hbody] at hfaulty
  obtain ⟨ss, ⟨h, -⟩ | ⟨f, g, h, h', hg⟩⟩ := rounds_append_keyword hw (body us) hts
  · rw [h, (hok ss).2] at hfaulty
    exact absurd rfl hfaulty
  · refine ⟨f.diagnostic (endLine ts), ?_, ?_, ?_⟩
    · simp only [read, hbody, h, List.filterMap_append, hok, List.nil_append]
      rfl
    · intro hd
      obtain ⟨-, hg⟩ := hg.resolve_right fun hg => hd hg.1
      rw [hkept]
      simp only [read, hbody, hbody', h, h', hg, List.filterMap_append, List.filterMap_cons, hok,
        statement?, failure?, hclean', List.filterMap_nil, List.append_nil]
      exact ⟨trivial, rfl⟩
    · intro hd
      obtain ⟨-, rfl⟩ := hg.resolve_left fun hg => hg.1 hd
      have hr := diagnostics_nextBoundary
        ((List.suffix_cons w us).trans (List.suffix_append ts (w :: us)))
      have hn := resume_keyword hw w.kind (body us)
      rw [← hr]
      simp only [read, hbody, hbody', h, h', hn, body_nextBoundary, List.filterMap_append,
        List.filterMap_cons, hok, statement?, failure?, List.filterMap_nil, List.append_nil]
      exact ⟨trivial, rfl⟩

/-- The tokens of `y if (a)`, where a block is missing. -/
def missingBlock : List Token :=
  body (Token.scan (Text.Utf8.encode "y if (a)"))

/-- The tokens of `1 +`, where an operand is missing. -/
def missingOperand : List Token :=
  body (Token.scan (Text.Utf8.encode "1 +"))

/-- The word `let`. -/
def letToken : Token :=
  ⟨.letWord, "let", 1⟩

/-- The tokens of `x = 5; x`, the end of the input with them. -/
def behindLet : List Token :=
  Token.scan (Text.Utf8.encode "x = 5; x")

/-- Behind a missing block, both statements of `let x = 5; x` are read. -/
theorem read_missingBlock :
    (read missingBlock).diagnostics ≠ [] ∧ (read (letToken :: behindLet)).diagnostics = [] ∧
      (read (missingBlock ++ letToken :: behindLet)).program.statements =
        (read missingBlock).program.statements ++
          (read (letToken :: behindLet)).program.statements ∧
      (read (missingBlock ++ letToken :: behindLet)).diagnostics.length = 1 ∧
      (read missingBlock).program.statements.length = 1 ∧
      (read (letToken :: behindLet)).program.statements.length = 2 := by
  have hinner : ∀ t ∈ missingBlock, Inner t := by decide +kernel
  have hfaulty : (read missingBlock).diagnostics ≠ [] := by decide +kernel
  have hclean : (read (letToken :: behindLet)).diagnostics = [] := by decide +kernel
  obtain ⟨d, hd, hkept, -⟩ := read_append_keyword hinner (.inl rfl) hfaulty hclean
  have hne : ∀ e ∈ (read missingBlock).diagnostics, e.problem ≠ .noOperand .endOfInput := by
    decide +kernel
  obtain ⟨hs, hl⟩ := hkept (hne d (hd ▸ List.mem_cons_self))
  refine ⟨hfaulty, hclean, hs, hl, ?_⟩
  decide +kernel

/-- **A `let` where an operand is missing is dropped.**  Of `1 + let x = 5; x` only the last
    statement is read. -/
theorem keyword_dropped :
    ¬ ∀ (ts us : List Token) (w : Token), (∀ t ∈ ts, Inner t) → Keyword w →
      (read ts).diagnostics ≠ [] → (read (w :: us)).diagnostics = [] →
      (read (ts ++ w :: us)).diagnostics.length = 1 ∧
        (read (ts ++ w :: us)).program.statements =
          (read ts).program.statements ++ (read (w :: us)).program.statements := by
  intro h
  have hinner : ∀ t ∈ missingOperand, Inner t := by decide +kernel
  have hfaulty : (read missingOperand).diagnostics ≠ [] := by decide +kernel
  have hclean : (read (letToken :: behindLet)).diagnostics = [] := by decide +kernel
  obtain ⟨-, hs⟩ := h missingOperand behindLet letToken hinner (.inl rfl) hfaulty hclean
  have hlength := congrArg List.length hs
  revert hlength
  decide +kernel

end Program

end Monkey
