import Monkey.Proofs.Syntax.Grammar
import Monkey.Proofs.Syntax.Reader.Positions

/-!
  Monkey/Proofs/Syntax/Reader/Agreement.lean
  ==========================================
  **Reading by position is reading from a list.**

  A rule that is given the tokens from the reader's present one on (`here`), or those
  behind it (`ahead`), and the reader that does the same come to the same end
  (`Follows`): the same construct and the same tokens left, or the same failure.  The two
  are compared rule by rule, each of them where those that it calls agree
  (`follows_rules`).  That a depth of more than the number of the tokens is enough is
  part of it, for every call and every round leave fewer tokens.

  Where a failure leaves the reader (`StuckAt`) matters for what is read next.  If a
  token was only looked at, the reader stands in front of it, and never on a `;`
  (`Clear`), which would be taken for the end of the statement.
-/
namespace Monkey

/-- The report of a failure: the number of the offending token follows from how many tokens
    remained, the last one not counted. -/
def Failure.report (tokens : List Token) (f : Failure) : Report :=
  { position := tokens.length - 1 - f.remaining.length
    line := lineAt (Program.endLine tokens) f.remaining
    message := f.problem.message }

namespace Reader

open Rule

variable {r r' : Reader}

/-! ### What it means to agree -/

/-- The reader does not stand on a `;`. -/
def Clear (r : Reader) : Prop :=
  kindAt r.here ≠ .semicolon

/-- Where the reader stands after a failure: in front of the offending token if that was only
    looked at, and on it if it should have started an expression. -/
def StuckAt (r : Reader) (f : Failure) : Prop :=
  match f.problem with
  | .unexpected _ _ => r.Clear ∧ r.ahead = f.remaining
  | _ => r.here = f.remaining

/-- What a rule reads from a list and what the reader does.  Where the rule yields something the
    reader yields the same, and reports nothing; it stands in front of what the rule leaves.
    Where the rule fails the reader fails too, with the report of that failure. -/
inductive Follows (Q : Reader → Prop) (r : Reader) {P : List Token → Prop} :
    Except Failure (α × { rest // P rest }) → Except Halt (Option α × Reader) → Prop where
  | some {a rest r'} {h : P rest} (ho : r.Onward r') (ha : r'.ahead = rest) (hq : Q r')
      (hr : r'.reports = r.reports) : Follows Q r (.ok (a, ⟨rest, h⟩)) (.ok (some a, r'))
  | none {f r'} (ho : r.Onward r') (hf : r'.StuckAt f)
      (hr : r'.reports = r.reports ++ [f.report r.tokens]) : Follows Q r (.error f) (.ok (none, r'))

namespace Follows

variable {Q Q' : Reader → Prop} {P P' : List Token → Prop}

/-- From where the reader has gone on to. -/
theorem of_onward {x : Except Failure (α × { rest // P rest })}
    {z : Except Halt (Option α × Reader)} (h : Follows Q r' x z) (ho : r.Onward r')
    (hr : r'.reports = r.reports) : Follows Q r x z := by
  cases h with
  | some ho' ha hq hr' => exact .some (ho.trans ho') ha hq (hr'.trans hr)
  | none ho' hf hr' =>
    refine .none (ho.trans ho') hf ?_
    rw [hr', hr, ho.tokens]

theorem bind {x : Except Failure (α × { rest // P rest })} {y : Act α}
    {f : α × { rest // P rest } → Except Failure (β × { rest // P' rest })} {g : α → Act β}
    (hx : Follows Q r x (y r))
    (hf : ∀ a rest (h : P rest) r', r'.Valid → r'.ahead = rest → Q r' →
      Follows Q' r' (f (a, ⟨rest, h⟩)) (g a r')) :
    Follows Q' r (x >>= f) ((y >>= g) r) := by
  generalize hz : y r = z at hx
  cases hx with
  | some ho ha hq hr =>
    rw [bind_some hz]
    exact (hf _ _ _ _ ho.valid ha hq).of_onward ho hr
  | none ho hf hr =>
    rw [bind_none hz]
    exact .none ho hf hr

theorem bind_error {f : Failure} {y : Act α} {g : α → Act β}
    (hx : Follows Q r (P := P) (.error f) (y r)) :
    Follows Q' r (P := P') (.error f) ((y >>= g) r) := by
  generalize hz : y r = z at hx
  cases hx with
  | none ho hf hr =>
    rw [bind_none hz]
    exact .none ho hf hr

/-- What the reader does agrees with what the rule hands on. -/
theorem tail {x : Except Failure (α × { rest // P rest })} {z : Except Halt (Option α × Reader)}
    {f : α × { rest // P rest } → Except Failure (α × { rest // P' rest })}
    (hx : Follows Q r x z)
    (hf : ∀ a rest (h : P rest), ∃ h', f (a, ⟨rest, h⟩) = .ok (a, ⟨rest, h'⟩)) :
    Follows Q r (x >>= f) z := by
  cases hx with
  | @some a rest r' h ho ha hq hr =>
    obtain ⟨h', hf⟩ := hf a rest h
    change Follows Q r (f (a, ⟨rest, h⟩)) _
    rw [hf]
    exact .some ho ha hq hr
  | none ho hf hr => exact .none ho hf hr

theorem pure {a : α} {rest : List Token} {h : P rest} (hr : r.Valid) (ha : r.ahead = rest)
    (hq : Q r) : Follows Q r (.ok (a, ⟨rest, h⟩)) ((Pure.pure a : Act α) r) :=
  .some hr.onward ha hq rfl

/-- The reader takes a step. -/
theorem next {x : Except Failure (α × { rest // P rest })} {g : Unit → Act α} {ts : List Token}
    (hr : r.Valid) (ha : r.ahead = ts)
    (h : ∀ r', r'.Valid → r'.here = ts → Follows Q r' x (g () r')) :
    Follows Q r x ((nextToken >>= g) r) := by
  rw [nextToken_bind]
  exact (h _ hr.next.valid (hr.here_next.trans ha)).of_onward hr.next rfl

end Follows

/-! ### Where things are -/

namespace Valid

theorem current_eq (h : r.Valid) : r.current = r.tokens.length - 1 - r.here.length := by
  have hl := h.length_here
  omega

theorem following_eq (h : r.Valid) : r.following = r.tokens.length - 1 - r.ahead.length := by
  have hl := h.length_here
  rw [following, ahead, List.length_tail]
  omega

theorem cur_eq (h : r.Valid) {t : Token} {ts : List Token} (hh : r.here = t :: ts) :
    Reader.cur r = .ok (some t, r) := by
  obtain ⟨u, hu, ht, -, -⟩ := h.cur
  rw [hu, ht t (by rw [hh]; rfl)]

theorem expectPeek_of_eq (h : r.Valid) {wanted : Token.Kind} (hk : kindAt r.ahead = wanted) :
    expectPeek wanted r = .ok (some (), r.next) := by
  obtain ⟨t, ht, -, htk, -⟩ := h.peek
  rw [expectPeek, bind_some ht, if_pos (htk.trans hk)]
  rfl

theorem expectPeek_of_ne (h : r.Valid) {wanted : Token.Kind} (hk : kindAt r.ahead ≠ wanted) :
    expectPeek wanted r = .ok (none, { r with reports := r.reports ++
      [Failure.report r.tokens ⟨.unexpected wanted (kindAt r.ahead), r.ahead⟩] }) := by
  obtain ⟨t, ht, -, htk, hline⟩ := h.peek
  rw [expectPeek, bind_some ht, if_neg (htk ▸ hk), fail, htk, hline, h.following_eq]
  rfl

theorem report (h : r.Valid) (p : Report) : r.Onward { r with reports := r.reports ++ [p] } where
  tokens := rfl
  valid := ⟨h.last, h.current, h.head, h.sorted⟩
  current := Nat.le_refl _
  trail := List.suffix_rfl

end Valid

theorem clear_of_here {t : Token} {ts : List Token} (hh : r.here = t :: ts)
    (hk : t.kind ≠ .semicolon) : r.Clear := by
  rw [Clear, hh]
  exact hk

theorem ahead_of_here {t : Token} {ts : List Token} (hh : r.here = t :: ts) : r.ahead = ts :=
  congrArg List.tail hh

theorem exists_depth {m n : Nat} (h : m < n) : ∃ k, n = k + 1 :=
  Nat.exists_eq_add_one_of_ne_zero (Nat.ne_zero_of_lt h)

section

variable {Q : Reader → Prop} {P : List Token → Prop}

/-- The reader looks at the present token. -/
theorem Follows.cur {x : Except Failure (α × { rest // P rest })} {g : Token → Act α} {t : Token}
    {ts : List Token} (hr : r.Valid) (hh : r.here = t :: ts) (h : Follows Q r x (g t r)) :
    Follows Q r x ((Reader.cur >>= g) r) := by
  rwa [bind_some (hr.cur_eq hh)]

/-- One token of a given kind. -/
theorem Follows.expect {wanted : Token.Kind} {ts : List Token}
    {f : Token × Shorter ts → Except Failure (α × { rest // P rest })} {g : Unit → Act α}
    (hr : r.Valid) (hc : r.Clear) (ha : r.ahead = ts) (hw : wanted ≠ .endOfInput)
    (h : ∀ t rest hl r', t.kind = wanted → r'.Valid → r'.here = t :: rest →
      Follows Q r' (f (t, ⟨rest, hl⟩)) (g () r')) :
    Follows Q r (Rule.expect wanted ts >>= f) ((expectPeek wanted >>= g) r) := by
  have hmiss (hk : kindAt ts ≠ wanted) :
      Follows Q r (P := P) (.error ⟨.unexpected wanted (kindAt ts), ts⟩)
        ((expectPeek wanted >>= g) r) := by
    rw [bind_none (hr.expectPeek_of_ne (ha ▸ hk)), ha]
    exact .none (hr.report _) ⟨hc, ha⟩ rfl
  cases ts with
  | nil => exact hmiss fun hk => hw hk.symm
  | cons t rest =>
    by_cases hk : t.kind = wanted
    · rw [Rule.expect, if_pos hk, bind_some (hr.expectPeek_of_eq (by rw [ha]; exact hk))]
      have hh := hr.here_next.trans ha
      exact (h t rest _ _ hk hr.next.valid hh).of_onward hr.next rfl
    · rw [Rule.expect, if_neg hk]
      exact hmiss hk

/-- The bracket behind what it encloses. -/
theorem follows_close {closing : Token.Kind} {ts : List Token} {as : List α}
    (hr : r.Valid) (hc : r.Clear) (ha : r.ahead = ts) (hend : closing ≠ .endOfInput)
    (hsemi : closing ≠ .semicolon) :
    Follows Clear r (Rule.expect closing ts >>= fun p => .ok (as, p.2))
      ((expectPeek closing >>= fun _ => pure as) r) := by
  refine .expect hr hc ha hend fun t rest hl r' hk hr' hh => ?_
  exact .pure hr' (ahead_of_here hh) (clear_of_here hh (hk ▸ hsemi))

/-- The bracket is next, and the reader goes there. -/
theorem follows_closed {closing : Token.Kind} {ts : List Token} {as : List α}
    (hr : r.Valid) (hc : r.Clear) (ha : r.ahead = ts) (hk : kindAt ts = closing)
    (hend : closing ≠ .endOfInput) (hsemi : closing ≠ .semicolon) :
    Follows Clear r (Rule.expect closing ts >>= fun p => .ok (as, p.2))
      ((nextToken >>= fun _ => pure as) r) := by
  have h := bind_some (f := fun _ => Pure.pure as) (hr.expectPeek_of_eq (ha ▸ hk))
  rw [nextToken_bind, ← h]
  exact follows_close hr hc ha hend hsemi

/-- The present token is reported. -/
theorem Follows.fail {p : Problem} {t : Token} {ts : List Token} (hr : r.Valid)
    (hp : ∀ wanted found, p ≠ .unexpected wanted found) (hh : r.here = ts)
    (ht : t.line = lineAt r.endLine r.here) :
    Follows Q r (P := P) (.error ⟨p, ts⟩) ((Reader.fail current t p.message : Act α) r) := by
  subst hh
  have hf : (Reader.fail current t p.message : Act α) r =
      .ok (Option.none,
        { r with reports := r.reports ++ [Failure.report r.tokens ⟨p, r.here⟩] }) := by
    simp only [Reader.fail, Failure.report, ← hr.current_eq, ht, endLine]
  rw [hf]
  refine .none (hr.report _) ?_ rfl
  cases p with
  | unexpected wanted found => exact absurd rfl (hp wanted found)
  | noOperand | notAnInteger => rfl

end

/-! ### Repetition -/

/-- What is collected, and the bracket behind it. -/
def enclosed (closing : Token.Kind) (guard : Act Bool) (round : Act α) (depth : Nat) :
    Act (List α) := do
  let as ← collect guard round depth
  expectPeek closing
  return as

section

variable {guard : Act Bool} {round : Act α} {depth : Nat}

theorem collect_of_false (h : guard r = .ok (some false, r)) :
    collect guard round (depth + 1) r = .ok (some [], r) := by
  rw [collect, bind_some h]
  rfl

theorem collect_of_true (h : guard r = .ok (some true, r)) :
    collect guard round (depth + 1) r =
      (do let a ← round; let as ← collect guard round depth; return a :: as : Act (List α)) r := by
  rw [collect, bind_some h]
  rfl

theorem enclosed_of_false {closing : Token.Kind} (h : guard r = .ok (some false, r)) :
    enclosed closing guard round (depth + 1) r = (expectPeek closing >>= fun _ => pure []) r := by
  rw [enclosed, bind_some (collect_of_false h)]

theorem enclosed_of_true {closing : Token.Kind} (h : guard r = .ok (some true, r)) :
    enclosed closing guard round (depth + 1) r =
      (do
        let a ← round
        let as ← enclosed closing guard round depth
        return a :: as : Act (List α)) r := by
  simp only [enclosed, collect, bind_assoc, bind_some h, if_true, pure_bind]

theorem iterate_of_false {round : α → Act α} {a : α} (h : guard r = .ok (some false, r)) :
    iterate guard round (depth + 1) a r = .ok (some a, r) := by
  rw [iterate, bind_some h]
  rfl

theorem iterate_of_true {round : α → Act α} {a : α} (h : guard r = .ok (some true, r)) :
    iterate guard round (depth + 1) a r = (round a >>= iterate guard round depth) r := by
  rw [iterate, bind_some h]
  rfl

end

/-! ### Rules without expressions -/

theorem Valid.peekIs_of_eq (h : r.Valid) {k : Token.Kind} (hk : kindAt r.ahead = k) :
    Reader.peekIs k r = .ok (some true, r) := by
  rw [h.peekIs, decide_eq_true hk]

theorem Valid.peekIs_of_ne (h : r.Valid) {k : Token.Kind} (hk : kindAt r.ahead ≠ k) :
    Reader.peekIs k r = .ok (some false, r) := by
  rw [h.peekIs, decide_eq_false hk]

theorem follows_moreParameters {ts : List Token} {depth : Nat} (hr : r.Valid) (hc : r.Clear)
    (ha : r.ahead = ts) (hd : ts.length < depth) :
    Follows Clear r (moreParameters ts)
      (enclosed .rightParen (peekIs .comma) parameterRound depth r) := by
  fun_induction moreParameters ts generalizing r depth with
  | case1 =>
    obtain ⟨depth, rfl⟩ := exists_depth hd
    have hk : kindAt r.ahead ≠ .comma := by
      rw [ha]
      decide
    rw [enclosed_of_false (hr.peekIs_of_ne hk)]
    exact follows_close hr hc ha (by decide) (by decide)
  | case2 t rest ht ih =>
    obtain ⟨depth, rfl⟩ := exists_depth hd
    have hk : kindAt r.ahead = .comma := by
      rw [ha]
      exact ht
    rw [enclosed_of_true (hr.peekIs_of_eq hk)]
    simp only [parameterRound, parameter, bind_assoc, pure_bind]
    refine .next hr ha fun r₁ hr₁ hh₁ => ?_
    have hc₁ := clear_of_here hh₁ (by rw [ht]; decide)
    refine .expect hr₁ hc₁ (ahead_of_here hh₁) (by decide) fun u ts₁ h₁ r₂ hu hr₂ hh₂ => ?_
    have hc₂ := clear_of_here hh₂ (by rw [hu]; decide)
    refine .cur hr₂ hh₂ ?_
    refine .bind (ih ts₁ h₁ hr₂ hc₂ (ahead_of_here hh₂) (by grind)) ?_
    exact fun names ts₂ h₂ r₃ hr₃ ha₃ hc₃ => .pure hr₃ ha₃ hc₃
  | case3 t rest ht =>
    obtain ⟨depth, rfl⟩ := exists_depth hd
    have hk : kindAt r.ahead ≠ .comma := by
      rw [ha]
      exact ht
    rw [enclosed_of_false (hr.peekIs_of_ne hk)]
    exact follows_close hr hc ha (by decide) (by decide)

/-- What is collected is closed by a bracket. -/
theorem collect_expectPeek {closing : Token.Kind} {guard : Act Bool} {round : Act α}
    {f : List α → Act β} {depth : Nat} :
    (collect guard round depth >>= fun as => expectPeek closing >>= fun _ => f as) =
      enclosed closing guard round depth >>= f := by
  simp only [enclosed, bind_assoc, pure_bind]

theorem follows_parameters {ts : List Token} {depth : Nat} (hr : r.Valid) (hc : r.Clear)
    (ha : r.ahead = ts) (hd : ts.length < depth) :
    Follows Clear r (Rule.parameters ts) (parameters depth r) := by
  unfold Rule.parameters parameters
  split
  · rename_i hk
    rw [bind_some (hr.peekIs_of_eq (ha ▸ hk))]
    exact follows_closed hr hc ha hk (by decide) (by decide)
  · rename_i hk
    rw [bind_some (hr.peekIs_of_ne (ha ▸ hk))]
    simp only [Bool.false_eq_true, if_false, parameter, bind_assoc, pure_bind, collect_expectPeek]
    refine .expect hr hc ha (by decide) fun u ts₁ h₁ r₁ hu hr₁ hh₁ => ?_
    have hc₁ := clear_of_here hh₁ (by rw [hu]; decide)
    refine .cur hr₁ hh₁ ?_
    refine .bind (follows_moreParameters hr₁ hc₁ (ahead_of_here hh₁) (by grind)) ?_
    exact fun names ts₂ h₂ r₂ hr₂ ha₂ hc₂ => .pure hr₂ ha₂ hc₂

/-! ### The rules -/

section

variable {depth : Nat} {e : Precedence → Act Expr} {left : Expr} {t : Token} {rest : List Token}

theorem extension_of_infixOp {op : InfixOperator} (hr : r.Valid) (hh : r.here = t :: rest)
    (hx : Extension.ofKind? t.kind = some (.infixOp op)) :
    extension depth e left r =
      (do
        nextToken
        let right ← e (.of t.kind)
        return .infixOp t left op right : Act Expr) r := by
  rw [extension, bind_some (hr.cur_eq hh), hx]
  simp only [infixed]
  rw [bind_some (hr.cur_eq hh)]

theorem extension_of_call (hr : r.Valid) (hh : r.here = t :: rest)
    (hx : Extension.ofKind? t.kind = some .call) :
    extension depth e left r = call depth e t left r := by
  rw [extension, bind_some (hr.cur_eq hh), hx]

theorem extension_of_index (hr : r.Valid) (hh : r.here = t :: rest)
    (hx : Extension.ofKind? t.kind = some .index) :
    extension depth e left r = indexed e t left r := by
  rw [extension, bind_some (hr.cur_eq hh), hx]

theorem continues_of_lt {level : Precedence} (hr : r.Valid) (ha : r.ahead = t :: rest)
    (h : level < .of t.kind) : continues level r = .ok (some true, r) := by
  rw [hr.continues, ha, decide_eq_true]
  refine ⟨?_, h⟩
  rintro (hk : t.kind = .semicolon)
  rw [hk] at h
  exact not_lt_lowest level h

theorem continues_of_not (hr : r.Valid) (level : Precedence)
    (h : ¬ level < .of (kindAt r.ahead)) : continues level r = .ok (some false, r) := by
  rw [hr.continues, decide_eq_false fun hn => h hn.2]

theorem returned_of_end (hr : r.Valid) (hk : kindAt r.ahead = .semicolon ∨
    kindAt r.ahead = .rightBrace ∨ kindAt r.ahead = .endOfInput) :
    returned e r = .ok (some none, r) := by
  obtain ⟨t, ht, -, htk, -⟩ := hr.peek
  rw [returned, bind_some ht]
  simp only [htk, if_pos hk]
  rfl

theorem returned_of_not (hr : r.Valid) (hk : ¬ (kindAt r.ahead = .semicolon ∨
    kindAt r.ahead = .rightBrace ∨ kindAt r.ahead = .endOfInput)) :
    returned e r =
      (do
        nextToken
        let value ← e .lowest
        return some value : Act (Option Expr)) r := by
  obtain ⟨t, ht, -, htk, -⟩ := hr.peek
  rw [returned, bind_some ht]
  simp only [htk, if_neg hk]

theorem alternative_of_else (hr : r.Valid) (hk : kindAt r.ahead = .elseWord) :
    alternative depth e r =
      (do
        expectPeek .elseWord
        expectPeek .leftBrace
        let b ← block depth e
        return some b : Act (Option Block)) r := by
  rw [alternative, bind_some (hr.peekIs_of_eq hk)]
  exact bind_congr_at (hr.expectPeek_of_eq hk).symm

theorem alternative_of_not (hr : r.Valid) (hk : kindAt r.ahead ≠ .elseWord) :
    alternative depth e r = .ok (some none, r) := by
  rw [alternative, bind_some (hr.peekIs_of_ne hk)]
  rfl

theorem insideHash_of_eq (hr : r.Valid) (hk : kindAt r.ahead = .rightBrace) :
    insideHash r = .ok (some false, r) := by
  rw [hr.insideHash, decide_eq_false fun hn => hn hk]

theorem insideHash_of_ne (hr : r.Valid) (hk : kindAt r.ahead ≠ .rightBrace) :
    insideHash r = .ok (some true, r) := by
  rw [hr.insideHash, decide_eq_true hk]

theorem separator_of_eq (hr : r.Valid) (hk : kindAt r.ahead = .rightBrace) :
    separator r = .ok (some (), r) := by
  rw [separator, bind_some (insideHash_of_eq hr hk)]
  rfl

theorem separator_of_ne (hr : r.Valid) (hk : kindAt r.ahead ≠ .rightBrace) :
    separator r = expectPeek .comma r := by
  rw [separator, bind_some (insideHash_of_ne hr hk)]
  rfl

theorem follows_semicolon {ts : List Token} {s : Statement} {P : List Token → Prop}
    {h : P (optionalSemicolon ts).1} (hr : r.Valid) (ha : r.ahead = ts) :
    Follows (fun _ => True) r (.ok (s, ⟨(optionalSemicolon ts).1, h⟩))
      ((skipSemicolon >>= fun _ => pure s) r) := by
  by_cases hk : kindAt ts = .semicolon
  · have hskip : skipSemicolon r = .ok (some (), r.next) := by
      rw [skipSemicolon, bind_some (hr.peekIs_of_eq (ha ▸ hk))]
      rfl
    rw [bind_some hskip]
    refine .some hr.next ?_ trivial rfl
    cases ts with
    | nil => cases hk
    | cons t rest =>
      rw [ahead_of_here (hr.here_next.trans ha), optionalSemicolon_of_eq hk]
  · have hskip : skipSemicolon r = .ok (some (), r) := by
      rw [skipSemicolon, bind_some (hr.peekIs_of_ne (ha ▸ hk))]
      rfl
    rw [bind_some hskip]
    refine .some hr.onward ?_ trivial rfl
    cases ts with
    | nil => exact ha
    | cons t rest => rw [ha, optionalSemicolon_of_ne hk]

end

theorem follows_operand_nil {P : List Token → Prop} {depth : Nat} {e : Precedence → Act Expr}
    (hr : r.Valid) (hh : r.here = []) :
    Follows Clear r (P := P) (.error ⟨.noOperand .endOfInput, []⟩) (operand depth e r) := by
  obtain ⟨t, ht, -, hk, hline⟩ := hr.cur
  rw [hh] at hk
  rw [Reader.operand, bind_some ht]
  simp only [hk, kindAt]
  exact .fail hr (by rintro _ _ ⟨⟩) hh hline

/-- At the end of the input there is no statement. -/
theorem follows_statement_nil {P : List Token → Prop} {depth : Nat} (hr : r.Valid)
    (hh : r.here = []) (hd : 0 < depth) :
    Follows (fun _ => True) r (P := P) (.error ⟨.noOperand .endOfInput, []⟩)
      (statement (expression depth) r) := by
  obtain ⟨depth, rfl⟩ := exists_depth hd
  obtain ⟨t, ht, -, hk, -⟩ := hr.cur
  rw [hh] at hk
  rw [Reader.statement, bind_some ht]
  simp only [hk, kindAt, expressionStatement, expression, extended, bind_assoc]
  rw [bind_some ht]
  exact .bind_error (follows_operand_nil (P := P) hr hh)

/-- The reader does what all rules do, if the depth is more than the number of tokens. -/
def followed : Property where
  expression level ts := ∀ {r : Reader} {depth : Nat}, r.Valid → r.here = ts →
    ts.length < depth → Follows Clear r (Rule.expression level ts) (expression depth level r)
  extend level left ts := ∀ {r : Reader} {depth k : Nat}, r.Valid → r.Clear → r.ahead = ts →
    ts.length < k → ts.length < depth → Follows Clear r (extend level left ts)
      (iterate (continues level) (extensionRound depth (expression depth)) k left r)
  operand ts := ∀ {r : Reader} {depth : Nat}, r.Valid → r.here = ts → ts.length ≤ depth →
    Follows Clear r (Rule.operand ts) (operand depth (expression depth) r)
  conditional t ts := ∀ {r : Reader} {depth : Nat}, r.Valid → r.Clear → r.ahead = ts →
    ts.length < depth →
    Follows Clear r (Rule.conditional t ts) (conditional depth (expression depth) t r)
  items closing ts := ∀ {r : Reader} {depth : Nat}, closing ≠ .endOfInput →
    closing ≠ .semicolon → r.Valid → r.Clear → r.ahead = ts → ts.length < depth →
    Follows Clear r (Rule.items closing ts) (items depth (expression depth) closing r)
  moreItems closing ts := ∀ {r : Reader} {depth k : Nat}, closing ≠ .endOfInput →
    closing ≠ .semicolon → r.Valid → r.Clear → r.ahead = ts → ts.length < k →
    ts.length < depth → Follows Clear r (moreItems closing ts)
      (enclosed closing (peekIs .comma) (itemRound (expression depth)) k r)
  pairs ts := ∀ {r : Reader} {depth k : Nat}, r.Valid → r.Clear → r.ahead = ts →
    ts.length < k → ts.length < depth → Follows Clear r (Rule.pairs ts)
      (enclosed .rightBrace insideHash (pairRound (expression depth)) k r)
  blockBody ts := ∀ {r : Reader} {depth k : Nat}, r.Valid → r.here = ts → ts.length < k →
    ts.length < depth → Follows Clear r (blockBody ts)
      (collect insideBlock (blockRound (expression depth)) k r)
  statement ts := ∀ {r : Reader} {depth : Nat}, r.Valid → r.here = ts → ts.length < depth →
    Follows (fun _ => True) r (Rule.statement ts) (statement (expression depth) r)

section

variable {ts : List Token} (below : followed.Below ts)

include below

theorem follows_operand_of_below {depth : Nat} (hr : r.Valid) (hh : r.here = ts)
    (hd : ts.length ≤ depth) :
    Follows Clear r (Rule.operand ts) (operand depth (expression depth) r) := by
  cases ts with
  | nil =>
    rw [Rule.operand]
    exact follows_operand_nil hr hh
  | cons t rest =>
    have on := below.tail
    have hc {k : Token.Kind} (hk : t.kind = k) (hs : k ≠ .semicolon) : r.Clear :=
      clear_of_here hh (hk ▸ hs)
    rw [Rule.operand, Reader.operand, bind_some (hr.cur_eq hh)]
    cases hk : t.kind with
    | identifier | string | trueWord | falseWord =>
      exact .pure hr (ahead_of_here hh) (hc hk (by decide))
    | integer =>
      cases hv : Text.Decimal.int64? t.literal with
      | some value =>
        simp only [integer, hv]
        exact .pure hr (ahead_of_here hh) (hc hk (by decide))
      | none =>
        simp only [integer, hv]
        exact .fail hr (by rintro _ _ ⟨⟩) hh (by rw [hh]; rfl)
    | bang | minus =>
      simp only [prefixed]
      refine .next hr (ahead_of_here hh) fun r₁ hr₁ hh₁ => ?_
      refine .bind (on.expression .prefixOp hr₁ hh₁ (by grind)) ?_
      exact fun right ts₁ h₁ r₂ hr₂ ha₂ hc₂ => .pure hr₂ ha₂ hc₂
    | leftParen =>
      simp only [group]
      refine .next hr (ahead_of_here hh) fun r₁ hr₁ hh₁ => ?_
      refine .bind (on.expression .lowest hr₁ hh₁ (by grind)) fun e ts₁ h₁ r₂ hr₂ ha₂ hc₂ => ?_
      refine .expect hr₂ hc₂ ha₂ (by decide) fun c ts₂ h₂ r₃ hk₃ hr₃ hh₃ => ?_
      exact .pure hr₃ (ahead_of_here hh₃) (clear_of_here hh₃ (by rw [hk₃]; decide))
    | leftBracket =>
      simp only [array]
      have hc := hc hk (by decide)
      refine .bind (on.items _ (by decide) (by decide) hr hc (ahead_of_here hh) (by grind)) ?_
      exact fun elements ts₁ h₁ r₁ hr₁ ha₁ hc₁ => .pure hr₁ ha₁ hc₁
    | leftBrace =>
      simp only [hash, collect_expectPeek]
      have hc := hc hk (by decide)
      refine .bind (on.pairs hr hc (ahead_of_here hh) (by grind) (by grind)) ?_
      exact fun entries ts₁ h₁ r₁ hr₁ ha₁ hc₁ => .pure hr₁ ha₁ hc₁
    | ifWord =>
      have hc := hc hk (by decide)
      exact .tail (on.conditional t hr hc (ahead_of_here hh) (by grind)) fun _ _ _ => ⟨_, rfl⟩
    | fnWord =>
      simp only [functionLiteral, block, bind_assoc, pure_bind]
      refine .expect hr (hc hk (by decide)) (ahead_of_here hh) (by decide) ?_
      intro o ts₁ h₁ r₁ hk₁ hr₁ hh₁
      have hc₁ := clear_of_here hh₁ (by rw [hk₁]; decide)
      refine .bind (follows_parameters hr₁ hc₁ (ahead_of_here hh₁) (by grind)) ?_
      intro names ts₂ h₂ r₂ hr₂ ha₂ hc₂
      refine .expect hr₂ hc₂ ha₂ (by decide) fun brace ts₃ h₃ r₃ hk₃ hr₃ hh₃ => ?_
      refine .cur hr₃ hh₃ (.next hr₃ (ahead_of_here hh₃) fun r₄ hr₄ hh₄ => ?_)
      refine .bind ((below ts₃ (by grind)).blockBody hr₄ hh₄ (by grind) (by grind)) ?_
      exact fun ss ts₄ h₄ r₅ hr₅ ha₅ hc₅ => .pure hr₅ ha₅ hc₅
    | _ => exact .fail hr (by rintro _ _ ⟨⟩) hh (by rw [hh]; rfl)

theorem follows_expression_of_below (ho : followed.operand ts) (level : Precedence) {depth : Nat}
    (hr : r.Valid) (hh : r.here = ts) (hd : ts.length < depth) :
    Follows Clear r (Rule.expression level ts) (expression depth level r) := by
  obtain ⟨depth, rfl⟩ := exists_depth hd
  rw [Rule.expression]
  refine .bind (ho hr hh (by omega)) fun left ts₁ h₁ r₁ hr₁ ha₁ hc₁ => ?_
  have on := below ts₁ h₁
  exact .tail (on.extend level left hr₁ hc₁ ha₁ (by omega) (by omega)) fun _ _ _ => ⟨_, rfl⟩

theorem follows_extend_of_below (level : Precedence) (left : Expr) {depth k : Nat}
    (hr : r.Valid) (hc : r.Clear) (ha : r.ahead = ts) (hk : ts.length < k)
    (hd : ts.length < depth) : Follows Clear r (extend level left ts)
      (iterate (continues level) (extensionRound depth (expression depth)) k left r) := by
  obtain ⟨k, rfl⟩ := exists_depth hk
  by_cases hl : level < .of (kindAt ts)
  · cases ts with
    | nil => exact absurd hl (not_lt_lowest level)
    | cons t rest =>
      have hl : level < .of t.kind := hl
      have on := below.tail
      rw [extend, if_pos hl, iterate_of_true (continues_of_lt hr ha hl)]
      simp only [extensionRound, bind_assoc]
      cases hx : Extension.ofKind? t.kind with
      | none => exact absurd hl (not_lt_of_no_extension hx level)
      | some x =>
        cases x with
        | infixOp op =>
          refine .next hr ha fun r₁ hr₁ hh₁ => ?_
          rw [bind_congr_at (extension_of_infixOp hr₁ hh₁ hx)]
          simp only [bind_assoc, pure_bind]
          refine .next hr₁ (ahead_of_here hh₁) fun r₂ hr₂ hh₂ => ?_
          refine .bind (on.expression _ hr₂ hh₂ (by grind)) fun right ts₁ h₁ r₃ hr₃ ha₃ hc₃ => ?_
          have on₁ := below ts₁ (by grind)
          exact .tail (on₁.extend level _ hr₃ hc₃ ha₃ (by grind) (by grind)) fun _ _ _ => ⟨_, rfl⟩
        | call =>
          refine .next hr ha fun r₁ hr₁ hh₁ => ?_
          have hc₁ := clear_of_here hh₁ (by rw [kind_of_call hx]; decide)
          rw [bind_congr_at (extension_of_call hr₁ hh₁ hx)]
          simp only [call, bind_assoc, pure_bind]
          have ha₁ := ahead_of_here hh₁
          refine .bind (on.items _ (by decide) (by decide) hr₁ hc₁ ha₁ (by grind)) ?_
          intro arguments ts₁ h₁ r₂ hr₂ ha₂ hc₂
          have on₁ := below ts₁ (by grind)
          exact .tail (on₁.extend level _ hr₂ hc₂ ha₂ (by grind) (by grind)) fun _ _ _ => ⟨_, rfl⟩
        | index =>
          refine .next hr ha fun r₁ hr₁ hh₁ => ?_
          rw [bind_congr_at (extension_of_index hr₁ hh₁ hx)]
          simp only [indexed, bind_assoc, pure_bind]
          refine .next hr₁ (ahead_of_here hh₁) fun r₂ hr₂ hh₂ => ?_
          refine .bind (on.expression _ hr₂ hh₂ (by grind)) fun i ts₁ h₁ r₃ hr₃ ha₃ hc₃ => ?_
          refine .expect hr₃ hc₃ ha₃ (by decide) fun c ts₂ h₂ r₄ hk₄ hr₄ hh₄ => ?_
          have hc₄ := clear_of_here hh₄ (by rw [hk₄]; decide)
          have ha₄ := ahead_of_here hh₄
          have on₂ := below ts₂ (by grind)
          exact .tail (on₂.extend level _ hr₄ hc₄ ha₄ (by grind) (by grind)) fun _ _ _ => ⟨_, rfl⟩
  · have hg := continues_of_not hr level (by rw [ha]; exact hl)
    rw [iterate_of_false hg]
    cases ts with
    | nil =>
      rw [extend]
      exact .some hr.onward ha hc rfl
    | cons t rest =>
      have hl : ¬ level < .of t.kind := hl
      rw [extend, if_neg hl]
      exact .some hr.onward ha hc rfl

theorem follows_conditional_of_below (t : Token) {depth : Nat} (hr : r.Valid) (hc : r.Clear)
    (ha : r.ahead = ts) (hd : ts.length < depth) :
    Follows Clear r (Rule.conditional t ts) (conditional depth (expression depth) t r) := by
  rw [Rule.conditional]
  simp only [Reader.conditional, block, bind_assoc, pure_bind]
  refine .expect hr hc ha (by decide) fun o ts₁ h₁ r₁ hk₁ hr₁ hh₁ => ?_
  refine .next hr₁ (ahead_of_here hh₁) fun r₂ hr₂ hh₂ => ?_
  refine .bind ((below ts₁ h₁).expression _ hr₂ hh₂ (by grind)) ?_
  intro condition ts₂ h₂ r₃ hr₃ ha₃ hc₃
  refine .expect hr₃ hc₃ ha₃ (by decide) fun c ts₃ h₃ r₄ hk₄ hr₄ hh₄ => ?_
  have hc₄ := clear_of_here hh₄ (by rw [hk₄]; decide)
  refine .expect hr₄ hc₄ (ahead_of_here hh₄) (by decide) fun brace ts₄ h₄ r₅ hk₅ hr₅ hh₅ => ?_
  refine .cur hr₅ hh₅ (.next hr₅ (ahead_of_here hh₅) fun r₆ hr₆ hh₆ => ?_)
  refine .bind ((below ts₄ (by grind)).blockBody hr₆ hh₆ (by grind) (by grind)) ?_
  intro ss ts₅ h₅ r₇ hr₇ ha₇ hc₇
  dsimp only
  split
  · rename_i hw
    rw [bind_congr_at (alternative_of_else hr₇ (ha₇ ▸ hw))]
    simp only [block, bind_assoc, pure_bind]
    refine .expect hr₇ hc₇ ha₇ (by decide) fun w ts₆ h₆ r₈ hk₈ hr₈ hh₈ => ?_
    have hc₈ := clear_of_here hh₈ (by rw [hk₈]; decide)
    refine .expect hr₈ hc₈ (ahead_of_here hh₈) (by decide) ?_
    intro brace' ts₇ h₇ r₉ hk₉ hr₉ hh₉
    refine .cur hr₉ hh₉ (.next hr₉ (ahead_of_here hh₉) fun r₁₀ hr₁₀ hh₁₀ => ?_)
    refine .bind ((below ts₇ (by grind)).blockBody hr₁₀ hh₁₀ (by grind) (by grind)) ?_
    exact fun ss' ts₈ h₈ r₁₁ hr₁₁ ha₁₁ hc₁₁ => .pure hr₁₁ ha₁₁ hc₁₁
  · rename_i hw
    rw [bind_some (alternative_of_not hr₇ (ha₇ ▸ hw))]
    exact .pure hr₇ ha₇ hc₇

theorem follows_items_of_below (he : ∀ level, followed.expression level ts)
    (closing : Token.Kind) {depth : Nat} (hend : closing ≠ .endOfInput)
    (hsemi : closing ≠ .semicolon) (hr : r.Valid) (hc : r.Clear) (ha : r.ahead = ts)
    (hd : ts.length < depth) :
    Follows Clear r (Rule.items closing ts) (items depth (expression depth) closing r) := by
  rw [Rule.items, Reader.items]
  split
  · rename_i hk
    rw [bind_some (hr.peekIs_of_eq (ha ▸ hk))]
    exact follows_closed hr hc ha hk hend hsemi
  · rename_i hk
    rw [bind_some (hr.peekIs_of_ne (ha ▸ hk))]
    simp only [Bool.false_eq_true, if_false, collect_expectPeek]
    refine .next hr ha fun r₁ hr₁ hh₁ => ?_
    refine .bind (he .lowest hr₁ hh₁ hd) fun e ts₁ h₁ r₂ hr₂ ha₂ hc₂ => ?_
    have on := below ts₁ h₁
    refine .bind (on.moreItems closing hend hsemi hr₂ hc₂ ha₂ (by omega) (by omega)) ?_
    exact fun es ts₂ h₂ r₃ hr₃ ha₃ hc₃ => .pure hr₃ ha₃ hc₃

theorem follows_moreItems_of_below (closing : Token.Kind) {depth k : Nat}
    (hend : closing ≠ .endOfInput) (hsemi : closing ≠ .semicolon) (hr : r.Valid) (hc : r.Clear)
    (ha : r.ahead = ts) (hk : ts.length < k) (hd : ts.length < depth) :
    Follows Clear r (moreItems closing ts)
      (enclosed closing (peekIs .comma) (itemRound (expression depth)) k r) := by
  obtain ⟨k, rfl⟩ := exists_depth hk
  by_cases hm : kindAt ts = .comma
  · cases ts with
    | nil => cases hm
    | cons t rest =>
      have ht : t.kind = .comma := hm
      rw [moreItems, if_pos ht, enclosed_of_true (hr.peekIs_of_eq (ha ▸ hm))]
      simp only [itemRound, bind_assoc]
      refine .next hr ha fun r₁ hr₁ hh₁ => ?_
      refine .next hr₁ (ahead_of_here hh₁) fun r₂ hr₂ hh₂ => ?_
      refine .bind (below.tail.expression _ hr₂ hh₂ (by grind)) fun e ts₁ h₁ r₃ hr₃ ha₃ hc₃ => ?_
      have on := below ts₁ (by grind)
      refine .bind (on.moreItems closing hend hsemi hr₃ hc₃ ha₃ (by grind) (by grind)) ?_
      exact fun es ts₂ h₂ r₄ hr₄ ha₄ hc₄ => .pure hr₄ ha₄ hc₄
  · rw [enclosed_of_false (hr.peekIs_of_ne (ha ▸ hm))]
    cases ts with
    | nil =>
      rw [moreItems]
      exact follows_close hr hc ha hend hsemi
    | cons t rest =>
      have ht : t.kind ≠ .comma := hm
      rw [moreItems, if_neg ht]
      exact follows_close hr hc ha hend hsemi

theorem follows_pairs_of_below (he : ∀ level, followed.expression level ts) {depth k : Nat}
    (hr : r.Valid) (hc : r.Clear) (ha : r.ahead = ts) (hk : ts.length < k)
    (hd : ts.length < depth) : Follows Clear r (Rule.pairs ts)
      (enclosed .rightBrace insideHash (pairRound (expression depth)) k r) := by
  obtain ⟨k, rfl⟩ := exists_depth hk
  rw [Rule.pairs]
  split
  · rename_i h
    rw [enclosed_of_false (insideHash_of_eq hr (ha ▸ h))]
    exact follows_close hr hc ha (by decide) (by decide)
  · rename_i h
    rw [enclosed_of_true (insideHash_of_ne hr (ha ▸ h))]
    simp only [pairRound, bind_assoc, pure_bind]
    refine .next hr ha fun r₁ hr₁ hh₁ => ?_
    refine .bind (he .lowest hr₁ hh₁ hd) fun key ts₁ h₁ r₂ hr₂ ha₂ hc₂ => ?_
    refine .expect hr₂ hc₂ ha₂ (by decide) fun m ts₂ h₂ r₃ hk₃ hr₃ hh₃ => ?_
    refine .next hr₃ (ahead_of_here hh₃) fun r₄ hr₄ hh₄ => ?_
    refine .bind ((below ts₂ (by grind)).expression _ hr₄ hh₄ (by grind)) ?_
    intro value ts₃ h₃ r₅ hr₅ ha₅ hc₅
    dsimp only
    split
    · rename_i hclose
      obtain ⟨k, rfl⟩ : ∃ k', k = k' + 1 := exists_depth (m := ts₁.length) (by grind)
      rw [bind_some (separator_of_eq hr₅ (ha₅ ▸ hclose)),
        bind_congr_at (enclosed_of_false (insideHash_of_eq hr₅ (ha₅ ▸ hclose)))]
      simp only [bind_assoc, pure_bind]
      refine .expect hr₅ hc₅ ha₅ (by decide) fun c ts₄ h₄ r₆ hk₆ hr₆ hh₆ => ?_
      exact .pure hr₆ (ahead_of_here hh₆) (clear_of_here hh₆ (by rw [hk₆]; decide))
    · rename_i hclose
      rw [bind_congr_at (separator_of_ne hr₅ (ha₅ ▸ hclose))]
      refine .expect hr₅ hc₅ ha₅ (by decide) fun c ts₄ h₄ r₆ hk₆ hr₆ hh₆ => ?_
      have hc₆ := clear_of_here hh₆ (by rw [hk₆]; decide)
      have on := below ts₄ (by grind)
      refine .bind (on.pairs hr₆ hc₆ (ahead_of_here hh₆) (by grind) (by grind)) ?_
      exact fun entries ts₅ h₅ r₇ hr₇ ha₇ hc₇ => .pure hr₇ ha₇ hc₇

theorem follows_statement_of_below (hx : ∀ level, followed.expression level ts) {depth : Nat}
    (hr : r.Valid) (hh : r.here = ts) (hd : ts.length < depth) :
    Follows (fun _ => True) r (Rule.statement ts) (statement (expression depth) r) := by
  cases ts with
  | nil =>
    rw [Rule.statement]
    exact follows_statement_nil hr hh hd
  | cons t rest =>
    rw [Rule.statement, Reader.statement, bind_some (hr.cur_eq hh)]
    split
    · rename_i hk
      have hc := clear_of_here hh (by rw [hk]; decide)
      simp only [hk, letStatement]
      refine .cur hr hh ?_
      refine .expect hr hc (ahead_of_here hh) (by decide) fun name ts₁ h₁ r₁ hk₁ hr₁ hh₁ => ?_
      have hc₁ := clear_of_here hh₁ (by rw [hk₁]; decide)
      refine .cur hr₁ hh₁ ?_
      refine .expect hr₁ hc₁ (ahead_of_here hh₁) (by decide) fun q ts₂ h₂ r₂ hk₂ hr₂ hh₂ => ?_
      refine .next hr₂ (ahead_of_here hh₂) fun r₃ hr₃ hh₃ => ?_
      refine .bind ((below ts₂ (by grind)).expression _ hr₃ hh₃ (by grind)) ?_
      exact fun value ts₃ h₃ r₄ hr₄ ha₄ hc₄ => follows_semicolon hr₄ ha₄
    · rename_i hk
      simp only [hk, returnStatement]
      split
      · rename_i hn
        refine .cur hr hh ?_
        rw [bind_some (returned_of_end hr (ahead_of_here hh ▸ hn))]
        exact follows_semicolon hr (ahead_of_here hh)
      · rename_i hn
        refine .cur hr hh ?_
        rw [bind_congr_at (returned_of_not hr (ahead_of_here hh ▸ hn))]
        simp only [bind_assoc, pure_bind]
        refine .next hr (ahead_of_here hh) fun r₁ hr₁ hh₁ => ?_
        refine .bind (below.tail.expression _ hr₁ hh₁ (by grind)) ?_
        exact fun value ts₁ h₁ r₂ hr₂ ha₂ hc₂ => follows_semicolon hr₂ ha₂
    · simp only [expressionStatement]
      refine .cur hr hh ?_
      refine .bind (hx .lowest hr hh hd) fun e ts₁ h₁ r₁ hr₁ ha₁ hc₁ => ?_
      exact follows_semicolon hr₁ ha₁

theorem follows_blockBody_of_below (hs : followed.statement ts) {depth k : Nat} (hr : r.Valid)
    (hh : r.here = ts) (hk : ts.length < k) (hd : ts.length < depth) :
    Follows Clear r (blockBody ts)
      (collect insideBlock (blockRound (expression depth)) k r) := by
  obtain ⟨k, rfl⟩ := exists_depth hk
  cases ts with
  | nil =>
    have hg : insideBlock r = .ok (some false, r) := by
      rw [hr.insideBlock, hh]
      rfl
    rw [blockBody, collect_of_false hg]
    refine .some hr.onward (congrArg List.tail hh) ?_ rfl
    rw [Clear, hh]
    decide
  | cons t rest =>
    rw [blockBody]
    split
    · rename_i h
      have hg : insideBlock r = .ok (some false, r) := by
        rw [hr.insideBlock, hh, decide_eq_false]
        exact fun hn => h.elim hn.1 hn.2
      rw [collect_of_false hg]
      refine .some hr.onward (ahead_of_here hh) (clear_of_here hh ?_) rfl
      rcases h with h | h <;> rw [h] <;> decide
    · rename_i h
      have hg : insideBlock r = .ok (some true, r) := by
        rw [hr.insideBlock, hh, decide_eq_true]
        exact not_or.1 h
      rw [collect_of_true hg]
      simp only [blockRound, bind_assoc, pure_bind]
      refine .bind (hs hr hh hd) fun s ts₁ h₁ r₁ hr₁ ha₁ _ => ?_
      refine .next hr₁ ha₁ fun r₂ hr₂ hh₂ => ?_
      refine .bind ((below ts₁ h₁).blockBody hr₂ hh₂ (by grind) (by grind)) ?_
      exact fun ss ts₂ h₂ r₃ hr₃ ha₃ hc₃ => .pure hr₃ ha₃ hc₃

end

theorem hereditary_followed : followed.Hereditary where
  operand below := follows_operand_of_below below
  expression below ho level := follows_expression_of_below below ho level
  extend below level left := follows_extend_of_below below level left
  conditional below t := follows_conditional_of_below below t
  items below he closing := follows_items_of_below below he closing
  moreItems below closing := follows_moreItems_of_below below closing
  pairs below he := follows_pairs_of_below below he
  statement below hx := follows_statement_of_below below hx
  blockBody below hs := follows_blockBody_of_below below hs

/-- **The reader does what the rules do**, if the depth is more than the number of tokens. -/
theorem follows_rules (ts : List Token) : followed.On ts :=
  hereditary_followed.everywhere ts

end Reader

end Monkey
