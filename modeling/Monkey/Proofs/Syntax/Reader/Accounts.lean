import Monkey.Proofs.Syntax.Reader.Program

/-!
  Monkey/Proofs/Syntax/Reader/Accounts.lean
  =========================================
  **One report for each failure.**

  That a rule has failed is all that it says by having no result; what is wrong stands in
  the report.  So a rule without a result has added one report, and a rule with a result
  none (`Accounts`).  This holds from wherever the reader stands, and of whatever it
  holds, because of what the rules are put together from.

  Going to the next statement reports nothing (`Quiet`).  So a program has as many
  reports as rounds that failed (`reports_rounds`).
-/
namespace Monkey.Reader

open Rule

variable {r r' : Reader}

/-- With a result nothing has been reported, and without one, one report has been added. -/
structure Accounts (α : Type) (x : Act α) : Prop where
  some : ∀ r a r', x r = .ok (some a, r') → r'.reports = r.reports
  none : ∀ r r', x r = .ok (none, r') → ∃ p, r'.reports = r.reports ++ [p]

theorem accounts_of_eq {x : Act α} (h : ∀ r o r', x r = .ok (o, r') → r' = r ∧ o ≠ none) :
    Accounts α x where
  some r a r' he := by rw [(h r _ r' he).1]
  none r r' he := absurd rfl (h r _ r' he).2

theorem eq_of_tokenAt {i : Nat} {o : Option Token} (h : tokenAt i r = .ok (o, r')) :
    r' = r ∧ o ≠ none := by
  unfold tokenAt at h
  split at h
  · cases h
    exact ⟨rfl, nofun⟩
  · cases h

theorem closed_accounts : Closed Accounts where
  pure a := accounts_of_eq fun r o r' h => by
    cases h
    exact ⟨rfl, nofun⟩
  bind {α β x f} hx hf := by
    constructor
    · intro r b r' he
      obtain ⟨a, r₁, ha, hb⟩ := of_bind_some he
      exact ((hf a).some r₁ b r' hb).trans (hx.some r a r₁ ha)
    · intro r r' he
      rcases h : x r with halt | ⟨a | a, r₁⟩
      · rw [bind_error h] at he
        cases he
      · rw [bind_none h] at he
        cases he
        exact hx.none r r' h
      · rw [bind_some h] at he
        obtain ⟨p, hp⟩ := (hf a).none r₁ r' he
        exact ⟨p, by rw [hp, hx.some r a r₁ h]⟩
  tooDeep := ⟨fun _ _ _ => nofun, fun _ _ => nofun⟩
  cur := accounts_of_eq fun _ _ _ h => eq_of_tokenAt h
  peek := accounts_of_eq fun _ _ _ h => eq_of_tokenAt h
  nextToken := by
    constructor
    · rintro r _ _ ⟨⟩
      rfl
    · rintro r _ ⟨⟩
  fail position t message := by
    constructor
    · rintro r _ _ ⟨⟩
    · rintro r _ ⟨⟩
      exact ⟨_, rfl⟩

/-! ### What reports nothing -/

/-- Nothing is reported, and there is a result. -/
def Quiet (x : Act α) : Prop :=
  ∀ r o r', x r = .ok (o, r') → o ≠ none ∧ r'.reports = r.reports

namespace Quiet

theorem bind {x : Act α} {f : α → Act β} (hx : Quiet x) (hf : ∀ a, Quiet (f a)) :
    Quiet (x >>= f) := by
  intro r o r' he
  rcases h : x r with halt | ⟨a | a, r₁⟩
  · rw [bind_error h] at he
    cases he
  · exact absurd rfl (hx r _ r₁ h).1
  · rw [bind_some h] at he
    obtain ⟨hne, hr⟩ := hf a r₁ o r' he
    exact ⟨hne, hr.trans (hx r _ r₁ h).2⟩

theorem pure (a : α) : Quiet (Pure.pure a : Act α) := by
  rintro r _ _ ⟨⟩
  exact ⟨nofun, rfl⟩

theorem nextToken : Quiet nextToken := by
  rintro r _ _ ⟨⟩
  exact ⟨nofun, rfl⟩

theorem cur : Quiet cur := by
  intro r o r' h
  obtain ⟨rfl, hne⟩ := eq_of_tokenAt h
  exact ⟨hne, rfl⟩

theorem previous : Quiet previous := by
  intro r o r' h
  unfold Reader.previous at h
  split at h
  · cases h
  · obtain ⟨rfl, hne⟩ := eq_of_tokenAt h
    exact ⟨hne, rfl⟩

theorem branches {c : Prop} [Decidable c] {x y : Act α} (hx : Quiet x) (hy : Quiet y) :
    Quiet (if c then x else y) := by
  split
  · exact hx
  · exact hy

theorem unsynchronized : Quiet unsynchronized := by
  refine .bind (.bind .cur fun _ => .pure _) fun _ => .branches (.pure _) ?_
  refine .bind .previous fun _ => .branches (.pure _) ?_
  exact .bind .cur fun _ => .pure _

theorem iterate {guard : Act Bool} {round : α → Act α} (hg : Quiet guard)
    (hr : ∀ a, Quiet (round a)) (depth : Nat) (a : α) : Quiet (iterate guard round depth a) := by
  induction depth generalizing a with
  | zero => rintro r _ _ ⟨⟩
  | succ depth ih =>
    refine .bind hg fun _ => .branches ?_ (.pure _)
    exact .bind (hr a) fun b => ih b

theorem synchronize (depth : Nat) : Quiet (synchronize depth) :=
  .bind .nextToken fun _ => .iterate .unsynchronized (fun _ => .nextToken) depth ()

end Quiet

/-! ### Rounds -/

/-- A round has one report if it has no statement, and none if it has one. -/
theorem reports_round {depth : Nat} {outcome : Option Statement}
    (h : round depth r = .ok (some outcome, r')) :
    r'.reports.length = r.reports.length + if outcome.isNone then 1 else 0 := by
  have hs := (closed_accounts.rules depth).statement
  obtain ⟨o, r₁, ho, h⟩ := of_bind_some h
  rcases hx : statement (expression depth) r with halt | ⟨o', r₂⟩
  · rw [attempt_of_error hx] at ho
    cases ho
  rw [attempt_of_ok hx] at ho
  cases ho
  cases o with
  | some s =>
    cases h
    exact congrArg List.length (hs.some r s r₁ hx)
  | none =>
    obtain ⟨_, r₂, hsync, h⟩ := of_bind_some h
    cases h
    obtain ⟨p, hp⟩ := hs.none r r₁ hx
    rw [(Quiet.synchronize depth r₁ _ r' hsync).2, hp, List.length_append]
    rfl

theorem reports_rounds {depth k : Nat} {outcomes : List (Option Statement)}
    (h : collect unfinished (round depth) k r = .ok (some outcomes, r')) :
    r'.reports.length = r.reports.length + outcomes.countP Option.isNone := by
  induction k generalizing r outcomes with
  | zero => cases h
  | succ k ih =>
    obtain ⟨b, r₁, hb, h⟩ := of_bind_some h
    have hg : Quiet unfinished := .bind .cur fun _ => .pure _
    rw [← (hg r _ r₁ hb).2]
    cases b with
    | false =>
      cases h
      rfl
    | true =>
      obtain ⟨o, r₂, ho, h⟩ := of_bind_some h
      obtain ⟨os, r₃, hos, h⟩ := of_bind_some h
      cases h
      rw [ih hos, reports_round ho, List.countP_cons]
      omega

/-! ### What is said -/

/-- Texts that start differently are different. -/
theorem append_ne_append {a b x y : String} (n : Nat) (ha : n ≤ a.toList.length)
    (hb : n ≤ b.toList.length) (h : a.toList.take n ≠ b.toList.take n) : a ++ x ≠ b ++ y := by
  intro he
  have ht := congrArg (fun s : String => s.toList.take n) he
  simp only [String.toList_append, List.take_append_of_le_length ha,
    List.take_append_of_le_length hb] at ht
  exact h ht

/-- The three documented forms of a report. -/
theorem message_forms (p : Problem) :
    (∃ wanted found : Token.Kind, p.message =
      "expected next token to be " ++ wanted.name ++ ", got " ++ found.name ++ " instead") ∨
    (∃ found : Token.Kind, p.message =
      "no prefix parse function for " ++ found.name ++ " found") ∨
    ∃ literal : String, p.message = "could not parse \"" ++ literal ++ "\" as integer" := by
  cases p with
  | unexpected wanted found => exact .inl ⟨wanted, found, rfl⟩
  | noOperand found => exact .inr (.inl ⟨found, rfl⟩)
  | notAnInteger literal => exact .inr (.inr ⟨literal, rfl⟩)

/-- A problem is not worded like a token that extends no expression. -/
theorem message_ne_noExtension (p : Problem) (k : Token.Kind) : p.message ≠ noExtension k := by
  have hk : noExtension k = "no infix parse function for " ++ (k.name ++ " found") :=
    String.append_assoc
  -- the texts differ among their first four characters
  intro he
  rcases message_forms p with ⟨_, _, h⟩ | ⟨_, h⟩ | ⟨_, h⟩
  all_goals
    rw [h, hk] at he
    simp only [String.append_assoc] at he
    refine append_ne_append 4 ?_ ?_ ?_ he
    all_goals decide +kernel

/-- A token that the reader goes to in order to extend an expression does extend it. -/
theorem exists_extension {level : Precedence} (hr : r.Valid)
    (h : continues level r = .ok (some true, r)) :
    ∃ t x, cur r.next = .ok (some t, r.next) ∧ Extension.ofKind? t.kind = some x := by
  rw [hr.continues] at h
  obtain ⟨-, hlt⟩ := of_decide_eq_true (eq_true_of_guard h)
  obtain ⟨t, ht, -, hk, -⟩ := hr.next.valid.cur
  rw [hr.here_next] at hk
  cases hx : Extension.ofKind? t.kind with
  | some x => exact ⟨t, x, ht, hx⟩
  | none =>
    rw [← hk] at hlt
    exact absurd hlt (not_lt_of_no_extension hx level)

/-- **One report for each statement that is dropped.**  Any rule, from wherever the reader
    stands, has added one report if it has no result, and none if it has one.

    So a program, which is always read to its end, has as many reports as rounds that
    failed.  Each report has one of three forms.  None is about a token that extends no
    expression: the reader goes to no such token in order to extend one. -/
theorem program_accounts (ts : List Token) (n : Nat) :
    (∀ depth, EveryRule Accounts depth (expression depth)) ∧
    (∃ outcomes r, rounds (ts.length + 1 + n) (ofTokens ts) = .ok (some outcomes, r) ∧
      (Program.read ts).program = { statements := outcomes.filterMap id } ∧
      r.reports.length = outcomes.countP Option.isNone ∧
      (∀ p ∈ r.reports,
        (∃ wanted found : Token.Kind, p.message =
          "expected next token to be " ++ wanted.name ++ ", got " ++ found.name ++ " instead") ∨
        (∃ found : Token.Kind, p.message =
          "no prefix parse function for " ++ found.name ++ " found") ∨
        ∃ literal : String, p.message = "could not parse \"" ++ literal ++ "\" as integer") ∧
      ∀ p ∈ r.reports, ∀ k, p.message ≠ noExtension k) ∧
    ∀ r level, r.Valid → continues level r = .ok (some true, r) →
      ∃ t x, cur r.next = .ok (some t, r.next) ∧ Extension.ofKind? t.kind = some x := by
  refine ⟨closed_accounts.rules, ?_, fun r level hr h => exists_extension hr h⟩
  have hd : ts.length < ts.length + 1 + n := by omega
  obtain ⟨r, he, -, hr⟩ := exists_program ts hd
  have hp : ∀ p ∈ r.reports, ∃ problem : Problem, p.message = problem.message := by
    intro p hp
    rw [hr] at hp
    obtain ⟨f, -, rfl⟩ := List.mem_map.1 hp
    exact ⟨f.problem, rfl⟩
  refine ⟨_, r, he, ?_, ?_, fun p hmem => ?_, fun p hmem k => ?_⟩
  · rw [Program.read, List.filterMap_map]
    rfl
  · exact (reports_rounds he).trans (Nat.zero_add _)
  · obtain ⟨problem, hm⟩ := hp p hmem
    rw [hm]
    exact message_forms problem
  · obtain ⟨problem, hm⟩ := hp p hmem
    rw [hm]
    exact message_ne_noExtension problem k

end Monkey.Reader
