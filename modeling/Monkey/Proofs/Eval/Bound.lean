import Monkey.Eval

/-!
  Monkey/Proofs/Eval/Bound.lean
  =============================
  **A larger bound changes nothing.**

  An evaluation that ends within a bound ends in the same way within every larger one
  (`eval_of_le`).  So one may speak of what a phrase gives, without a bound:
  `σ.Gives e p v σ'` says that from some bound on, `p` evaluated in the scope `e` of the
  store `σ` gives `v` and leaves the store `σ'`.  This is the case as soon as it does so
  within one bound (`Store.gives_iff`), and there is one such `v` and one such `σ'`
  (`Store.Gives.unique`).
-/
namespace Monkey

/-! ### Runs that go on where others end -/

namespace Run

/-- Where `x` ends, `y` ends in the same way. -/
def Below (x y : Run α) : Prop :=
  ∀ σ r, x σ = some r → y σ = some r

namespace Below

theorem refl (x : Run α) : Below x x :=
  fun _ _ h => h

theorem tooDeep (y : Run α) : Below Run.tooDeep y := by
  intro σ r h
  cases h

theorem bind {x y : Run α} {f g : α → Run β} (hx : Below x y) (hf : ∀ a, Below (f a) (g a)) :
    Below (x >>= f) (y >>= g) := by
  intro σ r h
  change (x σ).bind (fun p => f p.1 p.2) = some r at h
  obtain ⟨⟨a, σ₁⟩, ha, hb⟩ := Option.bind_eq_some_iff.1 h
  change (y σ).bind (fun p => g p.1 p.2) = some r
  rw [hx σ _ ha]
  exact hf a σ₁ r hb

theorem proceed {x y : Run Value} {u w : Value → Run Value} (hx : Below x y)
    (hu : ∀ v, Below (u v) (w v)) : Below (Monkey.proceed x u) (Monkey.proceed y w) := by
  refine hx.bind fun v => ?_
  by_cases h : v.isSignal = true
  · rw [if_pos h, if_pos h]
    exact refl _
  · rw [if_neg h, if_neg h]
    exact hu v

variable {f f' : Expr → Run Value} {g g' : Statement → Run Value}

theorem proceedAll (hf : ∀ e, Below (f e) (f' e)) (es : List Expr)
    {u w : List Value → Run Value} (hu : ∀ vs, Below (u vs) (w vs)) :
    Below (Monkey.proceedAll f es u) (Monkey.proceedAll f' es w) := by
  induction es generalizing u w with
  | nil => exact hu []
  | cons e es ih => exact (hf e).proceed fun v => ih fun vs => hu (v :: vs)

theorem runPairs (hf : ∀ e, Below (f e) (f' e)) (pairs : List (Expr × Expr))
    (entries : List Entry) :
    Below (Monkey.runPairs f pairs entries) (Monkey.runPairs f' pairs entries) := by
  induction pairs generalizing entries with
  | nil => exact refl _
  | cons p pairs ih =>
    obtain ⟨key, value⟩ := p
    refine (hf key).proceed fun k => ?_
    rcases k.hashKey? with _ | filed
    · exact refl _
    · exact (hf value).proceed fun v => ih _

theorem runStatements (hg : ∀ s, Below (g s) (g' s)) (last : Value) (ss : List Statement) :
    Below (Monkey.runStatements g last ss) (Monkey.runStatements g' last ss) := by
  induction ss generalizing last with
  | nil => exact refl _
  | cons s ss ih => exact (hg s).proceed fun v => ih v

end Below

end Run

section Steps

open Run

theorem below_callStep {phrase phrase' : Phrase → ScopeId → Run Value}
    (h : ∀ p e, Below (phrase p e) (phrase' p e)) (callee : Value) (arguments : List Value) :
    Below (callStep phrase callee arguments) (callStep phrase' callee arguments) := by
  unfold callStep
  split
  · rename_i literal scope
    by_cases hn : literal.parameters.length = arguments.length
    · rw [if_pos hn, if_pos hn]
      refine (Below.refl _).bind fun e => (Below.refl _).bind fun _ => ?_
      exact (h (.block literal.body) e).bind fun v => .refl _
    · rw [if_neg hn, if_neg hn]
      exact .refl _
  · exact .refl _
  · exact .refl _

variable {r r' : Evaluator Run} (hp : ∀ p e, Below (r.phrase p e) (r'.phrase p e))
  (hc : ∀ callee arguments, Below (r.call callee arguments) (r'.call callee arguments))

include hp hc in
theorem below_expression_step (e : ScopeId) (x : Expr) : Below (x.step r e) (x.step r' e) := by
  have he (y : Expr) : Below (r.phrase (.expression y) e) (r'.phrase (.expression y) e) :=
    hp (.expression y) e
  cases x with
  | identifier | integer | string | boolean | function => exact .refl _
  | array _ elements => exact .proceedAll he elements fun vs => .refl _
  | hash _ pairs => exact .runPairs he pairs []
  | prefixOp _ op right => exact (he right).proceed fun v => .refl _
  | infixOp _ left op right => exact (he left).proceed fun a => (he right).proceed fun b => .refl _
  | cond _ condition consequence alternative =>
    refine (he condition).proceed fun v => ?_
    by_cases ht : v.isTruthy = true
    · rw [if_pos ht, if_pos ht]
      exact hp (.block consequence) e
    · rw [if_neg ht, if_neg ht]
      rcases alternative with _ | b
      · exact .refl _
      · exact hp (.block b) e
  | call _ callee arguments =>
    exact (he callee).proceed fun f => .proceedAll he arguments fun vs => hc f vs
  | index _ left i => exact (he left).proceed fun a => (he i).proceed fun b => .refl _

include hp in
theorem below_statement_step (e : ScopeId) (s : Statement) : Below (s.step r e) (s.step r' e) := by
  cases s with
  | letBind _ name value => exact (hp (.expression value) e).proceed fun v => .refl _
  | returnValue _ value =>
    rcases value with _ | value
    · exact .refl _
    · exact (hp (.expression value) e).proceed fun v => .refl _
  | expression _ x => exact hp (.expression x) e
  | block b => exact hp (.block b) e

include hp hc in
theorem below_phrase_step (e : ScopeId) (p : Phrase) : Below (p.step r e) (p.step r' e) := by
  have hs (s : Statement) : Below (r.phrase (.statement s) e) (r'.phrase (.statement s) e) :=
    hp (.statement s) e
  cases p with
  | expression x => exact below_expression_step hp hc e x
  | statement s => exact below_statement_step hp e s
  | block b => exact .runStatements hs _ _
  | program p => exact (Below.runStatements hs _ _).bind fun v => .refl _

end Steps

theorem below_eval_succ (n : Nat) (p : Phrase) (e : ScopeId) :
    Run.Below (eval n p e) (eval (n + 1) p e) := by
  induction n generalizing p e with
  | zero => exact .tooDeep _
  | succ n ih => exact below_phrase_step ih (below_callStep ih) e p

/-- A larger bound changes nothing. -/
theorem eval_of_le {n m : Nat} {p : Phrase} {e : ScopeId} {σ : Store} {r : Value × Store}
    (h : n ≤ m) (he : eval n p e σ = some r) : eval m p e σ = some r := by
  induction h with
  | refl => exact he
  | step _ ih => exact below_eval_succ _ p e σ r ih

/-! ### Runs without a bound -/

/-- From some bound on, the run that starts from `σ` ends with `a` and leaves `σ'`. -/
def Run.Ends (x : Nat → Run α) (σ : Store) (a : α) (σ' : Store) : Prop :=
  ∃ n, ∀ m, n ≤ m → x m σ = some (a, σ')

/-- From some bound on, evaluating a phrase in a scope of the store `σ` gives `v` and
    leaves the store `σ'`. -/
def Store.Gives (σ : Store) (e : ScopeId) (p : Phrase) (v : Value) (σ' : Store) : Prop :=
  Run.Ends (fun n => eval n p e) σ v σ'

/-- One bound within which the evaluation ends is enough. -/
theorem Store.gives_iff {σ σ' : Store} {e : ScopeId} {p : Phrase} {v : Value} :
    σ.Gives e p v σ' ↔ ∃ n, eval n p e σ = some (v, σ') := by
  constructor
  · rintro ⟨n, h⟩
    exact ⟨n, h n (Nat.le_refl n)⟩
  · rintro ⟨n, h⟩
    exact ⟨n, fun m hm => eval_of_le hm h⟩

namespace Run.Ends

variable {σ σ₁ σ' : Store}

theorem unique {x : Nat → Run α} {a b : α} (h : Ends x σ a σ₁) (h' : Ends x σ b σ') :
    a = b ∧ σ₁ = σ' := by
  obtain ⟨n, hn⟩ := h
  obtain ⟨m, hm⟩ := h'
  have he := (hn (max n m) (Nat.le_max_left n m)).symm.trans (hm (max n m) (Nat.le_max_right n m))
  exact Prod.mk.inj (Option.some.inj he)

theorem pure (a : α) : Ends (fun _ => Pure.pure a) σ a σ :=
  ⟨0, fun _ _ => rfl⟩

theorem bind {x : Nat → Run α} {f : Nat → α → Run β} {a : α} {b : β} (hx : Ends x σ a σ₁)
    (hf : Ends (fun n => f n a) σ₁ b σ') : Ends (fun n => x n >>= f n) σ b σ' := by
  obtain ⟨n, hn⟩ := hx
  obtain ⟨m, hm⟩ := hf
  refine ⟨max n m, fun k hk => ?_⟩
  change (x k σ).bind (fun p => f k p.1 p.2) = some (b, σ')
  rw [hn k (Nat.le_trans (Nat.le_max_left n m) hk)]
  exact hm k (Nat.le_trans (Nat.le_max_right n m) hk)

/-- A value that is no signal is used. -/
theorem proceed {x : Nat → Run Value} {use : Nat → Value → Run Value} {v w : Value}
    (hx : Ends x σ v σ₁) (hv : v.isSignal = false) (hu : Ends (fun n => use n v) σ₁ w σ') :
    Ends (fun n => Monkey.proceed (x n) (use n)) σ w σ' := by
  refine hx.bind ?_
  simp only [hv, Bool.false_eq_true, if_false]
  exact hu

/-- What a phrase does is one evaluation more than what it asks for. -/
theorem gives {e : ScopeId} {p : Phrase} {v : Value}
    (h : Ends (fun n => p.step { phrase := eval n, call := callStep (eval n) } e) σ v σ') :
    σ.Gives e p v σ' := by
  obtain ⟨n, hn⟩ := h
  refine ⟨n + 1, fun m hm => ?_⟩
  obtain ⟨k, rfl⟩ := Nat.exists_eq_add_of_le' hm
  exact hn (k + n) (Nat.le_add_left n k)

end Run.Ends

/-- A phrase gives one value and leaves one store. -/
theorem Store.Gives.unique {σ σ₁ σ₂ : Store} {e : ScopeId} {p : Phrase} {v w : Value}
    (h : σ.Gives e p v σ₁) (h' : σ.Gives e p w σ₂) : v = w ∧ σ₁ = σ₂ :=
  Run.Ends.unique h h'

end Monkey
