import Monkey.Proofs.Eval.Record

/-!
  Monkey/Proofs/Eval/Signal.lean
  ==============================
  **Errors and returns are never lost, caught or overtaken.**

  The law of one evaluation is `HandsOn`: a part whose value is a signal is the
  last part, and its value and the store behind it are those of the whole, but for
  one `return` that calls and programs take off.  The steps of evaluation obey it
  at every place where a value is used (`follows_phrase_step`), so it holds at
  every node of the record of a run (`follows_record`).

  From there a signal is followed upwards through the tree, by induction on how
  deep it lies: an error up to the root (`Evaluation.Honest.error_travels`), a
  `return` up to the innermost call or program around it
  (`Evaluation.Honest.return_travels`).
-/
namespace Monkey

open Recorded

/-! ### The law of one evaluation -/

/-- None of the evaluations gave a signal. -/
def Quiet (ts : List Evaluation) : Prop :=
  ∀ t ∈ ts, t.value.isSignal = false

/-- At most the last part gave a signal, and the last part did so only if the whole
    ended at once, with `finish` of its value. -/
def HandsOn (finish : Value → Value) (parts : List Evaluation) (v : Value) (σ : Store) : Prop :=
  Quiet parts ∨ ∃ others c, parts = others ++ [c] ∧ Quiet others ∧ v = finish c.value ∧ σ = c.after

/-- The law at every node of a tree, where moreover every node is an evaluation of
    its task. -/
inductive Evaluation.Honest : Evaluation → Prop where
  | mk {t : Evaluation} (parts : ∀ c ∈ t.parts, Honest c)
      (genuine : ∃ n, t.task.run n t.before = some (t.value, t.after))
      (hands : HandsOn t.task.finish t.parts t.value t.after) : Honest t

/-- What a run records: parts that obey the law, and are handed on. -/
def Lawful (finish : Value → Value) (parts : List Evaluation) (v : Value) (σ : Store) : Prop :=
  HandsOn finish parts v σ ∧ ∀ t ∈ parts, t.Honest

theorem Lawful.nil {finish : Value → Value} {v : Value} {σ : Store} : Lawful finish [] v σ :=
  ⟨.inl (by intro t ht; cases ht), by intro t ht; cases ht⟩

/-- A value that is used came from parts without a signal. -/
theorem HandsOn.quiet {parts : List Evaluation} {v : Value} {σ : Store}
    (h : HandsOn id parts v σ) (hv : v.isSignal = false) : Quiet parts := by
  rcases h with h | ⟨others, c, rfl, ho, rfl, _⟩
  · exact h
  · intro t ht
    rcases List.mem_append.1 ht with ht | ht
    · exact ho t ht
    · rw [List.mem_singleton.1 ht]
      exact hv

theorem Quiet.append_handsOn {finish : Value → Value} {ts parts : List Evaluation} {v : Value}
    {σ : Store} (hq : Quiet ts) (h : HandsOn finish parts v σ) :
    HandsOn finish (ts ++ parts) v σ := by
  have happ : ∀ us, Quiet us → Quiet (ts ++ us) := by
    intro us hu t ht
    rcases List.mem_append.1 ht with ht | ht
    · exact hq t ht
    · exact hu t ht
  rcases h with h | ⟨others, c, rfl, ho, hv, hσ⟩
  · exact .inl (happ parts h)
  · exact .inr ⟨ts ++ others, c, by rw [List.append_assoc], happ others ho, hv, hσ⟩

theorem Lawful.append {ts parts : List Evaluation} {v w : Value} {σ σ' : Store}
    (h : Lawful id ts v σ) (hv : v.isSignal = false) (h' : Lawful id parts w σ') :
    Lawful id (ts ++ parts) w σ' := by
  refine ⟨(h.1.quiet hv).append_handsOn h'.1, fun t ht => ?_⟩
  rcases List.mem_append.1 ht with ht | ht
  · exact h.2 t ht
  · exact h'.2 t ht

/-! ### The steps obey the law -/

section Steps

variable {σ : Store}

theorem follows_proceed {x : Recorded Value} {y : Run Value} {use : Value → Recorded Value}
    {use' : Value → Run Value} (hx : x.Follows σ y (Lawful id))
    (hu : ∀ v σ', (use v).Follows σ' (use' v) (Lawful id)) :
    Follows σ (proceed x use) (proceed y use') (Lawful id) := by
  refine .bind hx fun new v σ' hl => ?_
  by_cases hv : v.isSignal = true
  · rw [if_pos hv, if_pos hv]
    exact .pure (by rwa [List.append_nil])
  · rw [if_neg hv, if_neg hv]
    refine (hu v σ').mono fun more w σ'' hl' => ?_
    exact hl.append (by simpa using hv) hl'

theorem follows_unwrapReturn {x : Recorded Value} {y : Run Value}
    (hx : x.Follows σ y (Lawful id)) :
    Follows σ (x >>= fun v => pure v.unwrapReturn) (y >>= fun v => pure v.unwrapReturn)
      (Lawful Value.unwrapReturn) := by
  refine .bind hx fun new v σ' hl => .pure ?_
  rw [List.append_nil]
  refine ⟨?_, hl.2⟩
  rcases hl.1 with h | ⟨others, c, hn, ho, rfl, hσ⟩
  · exact .inl h
  · exact .inr ⟨others, c, hn, ho, rfl, hσ⟩

theorem follows_runIdentifier (name : String) (e : ScopeId) :
    Follows σ (runIdentifier name e) (runIdentifier name e) (Lawful id) := by
  refine .bind_lift _ fun o σ' => ?_
  rcases o with _ | v
  · rcases Builtin.ofName? name with _ | b <;> exact .pure .nil
  · exact .pure .nil

theorem follows_bindParameters (e : ScopeId) (ids : List Identifier) (vs : List Value) :
    Follows σ (bindParameters e ids vs) (bindParameters e ids vs) fun new _ _ => new = [] := by
  induction ids generalizing vs σ with
  | nil => exact .pure rfl
  | cons id ids ih =>
    cases vs with
    | nil => exact .pure rfl
    | cons v vs => exact .bind_lift _ fun _ σ' => ih vs

variable {f : Expr → Recorded Value} {f' : Expr → Run Value} {g : Statement → Recorded Value}
  {g' : Statement → Run Value}

theorem follows_proceedAll (hf : ∀ σ e, (f e).Follows σ (f' e) (Lawful id)) {es : List Expr}
    {use : List Value → Recorded Value} {use' : List Value → Run Value}
    (hu : ∀ σ vs, (use vs).Follows σ (use' vs) (Lawful id)) :
    Follows σ (proceedAll f es use) (proceedAll f' es use') (Lawful id) := by
  induction es generalizing use use' σ with
  | nil => exact hu σ []
  | cons e es ih =>
    refine follows_proceed (hf σ e) fun v σ' => ih fun σ'' vs => ?_
    exact hu σ'' (v :: vs)

theorem follows_runPairs (hf : ∀ σ e, (f e).Follows σ (f' e) (Lawful id))
    (pairs : List (Expr × Expr)) (entries : List Entry) :
    Follows σ (runPairs f pairs entries) (runPairs f' pairs entries) (Lawful id) := by
  induction pairs generalizing entries σ with
  | nil => exact .pure .nil
  | cons p pairs ih =>
    obtain ⟨key, value⟩ := p
    refine follows_proceed (hf σ key) fun k σ' => ?_
    rcases k.hashKey? with _ | filed
    · exact .pure .nil
    · exact follows_proceed (hf σ' value) fun v σ'' => ih _

theorem follows_runStatements (hg : ∀ σ s, (g s).Follows σ (g' s) (Lawful id)) (last : Value)
    (ss : List Statement) :
    Follows σ (runStatements g last ss) (runStatements g' last ss) (Lawful id) := by
  induction ss generalizing last σ with
  | nil => exact .pure .nil
  | cons s ss ih => exact follows_proceed (hg σ s) fun v σ' => ih v

/-- The body of a function is the one part of a call. -/
theorem follows_callStep {p : Phrase → ScopeId → Recorded Value} {p' : Phrase → ScopeId → Run Value}
    (h : ∀ σ q scope, (p q scope).Follows σ (p' q scope) (Lawful id)) (callee : Value)
    (arguments : List Value) :
    Follows σ (callStep p callee arguments) (callStep p' callee arguments)
      (Lawful Value.unwrapReturn) := by
  unfold callStep
  split
  · rename_i literal scope
    by_cases hn : literal.parameters.length = arguments.length
    · rw [if_pos hn, if_pos hn]
      refine .bind_lift _ fun e σ₁ => ?_
      refine .bind (follows_bindParameters e literal.parameters arguments) fun new _ σ₂ hn => ?_
      rw [hn]
      exact follows_unwrapReturn (h σ₂ (.block literal.body) e)
    · rw [if_neg hn, if_neg hn]
      exact .pure .nil
  · exact .bind_lift _ fun _ _ => .pure .nil
  · exact .pure .nil

variable {r : Evaluator Recorded} {r' : Evaluator Run}
  (hp : ∀ σ p scope, (r.phrase p scope).Follows σ (r'.phrase p scope) (Lawful id))
  (hc : ∀ σ callee arguments,
    (r.call callee arguments).Follows σ (r'.call callee arguments) (Lawful id))

include hp hc in
theorem follows_expression_step (e : Expr) (scope : ScopeId) :
    Follows σ (e.step r scope) (e.step r' scope) (Lawful id) := by
  have he : ∀ σ e, (r.phrase (.expression e) scope).Follows σ (r'.phrase (.expression e) scope)
      (Lawful id) := fun σ e => hp σ (.expression e) scope
  have hb : ∀ σ b, (r.phrase (.block b) scope).Follows σ (r'.phrase (.block b) scope)
      (Lawful id) := fun σ b => hp σ (.block b) scope
  cases e with
  | identifier id => exact follows_runIdentifier id.name scope
  | integer _ value => exact .pure .nil
  | string _ value => exact .pure .nil
  | boolean _ value => exact .pure .nil
  | array _ elements => exact follows_proceedAll he fun σ' vs => .pure .nil
  | hash _ pairs => exact follows_runPairs he pairs []
  | prefixOp _ op right => exact follows_proceed (he σ right) fun v σ' => .pure .nil
  | infixOp _ left op right =>
    refine follows_proceed (he σ left) fun a σ' => ?_
    exact follows_proceed (he σ' right) fun b σ'' => .pure .nil
  | cond _ condition consequence alternative =>
    refine follows_proceed (he σ condition) fun v σ' => ?_
    by_cases ht : v.isTruthy = true
    · rw [if_pos ht, if_pos ht]
      exact hb σ' consequence
    · rw [if_neg ht, if_neg ht]
      rcases alternative with _ | b
      · exact .pure .nil
      · exact hb σ' b
  | function literal => exact .pure .nil
  | call _ callee arguments =>
    refine follows_proceed (he σ callee) fun f σ' => ?_
    exact follows_proceedAll he fun σ'' vs => hc σ'' f vs
  | index _ left i =>
    refine follows_proceed (he σ left) fun a σ' => ?_
    exact follows_proceed (he σ' i) fun b σ'' => .pure .nil

include hp in
theorem follows_statement_step (s : Statement) (scope : ScopeId) :
    Follows σ (s.step r scope) (s.step r' scope) (Lawful id) := by
  cases s with
  | letBind _ name value =>
    refine follows_proceed (hp σ (.expression value) scope) fun v σ' => ?_
    exact .bind_lift _ fun _ _ => .pure .nil
  | returnValue _ value =>
    rcases value with _ | value
    · exact .pure .nil
    · exact follows_proceed (hp σ (.expression value) scope) fun v σ' => .pure .nil
  | expression _ e => exact hp σ (.expression e) scope
  | block b => exact hp σ (.block b) scope

include hp hc in
theorem follows_phrase_step (p : Phrase) (scope : ScopeId) :
    Follows σ (p.step r scope) (p.step r' scope) (Lawful (Task.phrase p scope).finish) := by
  cases p with
  | expression e => exact follows_expression_step hp hc e scope
  | statement s => exact follows_statement_step hp s scope
  | block b => exact follows_runStatements (fun σ s => hp σ (.statement s) scope) _ _
  | program p =>
    refine follows_unwrapReturn ?_
    exact follows_runStatements (fun σ s => hp σ (.statement s) scope) _ _

/-- What an observed task records is one honest tree. -/
theorem follows_observe (task : Task) (n : Nat) {x : Recorded Value}
    (hx : x.Follows σ (task.run n) (Lawful task.finish)) :
    Follows σ (observe task x) (task.run n) fun new v σ' => ∃ t, new = [t] ∧ t.value = v ∧
      t.after = σ' ∧ t.Honest := by
  refine (Follows.observe hx).mono fun new v σ' h => ?_
  obtain ⟨parts, hy, hl, rfl⟩ := h
  exact ⟨.mk task σ parts v σ', rfl, rfl, rfl, .mk hl.2 ⟨n, hy⟩ hl.1⟩

theorem lawful_singleton {new : List Evaluation} {v : Value} {σ' : Store}
    (h : ∃ t, new = [t] ∧ t.value = v ∧ t.after = σ' ∧ t.Honest) : Lawful id new v σ' := by
  obtain ⟨t, rfl, rfl, rfl, ht⟩ := h
  refine ⟨.inr ⟨[], t, rfl, (by intro c hc; cases hc), rfl, rfl⟩, fun c hc => ?_⟩
  rw [List.mem_singleton.1 hc]
  exact ht

end Steps

/-- A record is one honest tree, whose value and last store are those of the
    evaluation. -/
theorem follows_record (n : Nat) (p : Phrase) (scope : ScopeId) (σ : Store) :
    Follows σ (record n p scope) (eval n p scope) fun new v σ' => ∃ t, new = [t] ∧ t.value = v ∧
      t.after = σ' ∧ t.Honest := by
  induction n generalizing p scope σ with
  | zero => exact fun ts => .inl ⟨rfl, rfl⟩
  | succ n ih =>
    have hp : ∀ σ p scope, (record n p scope).Follows σ (eval n p scope) (Lawful id) :=
      fun σ p scope => (ih p scope σ).mono fun _ _ _ => lawful_singleton
    refine follows_observe (.phrase p scope) (n + 1) ?_
    refine follows_phrase_step hp (fun σ callee arguments => ?_) p scope
    refine .mono (follows_observe (.call callee arguments) n ?_) fun _ _ _ => lawful_singleton
    exact follows_callStep hp callee arguments

/-! ### Signals on their way up -/

namespace Evaluation

variable {s t : Evaluation}

theorem Honest.within (ht : t.Honest) (h : s.Within t) : s.Honest := by
  induction h with
  | here => exact ht
  | part hc _ ih =>
    obtain ⟨hparts, _, _⟩ := ht
    exact ih (hparts _ hc)

/-- A part that gave a signal is the last one, and the whole gave what its task
    makes of it. -/
theorem Honest.last_of_isSignal {c : Evaluation} (ht : t.Honest) (hc : c ∈ t.parts)
    (hs : c.value.isSignal = true) :
    ∃ others, t.parts = others ++ [c] ∧ t.value = t.task.finish c.value ∧ t.after = c.after := by
  obtain ⟨_, _, hq | ⟨others, d, hparts, ho, hv, hσ⟩⟩ := ht
  · rw [hq c hc] at hs
    cases hs
  · rw [hparts] at hc
    rcases List.mem_append.1 hc with hc | hc
    · rw [ho c hc] at hs
      cases hs
    · obtain rfl := List.mem_singleton.1 hc
      exact ⟨others, hparts, hv, hσ⟩

theorem finish_error (task : Task) (m : String) : task.finish (.error m) = .error m := by
  unfold Task.finish
  split <;> rfl

/-- An error anywhere in a tree is the value of the whole, and nothing comes after
    it. -/
theorem Honest.error_travels (ht : t.Honest) (h : s.Within t) {m : String}
    (hs : s.value = .error m) :
    t.value = .error m ∧ t.after = s.after ∧ s.Closes (fun _ => True) t := by
  induction h with
  | here => exact ⟨hs, rfl, .here⟩
  | @part c t hc hw ih =>
    obtain ⟨hcv, hca, hcc⟩ := ih (ht.within (.part hc .here))
    obtain ⟨others, hparts, hv, hσ⟩ := ht.last_of_isSignal hc (by rw [hcv]; rfl)
    refine ⟨?_, hσ.trans hca, .last trivial hparts hcc⟩
    rw [hv, hcv, finish_error]

/-- A `return` anywhere in a tree ends the innermost call or program around it with
    the value it carries, and nothing is evaluated in between; where there is none
    around it, the `return` is the value of the whole. -/
theorem Honest.return_travels (ht : t.Honest) (h : s.Within t) {w : Value}
    (hs : s.value = .returned w) :
    (∃ b : Evaluation, b.Within t ∧ s.ReturnsFrom b ∧ b.value = w ∧ b.after = s.after) ∨
    (t.value = .returned w ∧ t.after = s.after ∧
      s.Closes (fun task => task.takesReturn = false) t) := by
  induction h with
  | here => exact .inr ⟨hs, rfl, .here⟩
  | @part c t hc hw ih =>
    rcases ih (ht.within (.part hc .here)) with ⟨b, hb, hr, hv, hσ⟩ | ⟨hcv, hca, hcc⟩
    · exact .inl ⟨b, .part hc hb, hr, hv, hσ⟩
    · obtain ⟨others, hparts, hv, hσ⟩ := ht.last_of_isSignal hc (by rw [hcv]; rfl)
      rw [hcv] at hv
      by_cases htask : t.task.takesReturn = true
      · refine .inl ⟨t, .here, ⟨htask, c, others, hparts, hcc⟩, ?_, hσ.trans hca⟩
        rw [hv, Task.finish, if_pos htask]
        rfl
      · refine .inr ⟨?_, hσ.trans hca, .last (by simpa using htask) hparts hcc⟩
        rw [hv, Task.finish, if_neg htask]

end Evaluation

/-- The tree of an evaluation is there whenever the evaluation ends, with the same
    value and the same store. -/
theorem evaluation?_eq (n : Nat) (p : Phrase) (scope : ScopeId) (σ : Store) :
    (evaluation? n p scope σ).map (fun t => (t.value, t.after)) = eval n p scope σ := by
  unfold evaluation?
  rcases follows_record n p scope σ [] with ⟨h₁, h₂⟩ | ⟨v, new, σ', h₁, h₂, t, rfl, rfl, rfl, _⟩
  · rw [h₁, h₂]
    rfl
  · rw [h₁, h₂]
    rfl

theorem honest_of_evaluation? {n : Nat} {p : Phrase} {scope : ScopeId} {σ : Store} {t : Evaluation}
    (h : evaluation? n p scope σ = some t) : t.Honest := by
  unfold evaluation? at h
  rcases follows_record n p scope σ [] with ⟨h₁, _⟩ | ⟨v, new, σ', h₁, _, t', rfl, rfl, rfl, ht'⟩
  · rw [h₁] at h
    cases h
  · rw [h₁] at h
    cases h
    exact ht'

/-- **Errors and returns are never lost, caught or overtaken.**  Take any evaluation
    `t` that ends, and any evaluation `s` that took place in it, at any depth.

    If `s` gave an error, `t` gives the same error and leaves the store that `s`
    left, and `s` is the last evaluation in `t`.  If `s` gave a `return`, the
    innermost call or program `b` around it gives the value in it and leaves the
    store that `s` left, and `s` is the last evaluation in `b`; without such a `b`
    that holds of `t` and the `return` itself. -/
theorem signals_travel (n : Nat) (p : Phrase) (scope : ScopeId) (σ : Store) :
    (evaluation? n p scope σ).map (fun t => (t.value, t.after)) = eval n p scope σ ∧
    ∀ t, evaluation? n p scope σ = some t → ∀ s : Evaluation, s.Within t →
      (∃ k, s.task.run k s.before = some (s.value, s.after)) ∧
      (∀ m, s.value = .error m →
        t.value = .error m ∧ t.after = s.after ∧ s.Closes (fun _ => True) t) ∧
      (∀ w, s.value = .returned w →
        (∃ b : Evaluation, b.Within t ∧ s.ReturnsFrom b ∧ b.value = w ∧ b.after = s.after) ∨
        (t.value = .returned w ∧ t.after = s.after ∧
          s.Closes (fun task => task.takesReturn = false) t)) := by
  refine ⟨evaluation?_eq n p scope σ, fun t h s hs => ?_⟩
  have ht : t.Honest := honest_of_evaluation? h
  refine ⟨?_, fun m hm => ht.error_travels hs hm, fun w hw => ht.return_travels hs hw⟩
  obtain ⟨_, genuine, _⟩ := ht.within hs
  exact genuine

/-- The expression `fn() { return 1; 2 }() + -true`. -/
def Expr.returnThenFail : Expr :=
  .infixOp default
    (.call default
      (.function ⟨default, [], ⟨default, [.returnValue default (some (.integer default 1)),
        .expression default (.integer default 2)]⟩, 0⟩) [])
    .plus (.prefixOp default .minus (.boolean default true))

/-- The `return` ends the call, and the error that comes later is the value of the
    whole. -/
theorem signals_travel_returnThenFail :
    ∃ t r e : Evaluation, evaluation? 9 (.expression .returnThenFail) 0 .empty = some t ∧
      r.Within t ∧ r.value = .returned (.integer 1) ∧
      (∃ b : Evaluation, b.Within t ∧ r.ReturnsFrom b ∧ b.value = .integer 1 ∧ b.after = r.after) ∧
      e.Within t ∧ e.value = .error "unknown operator: -BOOLEAN" ∧
      t.value = .error "unknown operator: -BOOLEAN" ∧ t.after = e.after := by
  have travel := (signals_travel 9 (.expression .returnThenFail) 0 .empty).2 _ rfl
  -- the parts of the sum are a call expression and the failing operand; down the
  -- call expression lie the call, the body, and the statement that returns
  refine ⟨_, _, _, rfl, .part (.head _) (.part (.tail _ (.head _)) (.part (.head _)
    (.part (.head _) .here))), rfl, ?_, .part (.tail _ (.head _)) .here, rfl, ?_⟩
  · have h := (travel _ (.part (.head _) (.part (.tail _ (.head _)) (.part (.head _)
      (.part (.head _) .here))))).2.2 _ rfl
    exact h.resolve_right fun h => by cases h.1
  · have h := (travel _ (.part (.tail _ (.head _)) .here)).2.1 _ rfl
    exact ⟨h.1, h.2.1⟩

end Monkey
