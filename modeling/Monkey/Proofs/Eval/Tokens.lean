import Monkey.Proofs.Eval.Isolation
import Monkey.Proofs.Syntax.RoundTrip
import Monkey.Value.MapTokens

/-!
  Monkey/Proofs/Eval/Tokens.lean
  ==============================
  **Evaluation does not look at tokens.**

  Evaluating a phrase with changed tokens in a store with changed tokens gives what
  evaluating the phrase itself gives, with its tokens changed (`eval_mapTokens`).
  The functions of the store, which were made earlier and may be called now, are
  part of that: their tokens are changed as well.  The next free label does not
  matter either, since evaluation neither reads it nor changes it.

  `x.Maps f k h y` says that the run `y` follows the run `x` in this way.  There is
  one rule for each way of putting runs together, and the induction is on the bound.

  A program and what its text is read as have the same bare tree.  So they are both
  followed by the evaluation of one bare program, and thus behave alike
  (`Session.run_reread`).
-/
namespace Monkey

/-! ### Operators -/

section Operators

variable (f : Token → Token)

theorem PrefixOperator.apply_mapTokens (op : PrefixOperator) (v : Value) :
    op.apply (v.mapTokens f) = (op.apply v).mapTokens f := by
  cases op with
  | bang => simp only [apply, Value.isTruthy_mapTokens, Value.mapTokens]
  | minus => cases v <;> rfl

theorem InfixOperator.applyIntegers_mapTokens (op : InfixOperator) (a b : Int64) :
    (op.applyIntegers a b).mapTokens f = op.applyIntegers a b := by
  cases op with
  | slash =>
    simp only [applyIntegers]
    split <;> rfl
  | _ => rfl

theorem InfixOperator.apply_mapTokens (op : InfixOperator) (a b : Value) :
    op.apply (a.mapTokens f) (b.mapTokens f) = (op.apply a b).mapTokens f := by
  -- what is left after the operators on equal sorts goes by the sorts alone
  have hd : (if a.sort = b.sort then (Fault.unknownInfix a.sort op b.sort).toValue
        else (Fault.typeMismatch a.sort op b.sort).toValue).mapTokens f =
      if a.sort = b.sort then (Fault.unknownInfix a.sort op b.sort).toValue
        else (Fault.typeMismatch a.sort op b.sort).toValue := by
    split <;> rfl
  cases a with
  | integer i =>
    cases b with
    | integer j => exact (op.applyIntegers_mapTokens f i j).symm
    | _ => rfl
  | boolean | string => cases op <;> cases b <;> rfl
  | _ =>
    simp only [Value.mapTokens, apply, Value.sort_mapTokens]
    exact hd.symm

theorem Value.at_mapTokens (v i : Value) :
    (v.mapTokens f).at (i.mapTokens f) = (v.at i).mapTokens f := by
  cases v with
  | array elements =>
    cases i with
    | integer j =>
      simp only [mapTokens, Value.at, mapTokensAll_eq_map, List.getElem?_map, getD_mapTokens]
      split <;> rfl
    | _ => rfl
  | hash entries =>
    simp only [mapTokens, Value.at, hashKey?_mapTokens, sort_mapTokens]
    rcases i.hashKey? with _ | key
    · rfl
    · have hv : Entry.value ∘ Entry.mapTokens f = Value.mapTokens f ∘ Entry.value := by
        funext e
        cases e
        rfl
      simp only [Entry.find?_mapTokens, Option.map_map, hv, ← getD_mapTokens]
  | _ =>
    simp only [mapTokens, Value.at, sort_mapTokens]
    rfl

end Operators

/-! ### A run that follows another -/

namespace Run

/-- On a store with changed tokens and `k` as its next free label, `y` gives what
    `x` gives on the store itself: the result under `h`, and the store with its
    tokens changed. -/
def Maps (f : Token → Token) (k : Nat) (h : α → β) (x : Run α) (y : Run β) : Prop :=
  ∀ σ, y ((σ.mapTokens f).withNextLabel k) =
    (x σ).map fun r => (h r.1, (r.2.mapTokens f).withNextLabel k)

namespace Maps

variable {f : Token → Token} {k : Nat}

theorem pure {h : α → β} (a : α) : Maps f k h (Pure.pure a) (Pure.pure (h a)) :=
  fun _ => rfl

theorem tooDeep {h : α → β} : Maps f k h Run.tooDeep Run.tooDeep :=
  fun _ => rfl

theorem bind {h : α → β} {h' : γ → δ} {x : Run α} {y : Run β} {u : α → Run γ} {w : β → Run δ}
    (hx : Maps f k h x y) (hu : ∀ a, Maps f k h' (u a) (w (h a))) :
    Maps f k h' (x >>= u) (y >>= w) := by
  intro σ
  change (y ((σ.mapTokens f).withNextLabel k)).bind (fun p => w p.1 p.2) =
    ((x σ).bind fun p => u p.1 p.2).map _
  rw [hx σ]
  rcases x σ with _ | ⟨a, σ'⟩
  · rfl
  · exact hu a σ'

theorem lookup (e : ScopeId) (name : String) :
    Maps f k (Option.map (Value.mapTokens f)) (liftM (Run.lookup e name) : Run _)
      (liftM (Run.lookup e name) : Run _) := by
  intro σ
  change some (((σ.mapTokens f).withNextLabel k).lookup e name, _) = some _
  rw [Store.lookup_mapTokens]

theorem define (e : ScopeId) (name : String) (v : Value) :
    Maps f k id (liftM (Run.define e name v) : Run Unit)
      (liftM (Run.define e name (v.mapTokens f)) : Run Unit) := by
  intro σ
  change some ((), ((σ.mapTokens f).withNextLabel k).define e name (v.mapTokens f)) = some _
  rw [Store.define_mapTokens]

theorem openScope (outer : Option ScopeId) :
    Maps f k id (liftM (Run.openScope outer) : Run ScopeId)
      (liftM (Run.openScope outer) : Run ScopeId) := by
  intro σ
  change some (((σ.mapTokens f).withNextLabel k).openScope outer) = some _
  rw [Store.openScope_mapTokens]
  rfl

theorem print (text : Enumeration → String) :
    Maps f k id (liftM (Run.print text) : Run Unit) (liftM (Run.print text) : Run Unit) :=
  fun _ => rfl

/-- A signal is handed on in both runs, or its value is used in both. -/
theorem proceed {x y : Run Value} {u w : Value → Run Value}
    (hx : Maps f k (Value.mapTokens f) x y)
    (hu : ∀ v, Maps f k (Value.mapTokens f) (u v) (w (v.mapTokens f))) :
    Maps f k (Value.mapTokens f) (Monkey.proceed x u) (Monkey.proceed y w) := by
  refine bind hx fun v => ?_
  rw [Value.isSignal_mapTokens]
  by_cases h : v.isSignal = true
  · rw [if_pos h, if_pos h]
    exact pure v
  · rw [if_neg h, if_neg h]
    exact hu v

variable {expression : Expr → Run Value} {statement : Statement → Run Value}

theorem proceedAll
    (he : ∀ e, Maps f k (Value.mapTokens f) (expression e) (expression (e.mapTokens f)))
    (es : List Expr) {u w : List Value → Run Value}
    (hu : ∀ vs, Maps f k (Value.mapTokens f) (u vs) (w (vs.map (Value.mapTokens f)))) :
    Maps f k (Value.mapTokens f) (Monkey.proceedAll expression es u)
      (Monkey.proceedAll expression (Expr.mapTokensAll f es) w) := by
  induction es generalizing u w with
  | nil => exact hu []
  | cons e es ih => exact proceed (he e) fun v => ih fun vs => hu (v :: vs)

theorem runPairs
    (he : ∀ e, Maps f k (Value.mapTokens f) (expression e) (expression (e.mapTokens f)))
    (pairs : List (Expr × Expr)) (entries : List Entry) :
    Maps f k (Value.mapTokens f) (Monkey.runPairs expression pairs entries)
      (Monkey.runPairs expression (Expr.mapTokensPairs f pairs)
        (Entry.mapTokensAll f entries)) := by
  induction pairs generalizing entries with
  | nil => exact pure (Value.hash entries)
  | cons p pairs ih =>
    obtain ⟨key, value⟩ := p
    refine proceed (he key) fun a => ?_
    rw [Value.hashKey?_mapTokens, Value.sort_mapTokens]
    rcases a.hashKey? with _ | filed
    · exact pure (Fault.unhashable a.sort).toValue
    · refine proceed (he value) fun v => ?_
      have hi := Entry.insert_mapTokens f ⟨filed, a, v⟩ entries
      rw [Entry.mapTokens] at hi
      rw [hi]
      exact ih (Entry.insert ⟨filed, a, v⟩ entries)

theorem runStatements
    (hs : ∀ s, Maps f k (Value.mapTokens f) (statement s) (statement (s.mapTokens f)))
    (last : Value) (ss : List Statement) :
    Maps f k (Value.mapTokens f) (Monkey.runStatements statement last ss)
      (Monkey.runStatements statement (last.mapTokens f) (Statement.mapTokensAll f ss)) := by
  induction ss generalizing last with
  | nil => exact pure last
  | cons s ss ih => exact proceed (hs s) fun v => ih v

theorem runIdentifier (name : String) (e : ScopeId) :
    Maps f k (Value.mapTokens f) (Monkey.runIdentifier name e) (Monkey.runIdentifier name e) := by
  refine bind (lookup e name) fun o => ?_
  rcases o with _ | v
  · rw [Option.map_none]
    rcases Builtin.ofName? name with _ | b
    · exact pure (Fault.unbound name).toValue
    · exact pure (Value.builtin b)
  · exact pure v

theorem bindParameters (e : ScopeId) (ids : List Identifier) (vs : List Value) :
    Maps f k id (Monkey.bindParameters e ids vs : Run Unit)
      (Monkey.bindParameters e (ids.map (Identifier.mapTokens f))
        (vs.map (Value.mapTokens f)) : Run Unit) := by
  induction ids generalizing vs with
  | nil => exact pure ()
  | cons i ids ih =>
    cases vs with
    | nil => exact pure ()
    | cons v vs => exact bind (define e i.name v) fun _ => ih vs

end Maps

end Run

/-! ### Evaluation -/

def Phrase.mapTokens (f : Token → Token) : Phrase → Phrase
  | expression e => .expression (e.mapTokens f)
  | statement s => .statement (s.mapTokens f)
  | block b => .block (b.mapTokens f)
  | program p => .program (p.mapTokens f)

section Steps

open Run

variable {f : Token → Token} {k : Nat}

theorem maps_callStep {phrase : Phrase → ScopeId → Run Value}
    (hp : ∀ p e, Maps f k (Value.mapTokens f) (phrase p e) (phrase (p.mapTokens f) e))
    (callee : Value) (vs : List Value) :
    Maps f k (Value.mapTokens f) (callStep phrase callee vs)
      (callStep phrase (callee.mapTokens f) (vs.map (Value.mapTokens f))) := by
  cases callee with
  | function closure =>
    obtain ⟨⟨token, parameters, body, label⟩, scope⟩ := closure
    simp only [Value.mapTokens, Closure.mapTokens, FunctionLiteral.mapTokens, callStep,
      List.length_map]
    by_cases hn : parameters.length = vs.length
    · rw [if_pos hn, if_pos hn]
      refine .bind (.openScope (some scope)) fun e => ?_
      refine .bind (.bindParameters e parameters vs) fun _ => ?_
      refine .bind (hp (.block body) e) fun v => ?_
      rw [Value.unwrapReturn_mapTokens]
      exact .pure v.unwrapReturn
    · rw [if_neg hn, if_neg hn]
      exact .pure (Fault.argumentCount parameters.length vs.length).toValue
  | builtin b =>
    simp only [Value.mapTokens, callStep, Builtin.printed_mapTokens, Builtin.result_mapTokens]
    exact .bind (.print fun o => b.printed vs o) fun _ => .pure (b.result vs)
  | _ =>
    simp only [Value.mapTokens, callStep]
    exact .pure (Fault.notCallable _).toValue

variable {r : Evaluator Run}
  (hp : ∀ p e, Maps f k (Value.mapTokens f) (r.phrase p e) (r.phrase (p.mapTokens f) e))
  (hc : ∀ callee vs, Maps f k (Value.mapTokens f) (r.call callee vs)
    (r.call (callee.mapTokens f) (vs.map (Value.mapTokens f))))

include hp hc in
theorem maps_expression_step (scope : ScopeId) (x : Expr) :
    Maps f k (Value.mapTokens f) (x.step r scope) ((x.mapTokens f).step r scope) := by
  have he (y : Expr) : Maps f k (Value.mapTokens f) (r.phrase (.expression y) scope)
      (r.phrase (.expression (y.mapTokens f)) scope) := hp (.expression y) scope
  cases x with
  | identifier id => exact .runIdentifier id.name scope
  | integer _ value => exact .pure (Value.integer value)
  | string _ value => exact .pure (Value.string value)
  | boolean _ value => exact .pure (Value.boolean value)
  | array _ elements =>
    refine .proceedAll he elements fun vs => ?_
    rw [← Value.mapTokensAll_eq_map]
    exact .pure (Value.array vs)
  | hash _ pairs => exact .runPairs he pairs []
  | prefixOp _ op right =>
    refine .proceed (he right) fun v => ?_
    rw [op.apply_mapTokens]
    exact .pure (op.apply v)
  | infixOp _ left op right =>
    refine .proceed (he left) fun a => .proceed (he right) fun b => ?_
    rw [op.apply_mapTokens]
    exact .pure (op.apply a b)
  | cond _ condition consequence alternative =>
    refine .proceed (he condition) fun v => ?_
    rw [Value.isTruthy_mapTokens]
    by_cases ht : v.isTruthy = true
    · rw [if_pos ht, if_pos ht]
      exact hp (.block consequence) scope
    · rw [if_neg ht, if_neg ht]
      rcases alternative with _ | b
      · exact .pure Value.null
      · exact hp (.block b) scope
  | function literal => exact .pure (Value.function ⟨literal, scope⟩)
  | call _ callee arguments =>
    exact .proceed (he callee) fun v => .proceedAll he arguments fun vs => hc v vs
  | index _ left i =>
    refine .proceed (he left) fun a => .proceed (he i) fun b => ?_
    rw [Value.at_mapTokens]
    exact .pure (a.at b)

include hp in
theorem maps_statement_step (scope : ScopeId) (s : Statement) :
    Maps f k (Value.mapTokens f) (s.step r scope) ((s.mapTokens f).step r scope) := by
  cases s with
  | letBind _ name value =>
    refine .proceed (hp (.expression value) scope) fun v => ?_
    exact .bind (.define scope name.name v) fun _ => .pure Value.null
  | returnValue _ value =>
    rcases value with _ | value
    · exact .pure (Value.returned .null)
    · exact .proceed (hp (.expression value) scope) fun v => .pure (Value.returned v)
  | expression _ x => exact hp (.expression x) scope
  | block b => exact hp (.block b) scope

include hp hc in
theorem maps_phrase_step (scope : ScopeId) (p : Phrase) :
    Maps f k (Value.mapTokens f) (p.step r scope) ((p.mapTokens f).step r scope) := by
  have hs (s : Statement) : Maps f k (Value.mapTokens f) (r.phrase (.statement s) scope)
      (r.phrase (.statement (s.mapTokens f)) scope) := hp (.statement s) scope
  cases p with
  | expression x => exact maps_expression_step hp hc scope x
  | statement s => exact maps_statement_step hp scope s
  | block b =>
    obtain ⟨_, statements⟩ := b
    exact .runStatements hs .null statements
  | program p =>
    refine .bind (.runStatements hs .null p.statements) fun v => ?_
    rw [Value.unwrapReturn_mapTokens]
    exact .pure v.unwrapReturn

end Steps

/-- Evaluation does not look at tokens, nor at the next free label. -/
theorem eval_mapTokens (f : Token → Token) (k n : Nat) (p : Phrase) (e : ScopeId) :
    Run.Maps f k (Value.mapTokens f) (eval n p e) (eval n (p.mapTokens f) e) := by
  induction n generalizing p e with
  | zero => exact .tooDeep
  | succ n ih => exact maps_phrase_step ih (maps_callStep ih) e p

/-! ### Programs -/

def Session.mapTokens (f : Token → Token) (s : Session) : Session :=
  { s with store := s.store.mapTokens f }

/-- A value without the tokens of its functions. -/
def Value.bare (v : Value) : Value :=
  v.mapTokens fun _ => default

/-- A session without the tokens of the functions in its store. -/
def Session.bare (s : Session) : Session :=
  s.mapTokens fun _ => default

namespace Session

/-- A run of a program is the evaluation of what was loaded. -/
theorem run_eq (s : Session) (n : Nat) (p : Program) :
    s.run n p = (eval n (.program (p.label.run s.store.nextLabel).1) s.root
      (s.store.withNextLabel (p.label.run s.store.nextLabel).2)).map
        fun r => (r.1, { s with store := r.2 }) := by
  have hload : s.store.load p = ((p.label.run s.store.nextLabel).1,
      s.store.withNextLabel (p.label.run s.store.nextLabel).2) := rfl
  rw [run, hload]
  simp only [Store.evaluate, StateT.run]
  rcases eval n (.program (p.label s.store.nextLabel).1) s.root
    (s.store.withNextLabel (p.label s.store.nextLabel).2) with _ | r
  · rfl
  · rfl

/-- What a run gives, with its tokens changed, is what the loaded program gives when its
    tokens are changed beforehand. -/
theorem map_run (f : Token → Token) (s : Session) (n : Nat) (p : Program) :
    (s.run n p).map (fun r => (r.1.mapTokens f, r.2.mapTokens f)) =
      (eval n (.program ((p.label.run s.store.nextLabel).1.mapTokens f)) s.root
        ((s.store.mapTokens f).withNextLabel (p.label.run s.store.nextLabel).2)).map
          fun r => (r.1, { s with store := r.2 }) := by
  rw [run_eq]
  generalize p.label.run s.store.nextLabel = l
  have he := eval_mapTokens f l.2 n (.program l.1) s.root (s.store.withNextLabel l.2)
  change eval n (.program (l.1.mapTokens f)) s.root ((s.store.mapTokens f).withNextLabel l.2) = _
    at he
  rw [he]
  rcases hr : eval n (.program l.1) s.root (s.store.withNextLabel l.2) with _ | ⟨v, σ⟩
  · rfl
  · have hσ : (σ.mapTokens f).withNextLabel l.2 = σ.mapTokens f := by
      rw [← show σ.nextLabel = l.2 from nextLabel_eval hr]
      rfl
    simp only [Option.map_some, hσ]
    rfl

/-- A session does not look at tokens. -/
theorem run_mapTokens (f : Token → Token) (s : Session) (n : Nat) (p : Program) :
    (s.mapTokens f).run n (p.mapTokens f) =
      (s.run n p).map fun r => (r.1.mapTokens f, r.2.mapTokens f) := by
  have hl : (p.mapTokens f).label.run s.store.nextLabel =
      ((p.label.run s.store.nextLabel).1.mapTokens f, (p.label.run s.store.nextLabel).2) := by
    rw [p.label_mapTokens]
    rfl
  rw [run_eq, map_run]
  change Option.map _ (eval n (.program ((p.mapTokens f).label.run s.store.nextLabel).1) s.root
    ((s.store.mapTokens f).withNextLabel ((p.mapTokens f).label.run s.store.nextLabel).2)) = _
  rw [hl]
  rfl

/-- Outcomes that are equal with their tokens changed. -/
theorem rel_of_map_eq {f : Token → Token} {x y : Option (Value × Session)}
    {R : Value × Session → Value × Session → Prop}
    (h : x.map (fun r => (r.1.mapTokens f, r.2.mapTokens f)) =
      y.map fun r => (r.1.mapTokens f, r.2.mapTokens f))
    (hr : ∀ a b, a.1.mapTokens f = b.1.mapTokens f → a.2.mapTokens f = b.2.mapTokens f → R a b) :
    Option.Rel R x y := by
  rcases x with _ | a <;> rcases y with _ | b
  · exact .none
  · cases h
  · cases h
  · obtain ⟨hv, hs⟩ := Prod.mk.inj (Option.some.inj h)
    exact .some (hr a b hv hs)

/-- **The text of a program behaves as the program.**  From whatever bytes a program
    was read, its text is read without a diagnostic, and in every session the two
    programs both go beyond the bound or both end.  Then they have printed the same
    text, and their values and sessions are the same but for the tokens of function
    literals: the values have the same sort and the same text, in whatever order hashes
    are written, and are errors with the same message if one of them is an error. -/
theorem run_reread (source : List UInt8) (s : Session) (limit : Nat) :
    (Program.readSource source).program.reread.diagnostics = [] ∧
      Option.Rel (fun a b => a.1.bare = b.1.bare ∧ a.2.bare = b.2.bare ∧
          a.2.store.output = b.2.store.output ∧
          a.1.sort = b.1.sort ∧ (∀ o, a.1.render o = b.1.render o) ∧
          ∀ message, a.1 = .error message ↔ b.1 = .error message)
        (s.run limit (Program.readSource source).program)
        (s.run limit (Program.readSource source).program.reread.program) := by
  obtain ⟨hd, hb⟩ := Program.reread_of_canonical (Program.canonical_readSource source)
  refine ⟨hd, ?_⟩
  generalize (Program.readSource source).program.reread.program = q at hb ⊢
  generalize (Program.readSource source).program = p at hb ⊢
  rw [q.bare_eq_mapTokens, p.bare_eq_mapTokens] at hb
  -- both programs are followed by the run of the one bare program
  have hr : (s.run limit p).map (fun r => (r.1.bare, r.2.bare)) =
      (s.run limit q).map fun r => (r.1.bare, r.2.bare) :=
    calc (s.run limit p).map (fun r => (r.1.bare, r.2.bare))
      _ = s.bare.run limit (p.mapTokens fun _ => default) := (s.run_mapTokens _ limit p).symm
      _ = s.bare.run limit (q.mapTokens fun _ => default) := by rw [hb]
      _ = (s.run limit q).map fun r => (r.1.bare, r.2.bare) := s.run_mapTokens _ limit q
  refine rel_of_map_eq hr fun a b hv ht => ?_
  refine ⟨hv, ht, congrArg (fun u => u.store.output) ht, ?_, fun o => ?_, fun message => ?_⟩
  · have hs := congrArg Value.sort hv
    simpa only [Value.sort_mapTokens] using hs
  · have hs := congrArg (fun v : Value => v.render o) hv
    simpa only [Value.render_mapTokens] using hs
  · have he : (a.1.mapTokens fun _ => default) = .error message ↔
        (b.1.mapTokens fun _ => default) = .error message := by rw [hv]
    simpa only [Value.mapTokens_eq_error] using he

end Session

end Monkey
