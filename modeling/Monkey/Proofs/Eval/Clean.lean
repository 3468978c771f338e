import Monkey.Proofs.Eval.Keeps
import Monkey.Proofs.Eval.Operators
import Monkey.Proofs.Value.Entries
import Monkey.Session

/-!
  Monkey/Proofs/Eval/Clean.lean
  =============================
  **Signals are never stored.**

  A value is clean when no error and no `return` occurs in it at any depth, and
  every entry of a hash in it is filed under the hash key of its own key.  A store
  is clean when every scope binds clean values only.

  Evaluation keeps the store clean, whatever the phrase (`keeps_eval`).  What it
  gives is clean, or an error, or a clean value in one `return`; programs, calls
  and built-in functions take the `return` off.  A session therefore stays clean
  however many programs it runs.
-/
namespace Monkey

/-! ### Clean values -/

/-- No error and no `return` at any depth, and every entry filed under the hash
    key of its key. -/
inductive Value.Clean : Value → Prop where
  | integer (i : Int64) : Clean (.integer i)
  | boolean (b : Bool) : Clean (.boolean b)
  | string (s : String) : Clean (.string s)
  | null : Clean .null
  | array {elements : List Value} (h : ∀ v ∈ elements, Clean v) : Clean (.array elements)
  | hash {entries : List Entry} (keys : ∀ e ∈ entries, Clean e.key)
      (values : ∀ e ∈ entries, Clean e.value)
      (filed : ∀ e ∈ entries, e.key.hashKey? = some e.filed) : Clean (.hash entries)
  | function (c : Closure) : Clean (.function c)
  | builtin (b : Builtin) : Clean (.builtin b)

/-- What calls and programs give: a clean value or an error. -/
inductive Value.Settled : Value → Prop where
  | clean {v : Value} (h : v.Clean) : Settled v
  | error (message : String) : Settled (.error message)

/-- What the other phrases give: a clean value, an error, or a clean value on its
    way out of a `return`. -/
inductive Value.Outcome : Value → Prop where
  | settled {v : Value} (h : v.Settled) : Outcome v
  | returned {v : Value} (h : v.Clean) : Outcome (.returned v)

namespace Value

theorem Clean.outcome {v : Value} (h : v.Clean) : v.Outcome :=
  .settled (.clean h)

/-- An outcome that is used is clean. -/
theorem Outcome.clean_of_isSignal_eq_false {v : Value} (h : v.Outcome) (hs : v.isSignal = false) :
    v.Clean := by
  cases h with
  | settled h =>
    cases h with
    | clean h => exact h
    | error message => simp [isSignal] at hs
  | returned h => simp [isSignal] at hs

/-- One `return` is all there is to take off. -/
theorem Outcome.settled_unwrapReturn {v : Value} (h : v.Outcome) : v.unwrapReturn.Settled := by
  cases h with
  | settled h =>
    cases h with
    | clean h => cases h <;> exact .clean (by constructor <;> assumption)
    | error message => exact .error message
  | returned h => exact .clean h

theorem settled_toValue (f : Fault) : f.toValue.Settled :=
  .error f.message

end Value

/-! ### Operators on clean values -/

namespace Entry

/-- What the entries of a clean hash satisfy. -/
structure AllClean (entries : List Entry) : Prop where
  keys : ∀ e ∈ entries, e.key.Clean
  values : ∀ e ∈ entries, e.value.Clean
  filed : ∀ e ∈ entries, e.key.hashKey? = some e.filed

theorem AllClean.insert {e : Entry} {entries : List Entry} (h : AllClean entries)
    (hk : e.key.Clean) (hv : e.value.Clean) (hf : e.key.hashKey? = some e.filed) :
    AllClean (Entry.insert e entries) where
  keys d hd := by
    rcases mem_of_mem_insert hd with rfl | hd
    · exact hk
    · exact h.keys d hd
  values d hd := by
    rcases mem_of_mem_insert hd with rfl | hd
    · exact hv
    · exact h.values d hd
  filed d hd := by
    rcases mem_of_mem_insert hd with rfl | hd
    · exact hf
    · exact h.filed d hd

end Entry

namespace Value

/-- Operators and built-in functions do not leave the class of clean values, except for
    errors. -/
theorem closed_clean : Closed Clean where
  integer := .integer
  boolean := .boolean
  string := .string
  null := .null
  array := .array
  elements h := by
    cases h with
    | array h => exact h
  values h := by
    cases h with
    | hash _ hvalues _ => exact hvalues

theorem OrError.settled {v : Value} (h : v.OrError Clean) : v.Settled := by
  cases h with
  | of h => exact .clean h
  | error message => exact .error message

theorem Clean.settled_at {a : Value} (h : a.Clean) (i : Value) : (a.at i).Settled :=
  (closed_clean.at h i).settled

end Value

theorem PrefixOperator.settled_apply (op : PrefixOperator) (v : Value) : (op.apply v).Settled :=
  (op.orError_apply Value.closed_clean v).settled

theorem InfixOperator.settled_apply (op : InfixOperator) (a b : Value) :
    (op.apply a b).Settled :=
  (op.orError_apply Value.closed_clean a b).settled

theorem Builtin.settled_result (b : Builtin) {arguments : List Value}
    (h : ∀ v ∈ arguments, v.Clean) : (b.result arguments).Settled :=
  (b.orError_result Value.closed_clean h).settled

/-! ### Clean stores -/

/-- Every scope binds clean values only. -/
def Store.Clean (σ : Store) : Prop :=
  ∀ e s, σ.scope? e = some s → ∀ b ∈ s.bindings, b.2.Clean

theorem Scope.mem_bind {name : String} {v : Value} {bs : List (String × Value)} {b : String × Value}
    (h : b ∈ bind name v bs) : b = (name, v) ∨ b ∈ bs := by
  induction bs with
  | nil => exact .inl (by simpa [bind] using h)
  | cons c bs ih =>
    obtain ⟨n, w⟩ := c
    unfold bind at h
    split at h
    · rcases List.mem_cons.1 h with rfl | h
      · exact .inl rfl
      · exact .inr (List.mem_cons_of_mem _ h)
    · rcases List.mem_cons.1 h with rfl | h
      · exact .inr (by simp)
      · rcases ih h with rfl | h
        · exact .inl rfl
        · exact .inr (List.mem_cons_of_mem _ h)

theorem Scope.mem_of_get? {s : Scope} {name : String} {v : Value} (h : s.get? name = some v) :
    ∃ b ∈ s.bindings, b.2 = v := by
  obtain ⟨bs, outer⟩ := s
  simp only [get?] at h ⊢
  induction bs with
  | nil => simp at h
  | cons b bs ih =>
    obtain ⟨n, w⟩ := b
    rw [List.lookup_cons] at h
    split at h
    · exact ⟨(n, w), by simp, by simpa using h⟩
    · obtain ⟨b, hb, hv⟩ := ih h
      exact ⟨b, List.mem_cons_of_mem _ hb, hv⟩

namespace Store

variable {σ : Store}

/-- What is looked up was bound in some scope. -/
theorem exists_of_lookup {e : ScopeId} {name : String} {v : Value}
    (hv : σ.lookup e name = some v) : ∃ i s, σ.scope? i = some s ∧ ∃ b ∈ s.bindings, b.2 = v := by
  fun_induction Store.lookup σ e name with
  | case1 => cases hv
  | case2 e s hs w hw =>
    cases hv
    exact ⟨e, s, hs, Scope.mem_of_get? hw⟩
  | case3 e s hs hn o ho hlt ih => exact ih hv
  | case4 => cases hv
  | case5 => cases hv

/-- After a binding every scope lies where it lay, and binds what it bound or what is new. -/
theorem exists_of_scope?_define {e i : ScopeId} {name : String} {v : Value} {s : Scope}
    (hs : (σ.define e name v).scope? i = some s) : ∃ t, σ.scope? i = some t ∧
      s.outer = t.outer ∧ ∀ b ∈ s.bindings, b = (name, v) ∨ b ∈ t.bindings := by
  simp only [scope?, Store.define, Array.getElem?_modify] at hs
  split at hs
  · obtain ⟨t, ht, rfl⟩ := Option.map_eq_some_iff.1 hs
    exact ⟨t, ht, rfl, fun b hb => Scope.mem_bind hb⟩
  · exact ⟨s, hs, rfl, fun b hb => .inr hb⟩

/-- A scope that is opened binds nothing, and the others are what they were. -/
theorem scope?_of_openScope {outer : Option ScopeId} {i : ScopeId} {s : Scope}
    (hs : (σ.openScope outer).2.scope? i = some s) :
    σ.scope? i = some s ∨ i = σ.scopes.size ∧ s = ⟨[], outer⟩ := by
  simp only [scope?, Store.openScope, Array.getElem?_push] at hs
  split at hs
  · cases hs
    exact .inr ⟨‹_›, rfl⟩
  · exact .inl hs

theorem Clean.lookup (h : σ.Clean) {e : ScopeId} {name : String} {v : Value}
    (hv : σ.lookup e name = some v) : v.Clean := by
  obtain ⟨i, s, hs, b, hb, rfl⟩ := exists_of_lookup hv
  exact h i s hs b hb

theorem Clean.define (h : σ.Clean) {e : ScopeId} {name : String} {v : Value} (hv : v.Clean) :
    (σ.define e name v).Clean := by
  intro i s hs b hb
  obtain ⟨t, ht, -, hbs⟩ := exists_of_scope?_define hs
  rcases hbs b hb with rfl | hb
  · exact hv
  · exact h i t ht b hb

theorem Clean.openScope (h : σ.Clean) (outer : Option ScopeId) : (σ.openScope outer).2.Clean := by
  intro i s hs b hb
  rcases scope?_of_openScope hs with hs | ⟨-, rfl⟩
  · exact h i s hs b hb
  · cases hb

/-- Only the scopes matter. -/
theorem Clean.congr (h : σ.Clean) {σ' : Store} (hs : σ'.scopes = σ.scopes) : σ'.Clean := by
  intro i s hi b hb
  simp only [scope?, hs] at hi
  exact h i s hi b hb

theorem Clean.print (h : σ.Clean) (text : String) : (σ.print text).Clean :=
  h.congr rfl

end Store

/-! ### Evaluation -/

/-- What a phrase may give: only programs always take the `return` off. -/
def Phrase.Admits : Phrase → Value → Prop
  | program _ => Value.Settled
  | _ => Value.Outcome

section Steps

variable {f : Expr → Run Value} {g : Statement → Run Value}

theorem keeps_proceed {x : Run Value} {use : Value → Run Value}
    (hx : x.Keeps Store.Clean Value.Outcome)
    (hu : ∀ v, v.Clean → (use v).Keeps Store.Clean Value.Outcome) :
    Run.Keeps Store.Clean (proceed x use) Value.Outcome :=
  .proceed hx (fun _ _ ho => ho) fun v hs ho => hu v (ho.clean_of_isSignal_eq_false hs)

theorem keeps_proceedAll {es : List Expr} {use : List Value → Run Value}
    (hf : ∀ e, (f e).Keeps Store.Clean Value.Outcome)
    (hu : ∀ vs : List Value, (∀ v ∈ vs, v.Clean) → (use vs).Keeps Store.Clean Value.Outcome) :
    Run.Keeps Store.Clean (proceedAll f es use) Value.Outcome := by
  induction es generalizing use with
  | nil => exact hu [] (by simp)
  | cons e es ih =>
    refine keeps_proceed (hf e) fun v hv => ih fun vs hvs => hu (v :: vs) fun w hw => ?_
    rcases List.mem_cons.1 hw with rfl | hw
    · exact hv
    · exact hvs w hw

theorem keeps_runPairs {pairs : List (Expr × Expr)} {entries : List Entry}
    (hf : ∀ e, (f e).Keeps Store.Clean Value.Outcome) (he : Entry.AllClean entries) :
    Run.Keeps Store.Clean (runPairs f pairs entries) Value.Outcome := by
  induction pairs generalizing entries with
  | nil => exact .pure (Value.Clean.hash he.keys he.values he.filed).outcome
  | cons p pairs ih =>
    obtain ⟨key, value⟩ := p
    refine keeps_proceed (hf key) fun k hk => ?_
    rcases hfiled : k.hashKey? with _ | filed
    · exact .pure (.settled (Value.settled_toValue _))
    · exact keeps_proceed (hf value) fun v hv => ih (he.insert hk hv hfiled)

theorem keeps_runStatements {last : Value} {ss : List Statement}
    (hg : ∀ s, (g s).Keeps Store.Clean Value.Outcome) (hl : last.Clean) :
    Run.Keeps Store.Clean (runStatements g last ss) Value.Outcome := by
  induction ss generalizing last with
  | nil => exact .pure hl.outcome
  | cons s ss ih => exact keeps_proceed (hg s) fun v hv => ih hv

theorem keeps_runIdentifier (name : String) (e : ScopeId) :
    Run.Keeps Store.Clean (runIdentifier name e) Value.Outcome := by
  refine .bind (Q := fun o => ∀ v, o = some v → v.Clean)
    (.lookup fun σ hσ v hv => hσ.lookup hv) fun o ho => ?_
  rcases o with _ | v
  · rcases Builtin.ofName? name with _ | b
    · exact .pure (.settled (Value.settled_toValue _))
    · exact .pure (Value.Clean.builtin b).outcome
  · exact .pure (ho v rfl).outcome

theorem keeps_bindParameters {e : ScopeId} {ids : List Identifier} {vs : List Value}
    (h : ∀ v ∈ vs, v.Clean) : Run.Keeps Store.Clean (bindParameters e ids vs) fun _ => True := by
  induction ids generalizing vs with
  | nil => exact .pure trivial
  | cons id ids ih =>
    cases vs with
    | nil => exact .pure trivial
    | cons v vs =>
      refine .bind (.define fun σ hσ => hσ.define (h v (by simp))) fun _ _ => ?_
      exact ih fun w hw => h w (List.mem_cons_of_mem _ hw)

/-- A call keeps the store clean if the body of the function does. -/
theorem keeps_callStep {phrase : Phrase → ScopeId → Run Value}
    (h : ∀ p scope, (phrase p scope).Keeps Store.Clean p.Admits) (callee : Value)
    {arguments : List Value} (ha : ∀ v ∈ arguments, v.Clean) :
    Run.Keeps Store.Clean (callStep phrase callee arguments) Value.Settled := by
  unfold callStep
  split
  · rename_i literal scope
    by_cases hn : literal.parameters.length = arguments.length
    · rw [if_pos hn]
      refine .bind (.openScope fun σ hσ => hσ.openScope _) fun e _ => ?_
      refine .bind (keeps_bindParameters ha) fun _ _ => ?_
      exact .bind (h (.block literal.body) e) fun v hv => .pure hv.settled_unwrapReturn
    · rw [if_neg hn]
      exact .pure (Value.settled_toValue _)
  · rename_i b
    exact .bind (.print fun σ hσ => hσ.print _) fun _ _ => .pure (b.settled_result ha)
  · exact .pure (Value.settled_toValue _)

variable {r : Evaluator Run} (hp : ∀ p scope, (r.phrase p scope).Keeps Store.Clean p.Admits)
  (hc : ∀ callee arguments, (∀ v ∈ arguments, v.Clean) →
    (r.call callee arguments).Keeps Store.Clean Value.Settled)

include hp hc in
theorem keeps_expression_step (e : Expr) (scope : ScopeId) :
    (e.step r scope).Keeps Store.Clean Value.Outcome := by
  have he : ∀ e, (r.phrase (.expression e) scope).Keeps Store.Clean Value.Outcome :=
    fun e => hp (.expression e) scope
  have hb : ∀ b, (r.phrase (.block b) scope).Keeps Store.Clean Value.Outcome :=
    fun b => hp (.block b) scope
  cases e with
  | identifier id => exact keeps_runIdentifier id.name scope
  | integer _ value => exact .pure (Value.Clean.integer value).outcome
  | string _ value => exact .pure (Value.Clean.string value).outcome
  | boolean _ value => exact .pure (Value.Clean.boolean value).outcome
  | array _ elements =>
    exact keeps_proceedAll he fun vs hvs => .pure (Value.Clean.array hvs).outcome
  | hash _ pairs => exact keeps_runPairs he ⟨by simp, by simp, by simp⟩
  | prefixOp _ op right =>
    exact keeps_proceed (he right) fun v _ => .pure (.settled (op.settled_apply v))
  | infixOp _ left op right =>
    refine keeps_proceed (he left) fun a _ => keeps_proceed (he right) fun b _ => ?_
    exact .pure (.settled (op.settled_apply a b))
  | cond _ condition consequence alternative =>
    refine keeps_proceed (he condition) fun v _ => ?_
    by_cases ht : v.isTruthy = true
    · rw [if_pos ht]
      exact hb consequence
    · rw [if_neg ht]
      rcases alternative with _ | b
      · exact .pure Value.Clean.null.outcome
      · exact hb b
  | function literal => exact .pure (Value.Clean.function _).outcome
  | call _ callee arguments =>
    refine keeps_proceed (he callee) fun f _ => keeps_proceedAll he fun vs hvs => ?_
    exact (hc f vs hvs).mono fun _ hv => .settled hv
  | index _ left i =>
    refine keeps_proceed (he left) fun a ha => keeps_proceed (he i) fun b _ => ?_
    exact .pure (.settled (ha.settled_at b))

include hp in
theorem keeps_statement_step (s : Statement) (scope : ScopeId) :
    (s.step r scope).Keeps Store.Clean Value.Outcome := by
  have he : ∀ e, (r.phrase (.expression e) scope).Keeps Store.Clean Value.Outcome :=
    fun e => hp (.expression e) scope
  cases s with
  | letBind _ name value =>
    refine keeps_proceed (he value) fun v hv => ?_
    exact .bind (.define fun σ hσ => hσ.define hv) fun _ _ => .pure Value.Clean.null.outcome
  | returnValue _ value =>
    rcases value with _ | value
    · exact .pure (.returned .null)
    · exact keeps_proceed (he value) fun v hv => .pure (.returned hv)
  | expression _ e => exact he e
  | block b => exact hp (.block b) scope

end Steps

/-- Evaluation keeps the store clean. -/
theorem keeps_eval (n : Nat) (p : Phrase) (scope : ScopeId) :
    (eval n p scope).Keeps Store.Clean p.Admits := by
  induction n generalizing p scope with
  | zero => exact .tooDeep
  | succ n ih =>
    have hs : ∀ scope s, (eval n (.statement s) scope).Keeps Store.Clean Value.Outcome :=
      fun scope s => ih (.statement s) scope
    cases p with
    | expression e => exact keeps_expression_step ih (fun f _ ha => keeps_callStep ih f ha) e scope
    | statement s => exact keeps_statement_step ih s scope
    | block b => exact keeps_runStatements (hs scope) .null
    | program p =>
      refine .bind (keeps_runStatements (hs scope) .null) fun v hv => ?_
      exact .pure hv.settled_unwrapReturn

/-! ### Sessions -/

/-- What a session may become by running programs, each with a bound of its own. -/
inductive Session.Reaches (s : Session) : Session → Prop where
  | here : Reaches s s
  | run {t t' : Session} {limit : Nat} {p : Program} {v : Value} (h : Reaches s t)
      (hr : t.run limit p = some (v, t')) : Reaches s t'

theorem Session.clean_run {s s' : Session} {limit : Nat} {p : Program} {v : Value}
    (h : s.store.Clean) (hr : s.run limit p = some (v, s')) : s'.store.Clean ∧ v.Settled := by
  simp only [Session.run] at hr
  split at hr
  · rename_i v' σ' he
    cases hr
    refine keeps_eval limit (.program _) s.root _ v σ' ?_ he
    exact h.congr rfl
  · cases hr

theorem Session.Reaches.clean {s s' : Session} (hr : s.Reaches s') (h : s.store.Clean) :
    s'.store.Clean := by
  induction hr with
  | here => exact h
  | run _ hr ih => exact (clean_run ih hr).1

/-- **Nothing that ends up in a store or comes out of a call is a signal.**  From a
    clean store every evaluation leaves a clean store and gives an outcome, and
    every call with clean arguments, every built-in function and every program of
    a session gives a clean value or an error. -/
theorem clean_throughout :
    (∀ n p scope σ v σ', σ.Clean → eval n p scope σ = some (v, σ') → σ'.Clean ∧ p.Admits v) ∧
    (∀ n callee (arguments : List Value) σ v σ', σ.Clean → (∀ a ∈ arguments, a.Clean) →
      callStep (eval n) callee arguments σ = some (v, σ') → σ'.Clean ∧ v.Settled) ∧
    (∀ (b : Builtin) (arguments : List Value), (∀ a ∈ arguments, a.Clean) →
      (b.result arguments).Settled) ∧
    (∀ s s' : Session, s.store.Clean → s.Reaches s' → s'.store.Clean ∧
      ∀ limit p v t, s'.run limit p = some (v, t) → v.Settled) := by
  refine ⟨?_, ?_, ?_, ?_⟩
  · intro n p scope σ v σ' hσ he
    exact keeps_eval n p scope σ v σ' hσ he
  · intro n callee arguments σ v σ' hσ ha he
    exact keeps_callStep (keeps_eval n) callee ha σ v σ' hσ he
  · intro b arguments ha
    exact b.settled_result ha
  · intro s s' hs hr
    have hs' : s'.store.Clean := hr.clean hs
    exact ⟨hs', fun limit p v t he => (Session.clean_run hs' he).2⟩

/-- The program `let a = {true: [1]}; fn() { return; }()`. -/
def Program.bindAndCall : Program where
  statements :=
    [.letBind default ⟨default, "a"⟩
        (.hash default [(.boolean default true, .array default [.integer default 1])]),
      .expression default
        (.call default (.function ⟨default, [], ⟨default, [.returnValue default none]⟩, 0⟩) [])]

/-- The start of a session is clean, and stays so with that program, with a call of
    a built-in function, and with another run. -/
theorem clean_bindAndCall :
    Session.start.store.Clean ∧
      (∃ v σ, eval 9 (.program .bindAndCall) 0 Session.start.store = some (v, σ) ∧
        σ.Clean ∧ v.Settled) ∧
      (∃ v σ, callStep (eval 9) (.builtin .first) [.array [.integer 1]] Session.start.store =
        some (v, σ) ∧ σ.Clean ∧ v.Settled) ∧
      (Builtin.result .first [.array [.integer 1]]).Settled ∧
      ∃ s v w t, Session.start.run 9 .bindAndCall = some (v, s) ∧ s.store.Clean ∧
        s.run 9 .bindAndCall = some (w, t) ∧ w.Settled := by
  have hs : Session.start.store.Clean := by
    intro e s he b hb
    rcases e with _ | e
    · cases he
      cases hb
    · cases he
  have ha : ∀ a ∈ [Value.array [.integer 1]], a.Clean := by
    intro a ha
    rw [List.mem_singleton.1 ha]
    refine .array fun v hv => ?_
    rw [List.mem_singleton.1 hv]
    exact .integer 1
  obtain ⟨heval, hcall, hbuiltin, hsession⟩ := clean_throughout
  refine ⟨hs, ⟨_, _, rfl, heval 9 (.program .bindAndCall) 0 _ _ _ hs rfl⟩,
    ⟨_, _, rfl, hcall 9 (.builtin .first) _ _ _ _ hs ha rfl⟩, hbuiltin .first _ ha, ?_⟩
  have hr : Session.start.run 9 .bindAndCall = some (_, _) := rfl
  obtain ⟨hclean, hsettled⟩ := hsession Session.start _ hs (.run .here hr)
  exact ⟨_, _, _, _, hr, hclean, rfl, hsettled 9 .bindAndCall _ _ rfl⟩

end Monkey
