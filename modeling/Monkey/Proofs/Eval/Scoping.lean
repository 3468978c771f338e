import Monkey.Proofs.Eval.Clean
import Monkey.Proofs.Eval.Isolation

/-!
  Monkey/Proofs/Eval/Scoping.lean
  ===============================
  **Every scope lies in an older one.**

  A call opens a scope inside the one that the function was made in, so that one has
  to be there.  It is, because no value refers to a scope that is still to be opened
  (`Value.Within`), neither a value that a scope binds (`Store.WellScoped`) nor one
  that an evaluation is about to use.

  A value that is used later on may be used in a larger store.  So what a run gives is
  measured by the store that it leaves (`Run.Scoped`), and the next run starts from
  there.  The induction is on the bound of the evaluation.
-/
namespace Monkey

/-! ### Values -/

/-- Every function in the value was made in one of the first `n` scopes. -/
inductive Value.Within (n : Nat) : Value → Prop where
  | integer (i : Int64) : Within n (.integer i)
  | boolean (b : Bool) : Within n (.boolean b)
  | string (s : String) : Within n (.string s)
  | null : Within n .null
  | array {elements : List Value} (h : ∀ v ∈ elements, Within n v) : Within n (.array elements)
  | hash {entries : List Entry} (keys : ∀ e ∈ entries, Within n e.key)
      (values : ∀ e ∈ entries, Within n e.value) : Within n (.hash entries)
  | function {c : Closure} (h : c.scope < n) : Within n (.function c)
  | builtin (b : Builtin) : Within n (.builtin b)
  | returned {v : Value} (h : Within n v) : Within n (.returned v)
  | error (message : String) : Within n (.error message)

namespace Value

variable {n m : Nat}

theorem Within.mono {v : Value} (h : v.Within n) (hnm : n ≤ m) : v.Within m := by
  induction h with
  | integer i => exact .integer i
  | boolean b => exact .boolean b
  | string s => exact .string s
  | null => exact .null
  | array _ ih => exact .array ih
  | hash _ _ ihk ihv => exact .hash ihk ihv
  | function h => exact .function (Nat.lt_of_lt_of_le h hnm)
  | builtin b => exact .builtin b
  | returned _ ih => exact .returned ih
  | error message => exact .error message

theorem Within.unwrapReturn {v : Value} (h : v.Within n) : v.unwrapReturn.Within n := by
  cases h with
  | returned h => exact h
  | _ => constructor <;> assumption

theorem within_toValue (f : Fault) : f.toValue.Within n :=
  .error f.message

theorem Within.insert {filed : HashKey} {key value : Value} {entries : List Entry}
    (h : (Value.hash entries).Within n) (hk : key.Within n) (hv : value.Within n) :
    (Value.hash (Entry.insert ⟨filed, key, value⟩ entries)).Within n := by
  cases h with
  | hash keys values =>
    constructor
    · intro e he
      rcases Entry.mem_of_mem_insert he with rfl | he
      · exact hk
      · exact keys e he
    · intro e he
      rcases Entry.mem_of_mem_insert he with rfl | he
      · exact hv
      · exact values e he

theorem closed_within (n : Nat) : Closed (Within n) where
  integer := .integer
  boolean := .boolean
  string := .string
  null := .null
  array := .array
  elements h := by
    cases h with
    | array h => exact h
  values h := by
    cases h with
    | hash _ hvalues => exact hvalues

theorem OrError.within {v : Value} (h : v.OrError (Within n)) : v.Within n := by
  cases h with
  | of h => exact h
  | error message => exact .error message

end Value

/-! ### Stores -/

namespace Store

/-- Every scope lies in an older one, if in any, and binds values that refer to scopes
    of the store. -/
structure WellScoped (σ : Store) : Prop where
  outer : ∀ e s o, σ.scope? e = some s → s.outer = some o → o < e
  bindings : ∀ e s, σ.scope? e = some s → ∀ b ∈ s.bindings, b.2.Within σ.scopes.size

variable {σ : Store}

theorem size_openScope (σ : Store) (outer : Option ScopeId) :
    (σ.openScope outer).2.scopes.size = σ.scopes.size + 1 :=
  Array.size_push ..

theorem size_define (σ : Store) (e : ScopeId) (name : String) (v : Value) :
    (σ.define e name v).scopes.size = σ.scopes.size :=
  Array.size_modify ..

theorem wellScoped_empty (o : Enumeration) : (Store.empty o).WellScoped := by
  constructor
  · intro e s o hs
    cases hs
  · intro e s hs
    cases hs

namespace WellScoped

/-- Only the scopes matter. -/
theorem congr (h : σ.WellScoped) {σ' : Store} (hs : σ'.scopes = σ.scopes) : σ'.WellScoped := by
  constructor
  · intro e s o he
    rw [scope?, hs] at he
    exact h.outer e s o he
  · intro e s he
    rw [scope?, hs] at he
    rw [hs]
    exact h.bindings e s he

theorem lookup (h : σ.WellScoped) {e : ScopeId} {name : String} {v : Value}
    (hv : σ.lookup e name = some v) : v.Within σ.scopes.size := by
  obtain ⟨i, s, hs, b, hb, rfl⟩ := exists_of_lookup hv
  exact h.bindings i s hs b hb

theorem define (h : σ.WellScoped) (e : ScopeId) (name : String) {v : Value}
    (hv : v.Within σ.scopes.size) : (σ.define e name v).WellScoped := by
  constructor
  · intro i s o hs ho
    obtain ⟨t, ht, he, -⟩ := exists_of_scope?_define hs
    exact h.outer i t o ht (he ▸ ho)
  · intro i s hs b hb
    obtain ⟨t, ht, -, hbs⟩ := exists_of_scope?_define hs
    rw [size_define]
    rcases hbs b hb with rfl | hb
    · exact hv
    · exact h.bindings i t ht b hb

theorem openScope (h : σ.WellScoped) {outer : Option ScopeId}
    (ho : ∀ o, outer = some o → o < σ.scopes.size) : (σ.openScope outer).2.WellScoped := by
  constructor
  · intro i s o hs hso
    rcases scope?_of_openScope hs with hs | ⟨rfl, rfl⟩
    · exact h.outer i s o hs hso
    · exact ho o hso
  · intro i s hs b hb
    rw [size_openScope]
    rcases scope?_of_openScope hs with hs | ⟨rfl, rfl⟩
    · exact (h.bindings i s hs b hb).mono (Nat.le_succ _)
    · cases hb

end WellScoped

end Store

/-! ### Runs -/

/-- Every run of `x` from a well-scoped store of at least `n` scopes leaves such a store,
    and `Q` holds of its number of scopes and of the result. -/
def Run.Scoped (n : Nat) (x : Run α) (Q : Nat → α → Prop) : Prop :=
  ∀ σ a σ', σ.WellScoped → n ≤ σ.scopes.size → x σ = some (a, σ') →
    σ'.WellScoped ∧ n ≤ σ'.scopes.size ∧ Q σ'.scopes.size a

namespace Run.Scoped

variable {n : Nat}

theorem pure {Q : Nat → α → Prop} {a : α} (h : ∀ m, n ≤ m → Q m a) :
    Scoped n (Pure.pure a : Run α) Q := by
  intro σ b σ' hσ hn e
  cases e
  exact ⟨hσ, hn, h _ hn⟩

theorem bind {Q : Nat → α → Prop} {R : Nat → β → Prop} {x : Run α} {f : α → Run β}
    (hx : Scoped n x Q) (hf : ∀ m a, n ≤ m → Q m a → Scoped m (f a) R) :
    Scoped n (x >>= f) R := by
  intro σ b σ' hσ hn e
  change (x σ).bind (fun p => f p.1 p.2) = some (b, σ') at e
  obtain ⟨⟨a, σ₁⟩, ha, hb⟩ := Option.bind_eq_some_iff.1 e
  obtain ⟨hσ₁, hn₁, hq⟩ := hx σ a σ₁ hσ hn ha
  obtain ⟨hσ', hn', hr⟩ := hf _ a hn₁ hq σ₁ b σ' hσ₁ (Nat.le_refl _) hb
  exact ⟨hσ', Nat.le_trans hn₁ hn', hr⟩

/-- A value that refers to scopes that are there. -/
theorem value {v : Value} (h : v.Within n) : Scoped n (Pure.pure v : Run Value) Value.Within :=
  pure fun _ hm => h.mono hm

theorem proceed {x : Run Value} {use : Value → Run Value} (hx : Scoped n x Value.Within)
    (hu : ∀ m v, n ≤ m → v.Within m → Scoped m (use v) Value.Within) :
    Scoped n (Monkey.proceed x use) Value.Within := by
  apply hx.bind
  intro m v hm hv
  by_cases h : v.isSignal = true
  · rw [if_pos h]
    exact value hv
  · rw [if_neg h]
    exact hu m v hm hv

variable {f : Expr → Run Value} {g : Statement → Run Value}

theorem proceedAll {es : List Expr} {use : List Value → Run Value}
    (hf : ∀ m, n ≤ m → ∀ e, Scoped m (f e) Value.Within)
    (hu : ∀ m vs, n ≤ m → (∀ v ∈ vs, v.Within m) → Scoped m (use vs) Value.Within) :
    Scoped n (Monkey.proceedAll f es use) Value.Within := by
  induction es generalizing n use with
  | nil => exact hu n [] (Nat.le_refl n) fun v hv => absurd hv List.not_mem_nil
  | cons e es ih =>
    apply proceed (hf n (Nat.le_refl n) e)
    intro m v hm hv
    apply ih fun k hk => hf k (Nat.le_trans hm hk)
    intro k vs hk hvs
    apply hu k (v :: vs) (Nat.le_trans hm hk)
    exact List.forall_mem_cons.2 ⟨hv.mono hk, hvs⟩

theorem runPairs {pairs : List (Expr × Expr)} {entries : List Entry}
    (hf : ∀ m, n ≤ m → ∀ e, Scoped m (f e) Value.Within) (he : (Value.hash entries).Within n) :
    Scoped n (Monkey.runPairs f pairs entries) Value.Within := by
  induction pairs generalizing n entries with
  | nil => exact value he
  | cons p pairs ih =>
    obtain ⟨key, value⟩ := p
    apply proceed (hf n (Nat.le_refl n) key)
    intro m k hm hk
    rcases k.hashKey? with _ | filed
    · exact .value (Value.within_toValue _)
    · apply proceed (hf m hm value)
      intro l v hl hv
      have hml := Nat.le_trans hm hl
      exact ih (fun i hi => hf i (Nat.le_trans hml hi)) ((he.mono hml).insert (hk.mono hl) hv)

theorem runStatements {last : Value} {ss : List Statement}
    (hg : ∀ m, n ≤ m → ∀ s, Scoped m (g s) Value.Within) (hl : last.Within n) :
    Scoped n (Monkey.runStatements g last ss) Value.Within := by
  induction ss generalizing n last with
  | nil => exact value hl
  | cons s ss ih =>
    apply proceed (hg n (Nat.le_refl n) s)
    intro m v hm hv
    exact ih (fun k hk => hg k (Nat.le_trans hm hk)) hv

theorem runIdentifier (name : String) (e : ScopeId) :
    Scoped n (Monkey.runIdentifier name e) Value.Within := by
  have hl : Scoped n (liftM (Run.lookup e name) : Run _)
      fun m o => ∀ v, o = some v → v.Within m := by
    intro σ o σ' hσ hn he
    cases he
    exact ⟨hσ, hn, fun v hv => hσ.lookup hv⟩
  apply hl.bind
  intro m o hm ho
  rcases o with _ | v
  · rcases Builtin.ofName? name with _ | b
    · exact value (Value.within_toValue _)
    · exact value (.builtin b)
  · exact value (ho v rfl)

theorem define {v : Value} (e : ScopeId) (name : String) (hv : v.Within n) :
    Scoped n (liftM (Run.define e name v) : Run Unit) fun _ _ => True := by
  intro σ a σ' hσ hn he
  cases he
  exact ⟨hσ.define e name (hv.mono hn), (Store.size_define ..).symm ▸ hn, trivial⟩

theorem bindParameters (e : ScopeId) {ids : List Identifier} {vs : List Value}
    (h : ∀ v ∈ vs, v.Within n) :
    Scoped n (Monkey.bindParameters e ids vs : Run Unit) fun _ _ => True := by
  induction ids generalizing n vs with
  | nil => exact pure fun _ _ => trivial
  | cons id ids ih =>
    cases vs with
    | nil => exact pure fun _ _ => trivial
    | cons v vs =>
      obtain ⟨hv, hvs⟩ := List.forall_mem_cons.1 h
      apply (define e id.name hv).bind
      intro m _ hm _
      exact ih fun w hw => (hvs w hw).mono hm

/-- A call opens a scope inside the one that the function was made in. -/
theorem callStep {phrase : Phrase → ScopeId → Run Value}
    (h : ∀ m p e, e < m → Scoped m (phrase p e) Value.Within) {callee : Value}
    {arguments : List Value} (hc : callee.Within n) (ha : ∀ v ∈ arguments, v.Within n) :
    Scoped n (Monkey.callStep phrase callee arguments) Value.Within := by
  cases hc with
  | @function c hc =>
    obtain ⟨literal, scope⟩ := c
    simp only [Monkey.callStep]
    by_cases hn : literal.parameters.length = arguments.length
    · rw [if_pos hn]
      have hopen : Scoped n (liftM (Run.openScope (some scope)) : Run ScopeId)
          fun m e => e < m := by
        intro σ e σ' hσ hle he
        cases he
        have hsize := σ.size_openScope (some scope)
        refine ⟨hσ.openScope ?_, ?_, ?_⟩
        · rintro o ⟨⟩
          exact Nat.lt_of_lt_of_le hc hle
        · exact hsize ▸ Nat.le_succ_of_le hle
        · exact hsize ▸ Nat.lt_succ_self _
      apply hopen.bind
      intro m e hm he
      apply (bindParameters e fun v hv => (ha v hv).mono hm).bind
      intro k _ hk _
      apply (h k (.block literal.body) e (Nat.lt_of_lt_of_le he hk)).bind
      intro l v _ hv
      exact value hv.unwrapReturn
    · rw [if_neg hn]
      exact value (Value.within_toValue _)
  | builtin b =>
    have hprint : Scoped n (liftM (Run.print fun o => b.printed arguments o) : Run Unit)
        fun _ _ => True := by
      intro σ a σ' hσ hn he
      cases he
      exact ⟨hσ.congr rfl, hn, trivial⟩
    apply hprint.bind
    intro m _ hm _
    have ha' : ∀ v ∈ arguments, v.Within m := fun v hv => (ha v hv).mono hm
    exact value (b.orError_result (Value.closed_within m) ha').within
  | _ => exact value (Value.within_toValue _)

end Run.Scoped

/-! ### Evaluation -/

section Steps

open Run (Scoped)

variable {r : Evaluator Run} {e : ScopeId}
  (hp : ∀ m p, e < m → Scoped m (r.phrase p e) Value.Within)
  (hc : ∀ m callee arguments, callee.Within m → (∀ v ∈ arguments, v.Within m) →
    Scoped m (r.call callee arguments) Value.Within)

include hp hc in
theorem scoped_expression_step {n : Nat} (he : e < n) (x : Expr) :
    Scoped n (x.step r e) Value.Within := by
  have hx : ∀ m, n ≤ m → ∀ y, Scoped m (r.phrase (.expression y) e) Value.Within :=
    fun m hm y => hp m (.expression y) (Nat.lt_of_lt_of_le he hm)
  have hn := hx n (Nat.le_refl n)
  cases x with
  | identifier id => exact .runIdentifier id.name e
  | integer _ value => exact .value (.integer value)
  | string _ value => exact .value (.string value)
  | boolean _ value => exact .value (.boolean value)
  | array _ elements => exact .proceedAll hx fun m vs _ hvs => .value (.array hvs)
  | hash _ pairs =>
    refine .runPairs hx (.hash ?_ ?_)
    · exact fun d hd => absurd hd List.not_mem_nil
    · exact fun d hd => absurd hd List.not_mem_nil
  | prefixOp _ op right =>
    apply Scoped.proceed (hn right)
    intro m v _ _
    exact .value (op.orError_apply (Value.closed_within m) v).within
  | infixOp _ left op right =>
    apply Scoped.proceed (hn left)
    intro m a hm _
    apply Scoped.proceed (hx m hm right)
    intro k b _ _
    exact .value (op.orError_apply (Value.closed_within k) a b).within
  | cond _ condition consequence alternative =>
    apply Scoped.proceed (hn condition)
    intro m v hm _
    have hm' := Nat.lt_of_lt_of_le he hm
    by_cases ht : v.isTruthy = true
    · rw [if_pos ht]
      exact hp m (.block consequence) hm'
    · rw [if_neg ht]
      rcases alternative with _ | b
      · exact .value .null
      · exact hp m (.block b) hm'
  | function literal => exact .value (.function he)
  | call _ callee arguments =>
    apply Scoped.proceed (hn callee)
    intro m f hm hf
    apply Scoped.proceedAll fun k hk => hx k (Nat.le_trans hm hk)
    intro k vs hk hvs
    exact hc k f vs (hf.mono hk) hvs
  | index _ left i =>
    apply Scoped.proceed (hn left)
    intro m a hm ha
    apply Scoped.proceed (hx m hm i)
    intro k b hk _
    exact .value ((Value.closed_within k).at (ha.mono hk) b).within

include hp in
theorem scoped_statement_step {n : Nat} (he : e < n) (s : Statement) :
    Scoped n (s.step r e) Value.Within := by
  have hn : ∀ y, Scoped n (r.phrase (.expression y) e) Value.Within :=
    fun y => hp n (.expression y) he
  cases s with
  | letBind _ name value =>
    apply Scoped.proceed (hn value)
    intro m v _ hv
    exact (Scoped.define e name.name hv).bind fun k _ _ _ => .value .null
  | returnValue _ value =>
    rcases value with _ | value
    · exact .value (.returned .null)
    · exact .proceed (hn value) fun m v _ hv => .value (.returned hv)
  | expression _ y => exact hn y
  | block b => exact hp n (.block b) he

end Steps

/-- Evaluation in a scope of the store keeps every scope in an older one, and gives a value
    that refers to scopes of the store. -/
theorem scoped_eval (k : Nat) (p : Phrase) {e : ScopeId} {n : Nat} (he : e < n) :
    (eval k p e).Scoped n Value.Within := by
  induction k generalizing p e n with
  | zero =>
    intro σ v σ' _ _ h
    cases h
  | succ k ih =>
    have hs : ∀ m, n ≤ m → ∀ s, (eval k (.statement s) e).Scoped m Value.Within :=
      fun m hm s => ih (.statement s) (Nat.lt_of_lt_of_le he hm)
    cases p with
    | expression x =>
      apply scoped_expression_step (fun m p hm => ih p hm) _ he x
      intro m callee arguments hf ha
      exact .callStep (fun m p e hm => ih p hm) hf ha
    | statement s => exact scoped_statement_step (fun m p hm => ih p hm) he s
    | block b => exact .runStatements hs .null
    | program p =>
      apply (Run.Scoped.runStatements hs .null).bind
      intro m v _ hv
      exact .value hv.unwrapReturn

end Monkey
