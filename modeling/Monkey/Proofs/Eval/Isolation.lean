import Monkey.Proofs.Eval.Keeps
import Monkey.Session

/-!
  Monkey/Proofs/Eval/Isolation.lean
  =================================
  **Evaluation binds names in its own scope only.**

  A phrase is evaluated in a scope `e`.  It may call functions, which were made in
  other scopes, and these may call others.  Still, of the scopes that were there
  before, all but `e` stay as they are, and in `e` only targets of the phrase are
  bound: the names that a `let` in it binds, outside the function literals in it
  (`Phrase.targets`).

  What the store may become is a relation between two stores, `Store.Isolates`.
  A call runs in a scope that was not there before, so that the same relation, read
  at that scope, says of all older scopes that they stay as they are
  (`Isolates.intact`).  The induction is on the bound of the evaluation.
-/
namespace Monkey

/-! ### Targets -/

mutual

/-- The names that an expression may bind where it is evaluated.  The body of a
    function literal is evaluated elsewhere. -/
def Expr.targets : Expr → List String
  | .identifier _ => []
  | .integer _ _ => []
  | .string _ _ => []
  | .boolean _ _ => []
  | .array _ elements => Expr.targetsAll elements
  | .hash _ pairs => Expr.targetsPairs pairs
  | .prefixOp _ _ right => right.targets
  | .infixOp _ left _ right => left.targets ++ right.targets
  | .cond _ condition consequence alternative =>
    condition.targets ++ (consequence.targets ++ Block.targetsOption alternative)
  | .function _ => []
  | .call _ callee arguments => callee.targets ++ Expr.targetsAll arguments
  | .index _ left i => left.targets ++ i.targets

/-- The names that expressions may bind. -/
def Expr.targetsAll : List Expr → List String
  | [] => []
  | e :: es => e.targets ++ Expr.targetsAll es

/-- The names that the pairs of a hash literal may bind. -/
def Expr.targetsPairs : List (Expr × Expr) → List String
  | [] => []
  | (key, value) :: pairs => key.targets ++ (value.targets ++ Expr.targetsPairs pairs)

/-- The names that a block may bind. -/
def Block.targets : Block → List String
  | ⟨_, statements⟩ => Statement.targetsAll statements

/-- The names that a block may bind, if there is one. -/
def Block.targetsOption : Option Block → List String
  | none => []
  | some b => b.targets

/-- The names that a statement may bind: that of a `let`, and those of its parts. -/
def Statement.targets : Statement → List String
  | .letBind _ name value => name.name :: value.targets
  | .returnValue _ none => []
  | .returnValue _ (some value) => value.targets
  | .expression _ e => e.targets
  | .block b => b.targets

/-- The names that statements may bind. -/
def Statement.targetsAll : List Statement → List String
  | [] => []
  | s :: ss => s.targets ++ Statement.targetsAll ss

end

/-- The names that a phrase may bind where it is evaluated. -/
def Phrase.targets : Phrase → List String
  | expression e => e.targets
  | statement s => s.targets
  | block b => b.targets
  | program p => Statement.targetsAll p.statements

theorem Expr.targets_subset_targetsAll {e : Expr} {es : List Expr} (h : e ∈ es) :
    e.targets ⊆ Expr.targetsAll es := by
  induction es with
  | nil => cases h
  | cons d ds ih =>
    rcases List.mem_cons.1 h with rfl | h
    · exact List.subset_append_left _ _
    · exact List.Subset.trans (ih h) (List.subset_append_right _ _)

theorem Expr.targets_subset_targetsPairs {p : Expr × Expr} {ps : List (Expr × Expr)} (h : p ∈ ps) :
    p.1.targets ⊆ Expr.targetsPairs ps ∧ p.2.targets ⊆ Expr.targetsPairs ps := by
  induction ps with
  | nil => cases h
  | cons q qs ih =>
    obtain ⟨key, value⟩ := q
    rcases List.mem_cons.1 h with rfl | h
    · refine ⟨List.subset_append_left _ _, ?_⟩
      exact List.Subset.trans (List.subset_append_left _ _) (List.subset_append_right _ _)
    · have hq : Expr.targetsPairs qs ⊆ Expr.targetsPairs ((key, value) :: qs) :=
        List.Subset.trans (List.subset_append_right _ _) (List.subset_append_right _ _)
      exact ⟨List.Subset.trans (ih h).1 hq, List.Subset.trans (ih h).2 hq⟩

theorem Statement.targets_subset_targetsAll {s : Statement} {ss : List Statement} (h : s ∈ ss) :
    s.targets ⊆ Statement.targetsAll ss := by
  induction ss with
  | nil => cases h
  | cons t ts ih =>
    rcases List.mem_cons.1 h with rfl | h
    · exact List.subset_append_left _ _
    · exact List.Subset.trans (ih h) (List.subset_append_right _ _)

/-! ### What a store may become -/

namespace Store

/-- The scopes of the first store stand in the second one as they were, and no label
    was taken. -/
structure Intact (σ σ' : Store) : Prop where
  scopes : ∀ i s, σ.scope? i = some s → σ'.scope? i = some s
  nextLabel : σ'.nextLabel = σ.nextLabel

/-- The second store has the scopes of the first one as they were, but for the scope
    `e`.  That one lies where it lay and keeps the names it bound, and what it
    binds to a name is the same as before unless the name is among `names`. -/
structure Isolates (e : ScopeId) (names : List String) (σ σ' : Store) : Prop where
  nextLabel : σ'.nextLabel = σ.nextLabel
  others : ∀ i s, i ≠ e → σ.scope? i = some s → σ'.scope? i = some s
  current : ∀ s, σ.scope? e = some s → ∃ s', σ'.scope? e = some s' ∧ s'.outer = s.outer ∧
    (∀ name, s.get? name ≠ none → s'.get? name ≠ none) ∧
    ∀ name, s'.get? name ≠ s.get? name → name ∈ names

variable {e : ScopeId} {names : List String} {σ σ' σ'' : Store}

theorem Intact.refl (σ : Store) : σ.Intact σ :=
  ⟨fun _ _ hs => hs, rfl⟩

theorem Intact.trans (h : σ.Intact σ') (h' : σ'.Intact σ'') : σ.Intact σ'' :=
  ⟨fun i s hs => h'.scopes i s (h.scopes i s hs), h'.nextLabel.trans h.nextLabel⟩

theorem intact_openScope (σ : Store) (outer : Option ScopeId) :
    σ.Intact (σ.openScope outer).2 := by
  refine ⟨fun i s hs => ?_, rfl⟩
  have hi : i < σ.scopes.size := (Array.getElem?_eq_some_iff.1 hs).1
  simp only [scope?, openScope, Array.getElem?_push, if_neg (Nat.ne_of_lt hi)]
  exact hs

/-- The scope that is opened was not there. -/
theorem scope?_openScope (σ : Store) (outer : Option ScopeId) :
    σ.scope? (σ.openScope outer).1 = none :=
  Array.getElem?_eq_none (Nat.le_refl _)

theorem intact_print (σ : Store) (text : String) : σ.Intact (σ.print text) :=
  ⟨fun _ _ hs => hs, rfl⟩

theorem scope?_define_of_ne {i : ScopeId} (h : i ≠ e) (name : String) (v : Value) :
    (σ.define e name v).scope? i = σ.scope? i := by
  simp only [scope?, Store.define, Array.getElem?_modify, if_neg (Ne.symm h)]

theorem scope?_define (σ : Store) (e : ScopeId) (name : String) (v : Value) :
    (σ.define e name v).scope? e = (σ.scope? e).map (·.define name v) := by
  simp only [scope?, Store.define, Array.getElem?_modify, if_pos]

namespace Isolates

theorem of_intact (h : σ.Intact σ') : σ.Isolates e names σ' where
  nextLabel := h.nextLabel
  others i s _ hs := h.scopes i s hs
  current s hs := ⟨s, h.scopes e s hs, rfl, fun _ hn => hn, fun _ hn => absurd rfl hn⟩

theorem trans (h : σ.Isolates e names σ') (h' : σ'.Isolates e names σ'') :
    σ.Isolates e names σ'' where
  nextLabel := h'.nextLabel.trans h.nextLabel
  others i s hi hs := h'.others i s hi (h.others i s hi hs)
  current s hs := by
    obtain ⟨s', hs', ho', hk', hn'⟩ := h.current s hs
    obtain ⟨s'', hs'', ho'', hk'', hn''⟩ := h'.current s' hs'
    refine ⟨s'', hs'', ho''.trans ho', fun name hb => hk'' name (hk' name hb), ?_⟩
    intro name hne
    by_cases hb : s''.get? name = s'.get? name
    · exact hn' name (hb ▸ hne)
    · exact hn'' name hb

theorem define (h : σ.Isolates e names σ') {name : String} (hn : name ∈ names) (v : Value) :
    σ.Isolates e names (σ'.define e name v) := by
  refine h.trans ⟨rfl, fun i s hi hs => ?_, fun s hs => ?_⟩
  · rw [scope?_define_of_ne hi]
    exact hs
  · refine ⟨s.define name v, by rw [scope?_define, hs]; rfl, rfl, fun m hm => ?_, fun m hm => ?_⟩
    · rw [Scope.get?_define]
      split
      · exact Option.some_ne_none v
      · exact hm
    · rw [Scope.get?_define] at hm
      split at hm
      · rename_i hmn
        exact hmn ▸ hn
      · exact absurd rfl hm

/-- In a scope that was not there, anything may be bound. -/
theorem intact (h : σ.Isolates e names σ') (he : σ.scope? e = none) : σ.Intact σ' := by
  refine ⟨fun i s hs => h.others i s ?_ hs, h.nextLabel⟩
  rintro rfl
  rw [he] at hs
  cases hs

end Isolates

end Store

/-! ### Evaluation -/

section Steps

variable {σ₀ : Store}

/-- A run that leaves all scopes as they are may stand in a run in any scope. -/
theorem Run.Keeps.isolates {Q : α → Prop} {x : Run α} {e : ScopeId} {names : List String}
    (h : ∀ σ, x.Keeps (Store.Intact σ) Q) : x.Keeps (σ₀.Isolates e names) Q := by
  intro σ a σ' hσ hx
  obtain ⟨hi, hq⟩ := h σ σ a σ' (.refl σ) hx
  exact ⟨hσ.trans (.of_intact hi), hq⟩

/-- Arguments are bound in a scope that was not there. -/
theorem intact_bindParameters {e : ScopeId} (he : σ₀.scope? e = none) (ids : List Identifier)
    (vs : List Value) : Run.Keeps σ₀.Intact (bindParameters e ids vs) fun _ => True := by
  induction ids generalizing vs with
  | nil => exact .pure_any
  | cons id ids ih =>
    cases vs with
    | nil => exact .pure_any
    | cons v vs =>
      refine .bind (.define fun σ hσ => ⟨fun i s hs => ?_, hσ.nextLabel⟩) fun _ _ => ih vs
      have hi : i ≠ e := by
        rintro rfl
        rw [he] at hs
        cases hs
      rw [Store.scope?_define_of_ne hi]
      exact hσ.scopes i s hs

/-- A call leaves all scopes as they are, if the body of the function binds names in
    its own scope only. -/
theorem intact_callStep {phrase : Phrase → ScopeId → Run Value}
    (h : ∀ p e, (phrase p e).Keeps (σ₀.Isolates e p.targets) fun _ => True) (callee : Value)
    (arguments : List Value) :
    Run.Keeps σ₀.Intact (callStep phrase callee arguments) fun _ => True := by
  unfold callStep
  split
  · rename_i literal scope
    by_cases hn : literal.parameters.length = arguments.length
    · rw [if_pos hn]
      have hopen : Run.Keeps σ₀.Intact (liftM (Run.openScope (some scope)) : Run ScopeId)
          fun e => σ₀.scope? e = none := by
        intro σ e σ' hσ he
        cases he
        refine ⟨hσ.trans (σ.intact_openScope _), Option.eq_none_iff_forall_ne_some.2 ?_⟩
        intro s hs
        have hs' := hσ.scopes _ s hs
        exact Option.some_ne_none s (hs'.symm.trans (σ.scope?_openScope (some scope)))
      refine hopen.bind fun e he => (intact_bindParameters he _ _).bind fun _ _ => ?_
      refine .bind (Q := fun _ => True) ?_ fun v _ => .pure_any
      intro σ v σ' hσ hv
      exact ⟨(h (.block literal.body) e σ v σ' (.of_intact hσ) hv).1.intact he, trivial⟩
    · rw [if_neg hn]
      exact .pure_any
  · exact .bind (.print fun σ hσ => hσ.trans (σ.intact_print _)) fun _ _ => .pure_any
  · exact .pure_any

variable {r : Evaluator Run} {e : ScopeId} {names : List String}
  (hp : ∀ p : Phrase, p.targets ⊆ names →
    (r.phrase p e).Keeps (σ₀.Isolates e names) fun _ => True)
  (hc : ∀ callee arguments, (r.call callee arguments).Keeps (σ₀.Isolates e names) fun _ => True)

include hp hc in
theorem isolates_expression_step (x : Expr) (hx : x.targets ⊆ names) :
    (x.step r e).Keeps (σ₀.Isolates e names) fun _ => True := by
  have he : ∀ y : Expr, y.targets ⊆ names →
      (r.phrase (.expression y) e).Keeps (σ₀.Isolates e names) fun _ => True :=
    fun y hy => hp (.expression y) hy
  have hes : ∀ ys : List Expr, Expr.targetsAll ys ⊆ names → ∀ y ∈ ys,
      (r.phrase (.expression y) e).Keeps (σ₀.Isolates e names) fun _ => True :=
    fun ys hys y hy => he y (List.Subset.trans (Expr.targets_subset_targetsAll hy) hys)
  cases x with
  | identifier id => exact .runIdentifier
  | integer _ value => exact .pure_any
  | string _ value => exact .pure_any
  | boolean _ value => exact .pure_any
  | array _ elements => exact .proceedAll (hes elements hx) fun vs => .pure_any
  | hash _ pairs =>
    refine .runPairs (fun p hq => he p.1 ?_) fun p hq => he p.2 ?_
    · exact List.Subset.trans (Expr.targets_subset_targetsPairs hq).1 hx
    · exact List.Subset.trans (Expr.targets_subset_targetsPairs hq).2 hx
  | prefixOp _ op right => exact .proceed_any (he right hx) fun v => .pure_any
  | infixOp _ left op right =>
    obtain ⟨hl, hr⟩ := List.append_subset.1 hx
    exact .proceed_any (he left hl) fun a => .proceed_any (he right hr) fun b => .pure_any
  | cond _ condition consequence alternative =>
    obtain ⟨hcond, hx⟩ := List.append_subset.1 hx
    obtain ⟨hcons, halt⟩ := List.append_subset.1 hx
    refine .proceed_any (he condition hcond) fun v => ?_
    by_cases ht : v.isTruthy = true
    · rw [if_pos ht]
      exact hp (.block consequence) hcons
    · rw [if_neg ht]
      rcases alternative with _ | b
      · exact .pure_any
      · exact hp (.block b) halt
  | function literal => exact .pure_any
  | call _ callee arguments =>
    obtain ⟨hf, ha⟩ := List.append_subset.1 hx
    exact .proceed_any (he callee hf) fun f => .proceedAll (hes arguments ha) fun vs => hc f vs
  | index _ left i =>
    obtain ⟨hl, hi⟩ := List.append_subset.1 hx
    exact .proceed_any (he left hl) fun a => .proceed_any (he i hi) fun b => .pure_any

include hp in
theorem isolates_statement_step (s : Statement) (hs : s.targets ⊆ names) :
    (s.step r e).Keeps (σ₀.Isolates e names) fun _ => True := by
  cases s with
  | letBind _ name value =>
    obtain ⟨hn, hv⟩ := List.cons_subset.1 hs
    refine .proceed_any (hp (.expression value) hv) fun v => ?_
    exact .bind (.define fun σ hσ => hσ.define hn v) fun _ _ => .pure_any
  | returnValue _ value =>
    rcases value with _ | value
    · exact .pure_any
    · exact .proceed_any (hp (.expression value) hs) fun v => .pure_any
  | expression _ x => exact hp (.expression x) hs
  | block b => exact hp (.block b) hs

include hp hc in
theorem isolates_phrase_step (p : Phrase) (h : p.targets ⊆ names) :
    (p.step r e).Keeps (σ₀.Isolates e names) fun _ => True := by
  have hss : ∀ ss : List Statement, Statement.targetsAll ss ⊆ names → ∀ s ∈ ss,
      (r.phrase (.statement s) e).Keeps (σ₀.Isolates e names) fun _ => True :=
    fun ss hss s hs =>
      hp (.statement s) (List.Subset.trans (Statement.targets_subset_targetsAll hs) hss)
  cases p with
  | expression x => exact isolates_expression_step hp hc x h
  | statement s => exact isolates_statement_step hp s h
  | block b =>
    obtain ⟨_, statements⟩ := b
    exact .runStatements (hss statements h)
  | program p => exact .bind (.runStatements (hss p.statements h)) fun v _ => .pure_any

end Steps

/-- Evaluation in the scope `e` binds nothing but targets, and only in `e`. -/
theorem isolates_eval (n : Nat) (p : Phrase) (e : ScopeId) {names : List String}
    (h : p.targets ⊆ names) (σ₀ : Store) :
    (eval n p e).Keeps (σ₀.Isolates e names) fun _ => True := by
  induction n generalizing p e names σ₀ with
  | zero => exact .tooDeep
  | succ n ih =>
    refine isolates_phrase_step (fun q hq => ih q e hq σ₀) (fun callee arguments => ?_) p h
    refine .isolates fun σ => ?_
    exact intact_callStep (fun q i => ih q i (List.Subset.refl _) σ) callee arguments

theorem nextLabel_eval {n : Nat} {p : Phrase} {e : ScopeId} {σ σ' : Store} {v : Value}
    (h : eval n p e σ = some (v, σ')) : σ'.nextLabel = σ.nextLabel :=
  (isolates_eval n p e (List.Subset.refl _) σ σ v σ' (.of_intact (.refl σ)) h).1.nextLabel

/-- **Evaluation stays within its scope.**  Whatever is evaluated in a scope `e`, and
    whatever functions it calls: every other scope is what it was, and `e` lies where
    it lay, keeps the names it bound, and has other bindings only for targets of what
    was evaluated.  A call leaves every scope as it was. -/
theorem scopes_isolated :
    (∀ n p e σ v σ', eval n p e σ = some (v, σ') →
      (∀ i s, i ≠ e → σ.scope? i = some s → σ'.scope? i = some s) ∧
      ∀ s, σ.scope? e = some s → ∃ s', σ'.scope? e = some s' ∧ s'.outer = s.outer ∧
        (∀ name, s.get? name ≠ none → s'.get? name ≠ none) ∧
        ∀ name, s'.get? name ≠ s.get? name → name ∈ p.targets) ∧
    ∀ n callee (arguments : List Value) σ v σ',
      callStep (eval n) callee arguments σ = some (v, σ') →
      ∀ i s, σ.scope? i = some s → σ'.scope? i = some s := by
  refine ⟨fun n p e σ v σ' he => ?_, fun n callee arguments σ v σ' he => ?_⟩
  · have h := isolates_eval n p e (List.Subset.refl _) σ σ v σ' (.of_intact (.refl σ)) he
    exact ⟨h.1.others, h.1.current⟩
  · have h := intact_callStep (fun p e => isolates_eval n p e (List.Subset.refl _) σ)
      callee arguments σ v σ' (.refl σ) he
    exact h.1.scopes

/-- The program `if (true) { let z = fn(x) { let y = 2; 3 }(1); }`. -/
def Program.bindInside : Program :=
  let body : Block := ⟨default, [.letBind default ⟨default, "y"⟩ (.integer default 2),
    .expression default (.integer default 3)]⟩
  let call : Expr := .call default (.function ⟨default, [⟨default, "x"⟩], body, 0⟩)
    [.integer default 1]
  { statements := [.expression default (.cond default (.boolean default true)
      ⟨default, [.letBind default ⟨default, "z"⟩ call]⟩ none)] }

/-- That program binds `z` in its scope and neither `x` nor `y`, and a call of a
    function made there changes nothing in it. -/
theorem scopes_isolated_bindInside :
    ∃ v σ s, eval 9 (.program .bindInside) 0 Session.start.store = some (v, σ) ∧
      σ.scope? 0 = some s ∧ s.outer = none ∧ s.get? "z" = some (.integer 3) ∧
      (∀ name, s.get? name ≠ none → name = "z") ∧
      ∃ w τ, callStep (eval 9) (.function ⟨⟨default, [], ⟨default, []⟩, 0⟩, 0⟩) [] σ =
        some (w, τ) ∧ τ.scope? 0 = some s := by
  obtain ⟨hphrase, hcall⟩ := scopes_isolated
  obtain ⟨hothers, hcurrent⟩ := hphrase 9 (.program .bindInside) 0 Session.start.store _ _ rfl
  obtain ⟨s, hs, ho, hk, hn⟩ := hcurrent ⟨[], none⟩ rfl
  have hz (name : String) (hne : s.get? name ≠ none) : name = "z" :=
    List.mem_singleton.1 (hn name hne)
  refine ⟨_, _, s, rfl, hs, ho, ?_, hz, _, _, rfl, ?_⟩
  · cases hs
    rfl
  · exact hcall 9 (.function ⟨⟨default, [], ⟨default, []⟩, 0⟩, 0⟩) [] _ _ _ rfl 0 s hs

end Monkey
