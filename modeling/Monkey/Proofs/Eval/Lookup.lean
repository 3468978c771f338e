import Monkey.Proofs.Eval.Scoping

/-!
  Monkey/Proofs/Eval/Lookup.lean
  ==============================
  **Lexical scoping.**

  A store is used by opening scopes, binding names, evaluating and calling
  (`Store.Step`).  None of this moves a scope that is there into another one
  (`Step.keepsLinks`), and every scope lies in an older one (`Step.wellScoped`).

  So the way outward from a scope ends (`WellScoped.isChain`), and looking a name up
  is going that way to the first scope that binds the name (`lookup_eq_findSome?`).
  What a new binding changes can be read off the way: it is seen from a scope if the
  way leads to it and nothing in between binds the name (`lookup_define`).
-/
namespace Monkey

namespace Store

/-! ### Using a store -/

/-- One use of a store.  A value that is handed in refers to scopes of the store. -/
inductive Step (σ : Store) : Store → Prop where
  | root : Step σ (σ.openScope none).2
  | enclosed {e : ScopeId} (he : e < σ.scopes.size) : Step σ (σ.openScope (some e)).2
  | define {e : ScopeId} {v : Value} (he : e < σ.scopes.size) (name : String)
      (hv : v.Within σ.scopes.size) : Step σ (σ.define e name v)
  | evaluate {limit : Nat} {p : Phrase} {e : ScopeId} {v : Value} {σ' : Store}
      (he : e < σ.scopes.size) (h : σ.evaluate limit p e = some (v, σ')) : Step σ σ'
  | call {limit : Nat} {callee v : Value} {arguments : List Value} {σ' : Store}
      (hc : callee.Within σ.scopes.size) (ha : ∀ a ∈ arguments, a.Within σ.scopes.size)
      (h : callStep (eval limit) callee arguments σ = some (v, σ')) : Step σ σ'
  | load (p : Program) : Step σ (σ.load p).2
  | takeOutput : Step σ σ.takeOutput.2

/-- What a store may become. -/
inductive Reaches (σ : Store) : Store → Prop where
  | here : Reaches σ σ
  | step {τ τ' : Store} (h : Reaches σ τ) (hs : τ.Step τ') : Reaches σ τ'

/-- The scopes of the first store are in the second one, and lie where they lay. -/
def KeepsLinks (σ σ' : Store) : Prop :=
  ∀ e s, σ.scope? e = some s → ∃ s', σ'.scope? e = some s' ∧ s'.outer = s.outer

theorem KeepsLinks.refl (σ : Store) : σ.KeepsLinks σ :=
  fun _ s hs => ⟨s, hs, rfl⟩

theorem KeepsLinks.trans {σ σ' σ'' : Store} (h : σ.KeepsLinks σ') (h' : σ'.KeepsLinks σ'') :
    σ.KeepsLinks σ'' := by
  intro e s hs
  obtain ⟨s', hs', ho⟩ := h e s hs
  obtain ⟨s'', hs'', ho'⟩ := h' e s' hs'
  exact ⟨s'', hs'', ho'.trans ho⟩

theorem Intact.keepsLinks {σ σ' : Store} (h : σ.Intact σ') : σ.KeepsLinks σ' :=
  fun e s hs => ⟨s, h.scopes e s hs, rfl⟩

theorem Isolates.keepsLinks {σ σ' : Store} {e : ScopeId} {names : List String}
    (h : σ.Isolates e names σ') : σ.KeepsLinks σ' := by
  intro i s hs
  by_cases hi : i = e
  · subst hi
    obtain ⟨s', hs', ho, -⟩ := h.current s hs
    exact ⟨s', hs', ho⟩
  · exact ⟨s, h.others i s hi hs, rfl⟩

theorem exists_scope {σ : Store} {e : ScopeId} (he : e < σ.scopes.size) :
    ∃ s, σ.scope? e = some s :=
  ⟨σ.scopes[e], Array.getElem?_eq_getElem he⟩

theorem KeepsLinks.outer? {σ σ' : Store} (h : σ.KeepsLinks σ') {e : ScopeId}
    (he : e < σ.scopes.size) : e < σ'.scopes.size ∧ σ'.outer? e = σ.outer? e := by
  obtain ⟨s, hs⟩ := exists_scope he
  obtain ⟨s', hs', ho⟩ := h e s hs
  refine ⟨(Array.getElem?_eq_some_iff.1 hs').1, ?_⟩
  rw [Store.outer?, Store.outer?, hs, hs']
  exact ho

/-- No use of a store moves a scope into another one. -/
theorem Step.keepsLinks {σ σ' : Store} (h : σ.Step σ') : σ.KeepsLinks σ' := by
  cases h with
  | root => exact (σ.intact_openScope none).keepsLinks
  | enclosed => exact (σ.intact_openScope _).keepsLinks
  | @define e v _ name _ =>
    have hd : σ.Isolates e [name] (σ.define e name v) :=
      (Isolates.of_intact (.refl σ)).define List.mem_cons_self v
    exact hd.keepsLinks
  | @evaluate limit p e v _ _ h =>
    have hi := isolates_eval limit p e (List.Subset.refl _) σ σ v σ' (.of_intact (.refl σ)) h
    exact hi.1.keepsLinks
  | @call limit callee v arguments _ _ _ h =>
    have hc := intact_callStep (fun p e => isolates_eval limit p e (List.Subset.refl _) σ)
      callee arguments σ v σ' (.refl σ) h
    exact hc.1.keepsLinks
  | load p => exact .refl _
  | takeOutput => exact .refl _

/-- Every use of a store leaves every scope in an older one. -/
theorem Step.wellScoped {σ σ' : Store} (h : σ.Step σ') (hσ : σ.WellScoped) : σ'.WellScoped := by
  cases h with
  | root =>
    apply hσ.openScope
    rintro o ⟨⟩
  | @enclosed e he =>
    apply hσ.openScope
    rintro o ⟨⟩
    exact he
  | define he name hv => exact hσ.define _ name hv
  | @evaluate limit p e v _ he h => exact (scoped_eval limit p he σ v σ' hσ (Nat.le_refl _) h).1
  | @call limit callee v arguments _ hc ha h =>
    have hr : (callStep (eval limit) callee arguments).Scoped σ.scopes.size Value.Within :=
      .callStep (fun m p e he => scoped_eval limit p he) hc ha
    exact (hr σ v σ' hσ (Nat.le_refl _) h).1
  | load p => exact hσ.congr rfl
  | takeOutput => exact hσ.congr rfl

theorem Reaches.keepsLinks {σ σ' : Store} (h : σ.Reaches σ') : σ.KeepsLinks σ' := by
  induction h with
  | here => exact .refl σ
  | step _ hs ih => exact ih.trans hs.keepsLinks

theorem Reaches.wellScoped {σ σ' : Store} (h : σ.Reaches σ') (hσ : σ.WellScoped) :
    σ'.WellScoped := by
  induction h with
  | here => exact hσ
  | step _ hs ih => exact hs.wellScoped ih

/-! ### The way outward -/

/-- What a scope itself binds to a name. -/
def binding? (σ : Store) (name : String) (e : ScopeId) : Option Value :=
  (σ.scope? e).bind (·.get? name)

/-- The scopes from one outward to the last, by their links alone. -/
inductive IsChain (σ : Store) : ScopeId → List ScopeId → Prop where
  | last {e : ScopeId} (h : σ.outer? e = none) : IsChain σ e [e]
  | more {e o : ScopeId} {es : List ScopeId} (h : σ.outer? e = some o) (hs : IsChain σ o es) :
      IsChain σ e (e :: es)

/-- Looking a name up from one scope outward, by their links alone. -/
inductive Gets (σ : Store) (name : String) : ScopeId → Option Value → Prop where
  | found {e : ScopeId} {v : Value} (h : σ.binding? name e = some v) : Gets σ name e (some v)
  | outward {e o : ScopeId} {r : Option Value} (h : σ.binding? name e = none)
      (ho : σ.outer? e = some o) (hr : Gets σ name o r) : Gets σ name e r
  | missing {e : ScopeId} (h : σ.binding? name e = none) (ho : σ.outer? e = none) :
      Gets σ name e none

variable {σ : Store}

theorem IsChain.unique {e : ScopeId} {es fs : List ScopeId} (h : σ.IsChain e es)
    (h' : σ.IsChain e fs) : es = fs := by
  induction h generalizing fs with
  | last ho =>
    cases h' with
    | last => rfl
    | more ho' =>
      rw [ho] at ho'
      cases ho'
  | more ho _ ih =>
    cases h' with
    | last ho' =>
      rw [ho] at ho'
      cases ho'
    | more ho' h' =>
      rw [ho] at ho'
      cases ho'
      rw [ih h']

theorem WellScoped.outer?_lt (h : σ.WellScoped) {e o : ScopeId} (ho : σ.outer? e = some o) :
    o < e := by
  obtain ⟨s, hs, ho⟩ := Option.bind_eq_some_iff.1 ho
  exact h.outer e s o hs ho

/-- The way outward ends. -/
theorem WellScoped.isChain (h : σ.WellScoped) (e : ScopeId) : σ.IsChain e (σ.chain e) := by
  fun_induction Store.chain σ e with
  | case1 e o ho hlt ih => exact .more ho ih
  | case2 e o ho hlt => exact absurd (h.outer?_lt ho) hlt
  | case3 e ho => exact .last ho

/-- One step of a look-up. -/
theorem lookup_eq (σ : Store) (e : ScopeId) (name : String) :
    σ.lookup e name = (σ.binding? name e).or
      (match σ.outer? e with
      | some o => if o < e then σ.lookup o name else none
      | none => none) := by
  rw [lookup, binding?, outer?]
  cases σ.scope? e with
  | none => rfl
  | some s =>
    simp only [Option.bind_some]
    cases s.get? name with
    | none => rfl
    | some v => rfl

/-- Looking a name up is going outward to the first scope that binds it. -/
theorem lookup_eq_findSome? (σ : Store) (e : ScopeId) (name : String) :
    σ.lookup e name = (σ.chain e).findSome? (σ.binding? name) := by
  fun_induction Store.chain σ e with
  | case1 e o ho hlt ih =>
    rw [lookup_eq, ho, List.findSome?_cons, ← ih]
    simp only [hlt, if_true]
    cases σ.binding? name e <;> rfl
  | case2 e o ho hlt =>
    rw [lookup_eq, ho, List.findSome?_singleton]
    simp only [hlt, if_false, Option.or_none]
  | case3 e ho => rw [lookup_eq, ho, List.findSome?_singleton, Option.or_none]

/-- Looking a name up ends, even where it is done by the links alone. -/
theorem WellScoped.gets (h : σ.WellScoped) (name : String) (e : ScopeId) :
    σ.Gets name e (σ.lookup e name) := by
  fun_induction Store.chain σ e with
  | case1 e o ho hlt ih =>
    rw [lookup_eq, ho]
    cases hb : σ.binding? name e with
    | some v => exact .found hb
    | none =>
      simp only [hlt, if_true, Option.none_or]
      exact .outward hb ho ih
  | case2 e o ho hlt => exact absurd (h.outer?_lt ho) hlt
  | case3 e ho =>
    rw [lookup_eq, ho]
    cases hb : σ.binding? name e with
    | some v => exact .found hb
    | none => exact .missing hb ho

/-! ### Binding a name -/

/-- A binding of a name in the scope `d` is seen from the scope `e`: the way outward leads
    to `d`, and no scope before it binds the name. -/
def Shows (σ : Store) (d : ScopeId) (name : String) (e : ScopeId) : Prop :=
  ∃ inner outer, σ.chain e = inner ++ d :: outer ∧ ∀ c ∈ inner, σ.binding? name c = none

theorem outer?_define (σ : Store) (d : ScopeId) (name : String) (v : Value) (e : ScopeId) :
    (σ.define d name v).outer? e = σ.outer? e := by
  rw [outer?, outer?]
  by_cases he : e = d
  · subst he
    rw [scope?_define]
    cases σ.scope? e <;> rfl
  · rw [scope?_define_of_ne he]

theorem chain_define (σ : Store) (d : ScopeId) (name : String) (v : Value) (e : ScopeId) :
    (σ.define d name v).chain e = σ.chain e := by
  fun_induction Store.chain σ e with
  | case1 e o ho hlt ih =>
    rw [chain, outer?_define, ho]
    simp only [hlt, if_true, ih]
  | case2 e o ho hlt =>
    rw [chain, outer?_define, ho]
    simp only [hlt, if_false]
  | case3 e ho => rw [chain, outer?_define, ho]

theorem binding?_define {d : ScopeId} (hd : d < σ.scopes.size) (name : String) (v : Value)
    (m : String) (e : ScopeId) : (σ.define d name v).binding? m e =
      if e = d ∧ m = name then some v else σ.binding? m e := by
  rw [binding?, binding?]
  by_cases he : e = d
  · subst he
    obtain ⟨s, hs⟩ := exists_scope hd
    rw [scope?_define, hs]
    simp only [Option.map_some, Option.bind_some, Scope.get?_define, true_and]
  · rw [scope?_define_of_ne he, if_neg fun h => he h.1]

variable {f : ScopeId → Option Value} {d : ScopeId} {v : Value}

theorem findSome?_of_shows {inner outer : List ScopeId} (h : ∀ c ∈ inner, f c = none) :
    (inner ++ d :: outer).findSome? (fun c => if c = d then some v else f c) = some v := by
  induction inner with
  | nil => rw [List.nil_append, List.findSome?_cons, if_pos rfl]
  | cons c inner ih =>
    obtain ⟨hc, hinner⟩ := List.forall_mem_cons.1 h
    rw [List.cons_append, List.findSome?_cons]
    by_cases hd : c = d
    · rw [if_pos hd]
    · rw [if_neg hd, hc]
      exact ih hinner

theorem findSome?_of_not_shows {es : List ScopeId}
    (h : ¬ ∃ inner outer, es = inner ++ d :: outer ∧ ∀ c ∈ inner, f c = none) :
    es.findSome? (fun c => if c = d then some v else f c) = es.findSome? f := by
  induction es with
  | nil => rfl
  | cons c es ih =>
    have hd : c ≠ d := by
      rintro rfl
      exact h ⟨[], es, rfl, fun x hx => absurd hx List.not_mem_nil⟩
    rw [List.findSome?_cons, List.findSome?_cons, if_neg hd]
    cases hc : f c with
    | some w => rfl
    | none =>
      apply ih
      rintro ⟨inner, outer, rfl, hinner⟩
      exact h ⟨c :: inner, outer, rfl, List.forall_mem_cons.2 ⟨hc, hinner⟩⟩

/-- A new binding is seen from the scopes from which it shows, and nothing else changes. -/
theorem lookup_define (hd : d < σ.scopes.size) (name : String) (v : Value) (e : ScopeId)
    (m : String) :
    (m = name ∧ σ.Shows d name e → (σ.define d name v).lookup e m = some v) ∧
      (¬ (m = name ∧ σ.Shows d name e) → (σ.define d name v).lookup e m = σ.lookup e m) := by
  rw [lookup_eq_findSome?, lookup_eq_findSome?, chain_define, funext (binding?_define hd name v m)]
  by_cases hm : m = name
  · subst hm
    simp only [true_and, and_true]
    constructor
    · rintro ⟨inner, outer, hc, hinner⟩
      rw [hc]
      exact findSome?_of_shows hinner
    · exact findSome?_of_not_shows
  · simp only [hm, and_false, false_and, if_false]
    exact ⟨False.elim, fun _ => trivial⟩

/-- **Scopes are lexical.**  Let a store come about by opening scopes, binding names,
    evaluating and calling.  Then every scope lies in an older one, if in any, and goes on
    to lie there whatever becomes of the store.  So the way outward from a scope ends,
    and so does looking a name up, which gives what the first scope on the way binds to
    the name, if one does.  And a new binding changes what is found from those scopes
    from which it shows, and for its own name. -/
theorem lexical_of_reaches {order : Enumeration} {σ : Store} (h : (empty order).Reaches σ) :
    (∀ e o, σ.outer? e = some o → o < e) ∧
      (∀ σ', σ.Reaches σ' → ∀ e, e < σ.scopes.size →
        e < σ'.scopes.size ∧ σ'.outer? e = σ.outer? e) ∧
      (∀ e, σ.IsChain e (σ.chain e)) ∧
      (∀ e name, σ.Gets name e (σ.lookup e name) ∧
        σ.lookup e name = (σ.chain e).findSome? (σ.binding? name)) ∧
      ∀ d, d < σ.scopes.size → ∀ name v e m,
        (m = name ∧ σ.Shows d name e → (σ.define d name v).lookup e m = some v) ∧
        (¬ (m = name ∧ σ.Shows d name e) →
          (σ.define d name v).lookup e m = σ.lookup e m) := by
  have hw := h.wellScoped (wellScoped_empty order)
  refine ⟨?_, ?_, ?_, ?_, ?_⟩
  · intro e o ho
    exact hw.outer?_lt ho
  · intro σ' hr e he
    exact hr.keepsLinks.outer? he
  · exact hw.isChain
  · intro e name
    exact ⟨hw.gets name e, σ.lookup_eq_findSome? e name⟩
  · intro d hd name v e m
    exact lookup_define hd name v e m

/-- The statement `let y = fn(x) { 3 }(5);`. -/
def callInside : Statement :=
  let body : Block := ⟨default, [.expression default (.integer default 3)]⟩
  .letBind default ⟨default, "y"⟩
    (.call default (.function ⟨default, [⟨default, "x"⟩], body, 0⟩) [.integer default 5])

/-- A root scope that binds `a`, and a scope inside it. -/
def twoScopes : Store :=
  (((empty .stored).openScope none).2.openScope (some 0)).2.define 0 "a" (.integer 1)

theorem reaches_twoScopes : (empty .stored).Reaches twoScopes := by
  have hroot : (empty .stored).Reaches ((empty .stored).openScope none).2 := .step .here .root
  have hinner := hroot.step (.enclosed (e := 0) (by decide))
  exact hinner.step (.define (by decide) "a" (.integer 1))

/-- The call opens a third scope.  Binding `a` anew in the root is seen from there, and does
    not change what `x` is. -/
theorem lexical_callInside :
    ∃ v σ, twoScopes.evaluate 9 (.statement callInside) 1 = some (v, σ) ∧ (empty .stored).Reaches σ ∧
      1 < 2 ∧ σ.IsChain 2 [2, 1, 0] ∧ σ.Gets "a" 2 (some (.integer 1)) ∧
      (σ.define 0 "a" (.integer 7)).lookup 2 "a" = some (.integer 7) ∧
      (σ.define 0 "a" (.integer 7)).lookup 2 "x" = σ.lookup 2 "x" ∧
      ∀ σ', σ.Reaches σ' → σ'.outer? 2 = some 1 := by
  have he : twoScopes.evaluate 9 (.statement callInside) 1 = some (_, _) := rfl
  have hr := reaches_twoScopes.step (.evaluate (by decide) he)
  obtain ⟨hlt, hlinks, hchain, hlookup, hdefine⟩ := lexical_of_reaches hr
  have hc := (hchain 2).unique (.more rfl (.more rfl (.last rfl)))
  refine ⟨_, _, he, hr, hlt 2 1 rfl, hc ▸ hchain 2, ?_, ?_, ?_, ?_⟩
  · exact .outward rfl rfl (.outward rfl rfl (.found rfl))
  · refine (hdefine 0 (by decide) "a" (.integer 7) 2 "a").1 ⟨rfl, [2, 1], [], hc, ?_⟩
    decide
  · exact (hdefine 0 (by decide) "a" (.integer 7) 2 "x").2 fun h => absurd h.1 (by decide)
  · intro σ' hr'
    exact (hlinks σ' hr' 2 (by decide)).2

end Store

end Monkey
