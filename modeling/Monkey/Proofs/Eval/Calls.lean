import Monkey.Proofs.Eval.Lookup
import Monkey.Proofs.Eval.Rules

/-!
  Monkey/Proofs/Eval/Calls.lean
  =============================
  **What a call sees, and what it leaves.**

  The body of a function runs in a new scope inside the one in which the function was
  made.  So it sees the arguments, and around them what is seen from there
  (`Store.Sees`).  This does not change while other scopes are opened (`Sees.of_intact`).

  Most expressions leave all scopes as they are.  Of these `σ.Computes e p v` says that `p`
  gives `v` in every store that has the scopes of `σ`, whatever others there are; and
  `σ.Answers callee vs v` says the same of calls.  The stores need not be named then, and
  one rule for each expression puts such statements together.  The rule for calls is
  `Answers.of_body`: a function answers what its body gives where the arguments are seen.
-/
namespace Monkey

namespace Store

variable {σ σ' τ : Store} {c e : ScopeId}

/-! ### Look-ups in a growing store -/

theorem Intact.lt (h : σ.Intact σ') (he : e < σ.scopes.size) : e < σ'.scopes.size :=
  (h.keepsLinks.outer? he).1

theorem Intact.scope?_eq_none (h : σ.Intact σ') (he : σ'.scope? e = none) : σ.scope? e = none := by
  refine Option.eq_none_iff_forall_ne_some.2 fun s hs => ?_
  exact Option.some_ne_none s ((h.scopes e s hs).symm.trans he)

/-- What is seen from a scope stays, whatever scopes are opened. -/
theorem Intact.lookup (h : σ.Intact σ') (he : e < σ.scopes.size) (name : String) :
    σ'.lookup e name = σ.lookup e name := by
  induction e using Nat.strongRecOn with
  | ind e ih =>
    obtain ⟨s, hs⟩ := exists_scope he
    have hb : σ'.binding? name e = σ.binding? name e := by
      rw [binding?, binding?, h.scopes e s hs, hs]
    rw [lookup_eq, lookup_eq, hb, (h.keepsLinks.outer? he).2]
    cases σ.outer? e with
    | none => rfl
    | some o =>
      by_cases ho : o < e
      · simp only [ho, if_true, ih o ho (Nat.lt_trans ho he)]
      · simp only [ho, if_false]

/-- A binding is seen from its own scope. -/
theorem lookup_define_self (he : e < σ.scopes.size) (name : String) (v : Value) (m : String) :
    (σ.define e name v).lookup e m = if m = name then some v else σ.lookup e m := by
  have hshows : σ.Shows e name e := by
    rw [Shows, chain]
    split
    · split
      · exact ⟨[], _, rfl, fun c hc => absurd hc List.not_mem_nil⟩
      · exact ⟨[], [], rfl, fun c hc => absurd hc List.not_mem_nil⟩
    · exact ⟨[], [], rfl, fun c hc => absurd hc List.not_mem_nil⟩
  obtain ⟨hnew, hold⟩ := lookup_define he name v e m
  by_cases hm : m = name
  · rw [if_pos hm, hnew ⟨hm, hshows⟩]
  · rw [if_neg hm, hold fun h => hm h.1]

/-- The scope `e` of `τ` is new since `σ`.  From there one sees what `bs` binds, the first
    binding of a name before the others, and around it what is seen from the scope `c`
    of `σ`. -/
structure Sees (σ : Store) (c : ScopeId) (bs : List (String × Value)) (τ : Store)
    (e : ScopeId) : Prop where
  intact : σ.Intact τ
  fresh : σ.scope? e = none
  lt : e < τ.scopes.size
  lookup : ∀ name, τ.lookup e name = (bs.lookup name).or (σ.lookup c name)

namespace Sees

variable {bs : List (String × Value)}

theorem lookup_bound (h : σ.Sees c bs τ e) {name : String} {v : Value}
    (hb : bs.lookup name = some v) : τ.lookup e name = some v := by
  rw [h.lookup, hb, Option.some_or]

theorem lookup_outside (h : σ.Sees c bs τ e) {name : String} (hn : ∀ b ∈ bs, name ≠ b.1) :
    τ.lookup e name = σ.lookup c name := by
  have hb : bs.lookup name = none := by
    refine List.lookup_eq_none_iff.2 fun b hb => ?_
    exact bne_iff_ne.2 (hn b hb)
  rw [h.lookup, hb, Option.none_or]

theorem of_intact (h : σ'.Sees c bs τ e) (hi : σ.Intact σ') (hc : c < σ.scopes.size) :
    σ.Sees c bs τ e where
  intact := hi.trans h.intact
  fresh := hi.scope?_eq_none h.fresh
  lt := h.lt
  lookup name := by rw [h.lookup, hi.lookup hc]

/-- What is seen from a scope inside another one. -/
theorem trans {bs' : List (String × Value)} {τ' : Store} {e' : ScopeId} (h : σ.Sees c bs τ e)
    (h' : τ.Sees e bs' τ' e') : σ.Sees c (bs' ++ bs) τ' e' where
  intact := h.intact.trans h'.intact
  fresh := h.intact.scope?_eq_none h'.fresh
  lt := h'.lt
  lookup name := by rw [h'.lookup, h.lookup, List.lookup_append, Option.or_assoc]

/-- A new scope has no bindings of its own. -/
theorem openScope (hc : c < σ.scopes.size) :
    σ.Sees c [] (σ.openScope (some c)).2 (σ.openScope (some c)).1 where
  intact := σ.intact_openScope _
  fresh := σ.scope?_openScope _
  lt := by
    rw [size_openScope]
    exact Nat.lt_succ_self _
  lookup name := by
    have hnew : (σ.openScope (some c)).2.scope? (σ.openScope (some c)).1 =
        some { bindings := [], outer := some c } := by
      simp only [scope?, Store.openScope, Array.getElem?_push_size]
    have ho : c < (σ.openScope (some c)).1 := hc
    rw [lookup_eq, binding?, outer?, hnew]
    simp only [Option.bind_some, ho, if_true]
    exact (σ.intact_openScope _).lookup hc name

theorem define (h : σ.Sees c bs τ e) (name : String) (v : Value) :
    σ.Sees c ((name, v) :: bs) (τ.define e name v) e where
  intact := ((Isolates.of_intact h.intact).define (List.mem_singleton.2 rfl) v).intact h.fresh
  fresh := h.fresh
  lt := by
    rw [size_define]
    exact h.lt
  lookup m := by
    rw [lookup_define_self h.lt, h.lookup, List.lookup_cons]
    by_cases hm : m = name
    · rw [if_pos hm, hm, beq_self_eq_true]
      rfl
    · rw [if_neg hm, beq_eq_false_iff_ne.2 hm]

/-- Binding arguments to parameters, the last one is bound last. -/
theorem bindParameters (h : σ.Sees c bs τ e) {ids : List Identifier} {vs : List Value}
    (hn : ids.length = vs.length) :
    ∃ τ', (Monkey.bindParameters e ids vs : Run Unit) τ = some ((), τ') ∧
      σ.Sees c (((ids.map Identifier.name).zip vs).reverse ++ bs) τ' e := by
  induction ids generalizing vs bs τ with
  | nil => exact ⟨τ, rfl, h⟩
  | cons id ids ih =>
    cases vs with
    | nil => cases hn
    | cons v vs =>
      obtain ⟨τ', hτ', hs⟩ := ih (h.define id.name v) (Nat.succ.inj hn)
      refine ⟨τ', hτ', ?_⟩
      rw [List.map_cons, List.zip_cons_cons, List.reverse_cons, List.append_assoc]
      exact hs

end Sees

/-! ### Phrases that leave all scopes as they are -/

/-- In every store with the scopes of `σ`, the phrase gives `v`, which is no signal, and
    leaves all scopes as they are. -/
structure Computes (σ : Store) (e : ScopeId) (p : Phrase) (v : Value) : Prop where
  isSignal : v.isSignal = false
  gives : ∀ τ, σ.Intact τ → ∃ τ', τ.Gives e p v τ' ∧ τ.Intact τ'

/-- In every store with the scopes of `σ`, the call gives `v`, which is no signal, and
    leaves all scopes as they are. -/
structure Answers (σ : Store) (callee : Value) (vs : List Value) (v : Value) : Prop where
  isSignal : v.isSignal = false
  ends : ∀ τ, σ.Intact τ → ∃ τ', Run.Ends (fun n => callStep (eval n) callee vs) τ v τ' ∧
    τ.Intact τ'

/-- Expressions and what they compute. -/
inductive ComputesAll (σ : Store) (e : ScopeId) : List Expr → List Value → Prop where
  | nil : ComputesAll σ e [] []
  | cons {x : Expr} {xs : List Expr} {v : Value} {vs : List Value}
      (h : σ.Computes e (.expression x) v) (hs : ComputesAll σ e xs vs) :
      ComputesAll σ e (x :: xs) (v :: vs)

theorem Answers.of_intact {callee v : Value} {vs : List Value} (h : σ.Answers callee vs v)
    (hi : σ.Intact σ') : σ'.Answers callee vs v where
  isSignal := h.isSignal
  ends τ hτ := h.ends τ (hi.trans hτ)

theorem unwrapReturn_of_isSignal {v : Value} (h : v.isSignal = false) : v.unwrapReturn = v := by
  cases v with
  | returned => cases h
  | _ => rfl

/-- A function answers what its body gives where the arguments are seen. -/
theorem Answers.of_body {literal : FunctionLiteral} {vs : List Value} {v : Value}
    (hv : v.isSignal = false) (hc : c < σ.scopes.size)
    (hn : literal.parameters.length = vs.length)
    (hbody : ∀ τ e, σ.Sees c ((literal.parameters.map Identifier.name).zip vs).reverse τ e →
      ∃ τ', τ.Gives e (.block literal.body) v τ') :
    σ.Answers (.function ⟨literal, c⟩) vs v where
  isSignal := hv
  ends τ hτ := by
    obtain ⟨τ₁, hbind, hsees⟩ := (Sees.openScope (hτ.lt hc)).bindParameters hn
    rw [List.append_nil] at hsees
    obtain ⟨τ', hgives⟩ := hbody τ₁ _ (hsees.of_intact hτ hc)
    have hends : Run.Ends (fun n => callStep (eval n) (.function ⟨literal, c⟩) vs) τ v τ' := by
      have hopen : Run.Ends (fun _ => (liftM (Run.openScope (some c)) : Run ScopeId)) τ
          (τ.openScope (some c)).1 (τ.openScope (some c)).2 := ⟨0, fun _ _ => rfl⟩
      simp only [callStep, hn, if_true]
      refine hopen.bind (Run.Ends.bind ⟨0, fun _ _ => hbind⟩ (Run.Ends.bind hgives ?_))
      rw [unwrapReturn_of_isSignal hv]
      exact .pure v
    obtain ⟨n, hends'⟩ := hends
    have hi := intact_callStep (fun p e => isolates_eval n p e (List.Subset.refl _) τ) _ _ τ v τ'
      (.refl τ) (hends' n (Nat.le_refl n))
    exact ⟨τ', ⟨n, hends'⟩, hi.1⟩

/-- The other built-in functions do not print. -/
theorem Answers.builtin {b : Builtin} {vs : List Value} (hb : b ≠ .puts)
    (hv : (b.result vs).isSignal = false) : σ.Answers (.builtin b) vs (b.result vs) where
  isSignal := hv
  ends τ _ := by
    have hp (o : Enumeration) : b.printed vs o = "" := by
      cases b with
      | puts => exact absurd rfl hb
      | _ => rfl
    refine ⟨τ, ⟨0, fun n _ => ?_⟩, .refl τ⟩
    change some (b.result vs, τ.print (b.printed vs τ.enumeration)) = _
    rw [hp, print, String.append_empty]

theorem ComputesAll.givesAll {xs : List Expr} {vs : List Value} (h : σ.ComputesAll e xs vs)
    (hτ : σ.Intact τ) : ∃ τ', GivesAll e τ xs vs τ' ∧ τ.Intact τ' := by
  induction h generalizing τ with
  | nil => exact ⟨τ, .nil, .refl τ⟩
  | cons hx _ ih =>
    obtain ⟨τ₁, hg, h₁⟩ := hx.gives τ hτ
    obtain ⟨τ', hgs, h'⟩ := ih (hτ.trans h₁)
    exact ⟨τ', .cons hg hx.isSignal hgs, h₁.trans h'⟩

namespace Computes

variable {v w : Value}

/-- What changes no store. -/
theorem of_gives {p : Phrase} (hv : v.isSignal = false)
    (h : ∀ τ, σ.Intact τ → τ.Gives e p v τ) : σ.Computes e p v where
  isSignal := hv
  gives τ hτ := ⟨τ, h τ hτ, .refl τ⟩

theorem integer (t : Token) (i : Int64) : σ.Computes e (.expression (.integer t i)) (.integer i) :=
  of_gives rfl fun _ _ => .integer t i

theorem function (literal : FunctionLiteral) :
    σ.Computes e (.expression (.function literal)) (.function ⟨literal, e⟩) :=
  of_gives rfl fun _ _ => .function literal

theorem identifier {id : Identifier} (he : e < σ.scopes.size) (h : σ.lookup e id.name = some v)
    (hv : v.isSignal = false) : σ.Computes e (.expression (.identifier id)) v :=
  of_gives hv fun _ hτ => .identifier ((hτ.lookup he id.name).trans h)

theorem builtin {id : Identifier} {b : Builtin} (he : e < σ.scopes.size)
    (h : σ.lookup e id.name = none) (hb : id.name = b.name) :
    σ.Computes e (.expression (.identifier id)) (.builtin b) :=
  of_gives rfl fun _ hτ => .builtin ((hτ.lookup he id.name).trans h) hb

theorem array {xs : List Expr} {vs : List Value} (t : Token) (h : σ.ComputesAll e xs vs) :
    σ.Computes e (.expression (.array t xs)) (.array vs) where
  isSignal := rfl
  gives τ hτ := by
    obtain ⟨τ', hg, h'⟩ := h.givesAll hτ
    exact ⟨τ', .array t hg, h'⟩

theorem infixOp {left right : Expr} {a b : Value} (t : Token) (op : InfixOperator)
    (ha : σ.Computes e (.expression left) a) (hb : σ.Computes e (.expression right) b)
    (hv : (op.apply a b).isSignal = false) :
    σ.Computes e (.expression (.infixOp t left op right)) (op.apply a b) where
  isSignal := hv
  gives τ hτ := by
    obtain ⟨τ₁, hl, h₁⟩ := ha.gives τ hτ
    obtain ⟨τ', hr, h'⟩ := hb.gives τ₁ (hτ.trans h₁)
    exact ⟨τ', .infixOp t op hl ha.isSignal hr hb.isSignal, h₁.trans h'⟩

theorem consequence {condition : Expr} {b : Block} {alternative : Option Block} (t : Token)
    (hw : σ.Computes e (.expression condition) w) (ht : w.isTruthy = true)
    (hb : σ.Computes e (.block b) v) :
    σ.Computes e (.expression (.cond t condition b alternative)) v where
  isSignal := hb.isSignal
  gives τ hτ := by
    obtain ⟨τ₁, hcond, h₁⟩ := hw.gives τ hτ
    obtain ⟨τ', hblock, h'⟩ := hb.gives τ₁ (hτ.trans h₁)
    exact ⟨τ', .consequence t hcond hw.isSignal ht hblock, h₁.trans h'⟩

theorem alternative {condition : Expr} {b d : Block} (t : Token)
    (hw : σ.Computes e (.expression condition) w) (ht : w.isTruthy = false)
    (hd : σ.Computes e (.block d) v) :
    σ.Computes e (.expression (.cond t condition b (some d))) v where
  isSignal := hd.isSignal
  gives τ hτ := by
    obtain ⟨τ₁, hcond, h₁⟩ := hw.gives τ hτ
    obtain ⟨τ', hblock, h'⟩ := hd.gives τ₁ (hτ.trans h₁)
    exact ⟨τ', .alternative t hcond hw.isSignal ht hblock, h₁.trans h'⟩

/-- A block of one expression. -/
theorem block {x : Expr} (t k : Token) (h : σ.Computes e (.expression x) v) :
    σ.Computes e (.block ⟨t, [.expression k x]⟩) v where
  isSignal := h.isSignal
  gives τ hτ := by
    obtain ⟨τ', hx, h'⟩ := h.gives τ hτ
    exact ⟨τ', Gives.block (Gives.lastStatement (.expression k hx)), h'⟩

theorem call {callee : Expr} {f : Value} {xs : List Expr} {vs : List Value} (t : Token)
    (hf : σ.Computes e (.expression callee) f)
    (hxs : σ.ComputesAll e xs vs)
    (h : σ.Answers f vs v) : σ.Computes e (.expression (.call t callee xs)) v where
  isSignal := h.isSignal
  gives τ hτ := by
    obtain ⟨τ₁, hcallee, h₁⟩ := hf.gives τ hτ
    obtain ⟨τ₂, hall, h₂⟩ := hxs.givesAll (hτ.trans h₁)
    obtain ⟨τ', hends, h'⟩ := h.ends τ₂ (hτ.trans (h₁.trans h₂))
    exact ⟨τ', .call t hcallee hf.isSignal hall hends, h₁.trans (h₂.trans h')⟩

end Computes

/-- A function whose body leaves all scopes as they are. -/
theorem Answers.of_computes {literal : FunctionLiteral} {vs : List Value} {v : Value}
    (hv : v.isSignal = false) (hc : c < σ.scopes.size)
    (hn : literal.parameters.length = vs.length)
    (hbody : ∀ τ e, σ.Sees c ((literal.parameters.map Identifier.name).zip vs).reverse τ e →
      τ.Computes e (.block literal.body) v) :
    σ.Answers (.function ⟨literal, c⟩) vs v := by
  refine .of_body hv hc hn fun τ e hs => ?_
  obtain ⟨τ', hgives, -⟩ := (hbody τ e hs).gives τ (.refl τ)
  exact ⟨τ', hgives⟩

end Store

end Monkey
