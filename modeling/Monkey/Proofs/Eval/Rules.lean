import Monkey.Proofs.Eval.Bound

/-!
  Monkey/Proofs/Eval/Rules.lean
  =============================
  **The rules of evaluation, without bounds.**

  One rule for each expression and statement says what it gives, provided that what it
  asks for gives values that are no signals.  Where values come out of a conditional or a
  block they may be signals too, since there they are not used.
-/
namespace Monkey

namespace Store

variable {σ σ₁ σ₂ σ' : Store} {e : ScopeId} {a b v w : Value}

/-- Expressions evaluated from left to right; none of their values is a signal. -/
inductive GivesAll (e : ScopeId) : Store → List Expr → List Value → Store → Prop where
  | nil {σ : Store} : GivesAll e σ [] [] σ
  | cons {σ σ₁ σ' : Store} {x : Expr} {xs : List Expr} {v : Value} {vs : List Value}
      (h : σ.Gives e (.expression x) v σ₁) (hv : v.isSignal = false)
      (hs : GivesAll e σ₁ xs vs σ') : GivesAll e σ (x :: xs) (v :: vs) σ'

theorem GivesAll.proceedAll {xs : List Expr} {vs : List Value} (h : GivesAll e σ xs vs σ₁)
    {use : Nat → List Value → Run Value} (hu : Run.Ends (fun n => use n vs) σ₁ w σ') :
    Run.Ends (fun n => Monkey.proceedAll (fun x => eval n (.expression x) e) xs (use n))
      σ w σ' := by
  induction h generalizing use with
  | nil => exact hu
  | cons h hv _ ih => exact h.proceed hv (ih hu)

namespace Gives

/-! ### Expressions -/

theorem integer (t : Token) (i : Int64) :
    σ.Gives e (.expression (.integer t i)) (.integer i) σ :=
  Run.Ends.gives (.pure _)

theorem boolean (t : Token) (b : Bool) :
    σ.Gives e (.expression (.boolean t b)) (.boolean b) σ :=
  Run.Ends.gives (.pure _)

theorem function (literal : FunctionLiteral) :
    σ.Gives e (.expression (.function literal)) (.function ⟨literal, e⟩) σ :=
  Run.Ends.gives (.pure _)

theorem lookup (e : ScopeId) (name : String) :
    Run.Ends (fun _ => (liftM (Run.lookup e name) : Run (Option Value))) σ (σ.lookup e name) σ :=
  ⟨0, fun _ _ => rfl⟩

/-- A variable that is bound in some scope. -/
theorem identifier {id : Identifier} (h : σ.lookup e id.name = some v) :
    σ.Gives e (.expression (.identifier id)) v σ := by
  refine Run.Ends.gives ((lookup e id.name).bind ?_)
  simp only [h]
  exact .pure v

/-- A variable that is bound nowhere and names a built-in function. -/
theorem builtin {id : Identifier} {f : Builtin} (h : σ.lookup e id.name = none)
    (hf : id.name = f.name) : σ.Gives e (.expression (.identifier id)) (.builtin f) σ := by
  rw [hf] at h
  refine Run.Ends.gives ((lookup e id.name).bind ?_)
  simp only [hf, h, Builtin.ofName?_name]
  exact .pure _

theorem array {xs : List Expr} {vs : List Value} (t : Token) (h : GivesAll e σ xs vs σ') :
    σ.Gives e (.expression (.array t xs)) (.array vs) σ' :=
  Run.Ends.gives (h.proceedAll (.pure _))

theorem prefixOp {right : Expr} (t : Token) (op : PrefixOperator)
    (h : σ.Gives e (.expression right) v σ') (hv : v.isSignal = false) :
    σ.Gives e (.expression (.prefixOp t op right)) (op.apply v) σ' :=
  Run.Ends.gives (h.proceed hv (.pure _))

theorem infixOp {left right : Expr} (t : Token) (op : InfixOperator)
    (ha : σ.Gives e (.expression left) a σ₁) (hsa : a.isSignal = false)
    (hb : σ₁.Gives e (.expression right) b σ') (hsb : b.isSignal = false) :
    σ.Gives e (.expression (.infixOp t left op right)) (op.apply a b) σ' :=
  Run.Ends.gives (ha.proceed hsa (hb.proceed hsb (.pure _)))

/-- A conditional whose condition holds. -/
theorem consequence {condition : Expr} {b : Block} {alternative : Option Block} (t : Token)
    (hc : σ.Gives e (.expression condition) a σ₁) (hs : a.isSignal = false)
    (ht : a.isTruthy = true) (hb : σ₁.Gives e (.block b) v σ') :
    σ.Gives e (.expression (.cond t condition b alternative)) v σ' := by
  refine Run.Ends.gives (hc.proceed hs ?_)
  simp only [ht, if_true]
  exact hb

/-- A conditional whose condition does not hold, with an `else`. -/
theorem alternative {condition : Expr} {b c : Block} (t : Token)
    (hc : σ.Gives e (.expression condition) a σ₁) (hs : a.isSignal = false)
    (ht : a.isTruthy = false) (hb : σ₁.Gives e (.block c) v σ') :
    σ.Gives e (.expression (.cond t condition b (some c))) v σ' := by
  refine Run.Ends.gives (hc.proceed hs ?_)
  simp only [ht, Bool.false_eq_true, if_false]
  exact hb

theorem call {callee : Expr} {xs : List Expr} {vs : List Value} (t : Token)
    (hf : σ.Gives e (.expression callee) a σ₁) (hs : a.isSignal = false)
    (ha : GivesAll e σ₁ xs vs σ₂) (hc : Run.Ends (fun n => callStep (eval n) a vs) σ₂ v σ') :
    σ.Gives e (.expression (.call t callee xs)) v σ' :=
  Run.Ends.gives (hf.proceed hs (ha.proceedAll hc))

/-! ### Statements -/

theorem expression {x : Expr} (t : Token) (h : σ.Gives e (.expression x) v σ') :
    σ.Gives e (.statement (.expression t x)) v σ' :=
  Run.Ends.gives h

theorem letBind {x : Expr} (t : Token) (id : Identifier) (h : σ.Gives e (.expression x) v σ')
    (hv : v.isSignal = false) :
    σ.Gives e (.statement (.letBind t id x)) .null (σ'.define e id.name v) :=
  Run.Ends.gives (h.proceed hv (Run.Ends.bind ⟨0, fun _ _ => rfl⟩ (.pure _)))

/-! ### Blocks and programs -/

/-- The value of the last statement is the value, whatever it is. -/
theorem lastStatement {s : Statement} {last : Value} (h : σ.Gives e (.statement s) v σ') :
    Run.Ends (fun n => runStatements (fun s => eval n (.statement s) e) last [s]) σ v σ' := by
  refine Run.Ends.bind h ?_
  by_cases hv : v.isSignal = true
  · simp only [hv, if_true]
    exact .pure v
  · simp only [hv]
    exact .pure v

theorem nextStatement {s : Statement} {ss : List Statement} {last : Value}
    (h : σ.Gives e (.statement s) a σ₁) (hs : a.isSignal = false)
    (hss : Run.Ends (fun n => runStatements (fun s => eval n (.statement s) e) a ss) σ₁ v σ') :
    Run.Ends (fun n => runStatements (fun s => eval n (.statement s) e) last (s :: ss)) σ v σ' :=
  Run.Ends.proceed h hs hss

theorem block {b : Block}
    (h : Run.Ends (fun n => runStatements (fun s => eval n (.statement s) e) .null b.statements)
      σ v σ') : σ.Gives e (.block b) v σ' :=
  Run.Ends.gives h

theorem program {p : Program}
    (h : Run.Ends (fun n => runStatements (fun s => eval n (.statement s) e) .null p.statements)
      σ v σ') : σ.Gives e (.program p) v.unwrapReturn σ' :=
  Run.Ends.gives (h.bind (.pure _))

end Gives

end Store

end Monkey
