import Monkey.Eval

/-!
  Monkey/Proofs/Eval/Keeps.lean
  =============================
  **What runs keep.**

  `x.Keeps I Q` says that a run started from a store with the invariant `I` leaves
  a store with the same invariant, and a result for which `Q` holds.  Nothing is
  said about a run whose bound is too low.

  There is one rule for each way of putting runs together.  A statement about
  whole evaluations is then an induction on the bound, with one case for each
  expression and each statement.
-/
namespace Monkey

namespace Run

/-- Every run of `x` that ends keeps the invariant `I` of stores, and `Q` holds of
    its result. -/
def Keeps (I : Store → Prop) (x : Run α) (Q : α → Prop) : Prop :=
  ∀ σ a σ', I σ → x σ = some (a, σ') → I σ' ∧ Q a

namespace Keeps

variable {I : Store → Prop}

theorem pure {Q : α → Prop} {a : α} (h : Q a) : Keeps I (Pure.pure a : Run α) Q := by
  intro σ b σ' hσ e
  cases e
  exact ⟨hσ, h⟩

theorem bind {Q : α → Prop} {R : β → Prop} {x : Run α} {f : α → Run β} (hx : Keeps I x Q)
    (hf : ∀ a, Q a → Keeps I (f a) R) : Keeps I (x >>= f) R := by
  intro σ b σ' hσ e
  change (x σ).bind (fun p => f p.1 p.2) = some (b, σ') at e
  obtain ⟨⟨a, σ₁⟩, ha, hb⟩ := Option.bind_eq_some_iff.1 e
  obtain ⟨hσ₁, hq⟩ := hx σ a σ₁ hσ ha
  exact hf a hq σ₁ b σ' hσ₁ hb

theorem mono {Q R : α → Prop} {x : Run α} (hx : Keeps I x Q) (h : ∀ a, Q a → R a) :
    Keeps I x R := by
  intro σ a σ' hσ e
  obtain ⟨hσ', hq⟩ := hx σ a σ' hσ e
  exact ⟨hσ', h a hq⟩

theorem tooDeep {Q : α → Prop} : Keeps I (Run.tooDeep : Run α) Q := by
  intro σ a σ' _ e
  cases e

theorem lookup {Q : Option Value → Prop} {e : ScopeId} {name : String}
    (h : ∀ σ, I σ → Q (σ.lookup e name)) : Keeps I (liftM (Run.lookup e name) : Run _) Q := by
  intro σ a σ' hσ he
  cases he
  exact ⟨hσ, h σ hσ⟩

theorem define {e : ScopeId} {name : String} {v : Value}
    (h : ∀ σ, I σ → I (σ.define e name v)) :
    Keeps I (liftM (Run.define e name v) : Run Unit) fun _ => True := by
  intro σ a σ' hσ he
  cases he
  exact ⟨h σ hσ, trivial⟩

theorem openScope {outer : Option ScopeId} (h : ∀ σ, I σ → I (σ.openScope outer).2) :
    Keeps I (liftM (Run.openScope outer) : Run ScopeId) fun _ => True := by
  intro σ a σ' hσ he
  cases he
  exact ⟨h σ hσ, trivial⟩

theorem print {text : Enumeration → String} (h : ∀ σ, I σ → I (σ.print (text σ.enumeration))) :
    Keeps I (liftM (Run.print text) : Run Unit) fun _ => True := by
  intro σ a σ' hσ he
  cases he
  exact ⟨h σ hσ, trivial⟩

/-- A value is used, or it is a signal and handed on. -/
theorem proceed {Q R : Value → Prop} {x : Run Value} {use : Value → Run Value} (hx : Keeps I x Q)
    (hs : ∀ v, v.isSignal = true → Q v → R v)
    (hu : ∀ v, v.isSignal = false → Q v → Keeps I (use v) R) :
    Keeps I (Monkey.proceed x use) R := by
  refine bind hx fun v hq => ?_
  by_cases h : v.isSignal = true
  · rw [if_pos h]
    exact pure (hs v h hq)
  · rw [if_neg h]
    exact hu v (by simpa using h) hq

/-! ### Keeping, whatever the result -/

theorem pure_any {a : α} : Keeps I (Pure.pure a : Run α) fun _ => True :=
  pure trivial

theorem proceed_any {x : Run Value} {use : Value → Run Value} (hx : Keeps I x fun _ => True)
    (hu : ∀ v, Keeps I (use v) fun _ => True) : Keeps I (Monkey.proceed x use) fun _ => True :=
  hx.proceed (fun _ _ _ => trivial) fun v _ _ => hu v

theorem proceedAll {f : Expr → Run Value} {es : List Expr} {use : List Value → Run Value}
    (hf : ∀ e ∈ es, Keeps I (f e) fun _ => True) (hu : ∀ vs, Keeps I (use vs) fun _ => True) :
    Keeps I (Monkey.proceedAll f es use) fun _ => True := by
  induction es generalizing use with
  | nil => exact hu []
  | cons e es ih =>
    refine proceed_any (hf e List.mem_cons_self) fun v => ?_
    exact ih (fun e he => hf e (List.mem_cons_of_mem _ he)) fun vs => hu (v :: vs)

theorem runPairs {f : Expr → Run Value} {pairs : List (Expr × Expr)} {entries : List Entry}
    (hk : ∀ p ∈ pairs, Keeps I (f p.1) fun _ => True)
    (hv : ∀ p ∈ pairs, Keeps I (f p.2) fun _ => True) :
    Keeps I (Monkey.runPairs f pairs entries) fun _ => True := by
  induction pairs generalizing entries with
  | nil => exact pure_any
  | cons p pairs ih =>
    obtain ⟨key, value⟩ := p
    refine proceed_any (hk _ List.mem_cons_self) fun k => ?_
    rcases k.hashKey? with _ | filed
    · exact pure_any
    · refine proceed_any (hv _ List.mem_cons_self) fun v => ?_
      exact ih (fun p hp => hk p (List.mem_cons_of_mem _ hp))
        fun p hp => hv p (List.mem_cons_of_mem _ hp)

theorem runStatements {g : Statement → Run Value} {last : Value} {ss : List Statement}
    (hg : ∀ s ∈ ss, Keeps I (g s) fun _ => True) :
    Keeps I (Monkey.runStatements g last ss) fun _ => True := by
  induction ss generalizing last with
  | nil => exact pure_any
  | cons s ss ih =>
    refine proceed_any (hg s List.mem_cons_self) fun v => ?_
    exact ih fun s hs => hg s (List.mem_cons_of_mem _ hs)

theorem runIdentifier {name : String} {e : ScopeId} :
    Keeps I (Monkey.runIdentifier name e) fun _ => True := by
  refine bind (lookup (Q := fun _ => True) fun _ _ => trivial) fun o _ => ?_
  rcases o with _ | v
  · rcases Builtin.ofName? name with _ | b <;> exact pure_any
  · exact pure_any

end Keeps

end Run

end Monkey
