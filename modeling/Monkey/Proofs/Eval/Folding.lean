import Monkey.Proofs.Eval.Calls

/-!
  Monkey/Proofs/Eval/Folding.lean
  ===============================
  **Recursion through a closure folds an array.**

  A function that is bound to `iter` in the scope in which it was made,

  `fn(arr, acc) { if (len(arr) == 0) { acc } else { iter(rest(arr), step) } }`,

  folds its array: if `step` gives `g a x` where the array starts with `x` and the
  accumulator is `a`, a call answers the fold of `g` over the elements
  (`Store.answers_fold`).  The induction is on the elements that are left; each call opens
  a scope of its own inside that of the closure, so that `step` always finds the names it
  needs where it found them before.

  `map` and `reduce` are such functions, for whatever function they are given.
-/
namespace Monkey

/-! ### Trees without tokens -/

/-- The occurrence of a name. -/
def Expr.named (name : String) : Expr :=
  .identifier { token := default, name }

/-- A call of what a name is bound to. -/
def Expr.calls (name : String) (arguments : List Expr) : Expr :=
  .call default (.named name) arguments

/-- `len(arr) == 0` -/
def Expr.emptyTest : Expr :=
  .infixOp default (.calls "len" [.named "arr"]) .equal (.integer default 0)

namespace FunctionLiteral

/-- A function literal by the names of its parameters and the statements of its body. -/
def of (label : Nat) (parameters : List String) (statements : List Statement) :
    FunctionLiteral :=
  ⟨default, parameters.map fun name => { token := default, name }, ⟨default, statements⟩, label⟩

@[simp] theorem names_of (label : Nat) (parameters : List String) (statements : List Statement) :
    (of label parameters statements).parameters.map Identifier.name = parameters := by
  rw [of, List.map_map]
  exact List.map_id parameters

/-- `fn(arr, acc) { if (len(arr) == 0) { acc } else { iter(rest(arr), step) } }` -/
def fold (label : Nat) (acc : String) (step : Expr) : FunctionLiteral :=
  .of label ["arr", acc]
    [.expression default (.cond default .emptyTest
      ⟨default, [.expression default (.named acc)]⟩
      (some ⟨default, [.expression default (.calls "iter" [.calls "rest" [.named "arr"], step])]⟩))]

/-- `fn(arr, parameters) { let iter = fold; iter(arr, start) }` -/
def loop (label inner : Nat) (parameters : List String) (acc : String) (step start : Expr) :
    FunctionLiteral :=
  .of label ("arr" :: parameters)
    [.letBind default { token := default, name := "iter" } (.function (.fold inner acc step)),
      .expression default (.calls "iter" [.named "arr", start])]

/-- The loop that pushes `f(first(arr))` onto the accumulator, from the empty array on. -/
def map (label inner : Nat) : FunctionLiteral :=
  .loop label inner ["f"] "acc"
    (.calls "push" [.named "acc", .calls "f" [.calls "first" [.named "arr"]]]) (.array default [])

/-- The loop that goes on with `f(result, first(arr))`, from `initial` on. -/
def reduce (label inner : Nat) : FunctionLiteral :=
  .loop label inner ["initial", "f"] "result"
    (.calls "f" [.named "result", .calls "first" [.named "arr"]]) (.named "initial")

end FunctionLiteral

/-- The length of an array that is not empty is not counted as zero. -/
theorem ofNat_succ_beq_zero {n : Nat} (h : n + 1 < UInt64.size) :
    (Int64.ofNat (n + 1) == 0) = false := by
  refine beq_eq_false_iff_ne.2 fun he => ?_
  have hu : (UInt64.ofNat (n + 1)).toNat = (0 : UInt64).toNat :=
    congrArg (fun i => i.toUInt64.toNat) he
  rw [UInt64.toNat_ofNat_of_lt' h] at hu
  cases hu

namespace Store

variable {α β : Type} {σ : Store} {c : ScopeId} {label inner : Nat} {acc : String}
  {step start : Expr} {val : α → Value} {elt : β → Value} {g : α → β → α}

/-- A built-in function that no scope binds. -/
theorem Computes.callsBuiltin {e : ScopeId} {b : Builtin} {xs : List Expr} {vs : List Value}
    (he : e < σ.scopes.size) (h : σ.lookup e b.name = none) (hb : b ≠ .puts)
    (hxs : σ.ComputesAll e xs vs) (hv : (b.result vs).isSignal = false) :
    σ.Computes e (.expression (.calls b.name xs)) (b.result vs) :=
  .call default (.builtin he h rfl) hxs (.builtin hb hv)

/-- The occurrence of a name that is bound in the scope of a call. -/
theorem Sees.named {τ : Store} {e : ScopeId} {bs : List (String × Value)} {name : String}
    {v : Value} (h : σ.Sees c bs τ e) (hb : bs.lookup name = some v) (hv : v.isSignal = false) :
    τ.Computes e (.expression (.named name)) v :=
  .identifier h.lt (h.lookup_bound hb) hv

/-- Whether the length of an array, as it is counted, is zero. -/
theorem Computes.emptyTest {e : ScopeId} {ys : List Value} (he : e < σ.scopes.size)
    (hlen : σ.lookup e "len" = none)
    (hys : σ.Computes e (.expression (.named "arr")) (.array ys)) :
    σ.Computes e (.expression .emptyTest) (.boolean (Int64.ofNat ys.length == 0)) :=
  .infixOp default .equal (.callsBuiltin (b := .len) he hlen (by decide) (.cons hys .nil) rfl)
    (.integer default 0) rfl

/-- **Recursion through a closure folds an array.**  The closure is bound to `iter` in the
    scope in which it was made, and no scope binds `len` and `rest`. -/
theorem answers_fold (hc : c < σ.scopes.size)
    (hacc : ∀ name ∈ ["arr", "len", "rest", "iter"], name ≠ acc)
    (hiter : σ.lookup c "iter" = some (.function ⟨.fold label acc step, c⟩))
    (hlen : σ.lookup c "len" = none) (hrest : σ.lookup c "rest" = none)
    (hval : ∀ a, (val a).isSignal = false)
    (hstep : ∀ a x xs τ e, σ.Sees c [(acc, val a), ("arr", .array (elt x :: xs))] τ e →
      τ.Computes e (.expression step) (val (g a x)))
    (xs : List β) (hxs : xs.length < UInt64.size) (a : α) :
    σ.Answers (.function ⟨.fold label acc step, c⟩) [.array (xs.map elt), val a]
      (val (xs.foldl g a)) := by
  simp only [List.forall_mem_cons] at hacc
  obtain ⟨harr, hlen', hrest', hiter', -⟩ := hacc
  -- what the body of a call sees
  have hseen {a : α} {ys : List Value} {τ : Store} {e : ScopeId}
      (hs : σ.Sees c [(acc, val a), ("arr", .array ys)] τ e) :
      τ.Computes e (.expression (.named "arr")) (.array ys) ∧
      τ.Computes e (.expression (.named acc)) (val a) ∧
      τ.lookup e "len" = none ∧ τ.lookup e "rest" = none ∧
      τ.lookup e "iter" = some (.function ⟨.fold label acc step, c⟩) := by
    have hout {name : String} (hn : name ≠ acc) (hn' : name ≠ "arr") :
        τ.lookup e name = σ.lookup c name :=
      hs.lookup_outside (by simp [hn, hn'])
    refine ⟨hs.named ?_ rfl, hs.named List.lookup_cons_self (hval a), ?_, ?_, ?_⟩
    · rw [List.lookup_cons, beq_eq_false_iff_ne.2 harr]
      rfl
    · rw [hout hlen' (by decide), hlen]
    · rw [hout hrest' (by decide), hrest]
    · rw [hout hiter' (by decide), hiter]
  induction xs generalizing a with
  | nil =>
    refine .of_computes (hval a) hc rfl fun τ e hs => ?_
    obtain ⟨hys, ha, hτlen, -, -⟩ := hseen hs
    exact .block _ _ (.consequence default (Computes.emptyTest hs.lt hτlen hys) rfl (.block _ _ ha))
  | cons x xs ih =>
    refine .of_computes (hval _) hc rfl fun τ e hs => ?_
    obtain ⟨hys, ha, hτlen, hτrest, hτiter⟩ := hseen hs
    have hfalse : (Int64.ofNat ((x :: xs).map elt).length == 0) = false := by
      rw [List.length_map]
      exact ofNat_succ_beq_zero hxs
    have htail : τ.Computes e (.expression (.calls "rest" [.named "arr"])) (.array (xs.map elt)) :=
      .callsBuiltin (b := .rest) hs.lt hτrest (by decide) (.cons hys .nil) rfl
    have hnext : τ.Computes e (.expression (.calls "iter" [.calls "rest" [.named "arr"], step]))
        (val (xs.foldl g (g a x))) :=
      .call default (.identifier hs.lt hτiter rfl) (.cons htail (.cons (hstep a x _ τ e hs) .nil))
        ((ih (Nat.lt_of_succ_lt hxs) (g a x)).of_intact hs.intact)
    exact .block _ _
      (.alternative default (Computes.emptyTest hs.lt hτlen hys) hfalse (.block _ _ hnext))

/-- A call of a loop answers the fold from `start` on. -/
theorem answers_loop {parameters : List String} {vs : List Value} {bs : List (String × Value)}
    {xs : List β} {a : α} (hc : c < σ.scopes.size)
    (hacc : ∀ name ∈ ["arr", "len", "rest", "iter"], name ≠ acc)
    (hval : ∀ a, (val a).isSignal = false) (hn : parameters.length = vs.length)
    (hbs : (("arr" :: parameters).zip (.array (xs.map elt) :: vs)).reverse = bs)
    (harr : bs.lookup "arr" = some (.array (xs.map elt)))
    (hlen : (bs.lookup "len").or (σ.lookup c "len") = none)
    (hrest : (bs.lookup "rest").or (σ.lookup c "rest") = none)
    (hstart : ∀ i τ e, σ.Sees c (("iter", i) :: bs) τ e →
      τ.Computes e (.expression start) (val a))
    (hstep : ∀ i a x ys τ e,
      σ.Sees c ((acc, val a) :: ("arr", .array (elt x :: ys)) :: ("iter", i) :: bs) τ e →
      τ.Computes e (.expression step) (val (g a x)))
    (hxs : xs.length < UInt64.size) :
    σ.Answers (.function ⟨.loop label inner parameters acc step start, c⟩)
      (.array (xs.map elt) :: vs) (val (xs.foldl g a)) := by
  refine .of_body (hval _) hc ?_ fun τ e hs => ?_
  · simp [FunctionLiteral.loop, FunctionLiteral.of, hn]
  · rw [FunctionLiteral.loop, FunctionLiteral.names_of, hbs] at hs
    have hi := hs.define "iter" (.function ⟨.fold inner acc step, e⟩)
    have hiter := hi.lookup_bound List.lookup_cons_self
    have hcall : (τ.define e "iter" (.function ⟨.fold inner acc step, e⟩)).Computes e
        (.expression (.calls "iter" [.named "arr", start])) (val (xs.foldl g a)) := by
      refine .call default (.identifier hi.lt hiter rfl)
        (.cons (hi.named harr rfl) (.cons (hstart _ _ e hi) .nil)) ?_
      refine answers_fold hi.lt hacc hiter ((hi.lookup "len").trans hlen)
        ((hi.lookup "rest").trans hrest) hval (fun a x ys τ' e' hs' => ?_) xs hxs a
      exact hstep _ a x _ τ' e' (hi.trans hs')
    obtain ⟨τ', hgives, -⟩ := hcall.gives _ (.refl _)
    have hlet := Gives.letBind default { token := default, name := "iter" }
      (Gives.function (σ := τ) (e := e) (.fold inner acc step)) rfl
    exact ⟨τ', .block (Gives.nextStatement hlet rfl
      (Gives.lastStatement (.expression default hgives)))⟩

/-- The first element of an array that is not empty. -/
theorem Computes.firstElement {e : ScopeId} {v : Value} {vs : List Value} (he : e < σ.scopes.size)
    (harr : σ.lookup e "arr" = some (.array (v :: vs))) (hfirst : σ.lookup e "first" = none)
    (hv : v.isSignal = false) : σ.Computes e (.expression (.calls "first" [.named "arr"])) v := by
  have hargument : σ.ComputesAll e [.named "arr"] [.array (v :: vs)] :=
    .cons (.identifier he harr rfl) .nil
  exact .callsBuiltin (b := .first) he hfirst (by decide) hargument hv

/-- `map` answers the array of what a function answers on the elements. -/
theorem answers_map {f : Value} {h : β → Value} (hc : c < σ.scopes.size)
    (hfree : ∀ b : Builtin, σ.lookup c b.name = none) (hf : f.isSignal = false)
    (helt : ∀ x, (elt x).isSignal = false)
    (hanswers : ∀ x, σ.Answers f [elt x] (h x)) (xs : List β) (hxs : xs.length < UInt64.size) :
    σ.Answers (.function ⟨.map label inner, c⟩) [.array (xs.map elt), f] (.array (xs.map h)) := by
  have hfold : xs.foldl (fun l x => l ++ [h x]) [] = xs.map h := by
    rw [List.foldl_append_eq_append, List.nil_append, ← List.flatMap_def, ← List.map_eq_flatMap]
  rw [← hfold]
  refine answers_loop hc (by decide) (fun _ => rfl) rfl rfl rfl (hfree .len) (hfree .rest)
    (fun i τ e _ => .array default .nil) (fun i l x ys τ e hs => ?_) hxs
  have helement : τ.Computes e (.expression (.calls "first" [.named "arr"])) (elt x) :=
    .firstElement hs.lt (hs.lookup_bound rfl) ((hs.lookup "first").trans (hfree .first)) (helt x)
  have hcall : τ.Computes e (.expression (.calls "f" [.calls "first" [.named "arr"]])) (h x) :=
    .call default (hs.named rfl hf) (.cons helement .nil) ((hanswers x).of_intact hs.intact)
  have hpushed : τ.Computes e (.expression (.named "acc")) (.array l) := hs.named rfl rfl
  exact .callsBuiltin (b := .push) hs.lt ((hs.lookup "push").trans (hfree .push)) (by decide)
    (.cons hpushed (.cons hcall .nil)) rfl

/-- `reduce` answers the fold of what a function answers on the result and an element. -/
theorem answers_reduce {f : Value} (hc : c < σ.scopes.size)
    (hfree : ∀ b : Builtin, σ.lookup c b.name = none) (hf : f.isSignal = false)
    (hval : ∀ a, (val a).isSignal = false)
    (helt : ∀ x, (elt x).isSignal = false)
    (hanswers : ∀ a x, σ.Answers f [val a, elt x] (val (g a x))) (xs : List β)
    (hxs : xs.length < UInt64.size) (a : α) :
    σ.Answers (.function ⟨.reduce label inner, c⟩) [.array (xs.map elt), val a, f]
      (val (xs.foldl g a)) := by
  refine answers_loop hc (by decide) hval rfl rfl rfl (hfree .len) (hfree .rest)
    (fun i τ e hs => hs.named rfl (hval a)) (fun i b x ys τ e hs => ?_) hxs
  have helement : τ.Computes e (.expression (.calls "first" [.named "arr"])) (elt x) :=
    .firstElement hs.lt (hs.lookup_bound rfl) ((hs.lookup "first").trans (hfree .first)) (helt x)
  exact .call default (hs.named rfl hf) (.cons (hs.named rfl (hval b)) (.cons helement .nil))
    ((hanswers b x).of_intact hs.intact)

end Store

end Monkey
