import Mathlib.Algebra.Ring.Int.Defs
import Monkey.Proofs.Eval.Arithmetic
import Monkey.Proofs.Eval.Folding
import Monkey.Proofs.Eval.Tokens
import Monkey.Proofs.Syntax.RoundTrip

/-!
  Monkey/Proofs/Eval/MapReduce.lean
  =================================
  **A program that adds up the doubles of an array.**

  The program defines `map` and `reduce`, each with a function inside that calls itself,
  and folds the array that `input` is bound to.  What it computes is read off its tree
  (`Store.gives_mapReduce`), in whatever scope it runs.

  From the source to the tree it is the text that leads: what was read has the same text
  as the tree, and both are canonical, so that they are the same but for their tokens
  (`Program.bare_mapReduceSource`).  A session does not look at tokens, and what holds of
  a run of the tree holds of the run of what was read (`Session.run_mapReduce`).
-/
namespace Monkey

open Text

/-! ### The program -/

namespace FunctionLiteral

/-- `fn(x) { x * 2 }` -/
def double (label : Nat) : FunctionLiteral :=
  .of label ["x"]
    [.expression default (.infixOp default (.named "x") .star (.integer default 2))]

/-- `fn(acc, x) { acc + x }` -/
def add (label : Nat) : FunctionLiteral :=
  .of label ["acc", "x"]
    [.expression default (.infixOp default (.named "acc") .plus (.named "x"))]

end FunctionLiteral

/-- The program, with the labels of its function literals in the order in which they
    start. -/
def Program.mapReduce (labels : Nat → Nat) : Program where
  statements :=
    [.letBind default { token := default, name := "map" } (.function (.map (labels 0) (labels 1))),
      .letBind default { token := default, name := "reduce" }
        (.function (.reduce (labels 2) (labels 3))),
      .letBind default { token := default, name := "doubled" }
        (.calls "map" [.named "input", .function (.double (labels 4))]),
      .expression default (.calls "reduce"
        [.named "doubled", .integer default 0, .function (.add (labels 5))])]

namespace Store

variable {σ : Store} {c e : ScopeId} {label inner : Nat} {xs : List Int64}

theorem answers_double (hc : c < σ.scopes.size) (x : Int64) :
    σ.Answers (.function ⟨.double label, c⟩) [.integer x] (.integer (x * 2)) := by
  refine .of_computes rfl hc rfl fun τ e hs => .block _ _ ?_
  have hx : τ.Computes e (.expression (.named "x")) (.integer x) := hs.named rfl rfl
  exact .infixOp default .star hx (.integer default 2) rfl

theorem answers_add (hc : c < σ.scopes.size) (i x : Int64) :
    σ.Answers (.function ⟨.add label, c⟩) [.integer i, .integer x] (.integer (i + x)) := by
  refine .of_computes rfl hc rfl fun τ e hs => .block _ _ ?_
  have hi : τ.Computes e (.expression (.named "acc")) (.integer i) := hs.named rfl rfl
  have hx : τ.Computes e (.expression (.named "x")) (.integer x) := hs.named rfl rfl
  exact .infixOp default .plus hi hx rfl

/-- The value that is bound to `doubled`. -/
theorem computes_doubles (he : e < σ.scopes.size)
    (hmap : σ.lookup e "map" = some (.function ⟨.map label inner, e⟩))
    (hinput : σ.lookup e "input" = some (.array (xs.map .integer)))
    (hfree : ∀ b : Builtin, σ.lookup e b.name = none) (hxs : xs.length < UInt64.size) (l : Nat) :
    σ.Computes e (.expression (.calls "map" [.named "input", .function (.double l)]))
      (.array (xs.map fun x => .integer (x * 2))) :=
  .call default (.identifier he hmap rfl)
    (.cons (.identifier he hinput rfl) (.cons (.function _) .nil))
    (answers_map he hfree rfl (fun _ => rfl) (answers_double he) xs hxs)

/-- The value of the program. -/
theorem computes_sum (he : e < σ.scopes.size)
    (hreduce : σ.lookup e "reduce" = some (.function ⟨.reduce label inner, e⟩))
    (hdoubled : σ.lookup e "doubled" = some (.array (xs.map fun x => .integer (x * 2))))
    (hfree : ∀ b : Builtin, σ.lookup e b.name = none) (hxs : xs.length < UInt64.size) (l : Nat) :
    σ.Computes e (.expression (.calls "reduce"
      [.named "doubled", .integer default 0, .function (.add l)]))
      (.integer (xs.foldl (fun i x => i + x * 2) 0)) :=
  .call default (.identifier he hreduce rfl)
    (.cons (.identifier he hdoubled rfl) (.cons (.integer default 0) (.cons (.function _) .nil)))
    (answers_reduce he hfree rfl (fun _ => rfl) (fun _ => rfl)
      (fun i x => answers_add he i (x * 2)) xs hxs 0)

/-- In a scope from which `input` is seen, and no name of a built-in function, the program
    gives the sum of the doubles and binds them to `doubled`. -/
theorem gives_mapReduce (labels : Nat → Nat) (he : e < σ.scopes.size)
    (hinput : σ.lookup e "input" = some (.array (xs.map .integer)))
    (hfree : ∀ b : Builtin, σ.lookup e b.name = none) (hxs : xs.length < UInt64.size) :
    ∃ σ', σ.Gives e (.program (.mapReduce labels))
        (.integer (xs.foldl (fun i x => i + x * 2) 0)) σ' ∧
      σ'.lookup e "doubled" = some (.array (xs.map fun x => .integer (x * 2))) := by
  -- the store behind the definitions of `map` and `reduce`
  let σ₁ := σ.define e "map" (.function ⟨.map (labels 0) (labels 1), e⟩)
  let σ₂ := σ₁.define e "reduce" (.function ⟨.reduce (labels 2) (labels 3), e⟩)
  have he₁ : e < σ₁.scopes.size := by rwa [size_define]
  have he₂ : e < σ₂.scopes.size := by rwa [size_define]
  have hmap : σ₂.lookup e "map" = some (.function ⟨.map (labels 0) (labels 1), e⟩) := by
    rw [lookup_define_self he₁, lookup_define_self he]
    rfl
  have hreduce : σ₂.lookup e "reduce" = some (.function ⟨.reduce (labels 2) (labels 3), e⟩) := by
    rw [lookup_define_self he₁]
    rfl
  have houter {name : String} (hm : name ≠ "map") (hr : name ≠ "reduce") :
      σ₂.lookup e name = σ.lookup e name := by
    rw [lookup_define_self he₁, if_neg hr, lookup_define_self he, if_neg hm]
  have hfree₂ (b : Builtin) : σ₂.lookup e b.name = none := by
    rw [houter (by cases b <;> decide) (by cases b <;> decide), hfree b]
  have hinput₂ : σ₂.lookup e "input" = some (.array (xs.map .integer)) := by
    rw [houter (by decide) (by decide), hinput]
  obtain ⟨τ, hdoubles, hτ⟩ :=
    (computes_doubles he₂ hmap hinput₂ hfree₂ hxs (labels 4)).gives σ₂ (.refl σ₂)
  -- the store behind the definition of `doubled`
  let σ₃ := τ.define e "doubled" (.array (xs.map fun x => .integer (x * 2)))
  have heτ : e < τ.scopes.size := hτ.lt he₂
  have he₃ : e < σ₃.scopes.size := by rwa [size_define]
  have hdoubled₃ : σ₃.lookup e "doubled" = some (.array (xs.map fun x => .integer (x * 2))) := by
    rw [lookup_define_self heτ]
    rfl
  have hkept {name : String} (hn : name ≠ "doubled") : σ₃.lookup e name = σ₂.lookup e name := by
    rw [lookup_define_self heτ, if_neg hn, hτ.lookup he₂]
  have hreduce₃ := (hkept (by decide)).trans hreduce
  have hfree₃ (b : Builtin) : σ₃.lookup e b.name = none := by
    rw [hkept (by cases b <;> decide), hfree₂ b]
  obtain ⟨σ', hsum, hσ'⟩ :=
    (computes_sum he₃ hreduce₃ hdoubled₃ hfree₃ hxs (labels 5)).gives σ₃ (.refl σ₃)
  refine ⟨σ', Gives.program (v := .integer _) ?_, (hσ'.lookup he₃ "doubled").trans hdoubled₃⟩
  refine Gives.nextStatement (.letBind default _ (.function _) rfl) rfl ?_
  refine Gives.nextStatement (.letBind default _ (.function _) rfl) rfl ?_
  refine Gives.nextStatement (.letBind default _ hdoubles rfl) rfl ?_
  exact Gives.lastStatement (.expression default hsum)

end Store

/-! ### Its text -/

/-- A name that is no reserved word. -/
def IsName (name : String) : Prop :=
  Identifier.Canonical { token := default, name }

theorem Expr.canonical_named {name : String} (h : IsName name) : (Expr.named name).Canonical :=
  .identifier h.1 h.2

theorem Expr.canonical_calls {name : String} {arguments : List Expr} (h : IsName name)
    (ha : ∀ e ∈ arguments, e.Canonical) : (Expr.calls name arguments).Canonical :=
  .call (canonical_named h) ha

namespace FunctionLiteral

theorem canonical_of {parameters : List String} {statements : List Statement}
    (hp : ∀ name ∈ parameters, IsName name) (h : ∀ s ∈ statements, s.Canonical) :
    (Expr.function (.of 0 parameters statements)).Canonical := by
  refine .function (fun id hid => ?_) h
  obtain ⟨name, hname, rfl⟩ := List.mem_map.1 hid
  exact hp name hname

theorem canonical_fold {acc : String} {step : Expr} (hacc : IsName acc) (hstep : step.Canonical) :
    (Expr.function (.fold 0 acc step)).Canonical := by
  have harr : ∀ e ∈ [Expr.named "arr"], e.Canonical :=
    List.forall_mem_singleton.2 (Expr.canonical_named ⟨rfl, rfl⟩)
  have hlen : (Expr.calls "len" [.named "arr"]).Canonical := Expr.canonical_calls ⟨rfl, rfl⟩ harr
  have hrest : (Expr.calls "rest" [.named "arr"]).Canonical := Expr.canonical_calls ⟨rfl, rfl⟩ harr
  have hiter : (Expr.calls "iter" [.calls "rest" [.named "arr"], step]).Canonical :=
    Expr.canonical_calls ⟨rfl, rfl⟩
      (List.forall_mem_cons.2 ⟨hrest, List.forall_mem_singleton.2 hstep⟩)
  have hzero : (Expr.integer default 0).Canonical := .integer (by decide)
  refine canonical_of
    (List.forall_mem_cons.2 ⟨⟨rfl, rfl⟩, List.forall_mem_singleton.2 hacc⟩) ?_
  refine List.forall_mem_singleton.2 (.expression (.ifElse (.infixOp hlen hzero) ?_ ?_))
  · exact List.forall_mem_singleton.2 (.expression (Expr.canonical_named hacc))
  · exact List.forall_mem_singleton.2 (.expression hiter)

theorem canonical_loop {parameters : List String} {acc : String} {step start : Expr}
    (hp : ∀ name ∈ parameters, IsName name) (hacc : IsName acc) (hstep : step.Canonical)
    (hstart : start.Canonical) :
    (Expr.function (.loop 0 0 parameters acc step start)).Canonical := by
  have harr : (Expr.named "arr").Canonical := Expr.canonical_named ⟨rfl, rfl⟩
  have hiter : (Expr.calls "iter" [.named "arr", start]).Canonical :=
    Expr.canonical_calls ⟨rfl, rfl⟩
      (List.forall_mem_cons.2 ⟨harr, List.forall_mem_singleton.2 hstart⟩)
  refine canonical_of (List.forall_mem_cons.2 ⟨⟨rfl, rfl⟩, hp⟩) ?_
  exact List.forall_mem_cons.2 ⟨.letBind ⟨rfl, rfl⟩ (canonical_fold hacc hstep),
    List.forall_mem_singleton.2 (.expression hiter)⟩

theorem canonical_first : (Expr.calls "first" [.named "arr"]).Canonical :=
  Expr.canonical_calls ⟨rfl, rfl⟩ (List.forall_mem_singleton.2 (Expr.canonical_named ⟨rfl, rfl⟩))

theorem canonical_map : (Expr.function (.map 0 0)).Canonical := by
  have hcall : (Expr.calls "f" [.calls "first" [.named "arr"]]).Canonical :=
    Expr.canonical_calls ⟨rfl, rfl⟩ (List.forall_mem_singleton.2 canonical_first)
  refine canonical_loop (List.forall_mem_singleton.2 ⟨rfl, rfl⟩) ⟨rfl, rfl⟩ ?_
    (.array (List.forall_mem_nil _))
  exact Expr.canonical_calls ⟨rfl, rfl⟩
    (List.forall_mem_cons.2 ⟨Expr.canonical_named ⟨rfl, rfl⟩, List.forall_mem_singleton.2 hcall⟩)

theorem canonical_reduce : (Expr.function (.reduce 0 0)).Canonical := by
  refine canonical_loop
    (List.forall_mem_cons.2 ⟨⟨rfl, rfl⟩, List.forall_mem_singleton.2 ⟨rfl, rfl⟩⟩) ⟨rfl, rfl⟩ ?_
    (Expr.canonical_named ⟨rfl, rfl⟩)
  exact Expr.canonical_calls ⟨rfl, rfl⟩ (List.forall_mem_cons.2
    ⟨Expr.canonical_named ⟨rfl, rfl⟩, List.forall_mem_singleton.2 canonical_first⟩)

theorem canonical_double : (Expr.function (.double 0)).Canonical := by
  refine canonical_of (List.forall_mem_singleton.2 ⟨rfl, rfl⟩)
    (List.forall_mem_singleton.2 (.expression ?_))
  exact .infixOp (Expr.canonical_named ⟨rfl, rfl⟩) (.integer (by decide))

theorem canonical_add : (Expr.function (.add 0)).Canonical := by
  refine canonical_of
    (List.forall_mem_cons.2 ⟨⟨rfl, rfl⟩, List.forall_mem_singleton.2 ⟨rfl, rfl⟩⟩)
    (List.forall_mem_singleton.2 (.expression ?_))
  exact .infixOp (Expr.canonical_named ⟨rfl, rfl⟩) (Expr.canonical_named ⟨rfl, rfl⟩)

end FunctionLiteral

theorem Program.canonical_mapReduce : ∀ s ∈ (mapReduce fun _ => 0).statements, s.Canonical := by
  have hdoubled : (Expr.calls "map" [.named "input", .function (.double 0)]).Canonical :=
    Expr.canonical_calls ⟨rfl, rfl⟩ (List.forall_mem_cons.2 ⟨Expr.canonical_named ⟨rfl, rfl⟩,
      List.forall_mem_singleton.2 FunctionLiteral.canonical_double⟩)
  have hsum : (Expr.calls "reduce"
      [.named "doubled", .integer default 0, .function (.add 0)]).Canonical :=
    Expr.canonical_calls ⟨rfl, rfl⟩ (List.forall_mem_cons.2 ⟨Expr.canonical_named ⟨rfl, rfl⟩,
      List.forall_mem_cons.2 ⟨.integer (by decide),
        List.forall_mem_singleton.2 FunctionLiteral.canonical_add⟩⟩)
  exact List.forall_mem_cons.2 ⟨.letBind ⟨rfl, rfl⟩ FunctionLiteral.canonical_map,
    List.forall_mem_cons.2 ⟨.letBind ⟨rfl, rfl⟩ FunctionLiteral.canonical_reduce,
      List.forall_mem_cons.2 ⟨.letBind ⟨rfl, rfl⟩ hdoubled,
        List.forall_mem_singleton.2 (.expression hsum)⟩⟩⟩

/-- The lines of the program. -/
def mapReduceLines : List String :=
  ["        let map = fn(arr, f) \x7b",
    "            let iter = fn(arr, acc) \x7b",
    "                if (len(arr) == 0) \x7b acc \x7d else \x7b iter(rest(arr), push(acc, f(first(arr)))) \x7d",
    "            \x7d;",
    "            iter(arr, []);",
    "        \x7d;",
    "        let reduce = fn(arr, initial, f) \x7b",
    "            let iter = fn(arr, result) \x7b",
    "                if (len(arr) == 0) \x7b result \x7d else \x7b iter(rest(arr), f(result, first(arr))) \x7d",
    "            \x7d;",
    "            iter(arr, initial);",
    "        \x7d;",
    "        let doubled = map(input, fn(x) \x7b x * 2 \x7d);",
    "        reduce(doubled, 0, fn(acc, x) \x7b acc + x \x7d)",
    "    "]

/-- The source of the program: each line with a line feed in front. -/
def mapReduceSource : List UInt8 :=
  mapReduceLines.flatMap fun line => Byte.lineFeed :: Utf8.encode line

namespace Program

/-- What is read from the source has no diagnostics, and the text of the tree. -/
theorem read_mapReduceSource : (readSource mapReduceSource).diagnostics = [] ∧
    (readSource mapReduceSource).program.render = (mapReduce fun _ => 0).render := by
  decide +kernel

theorem bare_mapReduceSource :
    (readSource mapReduceSource).program.bare = mapReduce fun _ => 0 :=
  bare_eq_of_render_eq (canonical_readSource _) canonical_mapReduce read_mapReduceSource.2

/-- The function literals get the labels from `0` on, in their order. -/
theorem label_mapReduce : (mapReduce fun _ => 0).label.run 0 = (mapReduce id, 6) :=
  rfl

end Program

/-! ### Its runs -/

namespace Value

theorem eq_integer_of_bare {v : Value} {i : Int64} (h : v.bare = .integer i) : v = .integer i := by
  cases v with
  | integer => exact h
  | _ => cases h

/-- In an array of integers there are no tokens. -/
theorem bare_eq_array_iff {v : Value} {is : List Int64} :
    v.bare = .array (is.map .integer) ↔ v = .array (is.map .integer) := by
  constructor
  · intro h
    cases v with
    | array vs =>
      have hvs : vs.map bare = is.map .integer := by
        rw [← array.inj h, Value.mapTokensAll_eq_map]
        rfl
      refine congrArg array ?_
      clear h
      induction is generalizing vs with
      | nil => exact List.map_eq_nil_iff.1 hvs
      | cons i is ih =>
        obtain ⟨v, ws, rfl, hv, hws⟩ := List.map_eq_cons_iff.1 hvs
        rw [eq_integer_of_bare hv, ih ws hws]
        rfl
    | _ => cases h
  · rintro rfl
    rw [bare, mapTokens, Value.mapTokensAll_eq_map, List.map_map]
    rfl

end Value

/-- Added up modulo `2^64`, the doubles are twice the sum. -/
theorem stands_foldl_double (xs : List Int64) :
    Stands (xs.foldl (fun i x => i + x * 2) 0) (2 * (xs.map Int64.toInt).sum) := by
  have hfold (z : Int) : xs.foldl (fun i x => i + x * 2) (Int64.ofInt z) =
      Int64.ofInt (z + 2 * (xs.map Int64.toInt).sum) := by
    induction xs generalizing z with
    | nil => simp
    | cons x xs ih =>
      have hx : Int64.ofInt z + x * 2 = Int64.ofInt (z + x.toInt * 2) := by
        rw [Int64.ofInt_add, Int64.ofInt_mul, Int64.ofInt_toInt]
        rfl
      rw [List.foldl_cons, hx, ih, List.map_cons, List.sum_cons]
      congr 1
      omega
  have h := hfold 0
  rw [Int.zero_add] at h
  rw [show (0 : Int64) = Int64.ofInt 0 from rfl, h]
  exact stands_ofInt _

theorem stands_double (x : Int64) : Stands (x * 2) (2 * x.toInt) := by
  have hx : x * 2 = Int64.ofInt (2 * x.toInt) := by
    rw [Int.mul_comm, Int64.ofInt_mul, Int64.ofInt_toInt]
    rfl
  rw [hx]
  exact stands_ofInt _

namespace Session

/-- A larger bound changes nothing in a run. -/
theorem run_of_le {s : Session} {n m : Nat} {p : Program} {r : Value × Session} (h : n ≤ m)
    (hr : s.run n p = some r) : s.run m p = some r := by
  rw [run_eq] at hr ⊢
  obtain ⟨a, ha, hr⟩ := Option.map_eq_some_iff.1 hr
  rw [eval_of_le h ha, Option.map_some, hr]

/-- Programs that are the same but for their tokens run in the same way. -/
theorem map_run_of_bare {p q : Program} (h : p.bare = q.bare) (s : Session) (n : Nat) :
    (s.run n p).map (fun r => (r.1.bare, r.2.bare)) =
      (s.run n q).map fun r => (r.1.bare, r.2.bare) := by
  rw [p.bare_eq_mapTokens, q.bare_eq_mapTokens] at h
  calc (s.run n p).map (fun r => (r.1.bare, r.2.bare))
    _ = s.bare.run n (p.mapTokens fun _ => default) := (s.run_mapTokens _ n p).symm
    _ = s.bare.run n (q.mapTokens fun _ => default) := by rw [h]
    _ = (s.run n q).map fun r => (r.1.bare, r.2.bare) := s.run_mapTokens _ n q

theorem get?_bare (s : Session) (name : String) :
    s.bare.get? name = (s.get? name).map Value.bare :=
  s.store.lookup_mapTokens _ s.store.nextLabel s.root name

/-- The session in which nothing has been run and `input` is bound to an array. -/
def withInput (o : Enumeration) (xs : List Int64) : Session :=
  let s := start o
  { s with store := s.store.define s.root "input" (.array (xs.map .integer)) }

theorem exists_run_mapReduce (o : Enumeration) (xs : List Int64) (h : xs.length < UInt64.size) :
    ∃ n s, (withInput o xs).run n (.mapReduce fun _ => 0) =
        some (.integer (xs.foldl (fun i x => i + x * 2) 0), s) ∧
      s.get? "doubled" = some (.array ((xs.map (· * 2)).map .integer)) := by
  have hinput : ((withInput o xs).store.withNextLabel 6).lookup 0 "input" =
      some (.array (xs.map .integer)) := by
    rw [Store.lookup]
    rfl
  have hfree (b : Builtin) : ((withInput o xs).store.withNextLabel 6).lookup 0 b.name = none := by
    rw [Store.lookup]
    cases b <;> rfl
  obtain ⟨σ, hgives, hdoubled⟩ := Store.gives_mapReduce id Nat.one_pos hinput hfree h
  obtain ⟨n, hn⟩ := Store.gives_iff.1 hgives
  refine ⟨n, { withInput o xs with store := σ }, ?_, ?_⟩
  · have hlabel : (Program.mapReduce fun _ => 0).label.run (withInput o xs).store.nextLabel =
        (Program.mapReduce id, 6) := Program.label_mapReduce
    have hn' : eval n (.program (.mapReduce id)) (withInput o xs).root
        ((withInput o xs).store.withNextLabel 6) = _ := hn
    rw [run_eq, hlabel, hn']
    rfl
  · rw [List.map_map]
    exact hdoubled

/-- **The program adds up the doubles of any array.**  Its source is read without a
    diagnostic.  Where `input` is bound to an array of integers, and nothing else is bound,
    it ends with the integer that stands for twice their sum, and `doubled` is bound to the
    array of the integers that stand for their doubles, one for each and in the same order.

    Lengths of arrays are counted modulo `2^64`; no array that can be stored is that long. -/
theorem run_mapReduce (o : Enumeration) (xs : List Int64) (h : xs.length < UInt64.size) :
    (Program.readSource mapReduceSource).diagnostics = [] ∧
      ∃ limit i s, (∀ n, limit ≤ n → (withInput o xs).run n
          (Program.readSource mapReduceSource).program = some (.integer i, s)) ∧
        Stands i (2 * (xs.map Int64.toInt).sum) ∧
        ∃ ys : List Int64, s.get? "doubled" = some (.array (ys.map .integer)) ∧
          ys.length = xs.length ∧
          ∀ (k : Nat) (x y : Int64), xs[k]? = some x → ys[k]? = some y →
            Stands y (2 * x.toInt) := by
  refine ⟨Program.read_mapReduceSource.1, ?_⟩
  obtain ⟨n, s', hrun, hdoubled⟩ := exists_run_mapReduce o xs h
  have hbare : (Program.readSource mapReduceSource).program.bare =
      (Program.mapReduce fun _ => 0).bare := Program.bare_mapReduceSource
  -- the program as it was read has the same run, up to tokens
  have hmap := map_run_of_bare hbare (withInput o xs) n
  rw [hrun, Option.map_some] at hmap
  obtain ⟨⟨v, s⟩, hread, hvs⟩ := Option.map_eq_some_iff.1 hmap
  obtain ⟨hv, hs⟩ := Prod.mk.inj hvs
  obtain rfl := Value.eq_integer_of_bare hv
  refine ⟨n, _, s, fun m hm => run_of_le hm hread, stands_foldl_double xs, xs.map (· * 2), ?_,
    List.length_map _, fun k x y hx hy => ?_⟩
  · have hget : (s.get? "doubled").map Value.bare = (s'.get? "doubled").map Value.bare := by
      rw [← get?_bare, ← get?_bare]
      exact congrArg (get? · "doubled") hs
    rw [hdoubled, Option.map_some, Value.bare_eq_array_iff.2 rfl] at hget
    obtain ⟨w, hw, hwb⟩ := Option.map_eq_some_iff.1 hget
    rw [hw, Value.bare_eq_array_iff.1 hwb]
  · rw [List.getElem?_map, hx] at hy
    cases hy
    exact stands_double x

/-- The doubles of `4611686018427387904` and of the sum are out of the range. -/
theorem run_mapReduce_overflow :
    ∃ (limit : Nat) (i y : Int64) (s : Session),
      (∀ n, limit ≤ n → (withInput .stored [4611686018427387904, 1]).run n
        (Program.readSource mapReduceSource).program = some (.integer i, s)) ∧
      i.toInt = -9223372036854775806 ∧ s.get? "doubled" = some (.array [.integer y, .integer 2]) ∧
      y.toInt = -9223372036854775808 := by
  obtain ⟨-, limit, i, s, hrun, hi, ys, hget, hlength, hdouble⟩ :=
    run_mapReduce .stored [4611686018427387904, 1] (by decide)
  obtain ⟨y, z, rfl⟩ : ∃ y z, ys = [y, z] := by
    match ys, hlength with
    | [y, z], _ => exact ⟨y, z, rfl⟩
  have hy := hdouble 0 _ y rfl rfl
  have hz := hdouble 1 _ z rfl rfl
  have hz2 : z = 2 := Int64.toInt_inj.1 ((hz 2).2 (by decide)).symm
  refine ⟨limit, i, y, s, hrun, ((hi (-9223372036854775806)).2 (by decide)).symm, ?_,
    ((hy (-9223372036854775808)).2 (by decide)).symm⟩
  rw [hget, hz2]
  rfl

end Session

end Monkey
