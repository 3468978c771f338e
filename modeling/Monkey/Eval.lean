import Monkey.Builtin
import Monkey.Store
import Monkey.Syntax.Label

/-!
  Monkey/Eval.lean
  ================
  **Evaluation.**

  `eval n` runs a phrase in a scope of a store, with at most `n` evaluations
  nested in one another.  It gives a value and the store behind it, or `none`
  where the bound is too low.  Errors are values.

  What a phrase does is said without recursion: `Phrase.step` and `callStep` are
  given the evaluations they may ask for as an `Evaluator`, and work in any monad
  that runs on a store.  `eval` ties the knot.

  Every place where a value is used goes through `proceed`: a signal ends the
  phrase and becomes its value, and only other values are used.  A block gives
  the value of its last statement.  Calls and programs take one `return` off.

  Where a definition stands for one function of the evaluator, its comment names it.
-/
namespace Monkey

/-! ### Runs -/

/-- A run: from a store to a result and a store, unless the bound is too low. -/
abbrev Run (α : Type) : Type :=
  StateT Store Option α

namespace Run

/-- The run whose bound is too low. -/
def tooDeep : Run α :=
  fun _ => none

/-- Looks a name up. -/
def lookup (e : ScopeId) (name : String) : Run (Option Value) :=
  fun σ => some (σ.lookup e name, σ)

/-- Binds a value to a name. -/
def define (e : ScopeId) (name : String) (v : Value) : Run Unit :=
  fun σ => some ((), σ.define e name v)

/-- Opens a scope. -/
def openScope (outer : Option ScopeId) : Run ScopeId :=
  fun σ => some (σ.openScope outer)

/-- Prints a text, which may depend on the order of the entries of hashes. -/
def print (text : Enumeration → String) : Run Unit :=
  fun σ => some ((), σ.print (text σ.enumeration))

end Run

/-! ### Operators -/

/-- The value of a prefix operator (`eval_prefix`). -/
def PrefixOperator.apply : PrefixOperator → Value → Value
  | bang, v => .boolean (!v.isTruthy)
  | minus, .integer i => .integer (-i)
  | minus, v => (Fault.unknownPrefix .minus v.sort).toValue

/-- The value of an infix operator on integers (`eval_integer_infix`).  Sums,
    differences and products are taken modulo `2^64`; a quotient is rounded toward
    zero. -/
def InfixOperator.applyIntegers (op : InfixOperator) (a b : Int64) : Value :=
  match op with
  | plus => .integer (a + b)
  | minus => .integer (a - b)
  | star => .integer (a * b)
  | slash => if b = 0 then (Fault.divisionByZero a).toValue else .integer (a / b)
  | less => .boolean (a < b)
  | greater => .boolean (b < a)
  | equal => .boolean (a == b)
  | notEqual => .boolean (a != b)

/-- The value of an infix operator (`eval_infix`). -/
def InfixOperator.apply (op : InfixOperator) (left right : Value) : Value :=
  match left, op, right with
  | .integer a, op, .integer b => op.applyIntegers a b
  | .boolean a, equal, .boolean b => .boolean (a == b)
  | .boolean a, notEqual, .boolean b => .boolean (a != b)
  | .string a, plus, .string b => .string (a ++ b)
  | left, op, right =>
    if left.sort = right.sort then (Fault.unknownInfix left.sort op right.sort).toValue
    else (Fault.typeMismatch left.sort op right.sort).toValue

/-- The value of an indexing (`eval_index`).  What an array or a hash does not hold is
    null. -/
def Value.at (left i : Value) : Value :=
  match left, i with
  | .array elements, .integer k =>
    if k < 0 then .null else (elements[k.toInt.toNat]?).getD .null
  | .hash entries, i =>
    match i.hashKey? with
    | some k => ((Entry.find? k entries).map Entry.value).getD .null
    | none => (Fault.notIndexable .hash i.sort).toValue
  | left, i => (Fault.notIndexable left.sort i.sort).toValue

/-! ### Sequences -/

section Sequences

variable {m : Type → Type} [Monad m] (expression : Expr → m Value) (statement : Statement → m Value)

/-- Uses the value of a run, unless it is a signal, which is handed on. -/
@[specialize] def proceed (x : m Value) (use : Value → m Value) : m Value := do
  let v ← x
  if v.isSignal then return v else use v

/-- Runs expressions from left to right and uses all their values
    (`eval_expressions`). -/
@[specialize] def proceedAll : List Expr → (List Value → m Value) → m Value
  | [], use => use []
  | e :: es, use => proceed (expression e) fun v => proceedAll es fun vs => use (v :: vs)

/-- Runs the pairs of a hash literal from left to right, in each pair the key
    first, and files the entries (`eval_hash_literal`). -/
@[specialize] def runPairs : List (Expr × Expr) → List Entry → m Value
  | [], entries => pure (.hash entries)
  | (key, value) :: pairs, entries =>
    proceed (expression key) fun k =>
      match k.hashKey? with
      | none => pure (Fault.unhashable k.sort).toValue
      | some filed => proceed (expression value) fun v =>
          runPairs pairs (Entry.insert { filed, key := k, value := v } entries)

/-- Runs statements in order (`eval_block`); `last` is the value if there is none. -/
@[specialize] def runStatements (last : Value) : List Statement → m Value
  | [] => pure last
  | s :: ss => proceed (statement s) fun v => runStatements v ss

end Sequences

/-! ### Phrases -/

/-- What can be evaluated. -/
inductive Phrase where
  | expression (e : Expr)
  | statement (s : Statement)
  | block (b : Block)
  | program (p : Program)

/-- The evaluations that a phrase may ask for: of another phrase in a scope, and
    of a call. -/
structure Evaluator (m : Type → Type) where
  phrase : Phrase → ScopeId → m Value
  call : Value → List Value → m Value

section Steps

variable {m : Type → Type} [Monad m] [MonadLiftT Run m]

/-- Looks a variable up, first in the scopes and then among the built-in functions
    (`eval_identifier`). -/
@[specialize] def runIdentifier (name : String) (e : ScopeId) : m Value := do
  match ← liftM (Run.lookup e name) with
  | some v => return v
  | none =>
    match Builtin.ofName? name with
    | some b => return .builtin b
    | none => return (Fault.unbound name).toValue

/-- Binds arguments to parameters, from left to right. -/
@[specialize] def bindParameters (e : ScopeId) : List Identifier → List Value → m Unit
  | id :: ids, v :: vs => do
    liftM (Run.define e id.name v)
    bindParameters e ids vs
  | _, _ => pure ()

/-- Calls a value (`apply_function`).  The body of a function runs in a new scope inside
    the one the function was made in (`call_function`). -/
@[specialize] def callStep (phrase : Phrase → ScopeId → m Value) (callee : Value)
    (arguments : List Value) : m Value :=
  match callee with
  | .function ⟨literal, scope⟩ =>
    if literal.parameters.length = arguments.length then do
      let e ← liftM (Run.openScope (some scope))
      bindParameters e literal.parameters arguments
      return (← phrase (.block literal.body) e).unwrapReturn
    else
      pure (Fault.argumentCount literal.parameters.length arguments.length).toValue
  | .builtin b => do
    liftM (Run.print fun o => b.printed arguments o)
    return b.result arguments
  | callee => pure (Fault.notCallable callee.sort).toValue

/-- Evaluates an expression by way of the evaluations it asks for
    (`eval_expression`). -/
@[specialize] def Expr.step (r : Evaluator m) (scope : ScopeId) : Expr → m Value
  | .identifier id => runIdentifier id.name scope
  | .integer _ value => pure (.integer value)
  | .string _ value => pure (.string value)
  | .boolean _ value => pure (.boolean value)
  | .array _ elements =>
    proceedAll (fun e => r.phrase (.expression e) scope) elements fun vs => pure (.array vs)
  | .hash _ pairs => runPairs (fun e => r.phrase (.expression e) scope) pairs []
  | .prefixOp _ op right => proceed (r.phrase (.expression right) scope) fun v => pure (op.apply v)
  | .infixOp _ left op right =>
    proceed (r.phrase (.expression left) scope) fun a =>
      proceed (r.phrase (.expression right) scope) fun b => pure (op.apply a b)
  | .cond _ condition consequence alternative =>
    proceed (r.phrase (.expression condition) scope) fun v =>
      if v.isTruthy then r.phrase (.block consequence) scope
      else
        match alternative with
        | some b => r.phrase (.block b) scope
        | none => pure .null
  | .function literal => pure (.function { literal, scope })
  | .call _ callee arguments =>
    proceed (r.phrase (.expression callee) scope) fun f =>
      proceedAll (fun e => r.phrase (.expression e) scope) arguments fun vs => r.call f vs
  | .index _ left i =>
    proceed (r.phrase (.expression left) scope) fun a =>
      proceed (r.phrase (.expression i) scope) fun b => pure (a.at b)

/-- Evaluates a statement by way of the evaluations it asks for (`eval_statement`). -/
@[specialize] def Statement.step (r : Evaluator m) (scope : ScopeId) : Statement → m Value
  | .letBind _ name value => proceed (r.phrase (.expression value) scope) fun v => do
      liftM (Run.define scope name.name v)
      return .null
  | .returnValue _ none => pure (.returned .null)
  | .returnValue _ (some value) =>
    proceed (r.phrase (.expression value) scope) fun v => pure (.returned v)
  | .expression _ e => r.phrase (.expression e) scope
  | .block b => r.phrase (.block b) scope

/-- Evaluates a phrase by way of the evaluations it asks for; a program is
    `eval_program`. -/
@[specialize] def Phrase.step (r : Evaluator m) (scope : ScopeId) : Phrase → m Value
  | .expression e => e.step r scope
  | .statement s => s.step r scope
  | .block b => runStatements (fun s => r.phrase (.statement s) scope) .null b.statements
  | .program p => do
    let v ← runStatements (fun s => r.phrase (.statement s) scope) .null p.statements
    return v.unwrapReturn

end Steps

/-- Evaluates a phrase in a scope (`eval`), at most `n` evaluations nested in one
    another. -/
def eval : (n : Nat) → Phrase → ScopeId → Run Value
  | 0, _, _ => Run.tooDeep
  | n + 1, phrase, scope =>
    phrase.step { phrase := eval n, call := callStep (eval n) } scope

end Monkey
