import Monkey.Value.Enumeration

/-!
  Monkey/Store.lean
  =================
  **Scopes and what they bind.**

  The store holds every scope that was ever opened, in the order in which they
  were opened; a scope is named by its index.  A scope may lie inside an older
  one, and where it binds no value to a name, the look-up goes on outside.
  Besides, the store holds the text printed so far, the next free label for
  function literals and the order in which the entries of hashes are printed, which
  no run changes.
-/
namespace Monkey

/-- A scope: what it binds, and the scope around it. -/
structure Scope where
  bindings : List (String × Value)
  outer : Option ScopeId
deriving Repr, Inhabited

namespace Scope

/-- What the scope itself binds to a name. -/
def get? (s : Scope) (name : String) : Option Value :=
  s.bindings.lookup name

/-- Binds a value to a name, in place of an older value if there is one. -/
def bind (name : String) (v : Value) : List (String × Value) → List (String × Value)
  | [] => [(name, v)]
  | (n, w) :: bs => if n = name then (name, v) :: bs else (n, w) :: bind name v bs

/-- The scope after binding a value to a name (`define`). -/
def define (s : Scope) (name : String) (v : Value) : Scope :=
  { s with bindings := bind name v s.bindings }

theorem lookup_bind (m name : String) (v : Value) (bs : List (String × Value)) :
    (bind name v bs).lookup m = if m = name then some v else bs.lookup m := by
  induction bs with
  | nil => grind [bind]
  | cons b bs ih => grind [bind]

/-- The last value bound to a name is the one found, and other names keep theirs. -/
theorem get?_define (s : Scope) (m name : String) (v : Value) :
    (s.define name v).get? m = if m = name then some v else s.get? m :=
  lookup_bind m name v s.bindings

end Scope

/-- All scopes, the printed text, the next free label and the order in which the
    entries of hashes are printed. -/
structure Store where
  scopes : Array Scope
  output : String
  nextLabel : Nat
  enumeration : Enumeration
deriving Inhabited

namespace Store

/-- The store without scopes. -/
def empty (o : Enumeration := .stored) : Store :=
  { scopes := #[], output := "", nextLabel := 0, enumeration := o }

/-- The scope of a given index. -/
def scope? (σ : Store) (e : ScopeId) : Option Scope :=
  σ.scopes[e]?

/-- The scope around a scope. -/
def outer? (σ : Store) (e : ScopeId) : Option ScopeId :=
  (σ.scope? e).bind Scope.outer

/-- Opens a scope, which gets the next index (`new_root`, and inside another scope
    `new_enclosed`). -/
def openScope (σ : Store) (outer : Option ScopeId) : ScopeId × Store :=
  (σ.scopes.size, { σ with scopes := σ.scopes.push { bindings := [], outer } })

/-- Binds a value to a name in a scope. -/
def define (σ : Store) (e : ScopeId) (name : String) (v : Value) : Store :=
  { σ with scopes := σ.scopes.modify e (·.define name v) }

/-- A scope and the scopes around it, from the inside out.  A scope lies only in
    older ones. -/
def chain (σ : Store) (e : ScopeId) : List ScopeId :=
  match σ.outer? e with
  | some o => if o < e then e :: chain σ o else [e]
  | none => [e]
termination_by e

/-- The value of a name, seen from a scope (`get`): what the scope binds, or else what
    the next scope around it that binds the name. -/
def lookup (σ : Store) (e : ScopeId) (name : String) : Option Value :=
  match σ.scope? e with
  | none => none
  | some s =>
    match s.get? name with
    | some v => some v
    | none =>
      match s.outer with
      | some o => if o < e then lookup σ o name else none
      | none => none
termination_by e

/-- Adds a text to what was printed. -/
def print (σ : Store) (text : String) : Store :=
  { σ with output := σ.output ++ text }

end Store

end Monkey
