import Monkey.Eval
import Monkey.Syntax.Parser

/-!
  Monkey/Session.lean
  ===================
  **Loading and running programs.**

  Before a program runs it is loaded into the store, which gives its function
  literals labels that are still free.  So the functions of two programs differ, even
  where the literals have the same text.

  Labels are given out at every run.  If a session runs one and the same program twice,
  the functions of the second run are none of those of the first, as if the text had
  been read twice.  A program that is read once and kept would share its literals
  between its runs.  The commands run what they read once (`Monkey.Cli`), and the other
  case is left out.

  A session runs one program after another in the same root scope.
-/
namespace Monkey

namespace Store

/-- Loads a program: its function literals get labels that are still free, also if it
    has been loaded before. -/
def load (σ : Store) (p : Program) : Program × Store :=
  let (p, next) := p.label.run σ.nextLabel
  (p, { σ with nextLabel := next })

/-- Evaluates a phrase in a scope, at most `limit` evaluations nested in one
    another. -/
def evaluate (σ : Store) (limit : Nat) (phrase : Phrase) (e : ScopeId) : Option (Value × Store) :=
  (eval limit phrase e).run σ

/-- Takes the printed text out of the store. -/
def takeOutput (σ : Store) : String × Store :=
  (σ.output, { σ with output := "" })

end Store

/-- A store and the scope in which programs run. -/
structure Session where
  store : Store
  root : ScopeId

namespace Session

/-- The session in which nothing has been run. -/
def start (o : Enumeration := .stored) : Session :=
  let (root, store) := (Store.empty o).openScope none
  { store, root }

/-- Runs a program (`interpret`), after loading it. -/
def run (s : Session) (limit : Nat) (p : Program) : Option (Value × Session) :=
  let (p, store) := s.store.load p
  match store.evaluate limit (.program p) s.root with
  | some (v, store) => some (v, { s with store })
  | none => none

/-- The value that the root scope binds to a name. -/
def get? (s : Session) (name : String) : Option Value :=
  s.store.lookup s.root name

/-- Takes the text printed so far out of the session. -/
def takeOutput (s : Session) : String × Session :=
  let (text, store) := s.store.takeOutput
  (text, { s with store })

end Session

end Monkey
