import Monkey.Fault
import Monkey.Value.Render

/-!
  Monkey/Builtin.lean
  ===================
  **Built-in functions.**

  A call has a result and prints a text, which is empty for all of them but
  `puts`.  The number of arguments is checked before their sorts.
-/
namespace Monkey

open Text

namespace Builtin

/-- Every built-in function, once, in the order of their names. -/
def all : List Builtin :=
  [first, last, len, push, puts, rest]

theorem mem_all (b : Builtin) : b ∈ all := by
  cases b <;> decide

/-- The built-in function of a given name (`lookup`). -/
def ofName? (s : String) : Option Builtin :=
  all.find? fun b => b.name == s

/-- The built-in functions have different names. -/
theorem ofName?_name (b : Builtin) : ofName? b.name = some b := by
  cases b <;> rfl

/-- An error about the number of arguments (`wrong_arity`). -/
def wrongCount (wanted : Nat) (arguments : List Value) : Value :=
  (Fault.builtinArgumentCount wanted arguments.length).toValue

/-- Hands the elements of an array on (`array_arg`); any other value is an error. -/
def withArray (b : Builtin) (v : Value) (f : List Value → Value) : Value :=
  match v with
  | .array elements => f elements
  | v => (Fault.notAnArray b.name v.sort).toValue

/-- The result of a call; `len`, `first`, `last`, `rest`, `push` and `puts` are
    functions of their own names. -/
def result (b : Builtin) (arguments : List Value) : Value :=
  match b, arguments with
  | len, [.string s] => .integer (Int64.ofNat (Utf8.encode s).length)
  | len, [.array elements] => .integer (Int64.ofNat elements.length)
  | len, [v] => (Fault.noLength v.sort).toValue
  | len, vs => wrongCount 1 vs
  | first, [v] => withArray b v fun elements => elements.head?.getD .null
  | first, vs => wrongCount 1 vs
  | last, [v] => withArray b v fun elements => elements.getLast?.getD .null
  | last, vs => wrongCount 1 vs
  | rest, [v] => withArray b v fun elements => if elements.isEmpty then .null else .array elements.tail
  | rest, vs => wrongCount 1 vs
  | push, [v, new] => withArray b v fun elements => .array (elements ++ [new])
  | push, vs => wrongCount 2 vs
  | puts, _ => .null

/-- The text that a call prints: `puts` writes each argument on a line. -/
def printed (b : Builtin) (arguments : List Value) (o : Enumeration := .stored) : String :=
  match b with
  | puts => String.join (arguments.map fun v => v.render o ++ "\n")
  | _ => ""

end Builtin

end Monkey
