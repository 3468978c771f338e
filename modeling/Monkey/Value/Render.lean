import Monkey.Syntax.Printer
import Monkey.Value.Enumeration

/-!
  Monkey/Value/Render.lean
  ========================
  **The text of a value.**

  A string is written without quotes, a function as its literal, and a value on
  its way out of a `return` as the value itself.  The entries of a hash stand in the
  order of an enumeration, which is left open.
-/
namespace Monkey

open Text

/-- The name of a built-in function. -/
def Builtin.name : Builtin → String
  | len => "len"
  | first => "first"
  | last => "last"
  | rest => "rest"
  | push => "push"
  | puts => "puts"

mutual

/-- The text of a value, with the entries of hashes in the order of an enumeration. -/
def Value.render (o : Enumeration := .stored) : Value → String
  | .integer i => Decimal.ofInt i.toInt
  | .boolean b => if b then "true" else "false"
  | .string s => s
  | .null => "null"
  | .array elements => "[" ++ ", ".intercalate (Value.renderAll o elements) ++ "]"
  | .hash entries =>
    "\x7b" ++ ", ".intercalate (o.arrange (Entry.renderAll o entries)) ++ "\x7d"
  | .function closure => closure.literal.render
  | .builtin b => "builtin function " ++ b.name
  | .returned v => v.render o
  | .error message => "ERROR: " ++ message

/-- The texts of values. -/
def Value.renderAll (o : Enumeration) : List Value → List String
  | [] => []
  | v :: vs => v.render o :: Value.renderAll o vs

/-- The text of an entry. -/
def Entry.render (o : Enumeration) : Entry → String
  | ⟨_, key, value⟩ => key.render o ++ ": " ++ value.render o

/-- The texts of entries, each with its hash key. -/
def Entry.renderAll (o : Enumeration) : List Entry → List (HashKey × String)
  | [] => []
  | e :: es => (e.filed, e.render o) :: Entry.renderAll o es

end

/-- The text of a function for inspection, which names its sort twice: that of the
    value and that of what the value holds. -/
def Value.inspectFunction? : Value → Option String
  | .function closure => some ("Function(Function(" ++ closure.literal.render ++ "))")
  | .builtin b => some ("Builtin(Builtin(" ++ b.name ++ "))")
  | _ => none

end Monkey
