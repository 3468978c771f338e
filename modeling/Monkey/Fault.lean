import Monkey.Syntax
import Monkey.Text.Decimal
import Monkey.Value

/-!
  Monkey/Fault.lean
  =================
  **What can go wrong while a program runs.**

  Every fault has a message, and as a value it is an error with that message.
-/
namespace Monkey

open Text

/-- The causes of errors at run time. -/
inductive Fault where
  | unbound (name : String)
  | typeMismatch (left : ValueSort) (op : InfixOperator) (right : ValueSort)
  | unknownPrefix (op : PrefixOperator) (right : ValueSort)
  | unknownInfix (left : ValueSort) (op : InfixOperator) (right : ValueSort)
  | divisionByZero (dividend : Int64)
  | unhashable (key : ValueSort)
  | notIndexable (left index : ValueSort)
  | notCallable (callee : ValueSort)
  /-- A function has other than the given number of arguments. -/
  | argumentCount (wanted given : Nat)
  /-- A built-in function has other than the given number of arguments. -/
  | builtinArgumentCount (wanted given : Nat)
  /-- An argument has no length. -/
  | noLength (argument : ValueSort)
  | notAnArray (builtin : String) (argument : ValueSort)
deriving DecidableEq, Repr

namespace Fault

/-- The wording of a fault. -/
def message : Fault → String
  | unbound name => "identifier not found: " ++ name
  | typeMismatch left op right =>
    "type mismatch: " ++ left.name ++ " " ++ op.text ++ " " ++ right.name
  | unknownPrefix op right => "unknown operator: " ++ op.text ++ right.name
  | unknownInfix left op right =>
    "unknown operator: " ++ left.name ++ " " ++ op.text ++ " " ++ right.name
  | divisionByZero dividend => "division by zero: " ++ Decimal.ofInt dividend.toInt ++ " / 0"
  | unhashable key => "unusable as hash key: " ++ key.name
  | notIndexable left index =>
    "index operator not supported: " ++ left.name ++ "[" ++ index.name ++ "]"
  | notCallable callee => "not a function: " ++ callee.name
  | argumentCount wanted given =>
    "wrong number of arguments: want=" ++ Decimal.ofNat wanted ++ ", got=" ++ Decimal.ofNat given
  | builtinArgumentCount wanted given =>
    "wrong number of arguments. got=" ++ Decimal.ofNat given ++ ", want=" ++ Decimal.ofNat wanted
  | noLength argument => "argument to `len` not supported, got " ++ argument.name
  | notAnArray builtin argument =>
    "argument to `" ++ builtin ++ "` must be ARRAY, got " ++ argument.name

/-- The error value of a fault. -/
def toValue (f : Fault) : Value :=
  .error f.message

end Fault

end Monkey
