import Monkey.Value

/-!
  Monkey/Value/Equality.lean
  ==========================
  **Equality of values.**

  Values of different sorts differ.  Two functions are the same when the same
  literal made them in the same scope; arrays and hashes are compared element by
  element, and everything else by what it holds.
-/
namespace Monkey

/-- Whether the same literal made two functions in the same scope. -/
def Closure.same (f g : Closure) : Bool :=
  f.literal.label == g.literal.label && f.scope == g.scope

mutual

/-- Equality of values. -/
def Value.same : Value → Value → Bool
  | .integer a, .integer b => a == b
  | .boolean a, .boolean b => a == b
  | .string a, .string b => a == b
  | .null, .null => true
  | .array as, .array bs => Value.sameAll as bs
  | .hash as, .hash bs => Entry.sameAll as bs
  | .function f, .function g => f.same g
  | .builtin a, .builtin b => a == b
  | .returned a, .returned b => a.same b
  | .error a, .error b => a == b
  | _, _ => false

/-- Equality of lists of values. -/
def Value.sameAll : List Value → List Value → Bool
  | [], [] => true
  | a :: as, b :: bs => a.same b && Value.sameAll as bs
  | _, _ => false

/-- Equality of entries. -/
def Entry.same : Entry → Entry → Bool
  | ⟨filed, key, value⟩, ⟨filed', key', value'⟩ =>
    filed == filed' && key.same key' && value.same value'

/-- Equality of lists of entries. -/
def Entry.sameAll : List Entry → List Entry → Bool
  | [], [] => true
  | a :: as, b :: bs => a.same b && Entry.sameAll as bs
  | _, _ => false

end

instance : BEq Value := ⟨Value.same⟩

end Monkey
