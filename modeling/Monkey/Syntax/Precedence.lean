import Monkey.Syntax

/-!
  Monkey/Syntax/Precedence.lean
  =============================
  **Binding strength.**

  Two tables say what may stand behind an operand: one gives each token a level,
  from `==` at the bottom to calls at the top, the other the extension that it
  begins, which is an infix operation, a call or an indexing.  A token is above the
  lowest level if and only if it extends something (`Precedence.lowest_lt_of_iff`).
-/
namespace Monkey

/-! ### Levels -/

/-- The levels of binding strength, the weakest first. -/
inductive Precedence where
  | lowest
  | equals
  | lessGreater
  | sum
  | product
  | prefixOp
  | call
deriving DecidableEq, Repr

namespace Precedence

/-- The rank of a level. -/
def rank : Precedence → Nat
  | lowest => 0
  | equals => 1
  | lessGreater => 2
  | sum => 3
  | product => 4
  | prefixOp => 5
  | call => 6

instance : LT Precedence := ⟨fun a b => a.rank < b.rank⟩

instance : LE Precedence := ⟨fun a b => a.rank ≤ b.rank⟩

instance (a b : Precedence) : Decidable (a < b) :=
  inferInstanceAs (Decidable (a.rank < b.rank))

instance (a b : Precedence) : Decidable (a ≤ b) :=
  inferInstanceAs (Decidable (a.rank ≤ b.rank))

/-- The name of a level. -/
def name : Precedence → String
  | lowest => "Lowest"
  | equals => "Equals"
  | lessGreater => "LessGreater"
  | sum => "Sum"
  | product => "Product"
  | prefixOp => "Prefix"
  | call => "Call"

/-- The level of a token (`of`); the lowest for a token that extends nothing. -/
def of : Token.Kind → Precedence
  | .equalEqual => equals
  | .bangEqual => equals
  | .less => lessGreater
  | .greater => lessGreater
  | .plus => sum
  | .minus => sum
  | .star => product
  | .slash => product
  | .leftParen => call
  | .leftBracket => call
  | _ => lowest

end Precedence

/-! ### Extensions -/

/-- The infix operator that a token of a given kind is, as `parse_infix` has it. -/
def InfixOperator.ofKind? : Token.Kind → Option InfixOperator
  | .plus => some plus
  | .minus => some minus
  | .star => some star
  | .slash => some slash
  | .less => some less
  | .greater => some greater
  | .equalEqual => some equal
  | .bangEqual => some notEqual
  | _ => none

/-- The ways in which an operand is extended to a larger expression. -/
inductive Extension where
  | infixOp (op : InfixOperator)
  | call
  | index
deriving DecidableEq, Repr

namespace Extension

/-- The extension that a token of a given kind begins, by the cases of `parse_infix`. -/
def ofKind? : Token.Kind → Option Extension
  | .leftParen => some call
  | .leftBracket => some index
  | k => (InfixOperator.ofKind? k).map infixOp

end Extension

/-- The tokens above the lowest level are those that extend an operand. -/
theorem Precedence.lowest_lt_of_iff (k : Token.Kind) :
    lowest < of k ↔ (Extension.ofKind? k).isSome = true := by
  cases k <;> decide

end Monkey
