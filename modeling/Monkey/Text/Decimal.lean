/-!
  Monkey/Text/Decimal.lean
  ========================
  **Decimal numerals.**

  `ofNat` and `ofInt` write a number with the fewest digits.  `int?` reads an
  optional sign and at least one digit, leading zeros allowed, and `int64?`
  moreover asks that the number fits in 64 signed bits.
-/
namespace Monkey.Text.Decimal

/-! ### Writing -/

/-- The character of a digit below ten. -/
def digitChar (d : Nat) : Char :=
  Char.ofNat (0x30 + d)

/-- The digits of a number, the most significant first, without leading zeros. -/
def digits (n : Nat) : List Char :=
  if n < 10 then [digitChar n] else digits (n / 10) ++ [digitChar (n % 10)]
termination_by n

/-- A natural number in decimal. -/
def ofNat (n : Nat) : String :=
  String.ofList (digits n)

/-- The characters of an integer: a minus sign before a negative number. -/
def intChars (i : Int) : List Char :=
  if i < 0 then '-' :: digits i.natAbs else digits i.natAbs

/-- An integer in decimal. -/
def ofInt (i : Int) : String :=
  String.ofList (intChars i)

/-! ### Reading -/

/-- The number that a run of digits stands for. -/
def value (ds : List Char) : Nat :=
  ds.foldl (fun n d => n * 10 + (d.toNat - 0x30)) 0

/-- Reads a non-empty run of digits. -/
def nat? (cs : List Char) : Option Nat :=
  if cs ≠ [] ∧ cs.all Char.isDigit then some (value cs) else none

/-- Reads digits behind an optional sign. -/
def int? : List Char → Option Int
  | '+' :: cs => (nat? cs).map Int.ofNat
  | '-' :: cs => (nat? cs).map fun n : Nat => -(n : Int)
  | cs => (nat? cs).map Int.ofNat

/-- Reads an integer between `-2^63` and `2^63 - 1`. -/
def int64? (s : String) : Option Int64 :=
  match int? s.toList with
  | some i => if Int64.minValue.toInt ≤ i ∧ i ≤ Int64.maxValue.toInt then some (Int64.ofInt i) else none
  | none => none

end Monkey.Text.Decimal
