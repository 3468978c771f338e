import Monkey.Text.Decimal
import Monkey.Text.Quoted

/-!
  Monkey/Json.lean
  ================
  **JSON documents and their indented text.**

  The members of an object keep their order.  `Json.pretty` writes every element
  and every member on a line of its own, two blanks deeper than its parent;
  empty arrays and objects are written on one line.
-/
namespace Monkey

/-- A JSON document; its numbers are integers. -/
inductive Json where
  | null
  | bool (b : Bool)
  | int (i : Int)
  | string (s : String)
  | array (elements : List Json)
  | object (members : List (String × Json))
deriving Repr, Inhabited

namespace Json

open Text

/-- A natural number as a document. -/
def nat (n : Nat) : Json :=
  .int n

/-! ### Strings -/

/-- Four hexadecimal digits. -/
def hex4 (n : Nat) : List Char :=
  let ds := Quoted.hexDigits n
  List.replicate (4 - ds.length) '0' ++ ds

/-- What stands for one character in a string: quote, backslash and the
    characters below U+0020 are escaped. -/
def escapeChar (c : Char) : List Char :=
  match c with
  | '"' => ['\\', '"']
  | '\\' => ['\\', '\\']
  | '\x08' => ['\\', 'b']
  | '\x0c' => ['\\', 'f']
  | '\n' => ['\\', 'n']
  | '\r' => ['\\', 'r']
  | '\t' => ['\\', 't']
  | c => if c.toNat < 0x20 then ['\\', 'u'] ++ hex4 c.toNat else [c]

/-- A text as a JSON string. -/
def quote (s : String) : String :=
  String.ofList ('"' :: s.toList.flatMap escapeChar ++ ['"'])

/-! ### Indented text -/

/-- A line break and the blanks of a nesting depth. -/
def lineBreak (depth : Nat) : String :=
  String.ofList ('\n' :: List.replicate (2 * depth) ' ')

/-- Items between two brackets, each on a line of its own. -/
def enclose (opening closing : String) (depth : Nat) (items : List String) : String :=
  if items.isEmpty then opening ++ closing
  else
    opening ++ lineBreak (depth + 1) ++ ("," ++ lineBreak (depth + 1)).intercalate items ++
      lineBreak depth ++ closing

mutual

/-- The text of a document that stands at a nesting depth. -/
def prettyAt (depth : Nat) : Json → String
  | .null => "null"
  | .bool b => if b then "true" else "false"
  | .int i => Decimal.ofInt i
  | .string s => quote s
  | .array elements => enclose "[" "]" depth (prettyElements (depth + 1) elements)
  | .object members => enclose "\x7b" "\x7d" depth (prettyMembers (depth + 1) members)

/-- The texts of the elements of an array. -/
def prettyElements (depth : Nat) : List Json → List String
  | [] => []
  | j :: js => prettyAt depth j :: prettyElements depth js

/-- The texts of the members of an object. -/
def prettyMembers (depth : Nat) : List (String × Json) → List String
  | [] => []
  | (key, j) :: members => (quote key ++ ": " ++ prettyAt depth j) :: prettyMembers depth members

end

/-- The indented text of a document. -/
def pretty (j : Json) : String :=
  prettyAt 0 j

end Json

end Monkey
