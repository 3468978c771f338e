import Monkey.Text.DefaultIgnorable
import Monkey.Text.GraphemeExtend
import Monkey.Text.Printable

/-!
  Monkey/Text/Quoted.lean
  =======================
  **Quoted file names.**

  A file name in a diagnostic stands between double quotes.  The double quote
  and the backslash get a backslash in front, and the usual control characters
  are written with their letter (`\0`, `\t`, `\n`, `\r`).  A character that
  cannot be printed, that leaves no trace, or that would be drawn on the
  character before it, is written as its code point in hexadecimal.  All other
  characters, the single quote among them, stand for themselves.
-/
namespace Monkey.Text.Quoted

/-- The lower-case hexadecimal digits of a number, without leading zeros. -/
def hexDigits (n : Nat) : List Char :=
  let d := n % 16
  let c := Char.ofNat (if d < 10 then 0x30 + d else 0x57 + d)
  if n < 16 then [c] else hexDigits (n / 16) ++ [c]
termination_by n

/-- The halfwidth sound marks of Katakana, U+FF9E and U+FF9F.  They extend the
    character before them, but are letters and take a place of their own. -/
def isHalfwidthSoundMark (c : Char) : Bool :=
  0xFF9E ≤ c.toNat && c.toNat ≤ 0xFF9F

/-- Whether a character is drawn on the one before. -/
def isAttached (c : Char) : Bool :=
  GraphemeExtend.isGraphemeExtend c && !isHalfwidthSoundMark c

/-- Whether a character shows what it is when it stands between quotes. -/
def standsForItself (c : Char) : Bool :=
  Printable.isPrintable c && !DefaultIgnorable.isDefaultIgnorable c && !isAttached c

/-- What stands for one character between the quotes. -/
def encodeChar (c : Char) : List Char :=
  match c with
  | '\x00' => ['\\', '0']
  | '\t' => ['\\', 't']
  | '\n' => ['\\', 'n']
  | '\r' => ['\\', 'r']
  | '"' => ['\\', '"']
  | '\\' => ['\\', '\\']
  | c => if standsForItself c then [c] else ['\\', 'u', '\x7b'] ++ hexDigits c.toNat ++ ['\x7d']

/-- A file name between double quotes. -/
def encode (s : String) : String :=
  String.ofList ('"' :: s.toList.flatMap encodeChar ++ ['"'])

end Monkey.Text.Quoted
