import Monkey.Text.Utf8
import Monkey.Token

/-!
  Monkey/Token/Lexer.lean
  =======================
  **From bytes to tokens.**

  Scanning has two stages.  `Piece.cut` cuts the bytes into pieces, each of them
  as long as its class allows: gaps, which are layout and comments, and lexemes,
  which have a kind.  `Token.ofPieces` then counts lines, drops the gaps and
  ends the list with one token for the end of input.  A name in backquotes, such as
  `scan_token`, is that of the scanner's function that a definition stands for.

  No byte is lost: the texts of the pieces, one behind the other, are the bytes
  (`flatMap_text_cut`), and no piece is empty (`text_ne_nil_of_mem_cut`).
-/
namespace Monkey

open Text

/-! ### Classes of bytes -/

namespace Byte

/-- The character with the same number as the byte. -/
def char (b : UInt8) : Char :=
  Char.ofNat b.toNat

/-- The line feed. -/
def lineFeed : UInt8 := 0x0A

/-- Space, tab, carriage return and line feed. -/
def isLayout (b : UInt8) : Bool :=
  b == 0x20 || b == 0x09 || b == 0x0D || b == lineFeed

/-- The digits from `0` to `9`. -/
def isDigit (b : UInt8) : Bool :=
  (char b).isDigit

/-- A letter from `A` to `Z` or `a` to `z`, or the underscore. -/
def isWordStart (b : UInt8) : Bool :=
  (char b).isAlpha || char b == '_'

/-- What may stand in a word behind its first byte. -/
def isWordPart (b : UInt8) : Bool :=
  isWordStart b || isDigit b

/-- A byte from `0x80` to `0xBF`, which continues a character. -/
def isContinuation (b : UInt8) : Bool :=
  0x80 ≤ b && b ≤ 0xBF

/-- Anything but a line feed. -/
def inLine (b : UInt8) : Bool :=
  b != lineFeed

/-- Anything but a double quote. -/
def inQuotes (b : UInt8) : Bool :=
  char b != '"'

end Byte

/-- The kind of a byte that is a token on its own, whatever follows. -/
def Token.Kind.ofPunctuator? (c : Char) : Option Kind :=
  match c with
  | '(' => some leftParen
  | ')' => some rightParen
  | '{' => some leftBrace
  | '}' => some rightBrace
  | '[' => some leftBracket
  | ']' => some rightBracket
  | ',' => some comma
  | ':' => some colon
  | ';' => some semicolon
  | '-' => some minus
  | '+' => some plus
  | '*' => some star
  | '<' => some less
  | '>' => some greater
  | _ => none

/-! ### Pieces -/

/-- A piece of the source: the text of a token, or a gap, which has no kind. -/
structure Piece where
  kind : Option Token.Kind
  text : List UInt8
deriving DecidableEq, Repr

namespace Piece

/-- The number of line feeds in a piece. -/
def lineFeeds (p : Piece) : Nat :=
  p.text.count Byte.lineFeed

/-- Whether the bytes start with a given character. -/
def startsWith (c : Char) (bs : List UInt8) : Bool :=
  bs.head?.any fun b => Byte.char b == c

/-- The kind of the piece that starts with `b` and goes on in `bs`, and the
    number of bytes of `bs` that belong to it: `scan_token`, with `scan_string`,
    `scan_integer` and `scan_identifier`. -/
def munch (b : UInt8) (bs : List UInt8) : Option Token.Kind × Nat :=
  let c := Byte.char b
  if Byte.isLayout b then (none, 0)
  else if let some kind := Token.Kind.ofPunctuator? c then (some kind, 0)
  else if c = '!' then
    if startsWith '=' bs then (some .bangEqual, 1) else (some .bang, 0)
  else if c = '=' then
    if startsWith '=' bs then (some .equalEqual, 1) else (some .equal, 0)
  else if c = '/' then
    if startsWith '/' bs then (none, (bs.takeWhile Byte.inLine).length) else (some .slash, 0)
  else if c = '"' then
    let inside := bs.takeWhile Byte.inQuotes
    if inside.length < bs.length then (some .string, inside.length + 1)
    else (some .illegal, inside.length)
  else if Byte.isDigit b then (some .integer, (bs.takeWhile Byte.isDigit).length)
  else if Byte.isWordStart b then
    let more := bs.takeWhile Byte.isWordPart
    (some (.ofWord (Utf8.decodeLossy (b :: more))), more.length)
  else (some .illegal, (bs.takeWhile Byte.isContinuation).length)

/-- Cuts the bytes into pieces. -/
def cut : List UInt8 → List Piece
  | [] => []
  | b :: bs =>
    let (kind, n) := munch b bs
    { kind, text := b :: bs.take n } :: cut (bs.drop n)
termination_by bs => bs.length
decreasing_by
  simp only [List.length_drop, List.length_cons]
  omega

theorem flatMap_text_cut (bs : List UInt8) : (cut bs).flatMap text = bs := by
  fun_induction cut bs with
  | case1 => rfl
  | case2 b bs kind n _ ih => simp [ih]

theorem text_ne_nil_of_mem_cut {bs : List UInt8} {p : Piece} (h : p ∈ cut bs) : p.text ≠ [] := by
  fun_induction cut bs with
  | case1 => simp at h
  | case2 b bs kind n _ ih =>
    rcases List.mem_cons.1 h with rfl | h
    · simp
    · exact ih h

/-- The bytes of a piece that count as the text of its token (`literal`): all of
    them, but for the quotes of a string. -/
def content (kind : Token.Kind) (text : List UInt8) : List UInt8 :=
  if kind = .string then text.tail.dropLast else text

end Piece

/-! ### Tokens -/

namespace Token

/-- The tokens of a list of pieces that starts on a given line.  A token has the
    line that its first byte stands on. -/
def ofPieces (line : Nat) : List Piece → List Token
  | [] => [{ kind := .endOfInput, literal := "", line }]
  | p :: ps =>
    match p.kind with
    | none => ofPieces (line + p.lineFeeds) ps
    | some kind =>
      { kind, literal := Utf8.decodeLossy (Piece.content kind p.text), line } ::
        ofPieces (line + p.lineFeeds) ps

/-- The tokens of a source, whose lines count from one (`tokenize`). -/
def scan (source : List UInt8) : List Token :=
  ofPieces 1 (Piece.cut source)

end Token

end Monkey
