/-!
  Monkey/Token.lean
  =================
  **Tokens.**

  A token is a kind, the text it was built from and the line it starts on.  The
  text of a string token stands without its quotes.  `illegal` marks bytes that
  belong to no other kind, and `endOfInput` stands once at the end of a scan.
-/
namespace Monkey

/-! ### Kinds -/

/-- The kinds of tokens.  Reserved words have a kind each. -/
inductive Token.Kind where
  | leftParen
  | rightParen
  | leftBrace
  | rightBrace
  | leftBracket
  | rightBracket
  | comma
  | colon
  | semicolon
  | minus
  | plus
  | slash
  | star
  | bang
  | bangEqual
  | equal
  | equalEqual
  | greater
  | less
  | identifier
  | integer
  | string
  | fnWord
  | letWord
  | trueWord
  | falseWord
  | ifWord
  | elseWord
  | returnWord
  | illegal
  | endOfInput
deriving DecidableEq, Repr, Inhabited

namespace Token.Kind

/-- The name of a kind, as diagnostics and listings write it. -/
def name : Kind → String
  | leftParen => "LEFT_PAREN"
  | rightParen => "RIGHT_PAREN"
  | leftBrace => "LEFT_BRACE"
  | rightBrace => "RIGHT_BRACE"
  | leftBracket => "LEFT_BRACKET"
  | rightBracket => "RIGHT_BRACKET"
  | comma => "COMMA"
  | colon => "COLON"
  | semicolon => "SEMICOLON"
  | minus => "MINUS"
  | plus => "PLUS"
  | slash => "SLASH"
  | star => "STAR"
  | bang => "BANG"
  | bangEqual => "BANG_EQUAL"
  | equal => "EQUAL"
  | equalEqual => "EQUAL_EQUAL"
  | greater => "GREATER"
  | less => "LESS"
  | identifier => "IDENTIFIER"
  | integer => "INTEGER"
  | string => "STRING"
  | fnWord => "FUNCTION"
  | letWord => "LET"
  | trueWord => "TRUE"
  | falseWord => "FALSE"
  | ifWord => "IF"
  | elseWord => "ELSE"
  | returnWord => "RETURN"
  | illegal => "ILLEGAL"
  | endOfInput => "EOF"

/-- Every kind, once. -/
def all : List Kind :=
  [leftParen, rightParen, leftBrace, rightBrace, leftBracket, rightBracket, comma, colon,
    semicolon, minus, plus, slash, star, bang, bangEqual, equal, equalEqual, greater, less,
    identifier, integer, string, fnWord, letWord, trueWord, falseWord, ifWord, elseWord,
    returnWord, illegal, endOfInput]

theorem mem_all (k : Kind) : k ∈ all := by
  cases k <;> decide

/-- The kind of a given name. -/
def ofName? (s : String) : Option Kind :=
  all.find? fun k => k.name == s

/-- The kinds have different names. -/
theorem ofName?_name (k : Kind) : ofName? k.name = some k := by
  cases k <;> rfl

/-- The kind of a word: a reserved word, which is one of `KEYWORDS`, has its own, any
    other word is an identifier. -/
def ofWord (s : String) : Kind :=
  if s = "fn" then fnWord
  else if s = "let" then letWord
  else if s = "true" then trueWord
  else if s = "false" then falseWord
  else if s = "if" then ifWord
  else if s = "else" then elseWord
  else if s = "return" then returnWord
  else identifier

end Token.Kind

/-! ### Tokens -/

/-- A token: its kind, its text and the line of its first byte. -/
structure Token where
  kind : Token.Kind
  literal : String
  line : Nat
deriving DecidableEq, Repr, Inhabited

namespace Token

/-- The kind and the text of a token, as a listing writes them. -/
def render (t : Token) : String :=
  t.kind.name ++ " " ++ t.literal

end Token

end Monkey
