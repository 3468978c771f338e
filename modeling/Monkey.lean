import Monkey.Main
import Monkey.Value.Equality
import Monkey.Proofs.Eval.Keeps
import Monkey.Proofs.Eval.Operators
import Monkey.Proofs.Eval.Clean
import Monkey.Proofs.Eval.Record
import Monkey.Proofs.Eval.Signal
import Monkey.Proofs.Syntax.Grammar
import Monkey.Proofs.Syntax.Writing
import Monkey.Proofs.Text.Encoding
import Monkey.Proofs.Text.Numeral
import Monkey.Proofs.Token.Scan
import Monkey.Proofs.Syntax.Canonical
import Monkey.Proofs.Syntax.RoundTrip
import Monkey.Proofs.Eval.Isolation
import Monkey.Proofs.Syntax.Wording
import Monkey.Syntax.MapTokens
import Monkey.Value.MapTokens
import Monkey.Proofs.Eval.Tokens
import Monkey.Proofs.Token.Join
import Monkey.Proofs.Syntax.Transport
import Monkey.Proofs.Syntax.Append
import Monkey.Proofs.Eval.Join
import Monkey.Proofs.Syntax.Locality
import Monkey.Proofs.Syntax.Recovery
import Monkey.Proofs.Token.Lexicon
import Monkey.Proofs.Token.Cursor
import Monkey.Proofs.Token.Lines
import Monkey.Proofs.Eval.Scoping
import Monkey.Proofs.Eval.Lookup
import Monkey.Proofs.Syntax.Resumption
import Monkey.Proofs.Syntax.Ebnf
import Monkey.Proofs.Syntax.Sentence
import Monkey.Proofs.Syntax.Reader
import Monkey.Proofs.Syntax.Reader.Closed
import Monkey.Proofs.Syntax.Reader.Positions
import Monkey.Proofs.Syntax.Reader.Agreement
import Monkey.Proofs.Syntax.Reader.Program
import Monkey.Proofs.Syntax.Reader.Accounts
import Monkey.Proofs.Token.Respelling
import Monkey.Proofs.Syntax.Offender
import Monkey.Proofs.Syntax.Reader.Order
import Monkey.Proofs.Digest
import Monkey.Proofs.Eval.Bound
import Monkey.Proofs.Eval.Rules
import Monkey.Proofs.Eval.Arithmetic
import Monkey.Proofs.Eval.HashLiteral
import Monkey.Proofs.Eval.Calls
import Monkey.Proofs.Eval.Folding
import Monkey.Proofs.Eval.MapReduce
import Monkey.Proofs.Value.Equality
import Monkey.Proofs.Value.ReadBack
