import Monkey.Session
import Monkey.Syntax.Document
import Monkey.Syntax.Printer
import Monkey.Text.Blank
import Monkey.Text.Quoted

/-!
  Monkey/Cli.lean
  ===============
  **The command line, as a function.**

  Four commands: `tokenize` and `parse` list the tokens and the canonical text of
  a program, or both as JSON; `run` runs it; `repl` runs the lines of its input,
  each as a program of its own, in one session.

  Here it is said what a command writes to its two outputs and with which code
  it ends.  Reading the input and writing the outputs is left to the program.
-/
namespace Monkey.Cli

open Text

/-! ### Arguments -/

/-- The commands. -/
inductive Command where
  | tokenize (json : Bool)
  | parse (json : Bool)
  | run
  | repl
deriving DecidableEq, Repr

/-- What is asked for: a command, the file to read instead of the standard input,
    and whether a log is kept. -/
structure Request where
  command : Command
  file : Option String
  log : Bool
deriving DecidableEq, Repr

/-- What stands behind the name of a command. -/
structure Arguments where
  json : Bool
  log : Bool
  file : Option String
deriving DecidableEq, Repr

namespace Arguments

/-- Nothing. -/
def empty : Arguments :=
  { json := false, log := false, file := none }

/-- Takes an option.  None may be given twice. -/
def withOption? (a : Arguments) (option : String) : Option Arguments :=
  if option = "--log" ∧ !a.log then some { a with log := true }
  else if option = "--json" ∧ !a.json then some { a with json := true }
  else none

/-- Takes the name of a file.  It may not be empty, and there may be only one. -/
def withFile? (a : Arguments) (name : String) : Option Arguments :=
  if name.isEmpty ∨ a.file.isSome then none else some { a with file := some name }

/-- Reads arguments behind others.  What starts with a dash is an option, a single
    dash excepted.  Behind a double dash there are no more options. -/
def readMore? (a : Arguments) : List String → Option Arguments
  | [] => some a
  | "--" :: names => names.foldlM withFile? a
  | arg :: args =>
    let read := if arg.startsWith "-" ∧ arg ≠ "-" then a.withOption? arg else a.withFile? arg
    read.bind fun a => a.readMore? args

end Arguments

/-- The command of a name, if it takes the arguments behind the name. -/
def command? (name : String) (a : Arguments) : Option Command :=
  match name with
  | "tokenize" => some (.tokenize a.json)
  | "parse" => some (.parse a.json)
  | "run" => if a.json then none else some .run
  | "repl" => if a.json ∨ a.file.isSome then none else some .repl
  | _ => none

/-- Reads the name of a command and what stands behind it. -/
def plainRequest? : List String → Option Request
  | [] => none
  | name :: args => do
    let a ← Arguments.empty.readMore? args
    let command ← command? name a
    return { command, file := a.file, log := a.log }

/-- Reads the arguments of a call; `none` if they ask for nothing known.  The log
    may be asked for in front of the command, behind it, or both. -/
def request? : List String → Option Request
  | "--log" :: args => (plainRequest? args).map fun r => { r with log := true }
  | args => plainRequest? args

/-! ### Input -/

/-- Why a file cannot be read. -/
inductive FileFault.Cause where
  /-- There is nothing of this name. -/
  | missing
  /-- What the name takes for a directory is none. -/
  | notDirectory
  /-- The name, or a part of it, is longer than names can be. -/
  | nameTooLong
  /-- The name is that of a directory. -/
  | directory
deriving DecidableEq, Repr

/-- The wording of a cause, with its number. -/
def FileFault.Cause.message : FileFault.Cause → String
  | .missing => "No such file or directory (os error 2)"
  | .notDirectory => "Not a directory (os error 20)"
  | .nameTooLong => "File name too long (os error 36)"
  | .directory => "Is a directory (os error 21)"

/-- A file that cannot be read. -/
structure FileFault where
  name : String
  cause : FileFault.Cause
deriving DecidableEq, Repr

/-- The wording of a fault with a file, and of its cause.  A directory can be
    opened, and only then not be read. -/
def FileFault.message (fault : FileFault) : String :=
  let step := if fault.cause = .directory then "read" else "open"
  "Failed to " ++ step ++ " file " ++ Quoted.encode fault.name ++
    "\n\nCaused by:\n    " ++ fault.cause.message

/-! ### Outcomes -/

/-- What a command writes to its outputs, and the code with which it ends. -/
structure Outcome where
  code : Nat
  out : String
  err : String
deriving DecidableEq, Repr

namespace Outcome

/-- A success that writes a text. -/
def success (out : String) : Outcome :=
  { code := 0, out, err := "" }

/-- An input that cannot be read. -/
def unreadable (message : String) : Outcome :=
  { code := 1, out := "", err := "Error: " ++ message ++ "\n" }

/-- A program with diagnostics. -/
def rejected (r : Reading) : Outcome :=
  { code := 65, out := "", err := r.report ++ "\n" }

/-- An evaluation that goes deeper than the limit. -/
def tooDeep : Outcome :=
  { code := 134, out := "", err := "evaluation is nested too deeply\n" }

end Outcome

/-! ### Commands on a whole program -/

/-- Lists tokens. -/
def tokenize (json : Bool) (source : List UInt8) : Outcome :=
  let tokens := Token.scan source
  if json then .success ((Json.array (tokens.map Token.toJson)).pretty ++ "\n")
  else .success (String.join (tokens.map fun t => t.render ++ "\n"))

/-- Writes a program. -/
def parse (json : Bool) (source : List UInt8) : Outcome :=
  let r := Program.readSource source
  if r.isClean then
    .success ((if json then r.program.toJson.pretty else r.program.render) ++ "\n")
  else .rejected r

/-- Runs a program.  Its value is written behind what it printed, unless it is
    null or an error. -/
def run (limit : Nat) (source : List UInt8) : Outcome :=
  let r := Program.readSource source
  if r.isClean then
    match Session.start.run limit r.program with
    | none => .tooDeep
    | some (.error message, s) =>
      { code := 70, out := s.store.output, err := "ERROR: " ++ message ++ "\n" }
    | some (.null, s) => .success s.store.output
    | some (v, s) => .success (s.store.output ++ v.render s.store.enumeration ++ "\n")
  else .rejected r

/-! ### The interactive session -/

/-- What is written before each line is read. -/
def prompt : String := ">> "

/-- What a line of an interactive session leads to. -/
inductive Answer where
  /-- The session goes on, after writing to its outputs. -/
  | goOn (out err : String) (session : Session)
  /-- The session ends with a code and a message. -/
  | stop (code : Nat) (err : String)

/-- The answer to a line.  A blank line does nothing. -/
def answer (limit : Nat) (s : Session) (line : List UInt8) : Answer :=
  match Utf8.decode? line with
  | .error _ =>
    .stop 1 "Error: Failed to read line: stream did not contain valid UTF-8\n"
  | .ok text =>
    if Blank.isBlank text then .goOn "" "" s
    else
      let r := Program.readSource line
      if r.isClean then
        match s.run limit r.program with
        | none => .stop Outcome.tooDeep.code Outcome.tooDeep.err
        | some (v, s) =>
          let (printed, s) := s.takeOutput
          .goOn (printed ++ v.render s.store.enumeration ++ "\n") "" s
      else .goOn "" (r.report ++ "\n") s

/-- The bytes of a line that ends with a line feed, without its end: a carriage
    return before the line feed belongs to the end. -/
def withoutCarriageReturn (line : List UInt8) : List UInt8 :=
  if line.getLast? = some 0x0D then line.dropLast else line

/-- Cuts bytes into lines.  What stands behind the last line feed is a line if it
    is not empty. -/
def lines : List UInt8 → List (List UInt8)
  | [] => []
  | b :: bs =>
    let line := (b :: bs).takeWhile Byte.inLine
    if line.length < (b :: bs).length then
      withoutCarriageReturn line :: lines ((b :: bs).drop (line.length + 1))
    else [line]
termination_by bs => bs.length
decreasing_by
  simp only [List.length_drop, List.length_cons]
  omega

/-- Answers lines to the end of the input, or to the first that ends the session. -/
def replFrom (limit : Nat) (s : Session) : List (List UInt8) → Outcome
  | [] => .success prompt
  | line :: rest =>
    match answer limit s line with
    | .stop code err => { code, out := prompt, err }
    | .goOn out err s =>
      let more := replFrom limit s rest
      { more with out := prompt ++ out ++ more.out, err := err ++ more.err }

/-- An interactive session. -/
def repl (limit : Nat) (input : List UInt8) : Outcome :=
  replFrom limit .start (lines input)

/-! ### The whole -/

/-- Does what a command asks, given the bytes of its input. -/
def perform (limit : Nat) (command : Command) (input : Except FileFault (List UInt8)) : Outcome :=
  match input with
  | .error fault => .unreadable fault.message
  | .ok bytes =>
    match command with
    | .repl => repl limit bytes
    | .tokenize json => whole bytes (tokenize json)
    | .parse json => whole bytes (parse json)
    | .run => whole bytes (run limit)
where
  /-- A program as a whole has to be well formed. -/
  whole (bytes : List UInt8) (f : List UInt8 → Outcome) : Outcome :=
    match Utf8.decode? bytes with
    | .error m => .unreadable m.message
    | .ok _ => f bytes

end Monkey.Cli
