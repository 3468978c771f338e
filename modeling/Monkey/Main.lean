import Monkey.Cli

/-!
  Monkey/Main.lean
  ================
  The program: reads what `Cli.perform` asks for, and writes what it answers.
-/
namespace Monkey

/-- How many evaluations may be nested in one another. -/
def depthLimit : Nat := 1000000000

/-- Everything that a stream holds. -/
partial def readAll (stream : IO.FS.Stream) (read : ByteArray) : IO ByteArray := do
  let part ← stream.read 65536
  if part.isEmpty then return read else readAll stream (read ++ part)

/-- The bytes of a file.  A failure to open it bears its name, and a failure to
    read it does not. -/
def readFile (name : String) : IO (Except Cli.FileFault (List UInt8)) := do
  try
    return .ok (← IO.FS.readBinFile name).toList
  catch
    | .noFileOrDirectory .. => return .error ⟨name, .missing⟩
    | .inappropriateType (some _) .. => return .error ⟨name, .notDirectory⟩
    | .inappropriateType none .. => return .error ⟨name, .directory⟩
    | .invalidArgument (some _) .. => return .error ⟨name, .nameTooLong⟩
    | e => throw e

/-- The input of a command. -/
def readInput (file : Option String) : IO (Except Cli.FileFault (List UInt8)) := do
  match file with
  | some name => readFile name
  | none => return .ok (← readAll (← IO.getStdin) .empty).toList

/-- The bytes of the next line with the line feed that ends it. -/
partial def readLine (stream : IO.FS.Stream) (read : ByteArray) : IO ByteArray := do
  let part ← stream.read 1
  if part.isEmpty then return read
  else if part.toList = [Byte.lineFeed] then return read ++ part
  else readLine stream (read ++ part)

/-- Answers the lines of an interactive session as they come in. -/
partial def converse (session : Session) : IO UInt32 := do
  IO.print Cli.prompt
  (← IO.getStdout).flush
  match Cli.lines (← readLine (← IO.getStdin) .empty).toList with
  | [] => return 0
  | line :: _ =>
    match Cli.answer depthLimit session line with
    | .stop code err =>
      IO.eprint err
      return code.toUInt32
    | .goOn out err session =>
      IO.print out
      IO.eprint err
      converse session

end Monkey

/-- The entry point. -/
def main (arguments : List String) : IO UInt32 := do
  match Monkey.Cli.request? arguments with
  | none =>
    IO.eprint "usage: monkey [--log] (tokenize [--json] [FILE] | parse [--json] [FILE] | run [FILE] | repl)\n"
    return 2
  | some request =>
    if request.log then IO.FS.writeFile "app.log" ""
    if request.command = .repl then Monkey.converse .start
    else
      let outcome := Monkey.Cli.perform Monkey.depthLimit request.command
        (← Monkey.readInput request.file)
      IO.print outcome.out
      IO.eprint outcome.err
      return outcome.code.toUInt32
