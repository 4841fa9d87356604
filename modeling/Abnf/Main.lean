/-
The command line: `serve` runs a language server on the standard streams, and `index` prints the
listing of a grammar file.
-/
import Abnf.Json.Reader
import Abnf.Listing
import Abnf.Server.Frame
import Abnf.Server.Run

namespace Abnf

/-- What the command line asks for. -/
inductive Command where
  | serve (verbosity : Option LogLevel)
  | index (file : String) (showTree : Bool)

/-- The command of some arguments. -/
def Command.ofArguments? : List String → Option Command
  | ["serve"] | ["lsp"] => some (serve (some .info))
  | ["serve", "--log-level", level] | ["lsp", "--log-level", level] =>
    some (serve (LogLevel.ofName? level))
  | ["index", "--tree", file] | ["index", file, "--tree"] => some (index file true)
  | ["index", file] => some (index file false)
  | _ => none

/-- How the program is called. -/
def usage : String :=
  "Usage: abnf-lsp serve [--log-level <LEVEL>]\n       abnf-lsp index <FILE> [--tree]"

/-- Reads header lines up to an empty line; none at the end of the stream. -/
partial def readHeaders (input : IO.FS.Stream) (done : List String) :
    IO (Option (List String)) := do
  let line ← input.getLine
  if line.isEmpty then return none
  else if line.trimAscii.isEmpty then return some done.reverse
  else readHeaders input (line :: done)

/-- Reads a number of bytes, or fewer at the end of the stream. -/
partial def readBytes (input : IO.FS.Stream) (count : Nat) (done : ByteArray) : IO ByteArray := do
  if count ≤ done.size then return done
  else
    let more ← input.read (count - done.size).toUSize
    if more.isEmpty then return done else readBytes input count (done ++ more)

/-- Reads a message; none at the end of the stream or where no message can be read. -/
def readMessage (input : IO.FS.Stream) : IO (Option Message) := do
  match (← readHeaders input []).bind Frame.length? with
  | none => return none
  | some length =>
    let bytes ← readBytes input length .empty
    return (String.fromUTF8? bytes).bind fun text => (Json.parse? text).bind Message.ofJson?

/-- Gives out what a server gives out: messages to the client and log records to the error
stream. -/
def emit (output errors : IO.FS.Stream) (verbosity : Option LogLevel) (o : Output) : IO Unit := do
  if let .log _ record := o then
    if record.level.isEnabled verbosity then errors.putStrLn record.line
  if let some message := o.sent? verbosity then
    output.putStr (Frame.write message)
    output.flush

/-- Takes messages until the server ends. -/
partial def serveFrom (phase : Phase) (verbosity : Option LogLevel)
    (input output errors : IO.FS.Stream) : IO Ending := do
  match phase with
  | .ended ending => return ending
  | _ =>
    match ← readMessage input with
    | none => return phase.hangUp
    | some message =>
      let (next, outputs) := phase.step message
      outputs.forM (emit output errors verbosity)
      serveFrom next verbosity input output errors

/-- The bytes of a file, or why they could not be read. -/
def readFileBytes (file : String) : IO (Except ReadFailure ByteArray) := do
  try
    return .ok (← IO.FS.readBinFile file)
  catch e =>
    match e with
    | .noFileOrDirectory .. => return .error .notFound
    | .inappropriateType .. => return .error .isDirectory
    | e => return .error (.other (toString e))

/-- Carries a command out and gives the exit code of the program. -/
def Command.run : Command → IO UInt32
  | serve verbosity => do
    let errors ← IO.getStderr
    match ← serveFrom .awaitingInitialize verbosity (← IO.getStdin) (← IO.getStdout) errors with
    | .done => return 0
    | .failed failure =>
      errors.putStrLn ("LSP server error: " ++ failure.message)
      return 1
  | index file showTree => do
    let result := Listing.ofFile file showTree (← readFileBytes file)
    (← IO.getStdout).putStr result.output
    (← IO.getStderr).putStr result.errors
    return result.exitCode.toUInt32

end Abnf

def main (arguments : List String) : IO UInt32 := do
  match Abnf.Command.ofArguments? arguments with
  | some command => command.run
  | none =>
    (← IO.getStderr).putStrLn Abnf.usage
    return 2
