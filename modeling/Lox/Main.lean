import Lox.CommandLine
import Std.Time.DateTime.Timestamp

/-! The program: reads the command line, the file and the clock, and prints what the library says. -/

open Lox Lox.CommandLine

namespace Lox.Program

/-- More than any program that ends can use. -/
def fuel : Nat := 4611686018427387904

def helpText : String :=
  "Lox language interpreter\n\nUsage: rox [OPTIONS] <COMMAND>\n\nCommands:\n" ++
  "  tokenize  Tokenizes input from a file, printing each token\n" ++
  "  parse     Parses a file as a Lox program and prints its AST\n" ++
  "  evaluate  Evaluates input from a file as a single expression and prints the result\n" ++
  "  run       Runs a file as a Lox program, or starts a REPL when no file is given\n" ++
  "  help      Print this message or the help of the given subcommand(s)\n\nOptions:\n" ++
  "      --log                  Enable logging to a file\n" ++
  "      --log-file <LOG_FILE>  Log file written when --log is given [default: app.log]\n" ++
  "  -h, --help                 Print help\n  -V, --version              Print version\n"

/-- What the operating system says of a failure. -/
def systemMessage (e : IO.Error) : SystemMessage :=
  match e with
  | .noFileOrDirectory _ number text | .interrupted _ number text => ⟨text, number.toNat⟩
  | .alreadyExists _ number text | .invalidArgument _ number text
  | .permissionDenied _ number text | .resourceExhausted _ number text
  | .inappropriateType _ number text | .noSuchThing _ number text => ⟨text, number.toNat⟩
  | .otherError number text | .resourceBusy number text | .resourceVanished number text
  | .unsupportedOperation number text | .hardwareFault number text
  | .unsatisfiedConstraints number text | .illegalOperation number text
  | .protocolError number text | .timeExpired number text => ⟨text, number.toNat⟩
  | .unexpectedEof => ⟨"unexpected end of file", 0⟩
  | .userError text => ⟨text, 0⟩

def readFile (name : String) : IO (Except Directory.ReadFault ByteArray) := do
  match ← (IO.FS.Handle.mk name .read).toBaseIO with
  | .error e => pure (.error (.onOpening (systemMessage e)))
  | .ok handle =>
    match ← handle.readBinToEnd.toBaseIO with
    | .error e => pure (.error (.onReading (systemMessage e)))
    | .ok content => pure (.ok content)

/-- Seconds since the start of 1970, in thousandths. -/
def clock : IO Float := do
  let now ← Std.Time.Timestamp.now
  pure (Float.ofInt now.toMillisecondsSinceUnixEpoch.val / 1000.0)

def display (o : Output) : IO UInt32 := do
  (← IO.getStdout).putStr o.out
  (← IO.getStdout).flush
  (← IO.getStderr).putStr o.err
  pure o.code.toUInt32

partial def prompt (s : Session) : IO UInt32 := do
  (← IO.getStdout).putStr promptText
  (← IO.getStdout).flush
  match ← (← IO.getStdin).getLine.toBaseIO with
  | .error _ =>
    (← IO.getStderr).putStr lineFault.render
    pure 1
  | .ok "" => pure 0
  | .ok line =>
    let typed := (splitLines [] line.toUTF8.toList).headD []
    let (o, s) := runLine (.withClock (← clock)) fuel s (Utf8.decodeLossy ⟨typed.toArray⟩)
    let _ ← display o
    prompt s

def perform : Command → IO UInt32
  | .prompt => prompt (.new .unlimited)
  | .file name action => do
    display (performOn (.withClock (← clock)) fuel action name (← readFile name))

def invoke : Invocation → IO UInt32
  | .help => do display ⟨0, helpText, ""⟩
  | .version => do display ⟨0, versionText, ""⟩
  | .usageError => do display ⟨usageCode, "", helpText⟩
  | .command none c => perform c
  | .command (some log) c => do
    match ← (IO.FS.Handle.mk log .write).toBaseIO with
    | .error e => display (.fault (logFault log (systemMessage e)) "")
    | .ok _ => perform c

end Lox.Program

def main (words : List String) : IO UInt32 :=
  Lox.Program.invoke (Lox.CommandLine.Invocation.ofWords words)
