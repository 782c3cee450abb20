import Lox.CommandLine.Arguments
import Lox.Directory
import Lox.Session
import Lox.Syntax.Outline
import Lox.Syntax.PrefixForm
import Lox.Text.Quoted
import Lox.Text.Utf8

/-! # The command line

What each command prints, and the exit code. Static errors and runtime errors go to the error output;
so do faults of the world outside, which end a command at once. -/

namespace Lox.CommandLine

/-- The exit code and the two outputs. -/
structure Output where
  code : Nat
  out : String
  err : String
deriving DecidableEq, Repr

/-- A fault of the world outside: what was tried, and why it failed. -/
structure Fault where
  context : String
  cause : String
deriving DecidableEq, Repr

def Fault.render (f : Fault) : String :=
  "Error: " ++ f.context ++ "\n\nCaused by:\n    " ++ f.cause ++ "\n"

/-- The exit code of a malformed command line. -/
def usageCode : Nat := 64

def Output.fault (f : Fault) (out : String) : Output := ⟨1, out, f.render⟩

def versionText : String := "rox 0.2.0\n"

/-- Each item on a line of its own. -/
def lines (items : List String) : String := String.join (items.map (· ++ "\n"))

def renderDiagnostics (ds : List Diagnostic) : String := lines (ds.map Diagnostic.render)

/-! ### Files -/

/-- The fault of a file that was not read. -/
def readFault (file : String) : Directory.ReadFault → Fault
  | .onOpening message => ⟨"Failed to open file " ++ Quoted.quote file, message.render⟩
  | .onReading message => ⟨"Failed to read file " ++ Quoted.quote file, message.render⟩

/-- The text of a file that was read. -/
def sourceText (file : String) (content : Except Directory.ReadFault ByteArray) :
    Except Fault String :=
  match content with
  | .error fault => .error (readFault file fault)
  | .ok bytes =>
    match Utf8.decode bytes with
    | .ok text => .ok text
    | .error fault => .error ⟨"File " ++ Quoted.quote file ++ " is not valid UTF-8", fault.message⟩

/-- The fault of a log file that was not made. -/
def logFault (file : String) (message : SystemMessage) : Fault :=
  ⟨"Failed to create " ++ Quoted.quote file, message.render⟩

/-! ### Commands on a source -/

/-- Tokens are printed as far as there are any, whatever errors stand between them. -/
def tokenize (source : String) : Output :=
  let items := Scan.items source
  let errors := Scan.errors items
  ⟨if errors.isEmpty then 0 else Status.compileError.exitCode,
    lines ((Scan.tokens items).map Token.describe),
    renderDiagnostics (errors.map ScanError.diagnostic)⟩

def parse (source : String) (json : Bool) : Output :=
  let source := Source.read source 0
  if source.diagnostics.isEmpty then
    let program := source.parsed.statements
    ⟨0, lines (if json then [(Stmt.programOutline program).pretty] else Stmt.prefixForms program), ""⟩
  else ⟨Status.compileError.exitCode, "", renderDiagnostics source.diagnostics⟩

/-- How a step of evaluation that stopped is shown, after `out` was printed. -/
def stopped (out : String) : Stop → Output
  | .failed e => ⟨Status.runtimeError.exitCode, out, lines [e.render]⟩
  | .sink fault => .fault ⟨"Failed to write program output", fault.message⟩ out
  | .outOfFuel => .fault ⟨"Failed to finish the program", "out of fuel"⟩ out

def evaluate (host : Host) (fuel : Nat) (source : String) : Output :=
  let items := Scan.items source
  let errors := Scan.errors items
  let parsed := parseExpression (Scan.tokens items) 0
  match errors, parsed.expression? with
  | [], some e =>
    let (result, session) := (Session.new .unlimited).evaluate host fuel e
    let out := Utf8.decodeLossy session.output
    match result with
    | .ok v => ⟨0, out ++ lines [v.display], ""⟩
    | .error stop => stopped out stop
  | _, _ =>
    ⟨Status.compileError.exitCode, "", renderDiagnostics
      (errors.map ScanError.diagnostic ++ parsed.errors.map SyntaxError.diagnostic)⟩

/-- What a run adds to the two outputs, `start` bytes having been printed before, and its code. -/
def showRun (start : Nat) (r : Run) : Output :=
  let out := Utf8.decodeLossy (r.session.output.extract start r.session.output.size)
  match r.ending with
  | .status s =>
    ⟨s.exitCode, out, renderDiagnostics r.diagnostics ++
      lines (r.failure.toList.map RuntimeError.render)⟩
  | .sinkFailed fault => stopped out (.sink fault)
  | .outOfFuel => stopped out .outOfFuel

def run (host : Host) (fuel : Nat) (source : String) : Output :=
  showRun 0 ((Session.new .unlimited).run host fuel source)

/-! ### The prompt -/

/-- Asks for a line. -/
def promptText : String := "> "

/-- Runs a line that was typed. The code of the run does not count. -/
def runLine (host : Host) (fuel : Nat) (s : Session) (line : String) : Output × Session :=
  let start := s.output.size
  let r := s.run host fuel line
  (showRun start r, r.session)

/-- The lines of some bytes, without their ends: a line feed, and a carriage return before it. What
    follows the last line feed is a line too if there is anything. -/
def splitLines (line : List UInt8) : List UInt8 → List (List UInt8)
  | [] => if line.isEmpty then [] else [line.reverse]
  | b :: rest =>
    if b = 0x0A then
      let line := match line with
        | 0x0D :: before => before
        | _ => line
      line.reverse :: splitLines [] rest
    else splitLines (b :: line) rest

/-- The fault of a line that is not text. -/
def lineFault : Fault := ⟨"Failed to read from stdin", "stream did not contain valid UTF-8"⟩

/-- Prompts for each line and runs it, until there is none or one is not text. -/
def prompt (host : Host) (fuel : Nat) (s : Session) (out err : String) :
    List (List UInt8) → Output
  | [] => ⟨0, out ++ promptText, err⟩
  | line :: rest =>
    let out := out ++ promptText
    match Utf8.decode ⟨line.toArray⟩ with
    | .error _ => ⟨1, out, err ++ lineFault.render⟩
    | .ok text =>
      let (shown, s) := runLine host fuel s text
      prompt host fuel s (out ++ shown.out) (err ++ shown.err) rest

/-! ### Whole command lines -/

/-- Carries out an action on a source. -/
def perform (host : Host) (fuel : Nat) (action : Action) (source : String) : Output :=
  match action with
  | .tokenize => tokenize source
  | .parse json => parse source json
  | .evaluate => evaluate host fuel source
  | .run => run host fuel source

/-- Carries out an action on a file that was read, or was not. -/
def performOn (host : Host) (fuel : Nat) (action : Action) (name : String)
    (content : Except Directory.ReadFault ByteArray) : Output :=
  match sourceText name content with
  | .ok source => perform host fuel action source
  | .error fault => .fault fault ""

/-- Carries out a command in a directory, with the bytes that its input holds. -/
def performIn (host : Host) (fuel : Nat) (d : Directory) (input : ByteArray) : Command → Output
  | .file name action => performOn host fuel action name (d.read name)
  | .prompt => prompt host fuel (.new .unlimited) "" "" (splitLines [] input.toList)

/-- What a command line prints in a directory, and the files it makes. Help is not worded here. -/
def invoke (host : Host) (fuel : Nat) (d : Directory) (input : ByteArray) (i : Invocation) :
    Output × List String :=
  match i with
  | .help => (⟨0, "", ""⟩, [])
  | .version => (⟨0, versionText, ""⟩, [])
  | .usageError => (⟨usageCode, "", ""⟩, [])
  | .command none c => (performIn host fuel d input c, [])
  | .command (some log) c =>
    match d.create log with
    | .error message => (.fault (logFault log message) "", [])
    | .ok path =>
      (performIn host fuel d input c, if d.holds path then [] else [Path.render path])

end Lox.CommandLine
