import Lox.Evaluate
import Lox.Syntax.Parse
import Lox.Token.Scan

/-! # Sessions

A session runs one source after the other; the globals, and the functions they hold, survive. A source
with a static error is not run at all and leaves the session as it was. A run takes fuel, which only
matters to programs that do not end. -/

namespace Lox

/-- How a run came out. -/
inductive Status where
  | ok
  /-- Static errors were found, and nothing was run. -/
  | compileError
  /-- A runtime error stopped the run. -/
  | runtimeError
deriving DecidableEq, Repr

namespace Status

def exitCode : Status → Nat
  | ok => 0
  | compileError => 65
  | runtimeError => 70

def name : Status → String
  | ok => "Ok"
  | compileError => "CompileError"
  | runtimeError => "RuntimeError"

end Status

/-- How a run ended. A fault of the output is no outcome of the program. -/
inductive Ending where
  | status (s : Status)
  | sinkFailed (fault : SinkFault)
  | outOfFuel
deriving DecidableEq, Repr

/-- What survives from run to run. -/
structure Session where
  machine : Machine
  /-- The distances of all references in the programs that were run. -/
  distances : Distances
  /-- The identity of the next reference. -/
  nextId : ExprId

/-- A run: how it ended, the static errors, the runtime error, and the session afterwards. -/
structure Run where
  ending : Ending
  diagnostics : List Diagnostic
  failure : Option RuntimeError
  session : Session

/-- A source that was scanned and parsed. -/
structure Source where
  items : List Scan.Item
  parsed : Parsed

namespace Source

def read (text : String) (nextId : ExprId) : Source :=
  let items := Scan.items text
  ⟨items, parse (Scan.tokens items) nextId⟩

def scanDiagnostics (s : Source) : List Diagnostic :=
  (Scan.errors s.items).map ScanError.diagnostic

/-- All errors of scanning, and after them all errors of parsing. -/
def diagnostics (s : Source) : List Diagnostic :=
  s.scanDiagnostics ++ s.parsed.errors.map SyntaxError.diagnostic

end Source

namespace Session

def new (sink : Sink) : Session := ⟨.initial sink, ∅, 0⟩

/-- The bytes written so far. -/
def output (s : Session) : ByteArray := s.machine.sink.written

def context (s : Session) (host : Host) : Context := ⟨.resolved s.distances, host⟩

/-- Adds distances, in place of earlier ones of the same references. -/
def addDistances (s : Session) (distances : Distances) : Session :=
  { s with distances := s.distances ∪ distances }

/-! ### Running -/

/-- Flushes the output after a run that came out with this status. -/
def finish (s : Session) (status : Status) (failure : Option RuntimeError) : Run :=
  let (sink, fault) := s.machine.sink.flush
  let s := { s with machine := { s.machine with sink } }
  match fault with
  | none => ⟨.status status, [], failure, s⟩
  | some fault => ⟨.sinkFailed fault, [], failure, s⟩

/-- Runs a program in a context. -/
def interpretIn (context : Context) (fuel : Nat) (program : List Stmt) (s : Session) : Run :=
  match Eval.program context fuel program s.machine with
  | .ok () machine => { s with machine }.finish .ok none
  | .error (.failed e) machine => { s with machine }.finish .runtimeError (some e)
  | .error (.sink fault) machine => ⟨.sinkFailed fault, [], none, { s with machine }⟩
  | .error .outOfFuel machine => ⟨.outOfFuel, [], none, { s with machine }⟩

/-- Runs a program as it stands. -/
def interpret (host : Host) (fuel : Nat) (program : List Stmt) (s : Session) : Run :=
  s.interpretIn (s.context host) fuel program

/-- Scans, parses, resolves and runs a source. -/
def run (host : Host) (fuel : Nat) (text : String) (s : Session) : Run :=
  let source := Source.read text s.nextId
  let s := { s with nextId := source.parsed.nextId }
  if source.diagnostics.isEmpty then
    let resolution := resolve source.parsed.statements
    if resolution.isOk then
      (s.addDistances resolution.distances).interpret host fuel source.parsed.statements
    else
      ⟨.status .compileError, resolution.errors.map ScopeError.diagnostic, none, s⟩
  else ⟨.status .compileError, source.diagnostics, none, s⟩

/-! ### Single expressions and calls -/

/-- Carries out one step of evaluation. -/
def step {α : Type} (step : Eval α) (s : Session) : Except Stop α × Session :=
  match step s.machine with
  | .ok a machine => (.ok a, { s with machine })
  | .error stop machine => (.error stop, { s with machine })

/-- Evaluates an expression. -/
def evaluate (host : Host) (fuel : Nat) (e : Expr) (s : Session) : Except Stop Value × Session :=
  s.step (Eval.expr (s.context host) fuel e)

/-- Calls a value without asking for its arity or for the limit of calls. -/
def invoke (host : Host) (fuel : Nat) (f : Value) (arguments : List Value) (paren : Token)
    (s : Session) : Except Stop Value × Session :=
  s.step (Eval.invoke (s.context host) fuel f arguments paren)

/-! ### Globals -/

/-- The value of a global. -/
def global? (s : Session) (name : String) : Option Value :=
  s.machine.frames.get? Frames.globals name

def define (name : String) (v : Value) (s : Session) : Session :=
  { s with machine := s.machine.defineGlobal name v }

/-- A new function of the host, bound to nothing yet. -/
def hostFunction (key name : String) (arity : Nat) (s : Session) : Value × Session :=
  let (identity, machine) := s.machine.freshIdentity
  (.host ⟨identity, key, name, arity⟩, { s with machine })

/-- Makes a new function of the host and binds it to a global of its name. -/
def register (key name : String) (arity : Nat) (s : Session) : Session :=
  let (f, s) := s.hostFunction key name arity
  s.define name f

/-- A new function with an empty body, whose closure is a new frame inside no other. -/
def emptyFunction (name : String) (parameters : List String) (s : Session) : Value × Session :=
  let (identity, machine) := s.machine.freshIdentity
  let frame := machine.frames.next
  let identifier (n : String) : Token := ⟨.identifier, n, 1⟩
  let decl : FunctionDecl := ⟨identifier name, parameters.map identifier, []⟩
  (.function ⟨identity, decl, frame⟩,
    { s with machine := { machine with frames := machine.frames.push (.empty none) } })

end Session
end Lox
