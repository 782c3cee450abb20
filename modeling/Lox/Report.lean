import Lox.Diagnostic
import Lox.Failure
import Lox.Sink
import Lox.Text.Utf8

/-! # Reports

A report collects what is to be shown to whoever wrote the program. Faults of the world outside, of
the output or of the bytes of a source, are no fault of the program and are not reported. -/

namespace Lox

structure Report where
  diagnostics : List Diagnostic
  failures : List RuntimeError
deriving DecidableEq

/-- Whatever can go wrong. -/
inductive Problem where
  | static (d : Diagnostic)
  | runtime (e : RuntimeError)
  /-- The output failed with this message. -/
  | output (message : String)
  | encoding (fault : Utf8.Fault)
deriving DecidableEq

namespace Report

def empty : Report := ⟨[], []⟩

def isEmpty (r : Report) : Bool := r.diagnostics.isEmpty && r.failures.isEmpty

/-- Adds a problem, if it is one to report. -/
def add (r : Report) : Problem → Report
  | .static d => { r with diagnostics := r.diagnostics ++ [d] }
  | .runtime e => { r with failures := r.failures ++ [e] }
  | .output _ | .encoding _ => r

end Report

/-- The text of a problem. -/
def Problem.render : Problem → String
  | .static d => d.render
  | .runtime e => e.render
  | .output message => message
  | .encoding fault => fault.message

end Lox
