import Lox.Failure
import Lox.Frames
import Lox.Host
import Lox.Resolve
import Lox.Sink

/-! # The machine

What evaluation reads and changes: the frames, the one that is current, how many calls are active, the
output, the identity of the next function, and how often the host was called. A step of evaluation
yields a result or the reason it stopped, and in both cases the machine as it is then. -/

namespace Lox

/-- How many calls may be active at a time. -/
def maxDepth : Nat := 2048

structure Machine where
  frames : Frames
  current : FrameId
  /-- How many calls are active. -/
  depth : Nat
  sink : Sink
  nextIdentity : Identity
  /-- How many calls of the host there were. -/
  hostCalls : Nat

/-- How references find what they stand for. -/
inductive Access where
  /-- In the frame at its distance, or in the globals if a reference has none. -/
  | resolved (distances : Distances)
  /-- In the first frame from the current one outward that binds the name. -/
  | outward

/-- What stays the same while a program runs. -/
structure Context where
  access : Access
  host : Host

/-- Why evaluation stopped without a result. -/
inductive Stop where
  | failed (e : RuntimeError)
  | sink (fault : SinkFault)
  | outOfFuel

/-- A step of evaluation. -/
abbrev Eval := EStateM Stop Machine

namespace Machine

/-- The globals are current, the clock is bound, and nothing has run. -/
def initial (sink : Sink) : Machine :=
  { frames := Frames.initial.define Frames.globals "clock" (.host ⟨0, Host.clockKey, "clock", 0⟩)
    current := Frames.globals
    depth := 0
    sink
    nextIdentity := 1
    hostCalls := 0 }

/-- Binds a global. -/
def defineGlobal (m : Machine) (name : String) (v : Value) : Machine :=
  { m with frames := m.frames.define Frames.globals name v }

/-- The machine with the next identity taken, and that identity. -/
def freshIdentity (m : Machine) : Identity × Machine :=
  (m.nextIdentity, { m with nextIdentity := m.nextIdentity + 1 })

end Machine

namespace Access

/-- The value that a reference to the name stands for. -/
def get? (access : Access) (frames : Frames) (current : FrameId) (id : ExprId) (name : String) :
    Option Value :=
  match access with
  | resolved distances =>
    match distances[id]? with
    | some distance => frames.getAt? current distance name
    | none => frames.get? Frames.globals name
  | outward => frames.get? current name

/-- Changes what a reference to the name stands for. -/
def assign? (access : Access) (frames : Frames) (current : FrameId) (id : ExprId) (name : String)
    (v : Value) : Option Frames :=
  match access with
  | resolved distances =>
    match distances[id]? with
    | some distance => frames.assignAt? current distance name v
    | none => frames.assign? Frames.globals name v
  | outward => frames.assign? current name v

end Access

namespace Eval

def fail {α : Type} (e : RuntimeError) : Eval α := throw (.failed e)

/-- Goes on with the value, or fails with the error. -/
def ofExcept {α : Type} (result : Except RuntimeError α) : Eval α :=
  match result with
  | .ok a => pure a
  | .error e => fail e

/-! ### Variables -/

/-- The value of a reference. -/
def read (context : Context) (id : ExprId) (name : Token) : Eval Value := fun m =>
  match context.access.get? m.frames m.current id name.lexeme with
  | some v => .ok v m
  | none => .error (.failed (.undefined name)) m

/-- Changes what a reference stands for. -/
def assign (context : Context) (id : ExprId) (name : Token) (v : Value) : Eval Unit :=
  fun ⟨frames, current, depth, sink, nextIdentity, hostCalls⟩ =>
    match context.access.assign? frames current id name.lexeme v with
    | some frames => .ok () ⟨frames, current, depth, sink, nextIdentity, hostCalls⟩
    | none =>
      .error (.failed (.undefined name)) ⟨frames, current, depth, sink, nextIdentity, hostCalls⟩

/-- Binds a name in the current frame. -/
def define (name : Token) (v : Value) : Eval Unit :=
  fun ⟨frames, current, depth, sink, nextIdentity, hostCalls⟩ =>
    .ok () ⟨frames.define current name.lexeme v, current, depth, sink, nextIdentity, hostCalls⟩

/-- Binds the name of a function to a new function whose closure is the current frame. -/
def declare (decl : FunctionDecl) : Eval Unit :=
  fun ⟨frames, current, depth, sink, nextIdentity, hostCalls⟩ =>
    let f := Value.function ⟨nextIdentity, decl, current⟩
    .ok () ⟨frames.define current decl.name.lexeme f, current, depth, sink, nextIdentity + 1, hostCalls⟩

/-! ### Frames and calls -/

/-- Runs a step in a new frame, and makes the frame of before current again however the step ends. -/
@[inline] def inFrame {α : Type} (frame : Frame) (step : Eval α) : Eval α :=
  fun ⟨frames, current, depth, sink, nextIdentity, hostCalls⟩ =>
    match step ⟨frames.push frame, frames.next, depth, sink, nextIdentity, hostCalls⟩ with
    | .ok a m => .ok a { m with current }
    | .error stop m => .error stop { m with current }

/-- Runs a step in a new frame inside the current one. -/
@[inline] def inBlock {α : Type} (step : Eval α) : Eval α := fun m =>
  inFrame (.empty (some m.current)) step m

/-- Runs a step as one more active call, unless the limit of active calls is reached. -/
@[inline] def asCall {α : Type} (paren : Token) (step : Eval α) : Eval α := fun m =>
  if maxDepth ≤ m.depth then .error (.failed ⟨paren, .stackOverflow⟩) m
  else
    match step { m with depth := m.depth + 1 } with
    | .ok a m => .ok a { m with depth := m.depth - 1 }
    | .error stop m => .error stop { m with depth := m.depth - 1 }

/-- Calls a function of the host. -/
def callHost (context : Context) (f : HostFunction) (arguments : List Value) (paren : Token) :
    Eval Value :=
  fun ⟨frames, current, depth, sink, nextIdentity, hostCalls⟩ =>
    match context.host hostCalls f.key arguments with
    | .ok v => .ok v ⟨frames, current, depth, sink, nextIdentity, hostCalls + 1⟩
    | .error message =>
      .error (.failed ⟨paren, .host message⟩)
        ⟨frames, current, depth, sink, nextIdentity, hostCalls + 1⟩

/-! ### Output -/

/-- Writes a line. -/
def printLine (text : String) : Eval Unit :=
  fun ⟨frames, current, depth, sink, nextIdentity, hostCalls⟩ =>
    match sink.write (text ++ "\n") with
    | (sink, none) => .ok () ⟨frames, current, depth, sink, nextIdentity, hostCalls⟩
    | (sink, some fault) => .error (.sink fault) ⟨frames, current, depth, sink, nextIdentity, hostCalls⟩

end Eval
end Lox
