import Lox.Machine
import Lox.Operator

/-! # Evaluation

Expressions yield values, statements say how they ended: a return is not an error but an ending that
blocks, branches and loops pass on, up to the call that it ends. Evaluation is a function of fuel,
which bounds the nesting of its calls and the rounds of loops; running out of it is told apart from
everything a program does. -/

namespace Lox

/-- How a statement ended. -/
inductive Flow where
  | normal
  | returned (v : Value)

namespace Flow

/-- What a call yields whose body ended so. -/
def result : Flow → Value
  | normal => .nil
  | returned v => v

end Flow

namespace Closure

/-- The frame of a call: the parameters bound to the arguments, as far as both go. -/
def callFrame (f : Closure) (arguments : List Value) : Frame :=
  (f.decl.parameters.zip arguments).foldl (fun frame (name, v) => frame.define name.lexeme v)
    (.empty (some f.frame))

end Closure

namespace Eval

mutual

def expr (context : Context) : Nat → Expr → Eval Value
  | 0, _ => throw .outOfFuel
  | n + 1, e =>
    match e with
    | .literal v => pure (.ofLiteral v)
    | .grouping e => expr context n e
    | .unary operator right => do
      ofExcept (Operator.unary operator (← expr context n right))
    | .binary left operator right => do
      let l ← expr context n left
      let r ← expr context n right
      ofExcept (Operator.binary operator l r)
    | .logical left operator right => do
      let l ← expr context n left
      if Operator.decides operator l then pure l else expr context n right
    | .var id name => read context id name
    | .assign id name value => do
      let v ← expr context n value
      assign context id name v
      pure v
    | .call callee paren arguments => do
      let f ← expr context n callee
      let arguments ← exprs context n #[] arguments
      call context n f arguments.toList paren

/-- The values of some expressions, from left to right, after those in `done`. -/
def exprs (context : Context) : Nat → Array Value → List Expr → Eval (Array Value)
  | 0, _, _ => throw .outOfFuel
  | n + 1, done, es =>
    match es with
    | [] => pure done
    | e :: rest => do
      let v ← expr context n e
      exprs context n (done.push v) rest

/-- A call expression: what is called has to be a function and to take this many arguments, and the
    limit of active calls must not be reached. -/
def call (context : Context) : Nat → Value → List Value → Token → Eval Value
  | 0, _, _, _ => throw .outOfFuel
  | n + 1, f, arguments, paren =>
    match f.arity? with
    | none => fail ⟨paren, .notCallable⟩
    | some arity =>
      if arguments.length ≠ arity then fail ⟨paren, .wrongArity arity arguments.length⟩
      else asCall paren (invoke context n f arguments paren)

/-- Runs a function with whatever arguments there are. -/
def invoke (context : Context) : Nat → Value → List Value → Token → Eval Value
  | 0, _, _, _ => throw .outOfFuel
  | n + 1, f, arguments, paren =>
    match f with
    | .host f => callHost context f arguments paren
    | .function f => do
      let flow ← inFrame (f.callFrame arguments) (stmts context n f.decl.body)
      pure flow.result
    | _ => fail ⟨paren, .notCallable⟩

def stmt (context : Context) : Nat → Stmt → Eval Flow
  | 0, _ => throw .outOfFuel
  | n + 1, s =>
    match s with
    | .expression e => do
      let _ ← expr context n e
      pure .normal
    | .print e => do
      let v ← expr context n e
      printLine v.display
      pure .normal
    | .var name none => do
      define name .nil
      pure .normal
    | .var name (some e) => do
      let v ← expr context n e
      define name v
      pure .normal
    | .block body => inBlock (stmts context n body)
    | .branch condition yes no => do
      let v ← expr context n condition
      if v.isTruthy then stmt context n yes
      else match no with
        | some s => stmt context n s
        | none => pure .normal
    | .loop condition body => loop context n condition body
    | .function name parameters body => do
      declare ⟨name, parameters, body⟩
      pure .normal
    | .ret _ none => pure (.returned .nil)
    | .ret _ (some e) => do
      let v ← expr context n e
      pure (.returned v)

/-- Statements in order, up to one that returns. -/
def stmts (context : Context) : Nat → List Stmt → Eval Flow
  | 0, _ => throw .outOfFuel
  | n + 1, ss =>
    match ss with
    | [] => pure .normal
    | s :: rest => do
      match ← stmt context n s with
      | .normal => stmts context n rest
      | flow => pure flow

/-- The rounds of a loop. -/
def loop (context : Context) : Nat → Expr → Stmt → Eval Flow
  | 0, _, _ => throw .outOfFuel
  | n + 1, condition, body => do
    let v ← expr context n condition
    if v.isTruthy then
      match ← stmt context n body with
      | .normal => loop context n condition body
      | flow => pure flow
    else pure .normal

end

/-- The statements of a program in order. A return on the outermost level ends only its own
    statement. -/
def program (context : Context) (fuel : Nat) : List Stmt → Eval Unit
  | [] => pure ()
  | s :: rest => do
    let _ ← stmt context fuel s
    program context fuel rest

end Eval
end Lox
