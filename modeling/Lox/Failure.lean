import Lox.Token

/-! # Runtime errors

An evaluation that fails names the token at which it failed and a cause. -/

namespace Lox

inductive RuntimeError.Cause where
  | undefinedVariable (name : String)
  | operandNotNumber
  | operandsNotNumbers
  | operandsNotAddable
  | invalidUnary
  | invalidBinary
  | notCallable
  | wrongArity (expected got : Nat)
  | stackOverflow
  /-- A function of the host failed with this message. -/
  | host (message : String)
deriving DecidableEq, Repr

structure RuntimeError where
  token : Token
  cause : RuntimeError.Cause
deriving DecidableEq

def RuntimeError.Cause.message : Cause → String
  | undefinedVariable name => "Undefined variable '" ++ name ++ "'."
  | operandNotNumber => "Operand must be a number."
  | operandsNotNumbers => "Operands must be numbers."
  | operandsNotAddable => "Operands must be two numbers or two strings."
  | invalidUnary => "Invalid unary operator."
  | invalidBinary => "Invalid binary operator."
  | notCallable => "Can only call functions and classes."
  | wrongArity expected got =>
    "Expected " ++ toString expected ++ " arguments but got " ++ toString got ++ "."
  | stackOverflow => "Stack overflow."
  | host message => message

namespace RuntimeError

def message (e : RuntimeError) : String := e.cause.message

/-- The message, and the line below it. -/
def render (e : RuntimeError) : String :=
  e.message ++ "\n[line " ++ toString e.token.line ++ "]"

/-- The name of this token is not bound where it was looked up. -/
def undefined (name : Token) : RuntimeError := ⟨name, .undefinedVariable name.lexeme⟩

end RuntimeError
end Lox
