import Lox.Syntax

/-! # Values

What expressions evaluate to. Functions have an identity, which tells two of them apart when all else
is equal: each time a declaration is executed it makes a new function. -/

namespace Lox

/-- A frame, by its place in the order of creation. -/
abbrev FrameId := Nat

/-- What tells functions apart. -/
abbrev Identity := Nat

/-- A function of the host. What it does is known to the host by the key. -/
structure HostFunction where
  identity : Identity
  key : String
  name : String
  arity : Nat
deriving DecidableEq

/-- A function of a program: its declaration, and the frame that was current when it was declared. -/
structure Closure where
  identity : Identity
  decl : FunctionDecl
  frame : FrameId

inductive Value where
  | nil
  | bool (value : Bool)
  | number (value : Float)
  | string (text : String)
  | function (closure : Closure)
  | host (function : HostFunction)

instance : Inhabited Value := ⟨.nil⟩

namespace Value

def ofLiteral : Literal → Value
  | .number x => number x
  | .string s => string s
  | .bool b => bool b
  | .nil => nil

/-- Only `nil` and `false` are not. -/
def isTruthy : Value → Bool
  | nil => false
  | bool b => b
  | _ => true

def typeName : Value → String
  | nil => "nil"
  | bool _ => "boolean"
  | number _ => "number"
  | string _ => "string"
  | function _ | host _ => "function"

/-- How many arguments a function takes; nothing for any other value. -/
def arity? : Value → Option Nat
  | function f => some f.decl.parameters.length
  | host f => some f.arity
  | _ => none

/-- Numbers are the same when their bits are, and NaN is the same as itself. -/
def sameNumber (x y : Float) : Bool := x.toBits == y.toBits || (x.isNaN && y.isNaN)

/-- Equality in the language: within a type only, and between functions by identity. -/
def equals : Value → Value → Bool
  | nil, nil => true
  | bool a, bool b => a == b
  | number x, number y => sameNumber x y
  | string s, string t => s == t
  | function f, function g => f.identity == g.identity
  | host f, host g => f.identity == g.identity
  | _, _ => false

/-- The text that a program prints for a value. -/
def display : Value → String
  | nil => "nil"
  | bool b => if b then "true" else "false"
  | number x => Number.display x
  | string s => s
  | function f => "<fn " ++ f.decl.name.lexeme ++ ">"
  | host _ => "<native fn>"

end Value
end Lox
