import Lox.Token

/-! # Syntax trees

Expressions and statements as the parser builds them. Every operator, name and closing parenthesis is
kept as its token, for its line. A reference to a variable and an assignment each carry an identity:
resolution speaks of the node, not of its text. -/

namespace Lox

/-- The identity of a reference or an assignment. -/
abbrev ExprId := Nat

/-- A value written in a program. -/
inductive Literal where
  | number (value : Float)
  | string (text : String)
  | bool (value : Bool)
  | nil
deriving DecidableEq

inductive Expr where
  | literal (value : Literal)
  | grouping (inner : Expr)
  | unary (operator : Token) (right : Expr)
  | binary (left : Expr) (operator : Token) (right : Expr)
  | logical (left : Expr) (operator : Token) (right : Expr)
  | var (id : ExprId) (name : Token)
  | assign (id : ExprId) (name : Token) (value : Expr)
  /-- A call keeps its closing parenthesis. -/
  | call (callee : Expr) (paren : Token) (arguments : List Expr)

inductive Stmt where
  | expression (e : Expr)
  | print (e : Expr)
  | var (name : Token) (initializer : Option Expr)
  | block (body : List Stmt)
  | branch (condition : Expr) (yes : Stmt) (no : Option Stmt)
  | loop (condition : Expr) (body : Stmt)
  | function (name : Token) (parameters : List Token) (body : List Stmt)
  | ret (keyword : Token) (value : Option Expr)

instance : Inhabited Expr := ⟨.literal .nil⟩
instance : Inhabited Stmt := ⟨.block []⟩

/-- What a declaration of a function says, apart from where it stands. -/
structure FunctionDecl where
  name : Token
  parameters : List Token
  body : List Stmt

end Lox
