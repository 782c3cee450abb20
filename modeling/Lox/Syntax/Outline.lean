import Lox.Syntax
import Lox.Document

/-! # Outlines

A tree as nested data: each node is a record with the one field that names it, each part a field of
what that holds. -/

namespace Lox

def Kind.outline : Kind → Document
  | .string s => .tagged "STRING" (.text s)
  | .number x => .tagged "NUMBER" (.number x)
  | k => .text k.name

def Token.outline (t : Token) : Document :=
  .record [("token_type", t.kind.outline), ("lexeme", .text t.lexeme), ("line", .count t.line)]

def Literal.outline : Literal → Document
  | .number x => .tagged "Number" (.number x)
  | .string s => .tagged "Str" (.text s)
  | .bool true => .text "True"
  | .bool false => .text "False"
  | .nil => .text "Nil"

/-- The fields of an operator with two sides. -/
def infixFields (left : Document) (operator : Token) (right : Document) : Document :=
  .record [("left", left), ("operator", operator.outline), ("right", right)]

mutual

def Expr.outline : Expr → Document
  | .literal v => .tagged "Literal" v.outline
  | .grouping e => .tagged "Grouping" e.outline
  | .unary op r => .tagged "Unary" (.record [("operator", op.outline), ("right", r.outline)])
  | .binary l op r => .tagged "Binary" (infixFields l.outline op r.outline)
  | .logical l op r => .tagged "Logical" (infixFields l.outline op r.outline)
  | .var id name => .tagged "Variable" (.record [("id", .count id), ("name", name.outline)])
  | .assign id name v =>
    .tagged "Assign" (.record [("id", .count id), ("name", name.outline), ("value", v.outline)])
  | .call f paren args =>
    .tagged "Call" (.record [("callee", f.outline), ("paren", paren.outline),
      ("arguments", .list (Expr.outlines args))])

def Expr.outlines : List Expr → List Document
  | [] => []
  | e :: es => e.outline :: Expr.outlines es

end

/-- An expression that may be absent. -/
def Expr.outline? (e : Option Expr) : Document := (e.map Expr.outline).getD .null

mutual

def Stmt.outline : Stmt → Document
  | .expression e => .tagged "Expression" e.outline
  | .print e => .tagged "Print" e.outline
  | .var name init =>
    .tagged "Var" (.record [("name", name.outline), ("initializer", Expr.outline? init)])
  | .block body => .tagged "Block" (.list (Stmt.outlines body))
  | .branch c yes no =>
    .tagged "If" (.record [("condition", c.outline), ("then_branch", yes.outline),
      ("else_branch", Stmt.outline? no)])
  | .loop c body => .tagged "While" (.record [("condition", c.outline), ("body", body.outline)])
  | .function name params body =>
    .tagged "Function" (.record [("name", name.outline),
      ("params", .list (params.map Token.outline)), ("body", .list (Stmt.outlines body))])
  | .ret keyword value =>
    .tagged "Return" (.record [("keyword", keyword.outline), ("value", Expr.outline? value)])

/-- A statement that may be absent. -/
def Stmt.outline? : Option Stmt → Document
  | none => .null
  | some s => s.outline

def Stmt.outlines : List Stmt → List Document
  | [] => []
  | s :: ss => s.outline :: Stmt.outlines ss

end

/-- The outline of a program. -/
def Stmt.programOutline (program : List Stmt) : Document := .list (Stmt.outlines program)

end Lox
