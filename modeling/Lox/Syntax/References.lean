import Lox.Syntax

/-! # References

The places of a program that read or assign a variable, in the order in which resolution and
evaluation come to them: an assignment stands after its value. -/

namespace Lox

/-- One reading of a variable or one assignment to it. -/
structure Reference where
  assigns : Bool
  id : ExprId
  name : Token
deriving DecidableEq

mutual

def Expr.references : Expr → List Reference
  | .literal _ => []
  | .grouping e => e.references
  | .unary _ r => r.references
  | .binary l _ r | .logical l _ r => l.references ++ r.references
  | .var id name => [⟨false, id, name⟩]
  | .assign id name v => v.references ++ [⟨true, id, name⟩]
  | .call f _ args => f.references ++ Expr.referencesAll args

def Expr.referencesAll : List Expr → List Reference
  | [] => []
  | e :: es => e.references ++ Expr.referencesAll es

end

/-- The references of an expression that may be absent. -/
def Expr.references? : Option Expr → List Reference
  | none => []
  | some e => e.references

mutual

def Stmt.references : Stmt → List Reference
  | .expression e | .print e => e.references
  | .var _ init => Expr.references? init
  | .block body => Stmt.referencesAll body
  | .branch c yes no => c.references ++ yes.references ++ Stmt.references? no
  | .loop c body => c.references ++ body.references
  | .function _ _ body => Stmt.referencesAll body
  | .ret _ value => Expr.references? value

def Stmt.references? : Option Stmt → List Reference
  | none => []
  | some s => s.references

def Stmt.referencesAll : List Stmt → List Reference
  | [] => []
  | s :: ss => s.references ++ Stmt.referencesAll ss

end

end Lox
