import Lox.Syntax

/-! # Sameness of trees

Two trees are the same when they have the same shape, the same identities and the same tokens, where
the payload of a token does not count. Numbers compare as IEEE operands: NaN differs from itself, and
the two zeros are the same. -/

namespace Lox

def Literal.same : Literal → Literal → Bool
  | .number x, .number y => x == y
  | .string s, .string t => s == t
  | .bool a, .bool b => a == b
  | .nil, .nil => true
  | _, _ => false

def Token.sameAll : List Token → List Token → Bool
  | [], [] => true
  | t :: ts, u :: us => t.same u && Token.sameAll ts us
  | _, _ => false

mutual

def Expr.same : Expr → Expr → Bool
  | .literal v, .literal w => v.same w
  | .grouping e, .grouping e' => e.same e'
  | .unary op r, .unary op' r' => op.same op' && r.same r'
  | .binary l op r, .binary l' op' r' => l.same l' && op.same op' && r.same r'
  | .logical l op r, .logical l' op' r' => l.same l' && op.same op' && r.same r'
  | .var id name, .var id' name' => id == id' && name.same name'
  | .assign id name v, .assign id' name' v' => id == id' && name.same name' && v.same v'
  | .call f paren args, .call f' paren' args' =>
    f.same f' && paren.same paren' && Expr.sameAll args args'
  | _, _ => false

def Expr.sameAll : List Expr → List Expr → Bool
  | [], [] => true
  | e :: es, f :: fs => e.same f && Expr.sameAll es fs
  | _, _ => false

end

def Expr.same? : Option Expr → Option Expr → Bool
  | none, none => true
  | some e, some f => e.same f
  | _, _ => false

mutual

def Stmt.same : Stmt → Stmt → Bool
  | .expression e, .expression e' => e.same e'
  | .print e, .print e' => e.same e'
  | .var name init, .var name' init' => name.same name' && Expr.same? init init'
  | .block body, .block body' => Stmt.sameAll body body'
  | .branch c yes no, .branch c' yes' no' => c.same c' && yes.same yes' && Stmt.same? no no'
  | .loop c body, .loop c' body' => c.same c' && body.same body'
  | .function name params body, .function name' params' body' =>
    name.same name' && Token.sameAll params params' && Stmt.sameAll body body'
  | .ret keyword value, .ret keyword' value' => keyword.same keyword' && Expr.same? value value'
  | _, _ => false

def Stmt.same? : Option Stmt → Option Stmt → Bool
  | none, none => true
  | some s, some t => s.same t
  | _, _ => false

def Stmt.sameAll : List Stmt → List Stmt → Bool
  | [], [] => true
  | s :: ss, t :: ts => s.same t && Stmt.sameAll ss ts
  | _, _ => false

end

end Lox
