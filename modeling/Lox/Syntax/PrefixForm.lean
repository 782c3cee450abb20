import Lox.Syntax

/-! # The prefix form

A tree written in parentheses with its head first. -/

namespace Lox

def Literal.prefixForm : Literal → String
  | .number x => Number.inPrefixForm x
  | .string s => s
  | .bool true => "true"
  | .bool false => "false"
  | .nil => "nil"

/-- Parts in parentheses, a space between each two. -/
def parenthesized (parts : List String) : String := "(" ++ " ".intercalate parts ++ ")"

mutual

def Expr.prefixForm : Expr → String
  | .literal v => v.prefixForm
  | .grouping e => parenthesized ["group", e.prefixForm]
  | .unary op r => parenthesized [op.lexeme, r.prefixForm]
  | .binary l op r | .logical l op r => parenthesized [op.lexeme, l.prefixForm, r.prefixForm]
  | .var _ name => name.lexeme
  | .assign _ name v => parenthesized ["=", name.lexeme, v.prefixForm]
  | .call f _ args => parenthesized ("call" :: f.prefixForm :: Expr.prefixForms args)

def Expr.prefixForms : List Expr → List String
  | [] => []
  | e :: es => e.prefixForm :: Expr.prefixForms es

end

mutual

def Stmt.prefixForm : Stmt → String
  | .expression e => parenthesized [";", e.prefixForm]
  | .print e => parenthesized ["print", e.prefixForm]
  | .var name none => parenthesized ["var", name.lexeme]
  | .var name (some e) => parenthesized ["var", name.lexeme, e.prefixForm]
  | .block body => parenthesized ("block" :: Stmt.prefixForms body)
  | .branch c yes none => parenthesized ["if", c.prefixForm, yes.prefixForm]
  | .branch c yes (some no) =>
    parenthesized ["if-else", c.prefixForm, yes.prefixForm, no.prefixForm]
  | .loop c body => parenthesized ["while", c.prefixForm, body.prefixForm]
  | .function name params body =>
    parenthesized (("fun " ++ name.lexeme ++ parenthesized (params.map (·.lexeme))) ::
      Stmt.prefixForms body)
  | .ret _ none => "(return)"
  | .ret _ (some e) => parenthesized ["return", e.prefixForm]

def Stmt.prefixForms : List Stmt → List String
  | [] => []
  | s :: ss => s.prefixForm :: Stmt.prefixForms ss

end

end Lox
