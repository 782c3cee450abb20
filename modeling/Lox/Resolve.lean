import Lox.Diagnostic
import Lox.Syntax
import Std.Data.HashMap

/-! # Resolution

One walk over a program finds for each reference how many scopes lie between it and the one that
binds its name. Scopes are the blocks and the functions, a function's parameters and body being one;
the outermost level of a program is none, so what no scope declares is global and gets no distance.
The walk also reports references to a local variable in its own initializer, and returns outside of
functions. No error stops it. -/

namespace Lox

/-- The scope distances of references, by identity. -/
abbrev Distances := Std.HashMap ExprId Nat

namespace Resolve

/-- The names a scope declares so far, each with whether its declaration is complete; of several
    entries for a name the first counts. -/
abbrev Scope := List (String × Bool)

namespace Scope

def mark (name : Token) (complete : Bool) (scope : Scope) : Scope := (name.lexeme, complete) :: scope

/-- Whether the scope declares the name. -/
def declares (name : Token) (scope : Scope) : Bool := (scope.lookup name.lexeme).isSome

/-- Whether the declaration of the name is not complete yet. -/
def isPending (name : Token) (scope : Scope) : Bool := scope.lookup name.lexeme == some false

end Scope

/-- The open scopes, the innermost first. -/
abbrev Scopes := List Scope

/-- Changes the innermost scope, if there is one. -/
def Scopes.mark (name : Token) (complete : Bool) : Scopes → Scopes
  | [] => []
  | scope :: outer => scope.mark name complete :: outer

/-- What the walk has found so far. -/
structure Found where
  distances : Distances
  errors : Array ScopeError

namespace Found

def empty : Found := ⟨∅, #[]⟩

def error (token : Token) (cause : ScopeError.Cause) (found : Found) : Found :=
  { found with errors := found.errors.push ⟨token, cause⟩ }

/-- Records the distance of the innermost scope that declares the name, if one does. -/
def reference (scopes : Scopes) (id : ExprId) (name : Token) (found : Found) : Found :=
  match scopes.findIdx? (·.declares name) with
  | some distance => { found with distances := found.distances.insert id distance }
  | none => found

end Found

mutual

def expr (scopes : Scopes) (found : Found) : Expr → Found
  | .literal _ => found
  | .grouping e => expr scopes found e
  | .unary _ r => expr scopes found r
  | .binary l _ r | .logical l _ r => expr scopes (expr scopes found l) r
  | .var id name =>
    let found :=
      if (scopes.head?.any (·.isPending name)) then found.error name .ownInitializer else found
    found.reference scopes id name
  | .assign id name value => (expr scopes found value).reference scopes id name
  | .call callee _ arguments => exprs scopes (expr scopes found callee) arguments

def exprs (scopes : Scopes) (found : Found) : List Expr → Found
  | [] => found
  | e :: es => exprs scopes (expr scopes found e) es

end

def expr? (scopes : Scopes) (found : Found) : Option Expr → Found
  | none => found
  | some e => expr scopes found e

/-- The scope of a function before its body. -/
def parameterScope (parameters : List Token) : Scope :=
  parameters.foldl (fun scope name => scope.mark name true) []

mutual

/-- Walks over a statement, inside a function or not. Its declarations go to the innermost scope. -/
def stmt (inFunction : Bool) (scopes : Scopes) (found : Found) : Stmt → Scopes × Found
  | .expression e | .print e => (scopes, expr scopes found e)
  | .var name initializer =>
    let scopes := scopes.mark name false
    let found := expr? scopes found initializer
    (scopes.mark name true, found)
  | .block body => (scopes, (stmts inFunction ([] :: scopes) found body).2)
  | .branch condition yes no =>
    let (scopes, found) := stmt inFunction scopes (expr scopes found condition) yes
    stmt? inFunction scopes found no
  | .loop condition body => stmt inFunction scopes (expr scopes found condition) body
  | .function name parameters body =>
    let scopes := scopes.mark name true
    (scopes, (stmts true (parameterScope parameters :: scopes) found body).2)
  | .ret keyword value =>
    let found := if inFunction then found else found.error keyword .topLevelReturn
    (scopes, expr? scopes found value)

def stmt? (inFunction : Bool) (scopes : Scopes) (found : Found) : Option Stmt → Scopes × Found
  | none => (scopes, found)
  | some s => stmt inFunction scopes found s

def stmts (inFunction : Bool) (scopes : Scopes) (found : Found) : List Stmt → Scopes × Found
  | [] => (scopes, found)
  | s :: rest =>
    let (scopes, found) := stmt inFunction scopes found s
    stmts inFunction scopes found rest

end

end Resolve

/-- What resolving a program gives. -/
structure Resolution where
  distances : Distances
  errors : List ScopeError

def Resolution.isOk (r : Resolution) : Bool := r.errors.isEmpty

def resolve (program : List Stmt) : Resolution :=
  let found := (Resolve.stmts false [] .empty program).2
  ⟨found.distances, found.errors.toList⟩

end Lox
