import Lox.Syntax.Parse

/-! # The grammar

The grammar of the language over tokens, each derivation with its tree. Levels of operators are nested,
operators with two sides join to the left and assignment to the right. Identities of references are no
part of the grammar: its trees have 0 for all of them (`Stmt.unnumbered`).

An `else` may belong to more than one `if`. A derivation says whether its statement ends in an `if` that
could take an `else` behind it (`dangling`); in the derivations of the nearest rule no such statement stands
before an `else`. -/

namespace Lox

/-! ### Trees without identities -/

mutual

def Expr.unnumbered : Expr → Expr
  | .literal v => .literal v
  | .grouping e => .grouping e.unnumbered
  | .unary operator e => .unary operator e.unnumbered
  | .binary l operator r => .binary l.unnumbered operator r.unnumbered
  | .logical l operator r => .logical l.unnumbered operator r.unnumbered
  | .var _ name => .var 0 name
  | .assign _ name v => .assign 0 name v.unnumbered
  | .call f paren args => .call f.unnumbered paren (Expr.unnumberedAll args)

def Expr.unnumberedAll : List Expr → List Expr
  | [] => []
  | e :: es => e.unnumbered :: Expr.unnumberedAll es

end

mutual

def Stmt.unnumbered : Stmt → Stmt
  | .expression e => .expression e.unnumbered
  | .print e => .print e.unnumbered
  | .var name init => .var name (init.map Expr.unnumbered)
  | .block body => .block (Stmt.unnumberedAll body)
  | .branch c yes no => .branch c.unnumbered yes.unnumbered (Stmt.unnumbered? no)
  | .loop c body => .loop c.unnumbered body.unnumbered
  | .function name params body => .function name params (Stmt.unnumberedAll body)
  | .ret keyword value => .ret keyword (value.map Expr.unnumbered)

def Stmt.unnumbered? : Option Stmt → Option Stmt
  | none => none
  | some s => some s.unnumbered

def Stmt.unnumberedAll : List Stmt → List Stmt
  | [] => []
  | s :: ss => s.unnumbered :: Stmt.unnumberedAll ss

end

/-! ### Arguments and parameters -/

mutual

/-- Every call has at most 255 arguments. -/
def Expr.WithinLimits : Expr → Prop
  | .literal _ | .var _ _ => True
  | .grouping e | .unary _ e | .assign _ _ e => e.WithinLimits
  | .binary l _ r | .logical l _ r => l.WithinLimits ∧ r.WithinLimits
  | .call f _ args => f.WithinLimits ∧ args.length ≤ 255 ∧ Expr.WithinLimitsAll args

def Expr.WithinLimitsAll : List Expr → Prop
  | [] => True
  | e :: es => e.WithinLimits ∧ Expr.WithinLimitsAll es

end

def Expr.WithinLimits? (e : Option Expr) : Prop := ∀ x ∈ e, x.WithinLimits

mutual

/-- Every call has at most 255 arguments, and every function at most 255 parameters. -/
def Stmt.WithinLimits : Stmt → Prop
  | .expression e | .print e => e.WithinLimits
  | .var _ init => Expr.WithinLimits? init
  | .block body => Stmt.WithinLimitsAll body
  | .branch c yes no => c.WithinLimits ∧ yes.WithinLimits ∧ Stmt.WithinLimits? no
  | .loop c body => c.WithinLimits ∧ body.WithinLimits
  | .function _ params body => params.length ≤ 255 ∧ Stmt.WithinLimitsAll body
  | .ret _ value => Expr.WithinLimits? value

def Stmt.WithinLimits? : Option Stmt → Prop
  | none => True
  | some s => s.WithinLimits

def Stmt.WithinLimitsAll : List Stmt → Prop
  | [] => True
  | s :: ss => s.WithinLimits ∧ Stmt.WithinLimitsAll ss

end

namespace Grammar

/-! ### Expressions -/

/-- What an expression can be derived from. -/
inductive Category where
  | assignment
  /-- A chain of operators of a level, or what is tighter. -/
  | chain (level : Level)
  | unary
  | call
  | primary

/-- The operators of each level. -/
def operators : Level → List Kind
  | .or => [.keyword .or]
  | .and => [.keyword .and]
  | .equality => [.mark .bangEqual, .mark .equalEqual]
  | .comparison => [.mark .greater, .mark .greaterEqual, .mark .less, .mark .lessEqual]
  | .term => [.mark .minus, .mark .plus]
  | .factor => [.mark .slash, .mark .star]

/-- What the operators of a level join. -/
def operand : Level → Category
  | .or => .chain .and
  | .and => .chain .equality
  | .equality => .chain .comparison
  | .comparison => .chain .term
  | .term => .chain .factor
  | .factor => .unary

/-- The tree of two operands and an operator. -/
def joined : Level → Expr → Token → Expr → Expr
  | .or, l, operator, r | .and, l, operator, r => .logical l operator r
  | .equality, l, operator, r | .comparison, l, operator, r => .binary l operator r
  | .term, l, operator, r | .factor, l, operator, r => .binary l operator r

/-- The tokens that are values by themselves. -/
inductive Constant : Kind → Literal → Prop
  | number (x : Float) : Constant (.number x) (.number x)
  | string (s : String) : Constant (.string s) (.string s)
  | true : Constant (.keyword .true) (.bool .true)
  | false : Constant (.keyword .false) (.bool .false)
  | nil : Constant (.keyword .nil) .nil

mutual

/-- These tokens are an expression with this tree. -/
inductive Derives : Category → List Token → Expr → Prop
  | assign {name equals : Token} {ts : List Token} {e : Expr} (hname : name.kind = .identifier)
    (hequals : equals.kind = .mark .equal) (h : Derives .assignment ts e) :
    Derives .assignment (name :: equals :: ts) (.assign 0 name e)
  | chain {ts : List Token} {e : Expr} (h : Derives (.chain .or) ts e) : Derives .assignment ts e
  | operand {level : Level} {ts : List Token} {e : Expr} (h : Derives (operand level) ts e) :
    Derives (.chain level) ts e
  | join {level : Level} {ts us : List Token} {l r : Expr} {operator : Token} (hl : Derives (.chain level) ts l)
    (hop : operator.kind ∈ operators level) (hr : Derives (operand level) us r) :
    Derives (.chain level) (ts ++ operator :: us) (joined level l operator r)
  | sign {operator : Token} {ts : List Token} {e : Expr}
    (hop : operator.kind = .mark .bang ∨ operator.kind = .mark .minus)
    (h : Derives .unary ts e) : Derives .unary (operator :: ts) (.unary operator e)
  | called {ts : List Token} {e : Expr} (h : Derives .call ts e) : Derives .unary ts e
  | callee {ts : List Token} {e : Expr} (h : Derives .primary ts e) : Derives .call ts e
  | call {ts us : List Token} {f : Expr} {args : List Expr} {opening closing : Token} (hf : Derives .call ts f)
    (hopening : opening.kind = .mark .leftParen) (hargs : Arguments us args)
    (hclosing : closing.kind = .mark .rightParen) :
    Derives .call (ts ++ opening :: (us ++ [closing])) (.call f closing args)
  | constant {t : Token} {v : Literal} (h : Constant t.kind v) : Derives .primary [t] (.literal v)
  | variable {t : Token} (h : t.kind = .identifier) : Derives .primary [t] (.var 0 t)
  | grouping {opening closing : Token} {ts : List Token} {e : Expr} (hopening : opening.kind = .mark .leftParen)
    (h : Derives .assignment ts e) (hclosing : closing.kind = .mark .rightParen) :
    Derives .primary (opening :: (ts ++ [closing])) (.grouping e)

/-- These tokens are the arguments of a call. -/
inductive Arguments : List Token → List Expr → Prop
  | none : Arguments [] []
  | some {ts : List Token} {es : List Expr} (h : ArgumentList ts es) : Arguments ts es

/-- At least one argument. -/
inductive ArgumentList : List Token → List Expr → Prop
  | last {ts : List Token} {e : Expr} (h : Derives .assignment ts e) : ArgumentList ts [e]
  | more {ts us : List Token} {e : Expr} {es : List Expr} {comma : Token} (h : Derives .assignment ts e)
    (hcomma : comma.kind = .mark .comma) (hes : ArgumentList us es) : ArgumentList (ts ++ comma :: us) (e :: es)

end

/-- An expression, or nothing. -/
inductive Maybe : List Token → Option Expr → Prop
  | none : Maybe [] none
  | some {ts : List Token} {e : Expr} (h : Derives .assignment ts e) : Maybe ts (some e)

/-! ### Statements -/

/-- An expression and a semicolon. -/
inductive ExpressionStatement : List Token → Stmt → Prop
  | mk {ts : List Token} {e : Expr} {semicolon : Token} (h : Derives .assignment ts e)
    (hsemicolon : semicolon.kind = .mark .semicolon) : ExpressionStatement (ts ++ [semicolon]) (.expression e)

/-- The declaration of a variable. -/
inductive VarDeclaration : List Token → Stmt → Prop
  | plain {keyword name semicolon : Token} (hkeyword : keyword.kind = .keyword .var) (hname : name.kind = .identifier)
    (hsemicolon : semicolon.kind = .mark .semicolon) : VarDeclaration [keyword, name, semicolon] (.var name none)
  | initialized {keyword name equals semicolon : Token} {ts : List Token} {e : Expr}
    (hkeyword : keyword.kind = .keyword .var) (hname : name.kind = .identifier)
    (hequals : equals.kind = .mark .equal) (h : Derives .assignment ts e)
    (hsemicolon : semicolon.kind = .mark .semicolon) :
    VarDeclaration (keyword :: name :: equals :: (ts ++ [semicolon])) (.var name (some e))

/-- The first clause of a `for` statement with its semicolon. -/
inductive ForInitializer : List Token → Option Stmt → Prop
  | none {semicolon : Token} (h : semicolon.kind = .mark .semicolon) : ForInitializer [semicolon] none
  | var {ts : List Token} {s : Stmt} (h : VarDeclaration ts s) : ForInitializer ts (some s)
  | expression {ts : List Token} {s : Stmt} (h : ExpressionStatement ts s) : ForInitializer ts (some s)

/-- A `for` statement as a loop: the increment stands behind the body in a block with it, the initializer
    before the loop in a block with it, and an absent condition is true. -/
def forLoop (init : Option Stmt) (condition increment : Option Expr) (body : Stmt) : Stmt :=
  let inner := match increment with
    | none => body
    | some e => .block [body, .expression e]
  let whole := match condition with
    | none => Stmt.loop (.literal (.bool true)) inner
    | some e => .loop e inner
  match init with
  | none => whole
  | some s => .block [s, whole]

theorem forLoop_withinLimits {init : Option Stmt} {condition increment : Option Expr} {body : Stmt} :
    (forLoop init condition increment body).WithinLimits ↔
      Stmt.WithinLimits? init ∧ Expr.WithinLimits? condition ∧ Expr.WithinLimits? increment ∧ body.WithinLimits := by
  unfold Expr.WithinLimits?
  cases init <;> cases condition <;> cases increment <;>
    simp [forLoop, Stmt.WithinLimits, Stmt.WithinLimitsAll, Stmt.WithinLimits?, Expr.WithinLimits, and_comm]

/-- At least one parameter. -/
inductive ParameterList : List Token → List Token → Prop
  | last {p : Token} (h : p.kind = .identifier) : ParameterList [p] [p]
  | more {p comma : Token} {ts ps : List Token} (h : p.kind = .identifier) (hcomma : comma.kind = .mark .comma)
    (hps : ParameterList ts ps) : ParameterList (p :: comma :: ts) (p :: ps)

/-- The parameters of a function. -/
inductive Parameters : List Token → List Token → Prop
  | none : Parameters [] []
  | some {ts ps : List Token} (h : ParameterList ts ps) : Parameters ts ps

mutual

/-- These tokens are a statement with this tree, which ends in an `if` without `else` or does not
    (`dangling`). -/
inductive Statement (nearest : Bool) : Bool → List Token → Stmt → Prop
  | expression {ts : List Token} {s : Stmt} (h : ExpressionStatement ts s) : Statement nearest false ts s
  | forLoop {keyword opening semicolon closing : Token} {ts us vs ws : List Token} {init : Option Stmt}
    {condition increment : Option Expr} {body : Stmt} {dangling : Bool} (hkeyword : keyword.kind = .keyword .for)
    (hopening : opening.kind = .mark .leftParen) (hinit : ForInitializer ts init) (hcondition : Maybe us condition)
    (hsemicolon : semicolon.kind = .mark .semicolon) (hincrement : Maybe vs increment)
    (hclosing : closing.kind = .mark .rightParen) (hbody : Statement nearest dangling ws body) :
    Statement nearest dangling (keyword :: opening :: (ts ++ (us ++ semicolon :: (vs ++ closing :: ws))))
      (forLoop init condition increment body)
  | ifOnly {keyword opening closing : Token} {ts us : List Token} {condition : Expr} {yes : Stmt} {dangling : Bool}
    (hkeyword : keyword.kind = .keyword .if) (hopening : opening.kind = .mark .leftParen)
    (hcondition : Derives .assignment ts condition) (hclosing : closing.kind = .mark .rightParen)
    (hyes : Statement nearest dangling us yes) :
    Statement nearest true (keyword :: opening :: (ts ++ closing :: us)) (.branch condition yes none)
  | ifElse {keyword opening closing other : Token} {ts us vs : List Token} {condition : Expr} {yes no : Stmt}
    {danglingYes dangling : Bool} (hkeyword : keyword.kind = .keyword .if) (hopening : opening.kind = .mark .leftParen)
    (hcondition : Derives .assignment ts condition) (hclosing : closing.kind = .mark .rightParen)
    (hyes : Statement nearest danglingYes us yes) (hnearest : nearest = true → danglingYes = false)
    (hother : other.kind = .keyword .else) (hno : Statement nearest dangling vs no) :
    Statement nearest dangling (keyword :: opening :: (ts ++ closing :: (us ++ other :: vs)))
      (.branch condition yes (some no))
  | print {keyword semicolon : Token} {ts : List Token} {e : Expr} (hkeyword : keyword.kind = .keyword .print)
    (h : Derives .assignment ts e) (hsemicolon : semicolon.kind = .mark .semicolon) :
    Statement nearest false (keyword :: (ts ++ [semicolon])) (.print e)
  | ret {keyword semicolon : Token} {ts : List Token} {value : Option Expr} (hkeyword : keyword.kind = .keyword .return)
    (h : Maybe ts value) (hsemicolon : semicolon.kind = .mark .semicolon) :
    Statement nearest false (keyword :: (ts ++ [semicolon])) (.ret keyword value)
  | whileLoop {keyword opening closing : Token} {ts us : List Token} {condition : Expr} {body : Stmt} {dangling : Bool}
    (hkeyword : keyword.kind = .keyword .while) (hopening : opening.kind = .mark .leftParen)
    (hcondition : Derives .assignment ts condition) (hclosing : closing.kind = .mark .rightParen)
    (hbody : Statement nearest dangling us body) :
    Statement nearest dangling (keyword :: opening :: (ts ++ closing :: us)) (.loop condition body)
  | block {opening closing : Token} {ts : List Token} {body : List Stmt} (hopening : opening.kind = .mark .leftBrace)
    (hbody : Declarations nearest ts body) (hclosing : closing.kind = .mark .rightBrace) :
    Statement nearest false (opening :: (ts ++ [closing])) (.block body)

/-- These tokens are a declaration or a statement. -/
inductive Declaration (nearest : Bool) : List Token → Stmt → Prop
  | function {keyword name opening closing brace last : Token} {ts us params : List Token} {body : List Stmt}
    (hkeyword : keyword.kind = .keyword .fun) (hname : name.kind = .identifier)
    (hopening : opening.kind = .mark .leftParen) (hparams : Parameters ts params)
    (hclosing : closing.kind = .mark .rightParen) (hbrace : brace.kind = .mark .leftBrace)
    (hbody : Declarations nearest us body) (hlast : last.kind = .mark .rightBrace) :
    Declaration nearest (keyword :: name :: opening :: (ts ++ closing :: brace :: (us ++ [last])))
      (.function name params body)
  | var {ts : List Token} {s : Stmt} (h : VarDeclaration ts s) : Declaration nearest ts s
  | statement {dangling : Bool} {ts : List Token} {s : Stmt} (h : Statement nearest dangling ts s) :
    Declaration nearest ts s

/-- These tokens are declarations and statements in order. -/
inductive Declarations (nearest : Bool) : List Token → List Stmt → Prop
  | nil : Declarations nearest [] []
  | cons {ts us : List Token} {s : Stmt} {ss : List Stmt} (h : Declaration nearest ts s)
    (hss : Declarations nearest us ss) : Declarations nearest (ts ++ us) (s :: ss)

end

/-- These tokens, without an end marker, are a program with these trees. -/
def Program (nearest : Bool) (ts : List Token) (program : List Stmt) : Prop := Declarations nearest ts program

end Grammar
end Lox
