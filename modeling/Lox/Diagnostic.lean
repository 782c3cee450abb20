import Lox.Token

/-! # Static errors

The passes before evaluation find errors of three kinds, each with a cause. A diagnostic is what is
shown of such an error: a line, a place in the line and a message. -/

namespace Lox

/-- The pass that found an error. -/
inductive Pass where
  | scanning
  | parsing
  | resolving
deriving DecidableEq, Repr

/-- A static error as it is shown. -/
structure Diagnostic where
  pass : Pass
  line : Nat
  location : String
  message : String
deriving DecidableEq, Repr

namespace Diagnostic

def render (d : Diagnostic) : String :=
  "[line " ++ toString d.line ++ "] Error" ++ d.location ++ ": " ++ d.message

/-- Where a token stands, in words. -/
def locationOf (t : Token) : String :=
  if t.isEnd then " at end" else " at '" ++ t.lexeme ++ "'"

/-- A diagnostic at a token. -/
def atToken (pass : Pass) (t : Token) (message : String) : Diagnostic :=
  ⟨pass, t.line, locationOf t, message⟩

end Diagnostic

/-! ### Scanning -/

/-- Why some text is no token. -/
inductive ScanError.Cause where
  | unexpected (c : Char)
  | unterminatedString
deriving DecidableEq, Repr

/-- Text that is no token, and the line it ends on. -/
structure ScanError where
  cause : ScanError.Cause
  line : Nat
deriving DecidableEq, Repr

def ScanError.Cause.message : Cause → String
  | unexpected c => "Unexpected character: " ++ c.toString
  | unterminatedString => "Unterminated string."

def ScanError.diagnostic (e : ScanError) : Diagnostic := ⟨.scanning, e.line, "", e.cause.message⟩

/-! ### Parsing -/

/-- What the parser misses or refuses at a token. -/
inductive SyntaxError.Cause where
  | noExpression
  | noSemicolon (after : String)
  | noName (of : String)
  | noLeftParen (after : String)
  | noRightParen (after : String)
  | noBodyBrace
  | noClosingBrace
  | invalidTarget
  | tooManyArguments
  | tooManyParameters
deriving DecidableEq, Repr

/-- A cause, at the token where it was noticed. -/
structure SyntaxError where
  token : Token
  cause : SyntaxError.Cause
deriving DecidableEq

def SyntaxError.Cause.message : Cause → String
  | noExpression => "Expect expression."
  | noSemicolon after => "Expect ';' after " ++ after ++ "."
  | noName of => "Expect " ++ of ++ " name."
  | noLeftParen after => "Expect '(' after " ++ after ++ "."
  | noRightParen after => "Expect ')' after " ++ after ++ "."
  | noBodyBrace => "Expect '\x7b' before function body."
  | noClosingBrace => "Expect '\x7d' after block."
  | invalidTarget => "Invalid assignment target."
  | tooManyArguments => "Can't have more than 255 arguments."
  | tooManyParameters => "Can't have more than 255 parameters."

def SyntaxError.diagnostic (e : SyntaxError) : Diagnostic := .atToken .parsing e.token e.cause.message

/-! ### Resolving -/

/-- The two rules that resolution checks. -/
inductive ScopeError.Cause where
  | ownInitializer
  | topLevelReturn
deriving DecidableEq, Repr

/-- A broken rule, at the token that breaks it. -/
structure ScopeError where
  token : Token
  cause : ScopeError.Cause
deriving DecidableEq

def ScopeError.Cause.message : Cause → String
  | ownInitializer => "Can't read local variable in its own initializer."
  | topLevelReturn => "Can't return from top-level code."

def ScopeError.diagnostic (e : ScopeError) : Diagnostic := .atToken .resolving e.token e.cause.message

end Lox
