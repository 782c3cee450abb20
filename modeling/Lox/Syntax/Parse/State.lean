import Lox.Diagnostic
import Lox.Syntax

/-! # The state of a parse

A parse reads a list of tokens from the front. It stops at an error that it cannot go on from, and
records those that it can; identities are handed out from a counter. Parsing functions take fuel for
their nesting, so a parse has a third way to stop; the fuel that `Parse.fuelFor` gives is enough. -/

namespace Lox.Parse

/-- What is left to read, the end marker behind it, the errors so far and the next identity. -/
structure State where
  rest : List Token
  final : Token
  errors : Array SyntaxError
  nextId : ExprId

/-- Why a parsing function gave no result. -/
inductive Stop where
  | refused (e : SyntaxError)
  | outOfFuel

end Parse

/-- A parsing function. -/
abbrev Parser := EStateM Parse.Stop Parse.State

namespace Parse

/-! ### The tokens of a parse -/

/-- The tokens before the first end marker. -/
def body (tokens : List Token) : List Token := tokens.takeWhile (!·.isEnd)

/-- The end marker that a parse stops at: the first one, or one on the line of the last token. -/
def finalOf (tokens : List Token) : Token :=
  match tokens.find? (·.isEnd) with
  | some t => t
  | none => .atEnd ((tokens.getLast?.map (·.line)).getD 1)

def State.start (tokens : List Token) (nextId : ExprId) : State :=
  ⟨body tokens, finalOf tokens, #[], nextId⟩

/-- The next token, or the end marker. -/
def State.next (s : State) : Token := s.rest.head?.getD s.final

/-! ### Reading tokens -/

def outOfFuel {α : Type} : Parser α := throw .outOfFuel

/-- Gives up at the next token. -/
def refuse {α : Type} (cause : SyntaxError.Cause) : Parser α := fun s =>
  .error (.refused ⟨s.next, cause⟩) s

/-- Records an error and goes on. -/
def record (e : SyntaxError) : Parser Unit := modify fun s => { s with errors := s.errors.push e }

/-- Records an error at the next token and goes on. -/
def recordHere (cause : SyntaxError.Cause) : Parser Unit := fun s =>
  record ⟨s.next, cause⟩ s

def freshId : Parser ExprId := fun s => .ok s.nextId { s with nextId := s.nextId + 1 }

/-- Reads the next token if its kind passes the test. -/
def take? (test : Kind → Bool) : Parser (Option Token) := fun s =>
  match s.rest with
  | [] => .ok none s
  | t :: rest => if test t.kind then .ok (some t) { s with rest } else .ok none s

/-- Whether a token is next whose kind passes the test. -/
def sees (test : Kind → Bool) : Parser Bool := fun s =>
  .ok (s.rest.head?.any fun t => test t.kind) s

/-- Whether no token is left. -/
def atEnd : Parser Bool := fun s => .ok s.rest.isEmpty s

/-- Reads the next token, which has to pass the test. -/
def expect (test : Kind → Bool) (cause : SyntaxError.Cause) : Parser Token := do
  match ← take? test with
  | some t => pure t
  | none => refuse cause

/-- What is parsed, unless a token is next whose kind passes the test. -/
def unlessNext {α : Type} (test : Kind → Bool) (default : α) (p : Parser α) : Parser α := do
  if ← sees test then pure default else p

/-- What is parsed behind a token whose kind passes the test, if one is next. -/
def after? {α : Type} (test : Kind → Bool) (p : Parser α) : Parser (Option α) := do
  match ← take? test with
  | some _ => some <$> p
  | none => pure none

/-- How many arguments a call may have, and parameters a function. -/
def maxArity : Nat := 255

/-- Records that there is one too many, if there are as many as may be. -/
def checkArity (size : Nat) (cause : SyntaxError.Cause) : Parser Unit :=
  if maxArity ≤ size then recordHere cause else pure ()

/-! ### Recovery -/

/-- The keywords that start a statement or a declaration. -/
def startsStatement : Kind → Bool
  | .keyword k => [.class, .fun, .var, .for, .if, .while, .print, .return].contains k
  | _ => false

/-- What is left after `dropped`, from behind the next semicolon or before a keyword that starts a
    statement. -/
def skipToBoundary (dropped : Token) : List Token → List Token
  | [] => []
  | t :: rest =>
    if dropped.kind == .mark .semicolon || startsStatement t.kind then t :: rest
    else skipToBoundary t rest

/-- Where parsing goes on after an error in front of these tokens: the first is dropped in any case. -/
def recover : List Token → List Token
  | [] => []
  | t :: rest => skipToBoundary t rest

/-- Tries a declaration. An error that stops it is recorded, and the tokens up to the next statement
    are dropped. -/
@[inline] def recovering (p : Parser Stmt) : Parser (Option Stmt) := fun s =>
  match p s with
  | .ok stmt s => .ok (some stmt) s
  | .error (.refused e) s =>
    .ok none { s with errors := s.errors.push e, rest := recover s.rest }
  | .error .outOfFuel s => .error .outOfFuel s

end Parse
end Lox
