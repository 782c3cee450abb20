import Lox.Syntax.Parse.State

/-! # Parsing expressions

Six levels of operators with two sides, each joining to the left, between assignment, which joins to
the right, and the prefix operators, calls and atoms. -/

namespace Lox

/-- The levels of the operators with two sides, from the loosest to the tightest. -/
inductive Level where
  | or | and | equality | comparison | term | factor
deriving DecidableEq, Repr

namespace Level

/-- The next tighter level; above the tightest stand the prefix operators. -/
def tighter? : Level → Option Level
  | or => some and
  | and => some equality
  | equality => some comparison
  | comparison => some term
  | term => some factor
  | factor => none

/-- The operators of a level. -/
def admits : Level → Kind → Bool
  | or, .keyword .or => true
  | and, .keyword .and => true
  | equality, .mark .bangEqual | equality, .mark .equalEqual => true
  | comparison, .mark .greater | comparison, .mark .greaterEqual => true
  | comparison, .mark .less | comparison, .mark .lessEqual => true
  | term, .mark .minus | term, .mark .plus => true
  | factor, .mark .slash | factor, .mark .star => true
  | _, _ => false

/-- The tree of an operator of a level. -/
def join : Level → Expr → Token → Expr → Expr
  | or, left, operator, right | and, left, operator, right => .logical left operator right
  | _, left, operator, right => .binary left operator right

end Level

namespace Parse

def isMark (m : Mark) : Kind → Bool
  | .mark m' => m' == m
  | _ => false

def isKeyword (k : Keyword) : Kind → Bool
  | .keyword k' => k' == k
  | _ => false

def isIdentifier : Kind → Bool
  | .identifier => true
  | _ => false

def isPrefixOperator : Kind → Bool
  | .mark .bang | .mark .minus => true
  | _ => false

/-- What a token stands for that is an expression by itself. -/
def literal? : Kind → Option Literal
  | .keyword .false => some (.bool false)
  | .keyword .true => some (.bool true)
  | .keyword .nil => some .nil
  | .number x => some (.number x)
  | .string s => some (.string s)
  | _ => none

def isAtom (k : Kind) : Bool :=
  (literal? k).isSome || isIdentifier k || isMark .leftParen k

mutual

/-- An assignment, or what may stand on its left side. Only a bare variable is a target: any other is
    recorded as an error after the value has been read, and the value stands for the whole. -/
def expression : Nat → Parser Expr
  | 0 => outOfFuel
  | n + 1 => do
    let target ← binary n .or
    match ← take? (isMark .equal) with
    | none => pure target
    | some equals =>
      let value ← expression n
      match target with
      | .var _ name => pure (.assign (← freshId) name value)
      | _ =>
        record ⟨equals, .invalidTarget⟩
        pure value

/-- A chain of operators of one level. -/
def binary : Nat → Level → Parser Expr
  | 0, _ => outOfFuel
  | n + 1, level => do
    let left ← level.tighter?.elim (unary n) (binary n)
    chain n level left

/-- The operators of one level that follow `left`. -/
def chain : Nat → Level → Expr → Parser Expr
  | 0, _, _ => outOfFuel
  | n + 1, level, left => do
    match ← take? level.admits with
    | none => pure left
    | some operator =>
      let right ← level.tighter?.elim (unary n) (binary n)
      chain n level (level.join left operator right)

def unary : Nat → Parser Expr
  | 0 => outOfFuel
  | n + 1 => do
    match ← take? isPrefixOperator with
    | some operator => pure (.unary operator (← unary n))
    | none => calls n (← primary n)

/-- The argument lists that follow a callee. -/
def calls : Nat → Expr → Parser Expr
  | 0, _ => outOfFuel
  | n + 1, callee => do
    match ← take? (isMark .leftParen) with
    | none => pure callee
    | some _ =>
      let arguments ← unlessNext (isMark .rightParen) #[] (arguments n #[])
      let paren ← expect (isMark .rightParen) (.noRightParen "arguments")
      calls n (.call callee paren arguments.toList)

/-- At least one argument, after those in `done`. One too many is recorded before it is read. -/
def arguments : Nat → Array Expr → Parser (Array Expr)
  | 0, _ => outOfFuel
  | n + 1, done => do
    checkArity done.size .tooManyArguments
    let done := done.push (← expression n)
    match ← take? (isMark .comma) with
    | none => pure done
    | some _ => arguments n done

def primary : Nat → Parser Expr
  | 0 => outOfFuel
  | n + 1 => do
    match ← take? isAtom with
    | none => refuse .noExpression
    | some t =>
      match literal? t.kind with
      | some v => pure (.literal v)
      | none =>
        if isIdentifier t.kind then pure (.var (← freshId) t)
        else
          let inner ← expression n
          let _ ← expect (isMark .rightParen) (.noRightParen "expression")
          pure (.grouping inner)

end

end Parse
end Lox
