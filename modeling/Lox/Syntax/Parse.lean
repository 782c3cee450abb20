import Lox.Syntax.Parse.Expr

/-! # Parsing programs

Declarations and statements, one at a time. An error inside a declaration drops the tokens up to the
next statement, and the rest of the program is still read. -/

namespace Lox
namespace Parse

/-- The tail of a statement that is an expression. -/
def expressionStatement (n : Nat) : Parser Stmt := do
  let e ← expression n
  let _ ← expect (isMark .semicolon) (.noSemicolon "expression")
  pure (.expression e)

/-- A variable declaration after `var`. -/
def varDeclaration (n : Nat) : Parser Stmt := do
  let name ← expect isIdentifier (.noName "variable")
  let initializer ← after? (isMark .equal) (expression n)
  let _ ← expect (isMark .semicolon) (.noSemicolon "variable declaration")
  pure (.var name initializer)

/-- A print statement after `print`. -/
def printStatement (n : Nat) : Parser Stmt := do
  let e ← expression n
  let _ ← expect (isMark .semicolon) (.noSemicolon "value")
  pure (.print e)

/-- A return statement after its keyword. -/
def returnStatement (n : Nat) (keyword : Token) : Parser Stmt := do
  let value ← unlessNext (isMark .semicolon) none (some <$> expression n)
  let _ ← expect (isMark .semicolon) (.noSemicolon "return value")
  pure (.ret keyword value)

/-- At least one parameter, after those in `done`. One too many is recorded before it is read. -/
def parameters : Nat → Array Token → Parser (Array Token)
  | 0, _ => outOfFuel
  | n + 1, done => do
    checkArity done.size .tooManyParameters
    let done := done.push (← expect isIdentifier (.noName "parameter"))
    match ← take? (isMark .comma) with
    | none => pure done
    | some _ => parameters n done

/-- The three clauses of a `for` statement. -/
structure ForClauses where
  initializer : Option Stmt
  condition : Option Expr
  increment : Option Expr

/-- The first clause of a `for` statement with its semicolon. -/
def forInitializer (n : Nat) : Parser (Option Stmt) := do
  match ← take? (isMark .semicolon) with
  | some _ => pure none
  | none => match ← take? (isKeyword .var) with
    | some _ => some <$> varDeclaration n
    | none => some <$> expressionStatement n

/-- The clauses of a `for` statement in their parentheses. -/
def forClauses (n : Nat) : Parser ForClauses := do
  let _ ← expect (isMark .leftParen) (.noLeftParen "'for'")
  let initializer ← forInitializer n
  let condition ← unlessNext (isMark .semicolon) none (some <$> expression n)
  let _ ← expect (isMark .semicolon) (.noSemicolon "loop condition")
  let increment ← unlessNext (isMark .rightParen) none (some <$> expression n)
  let _ ← expect (isMark .rightParen) (.noRightParen "for clauses")
  pure ⟨initializer, condition, increment⟩

/-- A `for` statement as a loop: the increment follows the body in a block of their own, and the
    initializer stands in front of the loop in another. -/
def ForClauses.toStmt (clauses : ForClauses) (body : Stmt) : Stmt :=
  let body := match clauses.increment with
    | some e => .block [body, .expression e]
    | none => body
  let loop := .loop (clauses.condition.getD (.literal (.bool true))) body
  match clauses.initializer with
  | some init => .block [init, loop]
  | none => loop

/-- A condition in parentheses, `keyword` being the words for what stands before it. -/
def condition (n : Nat) (keyword clause : String) : Parser Expr := do
  let _ ← expect (isMark .leftParen) (.noLeftParen keyword)
  let e ← expression n
  let _ ← expect (isMark .rightParen) (.noRightParen clause)
  pure e

mutual

def statement : Nat → Parser Stmt
  | 0 => outOfFuel
  | n + 1 => do
    match ← take? startsInner with
    | none => expressionStatement n
    | some t => match t.kind with
      | .keyword .for => do
        let clauses ← forClauses n
        pure (clauses.toStmt (← statement n))
      | .keyword .if => do
        let e ← condition n "'if'" "if condition"
        let yes ← statement n
        pure (.branch e yes (← after? (isKeyword .else) (statement n)))
      | .keyword .print => printStatement n
      | .keyword .return => returnStatement n t
      | .keyword .while => do
        let e ← condition n "'while'" "condition"
        pure (.loop e (← statement n))
      | _ => .block <$> block n
where
  /-- The first tokens of the statements that are no expression. -/
  startsInner : Kind → Bool
    | .keyword k => [.for, .if, .print, .return, .while].contains k
    | k => isMark .leftBrace k

/-- A function declaration after `fun`. -/
def function : Nat → Parser Stmt
  | 0 => outOfFuel
  | n + 1 => do
    let name ← expect isIdentifier (.noName "function")
    let _ ← expect (isMark .leftParen) (.noLeftParen "function name")
    let parameters ← unlessNext (isMark .rightParen) #[] (parameters n #[])
    let _ ← expect (isMark .rightParen) (.noRightParen "parameters")
    let _ ← expect (isMark .leftBrace) .noBodyBrace
    pure (.function name parameters.toList (← block n))

/-- One declaration or statement; nothing if an error stopped it. -/
def declaration : Nat → Parser (Option Stmt)
  | 0 => outOfFuel
  | n + 1 => recovering do
    match ← take? (isKeyword .fun) with
    | some _ => function n
    | none => match ← take? (isKeyword .var) with
      | some _ => varDeclaration n
      | none => statement n

/-- The declarations of a block after its opening brace, and the closing one. -/
def block : Nat → Parser (List Stmt)
  | 0 => outOfFuel
  | n + 1 => do
    let body ← declarations n true #[]
    let _ ← expect (isMark .rightBrace) .noClosingBrace
    pure body.toList

/-- Declarations up to the end, or in a block up to a closing brace, after those in `done`. -/
def declarations : Nat → Bool → Array Stmt → Parser (Array Stmt)
  | 0, _, _ => outOfFuel
  | n + 1, inBlock, done => do
    if ← atEnd then pure done
    else if inBlock && (← sees (isMark .rightBrace)) then pure done
    else match ← declaration n with
      | some stmt => declarations n inBlock (done.push stmt)
      | none => declarations n inBlock done

end

/-- Enough fuel for these tokens: no token is read more than sixteen calls below the one before. -/
def fuelFor (tokens : List Token) : Nat := 16 * tokens.length + 32

end Parse

/-! ### Whole parses -/

/-- What parsing a program gives: the statements that parsed, the errors in the order in which they
    were found, and the next identity. -/
structure Parsed where
  statements : List Stmt
  errors : List SyntaxError
  nextId : ExprId

/-- Parses a program. What follows the first end marker does not count. -/
def parse (tokens : List Token) (nextId : ExprId) : Parsed :=
  match Parse.declarations (Parse.fuelFor tokens) false #[] (.start tokens nextId) with
  | .ok statements s => ⟨statements.toList, s.errors.toList, s.nextId⟩
  | .error _ s => ⟨[], s.errors.toList, s.nextId⟩

/-- What parsing an expression gives. -/
structure ParsedExpr where
  expression? : Option Expr
  errors : List SyntaxError
  nextId : ExprId

/-- Parses one expression, which is given only if no error was found. What follows it does not
    count. -/
def parseExpression (tokens : List Token) (nextId : ExprId) : ParsedExpr :=
  match Parse.expression (Parse.fuelFor tokens) (.start tokens nextId) with
  | .ok e s => ⟨if s.errors.isEmpty then some e else none, s.errors.toList, s.nextId⟩
  | .error (.refused e) s => ⟨none, (s.errors.push e).toList, s.nextId⟩
  | .error .outOfFuel s => ⟨none, s.errors.toList, s.nextId⟩

end Lox
