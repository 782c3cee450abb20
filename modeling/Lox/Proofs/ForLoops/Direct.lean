import Lox.Evaluate
import Lox.Proofs.Likeness.Parsing
import Lox.Resolve

/-! # Loops as they are meant

A `for` statement says: run the initializer once in a frame of its own; then, round after round in that frame,
stop if the condition does not hold, run the body, and evaluate the increment. This is the loop that
`Eval.forLoop` carries out and `Resolve.forLoop` resolves. What the parser makes of the statement,
`Parse.ForClauses.toStmt`, is compared with it. Both have to be resolved side by side, so the loop is taken with
identities of its own (`Parse.ForClauses.shifted`). -/

namespace Lox

/-! ### Evaluation -/

namespace Eval

/-- Whether the condition of a loop holds, which it does if there is none. -/
def holds (context : Context) (n : Nat) : Option Expr → Eval Bool
  | none => pure true
  | some e => do
    let v ← expr context n e
    pure v.isTruthy

/-- Evaluates the increment of a loop, if there is one. -/
def advance (context : Context) (n : Nat) : Option Expr → Eval Unit
  | none => pure ()
  | some e => do
    let _ ← expr context n e
    pure ()

/-- A round of a loop: the body and then, unless it returned, the increment. -/
def round (context : Context) (n : Nat) (body : Stmt) (increment : Option Expr) : Eval Flow := do
  match ← stmt context n body with
  | .normal => do
    advance context n increment
    pure .normal
  | flow => pure flow

/-- The rounds of a `for` loop, all of them in the frame that is current. A return in the body ends the loop, and so
    does an error anywhere; neither the increment nor the condition is evaluated after that. -/
def rounds (context : Context) : Nat → Option Expr → Stmt → Option Expr → Eval Flow
  | 0, _, _, _ => throw .outOfFuel
  | n + 1, condition, body, increment => do
    if ← holds context n condition then
      match ← round context n body increment with
      | .normal => rounds context n condition body increment
      | flow => pure flow
    else pure .normal

/-- A `for` loop. With an initializer it has a frame of its own, in which the initializer is run once and then all
    rounds are: the variable is one binding for all of them and for the functions that they make. -/
def forLoop (context : Context) (n : Nat) (clauses : Parse.ForClauses) (body : Stmt) : Eval Flow :=
  match clauses.initializer with
  | none => rounds context n clauses.condition body clauses.increment
  | some s => inBlock do
    match ← stmt context n s with
    | .normal => rounds context n clauses.condition body clauses.increment
    | flow => pure flow

end Eval

/-! ### Resolution -/

namespace Resolve

/-- The walk over a `for` loop. With an initializer it has a scope of its own, and it has no other: condition, body and
    increment stand in this one. -/
def forLoop (inFunction : Bool) (scopes : Scopes) (found : Found) (clauses : Parse.ForClauses) (body : Stmt) : Found :=
  let (scopes, found) := match clauses.initializer with
    | none => (scopes, found)
    | some s => stmt inFunction ([] :: scopes) found s
  let found := expr? scopes found clauses.condition
  let found := (stmt inFunction scopes found body).2
  expr? scopes found clauses.increment

/-- On its way over a program the walk comes to these statements, the last ones of a list, with these scopes open.
    What is no list stands for a list of one. -/
inductive Reaches (program : List Stmt) : Bool → Scopes → List Stmt → Prop
  | program : Reaches program false [] program
  | next {inFunction : Bool} {scopes : Scopes} {s : Stmt} {rest : List Stmt}
    (h : Reaches program inFunction scopes (s :: rest)) :
    Reaches program inFunction (stmt inFunction scopes .empty s).1 rest
  | block {inFunction : Bool} {scopes : Scopes} {body rest : List Stmt}
    (h : Reaches program inFunction scopes (.block body :: rest)) : Reaches program inFunction ([] :: scopes) body
  | yes {inFunction : Bool} {scopes : Scopes} {condition : Expr} {yes : Stmt} {no : Option Stmt} {rest : List Stmt}
    (h : Reaches program inFunction scopes (.branch condition yes no :: rest)) : Reaches program inFunction scopes [yes]
  | no {inFunction : Bool} {scopes : Scopes} {condition : Expr} {yes no : Stmt} {rest : List Stmt}
    (h : Reaches program inFunction scopes (.branch condition yes (some no) :: rest)) :
    Reaches program inFunction (stmt inFunction scopes .empty yes).1 [no]
  | loop {inFunction : Bool} {scopes : Scopes} {condition : Expr} {body : Stmt} {rest : List Stmt}
    (h : Reaches program inFunction scopes (.loop condition body :: rest)) : Reaches program inFunction scopes [body]
  | function {inFunction : Bool} {scopes : Scopes} {name : Token} {parameters : List Token} {body rest : List Stmt}
    (h : Reaches program inFunction scopes (.function name parameters body :: rest)) :
    Reaches program true (parameterScope parameters :: scopes.mark name true) body

end Resolve

/-! ### Identities of its own -/

mutual

/-- The same expression, every identity being so much greater. -/
def Expr.shifted (k : ExprId) : Expr → Expr
  | .literal v => .literal v
  | .grouping e => .grouping (e.shifted k)
  | .unary operator e => .unary operator (e.shifted k)
  | .binary l operator r => .binary (l.shifted k) operator (r.shifted k)
  | .logical l operator r => .logical (l.shifted k) operator (r.shifted k)
  | .var id name => .var (id + k) name
  | .assign id name v => .assign (id + k) name (v.shifted k)
  | .call f paren args => .call (f.shifted k) paren (Expr.shiftedAll k args)

def Expr.shiftedAll (k : ExprId) : List Expr → List Expr
  | [] => []
  | e :: es => e.shifted k :: Expr.shiftedAll k es

end

mutual

/-- The same statement, every identity being so much greater. -/
def Stmt.shifted (k : ExprId) : Stmt → Stmt
  | .expression e => .expression (e.shifted k)
  | .print e => .print (e.shifted k)
  | .var name init => .var name (init.map (Expr.shifted k))
  | .block body => .block (Stmt.shiftedAll k body)
  | .branch c yes no => .branch (c.shifted k) (yes.shifted k) (Stmt.shifted? k no)
  | .loop c body => .loop (c.shifted k) (body.shifted k)
  | .function name parameters body => .function name parameters (Stmt.shiftedAll k body)
  | .ret keyword value => .ret keyword (value.map (Expr.shifted k))

def Stmt.shifted? (k : ExprId) : Option Stmt → Option Stmt
  | none => none
  | some s => some (s.shifted k)

def Stmt.shiftedAll (k : ExprId) : List Stmt → List Stmt
  | [] => []
  | s :: ss => s.shifted k :: Stmt.shiftedAll k ss

end

/-- The same clauses, every identity being so much greater. -/
def Parse.ForClauses.shifted (k : ExprId) (clauses : ForClauses) : ForClauses where
  initializer := Stmt.shifted? k clauses.initializer
  condition := clauses.condition.map (Expr.shifted k)
  increment := clauses.increment.map (Expr.shifted k)

/-- The same tokens, and identities as given. -/
def Likeness.ofIds (id : ExprId → ExprId → Prop) : Likeness where
  token := Eq
  id := id
  kind_eq h := h ▸ rfl
  lexeme_eq h := h ▸ rfl

/-- The same tokens, and identities that are so much greater. -/
def Likeness.shift (k : ExprId) : Likeness := .ofIds fun a a' => a' = a + k

/-- No token stands for another one. -/
def Likeness.Exact (L : Likeness) : Prop := ∀ {t t' : Token}, L.token t t' → t = t'

theorem Likeness.shift_exact (k : ExprId) : (Likeness.shift k).Exact := fun h => h

theorem Likeness.shift_zero : (Likeness.shift 0).Reflexive := ⟨fun _ => rfl, fun _ => rfl⟩

section
variable {k : ExprId}

mutual

theorem Expr.shifted_like : ∀ e : Expr, e.Like (.shift k) (e.shifted k)
  | .literal v => .literal v
  | .grouping e => .grouping e.shifted_like
  | .unary _ e => .unary rfl e.shifted_like
  | .binary l _ r => .binary l.shifted_like rfl r.shifted_like
  | .logical l _ r => .logical l.shifted_like rfl r.shifted_like
  | .var _ _ => .var rfl rfl
  | .assign _ _ v => .assign rfl rfl v.shifted_like
  | .call f _ args => .call f.shifted_like rfl (Expr.shiftedAll_like args)

theorem Expr.shiftedAll_like : ∀ es : List Expr, Expr.LikeAll (.shift k) es (Expr.shiftedAll k es)
  | [] => .nil
  | e :: es => .cons e.shifted_like (Expr.shiftedAll_like es)

end

theorem Expr.shifted_like? (e : Option Expr) : Expr.Like? (.shift k) e (e.map (Expr.shifted k)) := by
  cases e with
  | none => exact .none
  | some e => exact .some e.shifted_like

mutual

theorem Stmt.shifted_like : ∀ s : Stmt, s.Like (.shift k) (s.shifted k)
  | .expression e => .expression e.shifted_like
  | .print e => .print e.shifted_like
  | .var _ init => .var rfl (Expr.shifted_like? init)
  | .block body => .block (Stmt.shiftedAll_like body)
  | .branch c yes no => .branch c.shifted_like yes.shifted_like (Stmt.shifted_like? no)
  | .loop c body => .loop c.shifted_like body.shifted_like
  | .function _ _ body => .function rfl (List.forall₂_same.mpr fun _ _ => rfl) (Stmt.shiftedAll_like body)
  | .ret _ value => .ret rfl (Expr.shifted_like? value)

theorem Stmt.shifted_like? : ∀ s : Option Stmt, Stmt.Like? (.shift k) s (Stmt.shifted? k s)
  | none => .none
  | some s => .some s.shifted_like

theorem Stmt.shiftedAll_like : ∀ ss : List Stmt, Stmt.LikeAll (.shift k) ss (Stmt.shiftedAll k ss)
  | [] => .nil
  | s :: ss => .cons s.shifted_like (Stmt.shiftedAll_like ss)

end

theorem Parse.ForClauses.shifted_like (clauses : ForClauses) : clauses.Like (.shift k) (clauses.shifted k) :=
  ⟨Stmt.shifted_like? _, Expr.shifted_like? _, Expr.shifted_like? _⟩

theorem ids_of_shift {refs refs' : List Reference} (h : List.Forall₂ (Reference.Like (.shift k)) refs refs') :
    refs'.map (·.id) = refs.map (·.id + k) := by
  induction h with
  | nil => rfl
  | cons hr _ ih => rw [List.map_cons, List.map_cons, ih, show _ = _ from hr.id]

end

/-- The table with the distances of a loop whose identities are from `k` on. -/
def Resolve.withLoop (d : Distances) (k : ExprId) (inFunction : Bool) (scopes : Scopes) (clauses : Parse.ForClauses)
    (body : Stmt) : Distances :=
  d ∪ (forLoop inFunction scopes .empty (clauses.shifted k) (body.shifted k)).distances

end Lox
