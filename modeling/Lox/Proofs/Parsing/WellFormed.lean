import Lox.Proofs.Parsing.Fuel

/-! # Tokens in the trees of a parse

The operators and names in a tree are tokens of the kinds that stand there (`Stmt.WellFormed`). This holds of all that
a parse keeps, with or without errors (`parse_wellFormed`): each is taken by a test of its kind. The target of an
assignment is no such token, but it was one when it was read as a variable. -/

namespace Lox

/-- The operators with two sides, but for the logical ones. -/
def Mark.binary : List Mark :=
  [minus, plus, slash, star, bangEqual, equalEqual, greater, greaterEqual, less, lessEqual]

namespace Kind

def IsUnaryOperator (k : Kind) : Prop := k = .mark .bang ∨ k = .mark .minus

def IsBinaryOperator (k : Kind) : Prop := ∃ m ∈ Mark.binary, k = .mark m

def IsLogicalOperator (k : Kind) : Prop := k = .keyword .and ∨ k = .keyword .or

end Kind

mutual

/-- The operators and names in the expression are of the kinds that stand there. -/
def Expr.WellFormed : Expr → Prop
  | .literal _ => True
  | .grouping inner => inner.WellFormed
  | .unary operator right => operator.kind.IsUnaryOperator ∧ right.WellFormed
  | .binary left operator right => operator.kind.IsBinaryOperator ∧ left.WellFormed ∧ right.WellFormed
  | .logical left operator right => operator.kind.IsLogicalOperator ∧ left.WellFormed ∧ right.WellFormed
  | .var _ name => name.kind = .identifier
  | .assign _ name value => name.kind = .identifier ∧ value.WellFormed
  | .call callee _ arguments => callee.WellFormed ∧ Expr.WellFormedAll arguments

def Expr.WellFormedAll : List Expr → Prop
  | [] => True
  | e :: es => e.WellFormed ∧ Expr.WellFormedAll es

end

def Expr.WellFormed? (e : Option Expr) : Prop := ∀ e' ∈ e, e'.WellFormed

mutual

/-- The operators and names in the statement are of the kinds that stand there. -/
def Stmt.WellFormed : Stmt → Prop
  | .expression e | .print e => e.WellFormed
  | .var name initializer => name.kind = .identifier ∧ Expr.WellFormed? initializer
  | .block body => Stmt.WellFormedAll body
  | .branch condition yes no => condition.WellFormed ∧ yes.WellFormed ∧ Stmt.WellFormed? no
  | .loop condition body => condition.WellFormed ∧ body.WellFormed
  | .function name parameters body =>
    name.kind = .identifier ∧ (∀ p ∈ parameters, p.kind = .identifier) ∧ Stmt.WellFormedAll body
  | .ret _ value => Expr.WellFormed? value

def Stmt.WellFormed? : Option Stmt → Prop
  | none => True
  | some s => s.WellFormed

def Stmt.WellFormedAll : List Stmt → Prop
  | [] => True
  | s :: ss => s.WellFormed ∧ Stmt.WellFormedAll ss

end

theorem Expr.wellFormed?_none : Expr.WellFormed? none := nofun

theorem Expr.WellFormed.some {e : Expr} (h : e.WellFormed) : Expr.WellFormed? (some e) := by
  intro e' he
  cases he
  exact h

theorem Expr.wellFormedAll_append {es fs : List Expr} (he : Expr.WellFormedAll es) (hf : Expr.WellFormedAll fs) :
    Expr.WellFormedAll (es ++ fs) := by
  induction es with
  | nil => exact hf
  | cons e es ih => exact ⟨he.1, ih he.2⟩

theorem Stmt.wellFormedAll_append {ss ts : List Stmt} (hs : Stmt.WellFormedAll ss) (ht : Stmt.WellFormedAll ts) :
    Stmt.WellFormedAll (ss ++ ts) := by
  induction ss with
  | nil => exact ht
  | cons s ss ih => exact ⟨hs.1, ih hs.2⟩

namespace Parse

/-! ### Expressions -/

theorem isUnaryOperator {k : Kind} (h : isPrefixOperator k = true) : k.IsUnaryOperator := by
  unfold isPrefixOperator at h
  split at h
  · exact .inl rfl
  · exact .inr rfl
  · cases h

/-- The operators of a level make well-formed trees. -/
theorem join_wellFormed {level : Level} {left right : Expr} {operator : Token} (h : level.admits operator.kind = true)
    (hl : left.WellFormed) (hr : right.WellFormed) : (level.join left operator right).WellFormed := by
  cases level with
  | or | and =>
    have hop : operator.kind.IsLogicalOperator := by
      unfold Level.admits at h
      split at h <;> simp_all [Kind.IsLogicalOperator]
    exact ⟨hop, hl, hr⟩
  | equality | comparison | term | factor =>
    have hop : operator.kind.IsBinaryOperator := by
      unfold Level.admits at h
      split at h <;> simp_all [Kind.IsBinaryOperator, Mark.binary]
    exact ⟨hop, hl, hr⟩

/-- What parsing functions of expressions build with this fuel is well formed, if what they go on from is. -/
structure ExpressionsWellFormed (n : Nat) : Prop where
  expression : ∀ {s : State} {e : Expr} {s' : State}, expression n s = .ok e s' → e.WellFormed
  binary : ∀ {level : Level} {s : State} {e : Expr} {s' : State}, binary n level s = .ok e s' → e.WellFormed
  chain : ∀ {level : Level} {left : Expr} {s : State} {e : Expr} {s' : State}, chain n level left s = .ok e s' →
    left.WellFormed → e.WellFormed
  unary : ∀ {s : State} {e : Expr} {s' : State}, unary n s = .ok e s' → e.WellFormed
  calls : ∀ {callee : Expr} {s : State} {e : Expr} {s' : State}, calls n callee s = .ok e s' → callee.WellFormed →
    e.WellFormed
  arguments : ∀ {done : Array Expr} {s : State} {args : Array Expr} {s' : State}, arguments n done s = .ok args s' →
    Expr.WellFormedAll done.toList → Expr.WellFormedAll args.toList
  primary : ∀ {s : State} {e : Expr} {s' : State}, primary n s = .ok e s' → e.WellFormed

namespace ExpressionsWellFormed
variable {n : Nat} {s s' : State} {e : Expr} (ih : ExpressionsWellFormed n)
include ih

theorem operand {level : Level} (h : operand n level s = .ok e s') : e.WellFormed := by
  cases level with
  | factor => exact ih.unary h
  | or | and | equality | comparison | term => exact ih.binary h

theorem expression_succ (h : Parse.expression (n + 1) s = .ok e s') : e.WellFormed := by
  obtain ⟨target, s₁, ht, ⟨-, rfl, -⟩ | ⟨equals, s₂, value, s₃, -, hv, h⟩⟩ := expression_ok h
  · exact ih.binary ht
  · rcases h with ⟨id, name, rfl, rfl, -⟩ | ⟨rfl, -⟩
    · have hname : (Expr.var id name).WellFormed := ih.binary ht
      exact ⟨hname, ih.expression hv⟩
    · exact ih.expression hv

theorem binary_succ {level : Level} (h : Parse.binary (n + 1) level s = .ok e s') : e.WellFormed := by
  obtain ⟨left, s₁, hl, h⟩ := binary_ok h
  exact ih.chain h (ih.operand hl)

theorem chain_succ {level : Level} {left : Expr} (h : Parse.chain (n + 1) level left s = .ok e s')
    (hleft : left.WellFormed) : e.WellFormed := by
  rcases chain_ok h with ⟨-, rfl, -⟩ | ⟨operator, s₁, right, s₂, hop, hr, h⟩
  · exact hleft
  · exact ih.chain h (join_wellFormed hop.test hleft (ih.operand hr))

theorem unary_succ (h : Parse.unary (n + 1) s = .ok e s') : e.WellFormed := by
  rcases unary_ok h with ⟨operator, s₁, right, hop, hr, rfl⟩ | ⟨-, callee, s₁, hc, h⟩
  · exact ⟨isUnaryOperator hop.test, ih.unary hr⟩
  · exact ih.calls h (ih.primary hc)

theorem calls_succ {callee : Expr} (h : Parse.calls (n + 1) callee s = .ok e s') (hcallee : callee.WellFormed) :
    e.WellFormed := by
  rcases calls_ok h with ⟨-, rfl, -⟩ | ⟨opening, s₁, args, s₂, paren, s₃, -, hargs, -, h⟩
  · exact hcallee
  · have hall : Expr.WellFormedAll args.toList := by
      rcases hargs with ⟨rfl, -⟩ | ha
      · trivial
      · exact ih.arguments ha trivial
    exact ih.calls h ⟨hcallee, hall⟩

theorem arguments_succ {done args : Array Expr} (h : Parse.arguments (n + 1) done s = .ok args s')
    (hdone : Expr.WellFormedAll done.toList) : Expr.WellFormedAll args.toList := by
  obtain ⟨s₁, e, s₂, -, he, h⟩ := arguments_ok h
  have hpush : Expr.WellFormedAll (done.push e).toList := by
    rw [Array.toList_push]
    exact Expr.wellFormedAll_append hdone ⟨ih.expression he, trivial⟩
  rcases h with ⟨-, rfl, -⟩ | ⟨comma, s₃, -, h⟩
  · exact hpush
  · exact ih.arguments h hpush

theorem primary_succ (h : Parse.primary (n + 1) s = .ok e s') : e.WellFormed := by
  obtain ⟨t, s₁, ht, ⟨v, -, rfl, -⟩ | ⟨-, hname, rfl, -⟩ | ⟨-, -, inner, s₂, paren, hi, -, rfl⟩⟩ := primary_ok h
  · trivial
  · exact isIdentifier_iff.mp hname
  · rw [Expr.WellFormed]
    exact ih.expression hi

end ExpressionsWellFormed

theorem expressionsWellFormed : ∀ n, ExpressionsWellFormed n
  | 0 => ⟨nofun, nofun, nofun, nofun, nofun, nofun, nofun⟩
  | n + 1 =>
    have ih := expressionsWellFormed n
    { expression := ih.expression_succ
      binary := ih.binary_succ
      chain := ih.chain_succ
      unary := ih.unary_succ
      calls := ih.calls_succ
      arguments := ih.arguments_succ
      primary := ih.primary_succ }

/-! ### Statements -/

section
variable {n : Nat} {s s' : State} {stmt : Stmt}

theorem expression_wellFormed {e : Expr} (h : expression n s = .ok e s') : e.WellFormed :=
  (expressionsWellFormed n).expression h

theorem maybe_wellFormed {e? : Option Expr} (h : Maybe n s e? s') : Expr.WellFormed? e? := by
  rcases h with ⟨rfl, -⟩ | ⟨e, he, rfl⟩
  · exact Expr.wellFormed?_none
  · exact (expression_wellFormed he).some

theorem expressionStatement_wellFormed (h : expressionStatement n s = .ok stmt s') : stmt.WellFormed := by
  obtain ⟨e, s₁, semicolon, he, -, rfl⟩ := expressionStatement_ok h
  exact expression_wellFormed he

theorem varDeclaration_wellFormed (h : varDeclaration n s = .ok stmt s') : stmt.WellFormed := by
  obtain ⟨name, s₁, init, s₂, semicolon, hname, hinit, -, rfl⟩ := varDeclaration_ok h
  refine ⟨isIdentifier_iff.mp hname.test, ?_⟩
  rcases hinit with ⟨rfl, -⟩ | ⟨equals, s₃, e, -, he, rfl⟩
  · exact Expr.wellFormed?_none
  · exact (expression_wellFormed he).some

theorem printStatement_wellFormed (h : printStatement n s = .ok stmt s') : stmt.WellFormed := by
  obtain ⟨e, s₁, semicolon, he, -, rfl⟩ := printStatement_ok h
  exact expression_wellFormed he

theorem returnStatement_wellFormed {keyword : Token} (h : returnStatement n keyword s = .ok stmt s') :
    stmt.WellFormed := by
  obtain ⟨value, s₁, semicolon, hvalue, -, rfl⟩ := returnStatement_ok h
  exact maybe_wellFormed hvalue

theorem parameters_identifiers {done ps : Array Token} (h : parameters n done s = .ok ps s')
    (hdone : ∀ p ∈ done.toList, p.kind = .identifier) : ∀ p ∈ ps.toList, p.kind = .identifier := by
  induction n generalizing done s with
  | zero => cases h
  | succ n ih =>
    obtain ⟨s₁, p, s₂, -, hp, h⟩ := parameters_ok h
    have hpush : ∀ q ∈ (done.push p).toList, q.kind = .identifier := by
      rw [Array.toList_push]
      exact List.forall_mem_append.mpr ⟨hdone, List.forall_mem_singleton.mpr (isIdentifier_iff.mp hp.test)⟩
    rcases h with ⟨-, rfl, -⟩ | ⟨comma, s₃, -, h⟩
    · exact hpush
    · exact ih h hpush

theorem forInitializer_wellFormed {init : Option Stmt} (h : forInitializer n s = .ok init s') :
    Stmt.WellFormed? init := by
  rcases forInitializer_ok h with ⟨semicolon, -, rfl⟩ | ⟨keyword, s₁, decl, -, hd, rfl⟩ | ⟨stmt, hs, rfl⟩
  · trivial
  · exact varDeclaration_wellFormed hd
  · exact expressionStatement_wellFormed hs

/-- A loop with clauses is well formed if these are; without a condition it has a literal there. -/
theorem toStmt_wellFormed {clauses : ForClauses} {body : Stmt} (hinit : Stmt.WellFormed? clauses.initializer)
    (hcondition : Expr.WellFormed? clauses.condition) (hincrement : Expr.WellFormed? clauses.increment)
    (hbody : body.WellFormed) : (clauses.toStmt body).WellFormed := by
  obtain ⟨init, condition, increment⟩ := clauses
  have htest : (condition.getD (.literal (.bool true))).WellFormed := by
    cases condition with
    | none => trivial
    | some e => exact hcondition e rfl
  cases increment with
  | none => cases init with
    | none => exact ⟨htest, hbody⟩
    | some i => exact ⟨hinit, ⟨htest, hbody⟩, trivial⟩
  | some e =>
    have hround : (Stmt.block [body, .expression e]).WellFormed := ⟨hbody, hincrement e rfl, trivial⟩
    cases init with
    | none => exact ⟨htest, hround⟩
    | some i => exact ⟨hinit, ⟨htest, hround⟩, trivial⟩

theorem forClauses_wellFormed {clauses : ForClauses} {body : Stmt} (h : forClauses n s = .ok clauses s')
    (hbody : body.WellFormed) : (clauses.toStmt body).WellFormed := by
  obtain ⟨_, _, _, _, _, _, _, _, -, hinit, hcondition, -, hincrement, -⟩ := forClauses_ok h
  exact toStmt_wellFormed (forInitializer_wellFormed hinit) (maybe_wellFormed hcondition)
    (maybe_wellFormed hincrement) hbody

theorem condition_wellFormed {keyword clause : String} {e : Expr} (h : condition n keyword clause s = .ok e s') :
    e.WellFormed := by
  obtain ⟨opening, s₁, s₂, closing, -, he, -⟩ := condition_ok h
  exact expression_wellFormed he

end

/-- What parsing functions of statements keep with this fuel is well formed. -/
structure StatementsWellFormed (n : Nat) : Prop where
  statement : ∀ {s : State} {stmt : Stmt} {s' : State}, statement n s = .ok stmt s' → stmt.WellFormed
  function : ∀ {s : State} {stmt : Stmt} {s' : State}, function n s = .ok stmt s' → stmt.WellFormed
  declaration : ∀ {s : State} {stmt : Stmt} {s' : State}, declaration n s = .ok (some stmt) s' → stmt.WellFormed
  block : ∀ {s : State} {body : List Stmt} {s' : State}, block n s = .ok body s' → Stmt.WellFormedAll body
  declarations : ∀ {inBlock : Bool} {done : Array Stmt} {s : State} {all : Array Stmt} {s' : State},
    declarations n inBlock done s = .ok all s' → Stmt.WellFormedAll done.toList → Stmt.WellFormedAll all.toList

namespace StatementsWellFormed
variable {n : Nat} {s s' : State} {stmt : Stmt} (ih : StatementsWellFormed n)
include ih

theorem inner {t : Token} (h : InnerOk n t s s' stmt) : stmt.WellFormed := by
  cases h with
  | counted ht hclauses hbody => exact forClauses_wellFormed hclauses (ih.statement hbody)
  | branch ht he hyes hno =>
    refine ⟨condition_wellFormed he, ih.statement hyes, ?_⟩
    rcases hno with ⟨-, rfl, -⟩ | ⟨keyword, s₄, other, -, hother, rfl⟩
    · trivial
    · exact ih.statement hother
  | print ht h => exact printStatement_wellFormed h
  | ret ht h => exact returnStatement_wellFormed h
  | loop ht he hbody => exact ⟨condition_wellFormed he, ih.statement hbody⟩
  | block ht h => exact ih.block h

theorem statement_succ (h : Parse.statement (n + 1) s = .ok stmt s') : stmt.WellFormed := by
  rcases statement_ok h with ⟨-, h⟩ | ⟨t, s₁, -, h⟩
  · exact expressionStatement_wellFormed h
  · exact ih.inner h

theorem function_succ (h : Parse.function (n + 1) s = .ok stmt s') : stmt.WellFormed := by
  obtain ⟨name, _, _, _, ps, _, _, _, _, _, body, hname, -, hps, -, -, hbody, rfl⟩ := function_ok h
  have hparameters : ∀ p ∈ ps.toList, p.kind = .identifier := by
    rcases hps with ⟨rfl, -⟩ | hps
    · nofun
    · exact parameters_identifiers hps nofun
  exact ⟨isIdentifier_iff.mp hname.test, hparameters, ih.block hbody⟩

theorem declaration_succ (h : Parse.declaration (n + 1) s = .ok (some stmt) s') : stmt.WellFormed := by
  rcases declaration_ok h with ⟨_, ha, hr⟩ | ⟨_, _, _, hr, -⟩ <;> cases hr
  rcases attempt_ok ha with ⟨keyword, s₁, -, h⟩ | ⟨keyword, s₁, -, h⟩ | ⟨-, -, h⟩
  · exact ih.function h
  · exact varDeclaration_wellFormed h
  · exact ih.statement h

theorem block_succ {body : List Stmt} (h : Parse.block (n + 1) s = .ok body s') : Stmt.WellFormedAll body := by
  obtain ⟨done, s₁, brace, hd, -, rfl⟩ := block_ok h
  exact ih.declarations hd trivial

theorem declarations_succ {inBlock : Bool} {done all : Array Stmt}
    (h : Parse.declarations (n + 1) inBlock done s = .ok all s') (hdone : Stmt.WellFormedAll done.toList) :
    Stmt.WellFormedAll all.toList := by
  rcases declarations_ok h with ⟨-, rfl, -⟩ | ⟨-, r, s₁, hr, h⟩
  · exact hdone
  · refine ih.declarations h ?_
    cases r with
    | none => exact hdone
    | some stmt =>
      rw [Option.elim, Array.toList_push]
      exact Stmt.wellFormedAll_append hdone ⟨ih.declaration hr, trivial⟩

end StatementsWellFormed

theorem statementsWellFormed : ∀ n, StatementsWellFormed n
  | 0 => ⟨nofun, nofun, nofun, nofun, nofun⟩
  | n + 1 =>
    have ih := statementsWellFormed n
    { statement := ih.statement_succ
      function := ih.function_succ
      declaration := ih.declaration_succ
      block := ih.block_succ
      declarations := ih.declarations_succ }

/-- The operators and names of a parse are tokens of the kinds that stand there, also if there are errors. -/
theorem parse_wellFormed (tokens : List Token) (nextId : ExprId) :
    Stmt.WellFormedAll (parse tokens nextId).statements := by
  obtain ⟨stmts, s, h⟩ := declarations_fuelFor tokens nextId
  have hall := (statementsWellFormed _).declarations h trivial
  unfold parse
  rw [h]
  exact hall

end Parse
end Lox
