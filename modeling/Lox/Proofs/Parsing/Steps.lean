import Lox.Syntax.Parse

/-! # What a parsing function can do

For each parsing function one lemma says what it has read and built when it gives a result
(`expression_ok` and the others). Later files reason from these lemmas and do not open the functions
again. -/

namespace Lox.Parse

/-! ### Tests of kinds -/

theorem isMark_iff {m : Mark} {k : Kind} : isMark m k = true ↔ k = .mark m := by
  cases k <;> simp [isMark]

theorem isKeyword_iff {w : Keyword} {k : Kind} : isKeyword w k = true ↔ k = .keyword w := by
  cases k <;> simp [isKeyword]

theorem isIdentifier_iff {k : Kind} : isIdentifier k = true ↔ k = .identifier := by
  cases k <;> simp [isIdentifier]

/-! ### Sequences -/

section
variable {α β : Type} {x : Parser α} {f : α → Parser β} {s s' : State} {a : α} {b : β} {stop : Stop}

theorem bind_apply : (x >>= f) s = match x s with
    | .ok a s' => f a s'
    | .error stop s' => .error stop s' := by
  simp only [bind, EStateM.bind]
  cases x s <;> rfl

theorem bind_ok (h : (x >>= f) s = .ok b s') : ∃ a s₁, x s = .ok a s₁ ∧ f a s₁ = .ok b s' := by
  rw [bind_apply] at h
  cases hx : x s with
  | ok a s₁ => exact ⟨a, s₁, rfl, by rwa [hx] at h⟩
  | error stop s₁ => simp [hx] at h

theorem pure_ok (h : (pure a : Parser α) s = .ok a s') : s' = s := by
  cases h
  rfl

theorem map_ok {g : α → β} (h : (g <$> x) s = .ok b s') : ∃ a, x s = .ok a s' ∧ b = g a := by
  simp only [Functor.map, EStateM.map] at h
  cases hx : x s with
  | ok a s₁ =>
    rw [hx] at h
    cases h
    exact ⟨a, rfl, rfl⟩
  | error stop s₁ => simp [hx] at h

end

/-! ### Reading tokens -/

/-- The next token is `t`, its kind passes the test, and `s'` is the state behind it. -/
structure State.Takes (s : State) (test : Kind → Bool) (t : Token) (s' : State) : Prop where
  rest : s.rest = t :: s'.rest
  test : test t.kind = true
  state : s' = { s with rest := s'.rest }

/-- No token is next whose kind passes the test. -/
def State.Lacks (s : State) (test : Kind → Bool) : Prop := ∀ t rest, s.rest = t :: rest → test t.kind = false

section
variable {s s' : State} {test : Kind → Bool} {cause : SyntaxError.Cause}

theorem take?_ok {r : Option Token} (h : take? test s = .ok r s') :
    (r = none ∧ s' = s ∧ s.Lacks test) ∨ ∃ t, r = some t ∧ s.Takes test t s' := by
  unfold take? at h
  cases hr : s.rest with
  | nil =>
    simp only [hr] at h
    cases h
    exact .inl ⟨rfl, rfl, fun t rest h => by simp [hr] at h⟩
  | cons t rest =>
    by_cases ht : test t.kind = true
    · simp only [hr, ht, if_true] at h
      cases h
      exact .inr ⟨t, rfl, hr, ht, rfl⟩
    · simp only [hr, ht] at h
      cases h
      refine .inl ⟨rfl, rfl, ?_⟩
      intro u us hu
      rw [hr] at hu
      cases hu
      simpa using ht

theorem sees_ok {b : Bool} (h : sees test s = .ok b s') : s' = s ∧ (b = false → s.Lacks test) := by
  unfold sees at h
  cases h
  refine ⟨rfl, ?_⟩
  intro hb t rest hr
  simpa [hr] using hb

theorem take?_bind_ok {β : Type} {f : Option Token → Parser β} {b : β} (h : (take? test >>= f) s = .ok b s') :
    (s.Lacks test ∧ f none s = .ok b s') ∨ ∃ t s₁, s.Takes test t s₁ ∧ f (some t) s₁ = .ok b s' := by
  obtain ⟨r, s₁, hr, hf⟩ := bind_ok h
  rcases take?_ok hr with ⟨rfl, rfl, hl⟩ | ⟨t, rfl, ht⟩
  · exact .inl ⟨hl, hf⟩
  · exact .inr ⟨t, s₁, ht, hf⟩

theorem expect_ok {t : Token} (h : expect test cause s = .ok t s') : s.Takes test t s' := by
  rcases take?_bind_ok h with ⟨-, h⟩ | ⟨u, s₁, hu, h⟩
  · cases h
  · cases h
    exact hu

theorem unlessNext_ok {α : Type} {default a : α} {p : Parser α} (h : unlessNext test default p s = .ok a s') :
    (a = default ∧ s' = s) ∨ (s.Lacks test ∧ p s = .ok a s') := by
  obtain ⟨b, s₁, hb, h⟩ := bind_ok h
  obtain ⟨rfl, hl⟩ := sees_ok hb
  cases b with
  | true =>
    cases h
    exact .inl ⟨rfl, rfl⟩
  | false => exact .inr ⟨hl rfl, h⟩

theorem after?_ok {α : Type} {a : Option α} {p : Parser α} (h : after? test p s = .ok a s') :
    (s.Lacks test ∧ a = none ∧ s' = s) ∨ ∃ t s₁ x, s.Takes test t s₁ ∧ p s₁ = .ok x s' ∧ a = some x := by
  rcases take?_bind_ok h with ⟨hl, h⟩ | ⟨t, s₁, ht, h⟩
  · cases h
    exact .inl ⟨hl, rfl, rfl⟩
  · obtain ⟨x, hx, rfl⟩ := map_ok h
    exact .inr ⟨t, s₁, x, ht, hx, rfl⟩

theorem recordHere_ok {u : Unit} (h : recordHere cause s = .ok u s') :
    s' = { s with errors := s.errors.push ⟨s.next, cause⟩ } := by
  cases h
  rfl

theorem checkArity_ok {size : Nat} {u : Unit} (h : checkArity size cause s = .ok u s') :
    (size < maxArity ∧ s' = s) ∨ s' = { s with errors := s.errors.push ⟨s.next, cause⟩ } := by
  unfold checkArity at h
  by_cases hs : maxArity ≤ size
  · rw [if_pos hs] at h
    exact .inr (recordHere_ok h)
  · rw [if_neg hs] at h
    exact .inl ⟨Nat.lt_of_not_le hs, pure_ok h⟩

end

/-! ### Expressions -/

/-- The operands of a level. -/
def operand (n : Nat) (level : Level) : Parser Expr := level.tighter?.elim (unary n) (binary n)

section
variable {n : Nat} {s s' : State} {e : Expr}

theorem expression_ok (h : expression (n + 1) s = .ok e s') :
    ∃ target s₁, binary n .or s = .ok target s₁ ∧
      ((s₁.Lacks (isMark .equal) ∧ e = target ∧ s' = s₁) ∨
        ∃ equals s₂ value s₃, s₁.Takes (isMark .equal) equals s₂ ∧ expression n s₂ = .ok value s₃ ∧
          ((∃ id name, target = .var id name ∧ e = .assign s₃.nextId name value ∧
              s' = { s₃ with nextId := s₃.nextId + 1 }) ∨
            (e = value ∧ s' = { s₃ with errors := s₃.errors.push ⟨equals, .invalidTarget⟩ }))) := by
  rw [expression] at h
  obtain ⟨target, s₁, ht, h⟩ := bind_ok h
  refine ⟨target, s₁, ht, ?_⟩
  rcases take?_bind_ok h with ⟨hl, h⟩ | ⟨equals, s₂, heq, h⟩
  · cases h
    exact .inl ⟨hl, rfl, rfl⟩
  · obtain ⟨value, s₃, hv, h⟩ := bind_ok h
    refine .inr ⟨equals, s₂, value, s₃, heq, hv, ?_⟩
    cases target with
    | var id name =>
      cases h
      exact .inl ⟨id, name, rfl, rfl, rfl⟩
    | literal _ | grouping _ | unary _ _ | binary _ _ _ | logical _ _ _ | assign _ _ _ | call _ _ _ =>
      cases h
      exact .inr ⟨rfl, rfl⟩

theorem binary_ok {level : Level} (h : binary (n + 1) level s = .ok e s') :
    ∃ left s₁, operand n level s = .ok left s₁ ∧ chain n level left s₁ = .ok e s' := by
  rw [binary] at h
  exact bind_ok h

theorem chain_ok {level : Level} {left : Expr} (h : chain (n + 1) level left s = .ok e s') :
    (s.Lacks level.admits ∧ e = left ∧ s' = s) ∨
      ∃ operator s₁ right s₂, s.Takes level.admits operator s₁ ∧ operand n level s₁ = .ok right s₂ ∧
        chain n level (level.join left operator right) s₂ = .ok e s' := by
  rw [chain] at h
  rcases take?_bind_ok h with ⟨hl, h⟩ | ⟨operator, s₁, hop, h⟩
  · cases h
    exact .inl ⟨hl, rfl, rfl⟩
  · obtain ⟨right, s₂, hright, h⟩ := bind_ok h
    exact .inr ⟨operator, s₁, right, s₂, hop, hright, h⟩

theorem unary_ok (h : unary (n + 1) s = .ok e s') :
    (∃ operator s₁ right, s.Takes isPrefixOperator operator s₁ ∧ unary n s₁ = .ok right s' ∧
        e = .unary operator right) ∨
      (s.Lacks isPrefixOperator ∧ ∃ callee s₁, primary n s = .ok callee s₁ ∧ calls n callee s₁ = .ok e s') := by
  rw [unary] at h
  rcases take?_bind_ok h with ⟨hl, h⟩ | ⟨operator, s₁, hop, h⟩
  · exact .inr ⟨hl, bind_ok h⟩
  · obtain ⟨right, s₂, hright, h⟩ := bind_ok h
    cases h
    exact .inl ⟨operator, s₁, right, hop, hright, rfl⟩

theorem calls_ok {callee : Expr} (h : calls (n + 1) callee s = .ok e s') :
    (s.Lacks (isMark .leftParen) ∧ e = callee ∧ s' = s) ∨
      ∃ opening s₁ args s₂ paren s₃, s.Takes (isMark .leftParen) opening s₁ ∧
        ((args = #[] ∧ s₂ = s₁) ∨ arguments n #[] s₁ = .ok args s₂) ∧
        s₂.Takes (isMark .rightParen) paren s₃ ∧ calls n (.call callee paren args.toList) s₃ = .ok e s' := by
  rw [calls] at h
  rcases take?_bind_ok h with ⟨hl, h⟩ | ⟨opening, s₁, hopening, h⟩
  · cases h
    exact .inl ⟨hl, rfl, rfl⟩
  · obtain ⟨args, s₂, hargs, h⟩ := bind_ok h
    obtain ⟨paren, s₃, hparen, h⟩ := bind_ok h
    exact .inr ⟨opening, s₁, args, s₂, paren, s₃, hopening, (unlessNext_ok hargs).imp_right And.right,
      expect_ok hparen, h⟩

theorem arguments_ok {done args : Array Expr} (h : arguments (n + 1) done s = .ok args s') :
    ∃ s₁ e s₂, checkArity done.size .tooManyArguments s = .ok () s₁ ∧ expression n s₁ = .ok e s₂ ∧
      ((s₂.Lacks (isMark .comma) ∧ args = done.push e ∧ s' = s₂) ∨
        ∃ comma s₃, s₂.Takes (isMark .comma) comma s₃ ∧ arguments n (done.push e) s₃ = .ok args s') := by
  rw [arguments] at h
  obtain ⟨u, s₁, hu, h⟩ := bind_ok h
  obtain ⟨e, s₂, he, h⟩ := bind_ok h
  refine ⟨s₁, e, s₂, hu, he, ?_⟩
  rcases take?_bind_ok h with ⟨hl, h⟩ | ⟨comma, s₃, hcomma, h⟩
  · cases h
    exact .inl ⟨hl, rfl, rfl⟩
  · exact .inr ⟨comma, s₃, hcomma, h⟩

theorem primary_ok (h : primary (n + 1) s = .ok e s') :
    ∃ t s₁, s.Takes isAtom t s₁ ∧
      ((∃ v, literal? t.kind = some v ∧ e = .literal v ∧ s' = s₁) ∨
        (literal? t.kind = none ∧ isIdentifier t.kind = true ∧ e = .var s₁.nextId t ∧
          s' = { s₁ with nextId := s₁.nextId + 1 }) ∨
        (literal? t.kind = none ∧ isIdentifier t.kind = false ∧ ∃ inner s₂ paren,
          expression n s₁ = .ok inner s₂ ∧ s₂.Takes (isMark .rightParen) paren s' ∧ e = .grouping inner)) := by
  rw [primary] at h
  rcases take?_bind_ok h with ⟨-, h⟩ | ⟨t, s₁, ht, h⟩
  · cases h
  · refine ⟨t, s₁, ht, ?_⟩
    cases hv : literal? t.kind with
    | some v =>
      simp only [hv] at h
      cases h
      exact .inl ⟨v, rfl, rfl, rfl⟩
    | none =>
      simp only [hv] at h
      cases hi : isIdentifier t.kind with
      | true =>
        simp only [hi, if_true] at h
        cases h
        exact .inr (.inl ⟨rfl, rfl, rfl, rfl⟩)
      | false =>
        simp only [hi] at h
        obtain ⟨inner, s₂, hinner, h⟩ := bind_ok h
        obtain ⟨paren, s₃, hparen, h⟩ := bind_ok h
        cases h
        exact .inr (.inr ⟨rfl, rfl, inner, s₂, paren, hinner, expect_ok hparen, rfl⟩)

end

/-! ### Statements -/

section
variable {n : Nat} {s s' : State} {stmt : Stmt}

theorem expressionStatement_ok (h : expressionStatement n s = .ok stmt s') :
    ∃ e s₁ semicolon, expression n s = .ok e s₁ ∧ s₁.Takes (isMark .semicolon) semicolon s' ∧
      stmt = .expression e := by
  obtain ⟨e, s₁, he, h⟩ := bind_ok h
  obtain ⟨semicolon, s₂, hsemicolon, h⟩ := bind_ok h
  cases h
  exact ⟨e, s₁, semicolon, he, expect_ok hsemicolon, rfl⟩

theorem varDeclaration_ok (h : varDeclaration n s = .ok stmt s') :
    ∃ name s₁ init s₂ semicolon, s.Takes isIdentifier name s₁ ∧
      ((init = none ∧ s₂ = s₁) ∨ ∃ equals s₃ e, s₁.Takes (isMark .equal) equals s₃ ∧ expression n s₃ = .ok e s₂ ∧
        init = some e) ∧
      s₂.Takes (isMark .semicolon) semicolon s' ∧ stmt = .var name init := by
  obtain ⟨name, s₁, hname, h⟩ := bind_ok h
  obtain ⟨init, s₂, hinit, h⟩ := bind_ok h
  obtain ⟨semicolon, s₃, hsemicolon, h⟩ := bind_ok h
  cases h
  exact ⟨name, s₁, init, s₂, semicolon, expect_ok hname, (after?_ok hinit).imp_left And.right,
    expect_ok hsemicolon, rfl⟩

theorem printStatement_ok (h : printStatement n s = .ok stmt s') :
    ∃ e s₁ semicolon, expression n s = .ok e s₁ ∧ s₁.Takes (isMark .semicolon) semicolon s' ∧
      stmt = .print e := by
  obtain ⟨e, s₁, he, h⟩ := bind_ok h
  obtain ⟨semicolon, s₂, hsemicolon, h⟩ := bind_ok h
  cases h
  exact ⟨e, s₁, semicolon, he, expect_ok hsemicolon, rfl⟩

/-- Nothing, or an expression that was parsed. -/
def Maybe (n : Nat) (s : State) (e? : Option Expr) (s' : State) : Prop :=
  (e? = none ∧ s' = s) ∨ ∃ e, expression n s = .ok e s' ∧ e? = some e

theorem maybe_of_unlessNext {test : Kind → Bool} {e? : Option Expr}
    (h : unlessNext test none (some <$> expression n) s = .ok e? s') : Maybe n s e? s' := by
  rcases unlessNext_ok h with h | ⟨-, h⟩
  · exact .inl h
  · exact .inr (map_ok h)

theorem returnStatement_ok {keyword : Token} (h : returnStatement n keyword s = .ok stmt s') :
    ∃ value s₁ semicolon, Maybe n s value s₁ ∧ s₁.Takes (isMark .semicolon) semicolon s' ∧
      stmt = .ret keyword value := by
  obtain ⟨value, s₁, hvalue, h⟩ := bind_ok h
  obtain ⟨semicolon, s₂, hsemicolon, h⟩ := bind_ok h
  cases h
  exact ⟨value, s₁, semicolon, maybe_of_unlessNext hvalue, expect_ok hsemicolon, rfl⟩

theorem parameters_ok {done ps : Array Token} (h : parameters (n + 1) done s = .ok ps s') :
    ∃ s₁ p s₂, checkArity done.size .tooManyParameters s = .ok () s₁ ∧ s₁.Takes isIdentifier p s₂ ∧
      ((s₂.Lacks (isMark .comma) ∧ ps = done.push p ∧ s' = s₂) ∨
        ∃ comma s₃, s₂.Takes (isMark .comma) comma s₃ ∧ parameters n (done.push p) s₃ = .ok ps s') := by
  rw [parameters] at h
  obtain ⟨u, s₁, hu, h⟩ := bind_ok h
  obtain ⟨p, s₂, hp, h⟩ := bind_ok h
  refine ⟨s₁, p, s₂, hu, expect_ok hp, ?_⟩
  rcases take?_bind_ok h with ⟨hl, h⟩ | ⟨comma, s₃, hcomma, h⟩
  · cases h
    exact .inl ⟨hl, rfl, rfl⟩
  · exact .inr ⟨comma, s₃, hcomma, h⟩

theorem forInitializer_ok {init : Option Stmt} (h : forInitializer n s = .ok init s') :
    (∃ semicolon, s.Takes (isMark .semicolon) semicolon s' ∧ init = none) ∨
      (∃ keyword s₁ decl, s.Takes (isKeyword .var) keyword s₁ ∧ varDeclaration n s₁ = .ok decl s' ∧
        init = some decl) ∨
      ∃ stmt, expressionStatement n s = .ok stmt s' ∧ init = some stmt := by
  rcases take?_bind_ok h with ⟨-, h⟩ | ⟨semicolon, s₁, hsemicolon, h⟩
  · rcases take?_bind_ok h with ⟨-, h⟩ | ⟨keyword, s₁, hkeyword, h⟩
    · exact .inr (.inr (map_ok h))
    · obtain ⟨decl, hdecl, rfl⟩ := map_ok h
      exact .inr (.inl ⟨keyword, s₁, decl, hkeyword, hdecl, rfl⟩)
  · cases h
    exact .inl ⟨semicolon, hsemicolon, rfl⟩

theorem forClauses_ok {clauses : ForClauses} (h : forClauses n s = .ok clauses s') :
    ∃ opening s₁ s₂ s₃ semicolon s₄ s₅ closing, s.Takes (isMark .leftParen) opening s₁ ∧
      forInitializer n s₁ = .ok clauses.initializer s₂ ∧ Maybe n s₂ clauses.condition s₃ ∧
      s₃.Takes (isMark .semicolon) semicolon s₄ ∧ Maybe n s₄ clauses.increment s₅ ∧
      s₅.Takes (isMark .rightParen) closing s' := by
  obtain ⟨opening, s₁, hopening, h⟩ := bind_ok h
  obtain ⟨init, s₂, hinit, h⟩ := bind_ok h
  obtain ⟨condition, s₃, hcondition, h⟩ := bind_ok h
  obtain ⟨semicolon, s₄, hsemicolon, h⟩ := bind_ok h
  obtain ⟨increment, s₅, hincrement, h⟩ := bind_ok h
  obtain ⟨closing, s₆, hclosing, h⟩ := bind_ok h
  cases h
  exact ⟨opening, s₁, s₂, s₃, semicolon, s₄, s₅, closing, expect_ok hopening, hinit, maybe_of_unlessNext hcondition,
    expect_ok hsemicolon, maybe_of_unlessNext hincrement, expect_ok hclosing⟩

theorem condition_ok {keyword clause : String} {e : Expr} (h : condition n keyword clause s = .ok e s') :
    ∃ opening s₁ s₂ closing, s.Takes (isMark .leftParen) opening s₁ ∧ expression n s₁ = .ok e s₂ ∧
      s₂.Takes (isMark .rightParen) closing s' := by
  obtain ⟨opening, s₁, hopening, h⟩ := bind_ok h
  obtain ⟨e, s₂, he, h⟩ := bind_ok h
  obtain ⟨closing, s₃, hclosing, h⟩ := bind_ok h
  cases h
  exact ⟨opening, s₁, s₂, closing, expect_ok hopening, he, expect_ok hclosing⟩

/-- A statement after its first token, which is `t`. -/
def inner (n : Nat) (t : Token) : Parser Stmt :=
  match t.kind with
  | .keyword .for => do
    let clauses ← forClauses n
    pure (clauses.toStmt (← statement n))
  | .keyword .if => do
    let e ← condition n "'if'" "if condition"
    let yes ← statement n
    pure (.branch e yes (← after? (isKeyword .else) (statement n)))
  | .keyword .print => printStatement n
  | .keyword .return => returnStatement n t
  | .keyword .while => do
    let e ← condition n "'while'" "condition"
    pure (.loop e (← statement n))
  | _ => .block <$> block n

theorem statement_succ (n : Nat) :
    statement (n + 1) = take? statement.startsInner >>= fun r => r.elim (expressionStatement n) (inner n) := by
  rw [statement]
  congr 1
  funext r
  cases r <;> rfl

/-- The ways a statement is parsed after its first token, which is `t` at `s₁`. -/
inductive InnerOk (n : Nat) (t : Token) (s₁ s' : State) : Stmt → Prop
  | counted {clauses : ForClauses} {s₂ : State} {body : Stmt} (ht : t.kind = .keyword .for)
    (hclauses : forClauses n s₁ = .ok clauses s₂)
    (hbody : statement n s₂ = .ok body s') : InnerOk n t s₁ s' (clauses.toStmt body)
  | branch {e : Expr} {s₂ : State} {yes : Stmt} {s₃ : State} {no : Option Stmt} (ht : t.kind = .keyword .if)
    (he : condition n "'if'" "if condition" s₁ = .ok e s₂)
    (hyes : statement n s₂ = .ok yes s₃)
    (hno : (s₃.Lacks (isKeyword .else) ∧ no = none ∧ s' = s₃) ∨ ∃ keyword s₄ other,
      s₃.Takes (isKeyword .else) keyword s₄ ∧ statement n s₄ = .ok other s' ∧ no = some other) :
    InnerOk n t s₁ s' (.branch e yes no)
  | print {stmt : Stmt} (ht : t.kind = .keyword .print) (h : printStatement n s₁ = .ok stmt s') : InnerOk n t s₁ s' stmt
  | ret {stmt : Stmt} (ht : t.kind = .keyword .return) (h : returnStatement n t s₁ = .ok stmt s') :
    InnerOk n t s₁ s' stmt
  | loop {e : Expr} {s₂ : State} {body : Stmt} (ht : t.kind = .keyword .while)
    (he : condition n "'while'" "condition" s₁ = .ok e s₂)
    (hbody : statement n s₂ = .ok body s') : InnerOk n t s₁ s' (.loop e body)
  | block {body : List Stmt} (ht : t.kind = .mark .leftBrace) (h : block n s₁ = .ok body s') :
    InnerOk n t s₁ s' (.block body)

/-- The first tokens of statements that are no expression. -/
theorem startsInner_cases {k : Kind} (h : statement.startsInner k = true) :
    k = .keyword .for ∨ k = .keyword .if ∨ k = .keyword .print ∨ k = .keyword .return ∨ k = .keyword .while ∨
      k = .mark .leftBrace := by
  cases k with
  | keyword k => cases k <;> simp_all [statement.startsInner]
  | mark m => cases m <;> simp_all [statement.startsInner, isMark]
  | identifier | string _ | number _ | endOfInput => simp [statement.startsInner, isMark] at h

theorem statement_ok (h : statement (n + 1) s = .ok stmt s') :
    (s.Lacks statement.startsInner ∧ expressionStatement n s = .ok stmt s') ∨
      ∃ t s₁, s.Takes statement.startsInner t s₁ ∧ InnerOk n t s₁ s' stmt := by
  rw [statement] at h
  rcases take?_bind_ok h with ⟨hl, h⟩ | ⟨t, s₁, ht, h⟩
  · exact .inl ⟨hl, h⟩
  · refine .inr ⟨t, s₁, ht, ?_⟩
    rcases startsInner_cases ht.test with hk | hk | hk | hk | hk | hk <;> simp only [hk] at h
    · obtain ⟨clauses, s₂, hclauses, h⟩ := bind_ok h
      obtain ⟨body, s₃, hbody, h⟩ := bind_ok h
      cases h
      exact .counted hk hclauses hbody
    · obtain ⟨e, s₂, he, h⟩ := bind_ok h
      obtain ⟨yes, s₃, hyes, h⟩ := bind_ok h
      obtain ⟨no, s₄, hno, h⟩ := bind_ok h
      cases h
      exact .branch hk he hyes (after?_ok hno)
    · exact .print hk h
    · exact .ret hk h
    · obtain ⟨e, s₂, he, h⟩ := bind_ok h
      obtain ⟨body, s₃, hbody, h⟩ := bind_ok h
      cases h
      exact .loop hk he hbody
    · obtain ⟨body, hbody, rfl⟩ := map_ok h
      exact .block hk hbody

theorem function_ok (h : function (n + 1) s = .ok stmt s') :
    ∃ name s₁ opening s₂ ps s₃ closing s₄ brace s₅ body, s.Takes isIdentifier name s₁ ∧
      s₁.Takes (isMark .leftParen) opening s₂ ∧ ((ps = #[] ∧ s₃ = s₂) ∨ parameters n #[] s₂ = .ok ps s₃) ∧
      s₃.Takes (isMark .rightParen) closing s₄ ∧ s₄.Takes (isMark .leftBrace) brace s₅ ∧
      block n s₅ = .ok body s' ∧ stmt = .function name ps.toList body := by
  rw [function] at h
  obtain ⟨name, s₁, hname, h⟩ := bind_ok h
  obtain ⟨opening, s₂, hopening, h⟩ := bind_ok h
  obtain ⟨ps, s₃, hps, h⟩ := bind_ok h
  obtain ⟨closing, s₄, hclosing, h⟩ := bind_ok h
  obtain ⟨brace, s₅, hbrace, h⟩ := bind_ok h
  obtain ⟨body, s₆, hbody, h⟩ := bind_ok h
  cases h
  exact ⟨name, s₁, opening, s₂, ps, s₃, closing, s₄, brace, s₅, body, expect_ok hname, expect_ok hopening,
    (unlessNext_ok hps).imp_right And.right, expect_ok hclosing, expect_ok hbrace, hbody, rfl⟩

/-- A declaration before recovery. -/
def attempt (n : Nat) : Parser Stmt := do
  match ← take? (isKeyword .fun) with
  | some _ => function n
  | none => match ← take? (isKeyword .var) with
    | some _ => varDeclaration n
    | none => statement n

theorem declaration_succ (n : Nat) : declaration (n + 1) = recovering (attempt n) := rfl

theorem attempt_ok (h : attempt n s = .ok stmt s') :
    (∃ keyword s₁, s.Takes (isKeyword .fun) keyword s₁ ∧ function n s₁ = .ok stmt s') ∨
      (∃ keyword s₁, s.Takes (isKeyword .var) keyword s₁ ∧ varDeclaration n s₁ = .ok stmt s') ∨
      (s.Lacks (isKeyword .fun) ∧ s.Lacks (isKeyword .var) ∧ statement n s = .ok stmt s') := by
  rcases take?_bind_ok h with ⟨hfun, h⟩ | ⟨keyword, s₁, hkeyword, h⟩
  · rcases take?_bind_ok h with ⟨hvar, h⟩ | ⟨keyword, s₁, hkeyword, h⟩
    · exact .inr (.inr ⟨hfun, hvar, h⟩)
    · exact .inr (.inl ⟨keyword, s₁, hkeyword, h⟩)
  · exact .inl ⟨keyword, s₁, hkeyword, h⟩

theorem declaration_ok {r : Option Stmt} (h : declaration (n + 1) s = .ok r s') :
    (∃ stmt, attempt n s = .ok stmt s' ∧ r = some stmt) ∨
      ∃ e s₁, attempt n s = .error (.refused e) s₁ ∧ r = none ∧
        s' = { s₁ with errors := s₁.errors.push e, rest := recover s₁.rest } := by
  rw [declaration_succ, recovering] at h
  cases ha : attempt n s with
  | ok stmt s₁ =>
    simp only [ha] at h
    cases h
    exact .inl ⟨stmt, rfl, rfl⟩
  | error stop s₁ =>
    cases stop with
    | refused e =>
      simp only [ha] at h
      cases h
      exact .inr ⟨e, s₁, rfl, rfl, rfl⟩
    | outOfFuel => simp [ha] at h

theorem declaration_not_refused (n : Nat) (s s' : State) (e : SyntaxError) :
    declaration n s ≠ .error (.refused e) s' := by
  intro h
  cases n with
  | zero => cases h
  | succ n =>
    rw [declaration_succ, recovering] at h
    cases ha : attempt n s with
    | ok stmt s₁ => simp [ha] at h
    | error stop s₁ => cases stop <;> simp [ha] at h

theorem block_ok {body : List Stmt} (h : block (n + 1) s = .ok body s') :
    ∃ done s₁ brace, declarations n true #[] s = .ok done s₁ ∧ s₁.Takes (isMark .rightBrace) brace s' ∧
      body = done.toList := by
  rw [block] at h
  obtain ⟨done, s₁, hdone, h⟩ := bind_ok h
  obtain ⟨brace, s₂, hbrace, h⟩ := bind_ok h
  cases h
  exact ⟨done, s₁, brace, hdone, expect_ok hbrace, rfl⟩

/-- Nothing is left, or a closing brace ends the block. -/
def State.Done (s : State) (inBlock : Bool) : Prop :=
  s.rest = [] ∨ (inBlock = true ∧ ∃ t rest, s.rest = t :: rest ∧ t.kind = .mark .rightBrace)

theorem declarations_of_done {inBlock : Bool} {done : Array Stmt} (h : s.Done inBlock) :
    declarations (n + 1) inBlock done s = .ok done s := by
  rw [declarations, bind_apply]
  rcases h with h | ⟨rfl, t, rest, h, ht⟩
  · simp [atEnd, h, pure, EStateM.pure]
  · simp [atEnd, h, bind_apply, sees, isMark, ht, pure, EStateM.pure]

theorem declarations_of_not_done {inBlock : Bool} {done : Array Stmt} (h : ¬ s.Done inBlock) :
    declarations (n + 1) inBlock done s =
      (declaration n >>= fun r => declarations n inBlock (r.elim done done.push)) s := by
  rw [declarations, bind_apply]
  cases hr : s.rest with
  | nil => exact absurd (.inl hr) h
  | cons t rest =>
    have hb : (inBlock && isMark .rightBrace t.kind) = false := by
      refine Bool.eq_false_iff.mpr ?_
      intro hc
      rw [Bool.and_eq_true_iff] at hc
      exact h (.inr ⟨hc.1, t, rest, hr, isMark_iff.mp hc.2⟩)
    simp only [atEnd, hr, List.isEmpty_cons, Bool.false_eq_true, if_false, bind_apply, sees, List.head?_cons,
      Option.any_some, hb]
    congr 1
    funext r s₁
    cases r <;> rfl

theorem declarations_ok {inBlock : Bool} {done all : Array Stmt}
    (h : declarations (n + 1) inBlock done s = .ok all s') :
    (s.Done inBlock ∧ all = done ∧ s' = s) ∨
      (¬ s.Done inBlock ∧ ∃ r s₁, declaration n s = .ok r s₁ ∧
        declarations n inBlock (r.elim done done.push) s₁ = .ok all s') := by
  by_cases hd : s.Done inBlock
  · rw [declarations_of_done hd] at h
    cases h
    exact .inl ⟨hd, rfl, rfl⟩
  · rw [declarations_of_not_done hd] at h
    exact .inr ⟨hd, bind_ok h⟩

/-- Errors never stop a list of declarations. -/
theorem declarations_not_refused (n : Nat) (inBlock : Bool) (done : Array Stmt) (s s' : State) (e : SyntaxError) :
    declarations n inBlock done s ≠ .error (.refused e) s' := by
  intro h
  induction n generalizing done s with
  | zero => cases h
  | succ n ih =>
    by_cases hd : s.Done inBlock
    · rw [declarations_of_done hd] at h
      cases h
    · rw [declarations_of_not_done hd, bind_apply] at h
      cases hr : declaration n s with
      | ok r s₁ =>
        rw [hr] at h
        exact ih _ _ h
      | error stop s₁ =>
        rw [hr] at h
        cases h
        exact declaration_not_refused n s s' e hr

end
end Lox.Parse
