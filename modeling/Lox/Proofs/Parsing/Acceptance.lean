import Lox.Proofs.Parsing.Completeness
import Lox.Proofs.Parsing.Nearest
import Lox.Token.Scan

/-! # The parser accepts its grammar

What derives a statement by the nearest rule is parsed to it (`statementCompletes`), if no `else` follows one
that could take it. So a parse has no errors exactly for the programs of the grammar that keep the limits,
and its statements are the only ones derived by the nearest rule (`parse_exact`). -/

namespace Lox
namespace Parse
open Grammar

/-! ### How a statement begins -/

/-- The tokens that a statement can begin with. -/
def beginsStatement (k : Kind) : Bool := statement.startsInner k || begins .assignment k

/-- The tokens that a declaration can begin with. -/
def beginsDeclaration (k : Kind) : Bool := isKeyword .fun k || isKeyword .var k || beginsStatement k

theorem expressionStatement_begins {ts : List Token} {s : Stmt} (h : ExpressionStatement ts s) :
    ∃ t more, ts = t :: more ∧ begins .assignment t.kind = true := by
  obtain ⟨hd, -⟩ := h
  obtain ⟨t, more, rfl, ht⟩ := derives_begins hd
  exact ⟨t, _, rfl, ht⟩

theorem expressionStatement_stops {test : Kind → Bool} {ts rest : List Token} {s : Stmt} (h : ExpressionStatement ts s)
    (htest : ∀ k, test k = true → begins .assignment k = false) : Stops test (ts ++ rest) := by
  obtain ⟨t, more, rfl, ht⟩ := expressionStatement_begins h
  exact stops_cons (Bool.eq_false_iff.mpr fun hk => by simp [htest _ hk] at ht)

theorem statement_begins {nearest dangling : Bool} {ts : List Token} {s : Stmt} (h : Statement nearest dangling ts s) :
    ∃ t more, ts = t :: more ∧ beginsStatement t.kind = true := by
  cases h with
  | expression h =>
    obtain ⟨t, more, rfl, ht⟩ := expressionStatement_begins h
    exact ⟨t, more, rfl, by rw [beginsStatement, ht, Bool.or_true]⟩
  | forLoop hk | ifOnly hk | ifElse hk | print hk | ret hk | whileLoop hk | block hk =>
    exact ⟨_, _, rfl, by rw [hk]; rfl⟩

theorem declaration_begins {nearest : Bool} {ts : List Token} {s : Stmt} (h : Declaration nearest ts s) :
    ∃ t more, ts = t :: more ∧ beginsDeclaration t.kind = true := by
  cases h with
  | function hk => exact ⟨_, _, rfl, by rw [hk]; rfl⟩
  | var h => cases h with
    | plain hk | initialized hk => exact ⟨_, _, rfl, by rw [hk]; rfl⟩
  | statement h =>
    obtain ⟨t, more, rfl, ht⟩ := statement_begins h
    exact ⟨t, more, rfl, by rw [beginsDeclaration, ht, Bool.or_true]⟩

/-! ### Statements -/

section
variable {n : Nat} {s : State} {ts rest : List Token}

/-- A statement with this tree was parsed. -/
abbrev BuiltStmt (s : State) (rest : List Token) (stmt : Stmt) : Stmt → State → Prop :=
  Gives Stmt.unnumbered stmt stmt.WithinLimits s rest

theorem expression_yields {e : Expr} {closer : Token} (h : Derives .assignment ts e)
    (hrest : s.rest = ts ++ closer :: rest) (hcloser : continues .assignment closer.kind = false) :
    Yields (expression n) s (Built s (closer :: rest) e) :=
  completes h n s (closer :: rest) hrest (stops_cons hcloser)

theorem expressionStatement_yields {stmt : Stmt} (h : ExpressionStatement ts stmt) (hrest : s.rest = ts ++ rest) :
    Yields (expressionStatement n) s (BuiltStmt s rest stmt) := by
  obtain ⟨hd, hsemicolon⟩ := h
  rw [List.append_assoc] at hrest
  refine .bind ((expression_yields hd hrest (by rw [hsemicolon]; rfl)).mono fun e s₁ hb => ?_)
  exact .expect hb.rest (isMark_iff.mpr hsemicolon) (.pure ⟨congrArg _ hb.view_eq, rfl, hb.errors⟩)

theorem maybe_yields {e? : Option Expr} {test : Kind → Bool} {closer : Token} (h : Grammar.Maybe ts e?)
    (hrest : s.rest = ts ++ closer :: rest) (hcloser : test closer.kind = true)
    (hcontinues : continues .assignment closer.kind = false)
    (htest : ∀ k, test k = true → begins .assignment k = false) :
    Yields (unlessNext test none (some <$> expression n)) s
      (Gives (Option.map Expr.unnumbered) e? (Expr.WithinLimits? e?) s (closer :: rest)) := by
  cases h with
  | none => exact .unlessNext_of_next hrest hcloser ⟨rfl, hrest, fun _ => rfl⟩
  | some h =>
    have hlacks : s.Lacks test := by
      have hstops : Stops test (ts ++ closer :: rest) := derives_stops h htest
      rwa [← hrest] at hstops
    refine .unlessNext_of_lacks hlacks (.map ((expression_yields h hrest hcontinues).mono fun e s₁ hb => ?_))
    refine ⟨congrArg _ hb.view_eq, hb.rest, fun hlimits => hb.errors (hlimits _ rfl)⟩

theorem varDeclaration_yields {stmt : Stmt} {keyword : Token} (h : VarDeclaration (keyword :: ts) stmt)
    (hrest : s.rest = ts ++ rest) : Yields (varDeclaration n) s (BuiltStmt s rest stmt) := by
  cases h with
  | plain hkeyword hname hsemicolon =>
    refine .expect hrest (isIdentifier_iff.mpr hname) ?_
    have hequal : Stops (isMark .equal) (_ :: rest) := stops_cons (by rw [hsemicolon]; rfl)
    refine .bind (.after?_none hequal ?_)
    exact .expect rfl (isMark_iff.mpr hsemicolon) (.pure ⟨rfl, rfl, fun _ => rfl⟩)
  | @initialized _ name equals semicolon us e hkeyword hname hequals hd hsemicolon =>
    have hrest : s.rest = name :: equals :: (us ++ semicolon :: rest) := by simpa using hrest
    refine .expect hrest (isIdentifier_iff.mpr hname) (.bind (.after?_some rfl (isMark_iff.mpr hequals) ?_))
    refine (expression_yields hd rfl (by rw [hsemicolon]; rfl)).mono fun e' s₁ hb => ?_
    refine .expect hb.rest (isMark_iff.mpr hsemicolon) (.pure ⟨?_, rfl, fun hlimits => hb.errors (hlimits _ rfl)⟩)
    rw [Stmt.unnumbered, Option.map_some, hb.view_eq]

theorem forInitializer_yields {init : Option Stmt} (h : ForInitializer ts init) (hrest : s.rest = ts ++ rest) :
    Yields (forInitializer n) s (Gives Stmt.unnumbered? init (Stmt.WithinLimits? init) s rest) := by
  cases h with
  | none hsemicolon => exact .take?_some hrest (isMark_iff.mpr hsemicolon) (.pure ⟨rfl, rfl, fun _ => rfl⟩)
  | var h =>
    have hvar : ∃ keyword us, ts = keyword :: us ∧ keyword.kind = .keyword .var := by
      cases h with
      | plain hkeyword | initialized hkeyword => exact ⟨_, _, rfl, hkeyword⟩
    obtain ⟨keyword, us, rfl, hkeyword⟩ := hvar
    have hlacks : s.Lacks (isMark .semicolon) := by
      have hstops : Stops (isMark .semicolon) (keyword :: us ++ rest) := stops_cons (by rw [hkeyword]; rfl)
      rwa [← hrest] at hstops
    refine .take?_none hlacks (.take?_some hrest (isKeyword_iff.mpr hkeyword) (.map ?_))
    exact (varDeclaration_yields h rfl).mono fun stmt' s₁ hb => ⟨congrArg some hb.view_eq, hb.rest, hb.errors⟩
  | expression h =>
    have hlacks : ∀ test, (∀ k, test k = true → begins .assignment k = false) → s.Lacks test := by
      intro test htest
      have hstops : Stops test (ts ++ rest) := expressionStatement_stops h htest
      rwa [← hrest] at hstops
    refine .take?_none (hlacks _ fun k hk => by rw [isMark_iff.mp hk]; rfl)
      (.take?_none (hlacks _ fun k hk => by rw [isKeyword_iff.mp hk]; rfl) (.map ?_))
    exact (expressionStatement_yields h hrest).mono fun stmt' s₁ hb => ⟨congrArg some hb.view_eq, hb.rest, hb.errors⟩

theorem condition_yields {e : Expr} {keyword clause : String} {opening closing : Token}
    (hopening : opening.kind = .mark .leftParen) (h : Derives .assignment ts e)
    (hclosing : closing.kind = .mark .rightParen) (hrest : s.rest = opening :: (ts ++ closing :: rest)) :
    Yields (condition n keyword clause) s (Built s rest e) := by
  refine .expect hrest (isMark_iff.mpr hopening) (.bind ?_)
  refine (expression_yields h rfl (by rw [hclosing]; rfl)).mono fun e' s₁ hb => ?_
  exact .expect hb.rest (isMark_iff.mpr hclosing) (.pure ⟨hb.view_eq, rfl, hb.errors⟩)

theorem forClauses_yields {us vs : List Token} {init : Option Stmt} {condition increment : Option Expr}
    {opening semicolon closing : Token} (hopening : opening.kind = .mark .leftParen) (hinit : ForInitializer ts init)
    (hcondition : Grammar.Maybe us condition) (hsemicolon : semicolon.kind = .mark .semicolon)
    (hincrement : Grammar.Maybe vs increment) (hclosing : closing.kind = .mark .rightParen)
    (hrest : s.rest = opening :: (ts ++ (us ++ semicolon :: (vs ++ closing :: rest)))) :
    Yields (forClauses n) s fun clauses s' => Stmt.unnumbered? clauses.initializer = init ∧
      clauses.condition.map Expr.unnumbered = condition ∧ clauses.increment.map Expr.unnumbered = increment ∧
      s'.rest = rest ∧ (Stmt.WithinLimits? init → Expr.WithinLimits? condition → Expr.WithinLimits? increment →
        s'.errors = s.errors) := by
  refine .expect hrest (isMark_iff.mpr hopening) (.bind ((forInitializer_yields hinit rfl).mono fun init' s₁ h₁ => ?_))
  refine .bind ((maybe_yields hcondition h₁.rest (isMark_iff.mpr hsemicolon) (by rw [hsemicolon]; rfl)
    fun k hk => by rw [isMark_iff.mp hk]; rfl).mono fun condition' s₂ h₂ => ?_)
  refine .expect h₂.rest (isMark_iff.mpr hsemicolon) ?_
  refine .bind ((maybe_yields hincrement rfl (isMark_iff.mpr hclosing) (by rw [hclosing]; rfl)
    fun k hk => by rw [isMark_iff.mp hk]; rfl).mono fun increment' s₃ h₃ => ?_)
  refine .expect h₃.rest (isMark_iff.mpr hclosing) (.pure ⟨h₁.view_eq, h₂.view_eq, h₃.view_eq, rfl, ?_⟩)
  intro l₁ l₂ l₃
  exact (h₃.errors l₃).trans ((h₂.errors l₂).trans (h₁.errors l₁))

end

/-- What was parsed between the two states has this view, tokens were read up to these, and within the limits
    these errors were recorded. -/
structure GivesWith {α β : Type} (found : List SyntaxError) (view : α → β) (b : β) (limits : Prop) (s : State)
    (rest : List Token) (a : α) (s' : State) : Prop where
  view_eq : view a = b
  rest : s'.rest = rest
  errors : limits → s'.errors.toList = s.errors.toList ++ found

theorem Gives.clean {α β : Type} {view : α → β} {b : β} {limits : Prop} {s s' : State} {rest : List Token} {a : α}
    (h : Gives view b limits s rest a s') : GivesWith [] view b limits s rest a s' :=
  ⟨h.view_eq, h.rest, fun hlimits => by rw [h.errors hlimits, List.append_nil]⟩

/-- These tokens are parsed to the statement, if no `else` follows one that could take it, and these errors are
    found in them. -/
def StatementCompletes (found : List SyntaxError) (dangling : Bool) (ts : List Token) (stmt : Stmt) : Prop :=
  ∀ n s rest, s.rest = ts ++ rest → (dangling = true → Stops (isKeyword .else) rest) →
    Yields (statement n) s (GivesWith found Stmt.unnumbered stmt stmt.WithinLimits s rest)

/-- These tokens are parsed to the declaration, if no `else` follows, and these errors are found in them. -/
def DeclarationCompletes (found : List SyntaxError) (ts : List Token) (stmt : Stmt) : Prop :=
  ∀ n s rest, s.rest = ts ++ rest → Stops (isKeyword .else) rest →
    Yields (declaration n) s (GivesWith found Stmt.unnumbered? (some stmt) stmt.WithinLimits s rest)

/-- These tokens are parsed to the declarations, up to the end or in a block to the closing brace, and these errors
    are found in them. -/
def DeclarationsComplete (found : List SyntaxError) (ts : List Token) (ss : List Stmt) : Prop :=
  ∀ n inBlock done (s s₁ : State), s.rest = ts ++ s₁.rest → s₁.Done inBlock →
    Yields (declarations n inBlock done) s (GivesWith found (Stmt.unnumberedAll ·.toList)
      (Stmt.unnumberedAll done.toList ++ ss) (Stmt.WithinLimitsAll ss) s s₁.rest)

theorem block_yields {found : List SyntaxError} {n : Nat} {s : State} {ts rest : List Token} {body : List Stmt}
    {closing : Token} (h : DeclarationsComplete found ts body) (hclosing : closing.kind = .mark .rightBrace)
    (hrest : s.rest = ts ++ closing :: rest) :
    Yields (block n) s (GivesWith found Stmt.unnumberedAll body (Stmt.WithinLimitsAll body) s rest) := by
  cases n with
  | zero => exact .zero
  | succ n =>
    rw [block]
    have hdone : State.Done { s with rest := closing :: rest } true := .inr ⟨rfl, closing, rest, rfl, hclosing⟩
    refine .bind ((h n true #[] s _ hrest hdone).mono fun body' s₁ hb => ?_)
    exact .expect hb.rest (isMark_iff.mpr hclosing) (.pure ⟨hb.view_eq, rfl, hb.errors⟩)

namespace StatementCompletes
variable {found : List SyntaxError} {ts us : List Token} {dangling : Bool} {keyword opening closing semicolon : Token}

theorem ofInner {t : Token} {stmt : Stmt} (ht : statement.startsInner t.kind = true)
    (h : ∀ n s rest, s.rest = ts ++ rest → (dangling = true → Stops (isKeyword .else) rest) →
      Yields (inner n t) s (GivesWith found Stmt.unnumbered stmt stmt.WithinLimits s rest)) :
    StatementCompletes found dangling (t :: ts) stmt := by
  intro n s rest hrest helse
  cases n with
  | zero => exact .zero
  | succ n =>
    rw [statement_succ]
    refine .take?_some hrest ht ((h n _ rest rfl helse).mono fun stmt' s' hb => ?_)
    exact ⟨hb.view_eq, hb.rest, hb.errors⟩

theorem expression {stmt : Stmt} (h : ExpressionStatement ts stmt) : StatementCompletes [] false ts stmt := by
  intro n s rest hrest _
  cases n with
  | zero => exact .zero
  | succ n =>
    rw [statement_succ]
    have hinner : Stops statement.startsInner (ts ++ rest) := expressionStatement_stops h fun k hk => by
      rcases startsInner_cases hk with rfl | rfl | rfl | rfl | rfl | rfl <;> rfl
    rw [← hrest] at hinner
    exact .take?_none hinner ((expressionStatement_yields h hrest).mono fun _ _ hb => hb.clean)

theorem forLoop {vs ws : List Token} {init : Option Stmt} {condition increment : Option Expr} {body : Stmt}
    (hkeyword : keyword.kind = .keyword .for) (hopening : opening.kind = .mark .leftParen)
    (hinit : ForInitializer ts init)
    (hcondition : Grammar.Maybe us condition) (hsemicolon : semicolon.kind = .mark .semicolon)
    (hincrement : Grammar.Maybe vs increment) (hclosing : closing.kind = .mark .rightParen)
    (hbody : StatementCompletes found dangling ws body) :
    StatementCompletes found dangling (keyword :: opening :: (ts ++ (us ++ semicolon :: (vs ++ closing :: ws))))
      (Grammar.forLoop init condition increment body) := by
  refine ofInner (by rw [hkeyword]; rfl) ?_
  intro n s rest hrest helse
  simp only [inner, hkeyword]
  have hrest : s.rest = opening :: (ts ++ (us ++ semicolon :: (vs ++ closing :: (ws ++ rest)))) := by simpa using hrest
  refine .bind ((forClauses_yields hopening hinit hcondition hsemicolon hincrement hclosing hrest).mono
    fun clauses s₁ ⟨h₁, h₂, h₃, hrest₁, herrors⟩ => ?_)
  refine .bind ((hbody n s₁ rest hrest₁ helse).mono fun body' s₂ hb => .pure ⟨?_, hb.rest, fun hlimits => ?_⟩)
  · rw [toStmt_unnumbered, h₁, h₂, h₃, hb.view_eq]
  · obtain ⟨l₁, l₂, l₃, l₄⟩ := forLoop_withinLimits.mp hlimits
    rw [hb.errors l₄, herrors l₁ l₂ l₃]

theorem ifOnly {condition : Expr} {yes : Stmt} (hkeyword : keyword.kind = .keyword .if)
    (hopening : opening.kind = .mark .leftParen) (hcondition : Derives .assignment ts condition)
    (hclosing : closing.kind = .mark .rightParen) (hyes : StatementCompletes found dangling us yes) :
    StatementCompletes found true (keyword :: opening :: (ts ++ closing :: us)) (.branch condition yes none) := by
  refine ofInner (by rw [hkeyword]; rfl) ?_
  intro n s rest hrest helse
  simp only [inner, hkeyword]
  have hrest : s.rest = opening :: (ts ++ closing :: (us ++ rest)) := by simpa using hrest
  refine .bind ((condition_yields hopening hcondition hclosing hrest).mono fun e' s₁ he => ?_)
  refine .bind ((hyes n s₁ rest he.rest fun _ => helse rfl).mono fun yes' s₂ hy => ?_)
  have hlacks := helse rfl
  rw [← hy.rest] at hlacks
  refine .bind (.after?_none hlacks (.pure ⟨?_, hy.rest, fun hlimits => ?_⟩))
  · rw [Stmt.unnumbered, he.view_eq, hy.view_eq, Stmt.unnumbered?]
  · rw [hy.errors hlimits.2.1, he.errors hlimits.1]

theorem ifElse {found' : List SyntaxError} {other : Token} {vs : List Token} {condition : Expr} {yes no : Stmt}
    (hkeyword : keyword.kind = .keyword .if)
    (hopening : opening.kind = .mark .leftParen) (hcondition : Derives .assignment ts condition)
    (hclosing : closing.kind = .mark .rightParen) (hyes : StatementCompletes found false us yes)
    (hother : other.kind = .keyword .else) (hno : StatementCompletes found' dangling vs no) :
    StatementCompletes (found ++ found') dangling (keyword :: opening :: (ts ++ closing :: (us ++ other :: vs)))
      (.branch condition yes (some no)) := by
  refine ofInner (by rw [hkeyword]; rfl) ?_
  intro n s rest hrest helse
  simp only [inner, hkeyword]
  have hrest : s.rest = opening :: (ts ++ closing :: (us ++ other :: (vs ++ rest))) := by simpa using hrest
  refine .bind ((condition_yields hopening hcondition hclosing hrest).mono fun e' s₁ he => ?_)
  refine .bind ((hyes n s₁ _ he.rest nofun).mono fun yes' s₂ hy => ?_)
  refine .bind (.after?_some hy.rest (isKeyword_iff.mpr hother) ((hno n _ rest rfl helse).mono fun no' s₃ hn => ?_))
  refine .pure ⟨?_, hn.rest, ?_⟩
  · rw [Stmt.unnumbered, he.view_eq, hy.view_eq, Stmt.unnumbered?, hn.view_eq]
  · intro hlimits
    have hno' := hn.errors hlimits.2.2
    rw [hno', hy.errors hlimits.2.1, he.errors hlimits.1, List.append_assoc]

theorem print {e : Expr} (hkeyword : keyword.kind = .keyword .print) (h : Derives .assignment ts e)
    (hsemicolon : semicolon.kind = .mark .semicolon) :
    StatementCompletes [] false (keyword :: (ts ++ [semicolon])) (.print e) := by
  refine ofInner (by rw [hkeyword]; rfl) ?_
  intro n s rest hrest _
  simp only [inner, hkeyword]
  rw [List.append_assoc] at hrest
  refine .bind ((expression_yields h hrest (by rw [hsemicolon]; rfl)).mono fun e' s₁ hb => ?_)
  exact .expect hb.rest (isMark_iff.mpr hsemicolon) (.pure (Gives.clean ⟨congrArg _ hb.view_eq, rfl, hb.errors⟩))

theorem ret {value : Option Expr} (hkeyword : keyword.kind = .keyword .return) (h : Grammar.Maybe ts value)
    (hsemicolon : semicolon.kind = .mark .semicolon) :
    StatementCompletes [] false (keyword :: (ts ++ [semicolon])) (.ret keyword value) := by
  refine ofInner (by rw [hkeyword]; rfl) ?_
  intro n s rest hrest _
  simp only [inner, hkeyword]
  rw [List.append_assoc] at hrest
  refine .bind ((maybe_yields h hrest (isMark_iff.mpr hsemicolon) (by rw [hsemicolon]; rfl)
    fun k hk => by rw [isMark_iff.mp hk]; rfl).mono fun value' s₁ hb => ?_)
  exact .expect hb.rest (isMark_iff.mpr hsemicolon) (.pure (Gives.clean ⟨congrArg _ hb.view_eq, rfl, hb.errors⟩))

theorem whileLoop {condition : Expr} {body : Stmt} (hkeyword : keyword.kind = .keyword .while)
    (hopening : opening.kind = .mark .leftParen) (hcondition : Derives .assignment ts condition)
    (hclosing : closing.kind = .mark .rightParen) (hbody : StatementCompletes found dangling us body) :
    StatementCompletes found dangling (keyword :: opening :: (ts ++ closing :: us)) (.loop condition body) := by
  refine ofInner (by rw [hkeyword]; rfl) ?_
  intro n s rest hrest helse
  simp only [inner, hkeyword]
  have hrest : s.rest = opening :: (ts ++ closing :: (us ++ rest)) := by simpa using hrest
  refine .bind ((condition_yields hopening hcondition hclosing hrest).mono fun e' s₁ he => ?_)
  refine .bind ((hbody n s₁ rest he.rest helse).mono fun body' s₂ hb => .pure ⟨?_, hb.rest, fun hlimits => ?_⟩)
  · rw [Stmt.unnumbered, he.view_eq, hb.view_eq]
  · rw [hb.errors hlimits.2, he.errors hlimits.1]

theorem block {body : List Stmt} (hopening : opening.kind = .mark .leftBrace)
    (hbody : DeclarationsComplete found ts body) (hclosing : closing.kind = .mark .rightBrace) :
    StatementCompletes found false (opening :: (ts ++ [closing])) (.block body) := by
  refine ofInner (by rw [hopening]; rfl) ?_
  intro n s rest hrest _
  simp only [inner, hopening]
  rw [List.append_assoc] at hrest
  exact .map ((block_yields hbody hclosing hrest).mono fun body' s₁ hb => ⟨congrArg _ hb.view_eq, hb.rest, hb.errors⟩)

end StatementCompletes

theorem parameters_yields : ∀ {n : Nat} {done : Array Token} {s : State} {ts ps rest : List Token} {closing : Token},
    ParameterList ts ps → s.rest = ts ++ closing :: rest → closing.kind = .mark .rightParen →
      Yields (parameters n done) s
        (Gives Array.toList (done.toList ++ ps) (done.size + ps.length ≤ 255) s (closing :: rest))
  | 0, _, _, _, _, _, _, _, _, _ => .zero
  | n + 1, done, s, _, _, rest, closing, .last h, hrest, hclosing => by
    refine .checkArity ?_
    intro s₁ hrest₁ hsize
    refine .expect (hrest₁.trans hrest) (isIdentifier_iff.mpr h) ?_
    have hcomma : Stops (isMark .comma) (closing :: rest) := stops_cons (by rw [hclosing]; rfl)
    exact .take?_none hcomma (.pure ⟨Array.toList_push, rfl, fun hlength => hsize hlength⟩)
  | n + 1, done, s, _, _, rest, closing, .more h hcomma hps, hrest, hclosing => by
    refine .checkArity ?_
    intro s₁ hrest₁ hsize
    refine .expect (hrest₁.trans hrest) (isIdentifier_iff.mpr h) (.take?_some rfl (isMark_iff.mpr hcomma) ?_)
    refine (parameters_yields hps rfl hclosing).mono fun all s₂ hall => ⟨?_, hall.rest, fun hlength => ?_⟩
    · rw [hall.view_eq, Array.toList_push, List.append_assoc, List.singleton_append]
    · rw [List.length_cons] at hlength
      have herrors := hall.errors (by rw [Array.size_push]; omega)
      exact herrors.trans (hsize (by unfold maxArity; omega))

namespace DeclarationCompletes
variable {found : List SyntaxError} {ts : List Token} {stmt : Stmt}

theorem ofAttempt (h : ∀ n s rest, s.rest = ts ++ rest → Stops (isKeyword .else) rest →
    Yields (attempt n) s (GivesWith found Stmt.unnumbered stmt stmt.WithinLimits s rest)) :
    DeclarationCompletes found ts stmt := by
  intro n s rest hrest helse
  cases n with
  | zero => exact .zero
  | succ n =>
    rw [declaration_succ]
    have ha := h n s rest hrest helse
    unfold Yields at ha ⊢
    unfold recovering
    cases hok : attempt n s with
    | ok stmt' s' =>
      simp only [hok] at ha ⊢
      exact ⟨congrArg some ha.view_eq, ha.rest, ha.errors⟩
    | error stop s' =>
      cases stop with
      | outOfFuel => trivial
      | refused e => simp only [hok] at ha

theorem function {keyword name opening closing brace last : Token} {us params : List Token} {body : List Stmt}
    (hkeyword : keyword.kind = .keyword .fun) (hname : name.kind = .identifier)
    (hopening : opening.kind = .mark .leftParen)
    (hparams : Parameters ts params) (hclosing : closing.kind = .mark .rightParen)
    (hbrace : brace.kind = .mark .leftBrace)
    (hbody : DeclarationsComplete found us body) (hlast : last.kind = .mark .rightBrace) :
    DeclarationCompletes found (keyword :: name :: opening :: (ts ++ closing :: brace :: (us ++ [last])))
      (.function name params body) := by
  refine ofAttempt fun n s rest hrest _ => .take?_some hrest (isKeyword_iff.mpr hkeyword) ?_
  cases n with
  | zero => exact .zero
  | succ n =>
    rw [Parse.function]
    refine .expect rfl (isIdentifier_iff.mpr hname) (.expect rfl (isMark_iff.mpr hopening) (.bind ?_))
    have hrest :
        ts ++ closing :: brace :: (us ++ [last]) ++ rest = ts ++ closing :: (brace :: (us ++ last :: rest)) := by
      simp
    have hps : ∀ s₁ : State, s₁.rest = ts ++ closing :: (brace :: (us ++ last :: rest)) →
        Yields (unlessNext (isMark .rightParen) #[] (parameters n #[])) s₁
          (Gives Array.toList params (params.length ≤ 255) s₁ (closing :: (brace :: (us ++ last :: rest)))) := by
      intro s₁ hs₁
      cases hparams with
      | none => exact .unlessNext_of_next hs₁ (isMark_iff.mpr hclosing) ⟨rfl, hs₁, fun _ => rfl⟩
      | some hlist =>
        have hlacks : s₁.Lacks (isMark .rightParen) := by
          intro t more ht
          rw [hs₁] at ht
          cases hlist with
          | last h | more h =>
            cases ht
            rw [h]
            rfl
        refine .unlessNext_of_lacks hlacks ((parameters_yields hlist hs₁ hclosing).mono fun ps s₂ hall => ?_)
        exact ⟨hall.view_eq, hall.rest, fun hlength => hall.errors (by simpa using hlength)⟩
    refine (hps _ hrest).mono fun ps s₂ hps => ?_
    refine .expect hps.rest (isMark_iff.mpr hclosing) (.expect rfl (isMark_iff.mpr hbrace) (.bind ?_))
    refine (block_yields hbody hlast rfl).mono fun body' s₃ hb => .pure ⟨?_, hb.rest, fun hlimits => ?_⟩
    · rw [Stmt.unnumbered, hps.view_eq, hb.view_eq]
    · rw [hb.errors hlimits.2, hps.errors hlimits.1]

theorem var {stmt : Stmt} (h : VarDeclaration ts stmt) : DeclarationCompletes [] ts stmt := by
  refine ofAttempt ?_
  intro n s rest hrest _
  have hvar : ∃ keyword us, ts = keyword :: us ∧ keyword.kind = .keyword .var := by
    cases h with
    | plain hkeyword | initialized hkeyword => exact ⟨_, _, rfl, hkeyword⟩
  obtain ⟨keyword, us, rfl, hkeyword⟩ := hvar
  have hfun : Stops (isKeyword .fun) (keyword :: us ++ rest) := stops_cons (by rw [hkeyword]; rfl)
  rw [← hrest] at hfun
  refine .take?_none hfun (.take?_some hrest (isKeyword_iff.mpr hkeyword) ?_)
  exact (varDeclaration_yields h rfl).mono fun stmt' s₁ hb => Gives.clean ⟨hb.view_eq, hb.rest, hb.errors⟩

theorem statement {dangling : Bool} (hbegins : ∃ t more, ts = t :: more ∧ beginsStatement t.kind = true)
    (h : StatementCompletes found dangling ts stmt) : DeclarationCompletes found ts stmt := by
  refine ofAttempt ?_
  intro n s rest hrest helse
  obtain ⟨t, more, rfl, ht⟩ := hbegins
  have hlacks : ∀ test, (∀ k, test k = true → beginsStatement k = false) → s.Lacks test := by
    intro test htest
    have hstops : Stops test (t :: more ++ rest) :=
      stops_cons (Bool.eq_false_iff.mpr fun hk => by simp [htest _ hk] at ht)
    rwa [← hrest] at hstops
  refine .take?_none (hlacks _ fun k hk => by rw [isKeyword_iff.mp hk]; rfl)
    (.take?_none (hlacks _ fun k hk => by rw [isKeyword_iff.mp hk]; rfl) ?_)
  exact h n s rest hrest fun _ => helse

end DeclarationCompletes

theorem DeclarationsComplete.nil : DeclarationsComplete [] [] [] := by
  intro n inBlock done s s₁ hrest hdone
  cases n with
  | zero => exact .zero
  | succ n =>
    have hs : s.Done inBlock := by
      unfold State.Done at hdone ⊢
      rwa [hrest]
    unfold Yields
    rw [declarations_of_done hs]
    exact ⟨(List.append_nil _).symm, hrest, fun _ => (List.append_nil _).symm⟩

/-- No `else` stands before a declaration. -/
theorem stops_else {ts rest : List Token} (hbegins : ∃ t more, ts = t :: more ∧ beginsDeclaration t.kind = true) :
    Stops (isKeyword .else) (ts ++ rest) := by
  obtain ⟨t, more, rfl, ht⟩ := hbegins
  refine stops_cons (Bool.eq_false_iff.mpr ?_)
  intro hk
  rw [isKeyword_iff.mp hk] at ht
  cases ht

/-- No `else` stands before a declaration or behind the last one. -/
theorem DeclarationsComplete.no_else {ts : List Token} {ss : List Stmt} {s : State} {inBlock : Bool}
    (h : Declarations true ts ss) (hdone : s.Done inBlock) : Stops (isKeyword .else) (ts ++ s.rest) := by
  cases h with
  | nil =>
    intro t more hrest
    rcases hdone with hnil | ⟨-, t', more', hcons, ht'⟩
    · rw [List.nil_append, hnil] at hrest
      cases hrest
    · rw [List.nil_append, hcons] at hrest
      cases hrest
      rw [ht']
      rfl
  | cons h hss =>
    rw [List.append_assoc]
    exact stops_else (declaration_begins h)

theorem not_done_of_begins {ts rest : List Token} {s : State} {inBlock : Bool} (hrest : s.rest = ts ++ rest)
    (hbegins : ∃ t more, ts = t :: more ∧ t.kind ≠ .mark .rightBrace) : ¬ s.Done inBlock := by
  obtain ⟨t, more, rfl, ht⟩ := hbegins
  rintro (hnil | ⟨-, t', more', hcons, ht'⟩)
  · rw [hnil] at hrest
    cases hrest
  · rw [hcons] at hrest
    cases hrest
    exact ht ht'

theorem DeclarationsComplete.cons {found found' : List SyntaxError} {ts us : List Token} {stmt : Stmt} {ss : List Stmt}
    (hbegins : ∃ t more, ts = t :: more ∧ beginsDeclaration t.kind = true)
    (helse : ∀ {s : State} {inBlock : Bool}, s.Done inBlock → Stops (isKeyword .else) (us ++ s.rest))
    (h : DeclarationCompletes found ts stmt) (hss : DeclarationsComplete found' us ss) :
    DeclarationsComplete (found ++ found') (ts ++ us) (stmt :: ss) := by
  intro n inBlock done s s₁ hrest hdone
  cases n with
  | zero => exact .zero
  | succ n =>
    rw [List.append_assoc] at hrest
    have hnot : ¬ s.Done inBlock := by
      refine not_done_of_begins hrest ?_
      obtain ⟨t, more, rfl, ht⟩ := hbegins
      refine ⟨t, more, rfl, fun hk => ?_⟩
      rw [hk] at ht
      cases ht
    have hrun : Yields (declaration n >>= fun r => declarations n inBlock (r.elim done done.push)) s
        (GivesWith (found ++ found') (Stmt.unnumberedAll ·.toList) (Stmt.unnumberedAll done.toList ++ stmt :: ss)
          (Stmt.WithinLimitsAll (stmt :: ss)) s s₁.rest) := by
      refine .bind ((h n s _ hrest (helse hdone)).mono fun r s₂ hr => ?_)
      have htree := hr.view_eq
      cases r with
      | none => cases htree
      | some stmt' =>
        refine (hss n inBlock (done.push stmt') s₂ s₁ hr.rest hdone).mono fun all s₃ hall => ?_
        refine ⟨?_, hall.rest, fun hlimits => ?_⟩
        · rw [hall.view_eq, Array.toList_push, stmt_unnumberedAll_append, ← Option.some.inj htree, List.append_assoc]
          rfl
        · rw [hall.errors hlimits.2, hr.errors hlimits.1, List.append_assoc]
    unfold Yields at hrun ⊢
    rwa [declarations_of_not_done hnot]

mutual

theorem statementCompletes {dangling : Bool} {ts : List Token} {stmt : Stmt} :
    Statement true dangling ts stmt → StatementCompletes [] dangling ts stmt
  | .expression h => .expression h
  | .forLoop hkeyword hopening hinit hcondition hsemicolon hincrement hclosing hbody =>
    .forLoop hkeyword hopening hinit hcondition hsemicolon hincrement hclosing (statementCompletes hbody)
  | .ifOnly hkeyword hopening hcondition hclosing hyes =>
    .ifOnly hkeyword hopening hcondition hclosing (statementCompletes hyes)
  | .ifElse hkeyword hopening hcondition hclosing hyes hnearest hother hno => by
    have hcomplete := statementCompletes hyes
    rw [hnearest rfl] at hcomplete
    exact .ifElse hkeyword hopening hcondition hclosing hcomplete hother (statementCompletes hno)
  | .print hkeyword h hsemicolon => .print hkeyword h hsemicolon
  | .ret hkeyword h hsemicolon => .ret hkeyword h hsemicolon
  | .whileLoop hkeyword hopening hcondition hclosing hbody =>
    .whileLoop hkeyword hopening hcondition hclosing (statementCompletes hbody)
  | .block hopening hbody hclosing => .block hopening (declarationsComplete hbody) hclosing

theorem declarationCompletes {ts : List Token} {stmt : Stmt} :
    Declaration true ts stmt → DeclarationCompletes [] ts stmt
  | .function hkeyword hname hopening hparams hclosing hbrace hbody hlast =>
    .function hkeyword hname hopening hparams hclosing hbrace (declarationsComplete hbody) hlast
  | .var h => .var h
  | .statement h => .statement (statement_begins h) (statementCompletes h)

theorem declarationsComplete {ts : List Token} {ss : List Stmt} :
    Declarations true ts ss → DeclarationsComplete [] ts ss
  | .nil => .nil
  | .cons h hss =>
    .cons (declaration_begins h) (DeclarationsComplete.no_else hss) (declarationCompletes h) (declarationsComplete hss)

end

/-! ### Single expressions -/

/-- What derives an expression is parsed to it, up to the end, and without errors within the limits. -/
theorem expression_complete {tokens : List Token} (nextId : ExprId) {e : Expr}
    (h : Derives .assignment (body tokens) e) :
    ∃ e' s, expression (fuelFor tokens) (.start tokens nextId) = .ok e' s ∧
      Built (.start tokens nextId) [] e e' s := by
  have hfits : (State.start tokens nextId).Fits 9 (fuelFor tokens) := (start_fits tokens nextId).mono (by decide)
  have hyields := completes h (fuelFor tokens) (.start tokens nextId) [] (List.append_nil _).symm nofun
  cases hparse : expression (fuelFor tokens) (.start tokens nextId) with
  | ok e' s => exact ⟨e', s, rfl, hyields.of_ok hparse⟩
  | error stop s =>
    cases stop with
    | refused e =>
      unfold Yields at hyields
      rw [hparse] at hyields
      exact hyields.elim
    | outOfFuel => exact absurd hparse ((expressionsLast _).expression _ hfits s)

theorem parseExpression_of_ok {tokens : List Token} {id : ExprId} {e : Expr} {s : State}
    (h : expression (fuelFor tokens) (.start tokens id) = .ok e s) (herrors : s.errors = #[]) :
    parseExpression tokens id = ⟨some e, [], s.nextId⟩ := by
  rw [parseExpression, h]
  dsimp only
  rw [herrors]
  rfl

/-! ### Programs -/

/-- What derives a program by the nearest rule is parsed to it, and without errors within the limits. -/
theorem parse_complete {tokens : List Token} {nextId : ExprId} {program : List Stmt}
    (h : Program true (body tokens) program) :
    Stmt.unnumberedAll (parse tokens nextId).statements = program ∧
      (Stmt.WithinLimitsAll program → (parse tokens nextId).errors = []) := by
  obtain ⟨stmts, s, hparse⟩ := declarations_fuelFor tokens nextId
  have hend : State.Done { State.start tokens nextId with rest := [] } false := .inl rfl
  have hgives := (declarationsComplete h (fuelFor tokens) false #[] (.start tokens nextId) _
    (List.append_nil _).symm hend).of_ok hparse
  unfold parse
  rw [hparse]
  exact ⟨hgives.view_eq, hgives.errors⟩

/-- The parser accepts exactly the programs of the grammar that keep the limits on arguments and parameters,
    and then gives the tree of the only derivation in which every `else` is at the nearest `if`. -/
theorem parse_exact (tokens : List Token) (nextId : ExprId) :
    ((parse tokens nextId).errors = [] ↔
      ∃ program, Program false (body tokens) program ∧ Stmt.WithinLimitsAll program) ∧
      ((parse tokens nextId).errors = [] → ∀ program,
        Program true (body tokens) program ↔ Stmt.unnumberedAll (parse tokens nextId).statements = program) := by
  refine ⟨⟨fun h => ?_, fun ⟨program, hd, hlimits⟩ => ?_⟩, fun h program => ⟨fun hd => (parse_complete hd).1, ?_⟩⟩
  · obtain ⟨hd, hlimits⟩ := parse_sound h
    exact ⟨_, hd.any, hlimits⟩
  · obtain ⟨program', hd', hlimits'⟩ := hd.nearest hlimits
    exact (parse_complete hd').2 hlimits'
  · rintro rfl
    exact (parse_sound h).1

/-- The inner of two conditions takes the `else`. -/
theorem parse_exact_dangling_else :
    (parse (Scan.tokens (Scan.items "if (a) if (b) print 1; else print 2;")) 0).errors = [] ∧
      Program true (body (Scan.tokens (Scan.items "if (a) if (b) print 1; else print 2;")))
        (Stmt.unnumberedAll (parse (Scan.tokens (Scan.items "if (a) if (b) print 1; else print 2;")) 0).statements) :=
  ⟨by decide +kernel, ((parse_exact _ 0).2 (by decide +kernel) _).mpr rfl⟩

end Parse
end Lox
