import Lox.Proofs.Parsing.ErrorOrder

/-! # A missing semicolon

Where a statement lacks its semicolon and a keyword follows that starts a statement, the parse is refused at the
keyword (`statement_refused`). Recovery drops the token that it was refused at before it looks for the next statement,
so it does not go on at this keyword but at the next boundary behind it. The statement that the keyword starts is lost
up to there, and the rest is parsed for itself (`parse_missing_semicolon`). -/

namespace Lox
namespace Parse
open Grammar

/-! ### Refusals at a token -/

theorem lacks_of_next {s : State} {t : Token} {rest : List Token} {test : Kind → Bool} (hrest : s.rest = t :: rest)
    (ht : test t.kind = false) : s.Lacks test := by
  intro u us hu
  rw [hrest] at hu
  cases hu
  exact ht

/-- With enough fuel the parsing function is refused at this token, which is still left to read, and within the limits
    these are all errors so far. -/
def Refused (limits : Prop) (errors : Array SyntaxError) (t : Token) (rest : List Token) {α : Type} (p : Parser α)
    (s : State) : Prop :=
  match p s with
  | .ok _ _ => False
  | .error .outOfFuel _ => True
  | .error (.refused e) s' => e.token = t ∧ s'.rest = t :: rest ∧ (limits → s'.errors = errors)

namespace Refused
variable {limits limits' : Prop} {errors errors' : Array SyntaxError} {t : Token} {rest : List Token} {α β : Type}
  {p : Parser α} {f : α → Parser β} {s : State} {test : Kind → Bool}

theorem outOfFuel : Refused limits errors t rest (outOfFuel : Parser α) s := trivial

theorem refuse {cause : SyntaxError.Cause} (hrest : s.rest = t :: rest) (herrors : limits → s.errors = errors) :
    Refused limits errors t rest (refuse cause : Parser α) s := by
  refine ⟨?_, hrest, herrors⟩
  rw [State.next, hrest, List.head?_cons, Option.getD_some]

theorem imp (h : Refused limits errors t rest p s) (himp : limits' → limits ∧ errors = errors') :
    Refused limits' errors' t rest p s := by
  unfold Refused at h ⊢
  match p s, h with
  | .error .outOfFuel _, _ => trivial
  | .error (.refused _) _, ⟨he, hrest, herrors⟩ =>
    exact ⟨he, hrest, fun hlimits => (herrors (himp hlimits).1).trans (himp hlimits).2⟩

theorem bind_left (h : Refused limits errors t rest p s) : Refused limits errors t rest (p >>= f) s := by
  unfold Refused at h ⊢
  rw [bind_apply]
  match p s, h with
  | .error .outOfFuel _, _ => trivial
  | .error (.refused _) _, h => exact h

theorem map (h : Refused limits errors t rest p s) {g : α → β} : Refused limits errors t rest (g <$> p) s :=
  h.bind_left (f := fun a => pure (g a))

theorem bind {P : α → State → Prop} (h : Yields p s P)
    (hf : ∀ a s', P a s' → Refused limits errors t rest (f a) s') : Refused limits errors t rest (p >>= f) s := by
  unfold Yields at h
  unfold Refused
  rw [bind_apply]
  cases hrun : p s with
  | ok a s' =>
    rw [hrun] at h
    exact hf a s' h
  | error stop s' =>
    rw [hrun] at h
    cases stop with
    | refused e => exact h.elim
    | outOfFuel => trivial

theorem take?_some {f : Option Token → Parser β} {u : Token} {more : List Token} (hrest : s.rest = u :: more)
    (hu : test u.kind = true) (h : Refused limits errors t rest (f (some u)) { s with rest := more }) :
    Refused limits errors t rest (take? test >>= f) s := by
  have htake : take? test s = .ok (some u) { s with rest := more } := by simp [take?, hrest, hu]
  unfold Refused at h ⊢
  rwa [bind_apply, htake]

theorem take?_none {f : Option Token → Parser β} (hl : s.Lacks test) (h : Refused limits errors t rest (f none) s) :
    Refused limits errors t rest (take? test >>= f) s := by
  have htake : take? test s = .ok none s := by
    rcases take?_cases test s with ⟨-, htake⟩ | ⟨u, s', hu, -⟩
    · exact htake
    · exact absurd hu.test (by simp [hl u s'.rest hu.rest])
  unfold Refused at h ⊢
  rwa [bind_apply, htake]

theorem expect_some {f : Token → Parser β} {cause : SyntaxError.Cause} {u : Token} {more : List Token}
    (hrest : s.rest = u :: more) (hu : test u.kind = true)
    (h : Refused limits errors t rest (f u) { s with rest := more }) :
    Refused limits errors t rest (expect test cause >>= f) s := by
  have hyields : Yields (expect test cause) s fun u' s' => u' = u ∧ s' = { s with rest := more } := by
    refine Yields.take?_some hrest hu (Yields.pure ⟨rfl, rfl⟩)
  refine bind hyields ?_
  rintro _ _ ⟨rfl, rfl⟩
  exact h

theorem expect_none {f : Token → Parser β} {cause : SyntaxError.Cause} (hrest : s.rest = t :: rest)
    (ht : test t.kind = false) (herrors : limits → s.errors = errors) :
    Refused limits errors t rest (expect test cause >>= f) s :=
  (take?_none (lacks_of_next hrest ht) (refuse hrest herrors)).bind_left

theorem unlessNext {a : α} (hl : s.Lacks test) (h : Refused limits errors t rest p s) :
    Refused limits errors t rest (unlessNext test a p) s := by
  have hsees : Yields (sees test) s fun b s' => b = false ∧ s' = s := by
    refine ⟨?_, rfl⟩
    cases hrest : s.rest with
    | nil => rfl
    | cons u us => exact hl u us hrest
  refine bind hsees ?_
  rintro _ _ ⟨rfl, rfl⟩
  exact h

end Refused

/-! ### Keywords -/

theorem test_of_startsStatement {test : Kind → Bool} {k : Kind}
    (htest : ∀ w ∈ [Keyword.class, .fun, .var, .for, .if, .while, .print, .return], test (.keyword w) = false)
    (h : startsStatement k = true) : test k = false := by
  cases k with
  | keyword w => exact htest w (by simpa [startsStatement] using h)
  | mark _ | identifier | string _ | number _ | endOfInput => cases h

section
variable {keyword : Token} {rest : List Token} {s : State}

/-- No operand begins with such a keyword. -/
theorem binary_refused (hkeyword : startsStatement keyword.kind = true) (hrest : s.rest = keyword :: rest) :
    ∀ n, (∀ level, Refused True s.errors keyword rest (binary n level) s) ∧
      Refused True s.errors keyword rest (unary n) s
  | 0 => ⟨fun _ => .outOfFuel, .outOfFuel⟩
  | n + 1 => by
    obtain ⟨hbinary, hunary⟩ := binary_refused hkeyword hrest n
    refine ⟨fun level => ?_, ?_⟩
    · rw [binary]
      refine .bind_left ?_
      cases level with
      | factor => exact hunary
      | or | and | equality | comparison | term => exact hbinary _
    · rw [unary]
      refine .take?_none (lacks_of_next hrest (test_of_startsStatement (by decide) hkeyword)) (.bind_left ?_)
      cases n with
      | zero => exact .outOfFuel
      | succ n =>
        rw [primary_succ]
        exact .take?_none (lacks_of_next hrest (test_of_startsStatement (by decide) hkeyword))
          (.refuse hrest fun _ => rfl)

theorem expression_refused (hkeyword : startsStatement keyword.kind = true) (hrest : s.rest = keyword :: rest)
    (n : Nat) : Refused True s.errors keyword rest (expression n) s := by
  cases n with
  | zero => exact .outOfFuel
  | succ n =>
    rw [expression]
    exact .bind_left ((binary_refused hkeyword hrest n).1 .or)

/-! ### Statements without their semicolon -/

/-- The tokens end in a semicolon, in front of which are these. -/
def EndsIn (us ts : List Token) : Prop := ∃ semicolon, semicolon.kind = .mark .semicolon ∧ us = ts ++ [semicolon]

theorem EndsIn.behind (before : List Token) {us ts : List Token} (h : EndsIn (before ++ us) ts) (hus : us ≠ []) :
    ∃ ts', EndsIn us ts' ∧ ts = before ++ ts' := by
  obtain ⟨semicolon, hsemicolon, heq⟩ := h
  obtain ⟨ts', last, rfl⟩ : ∃ ts' last, us = ts' ++ [last] := ⟨_, _, (List.dropLast_concat_getLast hus).symm⟩
  rw [← List.append_assoc] at heq
  obtain ⟨rfl, hlast⟩ := List.append_inj' heq rfl
  cases hlast
  exact ⟨ts', ⟨semicolon, hsemicolon, rfl⟩, rfl⟩

theorem EndsIn.last (us : List Token) {ts : List Token} {t : Token} (h : EndsIn (us ++ [t]) ts) :
    t.kind = .mark .semicolon ∧ ts = us := by
  obtain ⟨semicolon, hsemicolon, heq⟩ := h
  obtain ⟨rfl, hlast⟩ := List.append_inj' heq rfl
  cases hlast
  exact ⟨hsemicolon, rfl⟩

/-- Wherever these tokens stand before a keyword that starts a statement, the parse is refused at the keyword. -/
def StatementRefused (ts : List Token) (stmt : Stmt) : Prop :=
  ∀ n s keyword rest, s.rest = ts ++ keyword :: rest → startsStatement keyword.kind = true →
    Refused stmt.WithinLimits s.errors keyword rest (statement n) s

namespace StatementRefused
variable {ts us : List Token} {stmt : Stmt} {keyword opening closing : Token}

theorem ofInner {t : Token} (ht : statement.startsInner t.kind = true)
    (h : ∀ n s keyword rest, s.rest = ts ++ keyword :: rest → startsStatement keyword.kind = true →
      Refused stmt.WithinLimits s.errors keyword rest (inner n t) s) : StatementRefused (t :: ts) stmt := by
  intro n s keyword rest hrest hkeyword
  cases n with
  | zero => exact .outOfFuel
  | succ n =>
    rw [statement_succ]
    exact .take?_some hrest ht (h n { s with rest := ts ++ keyword :: rest } keyword rest rfl hkeyword)

/-- Behind an expression the semicolon is missed at the keyword. -/
theorem semicolon {n : Nat} {s : State} {rest : List Token} {e : Expr} {α : Type} {cause : SyntaxError.Cause}
    {f : Expr → Token → Parser α} (h : Derives .assignment ts e) (hrest : s.rest = ts ++ keyword :: rest)
    (hkeyword : startsStatement keyword.kind = true) :
    Refused e.WithinLimits s.errors keyword rest
      (Parse.expression n >>= fun e => expect (isMark .semicolon) cause >>= f e) s := by
  refine .bind (expression_yields h hrest (test_of_startsStatement (by decide) hkeyword)) fun e' s₁ hb => ?_
  exact .expect_none hb.rest (test_of_startsStatement (by decide) hkeyword) hb.errors

theorem expression {e : Expr} (h : Derives .assignment ts e) : StatementRefused ts (.expression e) := by
  intro n s keyword rest hrest hkeyword
  cases n with
  | zero => exact .outOfFuel
  | succ n =>
    rw [statement_succ]
    have hinner : Stops statement.startsInner (ts ++ keyword :: rest) := derives_stops h fun k hk => by
      rcases startsInner_cases hk with rfl | rfl | rfl | rfl | rfl | rfl <;> rfl
    rw [← hrest] at hinner
    exact .take?_none hinner (semicolon h hrest hkeyword)

theorem print {t : Token} {e : Expr} (ht : t.kind = .keyword .print) (h : Derives .assignment ts e) :
    StatementRefused (t :: ts) (.print e) := by
  refine ofInner (by rw [ht]; rfl) ?_
  intro n s keyword rest hrest hkeyword
  simp only [inner, ht]
  exact semicolon h hrest hkeyword

theorem ret {t : Token} {value : Option Expr} (ht : t.kind = .keyword .return) (h : Grammar.Maybe ts value) :
    StatementRefused (t :: ts) (.ret t value) := by
  refine ofInner (by rw [ht]; rfl) ?_
  intro n s keyword rest hrest hkeyword
  simp only [inner, ht]
  cases h with
  | none =>
    have hlacks : s.Lacks (isMark .semicolon) :=
      lacks_of_next hrest (test_of_startsStatement (by decide) hkeyword)
    refine .bind_left (.unlessNext hlacks ((expression_refused hkeyword hrest n).imp ?_).map)
    exact fun _ => ⟨trivial, rfl⟩
  | @some _ value h =>
    have hlacks : s.Lacks (isMark .semicolon) := by
      have hstops : Stops (isMark .semicolon) (ts ++ keyword :: rest) :=
        derives_stops h fun k hk => by rw [isMark_iff.mp hk]; rfl
      rwa [← hrest] at hstops
    have hvalue : Yields (Parse.unlessNext (isMark .semicolon) none (some <$> Parse.expression n)) s
        (Gives (Option.map Expr.unnumbered) (some value) value.WithinLimits s (keyword :: rest)) := by
      refine .unlessNext_of_lacks hlacks (.map ?_)
      exact (expression_yields h hrest (test_of_startsStatement (by decide) hkeyword)).mono fun e' s₁ hb =>
        ⟨congrArg some hb.view_eq, hb.rest, hb.errors⟩
    refine .bind hvalue fun value' s₁ hb => ?_
    exact .expect_none hb.rest (test_of_startsStatement (by decide) hkeyword) fun hlimits => hb.errors (hlimits _ rfl)

theorem whileLoop {t : Token} {condition : Expr} {body : Stmt} (ht : t.kind = .keyword .while)
    (hopening : opening.kind = .mark .leftParen) (hcondition : Derives .assignment ts condition)
    (hclosing : closing.kind = .mark .rightParen) (hbody : StatementRefused us body) :
    StatementRefused (t :: opening :: (ts ++ closing :: us)) (.loop condition body) := by
  refine ofInner (by rw [ht]; rfl) ?_
  intro n s keyword rest hrest hkeyword
  simp only [inner, ht]
  have hrest : s.rest = opening :: (ts ++ closing :: (us ++ keyword :: rest)) := by simpa using hrest
  refine .bind (condition_yields hopening hcondition hclosing hrest) fun e s₁ he => .bind_left ?_
  exact (hbody n s₁ keyword rest he.rest hkeyword).imp fun hlimits => ⟨hlimits.2, he.errors hlimits.1⟩

theorem ifOnly {t : Token} {condition : Expr} {yes : Stmt} (ht : t.kind = .keyword .if)
    (hopening : opening.kind = .mark .leftParen) (hcondition : Derives .assignment ts condition)
    (hclosing : closing.kind = .mark .rightParen) (hyes : StatementRefused us yes) :
    StatementRefused (t :: opening :: (ts ++ closing :: us)) (.branch condition yes none) := by
  refine ofInner (by rw [ht]; rfl) ?_
  intro n s keyword rest hrest hkeyword
  simp only [inner, ht]
  have hrest : s.rest = opening :: (ts ++ closing :: (us ++ keyword :: rest)) := by simpa using hrest
  refine .bind (condition_yields hopening hcondition hclosing hrest) fun e s₁ he => .bind_left ?_
  exact (hyes n s₁ keyword rest he.rest hkeyword).imp fun hlimits => ⟨hlimits.2.1, he.errors hlimits.1⟩

theorem ifElse {t other : Token} {vs : List Token} {condition : Expr} {yes no : Stmt} (ht : t.kind = .keyword .if)
    (hopening : opening.kind = .mark .leftParen) (hcondition : Derives .assignment ts condition)
    (hclosing : closing.kind = .mark .rightParen) (hyes : StatementCompletes [] false us yes)
    (hother : other.kind = .keyword .else) (hno : StatementRefused vs no) :
    StatementRefused (t :: opening :: (ts ++ closing :: (us ++ other :: vs))) (.branch condition yes (some no)) := by
  refine ofInner (by rw [ht]; rfl) ?_
  intro n s keyword rest hrest hkeyword
  simp only [inner, ht]
  have hrest : s.rest = opening :: (ts ++ closing :: (us ++ other :: (vs ++ keyword :: rest))) := by simpa using hrest
  refine .bind (condition_yields hopening hcondition hclosing hrest) fun e s₁ he => ?_
  have hclosed : false = true → Stops (isKeyword .else) (other :: (vs ++ keyword :: rest)) := fun h =>
    absurd h Bool.false_ne_true
  refine .bind (hyes n s₁ _ he.rest hclosed) fun yes' s₂ hy => .bind_left ?_
  refine .take?_some hy.rest (isKeyword_iff.mpr hother) (.map ?_)
  refine (hno n _ keyword rest rfl hkeyword).imp fun hlimits => ⟨hlimits.2.2, ?_⟩
  have herrors := hy.errors hlimits.2.1
  rw [List.append_nil] at herrors
  exact (Array.toList_inj.mp herrors).trans (he.errors hlimits.1)

theorem forLoop {t semicolon : Token} {vs ws : List Token} {init : Option Stmt} {condition increment : Option Expr}
    {body : Stmt} (ht : t.kind = .keyword .for) (hopening : opening.kind = .mark .leftParen)
    (hinit : ForInitializer ts init) (hcondition : Grammar.Maybe us condition)
    (hsemicolon : semicolon.kind = .mark .semicolon) (hincrement : Grammar.Maybe vs increment)
    (hclosing : closing.kind = .mark .rightParen) (hbody : StatementRefused ws body) :
    StatementRefused (t :: opening :: (ts ++ (us ++ semicolon :: (vs ++ closing :: ws))))
      (Grammar.forLoop init condition increment body) := by
  refine ofInner (by rw [ht]; rfl) ?_
  intro n s keyword rest hrest hkeyword
  simp only [inner, ht]
  have hrest : s.rest = opening :: (ts ++ (us ++ semicolon :: (vs ++ closing :: (ws ++ keyword :: rest)))) := by
    simpa using hrest
  refine .bind (forClauses_yields hopening hinit hcondition hsemicolon hincrement hclosing hrest) ?_
  rintro clauses s₁ ⟨-, -, -, hrest₁, herrors⟩
  refine .bind_left ((hbody n s₁ keyword rest hrest₁ hkeyword).imp fun hlimits => ?_)
  obtain ⟨l₁, l₂, l₃, l₄⟩ := forLoop_withinLimits.mp hlimits
  exact ⟨l₄, herrors l₁ l₂ l₃⟩

end StatementRefused

theorem statement_ne_nil {nearest dangling : Bool} {us : List Token} {stmt : Stmt}
    (h : Statement nearest dangling us stmt) : us ≠ [] := by
  obtain ⟨t, more, rfl, -⟩ := statement_begins h
  exact List.cons_ne_nil t more

/-- A statement that ends in a semicolon is refused without it. -/
theorem statement_refused {dangling : Bool} {us ts : List Token} {stmt : Stmt} :
    Statement true dangling us stmt → EndsIn us ts → StatementRefused ts stmt
  | .expression (.mk h _), hends => by
    obtain ⟨-, rfl⟩ := EndsIn.last _ hends
    exact .expression h
  | @Statement.forLoop _ keyword opening semicolon closing ts us vs ws init condition increment body _ hkeyword hopening
      hinit hcondition hsemicolon hincrement hclosing hbody, hends => by
    obtain ⟨ws', hws, rfl⟩ := EndsIn.behind (keyword :: opening :: (ts ++ (us ++ semicolon :: (vs ++ [closing]))))
      (by simpa using hends) (statement_ne_nil hbody)
    have hrefused := StatementRefused.forLoop hkeyword hopening hinit hcondition hsemicolon hincrement hclosing
      (statement_refused hbody hws)
    simpa using hrefused
  | @Statement.ifOnly _ keyword opening closing ts us condition yes _ hkeyword hopening hcondition hclosing hyes,
      hends => by
    obtain ⟨us', hus, rfl⟩ := EndsIn.behind (keyword :: opening :: (ts ++ [closing])) (by simpa using hends)
      (statement_ne_nil hyes)
    have hrefused := StatementRefused.ifOnly hkeyword hopening hcondition hclosing (statement_refused hyes hus)
    simpa using hrefused
  | @Statement.ifElse _ keyword opening closing other ts us vs condition yes no _ _ hkeyword
      hopening hcondition hclosing
      hyes hnearest hother hno, hends => by
    obtain ⟨vs', hvs, rfl⟩ := EndsIn.behind (keyword :: opening :: (ts ++ closing :: (us ++ [other])))
      (by simpa using hends) (statement_ne_nil hno)
    have hcomplete := statementCompletes hyes
    rw [hnearest rfl] at hcomplete
    have hrefused := StatementRefused.ifElse hkeyword hopening hcondition hclosing hcomplete hother
      (statement_refused hno hvs)
    simpa using hrefused
  | @Statement.print _ keyword _ ts _ hkeyword h _, hends => by
    obtain ⟨-, rfl⟩ := EndsIn.last (keyword :: ts) hends
    exact .print hkeyword h
  | @Statement.ret _ keyword _ ts _ hkeyword h _, hends => by
    obtain ⟨-, rfl⟩ := EndsIn.last (keyword :: ts) hends
    exact .ret hkeyword h
  | @Statement.whileLoop _ keyword opening closing ts us condition body _ hkeyword hopening hcondition hclosing hbody,
      hends => by
    obtain ⟨us', hus, rfl⟩ := EndsIn.behind (keyword :: opening :: (ts ++ [closing])) (by simpa using hends)
      (statement_ne_nil hbody)
    have hrefused := StatementRefused.whileLoop hkeyword hopening hcondition hclosing (statement_refused hbody hus)
    simpa using hrefused
  | @Statement.block _ opening closing ts _ _ _ hclosing, hends => by
    obtain ⟨hsemicolon, -⟩ := EndsIn.last (opening :: ts) hends
    rw [hclosing] at hsemicolon
    cases hsemicolon

theorem varDeclaration_refused {us ts : List Token} {stmt : Stmt} (h : VarDeclaration us stmt) (hends : EndsIn us ts)
    (n : Nat) {s : State} {keyword : Token} {rest : List Token} (hrest : s.rest = ts ++ keyword :: rest)
    (hkeyword : startsStatement keyword.kind = true) :
    Refused stmt.WithinLimits s.errors keyword rest (attempt n) s := by
  -- Both forms begin with the keyword and a name.
  have hbegins : ∀ {var name : Token} {more : List Token}, var.kind = .keyword .var → name.kind = .identifier →
      s.rest = var :: name :: more →
      Refused stmt.WithinLimits s.errors keyword rest (after? (isMark .equal) (expression n) >>= fun initializer =>
        expect (isMark .semicolon) (.noSemicolon "variable declaration") >>= fun _ => pure (Stmt.var name initializer))
        { s with rest := more } → Refused stmt.WithinLimits s.errors keyword rest (attempt n) s := by
    intro var name more hvar hname hs h
    refine .take?_none (lacks_of_next hs (by rw [hvar]; rfl)) (.take?_some hs (isKeyword_iff.mpr hvar) ?_)
    exact .expect_some rfl (isIdentifier_iff.mpr hname) h
  cases h with
  | @plain var name semicolon hvar hname hsemicolon =>
    obtain ⟨-, rfl⟩ := EndsIn.last [var, name] hends
    refine hbegins hvar hname hrest (.bind (P := fun a s' => a = none ∧ s' = { s with rest := keyword :: rest })
      (.after?_none (lacks_of_next rfl (test_of_startsStatement (by decide) hkeyword)) ⟨rfl, rfl⟩) ?_)
    rintro _ _ ⟨rfl, rfl⟩
    exact .expect_none rfl (test_of_startsStatement (by decide) hkeyword) fun _ => rfl
  | @initialized var name equals semicolon ts' e hvar hname hequals h hsemicolon =>
    obtain ⟨-, rfl⟩ := EndsIn.last (var :: name :: equals :: ts') hends
    have hvalue := fun n => expression_yields (n := n) (s := { s with rest := ts' ++ keyword :: rest }) h rfl
      (test_of_startsStatement (by decide) hkeyword)
    refine hbegins hvar hname hrest (.bind (.after?_some (P := Gives (Option.map Expr.unnumbered) (some e)
      e.WithinLimits s (keyword :: rest)) rfl (isMark_iff.mpr hequals) ?_) fun init s₁ hb => ?_)
    · exact (hvalue n).mono fun e' s₁ hb => ⟨congrArg some hb.view_eq, hb.rest, hb.errors⟩
    · exact .expect_none hb.rest (test_of_startsStatement (by decide) hkeyword) fun hlimits => hb.errors (hlimits _ rfl)

/-- A declaration that ends in a semicolon is refused without it. -/
theorem attempt_refused {us ts : List Token} {stmt : Stmt} (h : Declaration true us stmt) (hends : EndsIn us ts)
    (n : Nat) {s : State} {keyword : Token} {rest : List Token} (hrest : s.rest = ts ++ keyword :: rest)
    (hkeyword : startsStatement keyword.kind = true) :
    Refused stmt.WithinLimits s.errors keyword rest (attempt n) s := by
  cases h with
  | @function fn name opening closing brace last ts' us' params body _ _ _ _ _ _ _ hlast =>
    obtain ⟨hsemicolon, -⟩ := EndsIn.last (fn :: name :: opening :: (ts' ++ closing :: brace :: us'))
      (by simpa using hends)
    rw [hlast] at hsemicolon
    cases hsemicolon
  | var h => exact varDeclaration_refused h hends n hrest hkeyword
  | statement h =>
    obtain ⟨t, more, hus, ht⟩ := statement_begins h
    have hrefused := statement_refused h hends n s keyword rest hrest hkeyword
    -- No statement is a semicolon, so its first token is left.
    obtain ⟨semicolon, hsemicolon, hends⟩ := hends
    cases ts with
    | nil =>
      rw [hus] at hends
      cases hends
      rw [hsemicolon] at ht
      cases ht
    | cons u ts =>
      rw [hus] at hends
      cases hends
      have hlacks : ∀ {w : Keyword}, beginsStatement (.keyword w) = false → s.Lacks (isKeyword w) := fun {w} hw =>
        lacks_of_next hrest (Bool.eq_false_iff.mpr fun hk => by rw [isKeyword_iff.mp hk, hw] at ht; cases ht)
      exact .take?_none (hlacks rfl) (.take?_none (hlacks rfl) hrefused)

end

/-! ### Programs without their last semicolon -/

theorem Yields.and_final {α : Type} {p q : Parser α} {s : State} {P : α → State → Prop} (hp : Yields p s P)
    (h : Alike Recording p q) : Yields p s fun a s' => P a s' ∧ s'.final = s.final := by
  have hfinal := h.final_eq s
  unfold Yields at hp ⊢
  unfold final at hfinal
  cases hrun : p s with
  | ok a s' =>
    rw [hrun] at hp hfinal
    exact ⟨hp, hfinal⟩
  | error stop s' =>
    rw [hrun] at hp
    cases stop <;> exact hp

theorem Yields.behind {α : Type} {p q : Parser α} {s : State} {P : α → State → Prop} {before : Array SyntaxError}
    (h : Alike Recording p q) (hp : Yields p s fun a s' => P a (s'.behind before)) : Yields p (s.behind before) P := by
  unfold Yields at hp ⊢
  rw [h.behind before s]
  rcases hrun : p s with ⟨a, s'⟩ | ⟨e | _, s'⟩ <;> rw [hrun] at hp <;> exact hp

/-- Declarations are put behind those that were there before. -/
theorem declarations_done (n : Nat) (inBlock : Bool) (done : Array Stmt) (s : State) :
    declarations n inBlock done s = ((done ++ ·) <$> declarations n inBlock #[]) s := by
  induction n generalizing done s with
  | zero => rfl
  | succ n ih =>
    simp only [Functor.map, EStateM.map]
    by_cases hdone : s.Done inBlock
    · rw [declarations_of_done hdone, declarations_of_done hdone]
      simp
    · rw [declarations_of_not_done hdone, declarations_of_not_done hdone, bind_apply, bind_apply]
      cases declaration n s with
      | ok r s₁ =>
        dsimp only
        rw [ih (r.elim done done.push), ih (r.elim #[] #[].push)]
        simp only [Functor.map, EStateM.map]
        cases declarations n inBlock #[] s₁ with
        | ok all s' => cases r <;> simp
        | error stop s' => rfl
      | error stop s₁ => rfl

/-- The parse of a program, whatever fuel it gets, if that is enough. -/
theorem declarations_yields (tokens : List Token) (nextId : ExprId) (n : Nat) :
    Yields (declarations n false #[]) (.start tokens nextId) fun all s =>
      parse tokens nextId = ⟨all.toList, s.errors.toList, s.nextId⟩ := by
  obtain ⟨stmts, s, hparse⟩ := declarations_fuelFor tokens nextId
  have hsame : (∃ s', declarations n false #[] (.start tokens nextId) = .error .outOfFuel s') ∨
      declarations n false #[] (.start tokens nextId) = .ok stmts s := by
    rcases Nat.le_total n (fuelFor tokens) with hle | hle
    · exact (((statementsAlike hle).declarations false #[]).flatten.fuel _).imp_right (·.trans hparse)
    · exact .inr ((declarations_of_le nextId hle).trans hparse)
  unfold Yields
  rcases hsame with ⟨s', hrun⟩ | hrun
  · rw [hrun]
    trivial
  · rw [hrun, parse, hparse]

/-- Where this was parsed and found before, a parse goes on as if what is left stood alone. -/
theorem resumes_yields (tokens : List Token) (nextId : ExprId) (n : Nat) (done : Array Stmt)
    (before : Array SyntaxError) :
    Yields (declarations n false done) ((State.start tokens nextId).behind before) fun all s =>
      s.errors.toList = before.toList ++ (parse tokens nextId).errors ∧
        all.toList = done.toList ++ (parse tokens nextId).statements := by
  refine Yields.behind ((statementsAlike (Nat.le_refl n)).declarations false done).flatten ?_
  have hyields : Yields ((done ++ ·) <$> declarations n false #[]) (.start tokens nextId) fun all s =>
      (s.behind before).errors.toList = before.toList ++ (parse tokens nextId).errors ∧
        all.toList = done.toList ++ (parse tokens nextId).statements := by
    refine .map ((declarations_yields tokens nextId n).mono fun all s hparse => ?_)
    rw [hparse]
    exact ⟨Array.toList_append, Array.toList_append⟩
  unfold Yields at hyields ⊢
  rwa [declarations_done]

/-- An attempt that is refused at a keyword leaves what recovery does not drop. -/
theorem declaration_missed {limits : Prop} {s : State} {keyword : Token} {rest : List Token}
    (h : ∀ n, Refused limits s.errors keyword rest (attempt n) s) (n : Nat) :
    Yields (declaration n) s fun r s' => r = none ∧ s'.rest = recover (keyword :: rest) ∧
      (limits → ∃ cause, s'.errors = s.errors.push ⟨keyword, cause⟩) := by
  cases n with
  | zero => exact .zero
  | succ n =>
    have hattempt := h n
    rw [declaration_succ]
    unfold Refused at hattempt
    unfold Yields recovering
    rcases hrun : attempt n s with ⟨stmt, s'⟩ | ⟨⟨token, cause⟩ | _, s'⟩ <;> rw [hrun] at hattempt
    · exact hattempt.elim
    · obtain ⟨rfl, hrest, herrors⟩ := hattempt
      exact ⟨rfl, congrArg recover hrest, fun hlimits => ⟨cause, by dsimp only; rw [herrors hlimits]⟩⟩
    · trivial

theorem EndsIn.stops_else {us ts : List Token} (h : EndsIn us ts)
    (hbegins : ∃ t more, us = t :: more ∧ beginsDeclaration t.kind = true) {keyword : Token}
    (hkeyword : startsStatement keyword.kind = true) (rest : List Token) :
    Stops (isKeyword .else) (ts ++ keyword :: rest) := by
  obtain ⟨semicolon, -, rfl⟩ := h
  cases ts with
  | nil => exact stops_cons (test_of_startsStatement (by decide) hkeyword)
  | cons t ts =>
    obtain ⟨u, more, hu, hbegin⟩ := hbegins
    cases hu
    exact Parse.stops_else ⟨t, ts, rfl, hbegin⟩

theorem declarations_begin {nearest : Bool} {us : List Token} {ss : List Stmt} (h : Declarations nearest us ss) :
    (us = [] ∧ ss = []) ∨ (ss ≠ [] ∧ ∃ t more, us = t :: more ∧ beginsDeclaration t.kind = true) := by
  cases h with
  | nil => exact .inl ⟨rfl, rfl⟩
  | cons h hss =>
    obtain ⟨t, more, rfl, ht⟩ := declaration_begins h
    exact .inr ⟨List.cons_ne_nil _ _, t, _, rfl, ht⟩

/-- Declarations that end in a semicolon are parsed without it up to the last, which is given up at the keyword. -/
theorem declarations_missed {keyword : Token} {rest : List Token} (hkeyword : startsStatement keyword.kind = true) :
    ∀ {us ts : List Token} {ss : List Stmt}, Declarations true us ss → EndsIn us ts →
      ∀ {n : Nat} {done : Array Stmt} {s : State} {P : Array Stmt → State → Prop}, s.rest = ts ++ keyword :: rest →
        (∀ k done' s', Stmt.unnumberedAll done'.toList = Stmt.unnumberedAll done.toList ++ ss.dropLast →
          s'.rest = recover (keyword :: rest) → s'.final = s.final →
          (Stmt.WithinLimitsAll ss → ∃ cause, s'.errors.toList = s.errors.toList ++ [⟨keyword, cause⟩]) →
          Yields (declarations k false done') s' P) →
        Yields (declarations n false done) s P
  | _, ts, _, .nil, hends, _, _, _, _, _, _ => by
    obtain ⟨semicolon, -, hnil⟩ := hends
    exact absurd hnil.symm (List.append_ne_nil_of_right_ne_nil ts (List.cons_ne_nil semicolon []))
  | _, _, _, .cons _ _, _, 0, _, _, _, _, _ => .zero
  | _, ts, _, @Declarations.cons _ us vs stmt ss h hss, hends, n + 1, done, s, P, hrest, hP => by
    have hnot : ¬ s.Done false := by
      rintro (hnil | ⟨hfalse, -⟩)
      · rw [hrest] at hnil
        exact List.append_ne_nil_of_right_ne_nil ts (List.cons_ne_nil keyword rest) hnil
      · cases hfalse
    have halike := (statementsAlike (Nat.le_refl n)).declaration.flatten
    unfold Yields
    rw [declarations_of_not_done hnot]
    rcases declarations_begin hss with ⟨rfl, rfl⟩ | ⟨hne, hbegins⟩
    · rw [List.append_nil] at hends
      have hmissed := declaration_missed (fun n => attempt_refused h hends n hrest hkeyword) n
      refine Yields.bind ((hmissed.and_final halike).mono ?_)
      rintro r s' ⟨⟨rfl, hrest', herrors⟩, hfinal⟩
      refine hP n done s' (List.append_nil _).symm hrest' hfinal fun hlimits => ?_
      obtain ⟨cause, hcause⟩ := herrors hlimits.1
      exact ⟨cause, by rw [hcause, Array.toList_push]⟩
    · have hvs : vs ≠ [] := by
        obtain ⟨t, more, rfl, -⟩ := hbegins
        exact List.cons_ne_nil t more
      obtain ⟨ts', hends', rfl⟩ := EndsIn.behind us hends hvs
      rw [List.append_assoc] at hrest
      have hgives := declarationCompletes h n s _ hrest (hends'.stops_else hbegins hkeyword rest)
      refine Yields.bind ((hgives.and_final halike).mono ?_)
      rintro r s₁ ⟨hr, hfinal⟩
      have htree := hr.view_eq
      cases r with
      | none => cases htree
      | some stmt' =>
        refine declarations_missed hkeyword hss hends' hr.rest fun k done' s' hdone hrest' hfinal' herrors => ?_
        refine hP k done' s' ?_ hrest' (hfinal'.trans hfinal) fun hlimits => ?_
        · rw [hdone, Option.elim, Array.toList_push, stmt_unnumberedAll_append, List.dropLast_cons_of_ne_nil hne,
            ← Option.some.inj htree, List.append_assoc]
          rfl
        · obtain ⟨cause, hcause⟩ := herrors hlimits.2
          exact ⟨cause, by rw [hcause, hr.errors hlimits.1, List.append_nil]⟩

/-- What a parse goes on with that was refused at the first of these tokens. -/
def behindFirst (tokens : List Token) : List Token := recover (body tokens) ++ [finalOf tokens]

theorem finalOf_append {ts us : List Token} (hts : ∀ t ∈ ts, t.isEnd = false) (hus : us ≠ []) :
    finalOf (ts ++ us) = finalOf us := by
  have hfind : (ts ++ us).find? (·.isEnd) = us.find? (·.isEnd) := by
    rw [List.find?_append, List.find?_eq_none.mpr fun t ht => by simp [hts t ht], Option.none_or]
  have hlast : (ts ++ us).getLast? = us.getLast? := by
    rw [List.getLast?_append, List.getLast?_eq_some_getLast hus, Option.some_or]
  rw [finalOf, finalOf, hfind, hlast]

theorem start_behindFirst (tokens : List Token) (nextId : ExprId) :
    State.start (behindFirst tokens) nextId = ⟨recover (body tokens), finalOf tokens, #[], nextId⟩ := by
  have hno : ∀ t ∈ recover (body tokens), t.isEnd = false := fun t ht =>
    not_end_of_mem_body ((recover_suffix (body tokens)).mem ht)
  have hend := finalOf_isEnd tokens
  have hfinal : finalOf [finalOf tokens] = finalOf tokens := by
    rw [finalOf, List.find?_cons_of_pos hend]
  rw [State.start, behindFirst, body_ended hno hend, finalOf_append hno (List.cons_ne_nil _ _), hfinal]

/-- Without its last semicolon and in front of a keyword that starts a statement, a program without errors loses its
    last statement, with an error at the keyword. Recovery drops the keyword, and what it leaves of the tokens from
    there on is parsed as if it stood alone. -/
theorem parse_missing_semicolon {p q : List Token} {semicolon keyword : Token} {i : ExprId}
    (hclean : (parse (p ++ [semicolon]) i).errors = []) (hend : ∀ t ∈ p, t.isEnd = false)
    (hsemicolon : semicolon.kind = .mark .semicolon) (hkeyword : startsStatement keyword.kind = true) (j : ExprId) :
    ∃ cause k, (parse (p ++ keyword :: q) j).errors = ⟨keyword, cause⟩ ::
      (parse (behindFirst (keyword :: q)) k).errors ∧
      Stmt.unnumberedAll (parse (p ++ keyword :: q) j).statements =
        (Stmt.unnumberedAll (parse (p ++ [semicolon]) i).statements).dropLast ++
          Stmt.unnumberedAll (parse (behindFirst (keyword :: q)) k).statements := by
  obtain ⟨hprogram, hlimits⟩ := parse_sound hclean
  have hwhole : body (p ++ [semicolon]) = p ++ [semicolon] := by
    rw [body_append hend, body, List.takeWhile_cons_of_pos (by simp [Token.isEnd, hsemicolon]), List.takeWhile_nil]
  rw [hwhole] at hprogram
  have hbody : body (keyword :: q) = keyword :: body q := by
    have hno : keyword.isEnd = false := by
      unfold Token.isEnd
      cases hkind : keyword.kind with
      | endOfInput => simp [startsStatement, hkind] at hkeyword
      | keyword _ | mark _ | identifier | string _ | number _ => rfl
    exact List.takeWhile_cons_of_pos (by simp [hno])
  obtain ⟨stmts, s, hrun⟩ := declarations_fuelFor (p ++ keyword :: q) j
  have hyields : Yields (declarations (fuelFor (p ++ keyword :: q)) false #[])
      (.start (p ++ keyword :: q) j) fun all s' =>
      ∃ cause k, s'.errors.toList = ⟨keyword, cause⟩ :: (parse (behindFirst (keyword :: q)) k).errors ∧
        Stmt.unnumberedAll all.toList = (Stmt.unnumberedAll (parse (p ++ [semicolon]) i).statements).dropLast ++
          Stmt.unnumberedAll (parse (behindFirst (keyword :: q)) k).statements := by
    have hrest : (State.start (p ++ keyword :: q) j).rest = p ++ keyword :: body q := by
      rw [State.start, body_append hend, hbody]
    refine declarations_missed hkeyword hprogram ⟨semicolon, hsemicolon, rfl⟩ hrest ?_
    intro m done s' hdone hrest hfinal herrors
    obtain ⟨cause, hcause⟩ := herrors hlimits
    -- From here on the parse is that of the tokens left, but for what was found and parsed before.
    have hs' : s' = (State.start (behindFirst (keyword :: q)) s'.nextId).behind #[⟨keyword, cause⟩] := by
      obtain ⟨rest, final, errors, nextId⟩ := s'
      simp only [State.start, List.nil_append] at hrest hfinal hcause
      rw [finalOf_append hend (List.cons_ne_nil keyword q)] at hfinal
      rw [start_behindFirst, hbody, State.behind, hrest, hfinal, Array.append_empty]
      have herrors : errors = #[⟨keyword, cause⟩] := Array.toList_inj.mp hcause
      rw [herrors]
    rw [hs']
    refine (resumes_yields (behindFirst (keyword :: q)) s'.nextId m done _).mono fun all s'' hends => ?_
    refine ⟨cause, s'.nextId, hends.1, ?_⟩
    rw [hends.2, stmt_unnumberedAll_append, hdone]
    rfl
  have hresult := hyields.of_ok hrun
  rw [parse, hrun]
  exact hresult

/-- In `print a print b;` the second statement is lost up to its semicolon, and `print c;` is left behind it. -/
theorem parse_missing_semicolon_print :
    let token (kind : Kind) (lexeme : String) : Token := ⟨kind, lexeme, 1⟩
    let print := token (.keyword .print) "print"
    let name (lexeme : String) := token .identifier lexeme
    let semicolon := token (.mark .semicolon) ";"
    let p := [print, name "a"]
    let q := [name "b", semicolon, print, name "c", semicolon]
    (parse (p ++ [semicolon]) 0).errors = [] ∧ (∀ t ∈ p, t.isEnd = false) ∧ startsStatement print.kind = true ∧
      behindFirst (print :: q) = [print, name "c", semicolon, .atEnd 1] ∧
      ∃ cause k, (parse (p ++ print :: q) 0).errors = ⟨print, cause⟩ :: (parse (behindFirst (print :: q)) k).errors ∧
        Stmt.unnumberedAll (parse (p ++ print :: q) 0).statements =
          (Stmt.unnumberedAll (parse (p ++ [semicolon]) 0).statements).dropLast ++
            Stmt.unnumberedAll (parse (behindFirst (print :: q)) k).statements := by
  intro token print name semicolon p q
  have hclean : (parse (p ++ [semicolon]) 0).errors = [] := by decide +kernel
  exact ⟨hclean, by decide, rfl, rfl, parse_missing_semicolon hclean (by decide) rfl rfl 0⟩

/-- The statement that the keyword starts does not come out of the parse: nothing is left of `print a print b;`. -/
theorem statement_lost_with_semicolon :
    let token (kind : Kind) (lexeme : String) : Token := ⟨kind, lexeme, 1⟩
    let print := token (.keyword .print) "print"
    let name (lexeme : String) := token .identifier lexeme
    let semicolon := token (.mark .semicolon) ";"
    let p := [print, name "a"]
    let q := [print, name "b", semicolon]
    (parse (p ++ [semicolon]) 0).errors = [] ∧ (parse q 0).errors = [] ∧ (parse (p ++ q) 0).errors.length = 1 ∧
      ¬ Stmt.unnumberedAll (parse q 0).statements <:+ Stmt.unnumberedAll (parse (p ++ q) 0).statements := by
  intro token print name semicolon p q
  have hnone : Stmt.unnumberedAll (parse (p ++ q) 0).statements = [] := by rfl
  have hone : Stmt.unnumberedAll (parse q 0).statements = [.print (.var 0 (name "b"))] := by rfl
  refine ⟨by decide +kernel, by decide +kernel, by decide +kernel, fun hsuffix => ?_⟩
  rw [hnone, hone] at hsuffix
  cases List.suffix_nil.mp hsuffix

end Parse
end Lox
