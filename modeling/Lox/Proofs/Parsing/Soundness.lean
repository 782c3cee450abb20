import Lox.Proofs.Parsing.Fuel
import Lox.Proofs.Parsing.Grammar

/-! # What is parsed without errors

Where a parsing function gives a result and no error is recorded, the tokens it has read derive the
result in the grammar, with every `else` at the nearest `if`, and all calls and functions are within
their limits (`statementsSound`). -/

namespace Lox
namespace Parse
open Grammar

/-! ### Kinds of tokens -/

theorem admits_iff {level : Level} {k : Kind} : level.admits k = true ↔ k ∈ operators level := by
  cases level <;> cases k with
  | mark m => cases m <;> simp [Level.admits, operators]
  | keyword w => cases w <;> simp [Level.admits, operators]
  | identifier | string _ | number _ | endOfInput => simp [Level.admits, operators]

theorem literal?_eq_some_iff {k : Kind} {v : Literal} : literal? k = some v ↔ Constant k v := by
  constructor
  · intro h
    cases k with
    | keyword w =>
      cases w <;> simp [literal?] at h <;> subst h <;> constructor
    | number x =>
      cases h
      constructor
    | string s =>
      cases h
      constructor
    | mark _ | identifier | endOfInput => simp [literal?] at h
  · intro h
    cases h <;> rfl

theorem isPrefixOperator_iff {k : Kind} : isPrefixOperator k = true ↔ k = .mark .bang ∨ k = .mark .minus := by
  cases k with
  | mark m => cases m <;> simp [isPrefixOperator]
  | keyword _ | identifier | string _ | number _ | endOfInput => simp [isPrefixOperator]

theorem join_unnumbered (level : Level) (l r : Expr) (operator : Token) :
    (level.join l operator r).unnumbered = joined level l.unnumbered operator r.unnumbered := by
  cases level <;> rfl

theorem joined_withinLimits {level : Level} {l r : Expr} {operator : Token} :
    (joined level l operator r).WithinLimits ↔ l.WithinLimits ∧ r.WithinLimits := by
  cases level <;> rfl

theorem unnumberedAll_append (es fs : List Expr) :
    Expr.unnumberedAll (es ++ fs) = Expr.unnumberedAll es ++ Expr.unnumberedAll fs := by
  induction es with
  | nil => rfl
  | cons e es ih => simp only [List.cons_append, Expr.unnumberedAll, ih]

theorem length_unnumberedAll (es : List Expr) : (Expr.unnumberedAll es).length = es.length := by
  induction es with
  | nil => rfl
  | cons e es ih => simp only [Expr.unnumberedAll, List.length_cons, ih]

theorem stmt_unnumberedAll_append (ss ts : List Stmt) :
    Stmt.unnumberedAll (ss ++ ts) = Stmt.unnumberedAll ss ++ Stmt.unnumberedAll ts := by
  induction ss with
  | nil => rfl
  | cons s ss ih => simp only [List.cons_append, Stmt.unnumberedAll, ih]

/-- Only an identifier by itself is derived as a variable. -/
theorem derives_var : ∀ {c : Category} {ts : List Token} {e : Expr} {name : Token}, Derives c ts e → e = .var 0 name →
    ts = [name] ∧ name.kind = .identifier
  | _, _, _, _, .assign .., he => by cases he
  | _, _, _, _, .chain h, he => derives_var h he
  | _, _, _, _, .operand h, he => derives_var h he
  | _, _, _, _, @Derives.join level .., he => by cases level <;> cases he
  | _, _, _, _, .sign .., he => by cases he
  | _, _, _, _, .called h, he => derives_var h he
  | _, _, _, _, .callee h, he => derives_var h he
  | _, _, _, _, .call .., he => by cases he
  | _, _, _, _, .constant .., he => by cases he
  | _, _, _, _, .variable h, he => by
    cases he
    exact ⟨rfl, h⟩
  | _, _, _, _, .grouping .., he => by cases he

/-! ### Expressions -/

theorem State.Takes.clean {s s' : State} {test : Kind → Bool} {t : Token} (h : s.Takes test t s')
    (hs' : s'.errors = #[]) : s.errors = #[] := h.advances.errors hs'

/-- Between the two states an expression of this category has been read. -/
def State.Reads (s s' : State) (c : Category) (e : Expr) : Prop :=
  ∃ ts, s.rest = ts ++ s'.rest ∧ Derives c ts e.unnumbered ∧ e.unnumbered.WithinLimits

/-- Without errors, what parsing functions of expressions give with this fuel is derived. -/
structure ExpressionsSound (n : Nat) : Prop where
  expression : ∀ {s s' : State} {e : Expr}, expression n s = .ok e s' → s'.errors = #[] → s.Reads s' .assignment e
  binary : ∀ {level : Level} {s s' : State} {e : Expr}, binary n level s = .ok e s' → s'.errors = #[] →
    s.Reads s' (.chain level) e
  chain : ∀ {level : Level} {left : Expr} {s s' : State} {e : Expr} {ts : List Token},
    chain n level left s = .ok e s' → s'.errors = #[] → Derives (.chain level) ts left.unnumbered →
      left.unnumbered.WithinLimits →
        ∃ us, s.rest = us ++ s'.rest ∧ Derives (.chain level) (ts ++ us) e.unnumbered ∧ e.unnumbered.WithinLimits
  unary : ∀ {s s' : State} {e : Expr}, unary n s = .ok e s' → s'.errors = #[] → s.Reads s' .unary e
  calls : ∀ {callee : Expr} {s s' : State} {e : Expr} {ts : List Token}, calls n callee s = .ok e s' →
    s'.errors = #[] → Derives .call ts callee.unnumbered → callee.unnumbered.WithinLimits →
      ∃ us, s.rest = us ++ s'.rest ∧ Derives .call (ts ++ us) e.unnumbered ∧ e.unnumbered.WithinLimits
  arguments : ∀ {done args : Array Expr} {s s' : State}, arguments n done s = .ok args s' → s'.errors = #[] →
    ∃ ts es, s.rest = ts ++ s'.rest ∧ args.toList = done.toList ++ es ∧ args.size ≤ 255 ∧
      ArgumentList ts (Expr.unnumberedAll es) ∧ Expr.WithinLimitsAll (Expr.unnumberedAll es)
  primary : ∀ {s s' : State} {e : Expr}, primary n s = .ok e s' → s'.errors = #[] → s.Reads s' .primary e

namespace ExpressionsSound
variable {n : Nat} {s s' : State} {e : Expr} (ih : ExpressionsSound n)
include ih

theorem operand {level : Level} (h : operand n level s = .ok e s') (hs' : s'.errors = #[]) :
    s.Reads s' (Grammar.operand level) e := by
  cases level with
  | factor => exact ih.unary h hs'
  | or | and | equality | comparison | term => exact ih.binary h hs'

theorem expression_succ (h : Parse.expression (n + 1) s = .ok e s') (hs' : s'.errors = #[]) :
    s.Reads s' .assignment e := by
  obtain ⟨target, s₁, ht, h⟩ := expression_ok h
  rcases h with ⟨-, rfl, rfl⟩ | ⟨equals, s₂, value, s₃, heq, hv, h⟩
  · obtain ⟨ts, hrest, hd, hl⟩ := ih.binary ht hs'
    exact ⟨ts, hrest, .chain hd, hl⟩
  · rcases h with ⟨id, name, rfl, rfl, rfl⟩ | ⟨-, rfl⟩
    · have hs₂ := ((expressionsAdvance n).expression.of_ok hv).errors hs'
      obtain ⟨ts, hrest, hd, -⟩ := ih.binary ht (heq.clean hs₂)
      obtain ⟨us, hrest', hd', hl'⟩ := ih.expression hv hs'
      obtain ⟨rfl, hname⟩ := derives_var hd rfl
      refine ⟨name :: equals :: us, ?_, .assign hname (isMark_iff.mp heq.test) hd', hl'⟩
      rw [hrest, heq.rest, hrest']
      rfl
    · simp at hs'

theorem binary_succ {level : Level} (h : Parse.binary (n + 1) level s = .ok e s') (hs' : s'.errors = #[]) :
    s.Reads s' (.chain level) e := by
  obtain ⟨left, s₁, hl, h⟩ := binary_ok h
  have hs₁ := ((expressionsAdvance n).chain level left |>.of_ok h).errors hs'
  obtain ⟨ts, hrest, hd, hlimits⟩ := ih.operand hl hs₁
  obtain ⟨us, hrest', hd', hlimits'⟩ := ih.chain h hs' (.operand hd) hlimits
  refine ⟨ts ++ us, ?_, hd', hlimits'⟩
  rw [hrest, hrest', List.append_assoc]

theorem chain_succ {level : Level} {left : Expr} {ts : List Token} (h : Parse.chain (n + 1) level left s = .ok e s')
    (hs' : s'.errors = #[]) (hleft : Derives (.chain level) ts left.unnumbered)
    (hlimits : left.unnumbered.WithinLimits) :
    ∃ us, s.rest = us ++ s'.rest ∧ Derives (.chain level) (ts ++ us) e.unnumbered ∧ e.unnumbered.WithinLimits := by
  rcases chain_ok h with ⟨-, rfl, rfl⟩ | ⟨operator, s₁, right, s₂, hop, hr, h⟩
  · exact ⟨[], rfl, by rwa [List.append_nil], hlimits⟩
  · have hs₂ := ((expressionsAdvance n).chain level _ |>.of_ok h).errors hs'
    obtain ⟨us, hrest, hd, hlimits'⟩ := ih.operand hr hs₂
    have hjoin : Derives (.chain level) (ts ++ operator :: us) (level.join left operator right).unnumbered := by
      rw [join_unnumbered]
      exact .join hleft (admits_iff.mp hop.test) hd
    have hjoinLimits : (level.join left operator right).unnumbered.WithinLimits := by
      rw [join_unnumbered]
      exact joined_withinLimits.mpr ⟨hlimits, hlimits'⟩
    obtain ⟨vs, hrest', hd', hlimits''⟩ := ih.chain h hs' hjoin hjoinLimits
    refine ⟨operator :: us ++ vs, ?_, ?_, hlimits''⟩
    · rw [hop.rest, hrest, hrest']
      simp
    · rw [List.append_assoc] at hd'
      exact hd'

theorem unary_succ (h : Parse.unary (n + 1) s = .ok e s') (hs' : s'.errors = #[]) : s.Reads s' .unary e := by
  rcases unary_ok h with ⟨operator, s₁, right, hop, hr, rfl⟩ | ⟨-, callee, s₁, hc, h⟩
  · obtain ⟨ts, hrest, hd, hlimits⟩ := ih.unary hr hs'
    refine ⟨operator :: ts, ?_, .sign (isPrefixOperator_iff.mp hop.test) hd, hlimits⟩
    rw [hop.rest, hrest]
    rfl
  · have hs₁ := ((expressionsAdvance n).calls callee |>.of_ok h).errors hs'
    obtain ⟨ts, hrest, hd, hlimits⟩ := ih.primary hc hs₁
    obtain ⟨us, hrest', hd', hlimits'⟩ := ih.calls h hs' (.callee hd) hlimits
    refine ⟨ts ++ us, ?_, .called hd', hlimits'⟩
    rw [hrest, hrest', List.append_assoc]

theorem calls_succ {callee : Expr} {ts : List Token} (h : Parse.calls (n + 1) callee s = .ok e s')
    (hs' : s'.errors = #[]) (hcallee : Derives .call ts callee.unnumbered)
    (hlimits : callee.unnumbered.WithinLimits) :
    ∃ us, s.rest = us ++ s'.rest ∧ Derives .call (ts ++ us) e.unnumbered ∧ e.unnumbered.WithinLimits := by
  rcases calls_ok h with ⟨-, rfl, rfl⟩ | ⟨opening, s₁, args, s₂, paren, s₃, hopening, hargs, hparen, h⟩
  · exact ⟨[], rfl, by rwa [List.append_nil], hlimits⟩
  · have hs₃ := ((expressionsAdvance n).calls _ |>.of_ok h).errors hs'
    have hall : ∃ us, s₁.rest = us ++ s₂.rest ∧ Arguments us (Expr.unnumberedAll args.toList) ∧
        args.toList.length ≤ 255 ∧ Expr.WithinLimitsAll (Expr.unnumberedAll args.toList) := by
      rcases hargs with ⟨rfl, rfl⟩ | ha
      · exact ⟨[], rfl, .none, Nat.zero_le _, trivial⟩
      · obtain ⟨us, es, hrest, hes, hsize, hd, hlimits⟩ := ih.arguments ha (hparen.clean hs₃)
        have hargs : args.toList = es := hes
        rw [← hargs] at hd hlimits
        exact ⟨us, hrest, .some hd, by simpa using hsize, hlimits⟩
    obtain ⟨us, hrest, hargs, hlength, hargsLimits⟩ := hall
    have hcall : Derives .call (ts ++ opening :: (us ++ [paren])) (Expr.call callee paren args.toList).unnumbered :=
      .call hcallee (isMark_iff.mp hopening.test) hargs (isMark_iff.mp hparen.test)
    have hcallLimits : (Expr.call callee paren args.toList).unnumbered.WithinLimits :=
      ⟨hlimits, by rwa [length_unnumberedAll], hargsLimits⟩
    obtain ⟨vs, hrest', hd', hlimits'⟩ := ih.calls h hs' hcall hcallLimits
    refine ⟨opening :: (us ++ [paren]) ++ vs, ?_, ?_, hlimits'⟩
    · rw [hopening.rest, hrest, hparen.rest, hrest']
      simp
    · rw [List.append_assoc] at hd'
      exact hd'

theorem arguments_succ {done args : Array Expr} (h : Parse.arguments (n + 1) done s = .ok args s')
    (hs' : s'.errors = #[]) :
    ∃ ts es, s.rest = ts ++ s'.rest ∧ args.toList = done.toList ++ es ∧ args.size ≤ 255 ∧
      ArgumentList ts (Expr.unnumberedAll es) ∧ Expr.WithinLimitsAll (Expr.unnumberedAll es) := by
  obtain ⟨s₁, e, s₂, hcheck, he, hmore⟩ := arguments_ok h
  have hs₂ : s₂.errors = #[] := by
    rcases hmore with ⟨-, -, rfl⟩ | ⟨comma, s₃, hcomma, h⟩
    · exact hs'
    · exact hcomma.clean (((expressionsAdvance n).arguments _ |>.of_ok h).errors hs')
  have hs₁ := ((expressionsAdvance n).expression.of_ok he).errors hs₂
  obtain ⟨ts, hrest, hd, hlimits⟩ := ih.expression he hs₂
  rcases checkArity_ok hcheck with ⟨hsize, rfl⟩ | rfl
  · rcases hmore with ⟨-, rfl, rfl⟩ | ⟨comma, s₃, hcomma, h⟩
    · refine ⟨ts, [e], hrest, Array.toList_push, ?_, .last hd, hlimits, trivial⟩
      rw [Array.size_push]
      exact hsize
    · obtain ⟨us, es, hrest', hes, hargs, hd', hlimits'⟩ := ih.arguments h hs'
      refine ⟨ts ++ comma :: us, e :: es, ?_, ?_, hargs, .more hd (isMark_iff.mp hcomma.test) hd', hlimits, hlimits'⟩
      · rw [hrest, hcomma.rest, hrest']
        simp
      · rw [hes, Array.toList_push, List.append_assoc, List.singleton_append]
  · simp at hs₁

theorem primary_succ (h : Parse.primary (n + 1) s = .ok e s') (hs' : s'.errors = #[]) : s.Reads s' .primary e := by
  obtain ⟨t, s₁, ht, h⟩ := primary_ok h
  rcases h with ⟨v, hv, rfl, rfl⟩ | ⟨-, hi, rfl, rfl⟩ | ⟨hnone, hi, inner, s₂, paren, hinner, hparen, rfl⟩
  · exact ⟨[t], ht.rest, .constant (literal?_eq_some_iff.mp hv), trivial⟩
  · exact ⟨[t], ht.rest, .variable (isIdentifier_iff.mp hi), trivial⟩
  · obtain ⟨ts, hrest, hd, hlimits⟩ := ih.expression hinner (hparen.clean hs')
    have hopening : t.kind = .mark .leftParen := by
      have htest := ht.test
      rw [isAtom, hnone, hi] at htest
      exact isMark_iff.mp (by simpa using htest)
    refine ⟨t :: (ts ++ [paren]), ?_, .grouping hopening hd (isMark_iff.mp hparen.test), hlimits⟩
    rw [ht.rest, hrest, hparen.rest]
    simp

end ExpressionsSound

theorem expressionsSound : ∀ n, ExpressionsSound n
  | 0 => ⟨nofun, nofun, nofun, nofun, nofun, nofun, nofun⟩
  | n + 1 =>
    have ih := expressionsSound n
    { expression := ih.expression_succ
      binary := ih.binary_succ
      chain := ih.chain_succ
      unary := ih.unary_succ
      calls := ih.calls_succ
      arguments := ih.arguments_succ
      primary := ih.primary_succ }

/-! ### Statements -/

section
variable {n : Nat} {s s' : State} {stmt : Stmt}

theorem expression_sound {e : Expr} (h : expression n s = .ok e s') (hs' : s'.errors = #[]) :
    s.Reads s' .assignment e :=
  (expressionsSound n).expression h hs'

theorem expression_clean {e : Expr} (h : expression n s = .ok e s') (hs' : s'.errors = #[]) : s.errors = #[] :=
  ((expression_advancing n).of_ok h).errors hs'

theorem maybe_sound {e? : Option Expr} (h : Maybe n s e? s') (hs' : s'.errors = #[]) :
    s.errors = #[] ∧ ∃ ts, s.rest = ts ++ s'.rest ∧ Grammar.Maybe ts (e?.map Expr.unnumbered) ∧
      Expr.WithinLimits? (e?.map Expr.unnumbered) := by
  rcases h with ⟨rfl, rfl⟩ | ⟨e, he, rfl⟩
  · exact ⟨hs', [], rfl, .none, by simp [Expr.WithinLimits?]⟩
  · obtain ⟨ts, hrest, hd, hlimits⟩ := expression_sound he hs'
    exact ⟨expression_clean he hs', ts, hrest, .some hd, by simpa [Expr.WithinLimits?] using hlimits⟩

theorem expressionStatement_sound (h : expressionStatement n s = .ok stmt s') (hs' : s'.errors = #[]) :
    ∃ ts, s.rest = ts ++ s'.rest ∧ ExpressionStatement ts stmt.unnumbered ∧ stmt.unnumbered.WithinLimits := by
  obtain ⟨e, s₁, semicolon, he, hsemicolon, rfl⟩ := expressionStatement_ok h
  obtain ⟨ts, hrest, hd, hlimits⟩ := expression_sound he (hsemicolon.clean hs')
  refine ⟨ts ++ [semicolon], ?_, .mk hd (isMark_iff.mp hsemicolon.test), hlimits⟩
  rw [hrest, hsemicolon.rest]
  simp

theorem varDeclaration_sound (h : varDeclaration n s = .ok stmt s') (hs' : s'.errors = #[]) {keyword : Token}
    (hkeyword : keyword.kind = .keyword .var) :
    ∃ ts, keyword :: s.rest = ts ++ s'.rest ∧ VarDeclaration ts stmt.unnumbered ∧ stmt.unnumbered.WithinLimits := by
  obtain ⟨name, s₁, init, s₂, semicolon, hname, hinit, hsemicolon, rfl⟩ := varDeclaration_ok h
  have hid := isIdentifier_iff.mp hname.test
  have hend := isMark_iff.mp hsemicolon.test
  rcases hinit with ⟨rfl, rfl⟩ | ⟨equals, s₃, e, heq, he, rfl⟩
  · refine ⟨[keyword, name, semicolon], ?_, .plain hkeyword hid hend, ?_⟩
    · rw [hname.rest, hsemicolon.rest]
      rfl
    · simp [Stmt.unnumbered, Stmt.WithinLimits, Expr.WithinLimits?]
  · obtain ⟨ts, hrest, hd, hlimits⟩ := expression_sound he (hsemicolon.clean hs')
    refine ⟨keyword :: name :: equals :: (ts ++ [semicolon]), ?_,
      .initialized hkeyword hid (isMark_iff.mp heq.test) hd hend,
      by simpa [Stmt.unnumbered, Stmt.WithinLimits, Expr.WithinLimits?] using hlimits⟩
    rw [hname.rest, heq.rest, hrest, hsemicolon.rest]
    simp

theorem forInitializer_sound {init : Option Stmt} (h : forInitializer n s = .ok init s') (hs' : s'.errors = #[]) :
    ∃ ts, s.rest = ts ++ s'.rest ∧ ForInitializer ts (Stmt.unnumbered? init) ∧
      Stmt.WithinLimits? (Stmt.unnumbered? init) := by
  rcases forInitializer_ok h with ⟨semicolon, ht, rfl⟩ | ⟨keyword, s₁, decl, hk, hd, rfl⟩ | ⟨stmt, hd, rfl⟩
  · exact ⟨[semicolon], ht.rest, .none (isMark_iff.mp ht.test), trivial⟩
  · obtain ⟨ts, hrest, hvar, hlimits⟩ := varDeclaration_sound hd hs' (isKeyword_iff.mp hk.test)
    exact ⟨ts, by rw [hk.rest, hrest], .var hvar, hlimits⟩
  · obtain ⟨ts, hrest, hstmt, hlimits⟩ := expressionStatement_sound hd hs'
    exact ⟨ts, hrest, .expression hstmt, hlimits⟩

theorem condition_sound {keyword clause : String} {e : Expr} (h : condition n keyword clause s = .ok e s')
    (hs' : s'.errors = #[]) :
    ∃ opening ts closing, s.rest = opening :: (ts ++ closing :: s'.rest) ∧ opening.kind = .mark .leftParen ∧
      closing.kind = .mark .rightParen ∧ Derives .assignment ts e.unnumbered ∧ e.unnumbered.WithinLimits := by
  obtain ⟨opening, s₁, s₂, closing, hopening, he, hclosing⟩ := condition_ok h
  obtain ⟨ts, hrest, hd, hlimits⟩ := expression_sound he (hclosing.clean hs')
  refine ⟨opening, ts, closing, ?_, isMark_iff.mp hopening.test, isMark_iff.mp hclosing.test, hd, hlimits⟩
  rw [hopening.rest, hrest, hclosing.rest]

theorem parameters_sound : ∀ {n : Nat} {done ps : Array Token} {s s' : State}, parameters n done s = .ok ps s' →
    s'.errors = #[] → ∃ ts more, s.rest = ts ++ s'.rest ∧ ps.toList = done.toList ++ more ∧ ps.size ≤ 255 ∧
      ParameterList ts more
  | 0, _, _, _, _, h, _ => by cases h
  | n + 1, done, ps, s, s', h, hs' => by
    obtain ⟨s₁, p, s₂, hcheck, hp, hmore⟩ := parameters_ok h
    have hid := isIdentifier_iff.mp hp.test
    have hs₁ : s₁.errors = #[] := by
      refine hp.clean ?_
      rcases hmore with ⟨-, -, rfl⟩ | ⟨comma, s₃, hcomma, h⟩
      · exact hs'
      · exact hcomma.clean ((parameters_advancing n _).of_ok h |>.errors hs')
    rcases checkArity_ok hcheck with ⟨hsize, rfl⟩ | rfl
    · rcases hmore with ⟨-, rfl, rfl⟩ | ⟨comma, s₃, hcomma, h⟩
      · refine ⟨[p], [p], hp.rest, Array.toList_push, ?_, .last hid⟩
        rw [Array.size_push]
        exact hsize
      · obtain ⟨ts, more, hrest, hps, hall, hd⟩ := parameters_sound h hs'
        refine ⟨p :: comma :: ts, p :: more, ?_, ?_, hall, .more hid (isMark_iff.mp hcomma.test) hd⟩
        · rw [hp.rest, hcomma.rest, hrest]
          simp
        · rw [hps, Array.toList_push, List.append_assoc, List.singleton_append]
    · simp at hs₁

theorem toStmt_unnumbered (clauses : ForClauses) (body : Stmt) :
    (clauses.toStmt body).unnumbered = forLoop (Stmt.unnumbered? clauses.initializer)
      (clauses.condition.map Expr.unnumbered) (clauses.increment.map Expr.unnumbered) body.unnumbered := by
  obtain ⟨init, condition, increment⟩ := clauses
  cases init <;> cases condition <;> cases increment <;> rfl

end

/-- Between the two states a statement has been read. If it ends in an `if` that could take an `else`, no
    `else` follows. -/
def State.ReadsStatement (s s' : State) (stmt : Stmt) : Prop :=
  ∃ dangling ts, s.rest = ts ++ s'.rest ∧ Statement true dangling ts stmt.unnumbered ∧
    stmt.unnumbered.WithinLimits ∧ (dangling = true → s'.Lacks (isKeyword .else))

/-- Without errors, what parsing functions of statements give with this fuel is derived. -/
structure StatementsSound (n : Nat) : Prop where
  statement : ∀ {s s' : State} {stmt : Stmt}, statement n s = .ok stmt s' → s'.errors = #[] → s.ReadsStatement s' stmt
  function : ∀ {s s' : State} {stmt : Stmt} {keyword : Token}, function n s = .ok stmt s' → s'.errors = #[] →
    keyword.kind = .keyword .fun → ∃ ts, keyword :: s.rest = ts ++ s'.rest ∧ Declaration true ts stmt.unnumbered ∧
      stmt.unnumbered.WithinLimits
  declaration : ∀ {s s' : State} {r : Option Stmt}, declaration n s = .ok r s' → s'.errors = #[] →
    ∃ stmt ts, r = some stmt ∧ s.rest = ts ++ s'.rest ∧ Declaration true ts stmt.unnumbered ∧
      stmt.unnumbered.WithinLimits
  block : ∀ {s s' : State} {body : List Stmt}, block n s = .ok body s' → s'.errors = #[] →
    ∃ ts closing, s.rest = ts ++ closing :: s'.rest ∧ closing.kind = .mark .rightBrace ∧
      Declarations true ts (Stmt.unnumberedAll body) ∧ Stmt.WithinLimitsAll (Stmt.unnumberedAll body)
  declarations : ∀ {inBlock : Bool} {done all : Array Stmt} {s s' : State}, declarations n inBlock done s = .ok all s' →
    s'.errors = #[] → ∃ ts ss, s.rest = ts ++ s'.rest ∧ all.toList = done.toList ++ ss ∧ s'.Done inBlock ∧
      Declarations true ts (Stmt.unnumberedAll ss) ∧ Stmt.WithinLimitsAll (Stmt.unnumberedAll ss)

namespace StatementsSound
variable {n : Nat} {s s' : State} {stmt : Stmt} (ih : StatementsSound n)
include ih

theorem inner {t : Token} (h : InnerOk n t s s' stmt) (hs' : s'.errors = #[]) :
    ∃ dangling ts, s.rest = ts ++ s'.rest ∧ Statement true dangling (t :: ts) stmt.unnumbered ∧
      stmt.unnumbered.WithinLimits ∧ (dangling = true → s'.Lacks (isKeyword .else)) := by
  cases h with
  | counted ht hclauses hbody =>
    obtain ⟨dangling, ws, hrest, hd, hlimits, helse⟩ := ih.statement hbody hs'
    have hs₂ := ((statementsAdvance n).statement.of_ok hbody).errors hs'
    obtain ⟨opening, t₁, t₂, t₃, semicolon, t₄, t₅, closing, hopening, hinit, hcondition, hsemicolon, hincrement,
      hclosing⟩ := forClauses_ok hclauses
    obtain ⟨ht₄, vs, hrest₃, hd₃, hlimits₃⟩ := maybe_sound hincrement (hclosing.clean hs₂)
    obtain ⟨ht₂, us, hrest₂, hd₂, hlimits₂⟩ := maybe_sound hcondition (hsemicolon.clean ht₄)
    obtain ⟨ts, hrest₁, hd₁, hlimits₁⟩ := forInitializer_sound hinit ht₂
    refine ⟨dangling, opening :: (ts ++ (us ++ semicolon :: (vs ++ closing :: ws))), ?_, ?_, ?_, helse⟩
    · rw [hopening.rest, hrest₁, hrest₂, hsemicolon.rest, hrest₃, hclosing.rest, hrest]
      simp
    · rw [toStmt_unnumbered]
      exact .forLoop ht (isMark_iff.mp hopening.test) hd₁ hd₂ (isMark_iff.mp hsemicolon.test) hd₃
        (isMark_iff.mp hclosing.test) hd
    · rw [toStmt_unnumbered]
      exact forLoop_withinLimits.mpr ⟨hlimits₁, hlimits₂, hlimits₃, hlimits⟩
  | @branch e s₂ yes s₃ no ht he hyes hno =>
    have hs₃ : s₃.errors = #[] := by
      rcases hno with ⟨-, -, rfl⟩ | ⟨keyword, s₄, other, helse, hother, -⟩
      · exact hs'
      · exact helse.clean (((statementsAdvance n).statement.of_ok hother).errors hs')
    obtain ⟨danglingYes, us, hrest₁, hd₁, hlimits₁, helse₁⟩ := ih.statement hyes hs₃
    have hs₂ := ((statementsAdvance n).statement.of_ok hyes).errors hs₃
    obtain ⟨opening, ts, closing, hrest, hopening, hclosing, hd, hlimits⟩ := condition_sound he hs₂
    rcases hno with ⟨hlacks, rfl, rfl⟩ | ⟨keyword, s₄, other, helse, hother, rfl⟩
    · refine ⟨true, opening :: (ts ++ closing :: us), ?_, .ifOnly ht hopening hd hclosing hd₁,
        ⟨hlimits, hlimits₁, trivial⟩, fun _ => hlacks⟩
      rw [hrest, hrest₁]
      simp
    · obtain ⟨dangling, vs, hrest₂, hd₂, hlimits₂, helse₂⟩ := ih.statement hother hs'
      have hnearest : danglingYes = false := by
        refine Bool.eq_false_iff.mpr ?_
        intro hdangling
        have hlacks := helse₁ hdangling keyword s₄.rest helse.rest
        rw [helse.test] at hlacks
        cases hlacks
      refine ⟨dangling, opening :: (ts ++ closing :: (us ++ keyword :: vs)), ?_,
        .ifElse ht hopening hd hclosing hd₁ (fun _ => hnearest) (isKeyword_iff.mp helse.test) hd₂,
        ⟨hlimits, hlimits₁, hlimits₂⟩, helse₂⟩
      rw [hrest, hrest₁, helse.rest, hrest₂]
      simp
  | print ht h =>
    obtain ⟨e, s₁, semicolon, he, hsemicolon, rfl⟩ := printStatement_ok h
    obtain ⟨ts, hrest, hd, hlimits⟩ := expression_sound he (hsemicolon.clean hs')
    refine ⟨false, ts ++ [semicolon], ?_, .print ht hd (isMark_iff.mp hsemicolon.test), hlimits, nofun⟩
    rw [hrest, hsemicolon.rest]
    simp
  | ret ht h =>
    obtain ⟨value, s₁, semicolon, hvalue, hsemicolon, rfl⟩ := returnStatement_ok h
    obtain ⟨-, ts, hrest, hd, hlimits⟩ := maybe_sound hvalue (hsemicolon.clean hs')
    refine ⟨false, ts ++ [semicolon], ?_, .ret ht hd (isMark_iff.mp hsemicolon.test), hlimits, nofun⟩
    rw [hrest, hsemicolon.rest]
    simp
  | loop ht he hbody =>
    obtain ⟨dangling, us, hrest₁, hd₁, hlimits₁, helse⟩ := ih.statement hbody hs'
    have hs₂ := ((statementsAdvance n).statement.of_ok hbody).errors hs'
    obtain ⟨opening, ts, closing, hrest, hopening, hclosing, hd, hlimits⟩ := condition_sound he hs₂
    refine ⟨dangling, opening :: (ts ++ closing :: us), ?_, .whileLoop ht hopening hd hclosing hd₁, ⟨hlimits, hlimits₁⟩,
      helse⟩
    rw [hrest, hrest₁]
    simp
  | block ht h =>
    obtain ⟨ts, closing, hrest, hclosing, hd, hlimits⟩ := ih.block h hs'
    refine ⟨false, ts ++ [closing], ?_, .block ht hd hclosing, hlimits, nofun⟩
    rw [hrest]
    simp

theorem statement_succ (h : Parse.statement (n + 1) s = .ok stmt s') (hs' : s'.errors = #[]) :
    s.ReadsStatement s' stmt := by
  rcases statement_ok h with ⟨-, h⟩ | ⟨t, s₁, ht, h⟩
  · obtain ⟨ts, hrest, hd, hlimits⟩ := expressionStatement_sound h hs'
    exact ⟨false, ts, hrest, .expression hd, hlimits, nofun⟩
  · obtain ⟨dangling, ts, hrest, hd, hlimits, helse⟩ := ih.inner h hs'
    refine ⟨dangling, t :: ts, ?_, hd, hlimits, helse⟩
    rw [ht.rest, hrest]
    rfl

theorem function_succ {keyword : Token} (h : Parse.function (n + 1) s = .ok stmt s') (hs' : s'.errors = #[])
    (hkeyword : keyword.kind = .keyword .fun) :
    ∃ ts, keyword :: s.rest = ts ++ s'.rest ∧ Declaration true ts stmt.unnumbered ∧ stmt.unnumbered.WithinLimits := by
  obtain ⟨name, s₁, opening, s₂, ps, s₃, closing, s₄, brace, s₅, body, hname, hopening, hps, hclosing, hbrace, hbody,
    rfl⟩ := function_ok h
  obtain ⟨us, last, hrest, hlast, hd, hlimits⟩ := ih.block hbody hs'
  have hs₅ := ((statementsAdvance n).block.of_ok hbody).errors hs'
  have hparams : ∃ ts, s₂.rest = ts ++ s₃.rest ∧ Parameters ts ps.toList ∧ ps.toList.length ≤ 255 := by
    rcases hps with ⟨rfl, rfl⟩ | hps
    · exact ⟨[], rfl, .none, Nat.zero_le _⟩
    · obtain ⟨ts, more, hrest, hmore, hsize, hlist⟩ := parameters_sound hps (hclosing.clean (hbrace.clean hs₅))
      have hmore : ps.toList = more := hmore
      rw [← hmore] at hlist
      exact ⟨ts, hrest, .some hlist, by simpa using hsize⟩
  obtain ⟨ts, hrest', hparams, hlength⟩ := hparams
  refine ⟨keyword :: name :: opening :: (ts ++ closing :: brace :: (us ++ [last])), ?_,
    .function hkeyword (isIdentifier_iff.mp hname.test) (isMark_iff.mp hopening.test) hparams
      (isMark_iff.mp hclosing.test) (isMark_iff.mp hbrace.test) hd hlast, hlength, hlimits⟩
  rw [hname.rest, hopening.rest, hrest', hclosing.rest, hbrace.rest, hrest]
  simp

theorem declaration_succ {r : Option Stmt} (h : Parse.declaration (n + 1) s = .ok r s') (hs' : s'.errors = #[]) :
    ∃ stmt ts, r = some stmt ∧ s.rest = ts ++ s'.rest ∧ Declaration true ts stmt.unnumbered ∧
      stmt.unnumbered.WithinLimits := by
  rcases declaration_ok h with ⟨stmt, ha, rfl⟩ | ⟨e, s₁, -, -, rfl⟩
  · refine ⟨stmt, ?_⟩
    rcases attempt_ok ha with ⟨keyword, s₁, hk, h⟩ | ⟨keyword, s₁, hk, h⟩ | ⟨-, -, h⟩
    · obtain ⟨ts, hrest, hd, hlimits⟩ := ih.function h hs' (isKeyword_iff.mp hk.test)
      exact ⟨ts, rfl, by rw [hk.rest, hrest], hd, hlimits⟩
    · obtain ⟨ts, hrest, hd, hlimits⟩ := varDeclaration_sound h hs' (isKeyword_iff.mp hk.test)
      exact ⟨ts, rfl, by rw [hk.rest, hrest], .var hd, hlimits⟩
    · obtain ⟨dangling, ts, hrest, hd, hlimits, -⟩ := ih.statement h hs'
      exact ⟨ts, rfl, hrest, .statement hd, hlimits⟩
  · simp at hs'

theorem block_succ {body : List Stmt} (h : Parse.block (n + 1) s = .ok body s') (hs' : s'.errors = #[]) :
    ∃ ts closing, s.rest = ts ++ closing :: s'.rest ∧ closing.kind = .mark .rightBrace ∧
      Declarations true ts (Stmt.unnumberedAll body) ∧ Stmt.WithinLimitsAll (Stmt.unnumberedAll body) := by
  obtain ⟨done, s₁, brace, hd, hbrace, rfl⟩ := block_ok h
  obtain ⟨ts, ss, hrest, hss, -, hdecls, hlimits⟩ := ih.declarations hd (hbrace.clean hs')
  have hss : done.toList = ss := hss
  rw [hss]
  exact ⟨ts, brace, by rw [hrest, hbrace.rest], isMark_iff.mp hbrace.test, hdecls, hlimits⟩

theorem declarations_succ {inBlock : Bool} {done all : Array Stmt}
    (h : Parse.declarations (n + 1) inBlock done s = .ok all s') (hs' : s'.errors = #[]) :
    ∃ ts ss, s.rest = ts ++ s'.rest ∧ all.toList = done.toList ++ ss ∧ s'.Done inBlock ∧
      Declarations true ts (Stmt.unnumberedAll ss) ∧ Stmt.WithinLimitsAll (Stmt.unnumberedAll ss) := by
  rcases declarations_ok h with ⟨hdone, rfl, rfl⟩ | ⟨-, r, s₁, hr, h⟩
  · exact ⟨[], [], rfl, (List.append_nil _).symm, hdone, .nil, trivial⟩
  · have hs₁ := ((statementsAdvance n).declarations inBlock _ |>.of_ok h).errors hs'
    obtain ⟨stmt, ts, rfl, hrest, hd, hlimits⟩ := ih.declaration hr hs₁
    obtain ⟨us, ss, hrest', hss, hdone, hds, hlimits'⟩ := ih.declarations h hs'
    refine ⟨ts ++ us, stmt :: ss, ?_, ?_, hdone, .cons hd hds, hlimits, hlimits'⟩
    · rw [hrest, hrest', List.append_assoc]
    · rw [hss, Option.elim, Array.toList_push, List.append_assoc, List.singleton_append]

end StatementsSound

theorem statementsSound : ∀ n, StatementsSound n
  | 0 => ⟨nofun, nofun, nofun, nofun, nofun⟩
  | n + 1 =>
    have ih := statementsSound n
    { statement := ih.statement_succ
      function := ih.function_succ
      declaration := ih.declaration_succ
      block := ih.block_succ
      declarations := ih.declarations_succ }

/-- A parse without errors has derived the program from all tokens before the end marker. -/
theorem parse_sound {tokens : List Token} {nextId : ExprId} (h : (parse tokens nextId).errors = []) :
    Program true (body tokens) (Stmt.unnumberedAll (parse tokens nextId).statements) ∧
      Stmt.WithinLimitsAll (Stmt.unnumberedAll (parse tokens nextId).statements) := by
  obtain ⟨stmts, s, hparse⟩ := declarations_fuelFor tokens nextId
  unfold parse at h ⊢
  rw [hparse] at h ⊢
  have herrors : s.errors = #[] := by simpa using h
  obtain ⟨ts, ss, hrest, hss, hdone, hd, hlimits⟩ := (statementsSound _).declarations hparse herrors
  have hss : stmts.toList = ss := hss
  have hempty : s.rest = [] := hdone.resolve_right fun hd => by cases hd.1
  have hrest : body tokens = ts := by
    have hall : body tokens = ts ++ s.rest := hrest
    rwa [hempty, List.append_nil] at hall
  rw [hrest]
  dsimp only
  rw [hss]
  exact ⟨hd, hlimits⟩

end Parse
end Lox
