import Lox.Proofs.Parsing.Progress

/-! # Fuel of a parse

No parsing function runs out of fuel that gets sixteen units for each token that is left, and a few more
for the calls above the next token (`Lasts`). A whole parse gets as much, so it always comes to a result
(`declarations_fuelFor`). -/

namespace Lox.Parse

/-- Does not run out of fuel from this state. -/
def Lasts {α : Type} (x : Parser α) (s : State) : Prop := ∀ s', x s ≠ .error .outOfFuel s'

/-- `n` units are enough for the tokens that are left and `k` calls above the next. -/
def State.Fits (s : State) (k n : Nat) : Prop := 16 * s.rest.length + k ≤ n

namespace State
variable {s s' : State} {j k n : Nat}

theorem Fits.calls (h : s.Fits k (n + 1)) (hj : j < k) : s.Fits j n := by
  unfold Fits at *
  omega

theorem Fits.mono (h : s.Fits k n) (hj : j ≤ k) : s.Fits j n := by
  unfold Fits at *
  omega

theorem Fits.takes {test : Kind → Bool} {t : Token} (h : s.Fits k n) (ht : s.Takes test t s') : s'.Fits (k + 16) n := by
  unfold Fits at *
  have := ht.length_eq
  omega

theorem Fits.advances (h : s.Fits k n) (hs : s.Advances s') : s'.Fits k n := by
  unfold Fits at *
  have := hs.length_le
  omega

theorem Fits.rest (h : s.Fits k n) (hs : s'.rest = s.rest) : s'.Fits k n := by
  unfold Fits at *
  rwa [hs]

end State

/-! ### Sequences -/

namespace Lasts
variable {α β : Type} {x : Parser α} {f : α → Parser β} {s : State} {a : α}

theorem pure : Lasts (pure a) s := fun _ h => by cases h

theorem refuse {cause : SyntaxError.Cause} : Lasts (refuse cause : Parser α) s := fun _ h => by cases h

theorem bind (hx : Lasts x s) (hf : ∀ a s', x s = .ok a s' → Lasts (f a) s') : Lasts (x >>= f) s := by
  intro s' h
  rw [bind_apply] at h
  cases hxs : x s with
  | ok a s₁ =>
    rw [hxs] at h
    exact hf a s₁ hxs s' h
  | error stop s₁ =>
    rw [hxs] at h
    cases h
    exact hx s' hxs

theorem map {g : α → β} (hx : Lasts x s) : Lasts (g <$> x) s := hx.bind fun _ _ _ => pure

theorem take? (test : Kind → Bool) : Lasts (take? test) s := by
  intro s' h
  unfold Parse.take? at h
  split at h
  · cases h
  · split at h <;> cases h

theorem take?_bind {test : Kind → Bool} {f : Option Token → Parser β} (hnone : Lasts (f none) s)
    (hsome : ∀ t s', s.Takes test t s' → Lasts (f (some t)) s') : Lasts (Parse.take? test >>= f) s := by
  refine (take? test).bind fun r s' hr => ?_
  rcases take?_ok hr with ⟨rfl, rfl, -⟩ | ⟨t, rfl, ht⟩
  · exact hnone
  · exact hsome t s' ht

theorem expect_bind {test : Kind → Bool} {cause : SyntaxError.Cause} {f : Token → Parser β}
    (hf : ∀ t s', s.Takes test t s' → Lasts (f t) s') : Lasts (expect test cause >>= f) s := by
  refine Lasts.bind ?_ fun t s' ht => hf t s' (expect_ok ht)
  exact take?_bind refuse fun _ _ _ => pure

theorem checkArity_bind {size : Nat} {cause : SyntaxError.Cause} {f : Unit → Parser β}
    (hf : ∀ s', s'.rest = s.rest → Lasts (f ()) s') : Lasts (checkArity size cause >>= f) s := by
  refine Lasts.bind ?_ fun _ s' hs' => hf s' ?_
  · unfold Parse.checkArity
    split <;> exact fun _ h => by cases h
  · rcases checkArity_ok hs' with ⟨-, rfl⟩ | rfl <;> rfl

theorem unlessNext {test : Kind → Bool} (hx : Lasts x s) : Lasts (unlessNext test a x) s := by
  refine Lasts.bind (fun _ h => by cases h) fun b s' hb => ?_
  obtain ⟨rfl, -⟩ := sees_ok hb
  cases b with
  | true => exact pure
  | false => exact hx

theorem after? {test : Kind → Bool} (hx : ∀ t s', s.Takes test t s' → Lasts x s') : Lasts (after? test x) s :=
  take?_bind pure fun t s' ht => (hx t s' ht).map

end Lasts

/-! ### Expressions -/

/-- How many calls stand above the next token of a chain of operators. -/
def height : Level → Nat
  | .or => 8
  | .and => 7
  | .equality => 6
  | .comparison => 5
  | .term => 4
  | .factor => 3

/-- No parsing function of expressions runs out of this fuel. -/
structure ExpressionsLast (n : Nat) : Prop where
  expression : ∀ s : State, s.Fits 9 n → Lasts (expression n) s
  binary : ∀ (level : Level) (s : State), s.Fits (height level) n → Lasts (binary n level) s
  chain : ∀ (level : Level) (left : Expr) (s : State), s.Fits 1 n → Lasts (chain n level left) s
  unary : ∀ s : State, s.Fits 2 n → Lasts (unary n) s
  calls : ∀ (callee : Expr) (s : State), s.Fits 1 n → Lasts (calls n callee) s
  arguments : ∀ (done : Array Expr) (s : State), s.Fits 10 n → Lasts (arguments n done) s
  primary : ∀ s : State, s.Fits 1 n → Lasts (primary n) s

namespace ExpressionsLast
variable {n : Nat} {s s' : State} (ih : ExpressionsLast n)
include ih

theorem operand {level : Level} (h : s.Fits (height level - 1) n) : Lasts (operand n level) s := by
  cases level with
  | factor => exact ih.unary s h
  | or | and | equality | comparison | term => exact ih.binary _ s h

theorem expression_succ (h : s.Fits 9 (n + 1)) : Lasts (Parse.expression (n + 1)) s := by
  rw [Parse.expression]
  refine (ih.binary .or s (h.calls (by decide))).bind fun target s₁ ht => ?_
  have h₁ := h.advances ((expressionsAdvance n).binary .or |>.of_ok ht)
  refine .take?_bind .pure fun equals s₂ heq => ?_
  refine (ih.expression s₂ ((h₁.takes heq).calls (by omega))).bind fun value s₃ _ => ?_
  split
  · exact fun _ h => by cases h
  · exact fun _ h => by cases h

theorem binary_succ {level : Level} (h : s.Fits (height level) (n + 1)) : Lasts (Parse.binary (n + 1) level) s := by
  rw [Parse.binary]
  have hpos : 3 ≤ height level := by cases level <;> decide
  refine (ih.operand (h.calls (by omega))).bind fun left s₁ hl => ?_
  exact ih.chain level left s₁ ((h.calls (by omega)).advances ((expressionsAdvance n).operand level |>.of_ok hl))

theorem chain_succ {level : Level} {left : Expr} (h : s.Fits 1 (n + 1)) : Lasts (Parse.chain (n + 1) level left) s := by
  rw [Parse.chain]
  refine .take?_bind .pure fun operator s₁ hop => ?_
  have h₁ := h.takes hop
  have hle : height level ≤ 8 := by cases level <;> decide
  refine (ih.operand (h₁.calls (by omega))).bind fun right s₂ hr => ?_
  exact ih.chain level _ s₂ ((h₁.calls (by omega)).advances ((expressionsAdvance n).operand level |>.of_ok hr))

theorem unary_succ (h : s.Fits 2 (n + 1)) : Lasts (Parse.unary (n + 1)) s := by
  rw [Parse.unary]
  refine .take?_bind ?_ fun operator s₁ hop => ?_
  · refine (ih.primary s (h.calls (by omega))).bind fun callee s₁ hc => ?_
    exact ih.calls callee s₁ ((h.calls (by omega)).advances ((expressionsAdvance n).primary.of_ok hc))
  · exact (ih.unary s₁ ((h.takes hop).calls (by omega))).bind fun _ _ _ => .pure

theorem calls_succ {callee : Expr} (h : s.Fits 1 (n + 1)) : Lasts (Parse.calls (n + 1) callee) s := by
  rw [Parse.calls]
  refine .take?_bind .pure fun opening s₁ hopening => ?_
  have h₁ := h.takes hopening
  refine (ih.arguments #[] s₁ (h₁.calls (by omega))).unlessNext.bind fun args s₂ hargs => ?_
  have h₂ := h₁.advances ((expressionsAdvance n).arguments #[] |>.unlessNext.of_ok hargs)
  exact .expect_bind fun paren s₃ hp => ih.calls _ s₃ ((h₂.takes hp).calls (by omega))

theorem arguments_succ {done : Array Expr} (h : s.Fits 10 (n + 1)) : Lasts (Parse.arguments (n + 1) done) s := by
  rw [Parse.arguments]
  refine .checkArity_bind fun s₁ hs₁ => ?_
  have h₁ := h.rest hs₁
  refine (ih.expression s₁ (h₁.calls (by omega))).bind fun e s₂ he => ?_
  have h₂ := h₁.advances ((expression_advancing n).of_ok he)
  exact .take?_bind .pure fun comma s₃ hc => ih.arguments _ s₃ ((h₂.takes hc).calls (by omega))

theorem primary_succ (h : s.Fits 1 (n + 1)) : Lasts (Parse.primary (n + 1)) s := by
  rw [Parse.primary]
  refine .take?_bind .refuse fun t s₁ ht => ?_
  dsimp only
  split
  · exact .pure
  · split
    · exact fun _ h => by cases h
    · refine (ih.expression s₁ ((h.takes ht).calls (by omega))).bind fun inner s₂ _ => ?_
      exact .expect_bind fun _ _ _ => .pure

end ExpressionsLast

theorem expressionsLast : ∀ n, ExpressionsLast n
  | 0 => by
    refine ⟨?_, fun level => ?_, ?_, ?_, ?_, ?_, ?_⟩ <;> intros <;> rename_i h <;> unfold State.Fits at h
    all_goals first | omega | (cases level <;> simp [height] at h)
  | n + 1 =>
    have ih := expressionsLast n
    { expression := fun _ => ih.expression_succ
      binary := fun _ _ => ih.binary_succ
      chain := fun _ _ _ => ih.chain_succ
      unary := fun _ => ih.unary_succ
      calls := fun _ _ => ih.calls_succ
      arguments := fun _ _ => ih.arguments_succ
      primary := fun _ => ih.primary_succ }

/-! ### Statements -/

section
variable {n : Nat} {s : State}

theorem expressionStatement_lasts (h : s.Fits 9 n) : Lasts (expressionStatement n) s :=
  ((expressionsLast n).expression s h).bind fun _ _ _ => .expect_bind fun _ _ _ => .pure

theorem varDeclaration_lasts (h : s.Fits 0 n) : Lasts (varDeclaration n) s :=
  .expect_bind fun _ s₁ hname => by
    have h₁ := h.takes hname
    refine Lasts.bind (.after? fun _ s₂ heq => (expressionsLast n).expression s₂ ((h₁.takes heq).mono (by omega))) ?_
    exact fun _ _ _ => .expect_bind fun _ _ _ => .pure

theorem printStatement_lasts (h : s.Fits 9 n) : Lasts (printStatement n) s :=
  ((expressionsLast n).expression s h).bind fun _ _ _ => .expect_bind fun _ _ _ => .pure

theorem maybe_lasts {test : Kind → Bool} (h : s.Fits 9 n) : Lasts (unlessNext test none (some <$> expression n)) s :=
  ((expressionsLast n).expression s h).map.unlessNext

theorem maybe_advancing {test : Kind → Bool} : Advancing (unlessNext test none (some <$> expression n)) :=
  (expression_advancing n).map.unlessNext

theorem returnStatement_lasts {keyword : Token} (h : s.Fits 9 n) : Lasts (returnStatement n keyword) s :=
  (maybe_lasts h).bind fun _ _ _ => .expect_bind fun _ _ _ => .pure

theorem forInitializer_lasts (h : s.Fits 9 n) : Lasts (forInitializer n) s := by
  refine .take?_bind (.take?_bind ?_ fun keyword s₁ hk => ?_) fun _ _ _ => .pure
  · exact (expressionStatement_lasts h).map
  · exact (varDeclaration_lasts ((h.takes hk).mono (by omega))).map

theorem forClauses_lasts (h : s.Fits 9 n) : Lasts (forClauses n) s := by
  refine .expect_bind fun opening s₁ hopening => ?_
  have h₁ := (h.takes hopening).mono (j := 9) (by omega)
  refine (forInitializer_lasts h₁).bind fun init s₂ hinit => ?_
  have h₂ := h₁.advances ((forInitializer_advancing n).of_ok hinit)
  refine (maybe_lasts h₂).bind fun condition s₃ hcondition => ?_
  have h₃ := h₂.advances (maybe_advancing.of_ok hcondition)
  refine .expect_bind fun semicolon s₄ hsemicolon => ?_
  have h₄ := (h₃.takes hsemicolon).mono (j := 9) (by omega)
  exact (maybe_lasts h₄).bind fun _ _ _ => .expect_bind fun _ _ _ => .pure

theorem condition_lasts {keyword clause : String} (h : s.Fits 9 n) : Lasts (condition n keyword clause) s :=
  .expect_bind fun _ s₁ hopening =>
    ((expressionsLast n).expression s₁ ((h.takes hopening).mono (by omega))).bind fun _ _ _ =>
      .expect_bind fun _ _ _ => .pure

theorem parameters_lasts : ∀ {n : Nat} {done : Array Token} {s : State}, s.Fits 1 n → Lasts (parameters n done) s
  | 0, _, s, h => by
    unfold State.Fits at h
    omega
  | n + 1, done, s, h => by
    rw [parameters]
    refine .checkArity_bind fun s₁ hs₁ => .expect_bind fun p s₂ hp => .take?_bind .pure fun comma s₃ hc => ?_
    exact parameters_lasts ((((h.rest hs₁).takes hp).takes hc).calls (by omega))

end

/-- No parsing function of statements runs out of this fuel. -/
structure StatementsLast (n : Nat) : Prop where
  statement : ∀ s : State, s.Fits 10 n → Lasts (statement n) s
  function : ∀ s : State, s.Fits 1 n → Lasts (function n) s
  declaration : ∀ s : State, s.Fits 11 n → Lasts (declaration n) s
  block : ∀ s : State, s.Fits 13 n → Lasts (block n) s
  declarations : ∀ (inBlock : Bool) (done : Array Stmt) (s : State), s.Fits 12 n → Lasts (declarations n inBlock done) s

theorem Lasts.recovering {p : Parser Stmt} {s : State} (h : Lasts p s) : Lasts (recovering p) s := by
  intro s' hs'
  rw [Parse.recovering] at hs'
  cases hp : p s with
  | ok stmt s₁ => simp [hp] at hs'
  | error stop s₁ =>
    cases stop with
    | refused e => simp [hp] at hs'
    | outOfFuel => exact h s₁ hp

namespace StatementsLast
variable {n : Nat} {s s' : State} (ih : StatementsLast n)
include ih

theorem inner {t : Token} (h : s.Fits 25 n) : Lasts (inner n t) s := by
  have h₉ : s.Fits 9 n := h.mono (by omega)
  have hs := (statementsAdvance n).statement
  unfold Parse.inner
  split
  · refine (forClauses_lasts h₉).bind fun clauses s₁ hclauses => ?_
    have h₁ := h.advances ((forClauses_advancing n).of_ok hclauses)
    exact (ih.statement s₁ (h₁.mono (by omega))).bind fun _ _ _ => .pure
  · refine (condition_lasts h₉).bind fun e s₁ he => ?_
    have h₁ := h.advances ((condition_advancing n _ _).of_ok he)
    refine (ih.statement s₁ (h₁.mono (by omega))).bind fun yes s₂ hyes => ?_
    have h₂ := h₁.advances (hs.of_ok hyes)
    refine Lasts.bind (.after? fun _ s₃ helse => ih.statement s₃ ((h₂.takes helse).mono (by omega))) ?_
    exact fun _ _ _ => .pure
  · exact printStatement_lasts h₉
  · exact returnStatement_lasts h₉
  · refine (condition_lasts h₉).bind fun e s₁ he => ?_
    have h₁ := h.advances ((condition_advancing n _ _).of_ok he)
    exact (ih.statement s₁ (h₁.mono (by omega))).bind fun _ _ _ => .pure
  · exact (ih.block s (h.mono (by omega))).map

theorem statement_succ (h : s.Fits 10 (n + 1)) : Lasts (Parse.statement (n + 1)) s := by
  rw [Parse.statement_succ]
  refine .take?_bind (expressionStatement_lasts (h.calls (by omega))) fun t s₁ ht => ?_
  exact ih.inner ((h.takes ht).calls (by omega))

theorem function_succ (h : s.Fits 1 (n + 1)) : Lasts (Parse.function (n + 1)) s := by
  rw [Parse.function]
  refine .expect_bind fun name s₁ hname => .expect_bind fun opening s₂ hopening => ?_
  have h₂ := ((h.takes hname).takes hopening).calls (j := 32) (by omega)
  refine (parameters_lasts (h₂.mono (by omega))).unlessNext.bind fun ps s₃ hps => ?_
  have h₃ := h₂.advances ((parameters_advancing n #[]).unlessNext.of_ok hps)
  refine .expect_bind fun closing s₄ hclosing => .expect_bind fun brace s₅ hbrace => ?_
  exact (ih.block s₅ (((h₃.takes hclosing).takes hbrace).mono (by omega))).bind fun _ _ _ => .pure

theorem attempt (h : s.Fits 10 n) : Lasts (attempt n) s := by
  refine .take?_bind (.take?_bind (ih.statement s h) fun keyword s₁ hk => ?_) fun keyword s₁ hk => ?_
  · exact varDeclaration_lasts ((h.takes hk).mono (by omega))
  · exact ih.function s₁ ((h.takes hk).mono (by omega))

theorem block_succ (h : s.Fits 13 (n + 1)) : Lasts (Parse.block (n + 1)) s := by
  rw [Parse.block]
  exact (ih.declarations true #[] s (h.calls (by omega))).bind fun _ _ _ => .expect_bind fun _ _ _ => .pure

theorem declarations_succ {inBlock : Bool} {done : Array Stmt} (h : s.Fits 12 (n + 1)) :
    Lasts (Parse.declarations (n + 1) inBlock done) s := by
  rw [Parse.declarations]
  refine Lasts.bind (fun _ h => by cases h) fun b s₁ hb => ?_
  cases hb
  split
  · exact .pure
  · rename_i hrest
    refine Lasts.bind (fun _ h => by cases h) fun b s₁ hb => ?_
    cases hb
    split
    · exact .pure
    · refine (ih.declaration s (h.calls (by omega))).bind fun r s₁ hr => ?_
      have hlt := declaration_consumes (by simpa using hrest) hr
      have h₁ : s₁.Fits 12 n := by
        unfold State.Fits at *
        omega
      cases r <;> exact ih.declarations _ _ s₁ h₁

end StatementsLast

theorem statementsLast : ∀ n, StatementsLast n
  | 0 => by
    refine ⟨?_, ?_, ?_, ?_, ?_⟩ <;> intros <;> rename_i h <;> unfold State.Fits at h <;> omega
  | n + 1 =>
    have ih := statementsLast n
    { statement := fun _ => ih.statement_succ
      function := fun _ => ih.function_succ
      declaration := fun _ h => (ih.attempt (h.calls (by omega))).recovering
      block := fun _ => ih.block_succ
      declarations := fun _ _ _ => ih.declarations_succ }

theorem start_fits (tokens : List Token) (nextId : ExprId) : (State.start tokens nextId).Fits 12 (fuelFor tokens) := by
  have hle : (body tokens).length ≤ tokens.length := (List.takeWhile_sublist _).length_le
  unfold State.Fits State.start fuelFor
  dsimp only
  omega

/-- The parse of a program comes to a result. -/
theorem declarations_fuelFor (tokens : List Token) (nextId : ExprId) :
    ∃ stmts s, declarations (fuelFor tokens) false #[] (.start tokens nextId) = .ok stmts s := by
  have hlasts := (statementsLast (fuelFor tokens)).declarations false #[] _ (start_fits tokens nextId)
  cases h : declarations (fuelFor tokens) false #[] (.start tokens nextId) with
  | ok stmts s => exact ⟨stmts, s, rfl⟩
  | error stop s =>
    cases stop with
    | refused e => exact absurd h (declarations_not_refused _ _ _ _ _ _)
    | outOfFuel => exact absurd h (hlasts s)

end Lox.Parse
