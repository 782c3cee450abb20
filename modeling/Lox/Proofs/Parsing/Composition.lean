import Lox.Proofs.Parsing.Locality

/-! # What parsing functions are put together from

Every parsing function is put together from a few elementary steps, and in the same way with more fuel, except that
it goes on where it was cut off before (`Alike`). So what is kept by the elementary steps and by sequences of them is
kept by all parsing functions. Three such facts stand here: fuel that lasts gives the same result as more fuel, a
parse does not depend on the errors found before it, and it keeps its end marker. -/

namespace Lox.Parse

/-- A token is taken, or there is none whose kind passes the test. -/
theorem take?_cases (test : Kind → Bool) (s : State) :
    (s.Lacks test ∧ take? test s = .ok none s) ∨ ∃ t s', s.Takes test t s' ∧ take? test s = .ok (some t) s' := by
  cases hrun : take? test s with
  | ok r s' =>
    rcases take?_ok hrun with ⟨rfl, rfl, hl⟩ | ⟨t, rfl, ht⟩
    · exact .inl ⟨hl, rfl⟩
    · exact .inr ⟨t, s', ht, rfl⟩
  | error stop s' =>
    unfold take? at hrun
    split at hrun
    · cases hrun
    · split at hrun <;> cases hrun

/-! ### The same steps -/

/-- The two parsing functions are put together in the same way from elementary steps and from the pairs of `base`,
    but where the first is out of fuel the second may go on. -/
inductive Alike (base : ∀ α : Type, Parser α → Parser α → Prop) : ∀ {α : Type}, Parser α → Parser α → Prop
  | base {α : Type} {p q : Parser α} (h : base α p q) : Alike base p q
  | outOfFuel {α : Type} {q : Parser α} : Alike base outOfFuel q
  | pure {α : Type} (a : α) : Alike base (pure a) (pure a)
  | bind {α β : Type} {p q : Parser α} {f g : α → Parser β} (h : Alike base p q) (hf : ∀ a, Alike base (f a) (g a)) :
    Alike base (p >>= f) (q >>= g)
  | take? (test : Kind → Bool) : Alike base (take? test) (take? test)
  | sees (test : Kind → Bool) : Alike base (sees test) (sees test)
  | atEnd : Alike base atEnd atEnd
  | refuse {α : Type} (cause : SyntaxError.Cause) : Alike base (refuse cause : Parser α) (refuse cause)
  | recordHere (cause : SyntaxError.Cause) : Alike base (recordHere cause) (recordHere cause)
  | freshId : Alike base freshId freshId
  | recovering {p q : Parser Stmt} (h : Alike base p q) : Alike base (recovering p) (recovering q)

/-- An error recorded at a token that was read before. -/
inductive Recording : ∀ α : Type, Parser α → Parser α → Prop
  | record (e : SyntaxError) : Recording Unit (record e) (record e)

/-- An expression, the second with as much fuel or more. -/
inductive Reading : ∀ α : Type, Parser α → Parser α → Prop
  | expression {n m : Nat} (h : n ≤ m) : Reading Expr (expression n) (expression m)

namespace Alike
variable {base base' : ∀ α : Type, Parser α → Parser α → Prop} {α β : Type} {p q : Parser α}

theorem expand (h : Alike base p q) (hbase : ∀ {α : Type} {p q : Parser α}, base α p q → Alike base' p q) :
    Alike base' p q := by
  induction h with
  | base h => exact hbase h
  | outOfFuel => exact .outOfFuel
  | pure a => exact .pure a
  | bind _ _ ih ihf => exact .bind ih ihf
  | take? test => exact .take? test
  | sees test => exact .sees test
  | atEnd => exact .atEnd
  | refuse cause => exact .refuse cause
  | recordHere cause => exact .recordHere cause
  | freshId => exact .freshId
  | recovering _ ih => exact .recovering ih

theorem map {g : α → β} (h : Alike base p q) : Alike base (g <$> p) (g <$> q) := h.bind fun a => .pure (g a)

theorem expect (test : Kind → Bool) (cause : SyntaxError.Cause) :
    Alike base (expect test cause) (expect test cause) := by
  refine .bind (.take? test) fun r => ?_
  cases r with
  | none => exact .refuse cause
  | some t => exact .pure t

theorem unlessNext {test : Kind → Bool} {a : α} (h : Alike base p q) :
    Alike base (unlessNext test a p) (unlessNext test a q) := by
  refine .bind (.sees test) fun b => ?_
  cases b with
  | true => exact .pure a
  | false => exact h

theorem after? {test : Kind → Bool} (h : Alike base p q) : Alike base (after? test p) (after? test q) := by
  refine .bind (.take? test) fun r => ?_
  cases r with
  | none => exact .pure none
  | some _ => exact h.map

theorem checkArity (size : Nat) (cause : SyntaxError.Cause) :
    Alike base (checkArity size cause) (checkArity size cause) := by
  unfold Parse.checkArity
  split
  · exact .recordHere cause
  · exact .pure ()

end Alike

/-! ### Expressions -/

/-- The parsing functions of expressions take the same steps with both amounts of fuel. -/
structure ExpressionsAlike (n m : Nat) : Prop where
  expression : Alike Recording (expression n) (expression m)
  binary : ∀ level, Alike Recording (binary n level) (binary m level)
  chain : ∀ level left, Alike Recording (chain n level left) (chain m level left)
  unary : Alike Recording (unary n) (unary m)
  calls : ∀ callee, Alike Recording (calls n callee) (calls m callee)
  arguments : ∀ done, Alike Recording (arguments n done) (arguments m done)
  primary : Alike Recording (primary n) (primary m)

namespace ExpressionsAlike
variable {n m : Nat} (ih : ExpressionsAlike n m)
include ih

theorem operand (level : Level) : Alike Recording (operand n level) (operand m level) := by
  unfold Parse.operand
  cases level.tighter? with
  | none => exact ih.unary
  | some tighter => exact ih.binary tighter

theorem expression_succ : Alike Recording (Parse.expression (n + 1)) (Parse.expression (m + 1)) := by
  rw [Parse.expression_succ, Parse.expression_succ]
  refine (ih.binary .or).bind fun target => .bind (.take? _) fun r => ?_
  cases r with
  | none => exact .pure target
  | some equals =>
    refine ih.expression.bind fun value => ?_
    unfold assigned
    split
    · exact .bind .freshId fun id => .pure _
    · exact .bind (.base (.record _)) fun _ => .pure value

theorem binary_succ (level : Level) : Alike Recording (Parse.binary (n + 1) level) (Parse.binary (m + 1) level) := by
  rw [Parse.binary, Parse.binary]
  exact (ih.operand level).bind fun left => ih.chain level left

theorem chain_succ (level : Level) (left : Expr) :
    Alike Recording (Parse.chain (n + 1) level left) (Parse.chain (m + 1) level left) := by
  rw [Parse.chain, Parse.chain]
  refine .bind (.take? _) fun r => ?_
  cases r with
  | none => exact .pure left
  | some operator => exact (ih.operand level).bind fun right => ih.chain level _

theorem unary_succ : Alike Recording (Parse.unary (n + 1)) (Parse.unary (m + 1)) := by
  rw [Parse.unary, Parse.unary]
  refine .bind (.take? _) fun r => ?_
  cases r with
  | none => exact ih.primary.bind fun callee => ih.calls callee
  | some operator => exact ih.unary.bind fun right => .pure _

theorem calls_succ (callee : Expr) : Alike Recording (Parse.calls (n + 1) callee) (Parse.calls (m + 1) callee) := by
  rw [Parse.calls, Parse.calls]
  refine .bind (.take? _) fun r => ?_
  cases r with
  | none => exact .pure callee
  | some _ =>
    exact .bind (ih.arguments #[]).unlessNext fun args => .bind (.expect _ _) fun paren => ih.calls _

theorem arguments_succ (done : Array Expr) :
    Alike Recording (Parse.arguments (n + 1) done) (Parse.arguments (m + 1) done) := by
  rw [Parse.arguments, Parse.arguments]
  refine .bind (.checkArity _ _) fun _ => ih.expression.bind fun e => .bind (.take? _) fun r => ?_
  cases r with
  | none => exact .pure _
  | some _ => exact ih.arguments _

theorem atom (t : Token) : Alike Recording (Parse.atom n t) (Parse.atom m t) := by
  unfold Parse.atom
  split
  · exact .pure _
  · split
    · exact .bind .freshId fun id => .pure _
    · exact ih.expression.bind fun inner => .bind (.expect _ _) fun _ => .pure _

theorem primary_succ : Alike Recording (Parse.primary (n + 1)) (Parse.primary (m + 1)) := by
  rw [Parse.primary_succ, Parse.primary_succ]
  refine .bind (.take? _) fun r => ?_
  cases r with
  | none => exact .refuse _
  | some t => exact ih.atom t

end ExpressionsAlike

theorem expressionsAlike : ∀ {n m : Nat}, n ≤ m → ExpressionsAlike n m
  | 0, _, _ => ⟨.outOfFuel, fun _ => .outOfFuel, fun _ _ => .outOfFuel, .outOfFuel, fun _ => .outOfFuel,
      fun _ => .outOfFuel, .outOfFuel⟩
  | n + 1, 0, h => absurd h (Nat.not_succ_le_zero n)
  | _ + 1, _ + 1, h =>
    have ih := expressionsAlike (Nat.le_of_succ_le_succ h)
    { expression := ih.expression_succ
      binary := ih.binary_succ
      chain := ih.chain_succ
      unary := ih.unary_succ
      calls := ih.calls_succ
      arguments := ih.arguments_succ
      primary := ih.primary_succ }

/-! ### Statements -/

section
variable {n m : Nat}

theorem expression_alike (h : n ≤ m) : Alike Reading (expression n) (expression m) := .base (.expression h)

theorem expressionStatement_alike (h : n ≤ m) : Alike Reading (expressionStatement n) (expressionStatement m) :=
  (expression_alike h).bind fun _ => .bind (.expect _ _) fun _ => .pure _

theorem varDeclaration_alike (h : n ≤ m) : Alike Reading (varDeclaration n) (varDeclaration m) :=
  .bind (.expect _ _) fun _ => .bind (expression_alike h).after? fun _ => .bind (.expect _ _) fun _ => .pure _

theorem printStatement_alike (h : n ≤ m) : Alike Reading (printStatement n) (printStatement m) :=
  (expression_alike h).bind fun _ => .bind (.expect _ _) fun _ => .pure _

theorem returnStatement_alike (h : n ≤ m) (keyword : Token) :
    Alike Reading (returnStatement n keyword) (returnStatement m keyword) :=
  .bind (expression_alike h).map.unlessNext fun _ => .bind (.expect _ _) fun _ => .pure _

theorem forInitializer_alike (h : n ≤ m) : Alike Reading (forInitializer n) (forInitializer m) := by
  refine .bind (.take? _) fun r => ?_
  cases r with
  | some _ => exact .pure none
  | none =>
    refine .bind (.take? _) fun r => ?_
    cases r with
    | some _ => exact (varDeclaration_alike h).map
    | none => exact (expressionStatement_alike h).map

theorem forClauses_alike (h : n ≤ m) : Alike Reading (forClauses n) (forClauses m) :=
  .bind (.expect _ _) fun _ => (forInitializer_alike h).bind fun _ =>
    .bind (expression_alike h).map.unlessNext fun _ => .bind (.expect _ _) fun _ =>
      .bind (expression_alike h).map.unlessNext fun _ => .bind (.expect _ _) fun _ => .pure _

theorem condition_alike (h : n ≤ m) (keyword clause : String) :
    Alike Reading (condition n keyword clause) (condition m keyword clause) :=
  .bind (.expect _ _) fun _ => (expression_alike h).bind fun _ => .bind (.expect _ _) fun _ => .pure _

theorem parameters_alike : ∀ {n m : Nat}, n ≤ m → ∀ done, Alike Reading (parameters n done) (parameters m done)
  | 0, _, _, _ => .outOfFuel
  | n + 1, 0, h, _ => absurd h (Nat.not_succ_le_zero n)
  | n + 1, m + 1, h, done => by
    rw [parameters, parameters]
    refine .bind (.checkArity _ _) fun _ => .bind (.expect _ _) fun p => .bind (.take? _) fun r => ?_
    cases r with
    | none => exact .pure _
    | some _ => exact parameters_alike (Nat.le_of_succ_le_succ h) _

end

/-- The parsing functions of statements take the same steps with both amounts of fuel. -/
structure StatementsAlike (n m : Nat) : Prop where
  le : n ≤ m
  statement : Alike Reading (statement n) (statement m)
  function : Alike Reading (function n) (function m)
  declaration : Alike Reading (declaration n) (declaration m)
  block : Alike Reading (block n) (block m)
  declarations : ∀ inBlock done, Alike Reading (declarations n inBlock done) (declarations m inBlock done)

namespace StatementsAlike
variable {n m : Nat} (ih : StatementsAlike n m)
include ih

theorem inner (t : Token) : Alike Reading (inner n t) (inner m t) := by
  unfold Parse.inner
  split
  · exact (forClauses_alike ih.le).bind fun _ => ih.statement.bind fun _ => .pure _
  · exact (condition_alike ih.le _ _).bind fun _ => ih.statement.bind fun _ =>
      .bind ih.statement.after? fun _ => .pure _
  · exact printStatement_alike ih.le
  · exact returnStatement_alike ih.le t
  · exact (condition_alike ih.le _ _).bind fun _ => ih.statement.bind fun _ => .pure _
  · exact ih.block.map

theorem statement_succ : Alike Reading (Parse.statement (n + 1)) (Parse.statement (m + 1)) := by
  rw [Parse.statement_succ, Parse.statement_succ]
  refine .bind (.take? _) fun r => ?_
  cases r with
  | none => exact expressionStatement_alike ih.le
  | some t => exact ih.inner t

theorem function_succ : Alike Reading (Parse.function (n + 1)) (Parse.function (m + 1)) := by
  rw [Parse.function, Parse.function]
  exact .bind (.expect _ _) fun _ => .bind (.expect _ _) fun _ => .bind (parameters_alike ih.le _).unlessNext fun _ =>
    .bind (.expect _ _) fun _ => .bind (.expect _ _) fun _ => ih.block.bind fun _ => .pure _

theorem attempt : Alike Reading (attempt n) (attempt m) := by
  refine .bind (.take? _) fun r => ?_
  cases r with
  | some _ => exact ih.function
  | none =>
    refine .bind (.take? _) fun r => ?_
    cases r with
    | some _ => exact varDeclaration_alike ih.le
    | none => exact ih.statement

theorem block_succ : Alike Reading (Parse.block (n + 1)) (Parse.block (m + 1)) := by
  rw [Parse.block, Parse.block]
  exact (ih.declarations _ _).bind fun _ => .bind (.expect _ _) fun _ => .pure _

theorem declarations_succ (inBlock : Bool) (done : Array Stmt) :
    Alike Reading (Parse.declarations (n + 1) inBlock done) (Parse.declarations (m + 1) inBlock done) := by
  rw [Parse.declarations, Parse.declarations]
  refine .bind .atEnd fun b => ?_
  split
  · exact .pure done
  · refine .bind (.sees _) fun b => ?_
    split
    · exact .pure done
    · refine ih.declaration.bind fun r => ?_
      cases r <;> exact ih.declarations _ _

end StatementsAlike

theorem statementsAlike : ∀ {n m : Nat}, n ≤ m → StatementsAlike n m
  | 0, _, _ => ⟨Nat.zero_le _, .outOfFuel, .outOfFuel, .outOfFuel, .outOfFuel, fun _ _ => .outOfFuel⟩
  | n + 1, 0, h => absurd h (Nat.not_succ_le_zero n)
  | _ + 1, _ + 1, h =>
    have ih := statementsAlike (Nat.le_of_succ_le_succ h)
    { le := h
      statement := ih.statement_succ
      function := ih.function_succ
      declaration := ih.attempt.recovering
      block := ih.block_succ
      declarations := ih.declarations_succ }

/-- In the end a statement is put together like its expressions. -/
theorem Alike.flatten {α : Type} {p q : Parser α} (h : Alike Reading p q) : Alike Recording p q :=
  h.expand fun h => by
    cases h with
    | expression hle => exact (expressionsAlike hle).expression

/-! ### More fuel -/

/-- Is out of fuel, or does the same with more. -/
theorem Alike.fuel {α : Type} {p q : Parser α} (h : Alike Recording p q) (s : State) :
    (∃ s', p s = .error .outOfFuel s') ∨ p s = q s := by
  induction h generalizing s with
  | base h =>
    cases h
    exact .inr rfl
  | outOfFuel => exact .inl ⟨s, rfl⟩
  | bind _ _ ih ihf =>
    rw [bind_apply, bind_apply]
    rcases ih s with ⟨s', hs'⟩ | hs
    · exact .inl ⟨s', by rw [hs']⟩
    · rw [← hs]
      split
      · exact ihf _ _
      · exact .inr rfl
  | recovering _ ih =>
    unfold Parse.recovering
    rcases ih s with ⟨s', hs'⟩ | hs
    · exact .inl ⟨s', by rw [hs']⟩
    · rw [hs]
      exact .inr rfl
  | pure | take? | sees | atEnd | refuse | recordHere | freshId => exact .inr rfl

/-- What does not run out of fuel does the same with more. -/
theorem Lasts.eq {α : Type} {p q : Parser α} {s : State} (hp : Lasts p s) (h : Alike Recording p q) : q s = p s := by
  rcases h.fuel s with ⟨s', hs'⟩ | hs
  · exact absurd hs' (hp s')
  · exact hs.symm

/-! ### Errors found before -/

/-- The state with these errors in front of its own. -/
def State.behind (s : State) (before : Array SyntaxError) : State := { s with errors := before ++ s.errors }

/-- The result with these errors in front of those of its state. -/
def behind {α : Type} (before : Array SyntaxError) : EStateM.Result Stop State α → EStateM.Result Stop State α
  | .ok a s => .ok a (s.behind before)
  | .error stop s => .error stop (s.behind before)

theorem State.behind_push (s : State) (before : Array SyntaxError) (e : SyntaxError) :
    ({ s.behind before with errors := (s.behind before).errors.push e } : State) =
      ({ s with errors := s.errors.push e } : State).behind before := by
  simp [State.behind]

/-- The errors found before are only carried along. -/
theorem Alike.behind {α : Type} {p q : Parser α} (h : Alike Recording p q) (before : Array SyntaxError) (s : State) :
    p (s.behind before) = Parse.behind before (p s) := by
  induction h generalizing s with
  | base h =>
    cases h with
    | record e => exact congrArg (EStateM.Result.ok ()) (s.behind_push before e)
  | @bind _ _ p _ f _ _ _ ih ihf =>
    rw [bind_apply, bind_apply, ih]
    cases p s with
    | ok a s' => exact ihf a s'
    | error stop s' => rfl
  | take? test =>
    unfold Parse.take? State.behind
    dsimp only
    split
    · rfl
    · split <;> rfl
  | @recovering p _ _ ih =>
    unfold Parse.recovering
    rw [ih]
    rcases p s with ⟨stmt, s'⟩ | ⟨e | _, s'⟩
    · rfl
    · simp [Parse.behind, State.behind]
    · rfl
  | recordHere cause => exact congrArg (EStateM.Result.ok ()) (s.behind_push before ⟨s.next, cause⟩)
  | outOfFuel | pure | sees | atEnd | refuse | freshId => rfl

/-! ### The end marker -/

/-- The end marker stays where it is. -/
theorem Alike.final_eq {α : Type} {p q : Parser α} (h : Alike Recording p q) (s : State) :
    (final p s).final = s.final := by
  induction h generalizing s with
  | base h =>
    cases h
    rfl
  | @bind _ _ p _ f _ _ _ ih ihf =>
    have hp := ih s
    unfold Parse.final at hp ⊢
    rw [bind_apply]
    cases hrun : p s with
    | ok a s₁ =>
      rw [hrun] at hp
      exact (ihf a s₁).trans hp
    | error stop s₁ =>
      rw [hrun] at hp
      exact hp
  | take? test =>
    unfold Parse.final
    rcases take?_cases test s with ⟨-, htake⟩ | ⟨t, s', ht, htake⟩
    · rw [htake]
    · rw [htake, ht.state]
  | @recovering p _ _ ih =>
    have hp := ih s
    unfold Parse.final at hp ⊢
    unfold Parse.recovering
    rcases hrun : p s with ⟨stmt, s'⟩ | ⟨e | _, s'⟩ <;> rw [hrun] at hp <;> exact hp
  | outOfFuel | pure | sees | atEnd | refuse | recordHere | freshId => rfl

end Lox.Parse
