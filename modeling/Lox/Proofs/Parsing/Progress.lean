import Lox.Proofs.Parsing.Steps

/-! # Progress of a parse

A parse only moves on: it reads from the front, it takes back no error and hands out no identity twice
(`State.Advances`). Every declaration reads at least one token, also the ones that an error stops, so
a parse comes to its end (`declaration_consumes`). -/

namespace Lox.Parse

/-! ### Moving on -/

/-- A later state of the same parse. -/
structure State.Advances (s s' : State) : Prop where
  rest : s'.rest <:+ s.rest
  errors : s'.errors = #[] → s.errors = #[]
  nextId : s.nextId ≤ s'.nextId

namespace State

theorem Advances.refl (s : State) : s.Advances s := ⟨List.suffix_refl _, id, Nat.le_refl _⟩

theorem Advances.trans {s s' s'' : State} (h : s.Advances s') (h' : s'.Advances s'') : s.Advances s'' :=
  ⟨h'.rest.trans h.rest, h.errors ∘ h'.errors, Nat.le_trans h.nextId h'.nextId⟩

theorem Advances.length_le {s s' : State} (h : s.Advances s') : s'.rest.length ≤ s.rest.length :=
  h.rest.length_le

theorem Takes.length_eq {s s' : State} {test : Kind → Bool} {t : Token} (h : s.Takes test t s') :
    s.rest.length = s'.rest.length + 1 := by rw [h.rest, List.length_cons]

theorem Takes.advances {s s' : State} {test : Kind → Bool} {t : Token} (h : s.Takes test t s') : s.Advances s' := by
  refine ⟨?_, ?_, ?_⟩
  · rw [h.rest]
    exact List.suffix_cons t s'.rest
  · rw [h.state]
    exact id
  · have hsame : s'.nextId = s.nextId := by rw [h.state]
    exact Nat.le_of_eq hsame.symm

theorem advances_error (s : State) (e : SyntaxError) : s.Advances { s with errors := s.errors.push e } :=
  ⟨List.suffix_refl _, fun h => by simp at h, Nat.le_refl _⟩

end State

/-- The state after a parsing function, however it ended. -/
def final {α : Type} (x : Parser α) (s : State) : State :=
  match x s with
  | .ok _ s' => s'
  | .error _ s' => s'

/-- Moves on from every state. -/
def Advancing {α : Type} (x : Parser α) : Prop := ∀ s : State, s.Advances (final x s)

/-- Reads at least one token to give a result. -/
def Consuming {α : Type} (x : Parser α) : Prop :=
  ∀ (s : State) (a : α) (s' : State), x s = .ok a s' → s'.rest.length < s.rest.length

namespace Advancing
variable {α β : Type} {x : Parser α} {f : α → Parser β} {s s' : State} {a : α}

theorem of_ok (hx : Advancing x) (h : x s = .ok a s') : s.Advances s' := by
  have hadvances := hx s
  rwa [final, h] at hadvances

theorem of_error {stop : Stop} (hx : Advancing x) (h : x s = .error stop s') : s.Advances s' := by
  have hadvances := hx s
  rwa [final, h] at hadvances

theorem pure (a : α) : Advancing (pure a) := fun s => .refl s

theorem throw (stop : Stop) : Advancing (throw stop : Parser α) := fun s => .refl s

theorem refuse (cause : SyntaxError.Cause) : Advancing (refuse cause : Parser α) := fun s => .refl s

theorem freshId : Advancing freshId := fun _ => ⟨List.suffix_refl _, id, Nat.le_succ _⟩

theorem record (e : SyntaxError) : Advancing (record e) := fun s => s.advances_error e

theorem recordHere (cause : SyntaxError.Cause) : Advancing (recordHere cause) := fun s => s.advances_error _

theorem checkArity (size : Nat) (cause : SyntaxError.Cause) : Advancing (checkArity size cause) := by
  unfold Parse.checkArity
  split
  · exact recordHere cause
  · exact pure ()

theorem sees (test : Kind → Bool) : Advancing (sees test) := fun s => .refl s

theorem atEnd : Advancing atEnd := fun s => .refl s

theorem take? (test : Kind → Bool) : Advancing (take? test) := by
  intro s
  cases h : Parse.take? test s with
  | ok r s' =>
    rw [final, h]
    rcases take?_ok h with ⟨-, rfl, -⟩ | ⟨t, -, ht⟩
    · exact .refl _
    · exact ht.advances
  | error stop s' =>
    unfold Parse.take? at h
    split at h
    · cases h
    · split at h <;> cases h

theorem bind (hx : Advancing x) (hf : ∀ a, Advancing (f a)) : Advancing (x >>= f) := by
  intro s
  rw [final, bind_apply]
  cases h : x s with
  | ok a s₁ => exact (hx.of_ok h).trans (hf a s₁)
  | error stop s₁ => exact hx.of_error h

theorem map {g : α → β} (hx : Advancing x) : Advancing (g <$> x) := hx.bind fun a => .pure (g a)

theorem expect (test : Kind → Bool) (cause : SyntaxError.Cause) : Advancing (expect test cause) := by
  refine (take? test).bind fun r => ?_
  cases r with
  | none => exact .refuse cause
  | some t => exact .pure t

theorem unlessNext {test : Kind → Bool} (hx : Advancing x) : Advancing (unlessNext test a x) := by
  refine (sees test).bind fun b => ?_
  cases b with
  | true => exact .pure a
  | false => exact hx

theorem after? {test : Kind → Bool} (hx : Advancing x) : Advancing (after? test x) := by
  refine (take? test).bind fun r => ?_
  cases r with
  | none => exact .pure none
  | some _ => exact hx.map

end Advancing

namespace Consuming
variable {α β : Type} {x : Parser α} {f : α → Parser β} {test : Kind → Bool}

theorem bind_left (hx : Consuming x) (hf : ∀ a, Advancing (f a)) : Consuming (x >>= f) := by
  intro s b s' h
  obtain ⟨a, s₁, ha, hb⟩ := bind_ok h
  exact Nat.lt_of_le_of_lt ((hf a).of_ok hb).length_le (hx s a s₁ ha)

theorem bind_right (hx : Advancing x) (hf : ∀ a, Consuming (f a)) : Consuming (x >>= f) := by
  intro s b s' h
  obtain ⟨a, s₁, ha, hb⟩ := bind_ok h
  exact Nat.lt_of_lt_of_le (hf a s₁ b s' hb) (hx.of_ok ha).length_le

theorem take?_bind {f : Option Token → Parser β} (hnone : Consuming (f none)) (hsome : ∀ t, Advancing (f (some t))) :
    Consuming (take? test >>= f) := by
  intro s b s' h
  rcases take?_bind_ok h with ⟨-, h⟩ | ⟨t, s₁, ht, h⟩
  · exact hnone s b s' h
  · rw [ht.length_eq]
    exact Nat.lt_succ_of_le ((hsome t).of_ok h).length_le

theorem expect (test : Kind → Bool) (cause : SyntaxError.Cause) : Consuming (expect test cause) := by
  intro s t s' h
  rw [(expect_ok h).length_eq]
  exact Nat.lt_succ_self _

end Consuming

/-! ### Expressions move on -/

/-- All parsing functions of expressions move on with this fuel. -/
structure ExpressionsAdvance (n : Nat) : Prop where
  expression : Advancing (expression n)
  binary : ∀ level, Advancing (binary n level)
  chain : ∀ level left, Advancing (chain n level left)
  unary : Advancing (unary n)
  calls : ∀ callee, Advancing (calls n callee)
  arguments : ∀ done, Advancing (arguments n done)
  primary : Advancing (primary n)

namespace ExpressionsAdvance
variable {n : Nat} (ih : ExpressionsAdvance n)
include ih

theorem operand (level : Level) : Advancing (operand n level) := by
  unfold Parse.operand
  cases level.tighter? with
  | none => exact ih.unary
  | some tighter => exact ih.binary tighter

theorem expression_succ : Advancing (Parse.expression (n + 1)) := by
  rw [Parse.expression]
  refine (ih.binary .or).bind fun target => (Advancing.take? _).bind fun r => ?_
  cases r with
  | none => exact .pure target
  | some equals =>
    refine ih.expression.bind fun value => ?_
    split
    · exact .bind .freshId fun id => .pure _
    · exact (Advancing.record _).bind fun _ => .pure value

theorem chain_succ (level : Level) (left : Expr) : Advancing (Parse.chain (n + 1) level left) := by
  rw [Parse.chain]
  refine (Advancing.take? _).bind fun r => ?_
  cases r with
  | none => exact .pure left
  | some operator => exact (ih.operand level).bind fun right => ih.chain level _

theorem unary_succ : Advancing (Parse.unary (n + 1)) := by
  rw [Parse.unary]
  refine (Advancing.take? _).bind fun r => ?_
  cases r with
  | none => exact ih.primary.bind fun callee => ih.calls callee
  | some operator => exact ih.unary.bind fun right => .pure _

theorem calls_succ (callee : Expr) : Advancing (Parse.calls (n + 1) callee) := by
  rw [Parse.calls]
  refine (Advancing.take? _).bind fun r => ?_
  cases r with
  | none => exact .pure callee
  | some _ =>
    exact (ih.arguments #[]).unlessNext.bind fun args => (Advancing.expect _ _).bind fun paren => ih.calls _

theorem arguments_succ (done : Array Expr) : Advancing (Parse.arguments (n + 1) done) := by
  rw [Parse.arguments]
  refine (Advancing.checkArity _ _).bind fun _ => ih.expression.bind fun e => (Advancing.take? _).bind fun r => ?_
  cases r with
  | none => exact .pure _
  | some _ => exact ih.arguments _

theorem primary_succ : Advancing (Parse.primary (n + 1)) := by
  rw [Parse.primary]
  refine (Advancing.take? _).bind fun r => ?_
  cases r with
  | none => exact .refuse _
  | some t =>
    dsimp only
    split
    · exact .pure _
    · split
      · exact .bind .freshId fun id => .pure _
      · exact ih.expression.bind fun inner => (Advancing.expect _ _).bind fun _ => .pure _

end ExpressionsAdvance

theorem expressionsAdvance : ∀ n, ExpressionsAdvance n
  | 0 => ⟨.throw _, fun _ => .throw _, fun _ _ => .throw _, .throw _, fun _ => .throw _, fun _ => .throw _, .throw _⟩
  | n + 1 =>
    have ih := expressionsAdvance n
    { expression := ih.expression_succ
      binary := fun level => (ih.operand level).bind fun left => ih.chain level left
      chain := ih.chain_succ
      unary := ih.unary_succ
      calls := ih.calls_succ
      arguments := ih.arguments_succ
      primary := ih.primary_succ }

/-! ### Statements move on -/

section
variable (n : Nat)

theorem expression_advancing : Advancing (expression n) := (expressionsAdvance n).expression

theorem expressionStatement_consuming : Consuming (expressionStatement n) :=
  .bind_right (expression_advancing n) fun _ => .bind_left (.expect _ _) fun _ => .pure _

theorem expressionStatement_advancing : Advancing (expressionStatement n) :=
  (expression_advancing n).bind fun _ => (Advancing.expect _ _).bind fun _ => .pure _

theorem varDeclaration_advancing : Advancing (varDeclaration n) :=
  (Advancing.expect _ _).bind fun _ => (expression_advancing n).after?.bind fun _ =>
    (Advancing.expect _ _).bind fun _ => .pure _

theorem printStatement_advancing : Advancing (printStatement n) :=
  (expression_advancing n).bind fun _ => (Advancing.expect _ _).bind fun _ => .pure _

theorem returnStatement_advancing (keyword : Token) : Advancing (returnStatement n keyword) :=
  (expression_advancing n).map.unlessNext.bind fun _ => (Advancing.expect _ _).bind fun _ => .pure _

theorem forInitializer_advancing : Advancing (forInitializer n) := by
  refine (Advancing.take? _).bind fun r => ?_
  cases r with
  | some _ => exact .pure none
  | none =>
    refine (Advancing.take? _).bind fun r => ?_
    cases r with
    | some _ => exact (varDeclaration_advancing n).map
    | none => exact (expressionStatement_advancing n).map

theorem forClauses_advancing : Advancing (forClauses n) :=
  (Advancing.expect _ _).bind fun _ => (forInitializer_advancing n).bind fun _ =>
    (expression_advancing n).map.unlessNext.bind fun _ => (Advancing.expect _ _).bind fun _ =>
      (expression_advancing n).map.unlessNext.bind fun _ => (Advancing.expect _ _).bind fun _ => .pure _

theorem condition_advancing (keyword clause : String) : Advancing (condition n keyword clause) :=
  (Advancing.expect _ _).bind fun _ => (expression_advancing n).bind fun _ => (Advancing.expect _ _).bind fun _ =>
    .pure _

theorem parameters_advancing : ∀ (n : Nat) (done : Array Token), Advancing (parameters n done)
  | 0, _ => .throw _
  | n + 1, done => by
    rw [parameters]
    refine (Advancing.checkArity _ _).bind fun _ => (Advancing.expect _ _).bind fun p =>
      (Advancing.take? _).bind fun r => ?_
    cases r with
    | none => exact .pure _
    | some _ => exact parameters_advancing n _

end

/-- All parsing functions of statements move on with this fuel. -/
structure StatementsAdvance (n : Nat) : Prop where
  statement : Advancing (statement n)
  function : Advancing (function n)
  declaration : Advancing (declaration n)
  block : Advancing (block n)
  declarations : ∀ inBlock done, Advancing (declarations n inBlock done)

theorem recover_suffix : ∀ tokens, recover tokens <:+ tokens
  | [] => List.suffix_refl _
  | t :: rest => (skipToBoundary_suffix t rest).trans (List.suffix_cons t rest)
where
  skipToBoundary_suffix : ∀ dropped rest, skipToBoundary dropped rest <:+ rest
    | _, [] => List.suffix_refl _
    | dropped, t :: rest => by
      unfold skipToBoundary
      split
      · exact List.suffix_refl _
      · exact (skipToBoundary_suffix t rest).trans (List.suffix_cons t rest)

theorem Advancing.recovering {p : Parser Stmt} (h : Advancing p) : Advancing (recovering p) := by
  intro s
  rw [final, Parse.recovering]
  cases hp : p s with
  | ok stmt s' => exact h.of_ok hp
  | error stop s' =>
    have hs' := h.of_error hp
    cases stop with
    | refused e =>
      exact ⟨(recover_suffix s'.rest).trans hs'.rest, fun he => by simp at he, hs'.nextId⟩
    | outOfFuel => exact hs'

namespace StatementsAdvance
variable {n : Nat} (ih : StatementsAdvance n)
include ih

theorem inner (t : Token) : Advancing (inner n t) := by
  unfold Parse.inner
  split
  · exact (forClauses_advancing n).bind fun _ => ih.statement.bind fun _ => .pure _
  · exact (condition_advancing n _ _).bind fun _ => ih.statement.bind fun _ => ih.statement.after?.bind fun _ => .pure _
  · exact printStatement_advancing n
  · exact returnStatement_advancing n t
  · exact (condition_advancing n _ _).bind fun _ => ih.statement.bind fun _ => .pure _
  · exact ih.block.map

theorem statement_succ : Advancing (Parse.statement (n + 1)) := by
  rw [Parse.statement_succ]
  refine (Advancing.take? _).bind fun r => ?_
  cases r with
  | none => exact expressionStatement_advancing n
  | some t => exact ih.inner t

theorem statement_succ_consuming : Consuming (Parse.statement (n + 1)) := by
  rw [Parse.statement_succ]
  exact .take?_bind (expressionStatement_consuming n) ih.inner

theorem function_succ : Advancing (Parse.function (n + 1)) := by
  rw [Parse.function]
  exact (Advancing.expect _ _).bind fun _ => (Advancing.expect _ _).bind fun _ =>
    (parameters_advancing n _).unlessNext.bind fun _ => (Advancing.expect _ _).bind fun _ =>
      (Advancing.expect _ _).bind fun _ => ih.block.bind fun _ => .pure _

theorem attempt : Advancing (attempt n) := by
  refine (Advancing.take? _).bind fun r => ?_
  cases r with
  | some _ => exact ih.function
  | none =>
    refine (Advancing.take? _).bind fun r => ?_
    cases r with
    | some _ => exact varDeclaration_advancing n
    | none => exact ih.statement

theorem block_succ : Advancing (Parse.block (n + 1)) := by
  rw [Parse.block]
  exact (ih.declarations _ _).bind fun _ => (Advancing.expect _ _).bind fun _ => .pure _

theorem declarations_succ (inBlock : Bool) (done : Array Stmt) :
    Advancing (Parse.declarations (n + 1) inBlock done) := by
  rw [Parse.declarations]
  refine Advancing.atEnd.bind fun b => ?_
  split
  · exact .pure done
  · refine (Advancing.sees _).bind fun b => ?_
    split
    · exact .pure done
    · refine ih.declaration.bind fun r => ?_
      cases r <;> exact ih.declarations _ _

end StatementsAdvance

theorem statementsAdvance : ∀ n, StatementsAdvance n
  | 0 => ⟨.throw _, .throw _, .throw _, .throw _, fun _ _ => .throw _⟩
  | n + 1 =>
    have ih := statementsAdvance n
    { statement := ih.statement_succ
      function := ih.function_succ
      declaration := ih.attempt.recovering
      block := ih.block_succ
      declarations := ih.declarations_succ }

theorem statement_consuming : ∀ n, Consuming (statement n)
  | 0 => fun _ _ _ h => by cases h
  | n + 1 => (statementsAdvance n).statement_succ_consuming

theorem attempt_consuming (n : Nat) : Consuming (attempt n) := by
  refine .take?_bind (.take?_bind (statement_consuming n) fun _ => ?_) fun _ => ?_
  · exact varDeclaration_advancing n
  · exact (statementsAdvance n).function

theorem recover_length_lt : ∀ {tokens : List Token}, tokens ≠ [] → (recover tokens).length < tokens.length
  | t :: rest, _ => Nat.lt_succ_of_le (recover_suffix.skipToBoundary_suffix t rest).length_le

/-- A declaration reads at least one token, whether it gives a result or is stopped by an error. -/
theorem declaration_consumes {n : Nat} {s s' : State} {r : Option Stmt} (hs : s.rest ≠ [])
    (h : declaration n s = .ok r s') : s'.rest.length < s.rest.length := by
  cases n with
  | zero => cases h
  | succ n =>
    rcases declaration_ok h with ⟨stmt, ha, -⟩ | ⟨e, s₁, ha, -, rfl⟩
    · exact attempt_consuming n s stmt s' ha
    · have hle := ((statementsAdvance n).attempt.of_error ha).length_le
      by_cases hs₁ : s₁.rest = []
      · rw [hs₁]
        exact List.length_pos_iff.mpr hs
      · exact Nat.lt_of_lt_of_le (recover_length_lt hs₁) hle

/-- A parse hands out identities from its own upward. -/
theorem nextId_le_parse (tokens : List Token) (nextId : ExprId) : nextId ≤ (parse tokens nextId).nextId := by
  have h := ((statementsAdvance (fuelFor tokens)).declarations false #[] (.start tokens nextId)).nextId
  unfold parse
  unfold final at h
  split at h <;> simp_all [State.start]

end Lox.Parse
