import Lox.Proofs.Parsing.Cursor

/-! # The order of syntax errors

Errors are found where the parse stands, so they come in the order of their tokens, but for one kind: that a target
cannot be assigned to is found at its `=` after the value has been read, with the errors in the value. So an invalid
target may come behind errors at later tokens, if these stand in the same expression (`errors_in_order`). -/

namespace Lox.Parse

/-! ### Late errors -/

/-- The tokens that end statements, enclose them or start them. None of them stands in an expression. -/
def separates (k : Kind) : Bool :=
  isMark .semicolon k || isMark .leftBrace k || isMark .rightBrace k || startsStatement k

/-- The causes of errors that the parse of an expression goes on from. -/
def IsMild (cause : SyntaxError.Cause) : Prop := cause = .invalidTarget ∨ cause = .tooManyArguments

/-- Two errors with their places, the first found before the second. They stand in this order, or the second is an
    invalid target and the first is at a later token of the same expression. -/
def InOrder (tokens : List Token) (x y : Nat × SyntaxError) : Prop :=
  x.1 ≤ y.1 ∨ (y.2.cause = .invalidTarget ∧ IsMild x.2.cause ∧
    ∀ i t, y.1 ≤ i → i < x.1 → tokens[i]? = some t → separates t.kind = false)

/-- The errors stand at places of these tokens, in order but for late invalid targets. -/
def InSourceOrder (tokens : List Token) (errors : List SyntaxError) : Prop :=
  ∃ found : List (Nat × SyntaxError), found.map Prod.snd = errors ∧
    (∀ x ∈ found, tokens[x.1]? = some x.2.token) ∧ found.Pairwise (InOrder tokens)

/-! ### Errors between two places -/

/-- The parse stands at place `k` of the tokens `b`, which `final` ends. -/
structure Place (b : List Token) (final : Token) (s : State) (k : Nat) : Prop where
  rest : s.rest = b.drop k
  le : k ≤ b.length
  final : s.final = final

/-- Between two places of a parse these errors were found. In an expression they are of the kinds that its parse goes
    on from, and no token between the places separates statements. -/
structure Stretch (inner : Prop) (b : List Token) (final : Token) (s : State) (k : Nat) (s' : State) (k' : Nat)
    (found : List (Nat × SyntaxError)) : Prop where
  le : k ≤ k'
  place : Place b final s' k'
  errors : s'.errors.toList = s.errors.toList ++ found.map Prod.snd
  places : ∀ x ∈ found, k ≤ x.1 ∧ x.1 ≤ k' ∧ (b ++ [final])[x.1]? = some x.2.token
  order : found.Pairwise (InOrder (b ++ [final]))
  mild : inner → ∀ x ∈ found, IsMild x.2.cause
  plain : inner → ∀ i t, k ≤ i → i < k' → (b ++ [final])[i]? = some t → separates t.kind = false

section
variable {inner : Prop} {b : List Token} {final : Token} {s s' s₁ : State} {k k' k₁ : Nat}
  {found found₁ : List (Nat × SyntaxError)}

theorem Place.next (h : Place b final s k) : (b ++ [final])[k]? = some s.next := by
  rw [State.next, h.rest, h.final, List.head?_drop]
  rcases Nat.lt_or_eq_of_le h.le with hlt | rfl
  · rw [List.getElem?_append_left hlt, List.getElem?_eq_getElem hlt, Option.getD_some]
  · rw [List.getElem?_eq_none (Nat.le_refl _), List.getElem?_append_right (Nat.le_refl _), Nat.sub_self]
    rfl

theorem Place.takes {test : Kind → Bool} {t : Token} (h : Place b final s k) (ht : s.Takes test t s') :
    Place b final s' (k + 1) ∧ (b ++ [final])[k]? = some t := by
  have hnext : s.next = t := by rw [State.next, ht.rest, List.head?_cons, Option.getD_some]
  have hlength := congrArg List.length (h.rest.symm.trans ht.rest)
  rw [List.length_drop, List.length_cons] at hlength
  refine ⟨⟨?_, by omega, by rw [ht.state]; exact h.final⟩, hnext ▸ h.next⟩
  have htail := congrArg List.tail (ht.rest.symm.trans h.rest)
  rwa [List.tail_drop] at htail

namespace Stretch

/-- Nothing was read or found. -/
theorem none (hs : Place b final s' k) (herrors : s'.errors = s.errors) : Stretch inner b final s k s' k [] :=
  ⟨Nat.le_refl k, hs, by simp [herrors], nofun, .nil, fun _ => nofun, fun _ i t hle hlt =>
    absurd hle (Nat.not_le_of_lt hlt)⟩

/-- What was found behind a place comes behind what was found before it. -/
theorem trans (h : Stretch inner b final s k s₁ k₁ found) (h₁ : Stretch inner b final s₁ k₁ s' k' found₁) :
    Stretch inner b final s k s' k' (found ++ found₁) where
  le := Nat.le_trans h.le h₁.le
  place := h₁.place
  errors := by rw [h₁.errors, h.errors, List.map_append, List.append_assoc]
  places x hx := by
    rcases List.mem_append.mp hx with hx | hx
    · obtain ⟨hle, hle', ht⟩ := h.places x hx
      exact ⟨hle, Nat.le_trans hle' h₁.le, ht⟩
    · obtain ⟨hle, hle', ht⟩ := h₁.places x hx
      exact ⟨Nat.le_trans h.le hle, hle', ht⟩
  order := by
    refine List.pairwise_append.mpr ⟨h.order, h₁.order, fun x hx y hy => .inl ?_⟩
    exact Nat.le_trans (h.places x hx).2.1 (h₁.places y hy).1
  mild hinner x hx := (List.mem_append.mp hx).elim (h.mild hinner x) (h₁.mild hinner x)
  plain hinner i t hle hlt := by
    rcases Nat.lt_or_ge i k₁ with hi | hi
    · exact h.plain hinner i t hle hi
    · exact h₁.plain hinner i t hi hlt

theorem takes {test : Kind → Bool} {t : Token} (h : Place b final s k) (ht : s.Takes test t s')
    (hplain : inner → separates t.kind = false) : Stretch inner b final s k s' (k + 1) [] := by
  obtain ⟨hplace, hnext⟩ := h.takes ht
  refine ⟨Nat.le_succ k, hplace, by rw [ht.state]; simp, nofun, .nil, fun _ => nofun, fun hinner i u hle hlt hu => ?_⟩
  obtain rfl : i = k := Nat.le_antisymm (Nat.le_of_lt_succ hlt) hle
  rw [hnext] at hu
  cases hu
  exact hplain hinner

/-- An error at the next token. -/
theorem one (h : Place b final s k) {cause : SyntaxError.Cause} (hmild : inner → IsMild cause) :
    Stretch inner b final s k { s with errors := s.errors.push ⟨s.next, cause⟩ } k [(k, ⟨s.next, cause⟩)] where
  le := Nat.le_refl k
  place := ⟨h.rest, h.le, h.final⟩
  errors := by simp
  places x hx := by
    rw [List.mem_singleton.mp hx]
    exact ⟨Nat.le_refl k, Nat.le_refl k, h.next⟩
  order := List.pairwise_singleton _ _
  mild hinner x hx := by
    rw [List.mem_singleton.mp hx]
    exact hmild hinner
  plain _ i t hle hlt := absurd hle (Nat.not_le_of_lt hlt)

/-- An error at the token before all that was found, within an expression. -/
theorem late (h : Stretch True b final s k s' k' found) {t : Token} (ht : (b ++ [final])[k]? = some t) :
    Stretch True b final s k { s' with errors := s'.errors.push ⟨t, .invalidTarget⟩ } k'
      (found ++ [(k, ⟨t, .invalidTarget⟩)]) where
  le := h.le
  place := ⟨h.place.rest, h.place.le, h.place.final⟩
  errors := by simp [h.errors]
  places x hx := by
    rcases List.mem_append.mp hx with hx | hx
    · exact h.places x hx
    · rw [List.mem_singleton.mp hx]
      exact ⟨Nat.le_refl k, h.le, ht⟩
  order := by
    refine List.pairwise_append.mpr ⟨h.order, List.pairwise_singleton _ _, fun x hx y hy => .inr ?_⟩
    rw [List.mem_singleton.mp hy]
    exact ⟨rfl, h.mild trivial x hx,
      fun i t hle hlt => h.plain trivial i t hle (Nat.lt_of_lt_of_le hlt (h.places x hx).2.1)⟩
  mild _ x hx := by
    rcases List.mem_append.mp hx with hx | hx
    · exact h.mild trivial x hx
    · rw [List.mem_singleton.mp hx]
      exact .inl rfl
  plain := h.plain

/-- Recovery drops tokens. -/
theorem recovers (h : Place b final s k) : ∃ k', Stretch False b final s k { s with rest := recover s.rest } k' [] := by
  have hsuffix : recover s.rest <:+ b := (recover_suffix s.rest).trans (h.rest ▸ List.drop_suffix k b)
  have hlength : (recover s.rest).length ≤ b.length - k := by
    have hle := (recover_suffix s.rest).length_le
    rwa [h.rest, List.length_drop, ← h.rest] at hle
  have hle := h.le
  refine ⟨b.length - (recover s.rest).length, by omega, ⟨?_, Nat.sub_le _ _, h.final⟩, by simp,
    nofun, .nil, nofun, nofun⟩
  exact List.suffix_iff_eq_drop.mp hsuffix

theorem imp {inner' : Prop} (h : Stretch inner b final s k s' k' found) (himp : inner' → inner) :
    Stretch inner' b final s k s' k' found :=
  { h with mild := h.mild ∘ himp, plain := h.plain ∘ himp }

/-- The error that ends a parse stands where the parse ends. -/
theorem refused (h : Stretch False b final s k s' k' found) (cause : SyntaxError.Cause) :
    Stretch False b final s k { s' with errors := s'.errors.push ⟨s'.next, cause⟩ } k'
      (found ++ [(k', ⟨s'.next, cause⟩)]) :=
  h.trans (.one h.place nofun)

end Stretch
end

/-! ### Parsing functions that find errors in order -/

/-- A result of a parsing function, with what was found since place `k`. An error that stops it is at the next token. -/
def Ends (inner : Prop) (b : List Token) (final : Token) (s : State) (k : Nat) {α : Type} :
    EStateM.Result Stop State α → Prop
  | .ok _ s' => ∃ k' found, Stretch inner b final s k s' k' found
  | .error (.refused e) s' => e.token = s'.next ∧ ∃ k' found, Stretch inner b final s k s' k' found
  | .error .outOfFuel _ => True

/-- From every place the errors are found in order. -/
def Ordered (inner : Prop) (b : List Token) (final : Token) {α : Type} (p : Parser α) : Prop :=
  ∀ s k, Place b final s k → Ends inner b final s k (p s)

theorem Stretch.ends {inner : Prop} {b : List Token} {final : Token} {s s₁ : State} {k k₁ : Nat}
    {found : List (Nat × SyntaxError)} {α : Type} {x : EStateM.Result Stop State α}
    (h : Stretch inner b final s k s₁ k₁ found) (hx : Ends inner b final s₁ k₁ x) : Ends inner b final s k x := by
  match x, hx with
  | .ok _ _, ⟨k', _, h'⟩ => exact ⟨k', _, h.trans h'⟩
  | .error (.refused _) _, ⟨he, k', _, h'⟩ => exact ⟨he, k', _, h.trans h'⟩
  | .error .outOfFuel _, _ => trivial

namespace Ordered
variable {inner : Prop} {b : List Token} {final : Token} {α β : Type} {p : Parser α} {f : α → Parser β} {s s' : State}
  {k : Nat}

theorem pure (a : α) : Ordered inner b final (pure a) := fun _ k hs => ⟨k, [], .none hs rfl⟩

theorem outOfFuel : Ordered inner b final (outOfFuel : Parser α) := fun _ _ _ => trivial

/-- What follows has to find its errors in order only where it begins. -/
theorem bind_at (hp : Ordered inner b final p) (hs : Place b final s k)
    (hf : ∀ a s₁ k₁ found, p s = .ok a s₁ → Stretch inner b final s k s₁ k₁ found →
      Ends inner b final s k (f a s₁)) : Ends inner b final s k ((p >>= f) s) := by
  have hends := hp s k hs
  rw [bind_apply]
  cases hrun : p s with
  | ok a s₁ =>
    rw [hrun] at hends
    obtain ⟨k₁, found, h⟩ := hends
    exact hf a s₁ k₁ found hrun h
  | error stop s₁ =>
    rw [hrun] at hends
    cases stop <;> exact hends

theorem bind (hp : Ordered inner b final p) (hf : ∀ a, Ordered inner b final (f a)) : Ordered inner b final (p >>= f) :=
  fun _ _ hs => hp.bind_at hs fun a s₁ k₁ _ _ h => h.ends (hf a s₁ k₁ h.place)

theorem take? {test : Kind → Bool} (htest : inner → ∀ k, test k = true → separates k = false) :
    Ordered inner b final (take? test) := by
  intro s k hs
  rcases take?_cases test s with ⟨-, htake⟩ | ⟨t, s', ht, htake⟩
  · rw [htake]
    exact ⟨k, [], .none hs rfl⟩
  · rw [htake]
    exact ⟨k + 1, [], .takes hs ht fun hinner => htest hinner _ ht.test⟩

theorem refuse (cause : SyntaxError.Cause) : Ordered inner b final (refuse cause : Parser α) :=
  fun _ k hs => ⟨rfl, k, [], .none hs rfl⟩

theorem recordHere {cause : SyntaxError.Cause} (hmild : inner → IsMild cause) :
    Ordered inner b final (recordHere cause) :=
  fun _ k hs => ⟨k, _, .one hs hmild⟩

theorem freshId : Ordered inner b final freshId := fun _ k hs => ⟨k, [], .none ⟨hs.rest, hs.le, hs.final⟩ rfl⟩

theorem expect {test : Kind → Bool} {cause : SyntaxError.Cause}
    (htest : inner → ∀ k, test k = true → separates k = false) :
    Ordered inner b final (expect test cause) := by
  refine (take? htest).bind fun r => ?_
  cases r with
  | none => exact refuse cause
  | some t => exact pure t

theorem unlessNext {test : Kind → Bool} {a : α} (hp : Ordered inner b final p) :
    Ordered inner b final (unlessNext test a p) := by
  refine bind (fun _ k hs => ⟨k, [], .none hs rfl⟩) fun b => ?_
  cases b with
  | true => exact pure a
  | false => exact hp

theorem checkArity {size : Nat} {cause : SyntaxError.Cause} (hmild : inner → IsMild cause) :
    Ordered inner b final (checkArity size cause) := by
  unfold Parse.checkArity
  split
  · exact recordHere hmild
  · exact pure ()

theorem imp {inner' : Prop} (h : Ordered inner b final p) (himp : inner' → inner) : Ordered inner' b final p := by
  intro s k hs
  match p s, h s k hs with
  | .ok _ _, ⟨k', found, h⟩ => exact ⟨k', found, h.imp himp⟩
  | .error (.refused _) _, ⟨he, k', found, h⟩ => exact ⟨he, k', found, h.imp himp⟩
  | .error .outOfFuel _, _ => trivial

theorem recovering {p : Parser Stmt} (hp : Ordered False b final p) : Ordered False b final (recovering p) := by
  intro s k hs
  unfold Parse.recovering
  match p s, hp s k hs with
  | .ok _ _, h => exact h
  | .error (.refused ⟨token, cause⟩) s', ⟨he, k₁, found, h⟩ =>
    obtain rfl : token = s'.next := he
    have hone := h.refused cause
    obtain ⟨k', hrecovers⟩ := Stretch.recovers hone.place
    exact ⟨k', _, hone.trans hrecovers⟩
  | .error .outOfFuel _, _ => trivial

end Ordered

/-! ### Expressions -/

theorem separates_of_isAtom {k : Kind} (h : isAtom k = true) : separates k = false := by
  cases k with
  | mark m => cases m <;> simp_all [isAtom, separates, isMark, startsStatement, literal?, isIdentifier]
  | keyword w => cases w <;> simp_all [isAtom, separates, isMark, startsStatement, literal?, isIdentifier]
  | identifier | string _ | number _ | endOfInput => simp [separates, isMark, startsStatement]

theorem separates_of_admits {level : Level} {k : Kind} (h : level.admits k = true) : separates k = false := by
  have hall : ∀ k ∈ Grammar.operators level, separates k = false := by
    cases level <;> simp [Grammar.operators, separates, isMark, startsStatement]
  exact hall k (admits_iff.mp h)

theorem separates_of_isPrefixOperator {k : Kind} (h : isPrefixOperator k = true) : separates k = false := by
  rcases isPrefixOperator_iff.mp h with rfl | rfl <;> rfl

theorem separates_of_isMark {m : Mark} (hm : separates (.mark m) = false) {k : Kind} (h : isMark m k = true) :
    separates k = false := isMark_iff.mp h ▸ hm

/-- All parsing functions of expressions find their errors in order, within the expression. -/
structure ExpressionsOrdered (b : List Token) (final : Token) (n : Nat) : Prop where
  expression : Ordered True b final (expression n)
  binary : ∀ level, Ordered True b final (binary n level)
  chain : ∀ level left, Ordered True b final (chain n level left)
  unary : Ordered True b final (unary n)
  calls : ∀ callee, Ordered True b final (calls n callee)
  arguments : ∀ done, Ordered True b final (arguments n done)
  primary : Ordered True b final (primary n)

namespace ExpressionsOrdered
variable {b : List Token} {final : Token} {n : Nat} (ih : ExpressionsOrdered b final n)
include ih

theorem operand (level : Level) : Ordered True b final (operand n level) := by
  unfold Parse.operand
  cases level.tighter? with
  | none => exact ih.unary
  | some tighter => exact ih.binary tighter

/-- What is found in a value stands behind the `=`, and no token between them separates statements. -/
theorem expression_succ : Ordered True b final (Parse.expression (n + 1)) := by
  rw [Parse.expression_succ]
  refine (ih.binary .or).bind fun target s k hs => ?_
  rw [bind_apply]
  rcases take?_cases (isMark .equal) s with ⟨-, htake⟩ | ⟨equals, s₁, hequals, htake⟩
  · rw [htake]
    exact ⟨k, [], .none hs rfl⟩
  · rw [htake]
    have hplain : separates equals.kind = false := by
      rw [isMark_iff.mp hequals.test]
      rfl
    have hfirst : Stretch True b final s k s₁ (k + 1) [] := .takes hs hequals fun _ => hplain
    have hvalue := ih.expression s₁ (k + 1) hfirst.place
    dsimp only
    rw [bind_apply]
    match Parse.expression n s₁, hvalue with
    | .ok value s₂, ⟨k₂, found, h⟩ =>
      have hboth := hfirst.trans h
      dsimp only
      unfold assigned
      cases target.target? with
      | some name => exact ⟨k₂, _, hboth.trans (.none ⟨hboth.place.rest, hboth.place.le, hboth.place.final⟩ rfl)⟩
      | none => exact ⟨k₂, _, hboth.late (hs.takes hequals).2⟩
    | .error (.refused _) _, h => exact hfirst.ends h
    | .error .outOfFuel _, _ => trivial

theorem binary_succ (level : Level) : Ordered True b final (Parse.binary (n + 1) level) := by
  rw [Parse.binary]
  exact (ih.operand level).bind fun left => ih.chain level left

theorem chain_succ (level : Level) (left : Expr) : Ordered True b final (Parse.chain (n + 1) level left) := by
  rw [Parse.chain]
  refine (Ordered.take? fun _ _ => separates_of_admits).bind fun r => ?_
  cases r with
  | none => exact .pure left
  | some operator => exact (ih.operand level).bind fun right => ih.chain level _

theorem unary_succ : Ordered True b final (Parse.unary (n + 1)) := by
  rw [Parse.unary]
  refine (Ordered.take? fun _ _ => separates_of_isPrefixOperator).bind fun r => ?_
  cases r with
  | none => exact ih.primary.bind fun callee => ih.calls callee
  | some operator => exact ih.unary.bind fun right => .pure _

theorem calls_succ (callee : Expr) : Ordered True b final (Parse.calls (n + 1) callee) := by
  rw [Parse.calls]
  refine (Ordered.take? fun _ _ => separates_of_isMark (by decide)).bind fun r => ?_
  cases r with
  | none => exact .pure callee
  | some _ =>
    exact (ih.arguments #[]).unlessNext.bind fun args =>
      (Ordered.expect fun _ _ => separates_of_isMark (by decide)).bind fun paren => ih.calls _

theorem arguments_succ (done : Array Expr) : Ordered True b final (Parse.arguments (n + 1) done) := by
  rw [Parse.arguments]
  refine (Ordered.checkArity fun _ => .inr rfl).bind fun _ => ih.expression.bind fun e => ?_
  refine (Ordered.take? fun _ _ => separates_of_isMark (by decide)).bind fun r => ?_
  cases r with
  | none => exact .pure _
  | some _ => exact ih.arguments _

theorem atom (t : Token) : Ordered True b final (Parse.atom n t) := by
  unfold Parse.atom
  split
  · exact .pure _
  · split
    · exact Ordered.freshId.bind fun id => .pure _
    · exact ih.expression.bind fun inner =>
        (Ordered.expect fun _ _ => separates_of_isMark (by decide)).bind fun _ => .pure _

theorem primary_succ : Ordered True b final (Parse.primary (n + 1)) := by
  rw [Parse.primary_succ]
  refine (Ordered.take? fun _ _ => separates_of_isAtom).bind fun r => ?_
  cases r with
  | none => exact .refuse _
  | some t => exact ih.atom t

end ExpressionsOrdered

theorem expressionsOrdered (b : List Token) (final : Token) : ∀ n, ExpressionsOrdered b final n
  | 0 => ⟨.outOfFuel, fun _ => .outOfFuel, fun _ _ => .outOfFuel, .outOfFuel, fun _ => .outOfFuel, fun _ => .outOfFuel,
      .outOfFuel⟩
  | n + 1 =>
    have ih := expressionsOrdered b final n
    { expression := ih.expression_succ
      binary := ih.binary_succ
      chain := ih.chain_succ
      unary := ih.unary_succ
      calls := ih.calls_succ
      arguments := ih.arguments_succ
      primary := ih.primary_succ }

/-! ### Whole parses -/

/-- What is put together from expressions and elementary steps finds its errors in order. -/
theorem Alike.ordered (b : List Token) (final : Token) {α : Type} {p q : Parser α} (h : Alike Reading p q) :
    Ordered False b final p := by
  induction h with
  | base h =>
    cases h with
    | expression => exact (expressionsOrdered b final _).expression.imp nofun
  | outOfFuel => exact .outOfFuel
  | pure a => exact .pure a
  | bind _ _ ih ihf => exact ih.bind ihf
  | take? test => exact .take? nofun
  | sees test => exact fun _ k hs => ⟨k, [], .none hs rfl⟩
  | atEnd => exact fun _ k hs => ⟨k, [], .none hs rfl⟩
  | refuse cause => exact .refuse cause
  | recordHere cause => exact .recordHere nofun
  | freshId => exact .freshId
  | recovering _ ih => exact ih.recovering

theorem start_place (tokens : List Token) (nextId : ExprId) :
    Place (body tokens) (finalOf tokens) (.start tokens nextId) 0 :=
  ⟨rfl, Nat.zero_le _, rfl⟩

/-- What a parse has found from its start is in order. -/
theorem Stretch.inSourceOrder {inner : Prop} {tokens : List Token} {nextId : ExprId} {s : State} {k : Nat}
    {found : List (Nat × SyntaxError)}
    (h : Stretch inner (body tokens) (finalOf tokens) (.start tokens nextId) 0 s k found) :
    InSourceOrder (upToEnd tokens) s.errors.toList :=
  ⟨found, by simp [h.errors, State.start], fun x hx => (h.places x hx).2.2, h.order⟩

theorem parse_inSourceOrder (tokens : List Token) (nextId : ExprId) :
    InSourceOrder (upToEnd tokens) (parse tokens nextId).errors := by
  obtain ⟨stmts, s, hparse⟩ := declarations_fuelFor tokens nextId
  have halike := (statementsAlike (Nat.le_refl (fuelFor tokens))).declarations false #[]
  have hends := halike.ordered (body tokens) (finalOf tokens) _ 0 (start_place tokens nextId)
  rw [hparse] at hends
  obtain ⟨k, found, h⟩ := hends
  rw [parse, hparse]
  exact h.inSourceOrder

theorem parseExpression_inSourceOrder (tokens : List Token) (nextId : ExprId) :
    InSourceOrder (upToEnd tokens) (parseExpression tokens nextId).errors := by
  have hordered : Ordered False (body tokens) (finalOf tokens) (expression (fuelFor tokens)) :=
    (expressionsOrdered (body tokens) (finalOf tokens) (fuelFor tokens)).expression.imp nofun
  have hends := hordered _ 0 (start_place tokens nextId)
  have hlasts := expression_lasts nextId (Nat.le_refl (fuelFor tokens))
  rw [parseExpression]
  cases hrun : expression (fuelFor tokens) (.start tokens nextId) with
  | ok _ _ =>
    rw [hrun] at hends
    obtain ⟨_, _, h⟩ := hends
    exact h.inSourceOrder
  | error stop s =>
    cases stop with
    | refused e =>
      rw [hrun] at hends
      obtain ⟨token, cause⟩ := e
      obtain ⟨rfl, _, _, h⟩ := hends
      exact (h.refused cause).inSourceOrder
    | outOfFuel => exact absurd hrun (hlasts s)

/-! ### Lines -/

/-- No token is on a line before that of a token in front of it. -/
def LinesOrdered (tokens : List Token) : Prop := tokens.Pairwise (·.line ≤ ·.line)

theorem LinesOrdered.upToEnd {tokens : List Token} (h : LinesOrdered tokens) : LinesOrdered (upToEnd tokens) := by
  obtain ⟨after, hafter⟩ := sealed_toList tokens
  have hsealed : LinesOrdered (sealed tokens).toList := by
    unfold sealed
    split
    · exact h
    · rw [Array.toList_push, List.toList_toArray]
      refine List.pairwise_append.mpr ⟨h, List.pairwise_singleton _ _, fun t ht u hu => ?_⟩
      rw [List.mem_singleton.mp hu]
      obtain ⟨before, last, rfl⟩ : ∃ before last, tokens = before ++ [last] :=
        ⟨_, _, (List.dropLast_concat_getLast (List.ne_nil_of_mem ht)).symm⟩
      rw [List.getLast?_concat]
      rcases List.mem_append.mp ht with ht | ht
      · exact (List.pairwise_append.mp h).2.2 t ht last List.mem_cons_self
      · have hline : t.line = last.line := congrArg Token.line (List.mem_singleton.mp ht)
        exact Nat.le_of_eq hline
  rw [hafter] at hsealed
  exact (List.pairwise_append.mp hsealed).1

/-- Of errors in order, those that are no invalid targets are on the lines in order. -/
theorem InSourceOrder.lines {tokens : List Token} {errors : List SyntaxError} (h : InSourceOrder tokens errors)
    (hlines : LinesOrdered tokens) :
    (errors.filter (·.cause ≠ .invalidTarget)).Pairwise (·.token.line ≤ ·.token.line) := by
  obtain ⟨found, rfl, hplaces, horder⟩ := h
  rw [List.filter_map]
  refine List.pairwise_map.mpr ((horder.filter _).imp_of_mem fun {x y} hx hy hxy => ?_)
  obtain ⟨hx, -⟩ := List.mem_filter.mp hx
  obtain ⟨hy, hcause⟩ := List.mem_filter.mp hy
  rcases hxy with hle | ⟨hlate, -⟩
  · rcases Nat.lt_or_eq_of_le hle with hlt | heq
    · obtain ⟨hi, hxi⟩ := List.getElem?_eq_some_iff.mp (hplaces x hx)
      obtain ⟨hj, hyj⟩ := List.getElem?_eq_some_iff.mp (hplaces y hy)
      rw [← hxi, ← hyj]
      exact List.pairwise_iff_getElem.mp hlines x.1 y.1 hi hj hlt
    · have hsame : x.2.token = y.2.token := Option.some.inj ((hplaces x hx).symm.trans (heq ▸ hplaces y hy))
      exact Nat.le_of_eq (congrArg Token.line hsame)
  · simp [hlate] at hcause

/-- Syntax errors are found in the order of their tokens, but for an invalid target, which is found behind errors of
    the same expression at later tokens. So the lines of all others are in order, if those of the tokens are. -/
theorem errors_in_order (tokens : List Token) (nextId : ExprId) :
    InSourceOrder (upToEnd tokens) (parse tokens nextId).errors ∧
      InSourceOrder (upToEnd tokens) (parseExpression tokens nextId).errors ∧
      (LinesOrdered tokens →
        ((parse tokens nextId).errors.filter (·.cause ≠ .invalidTarget)).Pairwise (·.token.line ≤ ·.token.line) ∧
        ((parseExpression tokens nextId).errors.filter (·.cause ≠ .invalidTarget)).Pairwise
          (·.token.line ≤ ·.token.line)) :=
  ⟨parse_inSourceOrder tokens nextId, parseExpression_inSourceOrder tokens nextId, fun hlines =>
    ⟨(parse_inSourceOrder tokens nextId).lines hlines.upToEnd,
      (parseExpression_inSourceOrder tokens nextId).lines hlines.upToEnd⟩⟩

/-- Two errors behind two invalid targets are on the lines in order. -/
theorem errors_in_order_four_lines :
    let tokens := Scan.tokens (Scan.items "1 = f(\n2 = 3);\nprint;\nvar;")
    LinesOrdered tokens ∧ (parse tokens 0).errors.map (·.token.line) = [2, 1, 3, 4] ∧
      ((parse tokens 0).errors.filter (·.cause ≠ .invalidTarget)).Pairwise (·.token.line ≤ ·.token.line) := by
  intro tokens
  have hlines : LinesOrdered tokens := by
    unfold LinesOrdered
    decide +kernel
  exact ⟨hlines, by decide +kernel, ((errors_in_order tokens 0).2.2 hlines).1⟩

/-- In a value that is itself an assignment, the inner of two invalid targets is found first. -/
theorem invalid_targets_out_of_order :
    let tokens := Scan.tokens (Scan.items "1\n= 2\n= 3;")
    LinesOrdered tokens ∧ ¬ (parse tokens 0).errors.Pairwise (·.token.line ≤ ·.token.line) := by
  intro tokens
  refine ⟨?_, by decide +kernel⟩
  unfold LinesOrdered
  decide +kernel

end Lox.Parse
