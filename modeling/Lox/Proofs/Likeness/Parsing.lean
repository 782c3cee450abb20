import Lox.Proofs.Likeness.Trees
import Lox.Proofs.Parsing.Steps
import Mathlib.Data.Option.Basic

/-! # Parsing like tokens

Parsing looks at the kinds of tokens only. Two parses of tokens that stand for each other take the same steps
(`Matches`); they find the same errors, at tokens that stand for each other, and build like trees
(`parse_like`). -/

namespace Lox

/-- The same cause, at tokens that stand for each other. -/
structure SyntaxError.Like (L : Likeness) (e e' : SyntaxError) : Prop where
  token : L.token e.token e'.token
  cause : e'.cause = e.cause

namespace Parse

/-- The same is left to read, and identities that are handed out from here on stand for each other. -/
structure State.Like (L : Likeness) (s s' : State) : Prop where
  rest : List.Forall₂ L.token s.rest s'.rest
  final : L.token s.final s'.final
  errors : List.Forall₂ (SyntaxError.Like L) s.errors.toList s'.errors.toList
  ids : ∀ k, L.id (s.nextId + k) (s'.nextId + k)

inductive Stop.Like (L : Likeness) : Stop → Stop → Prop
  | refused {e e' : SyntaxError} (h : e.Like L e') : Stop.Like L (.refused e) (.refused e')
  | outOfFuel : Stop.Like L .outOfFuel .outOfFuel

/-- Both give results that `R` relates, or both stop for the same reason. -/
inductive Agree (L : Likeness) {α : Type} (R : α → α → Prop) :
    EStateM.Result Stop State α → EStateM.Result Stop State α → Prop
  | ok {a a' : α} {s s' : State} (hs : s.Like L s') (h : R a a') : Agree L R (.ok a s) (.ok a' s')
  | error {stop stop' : Stop} {s s' : State} (hs : s.Like L s') (h : stop.Like L stop') :
    Agree L R (.error stop s) (.error stop' s')

/-- From like states on, both parsing functions agree. -/
def Matches (L : Likeness) {α : Type} (R : α → α → Prop) (x y : Parser α) : Prop :=
  ∀ s s' : State, s.Like L s' → Agree L R (x s) (y s')

section
variable {L : Likeness} {α β : Type} {R : α → α → Prop} {S : β → β → Prop} {x y : Parser α}

namespace Matches

theorem pure {a a' : α} (h : R a a') : Matches L R (pure a) (pure a') := fun _ _ hs => .ok hs h

theorem bind {f g : α → Parser β} (hx : Matches L R x y) (hf : ∀ {a a' : α}, R a a' → Matches L S (f a) (g a')) :
    Matches L S (x >>= f) (y >>= g) := by
  intro s s' hs
  have hx := hx s s' hs
  rw [bind_apply, bind_apply]
  generalize x s = result, y s' = result' at hx
  cases hx with
  | error hs h => exact .error hs h
  | ok hs h => exact hf h _ _ hs

theorem map {f g : α → β} (hx : Matches L R x y) (hf : ∀ {a a' : α}, R a a' → S (f a) (g a')) :
    Matches L S (f <$> x) (g <$> y) := by
  rw [map_eq_pure_bind, map_eq_pure_bind]
  exact .bind hx fun h => .pure (hf h)

theorem outOfFuel : Matches L R Parse.outOfFuel Parse.outOfFuel := fun _ _ hs => .error hs .outOfFuel

end Matches

theorem forall₂_push {done done' : Array α} {a a' : α} (h : List.Forall₂ R done.toList done'.toList) (ha : R a a') :
    List.Forall₂ R (done.push a).toList (done'.push a').toList := by
  rw [Array.toList_push, Array.toList_push]
  exact List.rel_append h (.cons ha .nil)

/-! ### Reading tokens -/

theorem State.Like.next {s s' : State} (h : s.Like L s') : L.token s.next s'.next := by
  have hrest := h.rest
  unfold State.next
  generalize s.rest = ts, s'.rest = ts' at hrest
  cases hrest with
  | nil => exact h.final
  | cons ht _ => exact ht

theorem State.Like.record {s s' : State} (h : s.Like L s') {e e' : SyntaxError} (he : e.Like L e') :
    State.Like L { s with errors := s.errors.push e } { s' with errors := s'.errors.push e' } :=
  ⟨h.rest, h.final, forall₂_push h.errors he, h.ids⟩

theorem take?_matches (test : Kind → Bool) : Matches L (Option.Rel L.token) (take? test) (take? test) := by
  intro s s' hs
  have hrest := hs.rest
  unfold take?
  generalize hts : s.rest = ts, hts' : s'.rest = ts' at hrest
  cases hrest with
  | nil => exact .ok hs .none
  | cons ht hrest =>
    dsimp only
    rw [L.kind_eq ht]
    split
    · exact .ok ⟨hrest, hs.final, hs.errors, hs.ids⟩ (.some ht)
    · exact .ok hs .none

theorem sees_matches (test : Kind → Bool) : Matches L Eq (sees test) (sees test) := by
  intro s s' hs
  have hrest := hs.rest
  unfold sees
  generalize hts : s.rest = ts, hts' : s'.rest = ts' at hrest
  cases hrest with
  | nil => exact .ok hs rfl
  | cons ht _ => exact .ok hs (congrArg test (L.kind_eq ht).symm)

theorem atEnd_matches : Matches L Eq atEnd atEnd := by
  intro s s' hs
  have hrest := hs.rest
  unfold atEnd
  generalize hts : s.rest = ts, hts' : s'.rest = ts' at hrest
  cases hrest <;> exact .ok hs rfl

theorem refuse_matches (cause : SyntaxError.Cause) : Matches L R (refuse cause) (refuse cause) :=
  fun _ _ hs => .error hs (.refused ⟨hs.next, rfl⟩)

theorem record_matches {e e' : SyntaxError} (h : e.Like L e') : Matches L (fun _ _ => True) (record e) (record e') :=
  fun _ _ hs => .ok (hs.record h) trivial

theorem freshId_matches : Matches L L.id freshId freshId := by
  intro s s' hs
  refine .ok ⟨hs.rest, hs.final, hs.errors, fun k => ?_⟩ (hs.ids 0)
  simpa only [Nat.add_assoc] using hs.ids (1 + k)

theorem expect_matches (test : Kind → Bool) (cause : SyntaxError.Cause) :
    Matches L L.token (expect test cause) (expect test cause) := by
  refine .bind (take?_matches test) fun hr => ?_
  cases hr with
  | none => exact refuse_matches cause
  | some ht => exact .pure ht

theorem unlessNext_matches (test : Kind → Bool) {default default' : α} (hdefault : R default default')
    (h : Matches L R x y) : Matches L R (unlessNext test default x) (unlessNext test default' y) := by
  refine .bind (sees_matches test) ?_
  rintro b _ rfl
  cases b with
  | true => exact .pure hdefault
  | false => exact h

theorem after?_matches (test : Kind → Bool) (h : Matches L R x y) :
    Matches L (Option.Rel R) (after? test x) (after? test y) := by
  refine .bind (take?_matches test) fun hr => ?_
  cases hr with
  | none => exact .pure .none
  | some _ => exact .map h .some

theorem checkArity_matches {size size' : Nat} (hsize : size' = size) (cause : SyntaxError.Cause) :
    Matches L (fun _ _ => True) (checkArity size cause) (checkArity size' cause) := by
  subst hsize
  unfold checkArity
  split
  · intro s s' hs
    exact .ok (hs.record ⟨hs.next, rfl⟩) trivial
  · exact .pure trivial

end
/-! ### Expressions -/

section
variable {L : Likeness} {n : Nat}

theorem join_like (level : Level) {l l' r r' : Expr} {operator operator' : Token} (hl : l.Like L l')
    (hop : L.token operator operator') (hr : r.Like L r') :
    (level.join l operator r).Like L (level.join l' operator' r') := by
  cases level with
  | or | and => exact .logical hl hop hr
  | equality | comparison | term | factor => exact .binary hl hop hr

theorem likeAll_push {done done' : Array Expr} {e e' : Expr} (h : Expr.LikeAll L done.toList done'.toList)
    (he : e.Like L e') : Expr.LikeAll L (done.push e).toList (done'.push e').toList := by
  rw [Array.toList_push, Array.toList_push]
  exact h.append (.cons he .nil)

/-- With this fuel the functions for expressions match. -/
structure ExpressionsMatch (L : Likeness) (n : Nat) : Prop where
  expression : Matches L (Expr.Like L) (Parse.expression n) (Parse.expression n)
  binary : ∀ level, Matches L (Expr.Like L) (Parse.binary n level) (Parse.binary n level)
  chain : ∀ level l l', l.Like L l' → Matches L (Expr.Like L) (Parse.chain n level l) (Parse.chain n level l')
  unary : Matches L (Expr.Like L) (Parse.unary n) (Parse.unary n)
  calls : ∀ {f f' : Expr}, f.Like L f' → Matches L (Expr.Like L) (Parse.calls n f) (Parse.calls n f')
  arguments : ∀ {done done' : Array Expr}, Expr.LikeAll L done.toList done'.toList →
    Matches L (fun es es' => Expr.LikeAll L es.toList es'.toList) (Parse.arguments n done) (Parse.arguments n done')
  primary : Matches L (Expr.Like L) (Parse.primary n) (Parse.primary n)

namespace ExpressionsMatch
variable (ih : ExpressionsMatch L n)
include ih

theorem operand (level : Level) : Matches L (Expr.Like L) (Parse.operand n level) (Parse.operand n level) := by
  unfold Parse.operand
  cases level.tighter? with
  | none => exact ih.unary
  | some tighter => exact ih.binary tighter

theorem expression_succ : Matches L (Expr.Like L) (Parse.expression (n + 1)) (Parse.expression (n + 1)) := by
  refine .bind (ih.binary .or) fun htarget => .bind (take?_matches _) fun hr => ?_
  cases hr with
  | none => exact .pure htarget
  | some hequals =>
    refine .bind ih.expression fun hvalue => ?_
    cases htarget with
    | var _ hname => exact .bind freshId_matches fun hid => .pure (.assign hid hname hvalue)
    | _ => exact .bind (record_matches ⟨hequals, rfl⟩) fun _ => .pure hvalue

theorem binary_succ (level : Level) :
    Matches L (Expr.Like L) (Parse.binary (n + 1) level) (Parse.binary (n + 1) level) :=
  .bind (ih.operand level) fun hleft => ih.chain level _ _ hleft

theorem chain_succ (level : Level) (l l' : Expr) (hl : l.Like L l') :
    Matches L (Expr.Like L) (Parse.chain (n + 1) level l) (Parse.chain (n + 1) level l') := by
  refine .bind (take?_matches _) fun hr => ?_
  cases hr with
  | none => exact .pure hl
  | some hop => exact .bind (ih.operand level) fun hright => ih.chain level _ _ (join_like level hl hop hright)

theorem unary_succ : Matches L (Expr.Like L) (Parse.unary (n + 1)) (Parse.unary (n + 1)) := by
  refine .bind (take?_matches _) fun hr => ?_
  cases hr with
  | none => exact .bind ih.primary fun h => ih.calls h
  | some hop => exact .bind ih.unary fun h => .pure (.unary hop h)

theorem calls_succ {f f' : Expr} (hf : f.Like L f') :
    Matches L (Expr.Like L) (Parse.calls (n + 1) f) (Parse.calls (n + 1) f') := by
  refine .bind (take?_matches _) fun hr => ?_
  cases hr with
  | none => exact .pure hf
  | some _ =>
    refine .bind (unlessNext_matches _ .nil (ih.arguments .nil)) fun hargs => ?_
    exact .bind (expect_matches _ _) fun hparen => ih.calls (.call hf hparen hargs)

theorem arguments_succ {done done' : Array Expr} (hdone : Expr.LikeAll L done.toList done'.toList) :
    Matches L (fun es es' => Expr.LikeAll L es.toList es'.toList) (Parse.arguments (n + 1) done)
      (Parse.arguments (n + 1) done') := by
  refine .bind (checkArity_matches hdone.length_eq _) fun _ => .bind ih.expression fun he => ?_
  refine .bind (take?_matches _) fun hr => ?_
  cases hr with
  | none => exact .pure (likeAll_push hdone he)
  | some _ => exact ih.arguments (likeAll_push hdone he)

theorem primary_succ : Matches L (Expr.Like L) (Parse.primary (n + 1)) (Parse.primary (n + 1)) := by
  refine .bind (take?_matches _) fun hr => ?_
  cases hr with
  | none => exact refuse_matches _
  | some ht =>
    dsimp only
    rw [L.kind_eq ht]
    split
    · exact .pure (.literal _)
    · split
      · exact .bind freshId_matches fun hid => .pure (.var hid ht)
      · exact .bind ih.expression fun he => .bind (expect_matches _ _) fun _ => .pure (.grouping he)

end ExpressionsMatch

theorem expressionsMatch : ∀ n, ExpressionsMatch L n
  | 0 =>
    { expression := .outOfFuel
      binary := fun _ => .outOfFuel
      chain := fun _ _ _ _ => .outOfFuel
      unary := .outOfFuel
      calls := fun _ => .outOfFuel
      arguments := fun _ => .outOfFuel
      primary := .outOfFuel }
  | n + 1 =>
    have ih := expressionsMatch n
    { expression := ih.expression_succ
      binary := ih.binary_succ
      chain := ih.chain_succ
      unary := ih.unary_succ
      calls := ih.calls_succ
      arguments := ih.arguments_succ
      primary := ih.primary_succ }

theorem expression_matches : Matches L (Expr.Like L) (expression n) (expression n) := (expressionsMatch n).expression

end

/-! ### Statements -/

section
variable {L : Likeness} {n : Nat}

theorem like?_of_rel {e e' : Option Expr} (h : Option.Rel (Expr.Like L) e e') : Expr.Like? L e e' := by
  cases h with
  | none => exact .none
  | some h => exact .some h

theorem stmt_like?_of_rel {s s' : Option Stmt} (h : Option.Rel (Stmt.Like L) s s') : Stmt.Like? L s s' := by
  cases h with
  | none => exact .none
  | some h => exact .some h

theorem expressionStatement_matches : Matches L (Stmt.Like L) (expressionStatement n) (expressionStatement n) :=
  .bind expression_matches fun he => .bind (expect_matches _ _) fun _ => .pure (.expression he)

theorem maybe_matches (test : Kind → Bool) : Matches L (Expr.Like? L) (unlessNext test none (some <$> expression n))
    (unlessNext test none (some <$> expression n)) :=
  unlessNext_matches test .none (.map expression_matches .some)

theorem varDeclaration_matches : Matches L (Stmt.Like L) (varDeclaration n) (varDeclaration n) :=
  .bind (expect_matches _ _) fun hname => .bind (after?_matches _ expression_matches) fun hinit =>
    .bind (expect_matches _ _) fun _ => .pure (.var hname (like?_of_rel hinit))

theorem printStatement_matches : Matches L (Stmt.Like L) (printStatement n) (printStatement n) :=
  .bind expression_matches fun he => .bind (expect_matches _ _) fun _ => .pure (.print he)

theorem returnStatement_matches {keyword keyword' : Token} (hkeyword : L.token keyword keyword') :
    Matches L (Stmt.Like L) (returnStatement n keyword) (returnStatement n keyword') :=
  .bind (maybe_matches _) fun hvalue => .bind (expect_matches _ _) fun _ => .pure (.ret hkeyword hvalue)

theorem parameters_matches : ∀ (n : Nat) (done done' : Array Token), List.Forall₂ L.token done.toList done'.toList →
    Matches L (fun ps ps' => List.Forall₂ L.token ps.toList ps'.toList) (parameters n done) (parameters n done')
  | 0, _, _, _ => .outOfFuel
  | n + 1, done, done', hdone => by
    refine .bind (checkArity_matches hdone.length_eq.symm _) fun _ => .bind (expect_matches _ _) fun hname => ?_
    have hpush := forall₂_push hdone hname
    refine .bind (take?_matches _) fun hr => ?_
    cases hr with
    | none => exact .pure hpush
    | some _ => exact parameters_matches n _ _ hpush

/-- The clauses of two `for` statements are like. -/
structure ForClauses.Like (L : Likeness) (clauses clauses' : ForClauses) : Prop where
  initializer : Stmt.Like? L clauses.initializer clauses'.initializer
  condition : Expr.Like? L clauses.condition clauses'.condition
  increment : Expr.Like? L clauses.increment clauses'.increment

theorem forInitializer_matches : Matches L (Stmt.Like? L) (forInitializer n) (forInitializer n) := by
  refine .bind (take?_matches _) fun hr => ?_
  cases hr with
  | some _ => exact .pure .none
  | none =>
    refine .bind (take?_matches _) fun hr => ?_
    cases hr with
    | some _ => exact .map varDeclaration_matches .some
    | none => exact .map expressionStatement_matches .some

theorem forClauses_matches : Matches L (ForClauses.Like L) (forClauses n) (forClauses n) :=
  .bind (expect_matches _ _) fun _ => .bind forInitializer_matches fun hinit =>
    .bind (maybe_matches _) fun hcondition => .bind (expect_matches _ _) fun _ =>
      .bind (maybe_matches _) fun hincrement => .bind (expect_matches _ _) fun _ =>
        .pure ⟨hinit, hcondition, hincrement⟩

theorem ForClauses.Like.toStmt {clauses clauses' : ForClauses} (h : clauses.Like L clauses') {body body' : Stmt}
    (hbody : body.Like L body') : (clauses.toStmt body).Like L (clauses'.toStmt body') := by
  obtain ⟨init, condition, increment⟩ := clauses
  obtain ⟨init', condition', increment'⟩ := clauses'
  obtain ⟨hinit, hcondition, hincrement⟩ := h
  have hwhole : ∀ {inner inner' : Stmt}, inner.Like L inner' →
      (Stmt.loop (condition.getD (.literal (.bool true))) inner).Like L
        (.loop (condition'.getD (.literal (.bool true))) inner') := fun hinner => by
    cases hcondition with
    | none => exact .loop (.literal _) hinner
    | some hc => exact .loop hc hinner
  cases hincrement with
  | none =>
    cases hinit with
    | none => exact hwhole hbody
    | some hs => exact .block (.cons hs (.cons (hwhole hbody) .nil))
  | some he =>
    have hinner : Stmt.Like L (.block [body, .expression _]) (.block [body', .expression _]) :=
      .block (.cons hbody (.cons (.expression he) .nil))
    cases hinit with
    | none => exact hwhole hinner
    | some hs => exact .block (.cons hs (.cons (hwhole hinner) .nil))

theorem condition_matches (keyword clause : String) :
    Matches L (Expr.Like L) (condition n keyword clause) (condition n keyword clause) :=
  .bind (expect_matches _ _) fun _ => .bind expression_matches fun he => .bind (expect_matches _ _) fun _ => .pure he

theorem recover_like {ts ts' : List Token} (h : List.Forall₂ L.token ts ts') :
    List.Forall₂ L.token (recover ts) (recover ts') := by
  have hskip : ∀ {ts ts' : List Token}, List.Forall₂ L.token ts ts' → ∀ {t t' : Token}, L.token t t' →
      List.Forall₂ L.token (skipToBoundary t ts) (skipToBoundary t' ts') := by
    intro ts ts' h
    induction h with
    | nil => exact fun _ => .nil
    | cons hu hus ih =>
      intro t t' ht
      rw [skipToBoundary, skipToBoundary, L.kind_eq ht, L.kind_eq hu]
      split
      · exact .cons hu hus
      · exact ih hu
  cases h with
  | nil => exact .nil
  | cons ht hts => exact hskip hts ht

theorem recovering_matches {x y : Parser Stmt} (h : Matches L (Stmt.Like L) x y) :
    Matches L (Stmt.Like? L) (recovering x) (recovering y) := by
  intro s s' hs
  have h := h s s' hs
  unfold recovering
  generalize x s = result, y s' = result' at h
  cases h with
  | ok hs h => exact .ok hs (.some h)
  | error hs h =>
    cases h with
    | outOfFuel => exact .error hs .outOfFuel
    | refused he =>
      have hs := hs.record he
      exact .ok ⟨recover_like hs.rest, hs.final, hs.errors, hs.ids⟩ .none

/-- With this fuel the functions for statements match. -/
structure StatementsMatch (L : Likeness) (n : Nat) : Prop where
  statement : Matches L (Stmt.Like L) (Parse.statement n) (Parse.statement n)
  function : Matches L (Stmt.Like L) (Parse.function n) (Parse.function n)
  declaration : Matches L (Stmt.Like? L) (Parse.declaration n) (Parse.declaration n)
  block : Matches L (Stmt.LikeAll L) (Parse.block n) (Parse.block n)
  declarations : ∀ inBlock done done', Stmt.LikeAll L done.toList done'.toList →
    Matches L (fun ss ss' => Stmt.LikeAll L ss.toList ss'.toList) (Parse.declarations n inBlock done)
      (Parse.declarations n inBlock done')

namespace StatementsMatch
variable (ih : StatementsMatch L n)
include ih

theorem inner {t t' : Token} (ht : L.token t t') : Matches L (Stmt.Like L) (Parse.inner n t) (Parse.inner n t') := by
  unfold Parse.inner
  rw [L.kind_eq ht]
  split
  · exact .bind forClauses_matches fun hclauses => .bind ih.statement fun hbody => .pure (hclauses.toStmt hbody)
  · exact .bind (condition_matches _ _) fun hc => .bind ih.statement fun hyes =>
      .bind (after?_matches _ ih.statement) fun hno => .pure (.branch hc hyes (stmt_like?_of_rel hno))
  · exact printStatement_matches
  · exact returnStatement_matches ht
  · exact .bind (condition_matches _ _) fun hc => .bind ih.statement fun hbody => .pure (.loop hc hbody)
  · exact .map ih.block .block

theorem statement_succ : Matches L (Stmt.Like L) (Parse.statement (n + 1)) (Parse.statement (n + 1)) := by
  rw [Parse.statement_succ]
  refine .bind (take?_matches _) fun hr => ?_
  cases hr with
  | none => exact expressionStatement_matches
  | some ht => exact ih.inner ht

theorem function_succ : Matches L (Stmt.Like L) (Parse.function (n + 1)) (Parse.function (n + 1)) :=
  .bind (expect_matches _ _) fun hname => .bind (expect_matches _ _) fun _ =>
    .bind (unlessNext_matches _ .nil (parameters_matches n _ _ .nil)) fun hparameters =>
      .bind (expect_matches _ _) fun _ => .bind (expect_matches _ _) fun _ =>
        .bind ih.block fun hbody => .pure (.function hname hparameters hbody)

theorem declaration_succ : Matches L (Stmt.Like? L) (Parse.declaration (n + 1)) (Parse.declaration (n + 1)) := by
  refine recovering_matches (.bind (take?_matches _) fun hr => ?_)
  cases hr with
  | some _ => exact ih.function
  | none =>
    refine .bind (take?_matches _) fun hr => ?_
    cases hr with
    | some _ => exact varDeclaration_matches
    | none => exact ih.statement

theorem block_succ : Matches L (Stmt.LikeAll L) (Parse.block (n + 1)) (Parse.block (n + 1)) :=
  .bind (ih.declarations true _ _ .nil) fun hbody => .bind (expect_matches _ _) fun _ => .pure hbody

theorem declarations_succ (inBlock : Bool) (done done' : Array Stmt) (hdone : Stmt.LikeAll L done.toList done'.toList) :
    Matches L (fun ss ss' => Stmt.LikeAll L ss.toList ss'.toList) (Parse.declarations (n + 1) inBlock done)
      (Parse.declarations (n + 1) inBlock done') := by
  refine .bind atEnd_matches ?_
  rintro atEnd _ rfl
  split
  · exact .pure hdone
  refine .bind (sees_matches _) ?_
  rintro closing _ rfl
  split
  · exact .pure hdone
  refine .bind ih.declaration fun hr => ?_
  cases hr with
  | none => exact ih.declarations inBlock _ _ hdone
  | some h =>
    refine ih.declarations inBlock _ _ ?_
    rw [Array.toList_push, Array.toList_push]
    exact hdone.append (.cons h .nil)

end StatementsMatch

theorem statementsMatch : ∀ n, StatementsMatch L n
  | 0 =>
    { statement := .outOfFuel
      function := .outOfFuel
      declaration := .outOfFuel
      block := .outOfFuel
      declarations := fun _ _ _ _ => .outOfFuel }
  | n + 1 =>
    have ih := statementsMatch n
    { statement := ih.statement_succ
      function := ih.function_succ
      declaration := ih.declaration_succ
      block := ih.block_succ
      declarations := ih.declarations_succ }

end

end Parse

/-! ### Whole parses -/

/-- Like statements, and the same errors at tokens that stand for each other. -/
structure Parsed.Like (L : Likeness) (parsed parsed' : Parsed) : Prop where
  statements : Stmt.LikeAll L parsed.statements parsed'.statements
  errors : List.Forall₂ (SyntaxError.Like L) parsed.errors parsed'.errors

namespace Parse
variable {L : Likeness} {tokens tokens' : List Token} {nextId nextId' : ExprId}

theorem isEnd_eq {t t' : Token} (h : L.token t t') : t'.isEnd = t.isEnd := by
  unfold Token.isEnd
  rw [L.kind_eq h]

theorem body_like (h : List.Forall₂ L.token tokens tokens') : List.Forall₂ L.token (body tokens) (body tokens') := by
  unfold body
  induction h with
  | nil => exact .nil
  | cons ht _ ih =>
    rw [List.takeWhile_cons, List.takeWhile_cons, isEnd_eq ht]
    split
    · exact .cons ht ih
    · exact .nil

/-- The end markers of like tokens stand for each other. -/
theorem find_end_like (h : List.Forall₂ L.token tokens tokens') :
    Option.Rel L.token (tokens.find? (·.isEnd)) (tokens'.find? (·.isEnd)) := by
  induction h with
  | nil => exact .none
  | cons ht _ ih =>
    rw [List.find?_cons, List.find?_cons, isEnd_eq ht]
    split
    · exact .some ht
    · exact ih

/-- The end markers that two parses stop at stand for each other, if the tokens have one. -/
theorem finalOf_like (h : List.Forall₂ L.token tokens tokens') (hend : ∃ t ∈ tokens, t.isEnd = true) :
    L.token (finalOf tokens) (finalOf tokens') := by
  have hfind := find_end_like h
  obtain ⟨final, hfinal⟩ := Option.isSome_iff_exists.mp (List.find?_isSome.mpr hend)
  unfold finalOf
  rw [hfinal] at hfind ⊢
  cases hfind' : tokens'.find? (·.isEnd) with
  | none => rw [hfind'] at hfind; cases hfind
  | some final' =>
    rw [hfind'] at hfind
    cases hfind with
    | some h => exact h

/-- They do without an end marker too, if end markers on any two lines stand for each other. -/
theorem finalOf_like_of_atEnd (h : List.Forall₂ L.token tokens tokens')
    (hend : ∀ line line', L.token (.atEnd line) (.atEnd line')) : L.token (finalOf tokens) (finalOf tokens') := by
  have hfind := find_end_like h
  unfold finalOf
  generalize tokens.find? (·.isEnd) = final, tokens'.find? (·.isEnd) = final' at hfind ⊢
  cases hfind with
  | none => exact hend _ _
  | some h => exact h

theorem start_like (htokens : List.Forall₂ L.token tokens tokens') (hfinal : L.token (finalOf tokens) (finalOf tokens'))
    (hids : ∀ k, L.id (nextId + k) (nextId' + k)) : State.Like L (.start tokens nextId) (.start tokens' nextId') :=
  ⟨body_like htokens, hfinal, .nil, hids⟩

section
variable (htokens : List.Forall₂ L.token tokens tokens') (hfinal : L.token (finalOf tokens) (finalOf tokens'))
  (hids : ∀ k, L.id (nextId + k) (nextId' + k))
include htokens hfinal hids

theorem program_agrees :
    Agree L (fun ss ss' => Stmt.LikeAll L ss.toList ss'.toList)
      (declarations (fuelFor tokens) false #[] (.start tokens nextId))
      (declarations (fuelFor tokens') false #[] (.start tokens' nextId')) := by
  have hfuel : fuelFor tokens' = fuelFor tokens := by rw [fuelFor, fuelFor, htokens.length_eq]
  rw [hfuel]
  exact (statementsMatch (fuelFor tokens)).declarations false #[] #[] .nil _ _ (start_like htokens hfinal hids)

/-- Parsing like tokens builds like trees and finds like errors. -/
theorem parse_like : Parsed.Like L (parse tokens nextId) (parse tokens' nextId') := by
  have hagree := program_agrees htokens hfinal hids
  unfold parse
  generalize declarations (fuelFor tokens) false #[] (.start tokens nextId) = result,
    declarations (fuelFor tokens') false #[] (.start tokens' nextId') = result' at hagree
  cases hagree with
  | ok hs h => exact ⟨h, hs.errors⟩
  | error hs _ => exact ⟨.nil, hs.errors⟩

/-- Identities that are handed out after parsing like tokens still stand for each other. -/
theorem parse_ids_like (k : Nat) : L.id ((parse tokens nextId).nextId + k) ((parse tokens' nextId').nextId + k) := by
  have hagree := program_agrees htokens hfinal hids
  unfold parse
  generalize declarations (fuelFor tokens) false #[] (.start tokens nextId) = result,
    declarations (fuelFor tokens') false #[] (.start tokens' nextId') = result' at hagree
  cases hagree with
  | ok hs _ => exact hs.ids k
  | error hs _ => exact hs.ids k

end

end Parse
end Lox
