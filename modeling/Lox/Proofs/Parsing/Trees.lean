import Lox.Proofs.Parsing.Fuel
import Lox.Proofs.Scopes

/-! # Trees that a parse builds

All references of a parse differ in their identities, which are new ones (`Fresh`), and no declaration
is a branch or the body of a loop by itself (`Stmt.Plain`). This holds of what a parse keeps, with or
without errors (`parse_fresh`, `parse_plain`). -/

namespace Lox

/-- The references differ in their identities, which are from `lo` on and below `hi`. -/
structure Fresh (lo hi : ExprId) (refs : List Reference) : Prop where
  nodup : (refs.map Reference.id).Nodup
  lower : ∀ r ∈ refs, lo ≤ r.id
  upper : ∀ r ∈ refs, r.id < hi

namespace Fresh
variable {lo mid hi : ExprId} {refs refs' : List Reference}

theorem nil : Fresh lo hi [] := ⟨List.nodup_nil, by simp, by simp⟩

theorem single {r : Reference} (h : r.id = lo) : Fresh lo (lo + 1) [r] :=
  ⟨by simp, by simp [h], by simp [h]⟩

theorem mono {lo' hi' : ExprId} (h : Fresh lo hi refs) (hlo : lo' ≤ lo) (hhi : hi ≤ hi') : Fresh lo' hi' refs :=
  ⟨h.nodup, fun r hr => Nat.le_trans hlo (h.lower r hr), fun r hr => Nat.lt_of_lt_of_le (h.upper r hr) hhi⟩

theorem append (h : Fresh lo mid refs) (h' : Fresh mid hi refs') (hlo : lo ≤ mid) (hhi : mid ≤ hi) :
    Fresh lo hi (refs ++ refs') where
  nodup := by
    rw [List.map_append, List.nodup_append]
    refine ⟨h.nodup, h'.nodup, ?_⟩
    intro a ha b hb
    obtain ⟨r, hr, rfl⟩ := List.mem_map.mp ha
    obtain ⟨r', hr', rfl⟩ := List.mem_map.mp hb
    exact Nat.ne_of_lt (Nat.lt_of_lt_of_le (h.upper r hr) (h'.lower r' hr'))
  lower r hr := by
    rcases List.mem_append.mp hr with hr | hr
    · exact h.lower r hr
    · exact Nat.le_trans hlo (h'.lower r hr)
  upper r hr := by
    rcases List.mem_append.mp hr with hr | hr
    · exact Nat.lt_of_lt_of_le (h.upper r hr) hhi
    · exact h'.upper r hr

theorem perm (h : Fresh lo hi refs) (hp : refs.Perm refs') : Fresh lo hi refs' :=
  ⟨(hp.map Reference.id).nodup_iff.mp h.nodup, fun r hr => h.lower r (hp.mem_iff.mpr hr),
    fun r hr => h.upper r (hp.mem_iff.mpr hr)⟩

end Fresh

theorem Expr.referencesAll_append (es fs : List Expr) :
    Expr.referencesAll (es ++ fs) = Expr.referencesAll es ++ Expr.referencesAll fs := by
  induction es with
  | nil => rfl
  | cons e es ih => simp only [List.cons_append, Expr.referencesAll, ih, List.append_assoc]

theorem Stmt.referencesAll_append (ss ts : List Stmt) :
    Stmt.referencesAll (ss ++ ts) = Stmt.referencesAll ss ++ Stmt.referencesAll ts := by
  induction ss with
  | nil => rfl
  | cons s ss ih => simp only [List.cons_append, Stmt.referencesAll, ih, List.append_assoc]

theorem Stmt.plainAll_append {ss ts : List Stmt} (hs : Stmt.PlainAll ss) (ht : Stmt.PlainAll ts) :
    Stmt.PlainAll (ss ++ ts) := by
  induction ss with
  | nil => exact ht
  | cons s ss ih => exact ⟨hs.1, ih hs.2⟩

namespace Parse

theorem State.Takes.nextId_eq {s s' : State} {test : Kind → Bool} {t : Token} (h : s.Takes test t s') :
    s'.nextId = s.nextId := by rw [h.state]

theorem checkArity_nextId {size : Nat} {cause : SyntaxError.Cause} {s s' : State} {u : Unit}
    (h : checkArity size cause s = .ok u s') : s'.nextId = s.nextId := by
  rcases checkArity_ok h with ⟨-, rfl⟩ | rfl <;> rfl

/-! ### Expressions -/

theorem join_references (level : Level) (l r : Expr) (operator : Token) :
    (level.join l operator r).references = l.references ++ r.references := by
  cases level <;> rfl

/-- What parsing functions of expressions build with this fuel has fresh identities. -/
structure ExpressionsFresh (n : Nat) : Prop where
  expression : ∀ {s : State} {e : Expr} {s' : State}, expression n s = .ok e s' →
    Fresh s.nextId s'.nextId e.references
  binary : ∀ {level : Level} {s : State} {e : Expr} {s' : State}, binary n level s = .ok e s' →
    Fresh s.nextId s'.nextId e.references
  chain : ∀ {level : Level} {lo : ExprId} {left : Expr} {s : State} {e : Expr} {s' : State},
    chain n level left s = .ok e s' → lo ≤ s.nextId → Fresh lo s.nextId left.references →
      Fresh lo s'.nextId e.references
  unary : ∀ {s : State} {e : Expr} {s' : State}, unary n s = .ok e s' → Fresh s.nextId s'.nextId e.references
  calls : ∀ {lo : ExprId} {callee : Expr} {s : State} {e : Expr} {s' : State},
    calls n callee s = .ok e s' → lo ≤ s.nextId → Fresh lo s.nextId callee.references →
      Fresh lo s'.nextId e.references
  arguments : ∀ {lo : ExprId} {done : Array Expr} {s : State} {args : Array Expr} {s' : State},
    arguments n done s = .ok args s' → lo ≤ s.nextId → Fresh lo s.nextId (Expr.referencesAll done.toList) →
      Fresh lo s'.nextId (Expr.referencesAll args.toList)
  primary : ∀ {s : State} {e : Expr} {s' : State}, primary n s = .ok e s' → Fresh s.nextId s'.nextId e.references

namespace ExpressionsFresh
variable {n : Nat} {s s' : State} {e : Expr} (ih : ExpressionsFresh n)
include ih

theorem operand {level : Level} (h : operand n level s = .ok e s') : Fresh s.nextId s'.nextId e.references := by
  cases level with
  | factor => exact ih.unary h
  | or | and | equality | comparison | term => exact ih.binary h

theorem expression_succ (h : Parse.expression (n + 1) s = .ok e s') : Fresh s.nextId s'.nextId e.references := by
  obtain ⟨target, s₁, ht, h⟩ := expression_ok h
  have htarget := ih.binary ht
  have h₁ := ((expressionsAdvance n).binary .or |>.of_ok ht).nextId
  rcases h with ⟨-, rfl, rfl⟩ | ⟨equals, s₂, value, s₃, heq, hv, h⟩
  · exact htarget
  · have hvalue := ih.expression hv
    have h₂ := ((expressionsAdvance n).expression.of_ok hv).nextId
    rw [heq.nextId_eq] at hvalue h₂
    have hvalue := hvalue.mono h₁ (Nat.le_refl _)
    rcases h with ⟨id, name, -, rfl, rfl⟩ | ⟨rfl, rfl⟩
    · exact hvalue.append (.single rfl) (Nat.le_trans h₁ h₂) (Nat.le_succ _)
    · exact hvalue

theorem binary_succ {level : Level} (h : Parse.binary (n + 1) level s = .ok e s') :
    Fresh s.nextId s'.nextId e.references := by
  obtain ⟨left, s₁, hl, h⟩ := binary_ok h
  exact ih.chain h ((expressionsAdvance n).operand level |>.of_ok hl).nextId (ih.operand hl)

theorem chain_succ {level : Level} {lo : ExprId} {left : Expr} (h : Parse.chain (n + 1) level left s = .ok e s')
    (hlo : lo ≤ s.nextId) (hleft : Fresh lo s.nextId left.references) : Fresh lo s'.nextId e.references := by
  rcases chain_ok h with ⟨-, rfl, rfl⟩ | ⟨operator, s₁, right, s₂, hop, hr, h⟩
  · exact hleft
  · have hright := ih.operand hr
    have h₂ := ((expressionsAdvance n).operand level |>.of_ok hr).nextId
    rw [hop.nextId_eq] at hright h₂
    refine ih.chain h (Nat.le_trans hlo h₂) ?_
    rw [join_references]
    exact hleft.append hright hlo h₂

theorem unary_succ (h : Parse.unary (n + 1) s = .ok e s') : Fresh s.nextId s'.nextId e.references := by
  rcases unary_ok h with ⟨operator, s₁, right, hop, hr, rfl⟩ | ⟨-, callee, s₁, hc, h⟩
  · have hright := ih.unary hr
    rwa [hop.nextId_eq] at hright
  · exact ih.calls h ((expressionsAdvance n).primary.of_ok hc).nextId (ih.primary hc)

theorem calls_succ {lo : ExprId} {callee : Expr} (h : Parse.calls (n + 1) callee s = .ok e s')
    (hlo : lo ≤ s.nextId) (hcallee : Fresh lo s.nextId callee.references) : Fresh lo s'.nextId e.references := by
  rcases calls_ok h with ⟨-, rfl, rfl⟩ | ⟨opening, s₁, args, s₂, paren, s₃, hopening, hargs, hparen, h⟩
  · exact hcallee
  · have hall : s.nextId ≤ s₂.nextId ∧ Fresh s.nextId s₂.nextId (Expr.referencesAll args.toList) := by
      rcases hargs with ⟨rfl, rfl⟩ | ha
      · rw [hopening.nextId_eq]
        exact ⟨Nat.le_refl _, .nil⟩
      · have hle := ((expressionsAdvance n).arguments #[] |>.of_ok ha).nextId
        rw [hopening.nextId_eq] at hle
        exact ⟨hle, ih.arguments ha (Nat.le_of_eq hopening.nextId_eq.symm) .nil⟩
    refine ih.calls h ?_ ?_ <;> rw [hparen.nextId_eq]
    · exact Nat.le_trans hlo hall.1
    · exact hcallee.append hall.2 hlo hall.1

theorem arguments_succ {lo : ExprId} {done args : Array Expr} (h : Parse.arguments (n + 1) done s = .ok args s')
    (hlo : lo ≤ s.nextId) (hdone : Fresh lo s.nextId (Expr.referencesAll done.toList)) :
    Fresh lo s'.nextId (Expr.referencesAll args.toList) := by
  obtain ⟨s₁, e, s₂, hcheck, he, h⟩ := arguments_ok h
  have hexpr := ih.expression he
  have h₂ := ((expressionsAdvance n).expression.of_ok he).nextId
  rw [checkArity_nextId hcheck] at hexpr h₂
  have hpush : Fresh lo s₂.nextId (Expr.referencesAll (done.push e).toList) := by
    rw [Array.toList_push, Expr.referencesAll_append, Expr.referencesAll, Expr.referencesAll, List.append_nil]
    exact hdone.append hexpr hlo h₂
  rcases h with ⟨-, rfl, rfl⟩ | ⟨comma, s₃, hcomma, h⟩
  · exact hpush
  · refine ih.arguments h ?_ ?_ <;> rw [hcomma.nextId_eq]
    · exact Nat.le_trans hlo h₂
    · exact hpush

theorem primary_succ (h : Parse.primary (n + 1) s = .ok e s') : Fresh s.nextId s'.nextId e.references := by
  obtain ⟨t, s₁, ht, h⟩ := primary_ok h
  rw [← ht.nextId_eq]
  rcases h with ⟨v, -, rfl, rfl⟩ | ⟨-, -, rfl, rfl⟩ | ⟨-, -, inner, s₂, paren, hi, hparen, rfl⟩
  · exact .nil
  · exact .single rfl
  · rw [hparen.nextId_eq, Expr.references]
    exact ih.expression hi

end ExpressionsFresh

theorem expressionsFresh : ∀ n, ExpressionsFresh n
  | 0 => ⟨nofun, nofun, nofun, nofun, nofun, nofun, nofun⟩
  | n + 1 =>
    have ih := expressionsFresh n
    { expression := ih.expression_succ
      binary := ih.binary_succ
      chain := ih.chain_succ
      unary := ih.unary_succ
      calls := ih.calls_succ
      arguments := ih.arguments_succ
      primary := ih.primary_succ }

/-! ### Statements -/

/-- A statement that stands anywhere: fresh, and plain inside. -/
structure Kept (lo hi : ExprId) (s : Stmt) : Prop where
  fresh : Fresh lo hi s.references
  plain : s.Plain

/-- A statement that may be a branch or the body of a loop. -/
structure KeptInner (lo hi : ExprId) (s : Stmt) : Prop extends Kept lo hi s where
  notDeclaration : s.isDeclaration = false

/-- Statements in order. -/
structure KeptAll (lo hi : ExprId) (ss : List Stmt) : Prop where
  fresh : Fresh lo hi (Stmt.referencesAll ss)
  plain : Stmt.PlainAll ss

section
variable {n : Nat} {s s' : State} {stmt : Stmt}

theorem expression_fresh {e : Expr} (h : expression n s = .ok e s') : Fresh s.nextId s'.nextId e.references :=
  (expressionsFresh n).expression h

theorem maybe_fresh {e? : Option Expr} (h : Maybe n s e? s') :
    s.nextId ≤ s'.nextId ∧ Fresh s.nextId s'.nextId (Expr.references? e?) := by
  rcases h with ⟨rfl, rfl⟩ | ⟨e, he, rfl⟩
  · exact ⟨Nat.le_refl _, .nil⟩
  · exact ⟨((expression_advancing n).of_ok he).nextId, expression_fresh he⟩

theorem expressionStatement_kept (h : expressionStatement n s = .ok stmt s') : KeptInner s.nextId s'.nextId stmt := by
  obtain ⟨e, s₁, semicolon, he, hsemicolon, rfl⟩ := expressionStatement_ok h
  rw [hsemicolon.nextId_eq]
  exact ⟨⟨expression_fresh he, trivial⟩, rfl⟩

theorem varDeclaration_kept (h : varDeclaration n s = .ok stmt s') : Kept s.nextId s'.nextId stmt := by
  obtain ⟨name, s₁, init, s₂, semicolon, hname, hinit, hsemicolon, rfl⟩ := varDeclaration_ok h
  rw [hsemicolon.nextId_eq, ← hname.nextId_eq]
  refine ⟨?_, trivial⟩
  rcases hinit with ⟨rfl, rfl⟩ | ⟨equals, s₃, e, heq, he, rfl⟩
  · exact .nil
  · rw [← heq.nextId_eq]
    exact expression_fresh he

theorem printStatement_kept (h : printStatement n s = .ok stmt s') : KeptInner s.nextId s'.nextId stmt := by
  obtain ⟨e, s₁, semicolon, he, hsemicolon, rfl⟩ := printStatement_ok h
  rw [hsemicolon.nextId_eq]
  exact ⟨⟨expression_fresh he, trivial⟩, rfl⟩

theorem returnStatement_kept {keyword : Token} (h : returnStatement n keyword s = .ok stmt s') :
    KeptInner s.nextId s'.nextId stmt := by
  obtain ⟨value, s₁, semicolon, hvalue, hsemicolon, rfl⟩ := returnStatement_ok h
  rw [hsemicolon.nextId_eq]
  exact ⟨⟨(maybe_fresh hvalue).2, trivial⟩, rfl⟩

theorem forInitializer_kept {init : Option Stmt} (h : forInitializer n s = .ok init s') :
    s.nextId ≤ s'.nextId ∧ Fresh s.nextId s'.nextId (Stmt.references? init) ∧ ∀ i ∈ init, i.Plain := by
  have hle := ((forInitializer_advancing n).of_ok h).nextId
  refine ⟨hle, ?_⟩
  rcases forInitializer_ok h with ⟨semicolon, hs, rfl⟩ | ⟨keyword, s₁, decl, hk, hd, rfl⟩ | ⟨stmt, hs, rfl⟩
  · exact ⟨.nil, by simp⟩
  · have hdecl := varDeclaration_kept hd
    rw [hk.nextId_eq] at hdecl
    exact ⟨hdecl.fresh, by simpa using hdecl.plain⟩
  · have hstmt := expressionStatement_kept hs
    exact ⟨hstmt.fresh, by simpa using hstmt.plain⟩

/-- The references of a loop with clauses, in the order in which they are evaluated. -/
theorem toStmt_references (clauses : ForClauses) (body : Stmt) :
    (clauses.toStmt body).references = Stmt.references? clauses.initializer ++
      (Expr.references? clauses.condition ++ (body.references ++ Expr.references? clauses.increment)) := by
  obtain ⟨init, condition, increment⟩ := clauses
  cases init <;> cases condition <;> cases increment <;>
    simp [ForClauses.toStmt, Stmt.references, Stmt.references?, Stmt.referencesAll, Expr.references?, Expr.references]

theorem toStmt_plain {clauses : ForClauses} {body : Stmt} (hdecl : body.isDeclaration = false) (hbody : body.Plain)
    (hinit : ∀ i ∈ clauses.initializer, i.Plain) :
    (clauses.toStmt body).isDeclaration = false ∧ (clauses.toStmt body).Plain := by
  obtain ⟨init, condition, increment⟩ := clauses
  have hloop : ∀ e : Expr, (Stmt.block [body, .expression e]).Plain := fun e => ⟨hbody, trivial, trivial⟩
  cases init with
  | none => cases increment with
    | none => exact ⟨rfl, hdecl, hbody⟩
    | some e => exact ⟨rfl, rfl, hloop e⟩
  | some i => cases increment with
    | none => exact ⟨rfl, hinit i rfl, ⟨hdecl, hbody⟩, trivial⟩
    | some e => exact ⟨rfl, hinit i rfl, ⟨rfl, hloop e⟩, trivial⟩

theorem toStmt_kept {clauses : ForClauses} {s₁ s₂ : State} {body : Stmt} (h : forClauses n s = .ok clauses s₁)
    (hle : s₁.nextId ≤ s₂.nextId) (hbody : KeptInner s₁.nextId s₂.nextId body) :
    KeptInner s.nextId s₂.nextId (clauses.toStmt body) := by
  obtain ⟨opening, t₁, t₂, t₃, semicolon, t₄, t₅, closing, hopening, hinit, hcondition, hsemicolon, hincrement,
    hclosing⟩ := forClauses_ok h
  obtain ⟨hle₁, hfresh₁, hplain⟩ := forInitializer_kept hinit
  obtain ⟨hle₂, hfresh₂⟩ := maybe_fresh hcondition
  obtain ⟨hle₃, hfresh₃⟩ := maybe_fresh hincrement
  rw [hopening.nextId_eq] at hle₁ hfresh₁
  rw [hsemicolon.nextId_eq] at hle₃ hfresh₃
  rw [hclosing.nextId_eq] at hle hbody
  obtain ⟨hdecl, hall⟩ := toStmt_plain hbody.notDeclaration hbody.plain hplain
  refine ⟨⟨?_, hall⟩, hdecl⟩
  rw [toStmt_references]
  have hlast : Fresh t₃.nextId s₂.nextId (body.references ++ Expr.references? clauses.increment) :=
    (hfresh₃.append hbody.fresh hle₃ hle).perm List.perm_append_comm
  exact hfresh₁.append (hfresh₂.append hlast hle₂ (Nat.le_trans hle₃ hle)) hle₁
    (Nat.le_trans hle₂ (Nat.le_trans hle₃ hle))

theorem statement_le (h : statement n s = .ok stmt s') : s.nextId ≤ s'.nextId :=
  ((statementsAdvance n).statement.of_ok h).nextId

theorem condition_fresh {keyword clause : String} {e : Expr} (h : condition n keyword clause s = .ok e s') :
    s.nextId ≤ s'.nextId ∧ Fresh s.nextId s'.nextId e.references := by
  obtain ⟨opening, s₁, s₂, closing, hopening, he, hclosing⟩ := condition_ok h
  rw [hclosing.nextId_eq, ← hopening.nextId_eq]
  exact ⟨((expression_advancing n).of_ok he).nextId, expression_fresh he⟩

end

/-- What parsing functions of statements keep with this fuel. -/
structure StatementsKept (n : Nat) : Prop where
  statement : ∀ {s : State} {stmt : Stmt} {s' : State}, statement n s = .ok stmt s' →
    KeptInner s.nextId s'.nextId stmt
  function : ∀ {s : State} {stmt : Stmt} {s' : State}, function n s = .ok stmt s' → Kept s.nextId s'.nextId stmt
  declaration : ∀ {s : State} {stmt : Stmt} {s' : State}, declaration n s = .ok (some stmt) s' →
    Kept s.nextId s'.nextId stmt
  block : ∀ {s : State} {body : List Stmt} {s' : State}, block n s = .ok body s' →
    KeptAll s.nextId s'.nextId body
  declarations : ∀ {lo : ExprId} {inBlock : Bool} {done : Array Stmt} {s : State} {all : Array Stmt} {s' : State},
    declarations n inBlock done s = .ok all s' → lo ≤ s.nextId → KeptAll lo s.nextId done.toList →
      KeptAll lo s'.nextId all.toList

namespace StatementsKept
variable {n : Nat} {s s' : State} {stmt : Stmt} (ih : StatementsKept n)
include ih

theorem inner {t : Token} (h : InnerOk n t s s' stmt) : KeptInner s.nextId s'.nextId stmt := by
  cases h with
  | counted ht hclauses hbody => exact toStmt_kept hclauses (statement_le hbody) (ih.statement hbody)
  | @branch e s₂ yes s₃ no ht he hyes hno =>
    obtain ⟨hle₂, hfresh⟩ := condition_fresh he
    have hyesKept := ih.statement hyes
    have hle₃ := statement_le hyes
    have hboth := hfresh.append hyesKept.fresh hle₂ hle₃
    rcases hno with ⟨-, rfl, rfl⟩ | ⟨keyword, s₄, other, helse, hother, rfl⟩
    · refine ⟨⟨?_, hyesKept.notDeclaration, hyesKept.plain, trivial⟩, rfl⟩
      rw [Stmt.references, Stmt.references?, List.append_nil]
      exact hboth
    · have hotherKept := ih.statement hother
      have hle₄ := statement_le hother
      rw [helse.nextId_eq] at hotherKept hle₄
      exact ⟨⟨hboth.append hotherKept.fresh (Nat.le_trans hle₂ hle₃) hle₄, hyesKept.notDeclaration, hyesKept.plain,
        hotherKept.notDeclaration, hotherKept.plain⟩, rfl⟩
  | print ht h => exact printStatement_kept h
  | ret ht h => exact returnStatement_kept h
  | loop ht he hbody =>
    obtain ⟨hle, hfresh⟩ := condition_fresh he
    have hbodyKept := ih.statement hbody
    exact ⟨⟨hfresh.append hbodyKept.fresh hle (statement_le hbody), hbodyKept.notDeclaration, hbodyKept.plain⟩, rfl⟩
  | block ht h =>
    have hbody := ih.block h
    exact ⟨⟨hbody.fresh, hbody.plain⟩, rfl⟩

theorem statement_succ (h : Parse.statement (n + 1) s = .ok stmt s') : KeptInner s.nextId s'.nextId stmt := by
  rcases statement_ok h with ⟨-, h⟩ | ⟨t, s₁, ht, h⟩
  · exact expressionStatement_kept h
  · rw [← ht.nextId_eq]
    exact ih.inner h

theorem function_succ (h : Parse.function (n + 1) s = .ok stmt s') : Kept s.nextId s'.nextId stmt := by
  obtain ⟨name, s₁, opening, s₂, ps, s₃, closing, s₄, brace, s₅, body, hname, hopening, hps, hclosing, hbrace, hbody,
    rfl⟩ := function_ok h
  have hle : s₂.nextId ≤ s₃.nextId := by
    rcases hps with ⟨-, rfl⟩ | hps
    · exact Nat.le_refl _
    · exact ((parameters_advancing n _).of_ok hps).nextId
  have hkept := ih.block hbody
  have hlo : s.nextId ≤ s₅.nextId := by
    rw [hbrace.nextId_eq, hclosing.nextId_eq, ← hname.nextId_eq, ← hopening.nextId_eq]
    exact hle
  exact ⟨hkept.fresh.mono hlo (Nat.le_refl _), hkept.plain⟩

theorem attempt (h : attempt n s = .ok stmt s') : Kept s.nextId s'.nextId stmt := by
  rcases attempt_ok h with ⟨keyword, s₁, hk, h⟩ | ⟨keyword, s₁, hk, h⟩ | ⟨-, -, h⟩
  · rw [← hk.nextId_eq]
    exact ih.function h
  · rw [← hk.nextId_eq]
    exact varDeclaration_kept h
  · exact (ih.statement h).toKept

theorem declaration_succ (h : Parse.declaration (n + 1) s = .ok (some stmt) s') : Kept s.nextId s'.nextId stmt := by
  rcases declaration_ok h with ⟨_, ha, hr⟩ | ⟨_, _, _, hr, -⟩ <;> cases hr
  exact ih.attempt ha

theorem block_succ {body : List Stmt} (h : Parse.block (n + 1) s = .ok body s') : KeptAll s.nextId s'.nextId body := by
  obtain ⟨done, s₁, brace, hd, hbrace, rfl⟩ := block_ok h
  rw [hbrace.nextId_eq]
  exact ih.declarations hd (Nat.le_refl _) ⟨.nil, trivial⟩

theorem declarations_succ {lo : ExprId} {inBlock : Bool} {done all : Array Stmt}
    (h : Parse.declarations (n + 1) inBlock done s = .ok all s') (hlo : lo ≤ s.nextId)
    (hdone : KeptAll lo s.nextId done.toList) : KeptAll lo s'.nextId all.toList := by
  rcases declarations_ok h with ⟨-, rfl, rfl⟩ | ⟨-, r, s₁, hr, h⟩
  · exact hdone
  · have hle := ((statementsAdvance n).declaration.of_ok hr).nextId
    refine ih.declarations h (Nat.le_trans hlo hle) ?_
    cases r with
    | none => exact ⟨hdone.fresh.mono (Nat.le_refl _) hle, hdone.plain⟩
    | some stmt =>
      have hstmt := ih.declaration hr
      rw [Option.elim, Array.toList_push]
      refine ⟨?_, Stmt.plainAll_append hdone.plain ⟨hstmt.plain, trivial⟩⟩
      rw [Stmt.referencesAll_append, Stmt.referencesAll, Stmt.referencesAll, List.append_nil]
      exact hdone.fresh.append hstmt.fresh hlo hle

end StatementsKept

theorem statementsKept : ∀ n, StatementsKept n
  | 0 => ⟨nofun, nofun, nofun, nofun, nofun⟩
  | n + 1 =>
    have ih := statementsKept n
    { statement := ih.statement_succ
      function := ih.function_succ
      declaration := ih.declaration_succ
      block := ih.block_succ
      declarations := ih.declarations_succ }

/-! ### Whole parses -/

theorem parse_kept (tokens : List Token) (nextId : ExprId) :
    KeptAll nextId (parse tokens nextId).nextId (parse tokens nextId).statements := by
  obtain ⟨stmts, s, h⟩ := declarations_fuelFor tokens nextId
  have hkept := (statementsKept _).declarations h (Nat.le_refl _) ⟨.nil, trivial⟩
  unfold parse
  rw [h]
  exact hkept

/-- The references of a parse differ in their identities, which no earlier parse has handed out. -/
theorem parse_fresh (tokens : List Token) (nextId : ExprId) :
    Fresh nextId (parse tokens nextId).nextId (Stmt.referencesAll (parse tokens nextId).statements) :=
  (parse_kept tokens nextId).fresh

/-- No declaration of a parse is a branch or the body of a loop by itself. -/
theorem parse_plain (tokens : List Token) (nextId : ExprId) : Stmt.PlainAll (parse tokens nextId).statements :=
  (parse_kept tokens nextId).plain

end Parse
end Lox
