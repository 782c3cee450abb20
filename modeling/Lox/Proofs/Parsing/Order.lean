import Lox.Proofs.Parsing.Trees
import Lox.Proofs.StaticErrors

/-! # The order of tokens in a parse

A tree names its tokens in the order in which they were read. What matters here are the names that are read as
variables and the keywords of returns, where resolution finds its errors: these are read from front to back, and
what is dropped after an error leaves no trace in a tree (`faults_sublist`). -/

namespace Lox.Parse

/-! ### Tokens between two states -/

/-- These tokens have been read between the two states, in this order, and possibly others with them. -/
def State.Passes (s s' : State) (ts : List Token) : Prop :=
  ∃ read, s.rest = read ++ s'.rest ∧ ts.Sublist read

namespace State.Passes
variable {s s' s'' : State} {ts us : List Token} {test : Kind → Bool} {t : Token}

theorem refl (s : State) : s.Passes s [] := ⟨[], rfl, List.Sublist.refl _⟩

theorem trans (h : s.Passes s' ts) (h' : s'.Passes s'' us) : s.Passes s'' (ts ++ us) := by
  obtain ⟨read, hread, hsub⟩ := h
  obtain ⟨read', hread', hsub'⟩ := h'
  exact ⟨read ++ read', by rw [hread, hread', List.append_assoc], hsub.append hsub'⟩

theorem sublist (h : s.Passes s' ts) (hsub : us.Sublist ts) : s.Passes s' us := by
  obtain ⟨read, hread, hsub'⟩ := h
  exact ⟨read, hread, hsub.trans hsub'⟩

theorem of_takes (h : s.Takes test t s') : s.Passes s' [t] := ⟨[t], h.rest, List.Sublist.refl _⟩

theorem of_advances (h : s.Advances s') : s.Passes s' [] := by
  obtain ⟨read, hread⟩ := h.rest
  exact ⟨read, hread.symm, List.nil_sublist _⟩

/-- Moving on loses nothing. -/
theorem advances (h : s.Passes s' ts) (h' : s'.Advances s'') : s.Passes s'' ts := by
  have hall := h.trans (of_advances h')
  rwa [List.append_nil] at hall

theorem after (h : s.Advances s') (h' : s'.Passes s'' ts) : s.Passes s'' ts := (of_advances h).trans h'

theorem takes (h : s.Passes s' ts) (h' : s'.Takes test t s'') : s.Passes s'' ts := h.advances h'.advances

theorem after_takes (h : s.Takes test t s') (h' : s'.Passes s'' ts) : s.Passes s'' ts := h'.after h.advances

end State.Passes

/-! ### Expressions -/

/-- The variables that parsing functions of expressions put into a tree with this fuel are tokens that they read, in
    their order, behind those of what they go on from. -/
structure ExpressionsInOrder (n : Nat) : Prop where
  expression : ∀ {s : State} {e : Expr} {s' : State}, expression n s = .ok e s' → s.Passes s' e.reads
  binary : ∀ {level : Level} {s : State} {e : Expr} {s' : State}, binary n level s = .ok e s' → s.Passes s' e.reads
  chain : ∀ {level : Level} {left : Expr} {s₀ s : State} {e : Expr} {s' : State}, chain n level left s = .ok e s' →
    s₀.Passes s left.reads → s₀.Passes s' e.reads
  unary : ∀ {s : State} {e : Expr} {s' : State}, unary n s = .ok e s' → s.Passes s' e.reads
  calls : ∀ {callee : Expr} {s₀ s : State} {e : Expr} {s' : State}, calls n callee s = .ok e s' →
    s₀.Passes s callee.reads → s₀.Passes s' e.reads
  arguments : ∀ {done : Array Expr} {s₀ s : State} {args : Array Expr} {s' : State}, arguments n done s = .ok args s' →
    s₀.Passes s (Expr.readsAll done.toList) → s₀.Passes s' (Expr.readsAll args.toList)
  primary : ∀ {s : State} {e : Expr} {s' : State}, primary n s = .ok e s' → s.Passes s' e.reads

theorem join_reads (level : Level) (l r : Expr) (operator : Token) :
    (level.join l operator r).reads = l.reads ++ r.reads := by
  rw [Expr.reads, join_references, List.filter_append, List.map_append]
  rfl

namespace ExpressionsInOrder
variable {n : Nat} {s₀ s s' : State} {e : Expr} (ih : ExpressionsInOrder n)
include ih

theorem operand {level : Level} (h : operand n level s = .ok e s') : s.Passes s' e.reads := by
  cases level with
  | factor => exact ih.unary h
  | or | and | equality | comparison | term => exact ih.binary h

theorem expression_succ (h : Parse.expression (n + 1) s = .ok e s') : s.Passes s' e.reads := by
  obtain ⟨target, s₁, ht, ⟨-, rfl, rfl⟩ | ⟨equals, s₂, value, s₃, heq, hv, h⟩⟩ := expression_ok h
  · exact ih.binary ht
  · have htarget := ((expressionsAdvance n).binary .or).of_ok ht
    have hvalue : s.Passes s₃ value.reads := .after (htarget.trans heq.advances) (ih.expression hv)
    rcases h with ⟨id, name, -, rfl, rfl⟩ | ⟨rfl, rfl⟩
    · rw [Expr.reads_assign]
      exact hvalue
    · exact hvalue

theorem binary_succ {level : Level} (h : Parse.binary (n + 1) level s = .ok e s') : s.Passes s' e.reads := by
  obtain ⟨left, s₁, hl, h⟩ := binary_ok h
  exact ih.chain h (ih.operand hl)

theorem chain_succ {level : Level} {left : Expr} (h : Parse.chain (n + 1) level left s = .ok e s')
    (hleft : s₀.Passes s left.reads) : s₀.Passes s' e.reads := by
  rcases chain_ok h with ⟨-, rfl, rfl⟩ | ⟨operator, s₁, right, s₂, hop, hr, h⟩
  · exact hleft
  · refine ih.chain h ?_
    rw [join_reads]
    exact (hleft.takes hop).trans (ih.operand hr)

theorem unary_succ (h : Parse.unary (n + 1) s = .ok e s') : s.Passes s' e.reads := by
  rcases unary_ok h with ⟨operator, s₁, right, hop, hr, rfl⟩ | ⟨-, callee, s₁, hc, h⟩
  · have hright := ih.unary hr
    exact .after_takes hop hright
  · exact ih.calls h (ih.primary hc)

theorem calls_succ {callee : Expr} (h : Parse.calls (n + 1) callee s = .ok e s')
    (hcallee : s₀.Passes s callee.reads) : s₀.Passes s' e.reads := by
  rcases calls_ok h with ⟨-, rfl, rfl⟩ | ⟨opening, s₁, args, s₂, paren, s₃, hopening, hargs, hparen, h⟩
  · exact hcallee
  · have hall : s₁.Passes s₂ (Expr.readsAll args.toList) := by
      rcases hargs with ⟨rfl, rfl⟩ | ha
      · exact .refl _
      · exact ih.arguments ha (.refl s₁)
    refine ih.calls h ?_
    rw [Expr.reads_call]
    exact ((hcallee.takes hopening).trans hall).takes hparen

theorem arguments_succ {done args : Array Expr} (h : Parse.arguments (n + 1) done s = .ok args s')
    (hdone : s₀.Passes s (Expr.readsAll done.toList)) : s₀.Passes s' (Expr.readsAll args.toList) := by
  obtain ⟨s₁, e, s₂, hcheck, he, h⟩ := arguments_ok h
  have hpush : s₀.Passes s₂ (Expr.readsAll (done.push e).toList) := by
    rw [Array.toList_push, Expr.readsAll_concat]
    exact (hdone.advances ((Advancing.checkArity _ _).of_ok hcheck)).trans (ih.expression he)
  rcases h with ⟨-, rfl, rfl⟩ | ⟨comma, s₃, hcomma, h⟩
  · exact hpush
  · exact ih.arguments h (hpush.takes hcomma)

theorem primary_succ (h : Parse.primary (n + 1) s = .ok e s') : s.Passes s' e.reads := by
  obtain ⟨t, s₁, ht, ⟨v, -, rfl, rfl⟩ | ⟨-, -, rfl, rfl⟩ | ⟨-, -, inner, s₂, paren, hi, hparen, rfl⟩⟩ := primary_ok h
  · exact .of_advances ht.advances
  · have hname := State.Passes.of_takes ht
    exact hname
  · exact (State.Passes.after_takes ht (ih.expression hi)).takes hparen

end ExpressionsInOrder

theorem expressionsInOrder : ∀ n, ExpressionsInOrder n
  | 0 => ⟨nofun, nofun, nofun, nofun, nofun, nofun, nofun⟩
  | n + 1 =>
    have ih := expressionsInOrder n
    { expression := ih.expression_succ
      binary := ih.binary_succ
      chain := ih.chain_succ
      unary := ih.unary_succ
      calls := ih.calls_succ
      arguments := ih.arguments_succ
      primary := ih.primary_succ }

/-! ### Statements -/

/-- The places of a statement that break a rule are tokens that have been read between the two states, in their
    order, wherever the statement stands. -/
def State.Exposes (s s' : State) (stmt : Stmt) : Prop :=
  ∀ inScope inFunction, s.Passes s' ((stmt.faults inScope inFunction).map (·.token))

def State.ExposesAll (s s' : State) (ss : List Stmt) : Prop :=
  ∀ inScope inFunction, s.Passes s' ((Stmt.faultsAll inScope inFunction ss).map (·.token))

section
variable {n : Nat} {s s' s'' : State} {stmt : Stmt}

theorem State.Exposes.after (h : s.Advances s') (h' : s'.Exposes s'' stmt) : s.Exposes s'' stmt :=
  fun inScope inFunction => (h' inScope inFunction).after h

theorem State.Exposes.concat {ss : List Stmt} (h : s.ExposesAll s' ss) (h' : s'.Exposes s'' stmt) :
    s.ExposesAll s'' (ss ++ [stmt]) := by
  intro inScope inFunction
  rw [Stmt.faultsAll_concat, List.map_append]
  exact (h inScope inFunction).trans (h' inScope inFunction)

theorem expression_inOrder {e : Expr} (h : expression n s = .ok e s') : s.Passes s' e.reads :=
  (expressionsInOrder n).expression h

theorem maybe_advances {e? : Option Expr} (h : Maybe n s e? s') : s.Advances s' := by
  rcases h with ⟨-, rfl⟩ | ⟨e, he, -⟩
  · exact .refl _
  · exact (expression_advancing n).of_ok he

theorem expressionStatement_exposes (h : expressionStatement n s = .ok stmt s') : s.Exposes s' stmt := by
  have hadvances := (expressionStatement_advancing n).of_ok h
  obtain ⟨e, s₁, semicolon, -, -, rfl⟩ := expressionStatement_ok h
  exact fun _ _ => .of_advances hadvances

theorem printStatement_exposes (h : printStatement n s = .ok stmt s') : s.Exposes s' stmt := by
  have hadvances := (printStatement_advancing n).of_ok h
  obtain ⟨e, s₁, semicolon, -, -, rfl⟩ := printStatement_ok h
  exact fun _ _ => .of_advances hadvances

theorem varDeclaration_exposes (h : varDeclaration n s = .ok stmt s') : s.Exposes s' stmt := by
  obtain ⟨name, s₁, init, s₂, semicolon, hname, hinit, hsemicolon, rfl⟩ := varDeclaration_ok h
  have hreads : s.Passes s' (Expr.reads? init) := by
    refine .after_takes hname (State.Passes.takes ?_ hsemicolon)
    rcases hinit with ⟨rfl, rfl⟩ | ⟨equals, s₃, e, heq, he, rfl⟩
    · exact .refl _
    · exact .after_takes heq (expression_inOrder he)
  intro inScope inFunction
  refine hreads.sublist ?_
  cases inScope with
  | false => exact List.nil_sublist _
  | true =>
    simp [Stmt.faults, Function.comp_def]

/-- Of a return it is the keyword that may break a rule, which was read before the rest. -/
theorem returnStatement_exposes {test : Kind → Bool} {keyword : Token} (hkeyword : s.Takes test keyword s')
    (h : returnStatement n keyword s' = .ok stmt s'') : s.Exposes s'' stmt := by
  have hadvances := (returnStatement_advancing n keyword).of_ok h
  obtain ⟨value, s₁, semicolon, -, -, rfl⟩ := returnStatement_ok h
  intro inScope inFunction
  refine ((State.Passes.of_takes hkeyword).advances hadvances).sublist ?_
  cases inFunction with
  | false => exact List.Sublist.refl _
  | true => exact List.nil_sublist _

theorem forInitializer_exposes {init : Option Stmt} (h : forInitializer n s = .ok init s') :
    ∀ inScope inFunction, s.Passes s' ((Stmt.faults? inScope inFunction init).map (·.token)) := by
  have hadvances := (forInitializer_advancing n).of_ok h
  rcases forInitializer_ok h with ⟨semicolon, -, rfl⟩ | ⟨keyword, s₁, decl, hk, hd, rfl⟩ | ⟨stmt, hs, rfl⟩
  · exact fun _ _ => .of_advances hadvances
  · exact State.Exposes.after hk.advances (varDeclaration_exposes hd)
  · exact expressionStatement_exposes hs

/-- A loop with clauses breaks a rule where its initializer or its body does. -/
theorem faults_toStmt (clauses : ForClauses) (body : Stmt) (inScope inFunction : Bool) :
    ∃ inScope₁ inScope₂, (clauses.toStmt body).faults inScope inFunction =
      Stmt.faults? inScope₁ inFunction clauses.initializer ++ body.faults inScope₂ inFunction := by
  obtain ⟨init, condition, increment⟩ := clauses
  cases init with
  | none => cases increment with
    | none => exact ⟨inScope, inScope, rfl⟩
    | some e => exact ⟨inScope, true, by simp [ForClauses.toStmt, Stmt.faults, Stmt.faults?, Stmt.faultsAll]⟩
  | some i => cases increment with
    | none => exact ⟨true, true, by simp [ForClauses.toStmt, Stmt.faults, Stmt.faults?, Stmt.faultsAll]⟩
    | some e => exact ⟨true, true, by simp [ForClauses.toStmt, Stmt.faults, Stmt.faults?, Stmt.faultsAll]⟩

theorem for_exposes {clauses : ForClauses} {body : Stmt} (h : forClauses n s = .ok clauses s')
    (hbody : s'.Exposes s'' body) : s.Exposes s'' (clauses.toStmt body) := by
  obtain ⟨opening, s₁, s₂, s₃, semicolon, s₄, s₅, closing, hopening, hinit, hcondition, hsemicolon,
    hincrement, hclosing⟩ :=
    forClauses_ok h
  have hrest : s₂.Advances s' :=
    ((maybe_advances hcondition).trans hsemicolon.advances).trans ((maybe_advances hincrement).trans hclosing.advances)
  intro inScope inFunction
  obtain ⟨inScope₁, inScope₂, heq⟩ := faults_toStmt clauses body inScope inFunction
  rw [heq, List.map_append]
  exact (State.Passes.after_takes hopening ((forInitializer_exposes hinit _ _).advances hrest)).trans (hbody _ _)

end

/-- The places that break a rule in what parsing functions of statements keep with this fuel are tokens that they
    read, in their order. -/
structure StatementsInOrder (n : Nat) : Prop where
  statement : ∀ {s : State} {stmt : Stmt} {s' : State}, statement n s = .ok stmt s' → s.Exposes s' stmt
  function : ∀ {s : State} {stmt : Stmt} {s' : State}, function n s = .ok stmt s' → s.Exposes s' stmt
  declaration : ∀ {s : State} {stmt : Stmt} {s' : State}, declaration n s = .ok (some stmt) s' → s.Exposes s' stmt
  block : ∀ {s : State} {body : List Stmt} {s' : State}, block n s = .ok body s' → s.ExposesAll s' body
  declarations : ∀ {inBlock : Bool} {done : Array Stmt} {s₀ s : State} {all : Array Stmt} {s' : State},
    declarations n inBlock done s = .ok all s' → s₀.ExposesAll s done.toList → s₀.ExposesAll s' all.toList

namespace StatementsInOrder
variable {n : Nat} {s₀ s s₁ s' : State} {stmt : Stmt} (ih : StatementsInOrder n)
include ih

theorem inner {test : Kind → Bool} {t : Token} (ht : s.Takes test t s₁) (h : InnerOk n t s₁ s' stmt) :
    s.Exposes s' stmt := by
  cases h with
  | counted _ hclauses hbody => exact .after ht.advances (for_exposes hclauses (ih.statement hbody))
  | branch _ he hyes hno =>
    intro inScope inFunction
    rw [Stmt.faults, List.map_append]
    have hcondition := ht.advances.trans ((condition_advancing n _ _).of_ok he)
    refine (State.Exposes.after hcondition (ih.statement hyes) inScope inFunction).trans ?_
    rcases hno with ⟨-, rfl, rfl⟩ | ⟨keyword, s₄, other, hkeyword, hother, rfl⟩
    · exact .refl _
    · exact .after_takes hkeyword (ih.statement hother inScope inFunction)
  | print _ h => exact .after ht.advances (printStatement_exposes h)
  | ret _ h => exact returnStatement_exposes ht h
  | loop _ he hbody =>
    have hbody' := ih.statement hbody
    exact .after (ht.advances.trans ((condition_advancing n _ _).of_ok he)) hbody'
  | block _ h => exact fun _ inFunction => .after_takes ht (ih.block h true inFunction)

theorem statement_succ (h : Parse.statement (n + 1) s = .ok stmt s') : s.Exposes s' stmt := by
  rcases statement_ok h with ⟨-, h⟩ | ⟨t, s₁, ht, h⟩
  · exact expressionStatement_exposes h
  · exact ih.inner ht h

theorem function_succ (h : Parse.function (n + 1) s = .ok stmt s') : s.Exposes s' stmt := by
  obtain ⟨name, s₁, opening, s₂, ps, s₃, closing, s₄, brace, s₅, body, hname, hopening, hps, hclosing,
    hbrace, hbody, rfl⟩ :=
    function_ok h
  have hhead : s.Advances s₅ := by
    refine ((hname.advances.trans hopening.advances).trans ?_).trans (hclosing.advances.trans hbrace.advances)
    rcases hps with ⟨-, rfl⟩ | hps
    · exact .refl _
    · exact (parameters_advancing n _).of_ok hps
  exact fun _ _ => .after hhead (ih.block hbody true true)

theorem declaration_succ (h : Parse.declaration (n + 1) s = .ok (some stmt) s') : s.Exposes s' stmt := by
  rcases declaration_ok h with ⟨_, ha, hr⟩ | ⟨_, _, _, hr, -⟩ <;> cases hr
  rcases attempt_ok ha with ⟨keyword, s₁, hkeyword, h⟩ | ⟨keyword, s₁, hkeyword, h⟩ | ⟨-, -, h⟩
  · exact .after hkeyword.advances (ih.function h)
  · exact .after hkeyword.advances (varDeclaration_exposes h)
  · exact ih.statement h

theorem block_succ {body : List Stmt} (h : Parse.block (n + 1) s = .ok body s') : s.ExposesAll s' body := by
  obtain ⟨done, s₁, brace, hd, hbrace, rfl⟩ := block_ok h
  have hbody : s.ExposesAll s₁ done.toList := ih.declarations hd fun _ _ => .refl s
  exact fun inScope inFunction => (hbody inScope inFunction).takes hbrace

theorem declarations_succ {inBlock : Bool} {done all : Array Stmt}
    (h : Parse.declarations (n + 1) inBlock done s = .ok all s') (hdone : s₀.ExposesAll s done.toList) :
    s₀.ExposesAll s' all.toList := by
  rcases declarations_ok h with ⟨-, rfl, rfl⟩ | ⟨-, r, s₁, hr, h⟩
  · exact hdone
  · refine ih.declarations h ?_
    cases r with
    | none => exact fun _ _ => (hdone _ _).advances ((statementsAdvance n).declaration.of_ok hr)
    | some stmt =>
      rw [Option.elim_some, Array.toList_push]
      exact State.Exposes.concat hdone (ih.declaration hr)

end StatementsInOrder

theorem statementsInOrder : ∀ n, StatementsInOrder n
  | 0 => ⟨nofun, nofun, nofun, nofun, nofun⟩
  | n + 1 =>
    have ih := statementsInOrder n
    { statement := ih.statement_succ
      function := ih.function_succ
      declaration := ih.declaration_succ
      block := ih.block_succ
      declarations := ih.declarations_succ }

/-- The places that break a rule in what a parse gives are tokens of the parse, in their order. -/
theorem faults_sublist (tokens : List Token) (nextId : ExprId) (inScope inFunction : Bool) :
    ((Stmt.faultsAll inScope inFunction (parse tokens nextId).statements).map (·.token)).Sublist tokens := by
  unfold parse
  cases h : declarations (fuelFor tokens) false #[] (.start tokens nextId) with
  | ok all s' =>
    have hnone : State.ExposesAll (.start tokens nextId) (.start tokens nextId) [] := fun _ _ => .refl _
    obtain ⟨read, hread, hsub⟩ := (statementsInOrder _).declarations h hnone inScope inFunction
    have hbody : read.Sublist (body tokens) := by
      rw [show body tokens = read ++ s'.rest from hread]
      exact List.sublist_append_left read s'.rest
    exact hsub.trans (hbody.trans (List.takeWhile_sublist _))
  | error stop s' => exact List.nil_sublist _

end Lox.Parse

namespace Lox.Resolve

/-- Resolution reports exactly the places that break a rule, in the order of its walk: the readings of a variable of a
    block or a function in its own initializer, and the returns outside of all functions. Errors found before change
    nothing, and stay. In what a parse gives these places come in the order of the tokens. -/
theorem errors_exact (program : List Stmt) :
    (resolve program).errors = Stmt.faultsAll false false program ∧
    (∀ found, (stmts false [] found program).2.errors.toList =
      found.errors.toList ++ Stmt.faultsAll false false program) ∧
    ∀ tokens nextId, ((resolve (parse tokens nextId).statements).errors.map (·.token)).Sublist tokens := by
  have hfaults := errors_resolve_eq_faults program
  refine ⟨hfaults, fun found => ?_, fun tokens nextId => ?_⟩
  · rw [(stmts_walk false .nil program found).found.errors, ← errors_resolve, hfaults]
  · rw [errors_resolve_eq_faults]
    exact Parse.faults_sublist tokens nextId false false

end Lox.Resolve
