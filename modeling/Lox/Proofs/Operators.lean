import Lox.Proofs.Evaluation.Indistinct
import Lox.Proofs.Evaluation.Stops
import Lox.Proofs.Functions
import Lox.Proofs.Parsing.Trees
import Lox.Proofs.Parsing.WellFormed

/-! # Operators that every run knows

A token that is no operator fails with an error of its own. Such a token is in no tree that a parse keeps, so it is
in no function of a session, and no run comes to it (`operators_known`). -/

namespace Lox

/-! ### Functions of well-formed programs -/

def FunctionDecl.WellFormed (d : FunctionDecl) : Prop := (Stmt.function d.name d.parameters d.body).WellFormed

mutual

theorem Stmt.WellFormed.decls : ∀ {s : Stmt}, s.WellFormed → ∀ d ∈ s.decls, d.WellFormed
  | .function _ _ _, h => List.forall_mem_cons.mpr ⟨h, Stmt.WellFormedAll.decls h.2.2⟩
  | .block _, h => Stmt.WellFormedAll.decls h
  | .branch _ _ _, h => List.forall_mem_append.mpr ⟨Stmt.WellFormed.decls h.2.1, Stmt.WellFormed?.decls h.2.2⟩
  | .loop _ body, h => Stmt.WellFormed.decls (s := body) h.2
  | .expression _, _ | .print _, _ | .var _ _, _ | .ret _ _, _ => nofun

theorem Stmt.WellFormed?.decls : ∀ {s : Option Stmt}, Stmt.WellFormed? s → ∀ d ∈ Stmt.decls? s, d.WellFormed
  | none, _ => nofun
  | some _, h => Stmt.WellFormed.decls h

theorem Stmt.WellFormedAll.decls : ∀ {ss : List Stmt}, Stmt.WellFormedAll ss → ∀ d ∈ Stmt.declsAll ss, d.WellFormed
  | [], _ => nofun
  | _ :: _, h => List.forall_mem_append.mpr ⟨Stmt.WellFormed.decls h.1, Stmt.WellFormedAll.decls h.2⟩

end

theorem FunctionDecl.inherited_wellFormed : FunctionDecl.Inherited FunctionDecl.WellFormed := fun _ h => h.2.2.decls

/-! ### Errors of operators -/

namespace Operator
variable {operator : Token} {v l r : Value} {e : RuntimeError}

theorem unary_error (hop : operator.kind.IsUnaryOperator) (h : unary operator v = .error e) :
    e.cause = .operandNotNumber := by
  unfold unary negate at h
  rcases hop with hop | hop <;> rw [hop] at h
  · cases h
  · cases v <;> cases h <;> rfl

/-- The operators with two sides that are neither addition nor equality are known for numbers. -/
theorem numeric?_isSome {m : Mark} (hm : m ∈ Mark.binary)
    (hne : m ≠ .plus ∧ m ≠ .equalEqual ∧ m ≠ .bangEqual) (x y : Float) : (numeric? (.mark m) x y).isSome := by
  cases m <;> first | rfl | (exfalso; revert hm hne; decide)

theorem binary_error (hop : operator.kind.IsBinaryOperator) (h : binary operator l r = .error e) :
    e.cause = .operandsNotNumbers ∨ e.cause = .operandsNotAddable := by
  obtain ⟨m, hm, hk⟩ := hop
  unfold binary at h
  split at h
  · unfold add at h
    split at h <;> cases h
    exact .inr rfl
  · cases h
  · cases h
  · rename_i hplus hequal hbang
    have hne : m ≠ .plus ∧ m ≠ .equalEqual ∧ m ≠ .bangEqual := by
      refine ⟨?_, ?_, ?_⟩ <;> rintro rfl
      · exact hplus hk
      · exact hequal hk
      · exact hbang hk
    unfold compute at h
    split at h
    · rename_i x y
      obtain ⟨u, hu⟩ := Option.isSome_iff_exists.mp (numeric?_isSome hm hne x y)
      rw [hk, hu] at h
      cases h
    · cases h
      exact .inl rfl

end Operator

/-! ### Moments -/

/-- The task is a part of a well-formed program, and its values hold functions of such programs. -/
def Task.WellFormed : Task → Prop
  | .expr e => e.WellFormed
  | .exprs done es => (∀ v ∈ done.toList, v.Obeys FunctionDecl.WellFormed) ∧ Expr.WellFormedAll es
  | .store _ _ v => v.Obeys FunctionDecl.WellFormed
  | .call f arguments _ | .invoke f arguments _ =>
    f.Obeys FunctionDecl.WellFormed ∧ ∀ v ∈ arguments, v.Obeys FunctionDecl.WellFormed
  | .stmt s => s.WellFormed
  | .stmts ss | .program ss => Stmt.WellFormedAll ss
  | .loop condition body => condition.WellFormed ∧ body.WellFormed

namespace Moment

/-- The task is well formed, and all functions that are bound are. -/
structure WellFormed (mo : Moment) : Prop where
  frames : mo.machine.frames.Obey FunctionDecl.WellFormed
  task : mo.task.WellFormed

variable {c : Context} {mo mo' : Moment} (hhost : c.host.Obeys FunctionDecl.WellFormed)
include hhost

theorem Enters.wellFormed (h : Enters c mo mo') (hmo : mo.WellFormed) : mo'.WellFormed := by
  have after_expr : ∀ {n e m v m'}, m.frames.Obey FunctionDecl.WellFormed → Eval.expr c n e m = .ok v m' →
      m'.frames.Obey FunctionDecl.WellFormed ∧ v.Obeys FunctionDecl.WellFormed :=
    Eval.expr_obeys FunctionDecl.inherited_wellFormed hhost
  have after_stmt : ∀ {n s m flow m'}, m.frames.Obey FunctionDecl.WellFormed → s.WellFormed →
      Eval.stmt c n s m = .ok flow m' → m'.frames.Obey FunctionDecl.WellFormed :=
    fun hm hs hflow => Eval.stmt_obeys FunctionDecl.inherited_wellFormed hhost hm hs.decls hflow
  obtain ⟨hm, ht⟩ := hmo
  cases h with
  | grouping | expression | print | loop => exact ⟨hm, ht⟩
  | operand => exact ⟨hm, ht.2⟩
  | left | leftLogical => exact ⟨hm, ht.2.1⟩
  | right hl | rightLogical hl => exact ⟨(after_expr hm hl).1, ht.2.2⟩
  | value => exact ⟨hm, ht.2⟩
  | store hv => exact ⟨(after_expr hm hv).1, (after_expr hm hv).2⟩
  | callee => exact ⟨hm, ht.1⟩
  | arguments hf => exact ⟨(after_expr hm hf).1, by simp, ht.2⟩
  | call hf hargs =>
    obtain ⟨hm₁, hvalue⟩ := after_expr hm hf
    obtain ⟨hm₂, hvalues⟩ := Eval.exprs_obeys FunctionDecl.inherited_wellFormed hhost hm₁ hargs
    exact ⟨hm₂, hvalue, hvalues⟩
  | first => exact ⟨hm, ht.2.1⟩
  | rest hv =>
    obtain ⟨hm₁, hvalue⟩ := after_expr hm hv
    refine ⟨hm₁, ?_, ht.2.2⟩
    rw [Array.toList_push]
    exact List.forall_mem_append.mpr ⟨ht.1, List.forall_mem_singleton.mpr hvalue⟩
  | invoke harity hdepth => exact ⟨hm, ht⟩
  | @body n f arguments paren m =>
    have hframe : (m.frames.push (f.callFrame arguments)).Obey FunctionDecl.WellFormed :=
      hm.push fun name v hv => ht.2 v (Closure.of_get?_callFrame hv).2
    exact ⟨hframe, (ht.1 f rfl).2.2⟩
  | initializer => exact ⟨hm, ht.2 _ rfl⟩
  | @block n body m =>
    have hframe : (m.frames.push (.empty (some m.current))).Obey FunctionDecl.WellFormed :=
      hm.push fun name v hv => by cases hv
    exact ⟨hframe, ht⟩
  | condition => exact ⟨hm, ht.1⟩
  | yes hv => exact ⟨(after_expr hm hv).1, ht.2.1⟩
  | no hv => exact ⟨(after_expr hm hv).1, ht.2.2⟩
  | result => exact ⟨hm, ht _ rfl⟩
  | stmt | begin => exact ⟨hm, ht.1⟩
  | stmts hs | proceed hs => exact ⟨after_stmt hm ht.1 hs, ht.2⟩
  | test => exact ⟨hm, ht.1⟩
  | round hv => exact ⟨(after_expr hm hv).1, ht.2⟩
  | again hv _ hs => exact ⟨after_stmt (after_expr hm hv).1 ht.2 hs, ht⟩

theorem Visits.wellFormed (h : Visits c mo mo') (hmo : mo.WellFormed) : mo'.WellFormed := by
  induction h with
  | here => exact hmo
  | enter he _ ih => exact ih (he.wellFormed hhost hmo)

/-- Evaluation that begins at a well-formed moment does not fail for want of an operator, and fails as the host does
    only if a function of the host has failed so. -/
theorem Stops.known {e : RuntimeError} (h : mo.Stops c (.failed e)) (hmo : mo.WellFormed) :
    (e.cause ≠ .invalidUnary ∧ e.cause ≠ .invalidBinary) ∧
      ∀ message, e.cause = .host message → ∃ n key arguments, c.host n key arguments = .error message := by
  obtain ⟨mo', hv, hraises⟩ := h.raised
  have hmo' := hv.wellFormed hhost hmo
  cases hraises with
  | operand _ herr =>
    rw [Operator.unary_error hmo'.task.1 herr]
    exact ⟨⟨nofun, nofun⟩, nofun⟩
  | operands _ _ herr =>
    rcases Operator.binary_error hmo'.task.1 herr with he | he <;> rw [he] <;> exact ⟨⟨nofun, nofun⟩, nofun⟩
  | unbound | target | notCallable | wrongArity | overflow | notInvocable => exact ⟨⟨nofun, nofun⟩, nofun⟩
  | host hfails =>
    refine ⟨⟨nofun, nofun⟩, fun message he => ?_⟩
    cases he
    exact ⟨_, _, _, hfails⟩

end Moment

/-! ### Sessions -/

theorem head?_toList_append {text text' : String} {ch : Char} (h : text.toList.head? = some ch) :
    (text ++ text').toList.head? = some ch := by rw [String.toList_append, List.head?_append, h, Option.some_or]

/-- An error that is no fallback of an operator does not say what such a one says, unless the host says it. -/
theorem RuntimeError.Cause.message_ne {cause : Cause} {complaint : String} (hunary : cause ≠ .invalidUnary)
    (hbinary : cause ≠ .invalidBinary) (hhost : cause ≠ .host complaint)
    (hcomplaint : complaint ∈ [Cause.invalidUnary.message, Cause.invalidBinary.message]) :
    cause.message ≠ complaint := by
  intro h
  subst h
  have hfirst : cause.message.toList.head? = some 'I' := by
    rcases List.mem_pair.mp hcomplaint with h | h <;> rw [h] <;> decide
  cases cause with
  | undefinedVariable name =>
    have hletter : (message (.undefinedVariable name)).toList.head? = some 'U' :=
      head?_toList_append (head?_toList_append (by decide))
    rw [hletter] at hfirst
    cases hfirst
  | wrongArity expected got =>
    have hletter : (message (.wrongArity expected got)).toList.head? = some 'E' :=
      head?_toList_append (head?_toList_append (head?_toList_append (head?_toList_append (by decide))))
    rw [hletter] at hfirst
    cases hfirst
  | host text => exact hhost rfl
  | invalidUnary => exact hunary rfl
  | invalidBinary => exact hbinary rfl
  | operandNotNumber | operandsNotNumbers | operandsNotAddable | notCallable | stackOverflow =>
    revert hcomplaint
    decide

/-- No function of the usual host says what the fallbacks of operators say. -/
theorem Host.withTime_ne_error (time : Nat → Float) {complaint : String}
    (hcomplaint : complaint ∈ ["Invalid unary operator.", "Invalid binary operator."]) (n : Nat) (key : String)
    (arguments : List Value) : withTime time n key arguments ≠ .error complaint := by
  have hfirst : complaint.toList.head? = some 'I' := by
    rcases List.mem_pair.mp hcomplaint with rfl | rfl <;> decide
  intro h
  have hletter : complaint.toList.head? = some 'A' ∨ complaint.toList.head? = some 'h' ∨
      complaint.toList.head? = some 'n' := by
    unfold withTime standard at h
    split at h
    · cases h
    · split at h
      · split at h <;> cases h
        exact .inl (by decide)
      · cases h
      · cases h
      · split at h <;> cases h
      · cases h
      · cases h
        exact .inr (.inl (head?_toList_append (by decide)))
      · cases h
        exact .inr (.inr (head?_toList_append (by decide)))
  rw [hfirst] at hletter
  rcases hletter with h | h | h <;> cases h

namespace Session
variable {host : Host} {s : Session} {texts : List String}

theorem declares_wellFormed (s : Session) (text : String) : s.Declares text FunctionDecl.WellFormed :=
  fun _ _ hs => (hs.parsed ▸ Parse.parse_wellFormed _ _ : Stmt.WellFormedAll _).decls

/-- A parse, with errors or without, keeps trees with operators and names of the right kinds, and with no declaration
    that is a branch or the body of a loop by itself. So in no run of a session an operator is not known, if the
    functions that the host makes are made from such trees, and no error says so, unless it comes from the host. -/
theorem operators_known (hhost : host.Obeys FunctionDecl.WellFormed) (h : s.Reachable host texts) :
    (∀ tokens nextId, Stmt.WellFormedAll (parse tokens nextId).statements ∧
      Stmt.PlainAll (parse tokens nextId).statements) ∧
    ∀ fuel text e, (s.run host fuel text).failure = some e →
      (e.cause ≠ .invalidUnary ∧ e.cause ≠ .invalidBinary) ∧
      ∀ complaint ∈ ["Invalid unary operator.", "Invalid binary operator."],
        (∀ n key arguments, host n key arguments ≠ .error complaint) → e.message ≠ complaint := by
  refine ⟨fun tokens nextId => ⟨Parse.parse_wellFormed tokens nextId, Parse.parse_plain tokens nextId⟩,
    fun fuel text e hfailure => ?_⟩
  rcases run_cases host s fuel text with ⟨diagnostics, hrun⟩ | ⟨s', hmachine, hrun⟩ <;> rw [hrun] at hfailure
  · cases hfailure
  · have hstops : Moment.Stops _ ⟨fuel, .program _, s'.machine⟩ (.failed e) := interpretIn_failure_iff.mp hfailure
    have hframes : s'.machine.frames.Obey FunctionDecl.WellFormed :=
      hmachine ▸ h.obeys FunctionDecl.inherited_wellFormed hhost fun text _ s => declares_wellFormed s text
    obtain ⟨hcause, hsaid⟩ := hstops.known hhost ⟨hframes, Parse.parse_wellFormed _ _⟩
    refine ⟨hcause, fun complaint hcomplaint hsilent => e.cause.message_ne hcause.1 hcause.2 ?_ hcomplaint⟩
    intro hcause
    obtain ⟨n, key, arguments, hfails⟩ := hsaid complaint hcause
    exact hsilent n key arguments hfails

/-- A function with a wrong operand in it is declared by a source and called by the next one, which fails for the
    operand and not for the operator. -/
theorem operators_known_negation : ∃ (s : Session) (e : RuntimeError),
    s = ((Session.new .unlimited).run (Host.withTime fun _ => 0) 9 "fun f()\x7breturn -nil*nil;\x7d").session ∧
      (s.run (Host.withTime fun _ => 0) 20 "f();").failure = some e ∧ e.cause = .operandNotNumber ∧
      e.cause ≠ .invalidUnary ∧ e.message ≠ "Invalid unary operator." := by
  have hreach : Reachable (Host.withTime fun _ => 0) _ _ :=
    (Reachable.new .unlimited).run 9 "fun f()\x7breturn -nil*nil;\x7d"
  obtain ⟨-, hruns⟩ := operators_known (Host.withTime_honest _).obeys hreach
  have hfailure : (Session.run (Host.withTime fun _ => 0) 20 "f();" ((Session.new .unlimited).run
      (Host.withTime fun _ => 0) 9 "fun f()\x7breturn -nil*nil;\x7d").session).failure =
        some ⟨⟨.mark .minus, "-", 1⟩, .operandNotNumber⟩ := by decide +kernel
  obtain ⟨hcause, hmessage⟩ := hruns 20 "f();" _ hfailure
  exact ⟨_, _, rfl, hfailure, rfl, hcause.1,
    hmessage _ List.mem_cons_self (Host.withTime_ne_error _ List.mem_cons_self)⟩

end Session
end Lox
