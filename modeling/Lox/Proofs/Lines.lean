import Lox.Proofs.Evaluation.Fuel
import Lox.Proofs.Likeness.Sessions

/-! # Lines

The lines of tokens are for messages only. Tokens that differ in their lines only are parsed to programs that do so,
and such programs are resolved alike. Run in sessions that differ only in the lines in the declarations of functions
(`Session.SameButLines`), they come out the same but for the line of a runtime error, and leave such sessions again
(`run_lines`). So a session does not notice that the sources that are run in it were laid out in another way
(`Session.SameButLines.run`). -/

namespace Lox

theorem isEmpty_eq_of_forall₂ {α β : Type} {R : α → β → Prop} {as : List α} {bs : List β} (h : List.Forall₂ R as bs) :
    bs.isEmpty = as.isEmpty := by
  cases h <;> rfl

/-! ### The likeness -/

namespace Likeness

/-- Tokens are the same but for their lines, and identities are the same. -/
def lines : Likeness where
  token t t' := t' = { t with line := t'.line }
  id a a' := a' = a
  kind_eq h := by rw [h]
  lexeme_eq h := by rw [h]

theorem lines_reflexive : lines.Reflexive := ⟨fun _ => rfl, fun _ => rfl⟩

theorem lines_injective : lines.Injective := by
  rintro _ _ _ _ rfl rfl
  exact Iff.rfl

theorem lines_sameDistances {distances distances' : Distances} (h : ∀ id : ExprId, distances'[id]? = distances[id]?) :
    lines.SameDistances distances distances' := by
  intro a a' ha
  cases ha
  exact h a

end Likeness

/-! ### Parsing and resolution -/

section
variable {tokens tokens' : List Token}

/-- Parses stop at end markers that differ in the line at most, also at those they make up themselves. -/
theorem Parse.finalOf_lines (h : List.Forall₂ Likeness.lines.token tokens tokens') :
    Likeness.lines.token (finalOf tokens) (finalOf tokens') :=
  finalOf_like_of_atEnd h fun _ _ => rfl

theorem parse_lines (h : List.Forall₂ Likeness.lines.token tokens tokens') (nextId : ExprId) :
    Parsed.Like .lines (parse tokens nextId) (parse tokens' nextId) ∧
      (parse tokens' nextId).nextId = (parse tokens nextId).nextId :=
  ⟨Parse.parse_like h (Parse.finalOf_lines h) fun _ => rfl,
    Parse.parse_ids_like h (Parse.finalOf_lines h) (fun _ => rfl) 0⟩

end

theorem resolve_lines {program program' : List Stmt} (h : Stmt.LikeAll .lines program program') :
    List.Forall₂ (ScopeError.Like .lines) (resolve program).errors (resolve program').errors ∧
      ∀ id : ExprId, (resolve program').distances[id]? = (resolve program).distances[id]? := by
  obtain ⟨herrors, htable⟩ := resolve_like Likeness.lines_injective h
  exact ⟨herrors, fun _ => htable rfl⟩

/-! ### Diagnostics -/

/-- The same is shown, but for the line. -/
def Diagnostic.SameButLine (d d' : Diagnostic) : Prop := d' = { d with line := d'.line }

theorem Diagnostic.atToken_lines (pass : Pass) {t t' : Token} (h : Likeness.lines.token t t') (message : String) :
    (atToken pass t message).SameButLine (atToken pass t' message) := by
  have hlocation : locationOf t' = locationOf t := by
    unfold locationOf
    rw [Parse.isEnd_eq h, Likeness.lexeme_eq _ h]
  unfold SameButLine atToken
  rw [hlocation]

theorem SyntaxError.Like.diagnostic {e e' : SyntaxError} (h : e.Like .lines e') :
    e.diagnostic.SameButLine e'.diagnostic := by
  unfold SyntaxError.diagnostic
  rw [h.cause]
  exact Diagnostic.atToken_lines _ h.token _

theorem ScopeError.Like.diagnostic {e e' : ScopeError} (h : e.Like .lines e') :
    e.diagnostic.SameButLine e'.diagnostic := by
  unfold ScopeError.diagnostic
  rw [h.cause]
  exact Diagnostic.atToken_lines _ h.token _

/-- Sources that are scanned to the same tokens and errors, but for lines. -/
structure Source.SameButLines (text text' : String) : Prop where
  tokens : List.Forall₂ Likeness.lines.token (Scan.tokens (Scan.items text)) (Scan.tokens (Scan.items text'))
  errors : List.Forall₂ (fun e e' : ScanError => e'.cause = e.cause) (Scan.errors (Scan.items text))
    (Scan.errors (Scan.items text'))

namespace Source.SameButLines
variable {text text' : String}

theorem parsed (h : SameButLines text text') (nextId : ExprId) :
    Parsed.Like .lines (Source.read text nextId).parsed (Source.read text' nextId).parsed ∧
      (Source.read text' nextId).parsed.nextId = (Source.read text nextId).parsed.nextId :=
  parse_lines h.tokens nextId

theorem diagnostics (h : SameButLines text text') (nextId : ExprId) :
    List.Forall₂ Diagnostic.SameButLine (Source.read text nextId).diagnostics
      (Source.read text' nextId).diagnostics := by
  have hscan : List.Forall₂ Diagnostic.SameButLine (Source.read text nextId).scanDiagnostics
      (Source.read text' nextId).scanDiagnostics := by
    refine List.rel_map (fun e e' he => ?_) h.errors
    unfold Diagnostic.SameButLine ScanError.diagnostic
    rw [he]
  exact List.rel_append hscan (List.rel_map (fun _ _ he => he.diagnostic) (h.parsed nextId).1.errors)

end Source.SameButLines

/-! ### Sessions -/

/-- The sessions are the same but for the lines in the declarations of functions. -/
structure Session.SameButLines (s s' : Session) : Prop where
  machine : s.machine.Like .lines s'.machine
  sink : s'.machine.sink = s.machine.sink
  distances : ∀ id : ExprId, s'.distances[id]? = s.distances[id]?
  nextId : s'.nextId = s.nextId

/-- The runs come out the same but for the lines of errors, in sessions that are the same but for lines. -/
structure Run.SameButLines (run run' : Run) : Prop where
  ending : run'.ending = run.ending
  diagnostics : List.Forall₂ Diagnostic.SameButLine run.diagnostics run'.diagnostics
  failure : Option.Rel (RuntimeError.Like .lines) run.failure run'.failure
  session : run.session.SameButLines run'.session

namespace Session
variable {host : Host} {s s' : Session} {program program' : List Stmt}

namespace SameButLines

theorem refl (s : Session) : s.SameButLines s := ⟨.refl Likeness.lines_reflexive _, rfl, fun _ => rfl, rfl⟩

theorem addDistances {distances distances' : Distances} (h : s.SameButLines s')
    (hd : ∀ id : ExprId, distances'[id]? = distances[id]?) :
    (s.addDistances distances).SameButLines (s'.addDistances distances') := by
  refine { h with distances := fun id => ?_ }
  have hunion : ∀ (t : Session) (d : Distances), (t.addDistances d).distances[id]? = d[id]?.or t.distances[id]? :=
    fun _ _ => Std.HashMap.getElem?_union
  rw [hunion, hunion, hd, h.distances]

end SameButLines

/-! ### Runs -/

section
variable {L : Likeness} {context context' : Context} {R : Unit → Unit → Prop} {fuel fuel' : Nat}

/-- Runs of programs leave the same output when the evaluation of one follows that of the other. -/
theorem interpretIn_sink_eq (h : Eval.Follows L False R (Eval.program context fuel program s.machine)
      (Eval.program context' fuel' program' s'.machine)) (hsink : s'.machine.sink = s.machine.sink) :
    (s'.interpretIn context' fuel' program').session.machine.sink =
      (s.interpretIn context fuel program).session.machine.sink := by
  -- Likeness of machines leaves flushes out, but evaluation tries none.
  have hprints := (Machine.Prints.respected context).program_final fuel program s.machine
  have hprints' := (Machine.Prints.respected context').program_final fuel' program' s'.machine
  have hflushes : ((Eval.program context' fuel' program').final s'.machine).sink.flushes =
      ((Eval.program context fuel program).final s.machine).sink.flushes := by
    rw [hprints'.flushes, hprints.flushes, hsink]
  unfold Eval.final at hflushes
  unfold interpretIn
  generalize Eval.program context fuel program s.machine = result,
    Eval.program context' fuel' program' s'.machine = result' at *
  cases h with
  | exhausted hspare => exact hspare.elim
  | ok hm =>
    dsimp only at hflushes ⊢
    rw [finish_session, finish_session, hm.sink.eq hflushes]
  | error hm hstop =>
    cases hstop with
    | failed =>
      dsimp only at hflushes ⊢
      rw [finish_session, finish_session, hm.sink.eq hflushes]
    | sink | outOfFuel => exact hm.sink.eq hflushes

end

theorem SameButLines.interpret (hhost : host.Uniform) (h : s.SameButLines s')
    (hprogram : Stmt.LikeAll .lines program program') (fuel : Nat) :
    (s.interpret host fuel program).SameButLines (s'.interpret host fuel program') := by
  have hfollows : Eval.Follows .lines False _ (Eval.program (s.context host) fuel program s.machine)
      (Eval.program (s'.context host) fuel program' s'.machine) :=
    Eval.program_simulates (Likeness.lines_sameDistances h.distances) hhost (Nat.le_refl fuel) (Nat.lt_irrefl fuel)
      hprogram h.machine
  have hlike : Run.Like .lines (s.interpret host fuel program) (s'.interpret host fuel program') :=
    interpretIn_like hfollows False.elim
  obtain ⟨-, -, hdistances, hnextId⟩ := @interpretIn_session s program fuel (s.context host)
  obtain ⟨-, -, hdistances', hnextId'⟩ := @interpretIn_session s' program' fuel (s'.context host)
  refine
    { ending := hlike.ending
      diagnostics := by
        unfold Session.interpret
        rw [interpretIn_diagnostics, interpretIn_diagnostics]
        exact .nil
      failure := hlike.failure
      session := ⟨hlike.machine, interpretIn_sink_eq hfollows h.sink, fun id => ?_, ?_⟩ }
  · unfold Session.interpret
    rw [hdistances, hdistances', h.distances]
  · exact hnextId'.trans (h.nextId.trans hnextId.symm)

/-- A source that was laid out in another way comes out the same, also in a session of such sources. -/
theorem SameButLines.run (hhost : host.Uniform) (h : s.SameButLines s') {text text' : String}
    (htext : Source.SameButLines text text') (fuel : Nat) :
    (s.run host fuel text).SameButLines (s'.run host fuel text') := by
  obtain ⟨hparsed, hnextId⟩ := htext.parsed s.nextId
  have hdiagnostics := htext.diagnostics s.nextId
  obtain ⟨herrors, htable⟩ := resolve_lines hparsed.statements
  have hread : { s with nextId := (Source.read text s.nextId).parsed.nextId : Session }.SameButLines
      { s' with nextId := (Source.read text' s.nextId).parsed.nextId } := { h with nextId := hnextId }
  unfold Session.run Resolution.isOk
  rw [h.nextId]
  dsimp only
  rw [isEmpty_eq_of_forall₂ hdiagnostics, isEmpty_eq_of_forall₂ herrors]
  split
  · split
    · exact (hread.addDistances htable).interpret hhost hparsed.statements fuel
    · exact ⟨rfl, List.rel_map (fun _ _ he => he.diagnostic) herrors, .none, hread⟩
  · exact ⟨rfl, hdiagnostics, .none, hread⟩

/-- Two lists of tokens that are the same but for their lines. The statements they are parsed to, the errors of parsing
    and those of resolution are the same but for lines, the identities and the table are the same, and running the
    statements in one session comes out the same but for the line of a runtime error and for the lines in the
    declarations of functions in the session afterwards. -/
theorem run_lines {tokens tokens' : List Token} (hhost : host.Uniform)
    (htokens : List.Forall₂ (fun t t' => t' = { t with line := t'.line }) tokens tokens')
    (nextId : ExprId) (s : Session) (fuel : Nat) :
    let parsed := parse tokens nextId
    let parsed' := parse tokens' nextId
    let found := resolve parsed.statements
    let found' := resolve parsed'.statements
    Stmt.LikeAll .lines parsed.statements parsed'.statements ∧
    List.Forall₂ (SyntaxError.Like .lines) parsed.errors parsed'.errors ∧ parsed'.nextId = parsed.nextId ∧
    (∀ id : ExprId, found'.distances[id]? = found.distances[id]?) ∧
    List.Forall₂ (ScopeError.Like .lines) found.errors found'.errors ∧
    Run.SameButLines ((s.addDistances found.distances).interpret host fuel parsed.statements)
      ((s.addDistances found'.distances).interpret host fuel parsed'.statements) := by
  intro parsed parsed' found found'
  obtain ⟨hparsed, hnextId⟩ := parse_lines htokens nextId
  obtain ⟨herrors, htable⟩ := resolve_lines hparsed.statements
  have hsession : (s.addDistances found.distances).SameButLines (s.addDistances found'.distances) :=
    (SameButLines.refl s).addDistances htable
  exact ⟨hparsed.statements, hparsed.errors, hnextId, htable, herrors, hsession.interpret hhost hparsed.statements fuel⟩

/-- A function prints a line and fails, written on one line and on several. -/
theorem run_lines_reformatted :
    let host := Host.withTime fun _ => 0
    let tokens := Scan.tokens (Scan.items "fun f()\x7bprint true;return -nil;\x7df();")
    let tokens' := Scan.tokens (Scan.items "fun f() \x7b\n  print true;\n  return -nil; // fails\n\x7d\nf();")
    let program := (parse tokens 0).statements
    let program' := (parse tokens' 0).statements
    let run := ((Session.new .unlimited).addDistances (resolve program).distances).interpret host 30 program
    let run' := ((Session.new .unlimited).addDistances (resolve program').distances).interpret host 30 program'
    List.Forall₂ (fun t t' => t' = { t with line := t'.line }) tokens tokens' ∧
      run.failure = some ⟨⟨.mark .minus, "-", 1⟩, .operandNotNumber⟩ ∧
      run'.failure = some ⟨⟨.mark .minus, "-", 3⟩, .operandNotNumber⟩ ∧ run.SameButLines run' := by
  intro host tokens tokens' program program' run run'
  have htokens : List.Forall₂ (fun t t' => t' = { t with line := t'.line }) tokens tokens' := by decide +kernel
  obtain ⟨-, -, -, -, -, hrun⟩ := run_lines (Host.withTime_uniform fun _ => 0) htokens 0 (Session.new .unlimited) 30
  exact ⟨htokens, by decide +kernel, by decide +kernel, hrun⟩

end Session
end Lox
