import Lox.Proofs.Identities
import Lox.Proofs.Likeness.Trees
import Lox.Proofs.Outcomes
import Lox.Proofs.Parsing.Seams

/-! # Single expressions

What is an expression before a semicolon is the same expression by itself, and behind `print` (`Parse.parse_print`).
Resolving the statement finds no distance for what stands in it on the outermost level, so all of it is global, as it is
for evaluation without resolving; the functions that are called find the distances of before in both. Hence printing
the expression does what evaluating it does, and prints the value (`Session.print_evaluates`). -/

namespace Lox

/-! ### Parsing -/

namespace Grammar

/-- A single statement that is an expression is the expression and a semicolon. -/
theorem Declarations.expression {nearest : Bool} {us : List Token} {e : Expr}
    (h : Declarations nearest us [.expression e]) :
    ∃ ts semicolon, us = ts ++ [semicolon] ∧ Derives .assignment ts e := by
  obtain _ | ⟨h, _ | _⟩ := h
  rw [List.append_nil]
  generalize hs : Stmt.expression e = s at h
  cases h with
  | function => cases hs
  | var h => cases h <;> cases hs
  | statement h =>
    cases h with
    | expression h =>
      obtain ⟨hd, -⟩ := h
      cases hs
      exact ⟨_, _, rfl, hd⟩
    | @forLoop _ _ _ _ _ _ _ _ init condition increment =>
      cases init <;> cases condition <;> cases hs
    | ifOnly | ifElse | print | ret | whileLoop | block => cases hs

end Grammar

namespace Parse
open Grammar
variable {ts tokens : List Token} {e : Expr} {printer semicolon : Token} {first nextId : ExprId}

theorem body_single {t : Token} (h : t.isEnd = false) : body [t] = [t] := List.takeWhile_cons_of_pos (by rw [h]; rfl)

/-- Tokens that are a single expression before a semicolon are an expression. -/
theorem derives_of_parse (hts : ∀ t ∈ ts, t.isEnd = false) (hsemicolon : semicolon.kind = .mark .semicolon)
    (herrors : (parse (ts ++ [semicolon]) first).errors = [])
    (hstatements : (parse (ts ++ [semicolon]) first).statements = [.expression e]) :
    Derives .assignment ts e.unnumbered ∧ e.unnumbered.WithinLimits := by
  obtain ⟨hd, hlimits⟩ := parse_sound herrors
  rw [hstatements] at hd hlimits
  have hend : semicolon.isEnd = false := by rw [Token.isEnd, hsemicolon]
  rw [body_append hts, body_single hend] at hd
  obtain ⟨us, t, hus, hd⟩ := Declarations.expression hd
  obtain ⟨rfl, -⟩ := List.append_inj' hus rfl
  exact ⟨hd, hlimits.1⟩

/-- What derives an expression is parsed to it, without errors and with new identities. -/
theorem parseExpression_complete (h : Derives .assignment (body tokens) e)
    (hlimits : e.WithinLimits) (nextId : ExprId) :
    ∃ e', (parseExpression tokens nextId).expression? = some e' ∧ (parseExpression tokens nextId).errors = [] ∧
      e'.unnumbered = e ∧ ∀ r ∈ e'.references, nextId ≤ r.id := by
  obtain ⟨e', s, hparse, hbuilt⟩ := expression_complete nextId h
  have hresult := parseExpression_of_ok hparse (hbuilt.errors hlimits)
  exact ⟨e', congrArg _ hresult, congrArg _ hresult, hbuilt.view_eq, (expression_fresh hparse).lower⟩

/-- Behind `print` and before a semicolon it is parsed to the same expression. -/
theorem parse_print (h : Derives .assignment ts e) (hlimits : e.WithinLimits)
    (hprinter : printer.kind = .keyword .print)
    (hsemicolon : semicolon.kind = .mark .semicolon) (htokens : body tokens = printer :: (ts ++ [semicolon]))
    (nextId : ExprId) :
    ∃ e', (parse tokens nextId).statements = [.print e'] ∧ (parse tokens nextId).errors = [] ∧ e'.unnumbered = e := by
  have hd : Program true (body tokens) [.print e] := by
    rw [htokens, ← List.append_nil (printer :: _)]
    exact .cons (.statement (.print hprinter h hsemicolon)) .nil
  obtain ⟨htrees, herrors⟩ := @parse_complete _ nextId _ hd
  generalize (parse tokens nextId).statements = statements at htrees ⊢
  obtain _ | ⟨s, _ | _⟩ := statements
  · cases htrees
  · cases s <;> cases htrees
    exact ⟨_, rfl, herrors ⟨hlimits, trivial⟩, rfl⟩
  · cases (List.cons.inj htrees).2

end Parse

/-! ### Evaluation -/

/-- Tokens are the same, and identities have no distance. -/
def Likeness.unresolved (distances : Distances) : Likeness where
  token t t' := t' = t
  id a a' := distances[a]? = none ∧ distances[a']? = none
  kind_eq h := by rw [h]
  lexeme_eq h := by rw [h]

/-- Expressions that are the same up to identities are alike in this way if all that they refer to is global. -/
theorem Expr.like_unresolved {distances : Distances} {e e' : Expr} (h : e'.unnumbered = e.unnumbered)
    (he : ∀ r ∈ e.references, distances[r.id]? = none) (he' : ∀ r ∈ e'.references, distances[r.id]? = none) :
    Expr.Like (.unresolved distances) e e' := by
  let L : Likeness := (Likeness.unresolved distances).unnumbered
  have hlike : Expr.Like L e e' := by
    refine Expr.like_of_unnumbered (L := L) ?_
    rw [h]
    exact .refl ⟨fun _ => rfl, fun _ => trivial⟩ _
  have htoken : (Likeness.unresolved distances).Admits L := fun h => h
  refine hlike.renumber htoken fun q hq => ?_
  obtain ⟨hleft, hright⟩ := List.of_mem_zip hq
  exact ⟨he _ hleft, he' _ hright⟩

namespace Eval
variable {distances distances' : Distances} {host : Host}

/-- Evaluation takes nothing from a table of distances but its entries. -/
theorem expr_congr (h : ∀ id : ExprId, distances[id]? = distances'[id]?) (n : Nat) (e : Expr) (m : Machine) :
    Eval.expr ⟨.resolved distances, host⟩ n e m = Eval.expr ⟨.resolved distances', host⟩ n e m := by
  let c : Context := ⟨.resolved distances, host⟩
  let c' : Context := ⟨.resolved distances', host⟩
  have hagree : ∀ mo, Moment.Agree c c' mo := fun mo => by
    unfold Moment.Agree
    split
    · rw [Eval.read, Eval.read, Access.get?, Access.get?, h]
    · rw [assign_apply, assign_apply, Access.assign?, Access.assign?, h]
    · trivial
  have hhost : c.host = c'.host := rfl
  exact Moment.same_of_agree hhost n (.expr e) m fun mo _ => hagree mo

mutual

/-- Global references are evaluated by their names. -/
theorem expr_unresolved : ∀ (n : Nat) {e e' : Expr}, Expr.Like (.unresolved distances) e e' →
    Eval.expr ⟨.resolved distances, host⟩ n e' = Eval.expr ⟨.resolved distances, host⟩ n e
  | 0, _, _, _ => rfl
  | n + 1, _, _, .literal _ => rfl
  | n + 1, _, _, .grouping h => expr_unresolved n h
  | n + 1, _, _, .unary rfl h => by rw [Eval.expr, Eval.expr, expr_unresolved n h]
  | n + 1, _, _, .binary hl rfl hr => by rw [Eval.expr, Eval.expr, expr_unresolved n hl, expr_unresolved n hr]
  | n + 1, _, _, .logical hl rfl hr => by rw [Eval.expr, Eval.expr, expr_unresolved n hl, expr_unresolved n hr]
  | n + 1, _, _, .var hid rfl => by
    funext m
    rw [Eval.expr, Eval.expr, Eval.read, Eval.read, Access.get?, Access.get?, hid.1, hid.2]
  | n + 1, _, _, .assign hid rfl h => by
    rw [Eval.expr, Eval.expr, expr_unresolved n h]
    congr 1
    funext v
    congr 1
    funext m
    rw [assign_apply, assign_apply, Access.assign?, Access.assign?, hid.1, hid.2]
  | n + 1, _, _, .call hf rfl hargs => by
    rw [Eval.expr, Eval.expr, expr_unresolved n hf]
    congr 1
    funext f
    rw [exprs_unresolved n hargs]

theorem exprs_unresolved :
    ∀ (n : Nat) {done : Array Value} {es es' : List Expr}, Expr.LikeAll (.unresolved distances) es es' →
    Eval.exprs ⟨.resolved distances, host⟩ n done es' = Eval.exprs ⟨.resolved distances, host⟩ n done es
  | 0, _, _, _, _ => rfl
  | n + 1, _, _, _, .nil => rfl
  | n + 1, _, _, _, .cons h hes => by
    rw [Eval.exprs, Eval.exprs, expr_unresolved n h]
    congr 1
    funext v
    exact exprs_unresolved n hes

end

end Eval

/-! ### Running -/

namespace Resolve

/-- A single `print` on the outermost level is resolved without errors, and nothing is put down for it. -/
theorem resolve_print {e : Expr} (hnodup : (e.references.map Reference.id).Nodup) :
    (resolve [.print e]).isOk = true ∧ ∀ id : ExprId, (resolve [.print e]).distances[id]? = none := by
  have hsites : sitesOf [.print e] = e.sites [] := List.append_nil _
  have hregions : ∀ t ∈ e.sites [], t.regions = [] := fun t ht => by
    obtain ⟨r, -, rfl⟩ := List.mem_map.mp ht
    rfl
  refine ⟨?_, fun id => distances_outermost ?_ (hsites ▸ hregions) id⟩
  · rw [Resolution.isOk, errors_resolve, List.isEmpty_iff]
    refine (List.append_nil _).trans (List.filterMap_eq_nil_iff.mpr fun t ht => ?_)
    rw [Site.error?, hregions t ht]
    simp
  · rw [hsites, Expr.sites, List.map_map]
    exact hnodup

end Resolve

namespace Session
variable {host : Host} {s : Session} {texts : List String}

/-- Parses tokens with identities from this one on, resolves the program and runs it. -/
def runTokens (host : Host) (fuel : Nat) (tokens : List Token) (nextId : ExprId) (s : Session) : Run :=
  let parsed := parse tokens nextId
  let s := { s with nextId := parsed.nextId }
  if parsed.errors.isEmpty then
    let resolution := resolve parsed.statements
    if resolution.isOk then (s.addDistances resolution.distances).interpret host fuel parsed.statements
    else ⟨.status .compileError, resolution.errors.map ScopeError.diagnostic, none, s⟩
  else ⟨.status .compileError, parsed.errors.map SyntaxError.diagnostic, none, s⟩

/-- A source that is scanned without errors is run by its tokens. -/
theorem run_eq_runTokens {text : String} (h : Scan.errors (Scan.items text) = []) (host : Host)
    (fuel : Nat) (s : Session) :
    s.run host fuel text = s.runTokens host fuel (Scan.tokens (Scan.items text)) s.nextId := by
  have hdiagnostics : (Source.read text s.nextId).diagnostics =
      (Source.read text s.nextId).parsed.errors.map SyntaxError.diagnostic := by
    rw [Source.diagnostics, Source.scanDiagnostics, Source.read, h]
    rfl
  unfold run runTokens
  dsimp only
  rw [hdiagnostics, List.isEmpty_map]
  rfl

/-- Printing the value comes out as evaluating to it did: with the same frames, and the text of the value as the only
    other output, or with the same error, or not at all. -/
structure Prints (result : Except Stop Value × Session) (run : Run) : Prop where
  frames : run.session.machine.frames = result.2.machine.frames
  diagnostics : run.diagnostics = []
  printed : ∀ v, result.1 = .ok v → run.session.output = result.2.output ++ (v.display ++ "\n").toUTF8
  unprinted : (∀ v, result.1 ≠ .ok v) → run.session.output = result.2.output
  ok : (∃ v, result.1 = .ok v) ↔ run.ending = .status .ok
  failed : ∀ e, result.1 = .error (.failed e) ↔ run.ending = .status .runtimeError ∧ run.failure = some e
  endless : result.1 = .error .outOfFuel ↔ run.ending = .outOfFuel

/-- In a session with a sink that never fails the statement prints what the expression is evaluated to. -/
theorem prints_interpretIn (hsink : s.machine.sink.Reliable) {t : Session} (hmachine : t.machine = s.machine)
    (c : Context) (n : Nat) (e : Expr) : Prints (s.step (Eval.expr c n e)) (t.interpretIn c (n + 1) [.print e]) := by
  have hreliable : ((Eval.expr c n e).final s.machine).sink.Reliable :=
    ((Sink.Reliable.respected c).ends n).expr e s.machine hsink
  unfold interpretIn step
  rw [hmachine]
  cases hresult : Eval.expr c n e s.machine with
  | ok v m =>
    rw [Eval.final_of_ok hresult] at hreliable
    let sink : Sink := { m.sink with written := m.sink.written ++ (v.display ++ "\n").toUTF8 }
    have hprinted : Eval.printLine v.display m = .ok () { m with sink } := by rw [Eval.printLine_apply, hreliable.write]
    have hstmt : Eval.stmt c (n + 1) (.print e) s.machine = .ok .normal { m with sink } :=
      (Eval.bind_of_ok hresult).trans (Eval.bind_of_ok hprinted)
    have hprogram : Eval.program c (n + 1) [.print e] s.machine = .ok () { m with sink } := Eval.bind_of_ok hstmt
    rw [hprogram]
    dsimp only
    rw [finish_of_reliable hreliable.flushes]
    exact {
      frames := rfl
      diagnostics := rfl
      printed := by rintro _ ⟨⟩; rfl
      unprinted := fun hnone => absurd rfl (hnone v)
      ok := ⟨fun _ => rfl, fun _ => ⟨v, rfl⟩⟩
      failed := fun e => ⟨nofun, nofun⟩
      endless := ⟨nofun, nofun⟩ }
  | error stop m =>
    rw [Eval.final_of_error hresult] at hreliable
    have hstmt : Eval.stmt c (n + 1) (.print e) s.machine = .error stop m := Eval.bind_of_error hresult
    have hprogram : Eval.program c (n + 1) [.print e] s.machine = .error stop m := Eval.bind_of_error hstmt
    rw [hprogram]
    cases stop with
    | failed err =>
      dsimp only
      rw [finish_of_reliable hreliable.flushes]
      exact {
        frames := rfl
        diagnostics := rfl
        printed := nofun
        unprinted := fun _ => rfl
        ok := ⟨nofun, nofun⟩
        failed := fun e => ⟨by rintro ⟨⟩; exact ⟨rfl, rfl⟩, by rintro ⟨-, ⟨⟩⟩; rfl⟩
        endless := ⟨nofun, nofun⟩ }
    | sink fault =>
      have hstops : (⟨n, .expr e, s.machine⟩ : Moment).Stops c (.sink fault) := ⟨m, hresult⟩
      exact absurd hsink hstops.not_sink
    | outOfFuel =>
      exact {
        frames := rfl
        diagnostics := rfl
        printed := nofun
        unprinted := fun _ => rfl
        ok := ⟨nofun, nofun⟩
        failed := fun e => ⟨nofun, nofun⟩
        endless := ⟨fun _ => rfl, fun _ => rfl⟩ }

end Session

open Session in
/-- What parses as an expression before a semicolon is the same expression by itself, and nothing is reported. In any
    session with a sink that never fails it is evaluated, without being resolved, to what running `print` of it prints:
    the frames are the same afterwards, and so is an error, and neither ends if the other does not. Identities are new
    ones of the session, and tokens behind an end marker do not count. -/
theorem print_evaluates {ts : List Token} {semicolon : Token} {e : Expr} {first : ExprId}
    (hts : ∀ t ∈ ts, t.isEnd = false) (hsemicolon : semicolon.kind = .mark .semicolon)
    (herrors : (parse (ts ++ [semicolon]) first).errors = [])
    (hstatements : (parse (ts ++ [semicolon]) first).statements = [.expression e]) (nextId : ExprId) :
    ∃ e', (parseExpression ts nextId).expression? = some e' ∧ (parseExpression ts nextId).errors = [] ∧
      e'.unnumbered = e.unnumbered ∧
      ∀ {host : Host} {s : Session} {texts : List String} {printer : Token} {tokens : List Token} {later : ExprId},
        s.Reachable host texts → s.machine.sink.Reliable → s.nextId ≤ nextId → s.nextId ≤ later →
        printer.kind = .keyword .print → Parse.body tokens = printer :: (ts ++ [semicolon]) →
        (∀ n, Prints (s.evaluate host n e') (s.runTokens host (n + 1) tokens later)) ∧
        ((∀ n, (s.evaluate host n e').1 = .error .outOfFuel) ↔
          ∀ n, (s.runTokens host n tokens later).ending = .outOfFuel) ∧
        ∀ text, Scan.errors (Scan.items text) = [] → Scan.tokens (Scan.items text) = tokens →
          ∀ n, s.run host n text = s.runTokens host n tokens s.nextId := by
  obtain ⟨hd, hlimits⟩ := Parse.derives_of_parse hts hsemicolon herrors hstatements
  have hbody : Parse.body ts = ts := by
    have hall : Parse.body (ts ++ []) = ts ++ Parse.body [] := Parse.body_append hts
    rwa [List.append_nil, show Parse.body [] = [] from rfl, List.append_nil] at hall
  obtain ⟨e', he', hnone, htree, hfresh⟩ := Parse.parseExpression_complete (hbody.symm ▸ hd) hlimits nextId
  refine ⟨e', he', hnone, htree, ?_⟩
  intro host s texts printer tokens later hreach hsink hnext hlater hprinter htokens
  obtain ⟨e'', hparsed, hclean, htree'⟩ := Parse.parse_print hd hlimits hprinter hsemicolon htokens later
  have hfresh' := Parse.parse_fresh tokens later
  rw [hparsed, Stmt.referencesAll, Stmt.referencesAll, List.append_nil] at hfresh'
  have hfresh' : Fresh later (parse tokens later).nextId e''.references := hfresh'
  obtain ⟨hok, hdistances⟩ := Resolve.resolve_print hfresh'.nodup
  let begun : Session := addDistances { s with nextId := (parse tokens later).nextId } (resolve [.print e'']).distances
  have hrun : ∀ n, s.runTokens host n tokens later = begun.interpret host n [.print e''] := fun n => by
    unfold runTokens
    dsimp only
    rw [hclean, hparsed]
    exact (if_pos rfl).trans (if_pos hok)
  have htable : ∀ id : ExprId, s.distances[id]? = begun.distances[id]? := fun id => by
    have hunion : begun.distances[id]? = (resolve [.print e'']).distances[id]?.or s.distances[id]? :=
      Std.HashMap.getElem?_union
    rw [hunion, hdistances, Option.none_or]
  have hlike : Expr.Like (.unresolved s.distances) e' e'' := Expr.like_unresolved (htree'.trans htree.symm)
    (fun r hr => hreach.unused (Nat.le_trans hnext (hfresh r hr)))
    fun r hr => hreach.unused (Nat.le_trans hlater (hfresh'.lower r hr))
  have hsame : ∀ n, s.evaluate host n e' = s.step (Eval.expr (begun.context host) n e'') := fun n => by
    have heval : Eval.expr (s.context host) n e' s.machine = Eval.expr (begun.context host) n e'' s.machine :=
      (congrFun (Eval.expr_unresolved n hlike) s.machine).symm.trans (Eval.expr_congr htable n e'' s.machine)
    rw [evaluate, step, step, heval]
  have hprints : ∀ n, Prints (s.evaluate host n e') (s.runTokens host (n + 1) tokens later) := fun n => by
    rw [hsame, hrun]
    exact prints_interpretIn hsink (show begun.machine = s.machine from rfl) _ n e''
  refine ⟨hprints, ⟨fun hall n => ?_, fun hall n => (hprints n).endless.mpr (hall (n + 1))⟩, ?_⟩
  · cases n with
    | zero =>
      rw [hrun]
      rfl
    | succ n => exact (hprints n).endless.mp (hall n)
  · rintro text hscan rfl n
    exact run_eq_runTokens hscan host n s

open Session in
/-- A function of an earlier run prints something, and what it returns is printed after it. -/
theorem print_evaluates_call : ∃ (s : Session) (run : Run) (e' : Expr) (v : Value),
    s = ((Session.new .unlimited).run (Host.withTime fun _ => 0) 9 "fun f(n)\x7bprint nil;return true;\x7d").session ∧
      run = s.run (Host.withTime fun _ => 0) 21 "print f(nil);" ∧
      (s.evaluate (Host.withTime fun _ => 0) 20 e').1 = .ok v ∧ run.ending = .status .ok ∧
      run.session.output = (s.evaluate (Host.withTime fun _ => 0) 20 e').2.output ++ (v.display ++ "\n").toUTF8 := by
  let ts : List Token := [⟨.identifier, "f", 1⟩, ⟨.mark .leftParen, "(", 1⟩, ⟨.keyword .nil, "nil", 1⟩,
    ⟨.mark .rightParen, ")", 1⟩]
  let semicolon : Token := ⟨.mark .semicolon, ";", 1⟩
  obtain ⟨e', -, -, -, hsessions⟩ := print_evaluates (by decide : ∀ t ∈ ts, t.isEnd = false)
    (rfl : semicolon.kind = .mark .semicolon) (by decide +kernel : (parse (ts ++ [semicolon]) 0).errors = []) (by rfl) 9
  have hreach : Reachable (Host.withTime fun _ => 0) ["fun f(n)\x7bprint nil;return true;\x7d"]
      (Session.run (Host.withTime fun _ => 0) 9 "fun f(n)\x7bprint nil;return true;\x7d" (.new .unlimited)).session :=
    (Reachable.new .unlimited).run 9 _
  have hsink : (Session.run (Host.withTime fun _ => 0) 9 "fun f(n)\x7bprint nil;return true;\x7d"
      (.new .unlimited)).session.machine.sink.Reliable := ⟨by decide +kernel, by decide +kernel⟩
  let printer : Token := ⟨.keyword .print, "print", 1⟩
  have htokens : Parse.body (Scan.tokens (Scan.items "print f(nil);")) = printer :: (ts ++ [semicolon]) := by
    decide +kernel
  obtain ⟨hprints, -, htexts⟩ := hsessions hreach hsink (by decide +kernel) (Nat.le_refl _) rfl htokens
  have hrun := htexts "print f(nil);" (by decide +kernel) rfl 21
  have hprints := hprints 20
  rw [← hrun] at hprints
  have hending : (Session.run (Host.withTime fun _ => 0) 21 "print f(nil);" (Session.run (Host.withTime fun _ => 0) 9
      "fun f(n)\x7bprint nil;return true;\x7d" (.new .unlimited)).session).ending = .status .ok := by decide +kernel
  obtain ⟨v, hv⟩ := hprints.ok.mpr hending
  exact ⟨_, _, e', v, rfl, rfl, hv, hending, hprints.printed v hv⟩

end Lox
