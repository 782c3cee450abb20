import Lox.Proofs.Renaming.Evaluation
import Lox.Proofs.Renaming.Resolution
import Lox.Proofs.Sessions

/-! # Runs of a renamed program

Whatever has been run before in a session, a program in which the variable of a scope was renamed runs there
as the program does (`run_renamed`). The functions that earlier programs left behind are the same in both
runs, and no frame is a frame of the renamed scope yet. -/

namespace Lox

/-- The second run comes out as the first did. Only a variable that is not bound may have the new name in
    place of the old, in the error and its message. -/
structure Run.Renamed (r : Renaming) (run run' : Run) : Prop where
  ending : run'.ending = run.ending
  diagnostics : run'.diagnostics = run.diagnostics
  output : run'.session.output = run.session.output
  failure : run'.failure = run.failure ∨ ∃ name : Token, name.lexeme = r.old ∧
    run.failure = some (.undefined name) ∧ run'.failure = some (.undefined { name with lexeme := r.new })

section
variable {r : Renaming} {distances : Distances}

/-- No frame is a frame of the renamed scope. -/
theorem Marks.lies_none (fs : Frames) (f : FrameId) : Marks.Lies (fun _ => false) fs f none := fun _ _ _ => by simp

theorem Value.Sound.alike {Q : Site → Prop} {fs : Frames} {roster : Roster} {v : Value} (h : v.Sound Q fs roster)
    (hexist : Frames.globals < fs.next) : v.Alike r distances (fun _ => false) fs v := by
  cases v with
  | function c =>
    obtain ⟨rs, hchain, -⟩ := h
    exact .function ⟨rfl, rfl, hchain.lt_next hexist, none, Marks.lies_none fs c.frame, .refl _⟩
  | nil | bool _ | number _ | string _ | host _ => exact .plain nofun

/-- Two runs that begin in the same sound machine begin alike. -/
theorem World.Sound.alike {Q : Site → Prop} {w : World} (h : w.Sound Q) :
    Pair.Alike r distances ⟨w.machine, w.frames, fun _ => false⟩ where
  next := rfl
  enclosing _ := rfl
  here f n _ := by
    change Option.Rel _ (w.frames.here? f n) (w.frames.here? f n)
    cases hv : w.frames.here? f n with
    | none => exact .none
    | some v => exact .some ((h.values f n v hv).alike h.exist)
  exist := h.exist
  inward := h.inward
  outermost := h.outermost
  globals := rfl

namespace Session
variable {s s' : Session} {programs : List (List Stmt)} {texts : List String} {text : String}
    {program program' : List Stmt} {fuel : Nat}

theorem finish_renamed {t t' : Session} (hsink : t'.machine.sink = t.machine.sink) (status : Status)
    {failure failure' : Option RuntimeError} (hfailure : failure' = failure ∨ ∃ name : Token, name.lexeme = r.old ∧
      failure = some (.undefined name) ∧ failure' = some (.undefined { name with lexeme := r.new })) :
    Run.Renamed r (t.finish status failure) (t'.finish status failure') := by
  unfold finish
  rw [hsink]
  rcases t.machine.sink.flush with ⟨sink, _ | fault⟩
  · exact ⟨rfl, rfl, rfl, hfailure⟩
  · exact ⟨rfl, rfl, rfl, hfailure⟩

/-- Runs whose evaluations are coupled come out alike. -/
theorem interpretIn_renamed {t t' : Session} {context : Context} {p : Pair} {R : Pair → Unit → Unit → Prop}
    (h : Eval.Couples r distances (Eval.program context fuel program) (Eval.program context fuel program') p R)
    (hleft : t.machine = p.left) (hright : t'.machine = p.right) :
    Run.Renamed r (t.interpretIn context fuel program) (t'.interpretIn context fuel program') := by
  unfold Eval.Couples at h
  unfold interpretIn
  rw [hleft, hright]
  generalize Eval.program context fuel program p.left = result,
    Eval.program context fuel program' p.right = result' at h ⊢
  cases h with
  | @ok p' _ _ _ _ _ =>
    have hsink : p'.right.sink = p'.left.sink := rfl
    dsimp only
    exact finish_renamed hsink _ (.inl rfl)
  | @error stop _ _ _ hsink hstop =>
    cases hstop with
    | same =>
      cases stop with
      | failed e =>
        dsimp only
        exact finish_renamed hsink _ (.inl rfl)
      | sink fault => exact ⟨rfl, rfl, congrArg Sink.written hsink, .inl rfl⟩
      | outOfFuel => exact ⟨rfl, rfl, congrArg Sink.written hsink, .inl rfl⟩
    | @undefined name hold =>
      dsimp only
      exact finish_renamed hsink _ (.inr ⟨name, hold, rfl, rfl⟩)

/-- A program begins with the distances of its own references in the table. -/
theorem Sound.distances_eq (h : s.Sound programs) (hs : s.Starts text program s') {ref : Reference}
    (href : ref ∈ Stmt.referencesAll program) : s'.distances[ref.id]? = (resolve program).distances[ref.id]? := by
  rw [← Stmt.sitesAll_references [] program] at href
  obtain ⟨t, ht, rfl⟩ := List.mem_map.mp href
  rw [hs.distances_eq, h.unused _ (hs.sites_fresh.2 t ht).1, Option.or_none]

/-- Renaming a variable of a scope to a name that does not occur in the program leaves the distances as they
    are, and the program comes out as before, in every session. -/
theorem run_renamed {host : Host} (hhost : host.Indifferent) (h : s.Reachable host texts)
    (hs : s.Starts text program s') {x y : String} (hy : y ∉ Stmt.identifiersAll program)
    (hrenamed : Renaming.AppliesAll ⟨x, y, (resolve program).distances⟩ program program') (fuel : Nat) :
    (resolve program').isOk = true ∧ (resolve program').distances = (resolve program).distances ∧
      Run.Renamed ⟨x, y, (resolve program).distances⟩ (s.run host fuel text)
        (s'.interpret host fuel program') ∧
      ∀ text', (Source.read text' s.nextId).diagnostics.isEmpty = true →
        (Source.read text' s.nextId).parsed.statements = program' →
          Run.Renamed ⟨x, y, (resolve program).distances⟩ (s.run host fuel text)
            (s.run host fuel text') := by
  have hresolve : resolve program' = resolve program := hrenamed.resolve_eq hy rfl hs.sites_fresh.1 hs.resolved
  have hsound := h.sound hhost.honest
  obtain ⟨roster, hworld⟩ := (hsound.starts hs).world
  have hglobals : s'.machine.current = Frames.globals := (hsound.starts hs).current
  have hat : Pair.At ⟨s'.machine, s'.machine.frames, fun _ => false⟩ none :=
    ⟨Nat.lt_of_le_of_lt (Nat.le_of_eq hglobals) hworld.exist, Marks.lies_none _ _⟩
  have hrenames := hrenamed.renames hy fun ref href => hsound.distances_eq hs href
  have hcouples := @Eval.program_couples _ _ host hhost fuel _ _ _ hworld.alike hat hrenames
  refine ⟨hresolve ▸ hs.resolved, congrArg Resolution.distances hresolve, ?_, ?_⟩
  · rw [run_of_starts hs]
    exact interpretIn_renamed hcouples rfl rfl
  · intro text' hread hparsed
    obtain ⟨t, hs'⟩ : ∃ t, s.Starts text' program' t := ⟨_, hread, hparsed, hresolve ▸ hs.resolved, rfl⟩
    have hmachine : t.machine = s'.machine := hs'.machine_eq.trans hs.machine_eq.symm
    have hdistances : t.distances = s'.distances := by rw [hs'.table_eq, hs.table_eq, hresolve]
    have hcontext : t.context host = s'.context host := by
      rw [context, context, hdistances]
    rw [run_of_starts hs, run_of_starts hs', interpret, interpret, hcontext]
    exact interpretIn_renamed hcouples rfl hmachine

/-- In the innermost block the variable is renamed that is assigned before it is bound. -/
theorem run_renamed_premature :
    ∃ (s' : Session) (program program' : List Stmt), (Host.withTime fun _ => 0).Indifferent ∧
    (Session.new .unlimited).Reachable (Host.withTime fun _ => 0) [] ∧
    (Session.new .unlimited).Starts
      "\x7bvar a;fun f()\x7breturn a;\x7dprint f();\x7bvar a=(a=f());\x7d\x7d" program s' ∧
      "b" ∉ Stmt.identifiersAll program ∧
      Renaming.AppliesAll ⟨"a", "b", (resolve program).distances⟩ program program' ∧
      Run.Renamed ⟨"a", "b", (resolve program).distances⟩
        ((Session.new .unlimited).run (Host.withTime fun _ => 0) 40
          "\x7bvar a;fun f()\x7breturn a;\x7dprint f();\x7bvar a=(a=f());\x7d\x7d")
        ((Session.new .unlimited).run (Host.withTime fun _ => 0) 40
          "\x7bvar a;fun f()\x7breturn a;\x7dprint f();\x7bvar b=(b=f());\x7d\x7d") := by
  let a : Token := ⟨.identifier, "a", 1⟩
  let b : Token := ⟨.identifier, "b", 1⟩
  let f : Token := ⟨.identifier, "f", 1⟩
  let ret : Token := ⟨.keyword .return, "return", 1⟩
  let paren : Token := ⟨.mark .rightParen, ")", 1⟩
  let call : List Token := [f, .ofMark .leftParen 1, paren]
  let written (name : Token) : List Token :=
    [.ofMark .leftBrace 1, .ofKeyword .var 1, a, .ofMark .semicolon 1, .ofKeyword .fun 1] ++ call ++
      [.ofMark .leftBrace 1, ret, a, .ofMark .semicolon 1, .ofMark .rightBrace 1, .ofKeyword .print 1] ++ call ++
      [.ofMark .semicolon 1, .ofMark .leftBrace 1, .ofKeyword .var 1, name, .ofMark .equal 1,
        .ofMark .leftParen 1, name, .ofMark .equal 1] ++ call ++
      [paren, .ofMark .semicolon 1, .ofMark .rightBrace 1, .ofMark .rightBrace 1, .atEnd 1]
  let inner : List Stmt := [.var a (some (.grouping (.assign 4 a (.call (.var 3 f) paren []))))]
  let inner' : List Stmt := [.var b (some (.grouping (.assign 4 b (.call (.var 3 f) paren []))))]
  let program : List Stmt := [.block [.var a none, .function f [] [.ret ret (some (.var 0 a))],
    .print (.call (.var 1 f) paren []), .block inner]]
  let program' : List Stmt := [.block [.var a none, .function f [] [.ret ret (some (.var 0 a))],
    .print (.call (.var 1 f) paren []), .block inner']]
  have hs : (Session.new .unlimited).Starts
      "\x7bvar a;fun f()\x7breturn a;\x7dprint f();\x7bvar a=(a=f());\x7d\x7d" program _ :=
    starts_of_tokens 0 (written a) rfl (by decide +kernel) (by cbv) (by decide +kernel)
  have hs' : (Session.new .unlimited).Starts
      "\x7bvar a;fun f()\x7breturn a;\x7dprint f();\x7bvar b=(b=f());\x7d\x7d" program' _ :=
    starts_of_tokens 0 (written b) rfl (by decide +kernel) (by cbv) (by decide +kernel)
  have htable : ∀ t ∈ sitesOf program, (resolve program).distances[t.reference.id]? = t.distance? :=
    Resolve.distances_resolve (by decide)
  let r : Renaming := ⟨"a", "b", (resolve program).distances⟩
  let around : List Region := [⟨[], some "a", ["a"]⟩, ⟨["a", "f"], none, ["a", "f"]⟩]
  have hcall : r.distances[3]? = some 1 := htable ⟨around, ⟨false, 3, f⟩⟩ (.tail _ (.tail _ (.head _)))
  have hassign : r.distances[4]? = some 0 := htable ⟨around, ⟨true, 4, a⟩⟩ (.tail _ (.tail _ (.tail _ (.head _))))
  have hinner : r.stmts 0 inner = inner' := by
    simp only [inner, Renaming.stmts, Renaming.stmt, Option.map_some, Renaming.expr, Renaming.exprs, Renaming.reference,
      hcall, hassign]
    rfl
  have hrenamed : r.AppliesAll program program' :=
    .head (.inBlock (.tail (.tail (.tail (.head (hinner ▸ .block (by decide)))))))
  have hfresh : "b" ∉ Stmt.identifiersAll program := by decide
  have hhost := Host.withTime_indifferent fun _ => 0
  obtain ⟨-, -, -, hrun⟩ := run_renamed hhost (.new .unlimited) hs hfresh hrenamed 40
  exact ⟨_, program, program', hhost, .new .unlimited, hs, hfresh, hrenamed, hrun _ hs'.read hs'.parsed⟩

end Session
end
end Lox
