import Lox.Proofs.Evaluation.Stops
import Lox.Proofs.Reachable

/-! # How a run comes out

Each pass reports its own errors and no other's, and a source with a static error leaves the session as it
was, but for the identities it has used up. A source without one reports none; if the output never fails and
the run ends, either all of its statements were executed, or exactly one runtime error was reported and
nothing behind the statement that failed was executed (`run_outcome`). -/

namespace Lox

/-! ### Output that never fails -/

namespace Sink
variable {s : Sink}

/-- The sink takes whatever is written to it, and flushing it does not fail. -/
structure Reliable (s : Sink) : Prop where
  room : s.room = none
  flushes : s.flushFails = false

theorem Reliable.write (h : s.Reliable) (text : String) :
    s.write text = ({ s with written := s.written ++ text.toUTF8 }, none) :=
  write_of_none h.room text

/-- A sink that never fails does not begin to. -/
theorem Reliable.respected (context : Context) :
    Eval.Respected context fun m m' => m.sink.Reliable → m'.sink.Reliable where
  refl _ h := h
  trans h h' hm := h' (h hm)
  assign _ h := h
  define _ _ _ h := h
  identity _ h := h
  host _ h := h
  print m text h := by
    rw [h.write]
    exact ⟨h.room, h.flushes⟩
  frame h hm := h hm
  call h hm := h hm

end Sink

namespace Moment
variable {c : Context} {mo mo' : Moment}

theorem Enters.reliable (h : Enters c mo mo') (hs : mo.machine.sink.Reliable) : mo'.machine.sink.Reliable := by
  obtain ⟨m, hm, hmo'⟩ := h.machine
  have hreliable := hm _ (Sink.Reliable.respected c) hs
  rcases hmo' with ⟨-, hmo' | ⟨frame, hmo'⟩⟩ | ⟨call, -, -, hmo'⟩ <;> rw [hmo']
  · exact hreliable
  · exact hreliable
  · exact hreliable

theorem Visits.reliable (h : Visits c mo mo') (hs : mo.machine.sink.Reliable) : mo'.machine.sink.Reliable := by
  induction h with
  | here => exact hs
  | enter he _ ih => exact ih (he.reliable hs)

/-- Nothing stops for want of room in a sink that never fails. -/
theorem Stops.not_sink {fault : SinkFault} (h : mo.Stops c (.sink fault)) : ¬ mo.machine.sink.Reliable := by
  intro hs
  obtain ⟨mo', hv, hraises⟩ := h.raised
  have hs' := hv.reliable hs
  cases hraises with
  | output he hw =>
    rename_i n e m v m' sink
    have hreliable : m'.sink.Reliable := by
      have hkept := ((Sink.Reliable.respected c).ends n).expr e m hs'
      rwa [Eval.final_of_ok he] at hkept
    rw [hreliable.write] at hw
    cases hw

end Moment

/-! ### Programs that fail -/

/-- A program that stops has executed the statements before one that stopped, and no other. -/
theorem Eval.program_error {c : Context} {n : Nat} {stop : Stop} {m' : Machine} : ∀ {program : List Stmt} {m : Machine},
    Eval.program c n program m = .error stop m' →
      ∃ before failing behind m₁, program = before ++ failing :: behind ∧ Eval.program c n before m = .ok () m₁ ∧
        Eval.stmt c n failing m₁ = .error stop m'
  | [], _, h => by cases h
  | s :: rest, m, h => by
    rcases Eval.bind_error h with hs | ⟨flow, m₁, hs, h⟩
    · exact ⟨[], s, rest, m, rfl, rfl, hs⟩
    · obtain ⟨before, failing, behind, m₂, rfl, hbefore, hfailing⟩ := program_error h
      refine ⟨s :: before, failing, behind, m₂, rfl, ?_, hfailing⟩
      rw [Eval.program, Eval.bind_of_ok hs]
      exact hbefore

/-! ### Diagnostics and passes -/

theorem Source.pass_of_mem_diagnostics {source : Source} {d : Diagnostic} (h : d ∈ source.diagnostics) :
    d.pass ≠ .resolving := by
  rcases List.mem_append.mp h with h | h
  · obtain ⟨e, -, rfl⟩ := List.mem_map.mp h
    nofun
  · obtain ⟨e, -, rfl⟩ := List.mem_map.mp h
    nofun

namespace Session

/-- With a sink that never fails, a run of a program that ends has executed all of it, or has failed with one
    error, nothing behind the statement that failed being executed. -/
theorem interpretIn_outcome (context : Context) {fuel : Nat} {program : List Stmt} {s : Session}
    (hs : s.machine.sink.Reliable) (hends : (s.interpretIn context fuel program).ending ≠ .outOfFuel) :
    (∃ m, Eval.program context fuel program s.machine = .ok () m ∧
      s.interpretIn context fuel program =
        ⟨.status .ok, [], none, { s with machine := { m with sink := m.sink.flush.1 } }⟩) ∨
    ∃ e before failing behind m m', program = before ++ failing :: behind ∧
      Eval.program context fuel before s.machine = .ok () m ∧
      Eval.stmt context fuel failing m = .error (.failed e) m' ∧
      s.interpretIn context fuel program =
        ⟨.status .runtimeError, [], some e, { s with machine := { m' with sink := m'.sink.flush.1 } }⟩ := by
  have hreliable : (Eval.final (Eval.program context fuel program) s.machine).sink.Reliable :=
    (Sink.Reliable.respected context).program_final fuel program s.machine hs
  unfold Eval.final at hreliable
  unfold interpretIn at hends ⊢
  cases hprogram : Eval.program context fuel program s.machine with
  | ok u m =>
    rw [hprogram] at hreliable
    exact .inl ⟨m, rfl, finish_of_reliable hreliable.flushes _ _⟩
  | error stop m' =>
    rw [hprogram] at hreliable hends
    cases stop with
    | failed e =>
      obtain ⟨before, failing, behind, m, hsplit, hbefore, hfailing⟩ := Eval.program_error hprogram
      exact .inr ⟨e, before, failing, behind, m, m', hsplit, hbefore, hfailing,
        finish_of_reliable hreliable.flushes _ _⟩
    | sink fault =>
      -- It would have been raised at a print with a sink that fails.
      have hstops : (⟨fuel, .program program, s.machine⟩ : Moment).Stops context (.sink fault) := ⟨m', hprogram⟩
      exact absurd hs hstops.not_sink
    | outOfFuel => exact absurd rfl hends

/-- What comes of a run. Errors of scanning come first, then those of parsing; if there are none, those of
    resolving. In these cases the session is as it was, but for the identities that parsing has used up. If
    there are none either, nothing static is reported, and with a sink that never fails a run that ends has
    executed every statement and reported nothing, or has reported the error of one statement and executed
    only those before it. -/
theorem run_outcome (host : Host) (fuel : Nat) (text : String) (s : Session) :
    let source := Source.read text s.nextId
    let resolution := resolve source.parsed.statements
    let run := s.run host fuel text
    let parsed : Session := { s with nextId := source.parsed.nextId }
    (Scan.errors source.items ≠ [] ∨ source.parsed.errors ≠ [] →
      run.ending = .status .compileError ∧ run.failure = none ∧ run.session = parsed ∧
      run.diagnostics = (Scan.errors source.items).map ScanError.diagnostic ++
        source.parsed.errors.map SyntaxError.diagnostic ∧ ∀ d ∈ run.diagnostics, d.pass ≠ .resolving) ∧
    (Scan.errors source.items = [] → source.parsed.errors = [] → resolution.errors ≠ [] →
      run.ending = .status .compileError ∧ run.failure = none ∧ run.session = parsed ∧
      run.diagnostics = resolution.errors.map ScopeError.diagnostic) ∧
    (Scan.errors source.items = [] → source.parsed.errors = [] → resolution.errors = [] →
      run.diagnostics = [] ∧ (s.machine.sink.Reliable → run.ending ≠ .outOfFuel →
        let begun := parsed.addDistances resolution.distances
        let program := Eval.program (begun.context host) fuel
        (run.ending = .status .ok ∧ run.failure = none ∧
          ∃ m, program source.parsed.statements s.machine = .ok () m ∧
            run.session = { begun with machine := { m with sink := m.sink.flush.1 } }) ∨
        ∃ e before failing behind m m', run.ending = .status .runtimeError ∧ run.failure = some e ∧
          source.parsed.statements = before ++ failing :: behind ∧ program before s.machine = .ok () m ∧
          Eval.stmt (begun.context host) fuel failing m = .error (.failed e) m' ∧
          run.session = { begun with machine := { m' with sink := m'.sink.flush.1 } })) := by
  intro source resolution run parsed
  refine ⟨fun herrors => ?_, fun hscan hparse hresolve => ?_, fun hscan hparse hresolve => ?_⟩
  · have hread : ¬ source.diagnostics.isEmpty = true := by
      rw [Source.diagnostics_isEmpty]
      rintro ⟨hscan, hparse⟩
      exact herrors.elim (· hscan) (· hparse)
    have hrun : run = ⟨.status .compileError, source.diagnostics, none, parsed⟩ := if_neg hread
    rw [hrun]
    exact ⟨rfl, rfl, rfl, rfl, fun d hd => Source.pass_of_mem_diagnostics hd⟩
  · have hread : source.diagnostics.isEmpty = true := Source.diagnostics_isEmpty.mpr ⟨hscan, hparse⟩
    have hnot : ¬ resolution.isOk = true := fun hok => hresolve (List.isEmpty_iff.mp hok)
    have hrun : run = ⟨.status .compileError, resolution.errors.map ScopeError.diagnostic, none, parsed⟩ :=
      (if_pos hread).trans (if_neg hnot)
    rw [hrun]
    exact ⟨rfl, rfl, rfl, rfl⟩
  · have hread : source.diagnostics.isEmpty = true := Source.diagnostics_isEmpty.mpr ⟨hscan, hparse⟩
    have hok : resolution.isOk = true := List.isEmpty_iff.mpr hresolve
    have hrun : run = (parsed.addDistances resolution.distances).interpret host fuel source.parsed.statements :=
      (if_pos hread).trans (if_pos hok)
    rw [hrun]
    refine ⟨interpretIn_diagnostics _, fun hs hends => ?_⟩
    intro begun program
    rcases interpretIn_outcome (s := begun) (begun.context host) hs hends with
      ⟨m, hprogram, hout⟩ | ⟨e, before, failing, behind, m, m', hsplit, hbefore, hfailing, hout⟩
    · have hout : begun.interpret host fuel source.parsed.statements = _ := hout
      rw [hout]
      exact .inl ⟨rfl, rfl, m, hprogram, rfl⟩
    · have hout : begun.interpret host fuel source.parsed.statements = _ := hout
      rw [hout]
      exact .inr ⟨e, before, failing, behind, m, m', rfl, rfl, hsplit, hbefore, hfailing, rfl⟩

/-- A source that scanning refuses, one that only resolving refuses, and one whose second statement fails: all
    that is printed is what its first prints. -/
theorem run_outcome_of_sources : ∃ (broken unresolved failing : Run),
    broken = (Session.new .unlimited).run (Host.withTime fun _ => 0) 9 "print nil;$" ∧
      broken.diagnostics = [ScanError.diagnostic ⟨.unexpected '$', 1⟩] ∧ broken.session.output = .empty ∧
    unresolved = (Session.new .unlimited).run (Host.withTime fun _ => 0) 9 "print nil;return;" ∧
      unresolved.diagnostics = [ScopeError.diagnostic ⟨⟨.keyword .return, "return", 1⟩, .topLevelReturn⟩] ∧
      unresolved.session.output = .empty ∧
    failing = (Session.new .unlimited).run (Host.withTime fun _ => 0) 9 "print nil;-nil;print nil;" ∧
      failing.diagnostics = [] ∧ failing.ending = .status .runtimeError ∧
      failing.failure = some ⟨⟨.mark .minus, "-", 1⟩, .operandNotNumber⟩ ∧
      failing.session.output = .empty ++ "nil\n".toUTF8 := by
  obtain ⟨hbroken, -, -⟩ := run_outcome (Host.withTime fun _ => 0) 9 "print nil;$" (.new .unlimited)
  obtain ⟨-, hunresolved, -⟩ := run_outcome (Host.withTime fun _ => 0) 9 "print nil;return;" (.new .unlimited)
  obtain ⟨-, -, hfailing⟩ := run_outcome (Host.withTime fun _ => 0) 9 "print nil;-nil;print nil;" (.new .unlimited)
  obtain ⟨-, -, hbrokenSession, hbrokenDiagnostics, -⟩ := hbroken (.inl (by decide +kernel))
  obtain ⟨-, -, hunresolvedSession, hunresolvedDiagnostics⟩ :=
    hunresolved (by decide +kernel) (by decide +kernel) (by decide +kernel)
  let failing := (Session.new .unlimited).run (Host.withTime fun _ => 0) 9 "print nil;-nil;print nil;"
  obtain ⟨hnone, hout⟩ := hfailing (by decide +kernel) (by decide +kernel) (by decide +kernel)
  have hends : failing.ending ≠ .outOfFuel := by decide +kernel
  rcases hout ⟨rfl, rfl⟩ hends with ⟨hending, -⟩ | ⟨-, -, -, -, -, -, hending, -⟩
  · exact absurd hending (by decide +kernel)
  · exact ⟨_, _, failing, rfl, hbrokenDiagnostics.trans (by decide +kernel), congrArg output hbrokenSession, rfl,
      hunresolvedDiagnostics.trans (by decide +kernel), congrArg output hunresolvedSession, rfl, hnone, hending,
      by decide +kernel, by decide +kernel⟩

end Session
end Lox
