import Lox.Proofs.Likeness.Joined

/-! # A session and one run

Running a source and then another in a session comes to the same as running both as one, the second below the
first: the same output, the same ending, the same runtime error, on a later line just if it is one of the second,
and the same globals (`run_joined`). Running the first and then the second statement by statement is what running
both is, and between the two nothing happens but a flush. If the second is moved down by as many lines as the first
has, its runtime error is that of the one run as it stands. -/

namespace Lox

namespace Session
variable {host : Host} {s : Session} {context : Context} {fuel : Nat} {program : List Stmt}

/-! ### How a run of a program ends -/

theorem interpretIn_ok (h : (s.interpretIn context fuel program).ending = .status .ok) :
    ∃ m, Eval.program context fuel program s.machine = .ok () m ∧
      (s.interpretIn context fuel program).session.machine = { m with sink := m.sink.flush.1 } := by
  unfold interpretIn at *
  split at h <;> rename_i m hprogram
  · rw [hprogram, finish_session]
    exact ⟨m, rfl, rfl⟩
  · rcases @finish_ending { s with machine := m } .runtimeError (some _) with hending | ⟨fault, hending⟩ <;>
      rw [hending] at h <;> cases h
  · cases h
  · cases h

theorem interpretIn_failed (h : (s.interpretIn context fuel program).ending = .status .runtimeError) :
    ∃ e m, Eval.program context fuel program s.machine = .error (.failed e) m ∧
      (s.interpretIn context fuel program).failure = some e := by
  unfold interpretIn at *
  split at h <;> rename_i m hprogram
  · rcases @finish_ending { s with machine := m } .ok none with hending | ⟨fault, hending⟩ <;>
      rw [hending] at h <;> cases h
  · rename_i e
    rw [hprogram, finish_failure]
    exact ⟨e, m, rfl, rfl⟩
  · cases h
  · cases h

/-! ### The runs of the two parts and of the whole -/

section
variable {texts : List String} {upper lower : String} {first second whole : Session} {program' ss ts : List Stmt}
variable {lines m n k : Nat}

/-- If the run of the upper program comes out well, the whole run is like that of the lower one after it. -/
theorem Joined.runs_on
    (h : Joined texts upper lower lines s first second whole program program' ss ts) (hs : s.Known texts)
    (hhost : host.Uniform) (hm : m ≤ k) (hn : n ≤ k) (hfirst : first.machine = s.machine)
    (hsecond : second.machine = (first.interpretIn (first.context host) m program).session.machine)
    (hok : (first.interpretIn (first.context host) m program).ending = .status .ok)
    (hends : (second.interpretIn (second.context host) n program').ending ≠ .outOfFuel) :
    Run.Like (.ofBoth texts upper lower lines s.nextId (program ++ program') (ss ++ ts))
      (second.interpretIn (second.context host) n program') (whole.interpretIn (whole.context host) k (ss ++ ts)) := by
  obtain ⟨m₁, heval, hmachine⟩ := interpretIn_ok hok
  rw [hfirst] at heval
  have hfollows := h.both_follow hs hhost hm hn heval
  rw [← hmachine, ← hsecond, ← h.starts.machine_eq] at hfollows
  exact interpretIn_like hfollows fun _ => hends

/-- If the run of the upper program fails, the whole run is like it, and what is behind the upper program makes
    no difference. -/
theorem Joined.fails (h : Joined texts upper lower lines s first second whole program program' ss ts)
    (hs : s.Known texts) (hhost : host.Uniform) (hm : m ≤ k) (hfirst : first.machine = s.machine)
    (hfailed : (first.interpretIn (first.context host) m program).ending = .status .runtimeError) :
    ∃ e m', (first.interpretIn (first.context host) m program).failure = some e ∧
      (∀ behind, Eval.program (whole.context host) k (ss ++ behind) s.machine = .error (.failed e) m') ∧
      whole.interpretIn (whole.context host) k (ss ++ ts) =
        { whole with machine := m' }.finish .runtimeError (some e) ∧
      Run.Like (.ofUpper texts upper s.nextId program ss) (first.interpretIn (first.context host) m program)
        (whole.interpretIn (whole.context host) k (ss ++ ts)) := by
  obtain ⟨e, m₁, heval, hfailure⟩ := interpretIn_failed hfailed
  rw [hfirst] at heval
  obtain ⟨m', hlike, he, hstops⟩ := h.upper_stops hs hhost hm heval
  have hupper : first.interpretIn (first.context host) m program =
      { first with machine := m₁ }.finish .runtimeError (some e) := by
    rw [interpretIn, hfirst, heval]
  have hwhole : whole.interpretIn (whole.context host) k (ss ++ ts) =
      { whole with machine := m' }.finish .runtimeError (some e) := by
    rw [interpretIn, h.starts.machine_eq, hstops ts]
  refine ⟨e, m', hfailure, hstops, hwhole, ?_⟩
  rw [hupper, hwhole]
  exact finish_like hlike .runtimeError (.some he)

/-- Two sources without errors are both started, the lower one wherever it is, and so are they as one. -/
theorem Known.joined_of_clean (h : s.Known texts) (hupper : Source.Clean upper) (hlower : Source.Clean lower)
    (host : Host) (m lines : Nat) : ∃ first second whole program program' mine others,
      s.Starts upper program first ∧
      (s.run host m upper).session.Starts (Source.moved lines lower) program' second ∧
      Joined texts upper lower lines s first second whole program program' mine others := by
  obtain ⟨program, first, hfirst⟩ := hupper.starts s
  obtain ⟨program', second, hsecond⟩ := (hlower.moved lines).starts (s.run host m upper).session
  obtain ⟨-, -, htable, hnext⟩ := @interpretIn_session first program m (first.context host)
  have hrun : s.run host m upper = first.interpretIn (first.context host) m program := run_of_starts hfirst
  rw [← hrun] at htable hnext
  obtain ⟨mine, others, whole, hjoined⟩ := h.joined hfirst hsecond hnext htable
  exact ⟨first, second, whole, program, program', mine, others, hfirst, hsecond, hjoined⟩

theorem Joined.clean (h : Joined texts upper lower lines s first second whole program program' ss ts) :
    Source.Clean (upper ++ "\n" ++ lower) := by
  refine ⟨s.nextId, h.starts.read, ?_⟩
  rw [h.starts.parsed]
  exact h.starts.resolved

/-- If the run of the upper source comes out well, the one run of both is like that of the lower source after it,
    however far down this is. -/
theorem Known.run_like (h : s.Known texts) (hhost : host.Uniform) (hupper : Source.Clean upper)
    (hlower : Source.Clean lower) (hm : m ≤ k) (hn : n ≤ k) (hok : (s.run host m upper).ending = .status .ok)
    (hends : ((s.run host m upper).session.run host n lower).ending ≠ .outOfFuel) (lines : Nat) :
    ∃ ids, let L := Likeness.moved (upper :: texts) lower lines (Scan.linesAbove upper) ids
      let second := (s.run host m upper).session.run host n (Source.moved lines lower)
      let whole := s.run host k (upper ++ "\n" ++ lower)
      Run.Like L second whole ∧ L.SameDistances second.session.distances whole.session.distances := by
  have hmoved : ((s.run host m upper).session.run host n (Source.moved lines lower)).ending =
      ((s.run host m upper).session.run host n (Source.moved 0 lower)).ending :=
    ((h.run hhost m upper).run_moved hhost hlower 0 lines).ending
  rw [Source.moved_zero] at hmoved
  rw [← hmoved] at hends
  obtain ⟨first, second, whole, program, program', mine, others, hfirst, hsecond, hjoined⟩ :=
    h.joined_of_clean hupper hlower host m lines
  rw [run_of_starts hsecond] at hends ⊢
  rw [run_of_starts hfirst] at hok hsecond
  rw [run_of_starts hjoined.starts]
  refine ⟨Likeness.Numbered s.nextId (Stmt.referencesAll (program ++ program'))
    (Stmt.referencesAll (mine ++ others)), ?_, ?_⟩
  · exact hjoined.runs_on h hhost hm hn hfirst.machine_eq hsecond.machine_eq hok hends
  · unfold Session.interpret
    rw [(interpretIn_session _).2.2.1, (interpretIn_session _).2.2.1]
    exact hjoined.lowerTable

/-- If the run of the lower source fails then, so does the one run, and its error is further down just if that of the
    lower source moves with it. -/
theorem Known.failure_joined (h : s.Known texts) (hhost : host.Uniform) (hupper : Source.Clean upper)
    (hlower : Source.Clean lower) (hm : m ≤ k) (hn : n ≤ k) (hok : (s.run host m upper).ending = .status .ok)
    (hends : ((s.run host m upper).session.run host n lower).ending ≠ .outOfFuel) {e : RuntimeError}
    (he : ((s.run host m upper).session.run host n lower).failure = some e) :
    let moved := fun lines => (s.run host m upper).session.run host n (Source.moved lines lower)
    let whole := s.run host k (upper ++ "\n" ++ lower)
    (TokenOf [lower] e.token ∧ (∀ lines, (moved lines).failure = some (e.below lines)) ∧
        whole.failure = some (e.below (Scan.linesAbove upper))) ∨
      (TokenOf (upper :: texts) e.token ∧ (∀ lines, (moved lines).failure = some e) ∧ whole.failure = some e) := by
  intro moved whole
  -- Moved down by as many lines as the upper source has, the lower one fails just as in the one run.
  obtain ⟨_, hbelow, -⟩ := h.run_like hhost hupper hlower hm hn hok hends (Scan.linesAbove upper)
  have hfailure : whole.failure = (moved (Scan.linesAbove upper)).failure :=
    Likeness.failure_eq_of_moved hbelow.failure
  rcases (h.run hhost m upper).failure_moves hhost hlower he with ⟨hown, hmoves⟩ | ⟨hold, hstays⟩
  · exact .inl ⟨hown, hmoves, hfailure.trans (hmoves _)⟩
  · exact .inr ⟨hold, hstays, hfailure.trans (hstays _)⟩

/-- If the run of the upper source fails, so does the one run, and what is behind the upper program in it is not
    executed. -/
theorem Known.run_stops (h : s.Known texts) (hhost : host.Uniform) (hupper : Source.Clean upper)
    (hlower : Source.Clean lower) (hm : m ≤ k) (hfailed : (s.run host m upper).ending = .status .runtimeError) :
    let first := s.run host m upper
    let whole := s.run host k (upper ++ "\n" ++ lower)
    whole.ending = first.ending ∧ whole.session.output = first.session.output ∧ whole.failure = first.failure ∧
      ∃ e mine others m',
        (Source.read (upper ++ "\n" ++ lower) s.nextId).parsed.statements = mine ++ others ∧
        Stmt.LikeAll (.known (upper :: texts) fun _ _ => True) (Source.read upper s.nextId).parsed.statements mine ∧
        first.failure = some e ∧
        (∀ behind, Eval.program (whole.session.context host) k (mine ++ behind) s.machine = .error (.failed e) m') ∧
        whole.session.machine = { m' with sink := m'.sink.flush.1 } := by
  intro first whole
  obtain ⟨begun, _, all, program, _, mine, others, hfirst, -, hjoined⟩ := h.joined_of_clean hupper hlower host m 0
  have hfirstRun : first = begun.interpretIn (begun.context host) m program := run_of_starts hfirst
  have hwholeRun : whole = all.interpretIn (all.context host) k (mine ++ others) := run_of_starts hjoined.starts
  have hdistances : whole.session.distances = all.distances := by
    rw [hwholeRun]
    exact (interpretIn_session _).2.2.1
  have hcontext : whole.session.context host = all.context host := by rw [context, context, hdistances]
  rw [show s.run host m upper = _ from hfirstRun] at hfailed
  obtain ⟨e, m', hfailure, hstops, hfinish, hlike⟩ := hjoined.fails h hhost hm hfirst.machine_eq hfailed
  rw [← hwholeRun] at hfinish
  rw [← hfirstRun, ← hwholeRun] at hlike
  rw [← hfirstRun] at hfailure
  have hadmits :
      (Likeness.known (upper :: texts) fun _ _ => True).Admits (.ofUpper texts upper s.nextId program mine) :=
    fun h => h
  refine ⟨hlike.ending, hlike.machine.sink.written, ?_, e, mine, others, m', hjoined.starts.parsed, ?_, hfailure,
    ?_, ?_⟩
  · rw [hfinish, finish_failure, hfailure]
  · rw [hfirst.parsed]
    exact hjoined.upperLike.mono hadmits fun _ => trivial
  · rw [hcontext]
    exact hstops
  · rw [hfinish, finish_session]

end

/-! ### Two sources -/

/-- The sources each being without errors, so is the one below the other. If the run of the upper one comes out
    well, the run of the lower one after it ends as the run of both as one, with the same output and the same
    runtime error if any. The token of the error comes from the lower source if it moves when that source is moved
    down by itself: then it is further down in the one run, by as many lines as the upper source has; else it
    stays where it is, and so it does in the one run. The machines are alike afterwards, up to the identities of
    references, which have the same distances in both tables, and up to the lines of the lower source, so up to no
    lines at all if that was moved down. If the run of the upper source fails, the run of both fails with that
    error and with that output, and what is behind the upper program does not matter to its evaluation. -/
theorem run_joined {texts : List String} (hhost : host.Uniform) (h : s.Reachable host texts) {upper lower : String}
    (hupper : Source.Clean upper) (hlower : Source.Clean lower) {m n k : Nat} (hm : m ≤ k) (hn : n ≤ k) :
    let first := s.run host m upper
    let second := first.session.run host n lower
    let moved := fun lines => first.session.run host n (Source.moved lines lower)
    let whole := s.run host k (upper ++ "\n" ++ lower)
    Source.Clean (upper ++ "\n" ++ lower) ∧ whole.diagnostics = [] ∧
    (first.ending = .status .ok → second.ending ≠ .outOfFuel →
      whole.ending = second.ending ∧ whole.session.output = second.session.output ∧
      (second.failure = none → whole.failure = none) ∧
      (∀ e, second.failure = some e →
        (TokenOf [lower] e.token ∧ (∀ lines, (moved lines).failure = some (e.below lines)) ∧
          whole.failure = some (e.below (Scan.linesAbove upper))) ∨
        (TokenOf (upper :: texts) e.token ∧ (∀ lines, (moved lines).failure = some e) ∧ whole.failure = some e)) ∧
      moved 0 = second ∧
      ∀ lines, ∃ ids, let L := Likeness.moved (upper :: texts) lower lines (Scan.linesAbove upper) ids
        (moved lines).session.machine.Like L whole.session.machine ∧
        L.SameDistances (moved lines).session.distances whole.session.distances) ∧
    (first.ending = .status .runtimeError →
      whole.ending = first.ending ∧ whole.session.output = first.session.output ∧ whole.failure = first.failure ∧
      ∃ e mine others m',
        (Source.read (upper ++ "\n" ++ lower) s.nextId).parsed.statements = mine ++ others ∧
        Stmt.LikeAll (.known (upper :: texts) fun _ _ => True) (Source.read upper s.nextId).parsed.statements mine ∧
        first.failure = some e ∧
        (∀ behind, Eval.program (whole.session.context host) k (mine ++ behind) s.machine = .error (.failed e) m') ∧
        whole.session.machine = { m' with sink := m'.sink.flush.1 }) := by
  intro first second moved whole
  have hknown := h.known hhost
  obtain ⟨_, _, _, _, _, _, _, -, -, hjoined⟩ := hknown.joined_of_clean hupper hlower host m 0
  have hwhole : whole.diagnostics = [] := (congrArg Run.diagnostics (run_of_starts hjoined.starts)).trans
    (interpretIn_diagnostics _)
  have hzero : moved 0 = second := congrArg (fun text => first.session.run host n text) (Source.moved_zero lower)
  refine ⟨hjoined.clean, hwhole, fun hok hends => ?_, hknown.run_stops hhost hupper hlower hm⟩
  have hlike := hknown.run_like hhost hupper hlower hm hn hok hends
  obtain ⟨_, hbeside, -⟩ := hlike 0
  rw [Source.moved_zero] at hbeside
  refine ⟨hbeside.ending, hbeside.machine.sink.written, fun hnone => ?_,
    fun e => hknown.failure_joined hhost hupper hlower hm hn hok hends, hzero, fun lines => ?_⟩
  · have hrel := hbeside.failure
    rw [show ((s.run host m upper).session.run host n lower).failure = none from hnone] at hrel
    generalize whole.failure = failure at hrel ⊢
    cases hrel
    rfl
  · obtain ⟨ids, hrun, hdistances⟩ := hlike lines
    exact ⟨ids, hrun.machine, hdistances⟩

/-- The upper source has the token that the lower one fails at, on the same line: in the session and in the one run
    the error is that of the lower source, which moves when it is moved. Below a source that fails nothing is
    printed. -/
theorem run_joined_failing : ∃ (s : Session) (second whole failed both : Run),
    s.Reachable (Host.withTime fun _ => 0) ["fun f()\x7breturn nil;\x7d"] ∧
      second = (s.run (Host.withTime fun _ => 0) 20 "var b=-1;//\"").session.run (Host.withTime fun _ => 0) 20
        "print b;-nil;" ∧
      whole = s.run (Host.withTime fun _ => 0) 20 ("var b=-1;//\"" ++ "\n" ++ "print b;-nil;") ∧
      TokenOf ["var b=-1;//\""] ⟨.mark .minus, "-", 1⟩ ∧
      second.failure = some ⟨⟨.mark .minus, "-", 1⟩, .operandNotNumber⟩ ∧
      whole.failure = some ⟨⟨.mark .minus, "-", 2⟩, .operandNotNumber⟩ ∧
      whole.ending = second.ending ∧ whole.session.output = second.session.output ∧
      failed = s.run (Host.withTime fun _ => 0) 20 "print nil;-f;" ∧
      both = s.run (Host.withTime fun _ => 0) 20 ("print nil;-f;" ++ "\n" ++ "print nil;") ∧
      both.failure = failed.failure ∧ both.session.output = failed.session.output := by
  have hreach : Reachable (Host.withTime fun _ => 0) ["fun f()\x7breturn nil;\x7d"] _ :=
    (Reachable.new .unlimited).run 20 "fun f()\x7breturn nil;\x7d"
  have hclean : Source.Clean "var b=-1;//\"" ∧ Source.Clean "print b;-nil;" ∧ Source.Clean "print nil;-f;" ∧
      Source.Clean "print nil;" :=
    ⟨⟨0, by decide +kernel, by decide +kernel⟩, ⟨0, by decide +kernel, by decide +kernel⟩,
      ⟨0, by decide +kernel, by decide +kernel⟩, ⟨0, by decide +kernel, by decide +kernel⟩⟩
  obtain ⟨-, -, hboth, -⟩ :=
    run_joined (Host.withTime_uniform _) hreach hclean.1 hclean.2.1 (Nat.le_refl 20) (Nat.le_refl 20)
  obtain ⟨-, -, -, hfails⟩ := run_joined (Host.withTime_uniform _) hreach hclean.2.2.1 hclean.2.2.2 (Nat.le_refl 20)
    (Nat.le_refl 20)
  obtain ⟨hending, houtput, -, hfailure, -⟩ := hboth (by decide +kernel) (by decide +kernel)
  obtain ⟨-, houtput', hfailure', -⟩ := hfails (by decide +kernel)
  refine ⟨_, _, _, _, _, hreach, rfl, rfl, ⟨_, List.mem_singleton_self _, by decide +kernel⟩,
    by decide +kernel, ?_, hending, houtput, rfl, rfl, hfailure', houtput'⟩
  rcases hfailure ⟨⟨.mark .minus, "-", 1⟩, .operandNotNumber⟩ (by decide +kernel) with ⟨-, -, hwhole⟩ | ⟨-, hstays, -⟩
  · exact hwhole
  · exact absurd (hstays 1) (by decide +kernel)

end Session
end Lox
