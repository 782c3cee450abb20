import Lox.Proofs.Evaluation.Effects
import Lox.Session

/-! # Reachable sessions

What runs of any sources make of a new session, whichever way each run ended, and any functions that the host
adds between them (`Session.Reachable`). A run changes the machine in elementary steps of evaluation and by a
flush at the end, so whatever these respect holds between the machines before and after a run
(`run_respects`). -/

namespace Lox

theorem Source.diagnostics_isEmpty {source : Source} :
    source.diagnostics.isEmpty = true ↔ Scan.errors source.items = [] ∧ source.parsed.errors = [] := by
  simp [Source.diagnostics, Source.scanDiagnostics]

namespace Session

/-- What runs of these sources, the last of them first, have made of a new session, and functions added by the
    host. -/
inductive Reachable (host : Host) : List String → Session → Prop
  | new (sink : Sink) : Reachable host [] (.new sink)
  | register {texts : List String} {s : Session} (h : Reachable host texts s) (key name : String) (arity : Nat) :
    Reachable host texts (s.register key name arity)
  | run {texts : List String} {s : Session} (h : Reachable host texts s) (fuel : Nat) (text : String) :
    Reachable host (text :: texts) (s.run host fuel text).session

section
variable {host : Host} {s : Session} {fuel : Nat} {program : List Stmt} {text : String}

/-! ### How a run ends -/

theorem finish_of_reliable (hflush : s.machine.sink.flushFails = false) (status : Status)
    (failure : Option RuntimeError) :
    s.finish status failure =
      ⟨.status status, [], failure, { s with machine := { s.machine with sink := s.machine.sink.flush.1 } }⟩ := by
  simp [finish, Sink.flush, hflush]

theorem finish_session (status : Status) (failure : Option RuntimeError) :
    (s.finish status failure).session = { s with machine := { s.machine with sink := s.machine.sink.flush.1 } } := by
  unfold finish
  rcases s.machine.sink.flush with ⟨sink, _ | fault⟩ <;> rfl

theorem finish_ending (status : Status) (failure : Option RuntimeError) :
    (s.finish status failure).ending = .status status ∨
      ∃ fault, (s.finish status failure).ending = .sinkFailed fault := by
  unfold finish
  rcases s.machine.sink.flush with ⟨sink, _ | fault⟩
  · exact .inl rfl
  · exact .inr ⟨fault, rfl⟩

theorem finish_failure (status : Status) (failure : Option RuntimeError) :
    (s.finish status failure).failure = failure := by
  unfold finish
  rcases s.machine.sink.flush with ⟨sink, _ | fault⟩ <;> rfl

theorem finish_diagnostics (status : Status) (failure : Option RuntimeError) :
    (s.finish status failure).diagnostics = [] := by
  unfold finish
  rcases s.machine.sink.flush with ⟨sink, _ | fault⟩ <;> rfl

/-- Running a program reports nothing static. -/
theorem interpretIn_diagnostics (context : Context) {fuel : Nat} {program : List Stmt} {s : Session} :
    (s.interpretIn context fuel program).diagnostics = [] := by
  unfold interpretIn
  split
  · exact finish_diagnostics _ _
  · exact finish_diagnostics _ _
  · rfl
  · rfl

/-- A run fails with an error exactly when it stops evaluation. -/
theorem interpretIn_failure_iff {context : Context} {e : RuntimeError} :
    (s.interpretIn context fuel program).failure = some e ↔
      ∃ m, Eval.program context fuel program s.machine = .error (.failed e) m := by
  unfold interpretIn
  cases Eval.program context fuel program s.machine with
  | ok u m => simp [finish_failure]
  | error stop m => cases stop <;> simp [finish_failure]

/-- A source with an error in it leaves all but the next identity as it was. -/
theorem run_cases (host : Host) (s : Session) (fuel : Nat) (text : String) :
    (∃ diagnostics, s.run host fuel text =
        ⟨.status .compileError, diagnostics, none, { s with nextId := (Source.read text s.nextId).parsed.nextId }⟩) ∨
      ∃ s' : Session, s'.machine = s.machine ∧
        s.run host fuel text = s'.interpret host fuel (Source.read text s.nextId).parsed.statements := by
  unfold run
  dsimp only
  split
  · split
    · exact .inr ⟨addDistances { s with nextId := (Source.read text s.nextId).parsed.nextId } _, rfl, rfl⟩
    · exact .inl ⟨_, rfl⟩
  · exact .inl ⟨_, rfl⟩

/-! ### What a run respects -/

theorem interpretIn_respects {R : Machine → Machine → Prop} {context : Context} (H : Eval.Respected context R)
    (hflush : ∀ m, R m { m with sink := m.sink.flush.1 }) :
    R s.machine (s.interpretIn context fuel program).session.machine := by
  have hprogram := H.program_final fuel program s.machine
  unfold interpretIn
  unfold Eval.final at hprogram
  split <;> rename_i h <;> rw [h] at hprogram
  · rw [finish_session]
    exact H.trans hprogram (hflush _)
  · rw [finish_session]
    exact H.trans hprogram (hflush _)
  · exact hprogram
  · exact hprogram

/-- What evaluation and a flush respect holds between the machines before and after a run. -/
theorem run_respects {R : Machine → Machine → Prop} (H : ∀ context, Eval.Respected context R)
    (hflush : ∀ m, R m { m with sink := m.sink.flush.1 }) : R s.machine (s.run host fuel text).session.machine := by
  rcases run_cases host s fuel text with ⟨diagnostics, hrun⟩ | ⟨s', hmachine, hrun⟩
  · rw [hrun]
    exact (H ⟨.outward, host⟩).refl _
  · rw [hrun, ← hmachine]
    exact interpretIn_respects (H _) hflush

/-- Between runs the globals are current, and no call is active. -/
theorem Reachable.at_rest {texts : List String} (h : s.Reachable host texts) :
    s.machine.current = Frames.globals ∧ s.machine.depth = 0 := by
  induction h with
  | new sink => exact ⟨rfl, rfl⟩
  | register _ key name arity ih => exact ih
  | @run _ s _ fuel text ih =>
    have hkeeps : s.machine.Keeps (s.run host fuel text).session.machine :=
      run_respects Machine.Keeps.respected fun m => .of_eq rfl rfl rfl
    exact ⟨hkeeps.current.trans ih.1, hkeeps.depth.trans ih.2⟩

end
end Session
end Lox
