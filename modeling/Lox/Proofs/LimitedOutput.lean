import Lox.Proofs.Evaluation.Limits
import Lox.Proofs.Outcomes
import Lox.Proofs.Sessions

/-! # Runs with a limited sink

A run writes the same bytes to a sink that takes some number of them as to one that takes all, up to that number. If
they all fit, nothing else differs. If they do not, the run ends with the fault of the sink, in the state in which the
other run writes the line that does not fit (`run_limited`). This does not take that the other run ends: its output only
grows with the fuel, and the limited run ends with all fuel that is enough for the other to write so much. -/

namespace Lox.Session
open Moment

/-- The session with a sink that takes as many bytes more, or all, and whose flushes do not fail. -/
def withRoom (room : Option Nat) (s : Session) : Session :=
  { s with machine := { s.machine with sink := { s.machine.sink with room, flushFails := false } } }

/-- The session with a sink that takes no more than `cap` bytes in all. -/
def limited (cap : Nat) (s : Session) : Session := { s with machine := s.machine.limited cap }

section
variable {host : Host} {s s' t : Session} {text : String} {program : List Stmt} {c : Context} {cap fuel fuel' : Nat}

/-! ### Programs -/

theorem interpretIn_output : (s.interpretIn c fuel program).session.output =
    ((Eval.program c fuel program).final s.machine).sink.written := by
  unfold interpretIn Eval.final
  split <;> rename_i h <;> rw [h]
  · rw [finish_session]
    rfl
  · rw [finish_session]
    rfl
  · rfl
  · rfl

/-- With more fuel a run of a program comes out as before, unless it ran out of fuel: then it writes more. -/
theorem interpretIn_longer (h : fuel ≤ fuel') :
    s.interpretIn c fuel' program = s.interpretIn c fuel program ∨
      (s.interpretIn c fuel program).ending = .outOfFuel ∧
        ∃ tail, (s.interpretIn c fuel' program).session.output =
          (s.interpretIn c fuel program).session.output ++ tail := by
  rcases (Eval.program_longer (c := c) h program).result s.machine with hsame | ⟨m, hm, hprints⟩
  · left
    unfold interpretIn
    rw [hsame]
  · right
    rw [interpretIn_output, interpretIn_output, Eval.final_of_error hm]
    refine ⟨?_, hprints.written⟩
    unfold interpretIn
    rw [hm]

theorem finish_limited (hs : s.machine.sink.flushFails = false) (status : Status) (failure : Option RuntimeError) :
    (s.limited cap).finish status failure =
      { s.finish status failure with session := (s.finish status failure).session.limited cap } := by
  rw [finish_of_reliable hs, finish_of_reliable (s := s.limited cap) hs]
  rfl

/-- If the output fits, a limit changes nothing in a run of a program. -/
theorem interpretIn_fits (hs : s.machine.sink.Reliable)
    (hsize : (s.interpretIn c fuel program).session.output.size ≤ cap) :
    (s.limited cap).interpretIn c fuel program =
      { s.interpretIn c fuel program with session := (s.interpretIn c fuel program).session.limited cap } := by
  rw [interpretIn_output] at hsize
  have hlimited := (Eval.program_cut fuel program s.machine).fits hs.room hsize
  have hflush := ((Sink.Reliable.respected c).program_final fuel program s.machine hs).flushes
  unfold interpretIn
  rw [show (s.limited cap).machine = s.machine.limited cap from rfl, hlimited]
  unfold Eval.final at hflush
  cases h : Eval.program c fuel program s.machine with
  | ok u m =>
    rw [h] at hflush
    exact finish_limited (s := { s with machine := m }) hflush _ _
  | error stop m =>
    rw [h] at hflush
    cases stop with
    | failed e => exact finish_limited (s := { s with machine := m }) hflush _ _
    | sink fault => rfl
    | outOfFuel => rfl

/-- If the output does not fit, a limited run of a program ends where the other one writes the line that does not. -/
theorem interpretIn_spills (hs : s.machine.sink.Reliable) (hfits : s.output.size ≤ cap)
    (hsize : cap < (s.interpretIn c fuel program).session.output.size) :
    ∃ m, Spills c cap ⟨fuel, .program program, s.machine⟩ m ∧ (s.limited cap).interpretIn c fuel program =
      ⟨.sinkFailed .full, [], none,
        { s with machine := m.spilled cap (s.interpretIn c fuel program).session.output s.machine }⟩ := by
  rw [interpretIn_output] at hsize ⊢
  obtain ⟨m, hspills, hlimited⟩ := (Eval.program_cut fuel program s.machine).spills ⟨hs.room, hfits⟩ hsize
  refine ⟨m, hspills, ?_⟩
  unfold interpretIn
  rw [show (s.limited cap).machine = s.machine.limited cap from rfl, hlimited]
  rfl

/-! ### Sources -/

theorem limited_eq_withRoom (hs : s.machine.sink.flushFails = false) :
    s.limited cap = s.withRoom (some (cap - s.output.size)) := by
  obtain ⟨⟨frames, current, depth, ⟨written, room, flushFails, flushes⟩, nextIdentity, hostCalls⟩,
    distances, nextId⟩ := s
  cases hs
  rfl

theorem withRoom_reliable : (s.withRoom none).machine.sink.Reliable := ⟨rfl, rfl⟩

/-- A run of a program leaves a sink that never fails. -/
theorem interpretIn_reliable (hs : s.machine.sink.Reliable) :
    (s.interpretIn c fuel program).session.machine.sink.Reliable :=
  interpretIn_respects (Sink.Reliable.respected c) (fun _ h => ⟨h.room, h.flushes⟩) hs

/-- Whether a source runs does not depend on the sink. -/
theorem Starts.withRoom (hs : s.Starts text program s') (room : Option Nat) :
    (s.withRoom room).Starts text program (s'.withRoom room) := by
  obtain ⟨hread, hparsed, hresolved, rfl⟩ := hs
  exact ⟨hread, hparsed, hresolved, rfl⟩

/-- A source that does not run comes out the same with every sink. -/
theorem run_withRoom_of_not_starts (hs : ∀ program s', ¬ s.Starts text program s') : ∃ diagnostics,
    ∀ fuel room, (s.withRoom room).run host fuel text =
      ⟨.status .compileError, diagnostics, none,
        withRoom room { s with nextId := (Source.read text s.nextId).parsed.nextId }⟩ := by
  obtain ⟨diagnostics, hrun⟩ := run_refused_of_nextId_eq hs
  exact ⟨diagnostics, fun fuel room => hrun (s.withRoom room) rfl host fuel⟩

/-- With more fuel a run comes out as before, unless it ran out of fuel: then it writes more. -/
theorem run_longer (h : fuel ≤ fuel') :
    s.run host fuel' text = s.run host fuel text ∨
      (s.run host fuel text).ending = .outOfFuel ∧
        ∃ tail, (s.run host fuel' text).session.output = (s.run host fuel text).session.output ++ tail := by
  by_cases hs : ∃ program s', s.Starts text program s'
  · obtain ⟨program, s', hs⟩ := hs
    rw [run_of_starts hs, run_of_starts hs]
    exact interpretIn_longer h
  · obtain ⟨diagnostics, hrun⟩ := run_refused fun program s' h' => hs ⟨program, s', h'⟩
    exact .inl ((hrun host fuel').trans (hrun host fuel).symm)

/-! ### The same run with two sinks -/

/-- A run with a sink that takes `room` bytes more has been cut, when the same run with one that takes all has written
    `output` and has come out as `free`. -/
structure RunsCut (host : Host) (s : Session) (text : String) (fuel room : Nat) (output : ByteArray) (free cut : Run) :
    Prop where
  ending : cut.ending = .sinkFailed .full
  diagnostics : cut.diagnostics = []
  failure : cut.failure = none
  output : cut.session.output = s.output ++ output.extract 0 room
  flushes : cut.session.machine.sink.flushes = s.machine.sink.flushes
  current : cut.session.machine.current = Frames.globals
  depth : cut.session.machine.depth = 0
  /-- The rest is as it is in the free run when the line that does not fit is written. -/
  state : ∃ program s' m, (s.withRoom none).Starts text program s' ∧
    Spills (s'.context host) (s.output.size + room) ⟨fuel, .program program, s'.machine⟩ m ∧
    cut.session.machine.frames = m.frames ∧ cut.session.machine.nextIdentity = m.nextIdentity ∧
    cut.session.machine.hostCalls = m.hostCalls
  distances : cut.session.distances = free.session.distances
  nextId : cut.session.nextId = free.session.nextId

section
variable {room : Nat} (hs : s.Starts text program s')
include hs

/-- The free run, and the limited one as a run with a limit of all bytes. -/
theorem Starts.runs (host : Host) (fuel room : Nat) :
    (s.withRoom none).run host fuel text = (s'.withRoom none).interpretIn (s'.context host) fuel program ∧
      (s.withRoom (some room)).run host fuel text =
        ((s'.withRoom none).limited (s.output.size + room)).interpretIn (s'.context host) fuel program := by
  refine ⟨run_of_starts (hs.withRoom none), (run_of_starts (hs.withRoom (some room))).trans ?_⟩
  have houtput : (s'.withRoom none).output = s.output := congrArg (·.sink.written) hs.machine_eq
  rw [limited_eq_withRoom rfl, houtput, Nat.add_sub_cancel_left]
  rfl

theorem Starts.output_eq (host : Host) (fuel : Nat) :
    ∃ output, ((s.withRoom none).run host fuel text).session.output = s.output ++ output := by
  obtain ⟨output, hwritten⟩ := ((Machine.Prints.respected (s'.context host)).program_final fuel program
    (s'.withRoom none).machine).written
  refine ⟨output, ?_⟩
  rw [(hs.runs host fuel 0).1, interpretIn_output, hwritten]
  exact congrArg (·.sink.written ++ output) hs.machine_eq

theorem Starts.fits {output : ByteArray}
    (hall : ((s.withRoom none).run host fuel text).session.output = s.output ++ output) (hle : output.size ≤ room) :
    (s.withRoom (some room)).run host fuel text =
      { (s.withRoom none).run host fuel text with
        session := ((s.withRoom none).run host fuel text).session.withRoom (some (room - output.size)) } := by
  obtain ⟨hfree, hlimited⟩ := hs.runs host fuel room
  have hsize : ((s.withRoom none).run host fuel text).session.output.size = s.output.size + output.size := by
    rw [hall, ByteArray.size_append]
  rw [hfree] at hsize ⊢
  rw [hlimited, interpretIn_fits withRoom_reliable (hsize ▸ Nat.add_le_add_left hle _),
    limited_eq_withRoom (interpretIn_reliable withRoom_reliable).flushes, hsize, Nat.add_sub_add_left]

theorem Starts.cut {texts : List String} (h : s.Reachable host texts) {output : ByteArray}
    (hall : ((s.withRoom none).run host fuel text).session.output = s.output ++ output) (hlt : room < output.size) :
    RunsCut host s text fuel room output ((s.withRoom none).run host fuel text)
      ((s.withRoom (some room)).run host fuel text) := by
  obtain ⟨hfree, hlimited⟩ := hs.runs host fuel room
  have houtput : (s'.withRoom none).output = s.output := congrArg (·.sink.written) hs.machine_eq
  have hsize : s.output.size + room < ((s.withRoom none).run host fuel text).session.output.size := by
    rw [hall, ByteArray.size_append]
    exact Nat.add_lt_add_left hlt _
  have hwritten : (((s.withRoom none).run host fuel text).session.output).extract 0 (s.output.size + room) =
      s.output ++ output.extract 0 room := by
    rw [hall, extract_append_of_ge (Nat.le_add_right _ _), Nat.add_sub_cancel_left]
  have hkept := @interpretIn_session (s'.withRoom none) program fuel (s'.context host)
  rw [hfree] at hsize hwritten ⊢
  obtain ⟨m, hspills, hcut⟩ := interpretIn_spills withRoom_reliable (houtput ▸ Nat.le_add_right _ _) hsize
  rw [hlimited, hcut]
  exact
    { ending := rfl
      diagnostics := rfl
      failure := rfl
      output := hwritten
      flushes := congrArg (·.sink.flushes) hs.machine_eq
      current := (congrArg Machine.current hs.machine_eq).trans h.at_rest.1
      depth := (congrArg Machine.depth hs.machine_eq).trans h.at_rest.2
      state := ⟨program, s'.withRoom none, m, hs.withRoom none, hspills, rfl, rfl, rfl⟩
      distances := hkept.2.2.1.symm
      nextId := hkept.2.2.2.symm }

end

/-- A run with a sink that takes `room` bytes more, and the same with a sink that takes all, in any session and for any
    source. More fuel adds to the output of a run that wants fuel, and changes nothing else. What the free run writes is
    behind what was written before; if it fits, the limited run comes out the same; if not, it is cut, with any fuel
    that is enough for the free run to write that much. -/
theorem run_limited {texts : List String} (h : s.Reachable host texts) (text : String) (room : Nat) :
    let free : Nat → Run := fun fuel => (s.withRoom none).run host fuel text
    let limited : Nat → Run := fun fuel => (s.withRoom (some room)).run host fuel text
    (∀ fuel fuel', fuel ≤ fuel' → free fuel' = free fuel ∨
      (free fuel).ending = .outOfFuel ∧ ∃ tail, (free fuel').session.output = (free fuel).session.output ++ tail) ∧
    ∀ fuel, ∃ output, (free fuel).session.output = s.output ++ output ∧
      (output.size ≤ room → limited fuel =
        { free fuel with session := (free fuel).session.withRoom (some (room - output.size)) }) ∧
      (room < output.size → RunsCut host s text fuel room output (free fuel) (limited fuel) ∧
        ∀ fuel', fuel ≤ fuel' → limited fuel' = limited fuel) := by
  intro free limited
  refine ⟨fun fuel fuel' hle => run_longer hle, fun fuel => ?_⟩
  by_cases hs : ∃ program s', s.Starts text program s'
  · obtain ⟨program, s', hs⟩ := hs
    obtain ⟨output, hall⟩ := hs.output_eq host fuel
    refine ⟨output, hall, hs.fits hall, fun hlt => ?_⟩
    have hcut := hs.cut h hall hlt
    refine ⟨hcut, fun fuel' hle => ?_⟩
    rcases run_longer hle with hsame | ⟨hfuel, -⟩
    · exact hsame
    · rw [hcut.ending] at hfuel
      cases hfuel
  · obtain ⟨diagnostics, hrun⟩ := run_withRoom_of_not_starts fun program s' h' => hs ⟨program, s', h'⟩
    refine ⟨.empty, ?_, fun _ => ?_, fun hlt => absurd hlt (Nat.not_lt_zero _)⟩
    · rw [ByteArray.append_empty]
      exact congrArg (·.session.output) (hrun fuel none)
    · have hfree : free fuel = _ := hrun fuel none
      rw [hfree]
      exact hrun fuel (some room)

end

/-- A function prints two lines. The first fits and two bytes of the second, and the run is cut in the call. -/
theorem run_limited_in_call :
    let host := Host.withTime fun _ => 0
    let s := ((Session.new .unlimited).run host 9 "print nil;").session
    let text := "fun f()\x7bprint true;print nil;\x7df();"
    s.Reachable host ["print nil;"] ∧
      RunsCut host s text 20 7 "true\nnil\n".toUTF8 ((s.withRoom none).run host 20 text)
        ((s.withRoom (some 7)).run host 20 text) := by
  intro host s text
  have hreach : s.Reachable host ["print nil;"] := (Reachable.new .unlimited).run 9 "print nil;"
  obtain ⟨-, hruns⟩ := run_limited hreach text 7
  obtain ⟨output, hall, -, hcut⟩ := hruns 20
  have hlines : ((s.withRoom none).run host 20 text).session.output = s.output ++ "true\nnil\n".toUTF8 := by
    decide +kernel
  have houtput : output = "true\nnil\n".toUTF8 := (ByteArray.append_right_inj s.output).mp (hall.symm.trans hlines)
  subst houtput
  exact ⟨hreach, (hcut (by decide +kernel)).1⟩

end Lox.Session
