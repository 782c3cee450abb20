import Lox.Proofs.CallDepth
import Lox.Proofs.Evaluation.Halting
import Lox.Proofs.Evaluation.Indistinct
import Lox.Proofs.Functions
import Lox.Proofs.Globals

/-! # Runs without loops

In a session whose sources have no loops, and a host that makes none, every run comes to an end: some amount of fuel
is enough, and more of it changes nothing. What would recur for ever fails with an overflow (`Runaway.overflows`),
and a run fails so exactly when a call that passes the other checks is made while 2048 others are active
(`run_halts`). -/

namespace Lox

/-- No token of the source begins a loop. -/
def Source.LoopFree (text : String) : Prop := ∀ t ∈ Scan.tokens (Scan.items text), t.BeginsNoLoop

instance (text : String) : Decidable (Source.LoopFree text) :=
  inferInstanceAs (Decidable (∀ t ∈ Scan.tokens (Scan.items text), t.BeginsNoLoop))

namespace Moment

/-- A recursion that does not end by itself: within each of its calls, which pass the other checks, evaluation comes
    to another of them with more calls active, as long as the limit lets the call begin. -/
structure Runaway (c : Context) (S : Moment → Prop) : Prop where
  call : ∀ mo, S mo → ∃ (n : Nat) (call : ActiveCall) (m : Machine), mo = ⟨n + 1, call.task, m⟩ ∧ call.Fits
  next : ∀ mo, S mo → mo.machine.depth < maxDepth →
    ∃ mo', S mo' ∧ Visits c mo mo' ∧ mo.machine.depth < mo'.machine.depth

theorem Visits.depth_le {c : Context} {mo mo' : Moment} (h : Visits c mo mo') (hle : mo.machine.depth ≤ maxDepth) :
    mo'.machine.depth ≤ maxDepth := by
  obtain ⟨calls, hwithin⟩ := visits_iff_within.mp h
  exact hwithin.depth_le hle

/-- Such a recursion overflows: its calls become more, up to the limit. -/
theorem Runaway.overflows {c : Context} {S : Moment → Prop} (h : Runaway c S) {mo : Moment} (hmo : S mo)
    (hle : mo.machine.depth ≤ maxDepth) : ∃ paren, mo.Stops c (.failed ⟨paren, .stackOverflow⟩) := by
  induction hleft : maxDepth - mo.machine.depth using Nat.strongRecOn generalizing mo with
  | ind left ih =>
    rcases Nat.lt_or_eq_of_le hle with hlt | hfull
    · obtain ⟨mo', hmo', hv, hmore⟩ := h.next mo hmo hlt
      obtain ⟨paren, hstops⟩ := ih _ (by omega) hmo' (hv.depth_le hle) rfl
      exact ⟨paren, hv.stops hstops⟩
    · obtain ⟨n, call, m, rfl, hfits⟩ := h.call mo hmo
      exact ⟨call.paren, m, call_of_le hfits (Nat.le_of_eq hfull.symm)⟩

/-! ### A function that calls itself -/

/-- The function that the global is bound to is called without arguments, with fuel for as many levels, at five
    moments each, as the limit lets begin. -/
def CallsGlobal (f : Closure) (name : String) (mo : Moment) : Prop :=
  ∃ (n : Nat) (paren : Token) (m : Machine), mo = ⟨n + 1, .call (.function f) [] paren, m⟩ ∧
    m.frames.enclosing? Frames.globals = none ∧ m.frames.here? Frames.globals name = some (.function f) ∧
      5 * (maxDepth - m.depth) ≤ n

section
variable {c : Context} {distances : Distances} {f : Closure} {id : ExprId} {name paren : Token} {m : Machine} {n : Nat}
variable (haccess : c.access = .resolved distances) (hid : distances[id]? = none)
include haccess hid

/-- A call of the global comes to a call of the function that it is bound to. -/
theorem visits_call_global (houter : m.frames.enclosing? Frames.globals = none)
    (hglobal : m.frames.here? Frames.globals name.lexeme = some (.function f)) :
    Visits c ⟨n + 2, .expr (.call (.var id name) paren []), m⟩ ⟨n + 1, .call (.function f) [] paren, m⟩ := by
  have hexist : Frames.globals < m.frames.next := Frames.lt_next_of_here? (Option.isSome_of_eq_some hglobal)
  have hget : c.access.get? m.frames m.current id name.lexeme = some (.function f) := by
    simp only [haccess, Access.get?, hid, Frames.get?_globals houter hexist, hglobal]
  have hcallee : Eval.expr c (n + 1) (.var id name) m = .ok (.function f) m := by
    rw [Eval.expr, Eval.read, hget]
  exact .enter (.call hcallee rfl) .here

/-- A function whose body returns a call of the global that it is bound to does not end by itself. -/
theorem runaway_of_calls_itself {keyword : Token} (hparameters : f.decl.parameters = [])
    (hbody : f.decl.body = [.ret keyword (some (.call (.var id name) paren []))]) :
    Runaway c (CallsGlobal f name.lexeme) := by
  have harity : (Value.function f).arity? = some 0 := by
    rw [Value.arity?, hparameters]
    rfl
  refine ⟨?_, ?_⟩
  · rintro mo ⟨n, paren', m, rfl, -⟩
    exact ⟨n, ⟨.function f, [], paren'⟩, m, rfl, harity⟩
  · rintro mo ⟨n, paren', m, rfl, houter, hglobal, hfuel⟩ hlt
    have hlt : m.depth < maxDepth := hlt
    obtain ⟨n, rfl⟩ : ∃ k, n = k + 5 := Nat.exists_eq_add_of_le' (by omega)
    have hne : Frames.globals ≠ m.frames.next :=
      Nat.ne_of_lt (Frames.lt_next_of_here? (Option.isSome_of_eq_some hglobal))
    -- In the body the globals are as they were, and one more call is active.
    let inside : Machine :=
      { m with depth := m.depth + 1, frames := m.frames.push (f.callFrame []), current := m.frames.next }
    have houter' : inside.frames.enclosing? Frames.globals = none := by
      rw [Frames.enclosing?_push, if_neg hne, houter]
    have hglobal' : inside.frames.here? Frames.globals name.lexeme = some (.function f) := by
      rw [Frames.here?_push, if_neg hne, hglobal]
    have hfuel' : 5 * (maxDepth - inside.depth) ≤ n := by
      have hdepth : inside.depth = m.depth + 1 := rfl
      omega
    refine ⟨_, ⟨n, paren, inside, rfl, houter', hglobal', hfuel'⟩, .enter (.invoke harity hlt) (.enter .body ?_),
      Nat.lt_succ_self _⟩
    rw [hbody]
    exact .enter .stmt (.enter .result (visits_call_global haccess hid houter' hglobal'))

end
end Moment

namespace Session
open Moment

variable {host : Host} {s s' : Session} {texts : List String} {text : String} {program : List Stmt} {fuel : Nat}

/-! ### Ends of a run -/

/-- Only evaluation can want fuel. -/
theorem finish_ending_ne_outOfFuel (status : Status) (failure : Option RuntimeError) :
    (s.finish status failure).ending ≠ .outOfFuel := by
  rcases @finish_ending s status failure with hending | ⟨fault, hending⟩ <;> rw [hending] <;> nofun

/-- A run of a program that comes to an end does so with enough fuel, and more changes nothing. -/
theorem interpretIn_halts {c : Context} (h : Eval.Halts (fun n => Eval.program c n program) s.machine) :
    ∃ N, ∀ fuel, N ≤ fuel → s.interpretIn c fuel program = s.interpretIn c N program ∧
      (s.interpretIn c fuel program).ending ≠ .outOfFuel := by
  obtain ⟨N, r, hr, hfuel⟩ := h
  have hresult : ∀ fuel, N ≤ fuel → Eval.program c fuel program s.machine = r := hr
  refine ⟨N, fun fuel hle => ?_⟩
  unfold interpretIn
  rw [hresult fuel hle, hresult N (Nat.le_refl N)]
  refine ⟨rfl, ?_⟩
  rcases r with ⟨⟨⟩, m⟩ | ⟨e | fault | _, m⟩
  · exact finish_ending_ne_outOfFuel _ _
  · exact finish_ending_ne_outOfFuel _ _
  · nofun
  · exact absurd rfl (hfuel m)

/-- A run fails with an overflow exactly when it comes to a call that passes the other checks while as many calls
    are active as may be. -/
theorem interpretIn_overflow_iff {c : Context} (hdepth : s.machine.depth = 0) (paren : Token) :
    (s.interpretIn c fuel program).failure = some ⟨paren, .stackOverflow⟩ ↔
      ∃ (calls : List ActiveCall) (n : Nat) (call : ActiveCall) (m : Machine),
        Within c ⟨fuel, .program program, s.machine⟩ calls ⟨n + 1, call.task, m⟩ ∧ call.paren = paren ∧ call.Fits ∧
          calls.length = maxDepth := by
  rw [interpretIn_failure_iff]
  constructor
  · intro hstops
    have hstops : Moment.Stops c ⟨fuel, .program program, s.machine⟩ (.failed ⟨paren, .stackOverflow⟩) := hstops
    exact hstops.overflow rfl hdepth
  · rintro ⟨calls, n, call, m, hwithin, rfl, hfits, hlength⟩
    have hfull : m.depth = maxDepth := by rw [hwithin.depth, hdepth, Nat.zero_add, hlength]
    exact hwithin.visits.stops ⟨m, call_of_le hfits (Nat.le_of_eq hfull.symm)⟩

/-! ### Sources without loops -/

theorem Starts.loopFree (hs : s.Starts text program s') (h : Source.LoopFree text) : Stmt.LoopFreeAll program := by
  obtain ⟨hread, rfl, -, -⟩ := hs
  exact Parse.parse_loopFree (Source.diagnostics_isEmpty.mp hread).2 h

theorem declares_loopFree (h : Source.LoopFree text) (s : Session) : s.Declares text FunctionDecl.LoopFree :=
  fun _ _ hs => (hs.loopFree h).decls

theorem Starts.halts (hs : s.Starts text program s') (h : Source.LoopFree text)
    (hhost : host.Obeys FunctionDecl.LoopFree) (hframes : s.machine.frames.Obey FunctionDecl.LoopFree) :
    ∃ N, ∀ fuel, N ≤ fuel → s.run host fuel text = s.run host N text ∧ (s.run host fuel text).ending ≠ .outOfFuel := by
  have hprogram := Eval.program_halts (c := s'.context host) hhost program (hs.loopFree h) (hs.machine_eq ▸ hframes)
  obtain ⟨N, hN⟩ := interpretIn_halts hprogram
  refine ⟨N, fun fuel hle => ?_⟩
  rw [run_of_starts hs, run_of_starts hs]
  exact hN fuel hle

/-- Where no source has a loop in it and the host makes none, every run comes to an end, whatever its functions
    call. A run fails with an overflow exactly if it comes to a call that passes the other checks while 2048 calls
    are active, and so does every run that comes to a recursion which does not end by itself. -/
theorem run_halts (hhost : host.Obeys FunctionDecl.LoopFree) (h : s.Reachable host texts)
    (htexts : ∀ t ∈ text :: texts, Source.LoopFree t) :
    (∃ N, ∀ fuel, N ≤ fuel → s.run host fuel text = s.run host N text ∧ (s.run host fuel text).ending ≠ .outOfFuel) ∧
    ∀ fuel program s', s.Starts text program s' →
      let start : Moment := ⟨fuel, .program program, s'.machine⟩
      (∀ paren, (s.run host fuel text).failure = some ⟨paren, .stackOverflow⟩ ↔
        ∃ (calls : List ActiveCall) (n : Nat) (call : ActiveCall) (m : Machine),
          Within (s'.context host) start calls ⟨n + 1, call.task, m⟩ ∧ call.paren = paren ∧ call.Fits ∧
            calls.length = 2048) ∧
      ∀ S mo, Runaway (s'.context host) S → S mo → Visits (s'.context host) start mo →
        ∃ paren, (s.run host fuel text).failure = some ⟨paren, .stackOverflow⟩ := by
  obtain ⟨htext, htexts⟩ := List.forall_mem_cons.mp htexts
  refine ⟨?_, fun fuel program s' hs => ⟨fun paren => ?_, fun S mo hS hmo hv => ?_⟩⟩
  · by_cases hs : ∃ program s', s.Starts text program s'
    · obtain ⟨program, s', hs⟩ := hs
      exact hs.halts htext hhost
        (h.obeys FunctionDecl.inherited_loopFree hhost fun t ht s => declares_loopFree (htexts t ht) s)
    · obtain ⟨diagnostics, hrun⟩ := run_refused fun program s' h' => hs ⟨program, s', h'⟩
      refine ⟨0, fun fuel _ => ?_⟩
      rw [hrun, hrun]
      exact ⟨rfl, nofun⟩
  · rw [run_of_starts hs]
    exact interpretIn_overflow_iff (hs.machine_eq ▸ h.at_rest.2) paren
  · have hdepth : s'.machine.depth ≤ maxDepth := hs.machine_eq ▸ h.at_rest.2 ▸ Nat.zero_le _
    obtain ⟨paren, hstops⟩ := hS.overflows hmo (hv.depth_le hdepth)
    rw [run_of_starts hs]
    exact ⟨paren, interpretIn_failure_iff.mpr (hv.stops hstops)⟩

/-- A function that calls itself without end, declared by an earlier run, does not keep a run of a call of it from
    coming to an end: with enough fuel the run overflows. -/
theorem run_halts_recursive : ∃ (s : Session) (N : Nat) (paren : Token),
    s = ((Session.new .unlimited).run (Host.withTime fun _ => 0) 9 "fun f() \x7b return f(); // while\n\x7d").session ∧
      ∀ fuel, N ≤ fuel → (s.run (Host.withTime fun _ => 0) fuel "f();").failure = some ⟨paren, .stackOverflow⟩ := by
  let first := "fun f() \x7b return f(); // while\n\x7d"
  let name : Token := ⟨.identifier, "f", 1⟩
  let close : Token := ⟨.mark .rightParen, ")", 1⟩
  let body : List Stmt := [.ret ⟨.keyword .return, "return", 1⟩ (some (.call (.var 0 name) close []))]
  let f : Closure := ⟨1, ⟨name, [], body⟩, Frames.globals⟩
  have hhost := Host.withTime_honest fun _ => 0
  -- The first run leaves the function in the globals.
  have hfirst : (Session.new .unlimited).Starts first [.function name [] body] _ :=
    starts_of_tokens 0
      [.ofKeyword .fun 1, name, .ofMark .leftParen 1, close, .ofMark .leftBrace 1, .ofKeyword .return 1,
      name, .ofMark .leftParen 1, close, .ofMark .semicolon 1, .ofMark .rightBrace 2, .atEnd 2]
      rfl (by decide +kernel) (by cbv) (by decide +kernel)
  have hreach : Reachable (Host.withTime fun _ => 0) [first] _ := (Reachable.new .unlimited).run 9 _
  generalize hs : ((Session.new .unlimited).run (Host.withTime fun _ => 0) 9 first).session = s at hreach
  have hglobal : s.machine.frames.here? Frames.globals "f" = some (.function f) := by
    rw [← hs, run_of_starts hfirst]
    rfl
  -- The second one calls it.
  have hid : s.nextId = 1 := hreach.nextId_eq.trans (by decide +kernel)
  have hstarts : s.Starts "f();" [.expression (.call (.var 1 name) close [])] _ :=
    starts_of_tokens 1 [name, .ofMark .leftParen 1, close, .ofMark .semicolon 1, .atEnd 1] hid
      (by decide +kernel) (by cbv) (by decide +kernel)
  generalize addDistances _ _ = s' at hstarts
  have hsound := (hreach.sound hhost).starts hstarts
  rw [(@Reachable.new (Host.withTime fun _ => 0) .unlimited).programsOf_of_starts hfirst] at hsound
  have hinside : s'.distances[0]? = none :=
    hsound.table ⟨[⟨[], none, []⟩], ⟨false, 0, name⟩⟩
      ⟨_, List.mem_cons_of_mem _ List.mem_cons_self, List.mem_singleton_self _⟩
  have houtside : s'.distances[1]? = none :=
    hsound.table ⟨[], ⟨false, 1, name⟩⟩ ⟨_, List.mem_cons_self, List.mem_singleton_self _⟩
  have hglobal' : s'.machine.frames.here? Frames.globals name.lexeme = some (.function f) :=
    hstarts.machine_eq ▸ hglobal
  have hdepth : s'.machine.depth = 0 := hstarts.machine_eq ▸ hreach.at_rest.2
  obtain ⟨roster, hworld⟩ := hsound.world
  have hsources : ∀ t ∈ ["f();", first], Source.LoopFree t := by decide +kernel
  obtain ⟨⟨N, hN⟩, hoverflow⟩ := run_halts hhost.obeys hreach hsources
  have hrunaway := runaway_of_calls_itself (c := s'.context (Host.withTime fun _ => 0)) (f := f) rfl hinside rfl rfl
  let call : Moment := ⟨max N (5 * maxDepth) + 1, .call (.function f) [] close, s'.machine⟩
  have hv : Visits (s'.context (Host.withTime fun _ => 0))
      ⟨max N (5 * maxDepth) + 2, .expr (.call (.var 1 name) close []), s'.machine⟩ call :=
    visits_call_global rfl houtside hworld.outermost hglobal'
  have hcalls : CallsGlobal f name.lexeme call :=
    ⟨_, close, s'.machine, rfl, hworld.outermost, hglobal', by rw [hdepth]; exact Nat.le_max_right _ _⟩
  obtain ⟨paren, hfailure⟩ := (hoverflow _ _ _ hstarts).2 _ _ hrunaway hcalls (.enter .begin (.enter .expression hv))
  have henough : N ≤ max N (5 * maxDepth) + 3 := Nat.le_add_right_of_le (Nat.le_max_left _ _)
  refine ⟨s, N, paren, rfl, fun fuel hle => ?_⟩
  rw [(hN fuel hle).1, ← (hN _ henough).1]
  exact hfailure

end Session
end Lox
