import Lox.Proofs.Evaluation.Stops
import Lox.Proofs.Reachable

/-! # The depth of calls

However evaluation ends, the frame of before is current again and as many calls are active as before. In
everything that begins in a session between two runs, the depth of the machine is the number of call
expressions whose calls have begun and not ended, no more than 2048, and a call that passes the other checks
is refused exactly when 2048 are active (`depth_counts_calls`). -/

namespace Lox

namespace Operator

/-- Operators know nothing of calls. -/
theorem unary_ne_stackOverflow {operator : Token} {v : Value} {e : RuntimeError} (h : unary operator v = .error e) :
    e.cause ≠ .stackOverflow := by
  unfold unary negate at h
  split at h
  · split at h <;> cases h
    nofun
  · cases h
  · cases h
    nofun

theorem binary_ne_stackOverflow {operator : Token} {l r : Value} {e : RuntimeError}
    (h : binary operator l r = .error e) :
    e.cause ≠ .stackOverflow := by
  unfold binary add compute at h
  split at h
  · split at h <;> cases h
    nofun
  · cases h
  · cases h
  · split at h
    · split at h <;> cases h
      nofun
    · cases h
      nofun

end Operator

/-- The same frame is current and the same number of calls is active. -/
def Machine.SamePlace (m m' : Machine) : Prop := m'.current = m.current ∧ m'.depth = m.depth

theorem Machine.Keeps.samePlace {m m' : Machine} (h : m.Keeps m') : m.SamePlace m' := ⟨h.current, h.depth⟩

namespace ActiveCall

/-- The call expression, when everything in it has been evaluated. -/
def task (call : ActiveCall) : Task := .call call.callee call.arguments call.paren

/-- What is called is a function, and takes this many arguments. -/
def Fits (call : ActiveCall) : Prop := call.callee.arity? = some call.arguments.length

end ActiveCall

namespace Moment

/-- The call at the moment ends at once with an overflow at its parenthesis, and nothing is entered. -/
def Refused (c : Context) (n : Nat) (call : ActiveCall) (m : Machine) : Prop :=
  Eval.call c (n + 1) call.callee call.arguments call.paren m = .error (.failed ⟨call.paren, .stackOverflow⟩) m ∧
    ∀ mo', ¬ Enters c ⟨n + 1, call.task, m⟩ mo'

/-- An overflow comes from a call that passed the other checks when as many calls were active as may be. -/
theorem Stops.overflow {c : Context} {start : Moment} {e : RuntimeError} (h : start.Stops c (.failed e))
    (he : e.cause = .stackOverflow) (hstart : start.machine.depth = 0) :
    ∃ (calls : List ActiveCall) (n : Nat) (call : ActiveCall) (m : Machine),
      Within c start calls ⟨n + 1, call.task, m⟩ ∧
      call.paren = e.token ∧ call.Fits ∧ calls.length = maxDepth := by
  obtain ⟨mo, hv, hraises⟩ := h.raised
  obtain ⟨calls, hwithin⟩ := visits_iff_within.mp hv
  cases hraises with
  | operand _ herr => exact absurd he (Operator.unary_ne_stackOverflow herr)
  | operands _ _ herr => exact absurd he (Operator.binary_ne_stackOverflow herr)
  | unbound | target | notCallable | wrongArity | notInvocable | host => cases he
  | @overflow n f arguments paren m harity hfull =>
    refine ⟨calls, n, ⟨f, arguments, paren⟩, m, hwithin, rfl, harity, Nat.le_antisymm ?_ ?_⟩
    · have hle := hwithin.depth_le (hstart ▸ Nat.zero_le _)
      rw [hwithin.depth, hstart, Nat.zero_add] at hle
      exact hle
    · have hdepth := hwithin.depth
      rw [hstart, Nat.zero_add] at hdepth
      exact hdepth ▸ hfull

end Moment

namespace Session
open Moment

/-- However evaluation ends, the frame of before is current and as many calls are active as before. From any
    task that begins in a session at rest, evaluation comes to moments at which the depth is the number of
    active calls and at most 2048, refuses calls exactly at 2048, and overflows nowhere else. After any runs
    the session is at rest: the globals are current, and no call is active. -/
theorem depth_counts_calls {host : Host} {texts : List String} {s : Session}
    (h : s.Reachable host texts) (c : Context) :
    (∀ (n : Nat) (m : Machine),
      (∀ e, m.SamePlace ((Eval.expr c n e).final m)) ∧ (∀ stmt, m.SamePlace ((Eval.stmt c n stmt).final m)) ∧
        ∀ frame ss, m.SamePlace ((Eval.inFrame frame (Eval.stmts c n ss)).final m)) ∧
    (∀ (start : Moment), start.machine = s.machine →
      (∀ calls mo, Within c start calls mo → mo.machine.depth = calls.length ∧ calls.length ≤ 2048) ∧
      (∀ calls n (call : ActiveCall) m, Within c start calls ⟨n + 1, call.task, m⟩ → call.Fits →
        (Refused c n call m ↔ calls.length = 2048)) ∧
      (∀ e, start.Stops c (.failed e) → e.cause = .stackOverflow →
        ∃ (calls : List ActiveCall) (n : Nat) (call : ActiveCall) (m : Machine),
          Within c start calls ⟨n + 1, call.task, m⟩ ∧ call.paren = e.token ∧ call.Fits ∧ calls.length = 2048)) ∧
    s.machine.current = Frames.globals ∧ s.machine.depth = 0 := by
  have hrespected := Machine.Keeps.respected c
  refine ⟨fun n m => ⟨fun e => ((hrespected.ends n).expr e m).samePlace,
    fun stmt => ((hrespected.ends n).stmt stmt m).samePlace,
    fun frame ss => (hrespected.inFrame_final ((hrespected.ends n).stmts ss _)).samePlace⟩,
    fun start hstart => ?_, h.at_rest⟩
  have hdepth : start.machine.depth = 0 := hstart ▸ h.at_rest.2
  refine ⟨fun calls mo hwithin => ?_, fun calls n call m hwithin harity => hwithin.refused_iff hdepth harity,
    fun e hstops he => Stops.overflow hstops he hdepth⟩
  have hcount : mo.machine.depth = calls.length := by
    rw [hwithin.depth, hdepth, Nat.zero_add]
  exact ⟨hcount, hcount ▸ hwithin.depth_le (hdepth ▸ Nat.zero_le _)⟩

/-- After a run that failed inside a block inside a call the session is at rest, and the next call of the
    clock is the only one that is active. -/
theorem depth_after_failed_call : ∃ (s : Session) (c : Context) (calls : List ActiveCall) (mo : Moment),
    s.Reachable (Host.withTime fun _ => 0) ["fun f(a)\x7b\x7b-a;\x7d\x7df(nil);"] ∧
      s = ((Session.new .unlimited).run (Host.withTime fun _ => 0) 20 "fun f(a)\x7b\x7b-a;\x7d\x7df(nil);").session ∧
      Within c ⟨2, .call (.host ⟨0, Host.clockKey, "clock", 0⟩) [] ⟨.mark .rightParen, ")", 2⟩, s.machine⟩ calls mo ∧
      calls.length = 1 ∧ mo.machine.depth = 1 ∧ s.machine.current = Frames.globals ∧ s.machine.depth = 0 := by
  have hreach : Reachable (Host.withTime fun _ => 0) _ _ :=
    (Reachable.new .unlimited).run 20 "fun f(a)\x7b\x7b-a;\x7d\x7df(nil);"
  obtain ⟨-, hmoments, hcurrent, hdepth⟩ := depth_counts_calls hreach ⟨.outward, Host.withTime fun _ => 0⟩
  have hlt : _ < maxDepth := Nat.lt_of_le_of_lt (Nat.le_of_eq hdepth) (by decide)
  have hwithin := Within.start.enter (@Enters.invoke ⟨.outward, Host.withTime fun _ => 0⟩ 1
    (.host ⟨0, Host.clockKey, "clock", 0⟩) [] ⟨.mark .rightParen, ")", 2⟩ _ rfl hlt)
  exact ⟨_, _, _, _, hreach, rfl, hwithin, rfl, ((hmoments _ rfl).1 _ _ hwithin).1, hcurrent, hdepth⟩

end Session
end Lox
