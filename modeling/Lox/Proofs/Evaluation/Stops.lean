import Lox.Proofs.Evaluation.Calls

/-! # Where stops come from

Evaluation that stops without a result does so for a reason that arises at one moment and is passed on from
there: an operator refuses its operands, a name is not bound, a call is refused, the host fails, the output
takes no more, or no fuel is left (`Moment.Raises`). Every stop was raised at a moment that evaluation has
come to (`Moment.Stops.raised`), and what stops evaluation at such a moment stops all of it
(`Moment.Visits.stops`). -/

namespace Lox

namespace Eval
variable {α β : Type} {x : Eval α} {f : α → Eval β} {m m' : Machine} {stop : Stop}

theorem bind_error (h : (x >>= f) m = .error stop m') :
    x m = .error stop m' ∨ ∃ a m₁, x m = .ok a m₁ ∧ f a m₁ = .error stop m' := by
  rw [bind_apply] at h
  cases hx : x m with
  | ok a m₁ =>
    rw [hx] at h
    exact .inr ⟨a, m₁, rfl, h⟩
  | error stop₁ m₁ =>
    rw [hx] at h
    cases h
    exact .inl rfl

theorem ofExcept_error {result : Except RuntimeError α} (h : ofExcept result m = .error stop m') :
    ∃ e, result = .error e ∧ stop = .failed e := by
  cases result with
  | ok a => cases h
  | error e =>
    cases h
    exact ⟨e, rfl, rfl⟩

theorem inFrame_error {frame : Frame} (h : inFrame frame x m = .error stop m') :
    ∃ m₁, x { m with frames := m.frames.push frame, current := m.frames.next } = .error stop m₁ := by
  rw [inFrame_apply] at h
  cases hx : x { m with frames := m.frames.push frame, current := m.frames.next } with
  | ok a m₁ => simp [hx] at h
  | error stop₁ m₁ =>
    rw [hx] at h
    cases h
    exact ⟨m₁, rfl⟩

theorem inFrame_of_ok {frame : Frame} {a : α}
    (h : x { m with frames := m.frames.push frame, current := m.frames.next } = .ok a m') :
    inFrame frame x m = .ok a { m' with current := m.current } := by rw [inFrame_apply, h]

theorem inFrame_of_error {frame : Frame}
    (h : x { m with frames := m.frames.push frame, current := m.frames.next } = .error stop m') :
    inFrame frame x m = .error stop { m' with current := m.current } := by rw [inFrame_apply, h]

theorem asCall_of_ok {paren : Token} {a : α} (hdepth : m.depth < maxDepth)
    (h : x { m with depth := m.depth + 1 } = .ok a m') :
    asCall paren x m = .ok a { m' with depth := m'.depth - 1 } := by
  rw [asCall_apply, if_neg (Nat.not_le_of_lt hdepth), h]

theorem asCall_of_error {paren : Token} (hdepth : m.depth < maxDepth)
    (h : x { m with depth := m.depth + 1 } = .error stop m') :
    asCall paren x m = .error stop { m' with depth := m'.depth - 1 } := by
  rw [asCall_apply, if_neg (Nat.not_le_of_lt hdepth), h]

theorem asCall_of_le {paren : Token} (h : maxDepth ≤ m.depth) :
    asCall paren x m = .error (.failed ⟨paren, .stackOverflow⟩) m := by rw [asCall_apply, if_pos h]

end Eval

namespace Moment

/-- The task stops for this reason. -/
def Stops (c : Context) (mo : Moment) (stop : Stop) : Prop :=
  ∃ m', match mo.task with
    | .expr e => Eval.expr c mo.fuel e mo.machine = .error stop m'
    | .exprs done es => Eval.exprs c mo.fuel done es mo.machine = .error stop m'
    | .store id name v => Eval.assign c id name v mo.machine = .error stop m'
    | .call f arguments paren => Eval.call c mo.fuel f arguments paren mo.machine = .error stop m'
    | .invoke f arguments paren => Eval.invoke c mo.fuel f arguments paren mo.machine = .error stop m'
    | .stmt s => Eval.stmt c mo.fuel s mo.machine = .error stop m'
    | .stmts ss => Eval.stmts c mo.fuel ss mo.machine = .error stop m'
    | .loop condition body => Eval.loop c mo.fuel condition body mo.machine = .error stop m'
    | .program ss => Eval.program c mo.fuel ss mo.machine = .error stop m'

/-- The reason to stop arises at the moment itself. -/
inductive Raises (c : Context) : Moment → Stop → Prop
  | fuel {task m} : Raises c ⟨0, task, m⟩ .outOfFuel
  | operand {n operator right m v m' e} (h : Eval.expr c n right m = .ok v m')
      (he : Operator.unary operator v = .error e) : Raises c ⟨n + 1, .expr (.unary operator right), m⟩ (.failed e)
  | operands {n left operator right m l m' r m'' e} (hl : Eval.expr c n left m = .ok l m')
      (hr : Eval.expr c n right m' = .ok r m'') (he : Operator.binary operator l r = .error e) :
    Raises c ⟨n + 1, .expr (.binary left operator right), m⟩ (.failed e)
  | unbound {n id name m} (h : c.access.get? m.frames m.current id name.lexeme = none) :
    Raises c ⟨n + 1, .expr (.var id name), m⟩ (.failed (.undefined name))
  | target {n id name v m} (h : c.access.assign? m.frames m.current id name.lexeme v = none) :
    Raises c ⟨n, .store id name v, m⟩ (.failed (.undefined name))
  | notCallable {n f arguments paren m} (h : f.arity? = none) :
    Raises c ⟨n + 1, .call f arguments paren, m⟩ (.failed ⟨paren, .notCallable⟩)
  | wrongArity {n f arguments paren m arity} (h : f.arity? = some arity) (hne : arguments.length ≠ arity) :
    Raises c ⟨n + 1, .call f arguments paren, m⟩ (.failed ⟨paren, .wrongArity arity arguments.length⟩)
  | overflow {n f arguments paren m} (h : f.arity? = some arguments.length) (hdepth : maxDepth ≤ m.depth) :
    Raises c ⟨n + 1, .call f arguments paren, m⟩ (.failed ⟨paren, .stackOverflow⟩)
  | notInvocable {n f arguments paren m} (h : f.arity? = none) :
    Raises c ⟨n + 1, .invoke f arguments paren, m⟩ (.failed ⟨paren, .notCallable⟩)
  | host {n f arguments paren m message} (h : c.host m.hostCalls f.key arguments = .error message) :
    Raises c ⟨n + 1, .invoke (.host f) arguments paren, m⟩ (.failed ⟨paren, .host message⟩)
  | output {n e m v m' sink fault} (h : Eval.expr c n e m = .ok v m')
      (hw : m'.sink.write (v.display ++ "\n") = (sink, some fault)) :
    Raises c ⟨n + 1, .stmt (.print e), m⟩ (.sink fault)

/-- The reason arises at a moment that evaluation comes to from this one. -/
def Raised (c : Context) (mo : Moment) (stop : Stop) : Prop := ∃ mo', Visits c mo mo' ∧ mo'.Raises c stop

section
variable {c : Context} {n : Nat} {m m' : Machine} {stop : Stop}

theorem Raises.raised {mo : Moment} (h : mo.Raises c stop) : mo.Raised c stop := ⟨mo, .here, h⟩

theorem Raised.enter {mo mo' : Moment} (h : mo'.Raised c stop) (he : Enters c mo mo') : mo.Raised c stop := by
  obtain ⟨mo'', hv, hr⟩ := h
  exact ⟨mo'', .enter he hv, hr⟩

theorem store_raised {id : ExprId} {name : Token} {v : Value} (h : Eval.assign c id name v m = .error stop m') :
    Raised c ⟨n, .store id name v, m⟩ stop := by
  rw [Eval.assign_apply] at h
  split at h
  · cases h
  · rename_i hnone
    cases h
    exact (Raises.target hnone).raised

/-- All stops with this fuel are raised at some moment. -/
def AllRaised (c : Context) (n : Nat) : Prop := ∀ task m stop, Stops c ⟨n, task, m⟩ stop → Raised c ⟨n, task, m⟩ stop

section
variable (ih : AllRaised c n)
include ih

theorem expr_raised {e : Expr} (h : Eval.expr c (n + 1) e m = .error stop m') :
    Raised c ⟨n + 1, .expr e, m⟩ stop := by
  cases e with
  | literal v => cases h
  | grouping e => exact (ih (.expr e) m stop ⟨m', h⟩).enter .grouping
  | unary operator right =>
    rw [Eval.expr] at h
    rcases Eval.bind_error h with hr | ⟨v, m₁, hr, h⟩
    · exact (ih (.expr right) m stop ⟨m', hr⟩).enter .operand
    · obtain ⟨e, he, rfl⟩ := Eval.ofExcept_error h
      exact (Raises.operand hr he).raised
  | binary left operator right =>
    rw [Eval.expr] at h
    rcases Eval.bind_error h with hl | ⟨l, m₁, hl, h⟩
    · exact (ih (.expr left) m stop ⟨m', hl⟩).enter .left
    rcases Eval.bind_error h with hr | ⟨r, m₂, hr, h⟩
    · exact (ih (.expr right) m₁ stop ⟨m', hr⟩).enter (.right hl)
    · obtain ⟨e, he, rfl⟩ := Eval.ofExcept_error h
      exact (Raises.operands hl hr he).raised
  | logical left operator right =>
    rw [Eval.expr] at h
    rcases Eval.bind_error h with hl | ⟨l, m₁, hl, h⟩
    · exact (ih (.expr left) m stop ⟨m', hl⟩).enter .leftLogical
    cases hop : Operator.decides operator l with
    | true =>
      rw [hop] at h
      cases h
    | false =>
      rw [hop] at h
      exact (ih (.expr right) m₁ stop ⟨m', h⟩).enter (.rightLogical hl hop)
  | var id name =>
    rw [Eval.expr, Eval.read] at h
    split at h
    · cases h
    · rename_i hnone
      cases h
      exact (Raises.unbound hnone).raised
  | assign id name value =>
    rw [Eval.expr] at h
    rcases Eval.bind_error h with hv | ⟨v, m₁, hv, h⟩
    · exact (ih (.expr value) m stop ⟨m', hv⟩).enter .value
    rcases Eval.bind_error h with hs | ⟨u, m₂, -, h⟩
    · exact (store_raised hs).enter (.store hv)
    · cases h
  | call callee paren arguments =>
    rw [Eval.expr] at h
    rcases Eval.bind_error h with hf | ⟨f, m₁, hf, h⟩
    · exact (ih (.expr callee) m stop ⟨m', hf⟩).enter .callee
    rcases Eval.bind_error h with hvs | ⟨vs, m₂, hvs, h⟩
    · exact (ih (.exprs #[] arguments) m₁ stop ⟨m', hvs⟩).enter (.arguments hf)
    · exact (ih (.call f vs.toList paren) m₂ stop ⟨m', h⟩).enter (.call hf hvs)

theorem exprs_raised {done : Array Value} {es : List Expr} (h : Eval.exprs c (n + 1) done es m = .error stop m') :
    Raised c ⟨n + 1, .exprs done es, m⟩ stop := by
  cases es with
  | nil => cases h
  | cons e rest =>
    rw [Eval.exprs] at h
    rcases Eval.bind_error h with he | ⟨v, m₁, he, h⟩
    · exact (ih (.expr e) m stop ⟨m', he⟩).enter .first
    · exact (ih (.exprs (done.push v) rest) m₁ stop ⟨m', h⟩).enter (.rest he)

theorem call_raised {f : Value} {arguments : List Value} {paren : Token}
    (h : Eval.call c (n + 1) f arguments paren m = .error stop m') :
    Raised c ⟨n + 1, .call f arguments paren, m⟩ stop := by
  cases harity : f.arity? with
  | none =>
    rw [Eval.call, harity] at h
    cases h
    exact (Raises.notCallable harity).raised
  | some arity =>
    by_cases hlength : arguments.length = arity
    · subst hlength
      by_cases hdepth : m.depth < maxDepth
      · rw [call_of_lt harity hdepth] at h
        cases hi : Eval.invoke c n f arguments paren { m with depth := m.depth + 1 } with
        | ok v m₁ => simp [hi] at h
        | error stop₁ m₁ =>
          rw [hi] at h
          cases h
          exact (ih (.invoke f arguments paren) _ stop ⟨m₁, hi⟩).enter (.invoke harity hdepth)
      · have hle := Nat.le_of_not_lt hdepth
        rw [call_of_le harity hle] at h
        cases h
        exact (Raises.overflow harity hle).raised
    · rw [Eval.call, harity] at h
      simp only [ne_eq, hlength, not_false_eq_true, if_true] at h
      cases h
      exact (Raises.wrongArity harity hlength).raised

theorem invoke_raised {f : Value} {arguments : List Value} {paren : Token}
    (h : Eval.invoke c (n + 1) f arguments paren m = .error stop m') :
    Raised c ⟨n + 1, .invoke f arguments paren, m⟩ stop := by
  cases f with
  | host f =>
    rw [Eval.invoke, Eval.callHost_apply] at h
    split at h
    · cases h
    · rename_i hmessage
      cases h
      exact (Raises.host hmessage).raised
  | function f =>
    rw [Eval.invoke] at h
    rcases Eval.bind_error h with hbody | ⟨flow, m₁, -, h⟩
    · obtain ⟨m₁, hbody⟩ := Eval.inFrame_error hbody
      exact (ih (.stmts f.decl.body) _ stop ⟨m₁, hbody⟩).enter .body
    · cases h
  | nil | bool _ | number _ | string _ =>
    cases h
    exact (Raises.notInvocable rfl).raised

theorem stmt_raised {s : Stmt} (h : Eval.stmt c (n + 1) s m = .error stop m') : Raised c ⟨n + 1, .stmt s, m⟩ stop := by
  cases s with
  | expression e =>
    rw [Eval.stmt] at h
    rcases Eval.bind_error h with he | ⟨v, m₁, -, h⟩
    · exact (ih (.expr e) m stop ⟨m', he⟩).enter .expression
    · cases h
  | print e =>
    rw [Eval.stmt] at h
    rcases Eval.bind_error h with he | ⟨v, m₁, he, h⟩
    · exact (ih (.expr e) m stop ⟨m', he⟩).enter .print
    rcases Eval.bind_error h with hline | ⟨u, m₂, -, h⟩
    · rw [Eval.printLine_apply] at hline
      split at hline
      · cases hline
      · rename_i hw
        cases hline
        exact (Raises.output he hw).raised
    · cases h
  | var name initializer =>
    cases initializer with
    | none => cases h
    | some e =>
      rw [Eval.stmt] at h
      rcases Eval.bind_error h with he | ⟨v, m₁, -, h⟩
      · exact (ih (.expr e) m stop ⟨m', he⟩).enter .initializer
      · cases h
  | block body =>
    obtain ⟨m₁, hbody⟩ := Eval.inFrame_error h
    exact (ih (.stmts body) _ stop ⟨m₁, hbody⟩).enter .block
  | branch condition yes no =>
    rcases Eval.bind_error h with hc | ⟨v, m₁, hc, h⟩
    · exact (ih (.expr condition) m stop ⟨m', hc⟩).enter .condition
    cases hv : v.isTruthy with
    | true =>
      rw [hv] at h
      exact (ih (.stmt yes) m₁ stop ⟨m', h⟩).enter (.yes hc hv)
    | false =>
      rw [hv] at h
      cases no with
      | none => cases h
      | some s => exact (ih (.stmt s) m₁ stop ⟨m', h⟩).enter (.no hc hv)
  | loop condition body => exact (ih (.loop condition body) m stop ⟨m', h⟩).enter .loop
  | function name parameters body => cases h
  | ret keyword value =>
    cases value with
    | none => cases h
    | some e =>
      rw [Eval.stmt] at h
      rcases Eval.bind_error h with he | ⟨v, m₁, -, h⟩
      · exact (ih (.expr e) m stop ⟨m', he⟩).enter .result
      · cases h

theorem stmts_raised {ss : List Stmt} (h : Eval.stmts c (n + 1) ss m = .error stop m') :
    Raised c ⟨n + 1, .stmts ss, m⟩ stop := by
  cases ss with
  | nil => cases h
  | cons s rest =>
    rw [Eval.stmts] at h
    rcases Eval.bind_error h with hs | ⟨flow, m₁, hs, h⟩
    · exact (ih (.stmt s) m stop ⟨m', hs⟩).enter .stmt
    cases flow with
    | normal => exact (ih (.stmts rest) m₁ stop ⟨m', h⟩).enter (.stmts hs)
    | returned v => cases h

theorem loop_raised {condition : Expr} {body : Stmt} (h : Eval.loop c (n + 1) condition body m = .error stop m') :
    Raised c ⟨n + 1, .loop condition body, m⟩ stop := by
  rw [Eval.loop] at h
  rcases Eval.bind_error h with hc | ⟨v, m₁, hc, h⟩
  · exact (ih (.expr condition) m stop ⟨m', hc⟩).enter .test
  cases hv : v.isTruthy with
  | false =>
    rw [hv] at h
    cases h
  | true =>
    rw [hv] at h
    rcases Eval.bind_error h with hs | ⟨flow, m₂, hs, h⟩
    · exact (ih (.stmt body) m₁ stop ⟨m', hs⟩).enter (.round hc hv)
    cases flow with
    | normal => exact (ih (.loop condition body) m₂ stop ⟨m', h⟩).enter (.again hc hv hs)
    | returned v => cases h

end

theorem program_raised (ih : ∀ s m stop, Stops c ⟨n, .stmt s, m⟩ stop → Raised c ⟨n, .stmt s, m⟩ stop) :
    ∀ {ss : List Stmt} {m : Machine}, Eval.program c n ss m = .error stop m' → Raised c ⟨n, .program ss, m⟩ stop
  | [], _, h => by cases h
  | s :: rest, m, h => by
    rcases Eval.bind_error h with hs | ⟨flow, m₁, hs, h⟩
    · exact (ih s m stop ⟨m', hs⟩).enter .begin
    · exact (program_raised ih h).enter (.proceed hs)

theorem allRaised : ∀ n, AllRaised c n
  | 0, task, m, stop, ⟨m', h⟩ => by
    cases task with
    | store id name v => exact store_raised h
    | program ss =>
      refine program_raised (fun s m stop hs => ?_) h
      obtain ⟨m₁, hs⟩ := hs
      cases hs
      exact Raises.fuel.raised
    | _ =>
      cases h
      exact Raises.fuel.raised
  | n + 1, task, m, stop, ⟨m', h⟩ => by
    have ih := allRaised n
    cases task with
    | expr e => exact expr_raised ih h
    | exprs done es => exact exprs_raised ih h
    | store id name v => exact store_raised h
    | call f arguments paren => exact call_raised ih h
    | invoke f arguments paren => exact invoke_raised ih h
    | stmt s => exact stmt_raised ih h
    | stmts ss => exact stmts_raised ih h
    | loop condition body => exact loop_raised ih h
    | program ss =>
      -- A program hands all of its fuel to each statement.
      refine program_raised (fun s m stop hs => ?_) h
      obtain ⟨m₁, hs⟩ := hs
      exact stmt_raised ih hs

/-- Whatever stops evaluation was raised at a moment that evaluation came to. -/
theorem Stops.raised {mo : Moment} (h : mo.Stops c stop) : mo.Raised c stop :=
  allRaised mo.fuel mo.task mo.machine stop h

/-! ### Where stops go -/

/-- What stops a task that evaluation enters stops the task that it is entered from. -/
theorem Enters.stops {mo mo' : Moment} (h : Enters c mo mo') (hstop : mo'.Stops c stop) : mo.Stops c stop := by
  obtain ⟨m₁, hm⟩ := hstop
  cases h with
  | grouping | loop => exact ⟨m₁, hm⟩
  | operand | left | leftLogical | value | callee | first | expression | print | initializer | condition | result | stmt
  | test | begin => exact ⟨m₁, Eval.bind_of_error hm⟩
  | right h | store h | arguments h => exact ⟨m₁, (Eval.bind_of_ok h).trans (Eval.bind_of_error hm)⟩
  | rest h | stmts h | proceed h => exact ⟨m₁, (Eval.bind_of_ok h).trans hm⟩
  | call hf hargs => exact ⟨m₁, (Eval.bind_of_ok hf).trans ((Eval.bind_of_ok hargs).trans hm)⟩
  | rightLogical h hop | yes h hop | no h hop => exact ⟨m₁, (Eval.bind_of_ok h).trans (by rw [hop]; exact hm)⟩
  | round h hv => exact ⟨m₁, (Eval.bind_of_ok h).trans (by rw [hv]; exact Eval.bind_of_error hm)⟩
  | again h hv hbody => exact ⟨m₁, (Eval.bind_of_ok h).trans (by rw [hv]; exact (Eval.bind_of_ok hbody).trans hm)⟩
  | block => exact ⟨_, Eval.inFrame_of_error hm⟩
  | body => exact ⟨_, Eval.bind_of_error (Eval.inFrame_of_error hm)⟩
  | invoke harity hdepth => exact ⟨_, (call_of_lt harity hdepth).trans (by rw [hm])⟩

/-- Whatever stops evaluation at a moment stops it where it began. -/
theorem Visits.stops {mo mo' : Moment} (h : Visits c mo mo') (hstop : mo'.Stops c stop) : mo.Stops c stop := by
  induction h with
  | here => exact hstop
  | enter he _ ih => exact he.stops (ih hstop)

end
end Moment
end Lox
