import Lox.Proofs.Evaluation.Moments

/-! # Active calls

Between the beginning of a task and a moment that evaluation comes to from there, some calls have begun
and not ended yet (`Moment.Within`). The machine counts them: its depth is as much higher as there are
such calls (`Within.depth`), and no call begins when as many are active as may be (`Within.length_le`).
At the moment of a call expression that passes the other checks, this limit alone decides whether the call
begins (`Within.refused_iff`). -/

namespace Lox

/-- A call expression whose call has begun: what is called, with what, and the closing parenthesis. -/
structure ActiveCall where
  callee : Value
  arguments : List Value
  paren : Token

namespace Moment

/-- The call that is active in everything that evaluation enters from this moment: a call expression enters
    nothing but the function that it calls. -/
def begun (mo : Moment) : List ActiveCall :=
  match mo.task with
  | .call f arguments paren => [⟨f, arguments, paren⟩]
  | _ => []

/-- Evaluation at `start` comes to the moment while these calls are active, the innermost first. -/
inductive Within (c : Context) (start : Moment) : List ActiveCall → Moment → Prop
  | start : Within c start [] start
  | enter {calls : List ActiveCall} {mo mo' : Moment} (h : Within c start calls mo) (he : Enters c mo mo') :
    Within c start (mo.begun ++ calls) mo'

section
variable {c : Context} {mo mo' start : Moment} {calls : List ActiveCall}

theorem Within.visits (h : Within c start calls mo) : Visits c start mo := by
  have along : ∀ {a b b' : Moment}, Visits c a b → Enters c b b' → Visits c a b' := by
    intro a b b' hv he
    induction hv with
    | here => exact .enter he .here
    | enter h _ ih => exact .enter h (ih he)
  induction h with
  | start => exact .here
  | enter _ he ih => exact along ih he

/-- Some calls are active at every moment that is visited. -/
theorem Visits.within (hv : Visits c mo mo') (h : Within c start calls mo) :
    ∃ calls', Within c start calls' mo' := by
  induction hv generalizing calls with
  | here => exact ⟨calls, h⟩
  | enter he _ ih => exact ih (h.enter he)

/-- Evaluation comes to a moment while some calls are active, if it comes there at all. -/
theorem visits_iff_within : Visits c start mo ↔ ∃ calls, Within c start calls mo :=
  ⟨fun hv => hv.within .start, fun ⟨_, h⟩ => h.visits⟩

/-! ### The machine at an entered moment -/

/-- What evaluation has done between a moment and one that it enters from there: it has changed the machine
    in elementary steps, and then it may have entered a frame or begun a call. -/
theorem Enters.machine (h : Enters c mo mo') :
    ∃ m, (∀ R, Eval.Respected c R → R mo.machine m) ∧
      ((mo.begun = [] ∧ (mo'.machine = m ∨
          ∃ frame, mo'.machine = { m with frames := m.frames.push frame, current := m.frames.next })) ∨
        (∃ call, mo.begun = [call] ∧ m.depth < maxDepth ∧ mo'.machine = { m with depth := m.depth + 1 })) := by
  cases h with
  | grouping | operand | left | leftLogical | value | callee | first | expression | print | initializer | condition
  | loop | result | stmt | test | begin => exact ⟨_, fun _ H => H.refl _, .inl ⟨rfl, .inl rfl⟩⟩
  | right h | rightLogical h | store h | arguments h | rest h | yes h | no h | round h =>
    exact ⟨_, fun _ H => Eval.final_of_ok h ▸ (H.ends _).expr _ _, .inl ⟨rfl, .inl rfl⟩⟩
  | stmts h | proceed h => exact ⟨_, fun _ H => Eval.final_of_ok h ▸ (H.ends _).stmt _ _, .inl ⟨rfl, .inl rfl⟩⟩
  | call h hargs =>
    refine ⟨_, fun R H => H.trans (Eval.final_of_ok h ▸ (H.ends _).expr _ _) ?_, .inl ⟨rfl, .inl rfl⟩⟩
    exact Eval.final_of_ok hargs ▸ (H.ends _).exprs _ _ _
  | again h _ hbody =>
    refine ⟨_, fun R H => H.trans (Eval.final_of_ok h ▸ (H.ends _).expr _ _) ?_, .inl ⟨rfl, .inl rfl⟩⟩
    exact Eval.final_of_ok hbody ▸ (H.ends _).stmt _ _
  | body | block => exact ⟨_, fun _ H => H.refl _, .inl ⟨rfl, .inr ⟨_, rfl⟩⟩⟩
  | invoke _ hdepth => exact ⟨_, fun _ H => H.refl _, .inr ⟨_, rfl, hdepth, rfl⟩⟩

theorem Enters.depth (h : Enters c mo mo') : mo'.machine.depth = mo.machine.depth + mo.begun.length := by
  obtain ⟨m, hm, hmo'⟩ := h.machine
  have hdepth : m.depth = mo.machine.depth := (hm _ (Machine.Keeps.respected c)).depth
  rcases hmo' with ⟨hbegun, hmo' | ⟨frame, hmo'⟩⟩ | ⟨call, hbegun, -, hmo'⟩
  · rw [hbegun, hmo', hdepth, List.length_nil, Nat.add_zero]
  · rw [hbegun, hmo', List.length_nil, Nat.add_zero]
    exact hdepth
  · rw [hbegun, hmo', List.length_singleton]
    exact congrArg (· + 1) hdepth

theorem Enters.depth_le (h : Enters c mo mo') (hle : mo.machine.depth ≤ maxDepth) : mo'.machine.depth ≤ maxDepth := by
  obtain ⟨m, hm, hmo'⟩ := h.machine
  have hdepth : m.depth = mo.machine.depth := (hm _ (Machine.Keeps.respected c)).depth
  rcases hmo' with ⟨-, hmo' | ⟨frame, hmo'⟩⟩ | ⟨call, -, hlt, hmo'⟩
  · rw [hmo', hdepth]
    exact hle
  · rw [hmo']
    exact Nat.le_trans (Nat.le_of_eq hdepth) hle
  · rw [hmo']
    exact hlt

/-- The machine counts the active calls. -/
theorem Within.depth (h : Within c start calls mo) : mo.machine.depth = start.machine.depth + calls.length := by
  induction h with
  | start => rfl
  | enter _ he ih => rw [he.depth, ih, List.length_append, Nat.add_assoc, Nat.add_comm (List.length _) (List.length _)]

theorem Within.depth_le (h : Within c start calls mo) (hle : start.machine.depth ≤ maxDepth) :
    mo.machine.depth ≤ maxDepth := by
  induction h with
  | start => exact hle
  | enter _ he ih => exact he.depth_le ih

/-! ### The limit -/

/-- The call begins, and ends as the function does with the depth of before. -/
theorem call_of_lt {n : Nat} {f : Value} {arguments : List Value} {paren : Token} {m : Machine}
    (harity : f.arity? = some arguments.length) (hdepth : m.depth < maxDepth) :
    Eval.call c (n + 1) f arguments paren m =
      match Eval.invoke c n f arguments paren { m with depth := m.depth + 1 } with
      | .ok v m' => .ok v { m' with depth := m.depth }
      | .error stop m' => .error stop { m' with depth := m.depth } := by
  have hkeeps := (((Machine.Keeps.respected c).ends n).invoke f arguments paren { m with depth := m.depth + 1 }).depth
  rw [Eval.call, harity]
  simp only [ne_eq, not_true_eq_false, if_false]
  rw [Eval.asCall_apply, if_neg (Nat.not_le_of_lt hdepth)]
  unfold Eval.final at hkeeps
  cases h : Eval.invoke c n f arguments paren { m with depth := m.depth + 1 } with
  | ok v m' | error stop m' =>
    rw [h] at hkeeps
    have hdepth' : m'.depth - 1 = m.depth := congrArg (· - 1) hkeeps
    dsimp only
    rw [hdepth']

/-- The call does not begin, and changes nothing. -/
theorem call_of_le {n : Nat} {f : Value} {arguments : List Value} {paren : Token} {m : Machine}
    (harity : f.arity? = some arguments.length) (hdepth : maxDepth ≤ m.depth) :
    Eval.call c (n + 1) f arguments paren m = .error (.failed ⟨paren, .stackOverflow⟩) m := by
  rw [Eval.call, harity]
  simp only [ne_eq, not_true_eq_false, if_false]
  rw [Eval.asCall_apply, if_pos hdepth]

/-- Where no call was active at the beginning, a call that passes the other checks is refused exactly when as
    many calls are active as may be. -/
theorem Within.refused_iff {n : Nat} {f : Value} {arguments : List Value} {paren : Token} {m : Machine}
    (h : Within c start calls ⟨n + 1, .call f arguments paren, m⟩) (hstart : start.machine.depth = 0)
    (harity : f.arity? = some arguments.length) :
    (Eval.call c (n + 1) f arguments paren m = .error (.failed ⟨paren, .stackOverflow⟩) m ∧
      ∀ mo', ¬ Enters c ⟨n + 1, .call f arguments paren, m⟩ mo') ↔ calls.length = maxDepth := by
  have hdepth : m.depth = calls.length := by
    rw [h.depth, hstart, Nat.zero_add]
  have hle : m.depth ≤ maxDepth := h.depth_le (hstart ▸ Nat.zero_le _)
  constructor
  · -- With fewer active calls this one would be entered.
    rintro ⟨-, hnone⟩
    refine Nat.le_antisymm (hdepth ▸ hle) (Nat.le_of_not_lt ?_)
    intro hlt
    exact hnone _ (.invoke harity (hdepth ▸ hlt))
  · intro hmax
    have hfull : maxDepth ≤ m.depth := Nat.le_of_eq (hmax.symm.trans hdepth.symm)
    refine ⟨call_of_le harity hfull, ?_⟩
    rintro mo' (hmo' | _)
    rename_i hlt
    exact Nat.not_le_of_lt hlt hfull

end
end Moment
end Lox
