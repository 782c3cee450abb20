import Lox.Proofs.Evaluation.Calls
import Lox.Proofs.Evaluation.Invariants

/-! # Values that evaluation holds

In the middle of a run values are not only bound in frames. Tasks that have been begun were given values, values came
of those of their parts that are behind evaluation (`Moment.Holds`), and a task that has just come to its end has
yielded one (`Moment.Yields`). An invariant holds of them all. In the order of time, a task's machine comes to be the
one of a part of it, and the machine at the end of the part comes to be the one at the end of the whole; frames only
grow meanwhile (`Enters.grows`, `Enters.leaves`). -/

namespace Lox

/-- The values that a task is given. -/
def Task.values : Task → List Value
  | .exprs done _ => done.toList
  | .store _ _ v => [v]
  | .call f arguments _ | .invoke f arguments _ => f :: arguments
  | .expr _ | .stmt _ | .stmts _ | .loop _ _ | .program _ => []

namespace Moment

/-- A value came of a part of the first moment's task, and evaluation has it still when it goes on to the second. -/
inductive Retains (c : Context) : Moment → Moment → Value → Prop
  | left {n left operator right m l m'} (h : Eval.expr c n left m = .ok l m') :
    Retains c ⟨n + 1, .expr (.binary left operator right), m⟩ ⟨n, .expr right, m'⟩ l
  | leftLogical {n left operator right m l m'} (h : Eval.expr c n left m = .ok l m')
      (hop : Operator.decides operator l = false) :
    Retains c ⟨n + 1, .expr (.logical left operator right), m⟩ ⟨n, .expr right, m'⟩ l
  | callee {n callee paren arguments m f m'} (h : Eval.expr c n callee m = .ok f m') :
    Retains c ⟨n + 1, .expr (.call callee paren arguments), m⟩ ⟨n, .exprs #[] arguments, m'⟩ f

/-- On the way from the first moment to the second, a task was given the value or retains it. -/
inductive Holds (c : Context) : Moment → Moment → Value → Prop
  | given {a b v} (hv : v ∈ a.task.values) (h : Visits c a b) : Holds c a b v
  | retained {a a' b v} (hv : Retains c a a' v) (h : Visits c a' b) : Holds c a b v
  | enter {a a' b v} (he : Enters c a a') (h : Holds c a' b v) : Holds c a b v

theorem Retains.enters {c : Context} {a b : Moment} {v : Value} (h : Retains c a b v) : Enters c a b := by
  cases h with
  | left h => exact .right h
  | leftLogical h hop => exact .rightLogical h hop
  | callee h => exact .arguments h

theorem Holds.visits {c : Context} {a b : Moment} {v : Value} (h : Holds c a b v) : Visits c a b := by
  induction h with
  | given _ h => exact h
  | retained hv h => exact .enter hv.enters h
  | enter he _ ih => exact .enter he ih

/-- The task comes to its end with the value, or with the value among others. -/
inductive Yields (c : Context) : Moment → Value → Prop
  | expr {n e m v m'} (h : Eval.expr c n e m = .ok v m') : Yields c ⟨n, .expr e, m⟩ v
  | exprs {n done es m vs m' v} (h : Eval.exprs c n done es m = .ok vs m') (hv : v ∈ vs.toList) :
    Yields c ⟨n, .exprs done es, m⟩ v
  | call {n f arguments paren m v m'} (h : Eval.call c n f arguments paren m = .ok v m') :
    Yields c ⟨n, .call f arguments paren, m⟩ v
  | invoke {n f arguments paren m v m'} (h : Eval.invoke c n f arguments paren m = .ok v m') :
    Yields c ⟨n, .invoke f arguments paren, m⟩ v
  | stmt {n s m v m'} (h : Eval.stmt c n s m = .ok (.returned v) m') : Yields c ⟨n, .stmt s, m⟩ v
  | stmts {n ss m v m'} (h : Eval.stmts c n ss m = .ok (.returned v) m') : Yields c ⟨n, .stmts ss, m⟩ v
  | loop {n condition body m v m'} (h : Eval.loop c n condition body m = .ok (.returned v) m') :
    Yields c ⟨n, .loop condition body, m⟩ v

/-- The machine when the task ends, however it ends. -/
def final (c : Context) (mo : Moment) : Machine :=
  match mo.task with
  | .expr e => (Eval.expr c mo.fuel e).final mo.machine
  | .exprs done es => (Eval.exprs c mo.fuel done es).final mo.machine
  | .store id name v => (Eval.assign c id name v).final mo.machine
  | .call f arguments paren => (Eval.call c mo.fuel f arguments paren).final mo.machine
  | .invoke f arguments paren => (Eval.invoke c mo.fuel f arguments paren).final mo.machine
  | .stmt s => (Eval.stmt c mo.fuel s).final mo.machine
  | .stmts ss => (Eval.stmts c mo.fuel ss).final mo.machine
  | .loop condition body => (Eval.loop c mo.fuel condition body).final mo.machine
  | .program ss => (Eval.program c mo.fuel ss).final mo.machine

end Moment

/-! ### Invariants -/

/-- The invariant holds of the values that a task was given. -/
theorem Invariant.At.values {Stage : Type} {I : Invariant Stage} {stage : Stage} {a : Moment} {v : Value}
    (h : I.At stage a) (hv : v ∈ a.task.values) : I.value stage v := by
  obtain ⟨n, task, m⟩ := a
  cases task with
  | exprs done es => exact h.task v hv
  | store id name u =>
    obtain rfl := List.mem_singleton.mp hv
    exact h.task
  | call f arguments paren | invoke f arguments paren => exact List.forall_mem_cons.mpr h.task v hv
  | expr | stmt | stmts | loop | program => cases hv

namespace Invariant.Stable
variable {Stage : Type} {I : Invariant Stage} {c : Context} (S : I.Stable c) {stage : Stage} {a b : Moment} {v : Value}
include S

theorem retains (h : I.At stage a) (hv : Moment.Retains c a b v) :
    ∃ stage', I.before stage stage' ∧ I.At stage' b ∧ I.value stage' v := by
  cases hv with
  | left hl | leftLogical hl =>
    obtain ⟨stage', hbefore, hmachine, hvalue⟩ := S.after_expr h.machine hl
    exact ⟨stage', hbefore, ⟨hmachine, trivial⟩, hvalue⟩
  | callee hf =>
    obtain ⟨stage', hbefore, hmachine, hvalue⟩ := S.after_expr h.machine hf
    exact ⟨stage', hbefore, ⟨hmachine, nofun⟩, hvalue⟩

/-- The invariant holds of the values that evaluation holds at a moment. -/
theorem holds (hv : Moment.Holds c a b v) (h : I.At stage a) :
    ∃ stage', I.before stage stage' ∧ I.At stage' b ∧ I.value stage' v := by
  induction hv generalizing stage with
  | given hv hvisits =>
    obtain ⟨stage', hbefore, hb⟩ := S.visits hvisits h
    exact ⟨stage', hbefore, hb, S.later hbefore (h.values hv)⟩
  | retained hv hvisits =>
    obtain ⟨stage', hbefore, ha', hvalue⟩ := S.retains h hv
    obtain ⟨stage'', hbefore', hb⟩ := S.visits hvisits ha'
    exact ⟨stage'', S.trans hbefore hbefore', hb, S.later hbefore' hvalue⟩
  | enter he _ ih =>
    obtain ⟨stage', hbefore, ha'⟩ := S.enters he h
    obtain ⟨stage'', hbefore', hb⟩ := ih ha'
    exact ⟨stage'', S.trans hbefore hbefore', hb⟩

/-- The invariant holds when a task has come to its end, and of what it yields. -/
theorem ends (h : I.At stage a) : ∃ stage', I.before stage stage' ∧ I.machine stage' (a.final c) ∧
    ∀ v, a.Yields c v → I.value stage' v := by
  obtain ⟨n, task, m⟩ := a
  obtain ⟨hm, ht⟩ := h
  cases task with
  | expr e =>
    obtain ⟨stage', hbefore, hmachine, hvalue⟩ := (S.kept n).expr e hm
    refine ⟨stage', hbefore, hmachine, fun v hv => ?_⟩
    cases hv with
    | expr hv => exact hvalue v _ hv
  | exprs done es =>
    obtain ⟨stage', hbefore, hmachine, hvalues⟩ := (S.kept n).exprs es hm ht
    refine ⟨stage', hbefore, hmachine, fun v hv => ?_⟩
    cases hv with
    | exprs hvs hv => exact hvalues _ _ hvs v hv
  | store id name u =>
    obtain ⟨stage', hbefore, hmachine, -⟩ := S.assign hm ht id name
    exact ⟨stage', hbefore, hmachine, nofun⟩
  | call f arguments paren =>
    obtain ⟨stage', hbefore, hmachine, hvalue⟩ := (S.kept n).call paren hm ht.1 ht.2
    refine ⟨stage', hbefore, hmachine, fun v hv => ?_⟩
    cases hv with
    | call hv => exact hvalue v _ hv
  | invoke f arguments paren =>
    obtain ⟨stage', hbefore, hmachine, hvalue⟩ := (S.kept n).invoke paren hm ht.1 ht.2
    refine ⟨stage', hbefore, hmachine, fun v hv => ?_⟩
    cases hv with
    | invoke hv => exact hvalue v _ hv
  | stmt s =>
    obtain ⟨stage', hbefore, hmachine, hflow⟩ := (S.kept n).stmt hm ht
    refine ⟨stage', hbefore, hmachine, fun v hv => ?_⟩
    cases hv with
    | stmt hv => exact hflow _ _ hv
  | stmts ss =>
    obtain ⟨stage', hbefore, hmachine, hflow⟩ := (S.kept n).stmts hm ht
    refine ⟨stage', hbefore, hmachine, fun v hv => ?_⟩
    cases hv with
    | stmts hv => exact hflow _ _ hv
  | loop condition body =>
    obtain ⟨stage', hbefore, hmachine, hflow⟩ := (S.kept n).loop condition hm ht
    refine ⟨stage', hbefore, hmachine, fun v hv => ?_⟩
    cases hv with
    | loop hv => exact hflow _ _ hv
  | program ss =>
    obtain ⟨stage', hbefore, hmachine, -⟩ := S.program n hm ht
    exact ⟨stage', hbefore, hmachine, nofun⟩

end Invariant.Stable

/-! ### The order of time -/

namespace Eval.Respected
variable {c : Context} {R : Machine → Machine → Prop} (H : Respected c R) {α β : Type} {m : Machine} {x : Eval α}
  {f : α → Eval β}
include H

/-- What the rest of a step respects holds between the machines at the end of its first part and at its own end. -/
theorem after (hf : ∀ a m', x m = .ok a m' → R m' ((f a).final m')) : R (x.final m) ((x >>= f).final m) := by
  cases h : x m with
  | ok a m' =>
    rw [final_of_ok h, final_bind_of_ok h]
    exact hf a m' h
  | error stop m' =>
    rw [final_of_error h, final_bind_of_error h]
    exact H.refl m'

end Eval.Respected

namespace Moment
open Eval
variable {c : Context} {a b : Moment}

theorem Enters.grows (h : Enters c a b) : a.machine.frames.Grows b.machine.frames := by
  obtain ⟨m, hrespects, ⟨-, hb | ⟨frame, hb⟩⟩ | ⟨call, -, -, hb⟩⟩ := h.machine
  · exact hb ▸ (hrespects _ (Machine.Keeps.respected c)).frames
  · rw [hb]
    exact (hrespects _ (Machine.Keeps.respected c)).frames.trans .push
  · rw [hb]
    exact (hrespects _ (Machine.Keeps.respected c)).frames

theorem grows_final (a : Moment) : a.machine.frames.Grows (a.final c).frames := by
  obtain ⟨n, task, m⟩ := a
  have H := Machine.Keeps.respected c
  have hends := H.ends n
  cases task with
  | expr e => exact (hends.expr e m).frames
  | exprs done es => exact (hends.exprs done es m).frames
  | store id name v => exact (H.assign_final id name v).frames
  | call f arguments paren => exact (hends.call f arguments paren m).frames
  | invoke f arguments paren => exact (hends.invoke f arguments paren m).frames
  | stmt s => exact (hends.stmt s m).frames
  | stmts ss => exact (hends.stmts ss m).frames
  | loop condition body => exact (hends.loop condition body m).frames
  | program ss => exact (H.program_final n ss m).frames

/-! When a part of a task has come to its end, the rest of the task is still to come. What it is depends on the syntax
that the task is for: the groups below follow it, and `leaves` puts them together. -/

namespace Enters
variable {n : Nat} {m : Machine}

theorem leaves_binary {left right : Expr} {operator : Token}
    (h : Enters c ⟨n, .expr (.binary left operator right), m⟩ b) :
    (b.final c).frames.Grows (final c ⟨n, .expr (.binary left operator right), m⟩).frames := by
  have H := Machine.Keeps.respected c
  cases h with
  | @left n =>
    refine (H.after fun l m' _ => H.bind ((H.ends n).expr right m') fun r m'' _ => ?_).frames
    rw [final_ofExcept]
    exact H.refl m''
  | right hl =>
    dsimp only [final]
    rw [Eval.expr, final_bind_of_ok hl]
    refine (H.after fun r m'' _ => ?_).frames
    rw [final_ofExcept]
    exact H.refl m''

theorem leaves_logical {left right : Expr} {operator : Token}
    (h : Enters c ⟨n, .expr (.logical left operator right), m⟩ b) :
    (b.final c).frames.Grows (final c ⟨n, .expr (.logical left operator right), m⟩).frames := by
  have H := Machine.Keeps.respected c
  cases h with
  | @leftLogical n =>
    refine (H.after fun l m' _ => ?_).frames
    split
    · exact H.refl m'
    · exact (H.ends n).expr right m'
  | rightLogical hl hop =>
    dsimp only [final]
    rw [Eval.expr, final_bind_of_ok hl, hop]
    exact .refl _

theorem leaves_assign {id : ExprId} {name : Token} {value : Expr}
    (h : Enters c ⟨n, .expr (.assign id name value), m⟩ b) :
    (b.final c).frames.Grows (final c ⟨n, .expr (.assign id name value), m⟩).frames := by
  have H := Machine.Keeps.respected c
  cases h with
  | value =>
    dsimp only [final]
    rw [Eval.expr]
    refine (H.after fun v m' _ => ?_).frames
    exact H.bind (H.assign_final id name v) fun _ m'' _ => H.refl m''
  | store hv =>
    dsimp only [final]
    rw [Eval.expr, final_bind_of_ok hv]
    refine (H.after fun _ m'' _ => ?_).frames
    exact H.refl m''

theorem leaves_call {callee : Expr} {paren : Token} {arguments : List Expr}
    (h : Enters c ⟨n, .expr (.call callee paren arguments), m⟩ b) :
    (b.final c).frames.Grows (final c ⟨n, .expr (.call callee paren arguments), m⟩).frames := by
  have H := Machine.Keeps.respected c
  cases h with
  | @callee n =>
    exact (H.after fun f m' _ => H.bind ((H.ends n).exprs #[] arguments m') fun vs m'' _ =>
      (H.ends n).call f vs.toList paren m'').frames
  | @arguments n _ _ _ _ f m' hf =>
    dsimp only [final]
    rw [Eval.expr, final_bind_of_ok hf]
    exact (H.after fun vs m'' _ => (H.ends n).call f vs.toList paren m'').frames
  | call hf hargs =>
    dsimp only [final]
    rw [Eval.expr, final_bind_of_ok hf, final_bind_of_ok hargs]
    exact .refl _

theorem leaves_expr {e : Expr} (h : Enters c ⟨n, .expr e, m⟩ b) :
    (b.final c).frames.Grows (final c ⟨n, .expr e, m⟩).frames := by
  cases e with
  | grouping e =>
    cases h with
    | grouping => exact .refl _
  | unary operator right =>
    cases h with
    | operand =>
      have H := Machine.Keeps.respected c
      dsimp only [final]
      rw [Eval.expr]
      refine (H.after fun v m' _ => ?_).frames
      rw [final_ofExcept]
      exact H.refl m'
  | binary left operator right => exact h.leaves_binary
  | logical left operator right => exact h.leaves_logical
  | assign id name value => exact h.leaves_assign
  | call callee paren arguments => exact h.leaves_call
  | literal | var => cases h

theorem leaves_exprs {done : Array Value} {es : List Expr} (h : Enters c ⟨n, .exprs done es, m⟩ b) :
    (b.final c).frames.Grows (final c ⟨n, .exprs done es, m⟩).frames := by
  have H := Machine.Keeps.respected c
  cases h with
  | @first n _ e es => exact (H.after fun v m' _ => (H.ends n).exprs (done.push v) es m').frames
  | rest hv =>
    dsimp only [final]
    rw [Eval.exprs, final_bind_of_ok hv]
    exact .refl _

/-- Behind the function that is called, only the depth of calls is still to be restored. -/
theorem leaves_invocation {f : Value} {arguments : List Value} {paren : Token}
    (h : Enters c ⟨n, .call f arguments paren, m⟩ b) :
    (b.final c).frames.Grows (final c ⟨n, .call f arguments paren, m⟩).frames := by
  cases h with
  | invoke harity hdepth =>
    dsimp only [final]
    rw [Eval.call, harity]
    simp only [ne_eq, not_true_eq_false, if_false]
    rw [final_asCall_of_lt _ _ hdepth]
    exact .refl _

theorem leaves_body {f : Value} {arguments : List Value} {paren : Token}
    (h : Enters c ⟨n, .invoke f arguments paren, m⟩ b) :
    (b.final c).frames.Grows (final c ⟨n, .invoke f arguments paren, m⟩).frames := by
  have H := Machine.Keeps.respected c
  cases h with
  | @body n f =>
    dsimp only [final]
    rw [Eval.invoke]
    have hbody := (H.after (m := m) (x := inFrame (f.callFrame arguments) (Eval.stmts c n f.decl.body))
      (f := fun flow => Pure.pure flow.result) fun flow m' _ => H.refl m').frames
    rwa [final_inFrame] at hbody

theorem leaves_branch {condition : Expr} {yes : Stmt} {no : Option Stmt}
    (h : Enters c ⟨n, .stmt (.branch condition yes no), m⟩ b) :
    (b.final c).frames.Grows (final c ⟨n, .stmt (.branch condition yes no), m⟩).frames := by
  have H := Machine.Keeps.respected c
  cases h with
  | @condition n =>
    refine (H.after fun v m' _ => ?_).frames
    split
    · exact (H.ends n).stmt yes m'
    · cases no with
      | none => exact H.refl m'
      | some s => exact (H.ends n).stmt s m'
  | yes hv htrue =>
    simp only [final, Eval.stmt, final_bind_of_ok hv, htrue, if_true]
    exact .refl _
  | no hv hfalse =>
    simp only [final, Eval.stmt, final_bind_of_ok hv, hfalse, Bool.false_eq_true, if_false]
    exact .refl _

theorem leaves_stmt {s : Stmt} (h : Enters c ⟨n, .stmt s, m⟩ b) :
    (b.final c).frames.Grows (final c ⟨n, .stmt s, m⟩).frames := by
  have H := Machine.Keeps.respected c
  cases h with
  | expression | result =>
    dsimp only [final]
    rw [Eval.stmt]
    refine (H.after fun _ m' _ => ?_).frames
    exact H.refl m'
  | print =>
    dsimp only [final]
    rw [Eval.stmt]
    refine (H.after fun v m' _ => ?_).frames
    exact H.bind (H.printLine_final v.display) fun _ m'' _ => H.refl m''
  | @initializer n name =>
    dsimp only [final]
    rw [Eval.stmt]
    refine (H.after fun v m' _ => ?_).frames
    exact H.bind (H.define m' name.lexeme v) fun _ m'' _ => H.refl m''
  | @block n body =>
    have hblock := congrArg Machine.frames (final_inFrame (m := m) (.empty (some m.current)) (Eval.stmts c n body))
    exact hblock ▸ .refl _
  | condition => exact leaves_branch .condition
  | yes hv htrue => exact leaves_branch (.yes hv htrue)
  | no hv hfalse => exact leaves_branch (.no hv hfalse)
  | loop => exact .refl _

theorem leaves_stmts {ss : List Stmt} (h : Enters c ⟨n, .stmts ss, m⟩ b) :
    (b.final c).frames.Grows (final c ⟨n, .stmts ss, m⟩).frames := by
  have H := Machine.Keeps.respected c
  cases h with
  | @stmt n s ss =>
    refine (H.after fun flow m' _ => ?_).frames
    cases flow with
    | normal => exact (H.ends n).stmts ss m'
    | returned v => exact H.refl m'
  | stmts hs =>
    dsimp only [final]
    rw [Eval.stmts, final_bind_of_ok hs]
    exact .refl _

theorem leaves_loop {condition : Expr} {body : Stmt} (h : Enters c ⟨n, .loop condition body, m⟩ b) :
    (b.final c).frames.Grows (final c ⟨n, .loop condition body, m⟩).frames := by
  have H := Machine.Keeps.respected c
  cases h with
  | @test n =>
    refine (H.after fun v m' _ => ?_).frames
    split
    · refine H.bind ((H.ends n).stmt body m') fun flow m'' _ => ?_
      cases flow with
      | normal => exact (H.ends n).loop condition body m''
      | returned v => exact H.refl m''
    · exact H.refl m'
  | @round n _ _ _ v m' hv htrue =>
    dsimp only [final]
    rw [Eval.loop, final_bind_of_ok hv, if_pos htrue]
    refine (H.after fun flow m'' _ => ?_).frames
    cases flow with
    | normal => exact (H.ends n).loop condition body m''
    | returned v => exact H.refl m''
  | again hv htrue hs =>
    dsimp only [final]
    rw [Eval.loop, final_bind_of_ok hv, if_pos htrue, final_bind_of_ok hs]
    exact .refl _

theorem leaves_program {ss : List Stmt} (h : Enters c ⟨n, .program ss, m⟩ b) :
    (b.final c).frames.Grows (final c ⟨n, .program ss, m⟩).frames := by
  have H := Machine.Keeps.respected c
  cases h with
  | @begin _ s ss => exact (H.after fun _ m' _ => H.program_final n ss m').frames
  | proceed hs =>
    dsimp only [final]
    rw [Eval.program, final_bind_of_ok hs]
    exact .refl _

theorem leaves (h : Enters c a b) : (b.final c).frames.Grows (a.final c).frames := by
  obtain ⟨n, task, m⟩ := a
  cases task with
  | expr e => exact h.leaves_expr
  | exprs done es => exact h.leaves_exprs
  | store id name v => cases h
  | call f arguments paren => exact h.leaves_invocation
  | invoke f arguments paren => exact h.leaves_body
  | stmt s => exact h.leaves_stmt
  | stmts ss => exact h.leaves_stmts
  | loop condition body => exact h.leaves_loop
  | program ss => exact h.leaves_program

end Enters

end Moment
end Lox
