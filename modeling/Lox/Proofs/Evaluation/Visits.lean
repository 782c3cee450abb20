import Lox.Proofs.Evaluation.Moments
import Lox.Proofs.Evaluation.Preserve

/-! # Visited moments are sound

Where a task is begun at a place of the program in a sound world, so is every task that it calls for
(`Enters.sound`), and therefore every task of the evaluation (`Visits.sound`). In particular, the frames
of every reference that is evaluated are those of the regions around it (`Sound.reference`). -/

namespace Lox
open Eval

namespace Eval

/-- A step that comes to a result leads to a world with that machine. -/
theorem Ensures.of_ok {α : Type} {Q : Site → Prop} {x : Eval α} {w : World} {P : World → α → Prop} {a : α}
    {m : Machine} (h : Ensures Q x w P) (hok : x w.machine = .ok a m) :
    ∃ roster, w.Later ⟨m, roster⟩ ∧ World.Sound Q ⟨m, roster⟩ ∧ P ⟨m, roster⟩ a := by
  obtain ⟨roster, hlater, hsound, hP⟩ := h
  rw [final_of_ok hok] at hlater hsound
  exact ⟨roster, hlater, hsound, hP a m hok⟩

/-- Behind the first expression of a place its value is known, and the rest of the place is ready. -/
theorem ready_after {Q : Site → Prop} {c : Context} (hc : c.host.Honest) {w : World} {rs : List Region} {e : Expr}
    {sites : List Site} {names : List String} {n : Nat} {v : Value} {m : Machine} (hs : w.Sound Q)
    (h : w.Ready Q rs (e.sites rs ++ sites) names) (hok : Eval.expr c n e w.machine = .ok v m) :
    ∃ roster, w.Later ⟨m, roster⟩ ∧ World.Sound Q ⟨m, roster⟩ ∧ Yields Q ⟨m, roster⟩ v ∧
      World.Ready Q ⟨m, roster⟩ rs sites [] := by
  obtain ⟨roster, hlater, hs', hv⟩ := ((preserves Q hc n).expr hs h.left).of_ok hok
  exact ⟨roster, hlater, hs', hv, h.right.later hs hlater⟩

end Eval

/-- The world is ready for the task. -/
def Task.Ready (Q : Site → Prop) (w : World) : Task → Prop
  | .expr e => ∃ rs, w.Ready Q rs (e.sites rs) []
  | .exprs done es => (∀ v ∈ done.toList, Yields Q w v) ∧ ∃ rs, w.Ready Q rs (Expr.sitesAll rs es) []
  | .store id name v => Yields Q w v ∧ ∃ rs, w.Ready Q rs [⟨rs, ⟨true, id, name⟩⟩] []
  | .call f arguments _ => Yields Q w f ∧ ∀ v ∈ arguments, Yields Q w v
  | .invoke f arguments _ => Yields Q w f ∧ (∀ v ∈ arguments, Yields Q w v) ∧ f.arity? = some arguments.length
  | .stmt s => ∃ rs, w.Ready Q rs (s.sites rs) s.declares ∧ s.Plain
  | .stmts ss => ∃ rs, w.Ready Q rs (Stmt.sitesAll rs ss) (Stmt.declaresAll ss) ∧ Stmt.PlainAll ss
  | .loop condition body =>
    ∃ rs, w.Ready Q rs ((Stmt.loop condition body).sites rs) [] ∧ (Stmt.loop condition body).Plain
  | .program ss => w.current = Frames.globals ∧ (∀ t ∈ Stmt.sitesAll [] ss, Q t) ∧ Stmt.PlainAll ss

/-- A program is ready for its first statement, which stands in no region. -/
theorem Task.Ready.first {Q : Site → Prop} {w : World} {s : Stmt} {ss : List Stmt}
    (h : Task.Ready Q w (.program (s :: ss))) : w.Ready Q [] (s.sites []) s.declares := by
  obtain ⟨hglobals, hsites, -⟩ := h
  exact ⟨hglobals, fun t ht => hsites t (List.mem_append_left _ ht), fun hne => absurd hglobals hne⟩

namespace Moment

/-- The machine is sound and ready for the task. -/
def Sound (Q : Site → Prop) (mo : Moment) : Prop :=
  ∃ roster, World.Sound Q ⟨mo.machine, roster⟩ ∧ mo.task.Ready Q ⟨mo.machine, roster⟩

variable {Q : Site → Prop} {c : Context} {mo mo' : Moment}

/-! A part of a task is entered soundly: one lemma for every group of tasks, by the syntax that they are for. -/

namespace Enters
variable {n : Nat} {m : Machine} {roster : Roster} (hc : c.host.Honest) (hs : World.Sound Q ⟨m, roster⟩)
include hc hs

theorem sound_binary {left right : Expr} {operator : Token} {rs : List Region}
    (h : Enters c ⟨n, .expr (.binary left operator right), m⟩ mo')
    (hready : World.Ready Q ⟨m, roster⟩ rs ((Expr.binary left operator right).sites rs) []) : mo'.Sound Q := by
  rw [Expr.sites_binary] at hready
  cases h with
  | left => exact ⟨roster, hs, rs, hready.left⟩
  | right hl =>
    obtain ⟨roster', -, hs', -, hright⟩ := ready_after hc hs hready hl
    exact ⟨roster', hs', rs, hright⟩

theorem sound_logical {left right : Expr} {operator : Token} {rs : List Region}
    (h : Enters c ⟨n, .expr (.logical left operator right), m⟩ mo')
    (hready : World.Ready Q ⟨m, roster⟩ rs ((Expr.logical left operator right).sites rs) []) : mo'.Sound Q := by
  rw [Expr.sites_logical] at hready
  cases h with
  | leftLogical => exact ⟨roster, hs, rs, hready.left⟩
  | rightLogical hl =>
    obtain ⟨roster', -, hs', -, hright⟩ := ready_after hc hs hready hl
    exact ⟨roster', hs', rs, hright⟩

theorem sound_assign {id : ExprId} {name : Token} {value : Expr} {rs : List Region}
    (h : Enters c ⟨n, .expr (.assign id name value), m⟩ mo')
    (hready : World.Ready Q ⟨m, roster⟩ rs ((Expr.assign id name value).sites rs) []) : mo'.Sound Q := by
  rw [Expr.sites_assign] at hready
  cases h with
  | value => exact ⟨roster, hs, rs, hready.left⟩
  | store hv =>
    obtain ⟨roster', -, hs', hvalue, htarget⟩ := ready_after hc hs hready hv
    exact ⟨roster', hs', hvalue, rs, htarget⟩

theorem sound_call {callee : Expr} {paren : Token} {arguments : List Expr} {rs : List Region}
    (h : Enters c ⟨n, .expr (.call callee paren arguments), m⟩ mo')
    (hready : World.Ready Q ⟨m, roster⟩ rs ((Expr.call callee paren arguments).sites rs) []) : mo'.Sound Q := by
  rw [Expr.sites_call] at hready
  cases h with
  | callee => exact ⟨roster, hs, rs, hready.left⟩
  | arguments hf =>
    obtain ⟨roster', -, hs', -, harguments⟩ := ready_after hc hs hready hf
    exact ⟨roster', hs', by simp, rs, harguments⟩
  | call hf hargs =>
    obtain ⟨roster', -, hs', hvalue, harguments⟩ := ready_after hc hs hready hf
    obtain ⟨roster'', hlater', hs'', hvalues⟩ := ((preserves Q hc _).exprs hs' harguments (by simp)).of_ok hargs
    exact ⟨roster'', hs'', hlater'.value hvalue, hvalues⟩

theorem sound_expr {e : Expr} (h : Enters c ⟨n, .expr e, m⟩ mo')
    (hready : Task.Ready Q ⟨m, roster⟩ (.expr e)) : mo'.Sound Q := by
  obtain ⟨rs, hready⟩ := hready
  cases e with
  | grouping e =>
    cases h with
    | grouping => exact ⟨roster, hs, rs, hready⟩
  | unary operator right =>
    cases h with
    | operand => exact ⟨roster, hs, rs, hready⟩
  | binary left operator right => exact h.sound_binary hc hs hready
  | logical left operator right => exact h.sound_logical hc hs hready
  | assign id name value => exact h.sound_assign hc hs hready
  | call callee paren arguments => exact h.sound_call hc hs hready
  | literal | var => cases h

theorem sound_exprs {done : Array Value} {es : List Expr} (h : Enters c ⟨n, .exprs done es, m⟩ mo')
    (hready : Task.Ready Q ⟨m, roster⟩ (.exprs done es)) : mo'.Sound Q := by
  obtain ⟨hdone, rs, hready⟩ := hready
  cases h with
  | first =>
    rw [Expr.sitesAll_cons] at hready
    exact ⟨roster, hs, rs, hready.left⟩
  | rest hv =>
    rw [Expr.sitesAll_cons] at hready
    obtain ⟨roster', hlater, hs', hvalue, hrest⟩ := ready_after hc hs hready hv
    refine ⟨roster', hs', ?_, rs, hrest⟩
    intro u hu
    rw [Array.toList_push, List.mem_append, List.mem_singleton] at hu
    rcases hu with hu | rfl
    · exact hlater.value (hdone u hu)
    · exact hvalue

theorem sound_branch {condition : Expr} {yes : Stmt} {no : Option Stmt}
    (h : Enters c ⟨n, .stmt (.branch condition yes no), m⟩ mo')
    (hready : Task.Ready Q ⟨m, roster⟩ (.stmt (.branch condition yes no))) : mo'.Sound Q := by
  obtain ⟨rs, hready, hyesDecl, hyesPlain, hno⟩ := hready
  have hyesNil := Stmt.declares_eq_nil hyesDecl hyesPlain
  cases h with
  | condition => exact ⟨roster, hs, rs, hready.left.left⟩
  | yes hv =>
    obtain ⟨roster', hlater, hs', -⟩ := ((preserves Q hc _).expr hs hready.left.left).of_ok hv
    exact ⟨roster', hs', rs, hyesNil.symm ▸ hready.left.right.later hs hlater, hyesPlain⟩
  | no hv =>
    obtain ⟨hnoDecl, hnoPlain⟩ := hno
    obtain ⟨roster', hlater, hs', -⟩ := ((preserves Q hc _).expr hs hready.left.left).of_ok hv
    rw [Stmt.sites, hyesNil, Region.declare_nil] at hready
    have hnoNil := Stmt.declares_eq_nil hnoDecl hnoPlain
    exact ⟨roster', hs', rs, hnoNil.symm ▸ hready.right.later hs hlater, hnoPlain⟩

theorem sound_stmt {s : Stmt} (h : Enters c ⟨n, .stmt s, m⟩ mo')
    (hready : Task.Ready Q ⟨m, roster⟩ (.stmt s)) : mo'.Sound Q := by
  cases h with
  | expression | print | result =>
    obtain ⟨rs, hready, -⟩ := hready
    exact ⟨roster, hs, rs, hready.sub (fun _ ht => ht) (by simp)⟩
  | initializer =>
    obtain ⟨rs, hready, -⟩ := hready
    exact ⟨roster, hs, _, hready.initializer⟩
  | block =>
    obtain ⟨rs, hready, hplain⟩ := hready
    obtain ⟨hsound, hbody⟩ := hready.blockEntered hs
    exact ⟨_, hsound, _, hbody, hplain⟩
  | condition => exact sound_branch hc hs .condition hready
  | yes hv htrue => exact sound_branch hc hs (.yes hv htrue) hready
  | no hv hfalse => exact sound_branch hc hs (.no hv hfalse) hready
  | loop =>
    obtain ⟨rs, hready, hplain⟩ := hready
    exact ⟨roster, hs, rs, hready.sub (fun _ ht => ht) (by simp), hplain⟩

theorem sound_stmts {ss : List Stmt} (h : Enters c ⟨n, .stmts ss, m⟩ mo')
    (hready : Task.Ready Q ⟨m, roster⟩ (.stmts ss)) : mo'.Sound Q := by
  obtain ⟨rs, hready, hplain⟩ := hready
  cases h with
  | stmt => exact ⟨roster, hs, rs, hready.first, hplain.1⟩
  | stmts hs₁ =>
    obtain ⟨roster', hlater, hs', -, hbound⟩ := ((preserves Q hc _).stmt hs hready.first hplain.1).of_ok hs₁
    exact ⟨roster', hs', _, hready.next hs hlater (hbound rfl), hplain.2⟩

theorem sound_loop {condition : Expr} {body : Stmt} (h : Enters c ⟨n, .loop condition body, m⟩ mo')
    (hready : Task.Ready Q ⟨m, roster⟩ (.loop condition body)) : mo'.Sound Q := by
  obtain ⟨rs, hready, hbodyDecl, hbodyPlain⟩ := hready
  have hnil := Stmt.declares_eq_nil hbodyDecl hbodyPlain
  cases h with
  | test => exact ⟨roster, hs, rs, hready.left⟩
  | round hv =>
    obtain ⟨roster', -, hs', -, hbody⟩ := ready_after hc hs hready hv
    exact ⟨roster', hs', rs, hnil.symm ▸ hbody, hbodyPlain⟩
  | again hv htrue hbody =>
    obtain ⟨roster', hlater, hs', -⟩ := ((preserves Q hc _).expr hs hready.left).of_ok hv
    have h' := hready.later hs hlater
    obtain ⟨roster'', hlater', hs'', -⟩ := ((preserves Q hc _).stmt hs' (hnil.symm ▸ h'.right) hbodyPlain).of_ok hbody
    exact ⟨roster'', hs'', rs, h'.later hs' hlater', hbodyDecl, hbodyPlain⟩

theorem sound_program {ss : List Stmt} (h : Enters c ⟨n, .program ss, m⟩ mo')
    (hready : Task.Ready Q ⟨m, roster⟩ (.program ss)) : mo'.Sound Q := by
  have ⟨hglobals, hsites, hplain⟩ := hready
  cases h with
  | begin => exact ⟨roster, hs, [], hready.first, hplain.1⟩
  | proceed hs₁ =>
    obtain ⟨roster', hlater, hs', -⟩ := ((preserves Q hc _).stmt hs hready.first hplain.1).of_ok hs₁
    exact ⟨roster', hs', hlater.keeps.current.trans hglobals,
      fun t ht => hsites t (List.mem_append_right _ ht), hplain.2⟩

omit hc hs

theorem sound (hc : c.host.Honest) (h : Enters c mo mo') (hmo : mo.Sound Q) : mo'.Sound Q := by
  obtain ⟨n, task, m⟩ := mo
  obtain ⟨roster, hs, hready⟩ := hmo
  cases task with
  | expr e => exact h.sound_expr hc hs hready
  | exprs done es => exact h.sound_exprs hc hs hready
  | store id name v => cases h
  | call f arguments paren =>
    cases h with
    | invoke harity hdepth => exact ⟨roster, hs.congr rfl, hready.1, hready.2, harity⟩
  | invoke f arguments paren =>
    cases h with
    | body =>
      obtain ⟨hf, hargs, harity⟩ := hready
      have hlength := (Option.some.inj harity).symm
      obtain ⟨names, rs, hsound, hbody, hplain⟩ := World.Ready.called hs hf hargs hlength
      exact ⟨_, hsound, rs, hbody, hplain⟩
  | stmt s => exact h.sound_stmt hc hs hready
  | stmts ss => exact h.sound_stmts hc hs hready
  | loop condition body => exact h.sound_loop hc hs hready
  | program ss => exact h.sound_program hc hs hready

end Enters

/-- Every moment that is visited from a sound one is sound. -/
theorem Visits.sound (hc : c.host.Honest) (h : Visits c mo mo') (hmo : mo.Sound Q) : mo'.Sound Q := by
  induction h with
  | here => exact hmo
  | enter he _ ih => exact ih (he.sound hc hmo)

/-- A reference that is evaluated at a sound moment stands inside regions whose frames are the current one
    and those around it. -/
theorem Sound.reference (hmo : mo.Sound Q) {ref : Reference} (href : mo.reference? = some ref) :
    ∃ roster rs, World.Sound Q ⟨mo.machine, roster⟩ ∧ World.At ⟨mo.machine, roster⟩ rs ∧ Q ⟨rs, ref⟩ := by
  obtain ⟨roster, hs, hready⟩ := hmo
  unfold reference? at href
  split at href
  · rename_i id name htask
    cases href
    rw [htask] at hready
    obtain ⟨rs, h⟩ := hready
    exact ⟨roster, rs, hs, h.place, h.sites _ (List.mem_singleton_self _)⟩
  · rename_i id name value htask
    cases href
    rw [htask] at hready
    obtain ⟨rs, h⟩ := hready
    rw [Expr.sites_assign] at h
    exact ⟨roster, rs, hs, h.place, h.sites _ (List.mem_append_right _ (List.mem_singleton_self _))⟩
  · rename_i id name v htask
    cases href
    rw [htask] at hready
    obtain ⟨-, rs, h⟩ := hready
    exact ⟨roster, rs, hs, h.place, h.sites _ (List.mem_singleton_self _)⟩
  · cases href

end Moment
end Lox
