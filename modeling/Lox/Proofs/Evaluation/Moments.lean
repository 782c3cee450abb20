import Lox.Proofs.Evaluation.Effects
import Lox.Syntax.References

/-! # The moments of a run

Evaluation calls itself on parts of programs. Each such call is a moment: a task that is begun in some
machine, with the fuel that is left. This file says which moments evaluation enters directly from a
given one (`Enters`), and which it comes to at all (`Visits`), also in runs that never end.

No moment is left out: two ways to access variables that agree at every visited moment where a
reference is read or stored give the same result (`same_of_agree`). -/

namespace Lox

/-- What evaluation can be called for. Storing is the part of an assignment after its value. -/
inductive Task where
  | expr (e : Expr)
  | exprs (done : Array Value) (es : List Expr)
  | store (id : ExprId) (name : Token) (v : Value)
  | call (f : Value) (arguments : List Value) (paren : Token)
  | invoke (f : Value) (arguments : List Value) (paren : Token)
  | stmt (s : Stmt)
  | stmts (ss : List Stmt)
  | loop (condition : Expr) (body : Stmt)
  | program (ss : List Stmt)

/-- A task that is begun in a machine, with the fuel that is left. -/
structure Moment where
  fuel : Nat
  task : Task
  machine : Machine

namespace Moment

/-- Evaluation at the first moment calls itself at the second. -/
inductive Enters (c : Context) : Moment → Moment → Prop
  | grouping {n e m} : Enters c ⟨n + 1, .expr (.grouping e), m⟩ ⟨n, .expr e, m⟩
  | operand {n operator right m} : Enters c ⟨n + 1, .expr (.unary operator right), m⟩ ⟨n, .expr right, m⟩
  | left {n left operator right m} : Enters c ⟨n + 1, .expr (.binary left operator right), m⟩ ⟨n, .expr left, m⟩
  | right {n left operator right m l m'} (h : Eval.expr c n left m = .ok l m') :
    Enters c ⟨n + 1, .expr (.binary left operator right), m⟩ ⟨n, .expr right, m'⟩
  | leftLogical {n left operator right m} :
    Enters c ⟨n + 1, .expr (.logical left operator right), m⟩ ⟨n, .expr left, m⟩
  | rightLogical {n left operator right m l m'} (h : Eval.expr c n left m = .ok l m')
      (hop : Operator.decides operator l = false) :
    Enters c ⟨n + 1, .expr (.logical left operator right), m⟩ ⟨n, .expr right, m'⟩
  | value {n id name value m} : Enters c ⟨n + 1, .expr (.assign id name value), m⟩ ⟨n, .expr value, m⟩
  | store {n id name value m v m'} (h : Eval.expr c n value m = .ok v m') :
    Enters c ⟨n + 1, .expr (.assign id name value), m⟩ ⟨n, .store id name v, m'⟩
  | callee {n callee paren arguments m} :
    Enters c ⟨n + 1, .expr (.call callee paren arguments), m⟩ ⟨n, .expr callee, m⟩
  | arguments {n callee paren arguments m f m'} (h : Eval.expr c n callee m = .ok f m') :
    Enters c ⟨n + 1, .expr (.call callee paren arguments), m⟩ ⟨n, .exprs #[] arguments, m'⟩
  | call {n callee paren arguments m f m' vs m''} (h : Eval.expr c n callee m = .ok f m')
      (hargs : Eval.exprs c n #[] arguments m' = .ok vs m'') :
    Enters c ⟨n + 1, .expr (.call callee paren arguments), m⟩ ⟨n, .call f vs.toList paren, m''⟩
  | first {n done e es m} : Enters c ⟨n + 1, .exprs done (e :: es), m⟩ ⟨n, .expr e, m⟩
  | rest {n done e es m v m'} (h : Eval.expr c n e m = .ok v m') :
    Enters c ⟨n + 1, .exprs done (e :: es), m⟩ ⟨n, .exprs (done.push v) es, m'⟩
  | invoke {n f arguments paren m} (harity : f.arity? = some arguments.length) (hdepth : m.depth < maxDepth) :
    Enters c ⟨n + 1, .call f arguments paren, m⟩ ⟨n, .invoke f arguments paren, { m with depth := m.depth + 1 }⟩
  | body {n f arguments paren m} :
    Enters c ⟨n + 1, .invoke (.function f) arguments paren, m⟩
      ⟨n, .stmts f.decl.body, { m with frames := m.frames.push (f.callFrame arguments), current := m.frames.next }⟩
  | expression {n e m} : Enters c ⟨n + 1, .stmt (.expression e), m⟩ ⟨n, .expr e, m⟩
  | print {n e m} : Enters c ⟨n + 1, .stmt (.print e), m⟩ ⟨n, .expr e, m⟩
  | initializer {n name e m} : Enters c ⟨n + 1, .stmt (.var name (some e)), m⟩ ⟨n, .expr e, m⟩
  | block {n body m} :
    Enters c ⟨n + 1, .stmt (.block body), m⟩
      ⟨n, .stmts body, { m with frames := m.frames.push (.empty (some m.current)), current := m.frames.next }⟩
  | condition {n condition yes no m} :
    Enters c ⟨n + 1, .stmt (.branch condition yes no), m⟩ ⟨n, .expr condition, m⟩
  | yes {n condition yes no m v m'} (h : Eval.expr c n condition m = .ok v m') (hv : v.isTruthy = true) :
    Enters c ⟨n + 1, .stmt (.branch condition yes no), m⟩ ⟨n, .stmt yes, m'⟩
  | no {n condition yes no m v m'} (h : Eval.expr c n condition m = .ok v m') (hv : v.isTruthy = false) :
    Enters c ⟨n + 1, .stmt (.branch condition yes (some no)), m⟩ ⟨n, .stmt no, m'⟩
  | loop {n condition body m} : Enters c ⟨n + 1, .stmt (.loop condition body), m⟩ ⟨n, .loop condition body, m⟩
  | result {n keyword e m} : Enters c ⟨n + 1, .stmt (.ret keyword (some e)), m⟩ ⟨n, .expr e, m⟩
  | stmt {n s ss m} : Enters c ⟨n + 1, .stmts (s :: ss), m⟩ ⟨n, .stmt s, m⟩
  | stmts {n s ss m m'} (h : Eval.stmt c n s m = .ok .normal m') :
    Enters c ⟨n + 1, .stmts (s :: ss), m⟩ ⟨n, .stmts ss, m'⟩
  | test {n condition body m} : Enters c ⟨n + 1, .loop condition body, m⟩ ⟨n, .expr condition, m⟩
  | round {n condition body m v m'} (h : Eval.expr c n condition m = .ok v m') (hv : v.isTruthy = true) :
    Enters c ⟨n + 1, .loop condition body, m⟩ ⟨n, .stmt body, m'⟩
  | again {n condition body m v m' m''} (h : Eval.expr c n condition m = .ok v m') (hv : v.isTruthy = true)
      (hbody : Eval.stmt c n body m' = .ok .normal m'') :
    Enters c ⟨n + 1, .loop condition body, m⟩ ⟨n, .loop condition body, m''⟩
  | begin {n s ss m} : Enters c ⟨n, .program (s :: ss), m⟩ ⟨n, .stmt s, m⟩
  | proceed {n s ss m flow m'} (h : Eval.stmt c n s m = .ok flow m') :
    Enters c ⟨n, .program (s :: ss), m⟩ ⟨n, .program ss, m'⟩

/-- Evaluation at the first moment comes to the second. -/
inductive Visits (c : Context) : Moment → Moment → Prop
  | here {a} : Visits c a a
  | enter {a b b'} (h : Enters c a b) (hv : Visits c b b') : Visits c a b'

/-- The reference that is evaluated at a moment: read, assigned, or stored after its value. -/
def reference? (mo : Moment) : Option Reference :=
  match mo.task with
  | .expr (.var id name) => some ⟨false, id, name⟩
  | .expr (.assign id name _) | .store id name _ => some ⟨true, id, name⟩
  | _ => none

/-! ### Two ways of access -/

/-- Both contexts do the same with a reference that is read or stored at this moment. -/
def Agree (c c' : Context) (mo : Moment) : Prop :=
  match mo.task with
  | .expr (.var id name) => Eval.read c id name mo.machine = Eval.read c' id name mo.machine
  | .store id name v => Eval.assign c id name v mo.machine = Eval.assign c' id name v mo.machine
  | _ => True

/-- Both contexts come to the same result of a task. -/
def SameResult (c c' : Context) (n : Nat) (m : Machine) : Task → Prop
  | .expr e => Eval.expr c n e m = Eval.expr c' n e m
  | .exprs done es => Eval.exprs c n done es m = Eval.exprs c' n done es m
  | .store id name v => Eval.assign c id name v m = Eval.assign c' id name v m
  | .call f arguments paren => Eval.call c n f arguments paren m = Eval.call c' n f arguments paren m
  | .invoke f arguments paren => Eval.invoke c n f arguments paren m = Eval.invoke c' n f arguments paren m
  | .stmt s => Eval.stmt c n s m = Eval.stmt c' n s m
  | .stmts ss => Eval.stmts c n ss m = Eval.stmts c' n ss m
  | .loop condition body => Eval.loop c n condition body m = Eval.loop c' n condition body m
  | .program ss => Eval.program c n ss m = Eval.program c' n ss m

end Moment

namespace Eval

theorem bind_congr {α β : Type} {x y : Eval α} {f g : α → Eval β} {m : Machine} (hx : x m = y m)
    (hf : ∀ a m', x m = .ok a m' → f a m' = g a m') : (x >>= f) m = (y >>= g) m := by
  rw [bind_apply, bind_apply, ← hx]
  cases h : x m with
  | ok a m' => exact hf a m' h
  | error stop m' => rfl

theorem inFrame_congr {α : Type} {frame : Frame} {x y : Eval α} {m : Machine}
    (h : x { m with frames := m.frames.push frame, current := m.frames.next } =
      y { m with frames := m.frames.push frame, current := m.frames.next }) :
    inFrame frame x m = inFrame frame y m := by rw [inFrame_apply, inFrame_apply, h]

theorem asCall_congr {α : Type} {paren : Token} {x y : Eval α} {m : Machine}
    (h : m.depth < maxDepth → x { m with depth := m.depth + 1 } = y { m with depth := m.depth + 1 }) :
    asCall paren x m = asCall paren y m := by
  rw [asCall_apply, asCall_apply]
  by_cases hd : maxDepth ≤ m.depth
  · rw [if_pos hd, if_pos hd]
  · rw [if_neg hd, if_neg hd, h (Nat.lt_of_not_le hd)]

end Eval

namespace Moment
variable {c c' : Context} {n : Nat}

/-- At every moment that is visited from this one, both contexts do the same. -/
def AgreeFrom (c c' : Context) (mo : Moment) : Prop := ∀ mo', Visits c mo mo' → mo'.Agree c c'

theorem AgreeFrom.enter {mo mo' : Moment} (h : AgreeFrom c c' mo) (he : Enters c mo mo') : AgreeFrom c c' mo' :=
  fun mo'' hv => h mo'' (.enter he hv)

/-- Both contexts come to the same results with this fuel. -/
def SameResults (c c' : Context) (n : Nat) : Prop := ∀ task m, AgreeFrom c c' ⟨n, task, m⟩ → SameResult c c' n m task

section
variable (ih : SameResults c c' n) {m : Machine}
include ih

theorem same_expr {e : Expr} (h : AgreeFrom c c' ⟨n + 1, .expr e, m⟩) :
    Eval.expr c (n + 1) e m = Eval.expr c' (n + 1) e m := by
  cases e with
  | literal v => rfl
  | grouping e => exact ih (.expr e) m (h.enter .grouping)
  | unary operator right => exact Eval.bind_congr (ih (.expr right) m (h.enter .operand)) fun _ _ _ => rfl
  | binary left operator right =>
    refine Eval.bind_congr (ih (.expr left) m (h.enter .left)) fun l m' hl => ?_
    exact Eval.bind_congr (ih (.expr right) m' (h.enter (.right hl))) fun _ _ _ => rfl
  | logical left operator right =>
    refine Eval.bind_congr (ih (.expr left) m (h.enter .leftLogical)) fun l m' hl => ?_
    cases hop : Operator.decides operator l with
    | true => rfl
    | false => exact ih (.expr right) m' (h.enter (.rightLogical hl hop))
  | var id name => exact h _ .here
  | assign id name value =>
    refine Eval.bind_congr (ih (.expr value) m (h.enter .value)) fun v m' hv => ?_
    exact Eval.bind_congr (h _ (.enter (.store hv) .here)) fun _ _ _ => rfl
  | call callee paren arguments =>
    refine Eval.bind_congr (ih (.expr callee) m (h.enter .callee)) fun f m' hf => ?_
    refine Eval.bind_congr (ih (.exprs #[] arguments) m' (h.enter (.arguments hf))) fun vs m'' hvs => ?_
    exact ih (.call f vs.toList paren) m'' (h.enter (.call hf hvs))

theorem same_exprs {done : Array Value} {es : List Expr} (h : AgreeFrom c c' ⟨n + 1, .exprs done es, m⟩) :
    Eval.exprs c (n + 1) done es m = Eval.exprs c' (n + 1) done es m := by
  cases es with
  | nil => rfl
  | cons e rest =>
    refine Eval.bind_congr (ih (.expr e) m (h.enter .first)) fun v m' hv => ?_
    exact ih (.exprs (done.push v) rest) m' (h.enter (.rest hv))

theorem same_call {f : Value} {arguments : List Value} {paren : Token}
    (h : AgreeFrom c c' ⟨n + 1, .call f arguments paren, m⟩) :
    Eval.call c (n + 1) f arguments paren m = Eval.call c' (n + 1) f arguments paren m := by
  rw [Eval.call, Eval.call]
  cases harity : f.arity? with
  | none => rfl
  | some arity =>
    by_cases hlength : arguments.length = arity
    · subst hlength
      simp only [ne_eq, not_true_eq_false, if_false]
      exact Eval.asCall_congr fun hd => ih (.invoke f arguments paren) _ (h.enter (.invoke harity hd))
    · simp only [ne_eq, hlength, not_false_eq_true, if_true]

theorem same_invoke (hhost : c.host = c'.host) {f : Value} {arguments : List Value} {paren : Token}
    (h : AgreeFrom c c' ⟨n + 1, .invoke f arguments paren, m⟩) :
    Eval.invoke c (n + 1) f arguments paren m = Eval.invoke c' (n + 1) f arguments paren m := by
  cases f with
  | host f => simp only [Eval.invoke, Eval.callHost, hhost]
  | function f =>
    refine Eval.bind_congr (Eval.inFrame_congr ?_) fun _ _ _ => rfl
    exact ih (.stmts f.decl.body) _ (h.enter .body)
  | nil | bool _ | number _ | string _ => rfl

theorem same_stmt {s : Stmt} (h : AgreeFrom c c' ⟨n + 1, .stmt s, m⟩) :
    Eval.stmt c (n + 1) s m = Eval.stmt c' (n + 1) s m := by
  cases s with
  | expression e => exact Eval.bind_congr (ih (.expr e) m (h.enter .expression)) fun _ _ _ => rfl
  | print e => exact Eval.bind_congr (ih (.expr e) m (h.enter .print)) fun _ _ _ => rfl
  | var name initializer =>
    cases initializer with
    | none => rfl
    | some e => exact Eval.bind_congr (ih (.expr e) m (h.enter .initializer)) fun _ _ _ => rfl
  | block body => exact Eval.inFrame_congr (ih (.stmts body) _ (h.enter .block))
  | branch condition yes no =>
    refine Eval.bind_congr (ih (.expr condition) m (h.enter .condition)) fun v m' hc => ?_
    cases hv : v.isTruthy with
    | true => exact ih (.stmt yes) m' (h.enter (.yes hc hv))
    | false =>
      cases no with
      | none => rfl
      | some s => exact ih (.stmt s) m' (h.enter (.no hc hv))
  | loop condition body => exact ih (.loop condition body) m (h.enter .loop)
  | function name parameters body => rfl
  | ret keyword value =>
    cases value with
    | none => rfl
    | some e => exact Eval.bind_congr (ih (.expr e) m (h.enter .result)) fun _ _ _ => rfl

theorem same_stmts {ss : List Stmt} (h : AgreeFrom c c' ⟨n + 1, .stmts ss, m⟩) :
    Eval.stmts c (n + 1) ss m = Eval.stmts c' (n + 1) ss m := by
  cases ss with
  | nil => rfl
  | cons s rest =>
    refine Eval.bind_congr (ih (.stmt s) m (h.enter .stmt)) fun flow m' hs => ?_
    cases flow with
    | normal => exact ih (.stmts rest) m' (h.enter (.stmts hs))
    | returned v => rfl

theorem same_loop {condition : Expr} {body : Stmt} (h : AgreeFrom c c' ⟨n + 1, .loop condition body, m⟩) :
    Eval.loop c (n + 1) condition body m = Eval.loop c' (n + 1) condition body m := by
  refine Eval.bind_congr (ih (.expr condition) m (h.enter .test)) fun v m' hc => ?_
  cases hv : v.isTruthy with
  | false => rfl
  | true =>
    refine Eval.bind_congr (ih (.stmt body) m' (h.enter (.round hc hv))) fun flow m'' hs => ?_
    cases flow with
    | normal => exact ih (.loop condition body) m'' (h.enter (.again hc hv hs))
    | returned v => rfl

end

theorem same_program (ih : ∀ s m, AgreeFrom c c' ⟨n, .stmt s, m⟩ → Eval.stmt c n s m = Eval.stmt c' n s m) :
    ∀ {ss : List Stmt} {m : Machine}, AgreeFrom c c' ⟨n, .program ss, m⟩ →
      Eval.program c n ss m = Eval.program c' n ss m
  | [], _, _ => rfl
  | s :: _, m, h => Eval.bind_congr (ih s m (h.enter .begin)) fun _ _ hs => same_program ih (h.enter (.proceed hs))

/-- Contexts with the same host that agree at all visited moments come to the same results. -/
theorem same_of_agree (hhost : c.host = c'.host) : ∀ n, SameResults c c' n
  | 0, task, m, h => by
    cases task with
    | store id name v => exact h _ .here
    | program ss =>
      have hstmt : ∀ s m, AgreeFrom c c' ⟨0, .stmt s, m⟩ → Eval.stmt c 0 s m = Eval.stmt c' 0 s m :=
        fun _ _ _ => rfl
      exact same_program hstmt h
    | _ => rfl
  | n + 1, task, m, h => by
    have ih := same_of_agree hhost n
    cases task with
    | expr e => exact same_expr ih h
    | exprs done es => exact same_exprs ih h
    | store id name v => exact h _ .here
    | call f arguments paren => exact same_call ih h
    | invoke f arguments paren => exact same_invoke ih hhost h
    | stmt s => exact same_stmt ih h
    | stmts ss => exact same_stmts ih h
    | loop condition body => exact same_loop ih h
    | program ss => exact same_program (fun _ _ => same_stmt ih) h

end Moment
end Lox
