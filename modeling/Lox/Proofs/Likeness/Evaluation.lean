import Lox.Proofs.Evaluation.Effects
import Lox.Proofs.Likeness.Machines

/-! # Evaluating like programs

In like machines, like programs do the same: with as much fuel the second yields a like value or stops for the
same reason, and the machines are like afterwards (`simulated`). With more fuel it does so too, unless the
first runs out. The host is the same in both, and looks at no declaration. -/

namespace Lox

/-- The same reason, at tokens that stand for each other. -/
inductive Stop.Like (L : Likeness) : Stop → Stop → Prop
  | failed {e e' : RuntimeError} (h : e.Like L e') : Stop.Like L (.failed e) (.failed e')
  | sink (fault : SinkFault) : Stop.Like L (.sink fault) (.sink fault)
  | outOfFuel : Stop.Like L .outOfFuel .outOfFuel

namespace Eval

/-- Both steps yield, and `R` holds of the results, or both stop for the same reason, in any case with like
    machines; or the first ran out of fuel, and the second has some to spare. -/
inductive Follows {α : Type} (L : Likeness) (spare : Prop) (R : α → α → Prop) :
    EStateM.Result Stop Machine α → EStateM.Result Stop Machine α → Prop
  | ok {a b : α} {m m' : Machine} (hm : m.Like L m') (h : R a b) : Follows L spare R (.ok a m) (.ok b m')
  | error {stop stop' : Stop} {m m' : Machine} (hm : m.Like L m') (h : stop.Like L stop') :
    Follows L spare R (.error stop m) (.error stop' m')
  | exhausted (h : spare) (m : Machine) (result : EStateM.Result Stop Machine α) :
    Follows L spare R (.error .outOfFuel m) result

/-- The second step does in like machines what the first does. -/
def Simulates {α : Type} (L : Likeness) (spare : Prop) (R : α → α → Prop) (x y : Eval α) : Prop :=
  ∀ ⦃m m' : Machine⦄, m.Like L m' → Follows L spare R (x m) (y m')

section
variable {L : Likeness} {spare : Prop} {α β : Type} {x y : Eval α} {R : α → α → Prop}

namespace Simulates

theorem pure {a b : α} (h : R a b) : Simulates L spare R (pure a) (pure b) := fun _ _ hm => .ok hm h

theorem fail {e e' : RuntimeError} (h : e.Like L e') : Simulates L spare R (Eval.fail e) (Eval.fail e') :=
  fun _ _ hm => .error hm (.failed h)

theorem outOfFuel : Simulates L spare R (throw .outOfFuel) (throw .outOfFuel) := fun _ _ hm => .error hm .outOfFuel

theorem exhausted (h : spare) (y : Eval α) : Simulates L spare R (throw .outOfFuel) y := fun _ _ _ => .exhausted h _ _

theorem bind {f g : α → Eval β} {S : β → β → Prop} (hx : Simulates L spare R x y)
    (hf : ∀ {a b : α}, R a b → Simulates L spare S (f a) (g b)) : Simulates L spare S (x >>= f) (y >>= g) := by
  intro m m' hm
  rw [bind_apply, bind_apply]
  generalize x m = result, y m' = result', hx hm = hfollows
  cases hfollows with
  | ok hm hR => exact hf hR hm
  | error hm hstop => exact .error hm hstop
  | exhausted h => exact .exhausted h _ _

theorem ofExcept {result result' : Except RuntimeError α} (h : Outcome.Like (RuntimeError.Like L) R result result') :
    Simulates L spare R (Eval.ofExcept result) (Eval.ofExcept result') := by
  cases h with
  | ok h => exact pure h
  | error h => exact fail h

end Simulates

/-! ### The elementary steps -/

variable {host : Host} {distances distances' : Distances} {v v' : Value}

theorem undefined_like {name name' : Token} (h : L.token name name') :
    RuntimeError.Like L (.undefined name) (.undefined name') :=
  ⟨h, congrArg RuntimeError.Cause.undefinedVariable (L.lexeme_eq h)⟩

theorem read_simulates (hd : L.SameDistances distances distances') {id id' : ExprId} {name name' : Token}
    (hid : L.id id id') (hname : L.token name name') :
    Simulates L spare (Value.Like L) (read ⟨.resolved distances, host⟩ id name)
      (read ⟨.resolved distances', host⟩ id' name') := by
  intro m m' hm
  have hrel := hm.frames.access_get? hd hid m.current name.lexeme
  unfold read
  rw [hm.current, L.lexeme_eq hname]
  dsimp only
  generalize (Access.resolved distances).get? m.frames m.current id name.lexeme = u,
    (Access.resolved distances').get? m'.frames m.current id' name.lexeme = u' at hrel
  cases hrel with
  | some hv => exact .ok hm hv
  | none => exact .error hm (.failed (undefined_like hname))

theorem assign_simulates (hd : L.SameDistances distances distances') {id id' : ExprId} {name name' : Token}
    (hid : L.id id id') (hname : L.token name name') (hv : v.Like L v') :
    Simulates L spare (fun _ _ => True) (assign ⟨.resolved distances, host⟩ id name v)
      (assign ⟨.resolved distances', host⟩ id' name' v') := by
  intro m m' hm
  have hrel := hm.frames.access_assign? hd hid m.current name.lexeme hv
  rw [assign_apply, assign_apply, hm.current, L.lexeme_eq hname]
  dsimp only
  generalize (Access.resolved distances).assign? m.frames m.current id name.lexeme v = fs,
    (Access.resolved distances').assign? m'.frames m.current id' name.lexeme v' = fs' at hrel
  cases hrel with
  | some hframes => exact .ok { hm with frames := hframes, current := rfl } trivial
  | none => exact .error hm (.failed (undefined_like hname))

theorem define_simulates {name name' : Token} (hname : L.token name name') (hv : v.Like L v') :
    Simulates L spare (fun _ _ => True) (define name v) (define name' v') := by
  intro m m' hm
  rw [define_apply, define_apply, hm.current, L.lexeme_eq hname]
  exact .ok { hm with frames := hm.frames.define m.current name.lexeme hv, current := rfl } trivial

theorem declare_simulates {decl decl' : FunctionDecl} (h : decl.Like L decl') :
    Simulates L spare (fun _ _ => True) (declare decl) (declare decl') := by
  intro m m' hm
  rw [declare_apply, declare_apply, hm.current, hm.nextIdentity, L.lexeme_eq h.name]
  exact .ok { hm with
    frames := hm.frames.define m.current _ (.function ⟨rfl, rfl, h⟩)
    current := rfl
    nextIdentity := rfl } trivial

theorem callHost_simulates (hhost : host.Uniform) {access access' : Access} (f : HostFunction)
    {arguments arguments' : List Value} (hargs : List.Forall₂ (Value.Like L) arguments arguments')
    {paren paren' : Token} (hparen : L.token paren paren') :
    Simulates L spare (Value.Like L) (callHost ⟨access, host⟩ f arguments paren)
      (callHost ⟨access', host⟩ f arguments' paren') := by
  intro m m' hm
  rw [callHost_apply, callHost_apply, hm.hostCalls]
  dsimp only
  generalize host m.hostCalls f.key arguments = result, host m.hostCalls f.key arguments' = result',
    hhost L m.hostCalls f.key hargs = hresult
  cases hresult with
  | ok hv => exact .ok { hm with hostCalls := rfl } hv
  | error hmessage =>
    cases hmessage
    exact .error { hm with hostCalls := rfl } (.failed ⟨hparen, rfl⟩)

theorem printLine_simulates (text : String) :
    Simulates L spare (fun _ _ => True) (printLine text) (printLine text) := by
  intro m m' hm
  rw [printLine_apply, printLine_apply]
  obtain ⟨hsink, hfault⟩ := hm.sink.write (text ++ "\n")
  generalize m.sink.write (text ++ "\n") = w, m'.sink.write (text ++ "\n") = w' at hsink hfault
  obtain ⟨sink, fault⟩ := w
  obtain ⟨sink', fault'⟩ := w'
  cases hfault
  cases fault with
  | none => exact .ok { hm with sink := hsink } trivial
  | some fault => exact .error { hm with sink := hsink } (.sink fault)

theorem inFrame_simulates {frame frame' : Frame} (hframe : frame.Like L frame') (hx : Simulates L spare R x y) :
    Simulates L spare R (inFrame frame x) (inFrame frame' y) := by
  intro m m' hm
  rw [inFrame_apply, inFrame_apply]
  generalize x _ = result, y _ = result', hx (hm.enter hframe) = hfollows
  cases hfollows with
  | ok hm' hR => exact .ok { hm' with current := hm.current } hR
  | error hm' hstop => exact .error { hm' with current := hm.current } hstop
  | exhausted h => exact .exhausted h _ _

theorem inBlock_simulates (hx : Simulates L spare R x y) : Simulates L spare R (inBlock x) (inBlock y) := by
  intro m m' hm
  unfold inBlock
  rw [hm.current]
  exact inFrame_simulates (.empty _) hx hm

theorem asCall_simulates {paren paren' : Token} (hparen : L.token paren paren') (hx : Simulates L spare R x y) :
    Simulates L spare R (asCall paren x) (asCall paren' y) := by
  intro m m' hm
  rw [asCall_apply, asCall_apply, hm.depth]
  split
  · exact .error hm (.failed ⟨hparen, rfl⟩)
  · have hinside : Machine.Like L { m with depth := m.depth + 1 } { m' with depth := m.depth + 1 } :=
      { hm with depth := rfl }
    generalize x _ = result, y _ = result', hx hinside = hfollows
    cases hfollows with
    | ok hm' hR => exact .ok { hm' with depth := congrArg (· - 1) hm'.depth } hR
    | error hm' hstop => exact .error { hm' with depth := congrArg (· - 1) hm'.depth } hstop
    | exhausted h => exact .exhausted h _ _

end

/-! ### Evaluation -/

/-- The second evaluation, with this much fuel, does what the first does with that much. -/
structure Simulated (L : Likeness) (spare : Prop) (c c' : Context) (n n' : Nat) : Prop where
  expr : ∀ {e e' : Expr}, e.Like L e' → Simulates L spare (Value.Like L) (Eval.expr c n e) (Eval.expr c' n' e')
  exprs : ∀ {done done' : Array Value} {es es' : List Expr}, Expr.LikeAll L es es' →
    List.Forall₂ (Value.Like L) done.toList done'.toList →
      Simulates L spare (fun vs vs' => List.Forall₂ (Value.Like L) vs.toList vs'.toList)
        (Eval.exprs c n done es) (Eval.exprs c' n' done' es')
  call : ∀ {f f' : Value} {arguments arguments' : List Value} {paren paren' : Token}, f.Like L f' →
    List.Forall₂ (Value.Like L) arguments arguments' → L.token paren paren' →
      Simulates L spare (Value.Like L) (Eval.call c n f arguments paren) (Eval.call c' n' f' arguments' paren')
  invoke : ∀ {f f' : Value} {arguments arguments' : List Value} {paren paren' : Token}, f.Like L f' →
    List.Forall₂ (Value.Like L) arguments arguments' → L.token paren paren' →
      Simulates L spare (Value.Like L) (Eval.invoke c n f arguments paren) (Eval.invoke c' n' f' arguments' paren')
  stmt : ∀ {s s' : Stmt}, s.Like L s' → Simulates L spare (Flow.Like L) (Eval.stmt c n s) (Eval.stmt c' n' s')
  stmts : ∀ {ss ss' : List Stmt}, Stmt.LikeAll L ss ss' →
    Simulates L spare (Flow.Like L) (Eval.stmts c n ss) (Eval.stmts c' n' ss')
  loop : ∀ {condition condition' : Expr} {body body' : Stmt}, condition.Like L condition' → body.Like L body' →
    Simulates L spare (Flow.Like L) (Eval.loop c n condition body) (Eval.loop c' n' condition' body')

namespace Simulated
variable {L : Likeness} {spare : Prop} {distances distances' : Distances} {host : Host} {n n' : Nat}
  (ih : Simulated L spare ⟨.resolved distances, host⟩ ⟨.resolved distances', host⟩ n n')
include ih

theorem expr_succ (hd : L.SameDistances distances distances') {e e' : Expr} (h : e.Like L e') :
    Simulates L spare (Value.Like L) (Eval.expr ⟨.resolved distances, host⟩ (n + 1) e)
      (Eval.expr ⟨.resolved distances', host⟩ (n' + 1) e') := by
  cases h with
  | literal v => exact .pure (.ofLiteral v)
  | grouping h => exact ih.expr h
  | unary hop h => exact (ih.expr h).bind fun hv => .ofExcept (Operator.unary_like hop hv)
  | binary hl hop hr =>
    refine (ih.expr hl).bind fun hv => ?_
    exact (ih.expr hr).bind fun hu => .ofExcept (Operator.binary_like hop hv hu)
  | logical hl hop hr =>
    refine (ih.expr hl).bind fun hv => ?_
    rw [Operator.decides_like hop hv]
    split
    · exact .pure hv
    · exact ih.expr hr
  | var hid hname => exact read_simulates hd hid hname
  | assign hid hname h =>
    refine (ih.expr h).bind fun hv => ?_
    exact (assign_simulates hd hid hname hv).bind fun _ => .pure hv
  | call hf hparen hargs =>
    refine (ih.expr hf).bind fun hf => ?_
    exact (ih.exprs hargs .nil).bind fun hvs => ih.call hf hvs hparen

theorem exprs_succ {done done' : Array Value} {es es' : List Expr} (h : Expr.LikeAll L es es')
    (hdone : List.Forall₂ (Value.Like L) done.toList done'.toList) :
    Simulates L spare (fun vs vs' => List.Forall₂ (Value.Like L) vs.toList vs'.toList)
      (Eval.exprs ⟨.resolved distances, host⟩ (n + 1) done es)
      (Eval.exprs ⟨.resolved distances', host⟩ (n' + 1) done' es') := by
  cases h with
  | nil => exact .pure hdone
  | cons h hes =>
    refine (ih.expr h).bind fun hv => ih.exprs hes ?_
    rw [Array.toList_push, Array.toList_push]
    exact List.rel_append hdone (.cons hv .nil)

theorem call_succ {f f' : Value} {arguments arguments' : List Value} {paren paren' : Token} (hf : f.Like L f')
    (hargs : List.Forall₂ (Value.Like L) arguments arguments') (hparen : L.token paren paren') :
    Simulates L spare (Value.Like L) (Eval.call ⟨.resolved distances, host⟩ (n + 1) f arguments paren)
      (Eval.call ⟨.resolved distances', host⟩ (n' + 1) f' arguments' paren') := by
  rw [Eval.call, Eval.call, hf.indistinct.arity?_eq, ← hargs.length_eq]
  cases f.arity? with
  | none => exact .fail ⟨hparen, rfl⟩
  | some arity =>
    dsimp only
    split
    · exact .fail ⟨hparen, rfl⟩
    · exact asCall_simulates hparen (ih.invoke hf hargs hparen)

theorem invoke_succ (hhost : host.Uniform) {f f' : Value} {arguments arguments' : List Value} {paren paren' : Token}
    (hf : f.Like L f') (hargs : List.Forall₂ (Value.Like L) arguments arguments') (hparen : L.token paren paren') :
    Simulates L spare (Value.Like L) (Eval.invoke ⟨.resolved distances, host⟩ (n + 1) f arguments paren)
      (Eval.invoke ⟨.resolved distances', host⟩ (n' + 1) f' arguments' paren') := by
  cases hf with
  | plain hplain =>
    cases f with
    | host f => exact callHost_simulates hhost f hargs hparen
    | function f => exact absurd rfl (hplain f)
    | nil | bool _ | number _ | string _ => exact .fail ⟨hparen, rfl⟩
  | function hc =>
    exact (inFrame_simulates (.callFrame hc hargs) (ih.stmts hc.decl.body)).bind fun hflow => .pure hflow.result

theorem stmt_succ {s s' : Stmt} (h : s.Like L s') :
    Simulates L spare (Flow.Like L) (Eval.stmt ⟨.resolved distances, host⟩ (n + 1) s)
      (Eval.stmt ⟨.resolved distances', host⟩ (n' + 1) s') := by
  cases h with
  | expression h => exact (ih.expr h).bind fun _ => .pure .normal
  | print h =>
    refine (ih.expr h).bind fun hv => ?_
    rw [hv.indistinct.display_eq]
    exact (printLine_simulates _).bind fun _ => .pure .normal
  | var hname h =>
    cases h with
    | none => exact (define_simulates hname .nil).bind fun _ => .pure .normal
    | some h => exact (ih.expr h).bind fun hv => (define_simulates hname hv).bind fun _ => .pure .normal
  | block hbody => exact inBlock_simulates (ih.stmts hbody)
  | branch hc hyes hno =>
    refine (ih.expr hc).bind fun hv => ?_
    rw [hv.indistinct.isTruthy_eq]
    split
    · exact ih.stmt hyes
    · cases hno with
      | none => exact .pure .normal
      | some hno => exact ih.stmt hno
  | loop hc hbody => exact ih.loop hc hbody
  | function hname hparameters hbody =>
    exact (declare_simulates ⟨hname, hparameters, hbody⟩).bind fun _ => .pure .normal
  | ret _ h =>
    cases h with
    | none => exact .pure (.returned .nil)
    | some h => exact (ih.expr h).bind fun hv => .pure (.returned hv)

theorem stmts_succ {ss ss' : List Stmt} (h : Stmt.LikeAll L ss ss') :
    Simulates L spare (Flow.Like L) (Eval.stmts ⟨.resolved distances, host⟩ (n + 1) ss)
      (Eval.stmts ⟨.resolved distances', host⟩ (n' + 1) ss') := by
  cases h with
  | nil => exact .pure .normal
  | cons hs hrest =>
    refine (ih.stmt hs).bind fun hflow => ?_
    cases hflow with
    | normal => exact ih.stmts hrest
    | returned hv => exact .pure (.returned hv)

theorem loop_succ {condition condition' : Expr} {body body' : Stmt} (hc : condition.Like L condition')
    (hbody : body.Like L body') :
    Simulates L spare (Flow.Like L) (Eval.loop ⟨.resolved distances, host⟩ (n + 1) condition body)
      (Eval.loop ⟨.resolved distances', host⟩ (n' + 1) condition' body') := by
  refine (ih.expr hc).bind fun hv => ?_
  rw [hv.indistinct.isTruthy_eq]
  split
  · refine (ih.stmt hbody).bind fun hflow => ?_
    cases hflow with
    | normal => exact ih.loop hc hbody
    | returned hv => exact .pure (.returned hv)
  · exact .pure .normal

end Simulated

section
variable {L : Likeness} {spare : Prop} {distances distances' : Distances} {host : Host}

/-- The induction is on the fuel of the first evaluation. -/
theorem simulated (hd : L.SameDistances distances distances') (hhost : host.Uniform) : ∀ {n n' : Nat}, n ≤ n' →
    (n < n' → spare) → Simulated L spare ⟨.resolved distances, host⟩ ⟨.resolved distances', host⟩ n n'
  | 0, 0, _, _ =>
    { expr := fun _ => .outOfFuel
      exprs := fun _ _ => .outOfFuel
      call := fun _ _ _ => .outOfFuel
      invoke := fun _ _ _ => .outOfFuel
      stmt := fun _ => .outOfFuel
      stmts := fun _ => .outOfFuel
      loop := fun _ _ => .outOfFuel }
  | 0, n' + 1, _, hspare =>
    -- The first is out of fuel and the second is not: whatever the second does is allowed.
    have hspare := hspare n'.succ_pos
    { expr := fun _ => .exhausted hspare _
      exprs := fun _ _ => .exhausted hspare _
      call := fun _ _ _ => .exhausted hspare _
      invoke := fun _ _ _ => .exhausted hspare _
      stmt := fun _ => .exhausted hspare _
      stmts := fun _ => .exhausted hspare _
      loop := fun _ _ => .exhausted hspare _ }
  | _ + 1, _ + 1, h, hspare =>
    have ih := simulated hd hhost (Nat.le_of_succ_le_succ h) fun hlt => hspare (Nat.succ_lt_succ hlt)
    { expr := ih.expr_succ hd
      exprs := ih.exprs_succ
      call := ih.call_succ
      invoke := ih.invoke_succ hhost
      stmt := ih.stmt_succ
      stmts := ih.stmts_succ
      loop := ih.loop_succ }

theorem program_simulates (hd : L.SameDistances distances distances') (hhost : host.Uniform) {n n' : Nat} (hn : n ≤ n')
    (hspare : n < n' → spare) : ∀ {ss ss' : List Stmt}, Stmt.LikeAll L ss ss' →
      Simulates L spare (fun _ _ => True) (program ⟨.resolved distances, host⟩ n ss)
        (program ⟨.resolved distances', host⟩ n' ss')
  | _, _, .nil => .pure trivial
  | _, _, .cons hs hss => ((simulated hd hhost hn hspare).stmt hs).bind fun _ =>
    program_simulates hd hhost hn hspare hss

end
end Eval
end Lox
