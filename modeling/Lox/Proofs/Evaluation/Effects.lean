import Lox.Evaluate
import Lox.Proofs.Frames

/-! # What evaluation does to the machine

Evaluation changes the machine only through a few elementary steps: a binding is made or changed, a
function gets its identity, the host is called, a line is written, a frame is entered and left, a call
begins and ends. A relation between machines that these steps respect therefore holds between the
machine before any evaluation and the machine after it, however the evaluation ended (`Ends`). The
first such relation is that the current frame and the number of active calls are the same as before,
and that frames only grow (`Machine.Keeps`). -/

namespace Lox

/-! ### Writing -/

namespace Sink
variable {s : Sink}

theorem write_of_none (h : s.room = none) (text : String) :
    s.write text = ({ s with written := s.written ++ text.toUTF8 }, none) := by
  unfold Sink.write
  rw [h]

theorem write_of_le {room : Nat} {text : String} (h : s.room = some room) (hle : text.toUTF8.size ≤ room) :
    s.write text = ({ s with written := s.written ++ text.toUTF8, room := some (room - text.toUTF8.size) }, none) := by
  unfold Sink.write
  rw [h]
  exact if_pos hle

theorem write_of_lt {room : Nat} {text : String} (h : s.room = some room) (hlt : room < text.toUTF8.size) :
    s.write text = ({ s with written := s.written ++ text.toUTF8.extract 0 room, room := some 0 }, some .full) := by
  unfold Sink.write
  rw [h]
  exact if_neg (Nat.not_le_of_lt hlt)

end Sink

namespace Eval

/-- The machine after a step, however the step ended. -/
def final {α : Type} (x : Eval α) (m : Machine) : Machine :=
  match x m with
  | .ok _ m' => m'
  | .error _ m' => m'

section
variable {α β : Type} {x : Eval α} {f : α → Eval β} {m m' : Machine} {a : α} {stop : Stop}

theorem bind_apply : (x >>= f) m = match x m with
    | .ok a m' => f a m'
    | .error stop m' => .error stop m' := by
  simp only [bind, EStateM.bind]
  cases x m <;> rfl

theorem bind_of_ok (h : x m = .ok a m') : (x >>= f) m = f a m' := by rw [bind_apply, h]

theorem bind_of_error (h : x m = .error stop m') : (x >>= f) m = .error stop m' := by rw [bind_apply, h]

theorem bind_ok {b : β} (h : (x >>= f) m = .ok b m') : ∃ a m₁, x m = .ok a m₁ ∧ f a m₁ = .ok b m' := by
  rw [bind_apply] at h
  cases hx : x m with
  | ok a m₁ => exact ⟨a, m₁, rfl, by rwa [hx] at h⟩
  | error stop m₁ => simp [hx] at h

theorem final_of_ok (h : x m = .ok a m') : x.final m = m' := by rw [final, h]

theorem final_of_error (h : x m = .error stop m') : x.final m = m' := by rw [final, h]

theorem final_bind_of_ok (h : x m = .ok a m') : (x >>= f).final m = (f a).final m' := by rw [final, final, bind_of_ok h]

theorem final_bind_of_error (h : x m = .error stop m') : (x >>= f).final m = m' := final_of_error (bind_of_error h)

/-- What holds between the machines before and after each of two steps holds between those before and after both. -/
theorem final_bind {R : Machine → Machine → Prop} (htrans : ∀ {m m' m''}, R m m' → R m' m'' → R m m'')
    (hx : R m (x.final m)) (hf : ∀ a m', x m = .ok a m' → R m' ((f a).final m')) : R m ((x >>= f).final m) := by
  cases h : x m with
  | ok a m' =>
    rw [final_bind_of_ok h]
    exact htrans (final_of_ok h ▸ hx) (hf a m' h)
  | error stop m' =>
    rw [final_bind_of_error h]
    exact final_of_error h ▸ hx

@[simp] theorem final_ofExcept {result : Except RuntimeError α} : (ofExcept result).final m = m := by
  cases result <;> rfl

@[simp] theorem final_read {context : Context} {id : ExprId} {name : Token} :
    (read context id name).final m = m := by
  unfold final read
  cases context.access.get? m.frames m.current id name.lexeme <;> rfl

end

/-! ### The elementary steps -/

section
variable {context : Context} {m : Machine} {α : Type}

theorem assign_apply (id : ExprId) (name : Token) (v : Value) :
    Eval.assign context id name v m =
      match context.access.assign? m.frames m.current id name.lexeme v with
      | some frames => .ok () { m with frames }
      | none => .error (.failed (.undefined name)) m := rfl

theorem define_apply (name : Token) (v : Value) :
    Eval.define name v m = .ok () { m with frames := m.frames.define m.current name.lexeme v } := rfl

theorem declare_apply (decl : FunctionDecl) :
    Eval.declare decl m = .ok () { m with
      frames := m.frames.define m.current decl.name.lexeme (.function ⟨m.nextIdentity, decl, m.current⟩)
      nextIdentity := m.nextIdentity + 1 } := rfl

theorem callHost_apply (f : HostFunction) (arguments : List Value) (paren : Token) :
    Eval.callHost context f arguments paren m =
      match context.host m.hostCalls f.key arguments with
      | .ok v => .ok v { m with hostCalls := m.hostCalls + 1 }
      | .error message => .error (.failed ⟨paren, .host message⟩) { m with hostCalls := m.hostCalls + 1 } := rfl

theorem printLine_apply (text : String) :
    Eval.printLine text m =
      match m.sink.write (text ++ "\n") with
      | (sink, none) => .ok () { m with sink }
      | (sink, some fault) => .error (.sink fault) { m with sink } := rfl

theorem inFrame_apply (frame : Frame) (step : Eval α) :
    Eval.inFrame frame step m =
      match step { m with frames := m.frames.push frame, current := m.frames.next } with
      | .ok a m' => .ok a { m' with current := m.current }
      | .error stop m' => .error stop { m' with current := m.current } := rfl

theorem asCall_apply (paren : Token) (step : Eval α) :
    Eval.asCall paren step m =
      if maxDepth ≤ m.depth then .error (.failed ⟨paren, .stackOverflow⟩) m
      else
        match step { m with depth := m.depth + 1 } with
        | .ok a m' => .ok a { m' with depth := m'.depth - 1 }
        | .error stop m' => .error stop { m' with depth := m'.depth - 1 } := rfl

theorem inFrame_ok {frame : Frame} {x : Eval α} {a : α} {m' : Machine} (h : inFrame frame x m = .ok a m') :
    ∃ m₁, x { m with frames := m.frames.push frame, current := m.frames.next } = .ok a m₁ := by
  rw [inFrame_apply] at h
  cases hx : x { m with frames := m.frames.push frame, current := m.frames.next } with
  | ok b m₁ =>
    rw [hx] at h
    cases h
    exact ⟨m₁, rfl⟩
  | error stop m₁ => simp [hx] at h

theorem final_callHost (f : HostFunction) (arguments : List Value) (paren : Token) :
    (Eval.callHost context f arguments paren).final m = { m with hostCalls := m.hostCalls + 1 } := by
  rw [final, callHost_apply]
  cases context.host m.hostCalls f.key arguments <;> rfl

theorem final_printLine (text : String) :
    (Eval.printLine text).final m = { m with sink := (m.sink.write (text ++ "\n")).1 } := by
  rw [final, printLine_apply]
  rcases m.sink.write (text ++ "\n") with ⟨sink, _ | fault⟩ <;> rfl

theorem final_inFrame (frame : Frame) (step : Eval α) :
    (Eval.inFrame frame step).final m =
      { step.final { m with frames := m.frames.push frame, current := m.frames.next } with current := m.current } := by
  rw [final, final, inFrame_apply]
  cases step { m with frames := m.frames.push frame, current := m.frames.next } <;> rfl

theorem final_asCall_of_le (paren : Token) (step : Eval α) (h : maxDepth ≤ m.depth) :
    (Eval.asCall paren step).final m = m := by rw [final, asCall_apply, if_pos h]

theorem final_asCall_of_lt (paren : Token) (step : Eval α) (h : m.depth < maxDepth) :
    (Eval.asCall paren step).final m =
      { step.final { m with depth := m.depth + 1 } with
        depth := (step.final { m with depth := m.depth + 1 }).depth - 1 } := by
  rw [final, final, asCall_apply, if_neg (Nat.not_le_of_lt h)]
  cases step { m with depth := m.depth + 1 } <;> rfl

end

/-! ### What the elementary steps respect -/

/-- A relation between an earlier and a later machine that the elementary steps respect. -/
structure Respected (context : Context) (R : Machine → Machine → Prop) : Prop where
  refl : ∀ m, R m m
  trans : ∀ {m m' m''}, R m m' → R m' m'' → R m m''
  assign : ∀ {m id name v frames}, context.access.assign? m.frames m.current id name v = some frames →
    R m { m with frames }
  define : ∀ m name v, R m { m with frames := m.frames.define m.current name v }
  identity : ∀ m, R m { m with nextIdentity := m.nextIdentity + 1 }
  host : ∀ m, R m { m with hostCalls := m.hostCalls + 1 }
  print : ∀ m text, R m { m with sink := (m.sink.write text).1 }
  frame : ∀ {m frame m'}, R { m with frames := m.frames.push frame, current := m.frames.next } m' →
    R m { m' with current := m.current }
  call : ∀ {m m'}, R { m with depth := m.depth + 1 } m' → R m { m' with depth := m'.depth - 1 }

namespace Respected
variable {context : Context} {R : Machine → Machine → Prop} (H : Respected context R)
variable {α β : Type} {m : Machine}
include H

theorem bind {x : Eval α} {f : α → Eval β} (hx : R m (x.final m))
    (hf : ∀ a m', x m = .ok a m' → R m' ((f a).final m')) : R m ((x >>= f).final m) := final_bind H.trans hx hf

theorem assign_final (id : ExprId) (name : Token) (v : Value) :
    R m ((Eval.assign context id name v).final m) := by
  rw [final, assign_apply]
  split at * <;> rename_i h <;> split at h <;> cases h
  · rename_i h
    exact H.assign h
  · exact H.refl m

theorem declare_final (decl : FunctionDecl) : R m ((Eval.declare decl).final m) :=
  H.trans (H.define m decl.name.lexeme _) (H.identity _)

theorem callHost_final (f : HostFunction) (arguments : List Value) (paren : Token) :
    R m ((Eval.callHost context f arguments paren).final m) := by
  rw [final_callHost]
  exact H.host m

theorem printLine_final (text : String) : R m ((Eval.printLine text).final m) := by
  rw [final_printLine]
  exact H.print m (text ++ "\n")

theorem inFrame_final {frame : Frame} {step : Eval α}
    (h : R { m with frames := m.frames.push frame, current := m.frames.next }
      (step.final { m with frames := m.frames.push frame, current := m.frames.next })) :
    R m ((Eval.inFrame frame step).final m) := by
  rw [final_inFrame]
  exact H.frame h

theorem asCall_final {paren : Token} {step : Eval α}
    (h : R { m with depth := m.depth + 1 } (step.final { m with depth := m.depth + 1 })) :
    R m ((Eval.asCall paren step).final m) := by
  by_cases hdepth : m.depth < maxDepth
  · rw [final_asCall_of_lt paren step hdepth]
    exact H.call h
  · rw [final_asCall_of_le paren step (Nat.le_of_not_lt hdepth)]
    exact H.refl m

end Respected

/-! ### All of evaluation -/

/-- The relation holds between the machine before and the machine after, for every evaluation with
    this fuel. -/
structure Ends (context : Context) (R : Machine → Machine → Prop) (n : Nat) : Prop where
  expr : ∀ e m, R m ((Eval.expr context n e).final m)
  exprs : ∀ done es m, R m ((Eval.exprs context n done es).final m)
  call : ∀ f arguments paren m, R m ((Eval.call context n f arguments paren).final m)
  invoke : ∀ f arguments paren m, R m ((Eval.invoke context n f arguments paren).final m)
  stmt : ∀ s m, R m ((Eval.stmt context n s).final m)
  stmts : ∀ ss m, R m ((Eval.stmts context n ss).final m)
  loop : ∀ condition body m, R m ((Eval.loop context n condition body).final m)

namespace Respected
variable {context : Context} {R : Machine → Machine → Prop} (H : Respected context R) {n : Nat}
include H

theorem expr_final (ih : Ends context R n) (e : Expr) (m : Machine) :
    R m ((Eval.expr context (n + 1) e).final m) := by
  cases e with
  | literal v => exact H.refl m
  | grouping e => exact ih.expr e m
  | unary operator right =>
    refine H.bind (ih.expr right m) fun v m' _ => ?_
    rw [final_ofExcept]
    exact H.refl m'
  | binary left operator right =>
    refine H.bind (ih.expr left m) fun l m' _ => H.bind (ih.expr right m') fun r m'' _ => ?_
    rw [final_ofExcept]
    exact H.refl m''
  | logical left operator right =>
    refine H.bind (ih.expr left m) fun l m' _ => ?_
    split
    · exact H.refl m'
    · exact ih.expr right m'
  | var id name =>
    have h : (Eval.expr context (n + 1) (.var id name)).final m = m := final_read
    exact h.symm ▸ H.refl m
  | assign id name value =>
    refine H.bind (ih.expr value m) fun v m' _ => H.bind (H.assign_final id name v) fun _ m'' _ => ?_
    exact H.refl m''
  | call callee paren arguments =>
    refine H.bind (ih.expr callee m) fun f m' _ => H.bind (ih.exprs #[] arguments m') fun vs m'' _ => ?_
    exact ih.call f vs.toList paren m''

theorem exprs_final (ih : Ends context R n) (done : Array Value) (es : List Expr) (m : Machine) :
    R m ((Eval.exprs context (n + 1) done es).final m) := by
  cases es with
  | nil => exact H.refl m
  | cons e rest => exact H.bind (ih.expr e m) fun v m' _ => ih.exprs (done.push v) rest m'

theorem call_final (ih : Ends context R n) (f : Value) (arguments : List Value) (paren : Token)
    (m : Machine) : R m ((Eval.call context (n + 1) f arguments paren).final m) := by
  rw [Eval.call]
  split
  · exact H.refl m
  · split
    · exact H.refl m
    · exact H.asCall_final (ih.invoke f arguments paren _)

theorem invoke_final (ih : Ends context R n) (f : Value) (arguments : List Value) (paren : Token)
    (m : Machine) : R m ((Eval.invoke context (n + 1) f arguments paren).final m) := by
  cases f with
  | host f => exact H.callHost_final f arguments paren
  | function f => exact H.bind (H.inFrame_final (ih.stmts f.decl.body _)) fun flow m' _ => H.refl m'
  | nil | bool _ | number _ | string _ => exact H.refl m

theorem stmt_final (ih : Ends context R n) (s : Stmt) (m : Machine) :
    R m ((Eval.stmt context (n + 1) s).final m) := by
  cases s with
  | expression e => exact H.bind (ih.expr e m) fun _ m' _ => H.refl m'
  | print e =>
    exact H.bind (ih.expr e m) fun v m' _ => H.bind (H.printLine_final v.display) fun _ m'' _ => H.refl m''
  | var name initializer =>
    cases initializer with
    | none => exact H.bind (H.define m name.lexeme .nil) fun _ m' _ => H.refl m'
    | some e =>
      exact H.bind (ih.expr e m) fun v m' _ => H.bind (H.define m' name.lexeme v) fun _ m'' _ => H.refl m''
  | block body => exact H.inFrame_final (ih.stmts body _)
  | branch condition yes no =>
    refine H.bind (ih.expr condition m) fun v m' _ => ?_
    split
    · exact ih.stmt yes m'
    · cases no with
      | none => exact H.refl m'
      | some s => exact ih.stmt s m'
  | loop condition body => exact ih.loop condition body m
  | function name parameters body =>
    exact H.bind (H.declare_final ⟨name, parameters, body⟩) fun _ m' _ => H.refl m'
  | ret keyword value =>
    cases value with
    | none => exact H.refl m
    | some e => exact H.bind (ih.expr e m) fun v m' _ => H.refl m'

theorem stmts_final (ih : Ends context R n) (ss : List Stmt) (m : Machine) :
    R m ((Eval.stmts context (n + 1) ss).final m) := by
  cases ss with
  | nil => exact H.refl m
  | cons s rest =>
    refine H.bind (ih.stmt s m) fun flow m' _ => ?_
    cases flow with
    | normal => exact ih.stmts rest m'
    | returned v => exact H.refl m'

theorem loop_final (ih : Ends context R n) (condition : Expr) (body : Stmt) (m : Machine) :
    R m ((Eval.loop context (n + 1) condition body).final m) := by
  refine H.bind (ih.expr condition m) fun v m' _ => ?_
  split
  · refine H.bind (ih.stmt body m') fun flow m'' _ => ?_
    cases flow with
    | normal => exact ih.loop condition body m''
    | returned v => exact H.refl m''
  · exact H.refl m'

/-- What the elementary steps respect holds of all of evaluation. -/
theorem ends : ∀ n, Ends context R n
  | 0 => by constructor <;> intros <;> exact H.refl _
  | n + 1 =>
    have ih := ends n
    ⟨H.expr_final ih, H.exprs_final ih, H.call_final ih, H.invoke_final ih, H.stmt_final ih, H.stmts_final ih,
      H.loop_final ih⟩

theorem program_final (n : Nat) : ∀ (ss : List Stmt) (m : Machine), R m ((Eval.program context n ss).final m)
  | [], m => H.refl m
  | s :: rest, m => H.bind ((H.ends n).stmt s m) fun _ m' _ => program_final n rest m'

end Respected
end Eval

/-! ### What always stays -/

/-- A value that a reference stands for is bound in a frame. -/
theorem Access.get?_here? {access : Access} {fs : Frames} {current : FrameId} {id : ExprId} {name : String} {v : Value}
    (h : access.get? fs current id name = some v) : ∃ g, fs.here? g name = some v := by
  unfold Access.get? at h
  split at h
  · split at h
    · obtain ⟨g, -, hg⟩ := Frames.getAt?_eq_some h
      exact ⟨g, hg⟩
    · obtain ⟨g, -, hg⟩ := Frames.get?_eq_some h
      exact ⟨g, hg⟩
  · obtain ⟨g, -, hg⟩ := Frames.get?_eq_some h
    exact ⟨g, hg⟩

/-- Changing what a reference stands for changes one binding, which was there. -/
theorem Access.assign?_eq_define {access : Access} {fs fs' : Frames} {current : FrameId} {id : ExprId} {name : String}
    {v : Value} (h : access.assign? fs current id name v = some fs') :
    ∃ g, (fs.here? g name).isSome ∧ fs' = fs.define g name v := by
  unfold Access.assign? at h
  split at h
  · split at h
    · obtain ⟨g, -, hb, rfl⟩ := Frames.assignAt?_eq_some h
      exact ⟨g, hb, rfl⟩
    · obtain ⟨g, -, hb, rfl⟩ := Frames.assign?_eq_some h
      exact ⟨g, hb, rfl⟩
  · obtain ⟨g, -, hb, rfl⟩ := Frames.assign?_eq_some h
    exact ⟨g, hb, rfl⟩

/-- The current frame and the number of active calls are as before, and frames only grow. -/
structure Machine.Keeps (m m' : Machine) : Prop where
  current : m'.current = m.current
  depth : m'.depth = m.depth
  frames : m.frames.Grows m'.frames

namespace Machine.Keeps

theorem of_eq {m m' : Machine} (hc : m'.current = m.current) (hd : m'.depth = m.depth)
    (hf : m'.frames = m.frames) : m.Keeps m' := ⟨hc, hd, hf ▸ .refl _⟩

theorem trans {m m' m'' : Machine} (h : m.Keeps m') (h' : m'.Keeps m'') : m.Keeps m'' :=
  ⟨h'.current.trans h.current, h'.depth.trans h.depth, h.frames.trans h'.frames⟩

theorem current_lt {m m' : Machine} (h : m.Keeps m') (hm : m.current < m.frames.next) : m'.current < m'.frames.next :=
  h.current ▸ Nat.lt_of_lt_of_le hm h.frames.next

theorem respected (context : Context) : Eval.Respected context Machine.Keeps where
  refl m := of_eq rfl rfl rfl
  trans := trans
  assign h := by
    obtain ⟨g, -, rfl⟩ := Access.assign?_eq_define h
    exact ⟨rfl, rfl, .define⟩
  define m name v := ⟨rfl, rfl, .define⟩
  identity m := of_eq rfl rfl rfl
  host m := of_eq rfl rfl rfl
  print m text := of_eq rfl rfl rfl
  frame h := ⟨rfl, h.depth, Frames.Grows.push.trans h.frames⟩
  call h := ⟨h.current, by simp [h.depth], h.frames⟩

end Machine.Keeps
end Lox
