import Lox.Proofs.Evaluation.Stops
import Lox.Proofs.Scopes

/-! # What evaluation binds

Blocks and calls bind names in new frames, and an assignment only changes what is bound. So evaluation binds no
name in a frame that was there before, but for the names that a statement declares where it stands, in the current
frame (`binding`). A declaration that comes to its end has bound its name, and one that does not has bound nothing
(`stmt_bound`, `declaration_binds`). -/

namespace Lox

/-- The frames of before still bind their names, and of others only the current one binds any, and only these. -/
structure Machine.Binds (names : List String) (m m' : Machine) : Prop where
  keeps : m.Keeps m'
  names : ∀ f name, f < m.frames.next → (m'.frames.here? f name).isSome →
    (m.frames.here? f name).isSome ∨ f = m.current ∧ name ∈ names

namespace Machine.Binds
variable {names names' : List String} {m m' m'' : Machine}

theorem refl (names : List String) (m : Machine) : m.Binds names m := ⟨.of_eq rfl rfl rfl, fun _ _ _ h => .inl h⟩

theorem mono (h : m.Binds names m') (hsub : ∀ n ∈ names, n ∈ names') : m.Binds names' m' where
  keeps := h.keeps
  names f name hf hn := (h.names f name hf hn).imp_right fun ⟨hcurrent, hmem⟩ => ⟨hcurrent, hsub name hmem⟩

theorem of_nil (h : m.Binds [] m') : m.Binds names m' := h.mono nofun

theorem trans (h : m.Binds names m') (h' : m'.Binds names m'') : m.Binds names m'' where
  keeps := h.keeps.trans h'.keeps
  names f name hf hn := by
    rcases h'.names f name (Nat.lt_of_lt_of_le hf h.keeps.frames.next) hn with hn | ⟨hcurrent, hmem⟩
    · exact h.names f name hf hn
    · exact .inr ⟨hcurrent.trans h.keeps.current, hmem⟩

/-- Nothing but the frames matters. -/
theorem of_frames (h : m.Keeps m') (hframes : m'.frames = m.frames) : m.Binds [] m' :=
  ⟨h, fun _ _ _ hn => .inl (hframes ▸ hn)⟩

theorem identity (m : Machine) : m.Binds [] { m with nextIdentity := m.nextIdentity + 1 } :=
  .of_frames (.of_eq rfl rfl rfl) rfl

theorem define (m : Machine) (name : String) (v : Value) :
    m.Binds [name] { m with frames := m.frames.define m.current name v } where
  keeps := ⟨rfl, rfl, .define⟩
  names f n _ hn := by
    rw [Frames.here?_define] at hn
    split at hn
    · rename_i hcase
      exact .inr ⟨hcase.1, List.mem_singleton.mpr hcase.2.1⟩
    · exact .inl hn

/-- Changing a binding makes none. -/
theorem change {g : FrameId} {name : String} (hg : (m.frames.here? g name).isSome) (v : Value) :
    m.Binds [] { m with frames := m.frames.define g name v } where
  keeps := ⟨rfl, rfl, .define⟩
  names f n _ hn := by
    rw [Frames.here?_define] at hn
    split at hn
    · rename_i hcase
      obtain ⟨rfl, rfl, -⟩ := hcase
      exact .inl hg
    · exact .inl hn

/-- What is bound in a new frame is bound in none of before. -/
theorem enter {frame : Frame} (h : Binds names { m with frames := m.frames.push frame, current := m.frames.next } m') :
    m.Binds [] { m' with current := m.current } where
  keeps := ⟨rfl, h.keeps.depth, Frames.Grows.push.trans h.keeps.frames⟩
  names f n hf hn := by
    have hne : f ≠ m.frames.next := Nat.ne_of_lt hf
    rcases h.names f n (Nat.lt_of_lt_of_le hf Frames.Grows.push.next) hn with hn | ⟨hcurrent, -⟩
    · rw [Frames.here?_push, if_neg hne] at hn
      exact .inl hn
    · exact absurd hcurrent hne

theorem call (h : Binds [] { m with depth := m.depth + 1 } m') : m.Binds [] { m' with depth := m'.depth - 1 } where
  keeps := ⟨h.keeps.current, congrArg (· - 1) h.keeps.depth, h.keeps.frames⟩
  names := h.names

end Machine.Binds

namespace Eval
open Machine

section
variable {c : Context} {m : Machine} {α β : Type} {names : List String}

/-! ### The elementary steps -/

theorem bind_binds {x : Eval α} {f : α → Eval β} (hx : m.Binds names (x.final m))
    (hf : ∀ a m', x m = .ok a m' → m'.Binds names ((f a).final m')) : m.Binds names ((x >>= f).final m) :=
  final_bind Binds.trans hx hf

theorem assign_binds (id : ExprId) (name : Token) (v : Value) : m.Binds [] ((Eval.assign c id name v).final m) := by
  rw [final, assign_apply]
  split at * <;> rename_i h <;> split at h <;> cases h
  · rename_i h
    obtain ⟨g, hg, rfl⟩ := Access.assign?_eq_define h
    exact .change hg v
  · exact .refl [] m

theorem declare_binds (decl : FunctionDecl) : m.Binds [decl.name.lexeme] ((Eval.declare decl).final m) := by
  rw [final_of_ok (declare_apply decl)]
  exact (Binds.define m decl.name.lexeme _).trans (Binds.identity _).of_nil

theorem callHost_binds (f : HostFunction) (arguments : List Value) (paren : Token) :
    m.Binds [] ((Eval.callHost c f arguments paren).final m) := by
  rw [final_callHost]
  exact .of_frames (.of_eq rfl rfl rfl) rfl

theorem printLine_binds (text : String) : m.Binds [] ((Eval.printLine text).final m) := by
  rw [final_printLine]
  exact .of_frames (.of_eq rfl rfl rfl) rfl

theorem inFrame_binds {frame : Frame} {step : Eval α}
    (h : Binds names { m with frames := m.frames.push frame, current := m.frames.next }
      (step.final { m with frames := m.frames.push frame, current := m.frames.next })) :
    m.Binds [] ((Eval.inFrame frame step).final m) := by
  rw [final_inFrame]
  exact h.enter

theorem asCall_binds {paren : Token} {step : Eval α}
    (h : Binds [] { m with depth := m.depth + 1 } (step.final { m with depth := m.depth + 1 })) :
    m.Binds [] ((Eval.asCall paren step).final m) := by
  by_cases hdepth : m.depth < maxDepth
  · rw [final_asCall_of_lt paren step hdepth]
    exact h.call
  · rw [final_asCall_of_le paren step (Nat.le_of_not_lt hdepth)]
    exact .refl [] m

end

/-! ### All of evaluation -/

/-- With this fuel, expressions bind nothing, and statements what they declare where they stand. -/
structure Binding (c : Context) (n : Nat) : Prop where
  expr : ∀ e (m : Machine), m.Binds [] ((Eval.expr c n e).final m)
  exprs : ∀ done es (m : Machine), m.Binds [] ((Eval.exprs c n done es).final m)
  call : ∀ f arguments paren (m : Machine), m.Binds [] ((Eval.call c n f arguments paren).final m)
  invoke : ∀ f arguments paren (m : Machine), m.Binds [] ((Eval.invoke c n f arguments paren).final m)
  stmt : ∀ s (m : Machine), m.Binds s.declares ((Eval.stmt c n s).final m)
  stmts : ∀ ss (m : Machine), m.Binds (Stmt.declaresAll ss) ((Eval.stmts c n ss).final m)
  loop : ∀ condition body (m : Machine), m.Binds body.declares ((Eval.loop c n condition body).final m)

namespace Binding
variable {c : Context} {n : Nat} (ih : Binding c n)
include ih

theorem expr_succ (e : Expr) (m : Machine) : m.Binds [] ((Eval.expr c (n + 1) e).final m) := by
  cases e with
  | literal v => exact .refl [] m
  | grouping e => exact ih.expr e m
  | unary operator right =>
    refine bind_binds (ih.expr right m) fun v m' _ => ?_
    rw [final_ofExcept]
    exact .refl [] m'
  | binary left operator right =>
    refine bind_binds (ih.expr left m) fun l m' _ => bind_binds (ih.expr right m') fun r m'' _ => ?_
    rw [final_ofExcept]
    exact .refl [] m''
  | logical left operator right =>
    refine bind_binds (ih.expr left m) fun l m' _ => ?_
    split
    · exact .refl [] m'
    · exact ih.expr right m'
  | var id name =>
    have h : (Eval.expr c (n + 1) (.var id name)).final m = m := final_read
    exact h.symm ▸ .refl [] m
  | assign id name value =>
    exact bind_binds (ih.expr value m) fun v m' _ => bind_binds (assign_binds id name v) fun _ m'' _ => .refl [] m''
  | call callee paren arguments =>
    refine bind_binds (ih.expr callee m) fun f m' _ => bind_binds (ih.exprs #[] arguments m') fun vs m'' _ => ?_
    exact ih.call f vs.toList paren m''

theorem exprs_succ (done : Array Value) (es : List Expr) (m : Machine) :
    m.Binds [] ((Eval.exprs c (n + 1) done es).final m) := by
  cases es with
  | nil => exact .refl [] m
  | cons e rest => exact bind_binds (ih.expr e m) fun v m' _ => ih.exprs (done.push v) rest m'

theorem call_succ (f : Value) (arguments : List Value) (paren : Token) (m : Machine) :
    m.Binds [] ((Eval.call c (n + 1) f arguments paren).final m) := by
  rw [Eval.call]
  split
  · exact .refl [] m
  · split
    · exact .refl [] m
    · exact asCall_binds (ih.invoke f arguments paren _)

theorem invoke_succ (f : Value) (arguments : List Value) (paren : Token) (m : Machine) :
    m.Binds [] ((Eval.invoke c (n + 1) f arguments paren).final m) := by
  cases f with
  | host f => exact callHost_binds f arguments paren
  | function f => exact bind_binds (inFrame_binds (ih.stmts f.decl.body _)) fun flow m' _ => .refl [] m'
  | nil | bool _ | number _ | string _ => exact .refl [] m

theorem stmt_succ (s : Stmt) (m : Machine) : m.Binds s.declares ((Eval.stmt c (n + 1) s).final m) := by
  cases s with
  | expression e => exact bind_binds (ih.expr e m) fun _ m' _ => .refl [] m'
  | print e =>
    exact bind_binds (ih.expr e m) fun v m' _ => bind_binds (printLine_binds v.display) fun _ m'' _ => .refl [] m''
  | var name initializer =>
    cases initializer with
    | none => exact bind_binds (Binds.define m name.lexeme .nil) fun _ m' _ => .refl _ m'
    | some e =>
      exact bind_binds (ih.expr e m).of_nil fun v m' _ =>
        bind_binds (Binds.define m' name.lexeme v) fun _ m'' _ => .refl _ m''
  | block body => exact inFrame_binds (ih.stmts body _)
  | branch condition yes no =>
    refine bind_binds (ih.expr condition m).of_nil fun v m' _ => ?_
    split
    · exact (ih.stmt yes m').mono fun _ hn => List.mem_append_left _ hn
    · cases no with
      | none => exact .refl _ m'
      | some s => exact (ih.stmt s m').mono fun _ hn => List.mem_append_right _ hn
  | loop condition body => exact ih.loop condition body m
  | function name parameters body => exact bind_binds (declare_binds ⟨name, parameters, body⟩) fun _ m' _ => .refl _ m'
  | ret keyword value =>
    cases value with
    | none => exact .refl [] m
    | some e => exact bind_binds (ih.expr e m) fun v m' _ => .refl [] m'

theorem stmts_succ (ss : List Stmt) (m : Machine) :
    m.Binds (Stmt.declaresAll ss) ((Eval.stmts c (n + 1) ss).final m) := by
  cases ss with
  | nil => exact .refl [] m
  | cons s rest =>
    refine bind_binds ((ih.stmt s m).mono fun _ hn => List.mem_append_left _ hn) fun flow m' _ => ?_
    cases flow with
    | normal => exact (ih.stmts rest m').mono fun _ hn => List.mem_append_right _ hn
    | returned v => exact .refl _ m'

theorem loop_succ (condition : Expr) (body : Stmt) (m : Machine) :
    m.Binds body.declares ((Eval.loop c (n + 1) condition body).final m) := by
  refine bind_binds (ih.expr condition m).of_nil fun v m' _ => ?_
  split
  · refine bind_binds (ih.stmt body m') fun flow m'' _ => ?_
    cases flow with
    | normal => exact ih.loop condition body m''
    | returned v => exact .refl _ m''
  · exact .refl _ m'

end Binding

theorem binding (c : Context) : ∀ n, Binding c n
  | 0 => by constructor <;> intros <;> exact .refl _ _
  | n + 1 =>
    have ih := binding c n
    ⟨ih.expr_succ, ih.exprs_succ, ih.call_succ, ih.invoke_succ, ih.stmt_succ, ih.stmts_succ, ih.loop_succ⟩

/-! ### Declarations -/

section
variable {c : Context} {n : Nat} {s : Stmt} {m m' : Machine}

/-- A declaration that comes to its end has bound its name. -/
theorem stmt_bound {flow : Flow} (hs : s.isDeclaration = true) (hcurrent : m.current < m.frames.next)
    (h : Eval.stmt c n s m = .ok flow m') : ∀ name ∈ s.declares, (m'.frames.here? m'.current name).isSome := by
  have hdefined : ∀ {m : Machine} {name : String} {v : Value}, m.current < m.frames.next →
      ((m.frames.define m.current name v).here? m.current name).isSome := by
    intro m name v hlt
    rw [Frames.here?_define, if_pos ⟨rfl, rfl, hlt⟩]
    rfl
  cases n with
  | zero => cases h
  | succ n =>
    cases s with
    | var name initializer =>
      intro x hx
      obtain rfl := List.mem_singleton.mp hx
      cases initializer with
      | none =>
        cases h
        exact hdefined hcurrent
      | some e =>
        obtain ⟨v, m₁, he, h⟩ := bind_ok h
        have hkeeps : m.Keeps m₁ := final_of_ok he ▸ ((binding c n).expr e m).keeps
        cases h
        exact hdefined (hkeeps.current_lt hcurrent)
    | function name parameters body =>
      intro x hx
      obtain rfl := List.mem_singleton.mp hx
      cases h
      exact hdefined hcurrent
    | _ => cases hs

/-- A declaration that stops has not bound its name. -/
theorem declaration_binds {stop : Stop} (hs : s.isDeclaration = true) (h : Eval.stmt c n s m = .error stop m') :
    m.Binds [] m' := by
  cases n with
  | zero =>
    cases h
    exact .refl [] _
  | succ n =>
    cases s with
    | var name initializer =>
      cases initializer with
      | none => cases h
      | some e =>
        rcases bind_error h with he | ⟨v, m₁, -, h⟩
        · exact final_of_error he ▸ (binding c n).expr e m
        · cases h
    | function name parameters body => cases h
    | _ => cases hs

end

end Eval
end Lox
