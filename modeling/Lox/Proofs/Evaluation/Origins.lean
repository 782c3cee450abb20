import Lox.Proofs.Evaluation.Invariants

/-! # Where functions come from

All functions of a program come from declarations that were executed. So a condition that the declarations in a
program meet, those inside of others too, is met by the declaration of every function that evaluation yields or
leaves in a frame, if it was met in the frames before and the host keeps to it (`obeying_stable`). -/

namespace Lox

/-- A function that meets the condition has only such functions inside. -/
def FunctionDecl.Inherited (D : FunctionDecl → Prop) : Prop := ∀ d, D d → ∀ inner ∈ Stmt.declsAll d.body, D inner

/-! ### Values and frames -/

/-- If the value is a function of the program, its declaration meets the condition. -/
def Value.Obeys (D : FunctionDecl → Prop) (v : Value) : Prop := ∀ f, v = .function f → D f.decl

/-- All values that are bound in a frame obey the condition. -/
def Frames.Obey (D : FunctionDecl → Prop) (fs : Frames) : Prop := ∀ f name v, fs.here? f name = some v → v.Obeys D

/-- The host yields nothing that disobeys the condition, unless it is given such a thing. -/
def Host.Obeys (D : FunctionDecl → Prop) (host : Host) : Prop :=
  ∀ n key arguments v, host n key arguments = .ok v → (∀ u ∈ arguments, u.Obeys D) → v.Obeys D

section
variable {D : FunctionDecl → Prop} {fs : Frames} {v : Value}

/-- A host that yields only functions it is given obeys every condition. -/
theorem Host.Honest.obeys {host : Host} (h : host.Honest) : host.Obeys D := by
  rintro n key arguments v hv hargs f rfl
  exact hargs _ (h n key arguments f hv) f rfl

theorem Frames.Obey.mono {D' : FunctionDecl → Prop} (h : fs.Obey D) (hD : ∀ d, D d → D' d) : fs.Obey D' :=
  fun f name v hv c hc => hD _ (h f name v hv c hc)

theorem Frames.Obey.define {f : FrameId} {name : String} (h : fs.Obey D) (hv : v.Obeys D) :
    (fs.define f name v).Obey D := by
  intro g n u hu
  rw [Frames.here?_define] at hu
  split at hu
  · cases hu
    exact hv
  · exact h g n u hu

theorem Frames.Obey.push {frame : Frame} (h : fs.Obey D) (hframe : ∀ name v, frame.get? name = some v → v.Obeys D) :
    (fs.push frame).Obey D := by
  intro g n u hu
  rw [Frames.here?_push] at hu
  split at hu
  · exact hframe n u hu
  · exact h g n u hu

end

/-! ### The invariant -/

/-- The functions in frames obey the condition, at any stage. -/
def obeying (D : FunctionDecl → Prop) : Invariant Unit where
  before _ _ := True
  machine _ m := m.frames.Obey D
  value _ v := v.Obeys D
  function := D

theorem Frames.Obey.at_stage {D : FunctionDecl → Prop} {m : Machine} (h : m.frames.Obey D) :
    (obeying D).machine () m := h

section
variable {D : FunctionDecl → Prop} {c : Context} (hD : FunctionDecl.Inherited D) (hhost : c.host.Obeys D)
include hD hhost

theorem obeying_stable : (obeying D).Stable c where
  refl _ := trivial
  trans _ _ := trivial
  later _ h := h
  plain h f hv := absurd hv (h f)
  bound h hv := h _ _ _ hv
  quiet h hframes _ _ f name v hv := h f name v (hframes ▸ hv)
  define f name h hv := Frames.Obey.define h hv
  declare d h hd := ⟨(), trivial, Frames.Obey.define h fun f hf => by cases hf; exact hd⟩
  host hv hargs := hhost _ _ _ _ hv hargs
  block h := ⟨(), trivial, Frames.Obey.push h fun name v hv => by cases hv⟩
  call h _ hargs := ⟨(), trivial, Frames.Obey.push h fun name v hv => hargs v (Closure.of_get?_callFrame hv).2⟩
  leave _ _ h := h
  body hf := hD _ (hf _ rfl)

namespace Eval
variable {n : Nat} {m m' : Machine}

theorem expr_obeys {e : Expr} {v : Value} (h : m.frames.Obey D) (hv : Eval.expr c n e m = .ok v m') :
    m'.frames.Obey D ∧ v.Obeys D := by
  obtain ⟨_, -, hobey⟩ := (obeying_stable hD hhost).after_expr h.at_stage hv
  exact hobey

theorem exprs_obeys {es : List Expr} {vs : Array Value} (h : m.frames.Obey D)
    (hvs : Eval.exprs c n #[] es m = .ok vs m') : m'.frames.Obey D ∧ ∀ v ∈ vs.toList, v.Obeys D := by
  obtain ⟨_, -, hobey⟩ := (obeying_stable hD hhost).after_exprs h.at_stage hvs
  exact hobey

theorem stmt_obeys {s : Stmt} {flow : Flow} (h : m.frames.Obey D) (hdecls : ∀ d ∈ s.decls, D d)
    (hs : Eval.stmt c n s m = .ok flow m') : m'.frames.Obey D := by
  obtain ⟨_, -, hobey, -⟩ := (obeying_stable hD hhost).after_stmt h.at_stage hdecls hs
  exact hobey

theorem program_obeys (n : Nat) {program : List Stmt} (h : m.frames.Obey D)
    (hdecls : ∀ d ∈ Stmt.declsAll program, D d) :
    ((Eval.program c n program).final m).frames.Obey D := by
  obtain ⟨_, -, hobey, -⟩ := (obeying_stable hD hhost).program n h.at_stage hdecls
  exact hobey

end Eval
end
end Lox
