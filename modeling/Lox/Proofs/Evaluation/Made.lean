import Lox.Proofs.Evaluation.Invariants
import Mathlib.Data.List.Nodup

/-! # The functions that were made

Each execution of a declaration makes a new function, which gets the next identity. So there is a list of the
functions that were made in which identities are all different, and every function that evaluation yields or leaves in
a frame is in it, if the functions in the frames before were, and the host makes none (`making_stable`). It is so at
every moment that evaluation comes to (`Visits.keeps_made`): functions with the same identity are the same function. -/

namespace Lox

/-- If the value is a function of the program, it is one of these. -/
def Value.Among (made : List Closure) (v : Value) : Prop := ∀ f, v = .function f → f ∈ made

/-- These functions have identities that were given out, all different, and frames hold no others. -/
structure Machine.Made (made : List Closure) (m : Machine) : Prop where
  distinct : (made.map (·.identity)).Nodup
  given : ∀ f ∈ made, f.identity < m.nextIdentity
  values : ∀ f name v, m.frames.here? f name = some v → v.Among made

section
variable {made made' : List Closure} {v : Value} {m : Machine}

theorem Value.Among.mono (h : v.Among made) (hsub : made ⊆ made') : v.Among made' := fun f hf => hsub (h f hf)

/-- Functions with the same identity are the same. -/
theorem Value.Among.unique (hdistinct : (made.map (·.identity)).Nodup) {f g : Closure}
    (hf : (Value.function f).Among made) (hg : (Value.function g).Among made) (h : f.identity = g.identity) : f = g :=
  List.inj_on_of_nodup_map hdistinct (hf f rfl) (hg g rfl) h

namespace Machine.Made

/-- Only the frames and the next identity matter. -/
theorem congr {m' : Machine} (h : m.Made made) (hframes : m'.frames = m.frames)
    (hnext : m'.nextIdentity = m.nextIdentity) :
    m'.Made made :=
  ⟨h.distinct, hnext ▸ h.given, fun f name v hv => h.values f name v (hframes ▸ hv)⟩

theorem define {f : FrameId} {name : String} (h : m.Made made) (hv : v.Among made) :
    Machine.Made made { m with frames := m.frames.define f name v } where
  distinct := h.distinct
  given := h.given
  values g n u hu := by
    rw [Frames.here?_define] at hu
    split at hu
    · cases hu
      exact hv
    · exact h.values g n u hu

theorem push {frame : Frame} {current : FrameId} (h : m.Made made)
    (hframe : ∀ name v, frame.get? name = some v → v.Among made) :
    Machine.Made made { m with frames := m.frames.push frame, current } where
  distinct := h.distinct
  given := h.given
  values g n u hu := by
    rw [Frames.here?_push] at hu
    split at hu
    · exact hframe n u hu
    · exact h.values g n u hu

/-- A new function that is bound in a frame. -/
theorem declare {decl : FunctionDecl} {frame f : FrameId} {name : String} (h : m.Made made) :
    let made' := ⟨m.nextIdentity, decl, frame⟩ :: made
    Machine.Made made' { m with
      frames := m.frames.define f name (.function ⟨m.nextIdentity, decl, frame⟩)
      nextIdentity := m.nextIdentity + 1 } where
  distinct := by
    refine List.nodup_cons.mpr ⟨fun hmem => ?_, h.distinct⟩
    obtain ⟨f, hf, hidentity⟩ := List.mem_map.mp hmem
    exact Nat.ne_of_lt (h.given f hf) hidentity
  given := List.forall_mem_cons.mpr ⟨Nat.lt_succ_self _, fun f hf => Nat.lt_succ_of_lt (h.given f hf)⟩
  values g n u hu := by
    rw [Frames.here?_define] at hu
    split at hu
    · cases hu
      rintro _ ⟨⟩
      exact List.mem_cons_self
    · exact (h.values g n u hu).mono (List.subset_cons_self _ _)

end Machine.Made
end

/-! ### The invariant -/

/-- The functions that frames hold were made, and their identities are all different. More are made as time goes on. -/
def making : Invariant (List Closure) where
  before made made' := made ⊆ made'
  machine made m := m.Made made
  value made v := v.Among made
  function _ := True

theorem making_stable {c : Context} (hhost : c.host.Honest) : making.Stable c where
  refl := List.Subset.refl
  trans := List.Subset.trans
  later hsub h := h.mono hsub
  plain h f hf := absurd hf (h f)
  bound h hv := h.values _ _ _ hv
  quiet h hframes _ hnext := h.congr hframes hnext
  define f name h hv := h.define hv
  declare d h _ := ⟨_, List.subset_cons_self _ _, h.declare⟩
  host hv hargs f hf := by
    subst hf
    exact hargs _ (hhost _ _ _ _ hv) f rfl
  block h := ⟨_, List.Subset.refl _, h.push fun name v hv => by cases hv⟩
  call h _ hargs := ⟨_, List.Subset.refl _, h.push fun name v hv => hargs v (Closure.of_get?_callFrame hv).2⟩
  leave _ _ h := h.congr rfl rfl
  body _ _ _ := trivial

/-! ### Moments -/

/-- The functions that a task is begun with are among these. -/
def Task.Among (made : List Closure) : Task → Prop
  | .expr _ | .stmt _ | .stmts _ | .loop _ _ | .program _ => True
  | .exprs done _ => ∀ v ∈ done.toList, v.Among made
  | .store _ _ v => v.Among made
  | .call f arguments _ | .invoke f arguments _ => f.Among made ∧ ∀ v ∈ arguments, v.Among made

namespace Moment

/-- All functions of the machine and of the task are among these, which have different identities. -/
structure Made (made : List Closure) (mo : Moment) : Prop where
  machine : mo.machine.Made made
  task : mo.task.Among made

/-- At this moment an operator is evaluated, and these are the values of its two sides. -/
inductive Operands (c : Context) (operator : Token) (v w : Value) : Moment → Prop
  | binary {n left right m m' m''} (hleft : Eval.expr c n left m = .ok v m')
    (hright : Eval.expr c n right m' = .ok w m'') :
    Operands c operator v w ⟨n + 1, .expr (.binary left operator right), m⟩

section
variable {c : Context} {mo mo' : Moment} {made : List Closure}

theorem at_making_iff : making.At made mo ↔ mo.Made made := by
  have htask : ∀ task : Task, making.task made task ↔ task.Among made := fun task => by
    cases task <;> simp [Invariant.task, Task.Among, making]
  exact ⟨fun h => ⟨h.machine, (htask _).mp h.task⟩, fun h => ⟨h.machine, (htask _).mpr h.task⟩⟩

variable (hhost : c.host.Honest)
include hhost

theorem Visits.keeps_made (h : Visits c mo mo') (hmo : mo.Made made) : ∃ made', mo'.Made made' := by
  obtain ⟨made', -, hmo'⟩ := (making_stable hhost).visits h (at_making_iff.mpr hmo)
  exact ⟨made', at_making_iff.mp hmo'⟩

/-- The values of the two sides of an operator are among the functions that were made up to then. -/
theorem Operands.among {operator : Token} {v w : Value} (h : mo.Operands c operator v w) (hmo : mo.Made made) :
    ∃ made' : List Closure, (made'.map (·.identity)).Nodup ∧ v.Among made' ∧ w.Among made' := by
  cases h with
  | binary hleft hright =>
    obtain ⟨made', -, hm', hv⟩ := (making_stable hhost).after_expr hmo.machine hleft
    obtain ⟨made'', hsub, hm'', hw⟩ := (making_stable hhost).after_expr hm' hright
    exact ⟨made'', hm''.distinct, hv.mono hsub, hw⟩

end
end Moment
end Lox
