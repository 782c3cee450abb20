import Lox.Proofs.Evaluation.Indistinct
import Lox.Proofs.Likeness.Trees

/-! # Values of like programs

Functions of two like programs are like when they are the same function but for its declaration, and the
declarations are like (`Closure.Like`). Neither operators nor output tell like values apart, and errors of
operators are at tokens that stand for each other. A host that looks at no declaration of a function, as
`Host.withTime`, does not tell them apart either (`Host.Uniform`). -/

namespace Lox

structure FunctionDecl.Like (L : Likeness) (decl decl' : FunctionDecl) : Prop where
  name : L.token decl.name decl'.name
  parameters : List.Forall₂ L.token decl.parameters decl'.parameters
  body : Stmt.LikeAll L decl.body decl'.body

/-- The same function, up to its declaration. -/
structure Closure.Like (L : Likeness) (c c' : Closure) : Prop where
  identity : c'.identity = c.identity
  frame : c'.frame = c.frame
  decl : c.decl.Like L c'.decl

/-- The same value, or like functions. -/
abbrev Value.Like (L : Likeness) : Value → Value → Prop := Value.Through (Closure.Like L)

abbrev Flow.Like (L : Likeness) : Flow → Flow → Prop := Flow.Through (Closure.Like L)

/-- The same cause, at tokens that stand for each other. -/
structure RuntimeError.Like (L : Likeness) (e e' : RuntimeError) : Prop where
  token : L.token e.token e'.token
  cause : e'.cause = e.cause

/-- Calls of the host with like arguments fail with the same message or yield like values: what a function of
    the host does depends on its arguments, but not on what identities and lines declarations have. -/
def Host.Uniform (host : Host) : Prop := ∀ (L : Likeness) (n : Nat) (key : String) {arguments arguments' : List Value},
  List.Forall₂ (Value.Like L) arguments arguments' →
    Outcome.Like Eq (Value.Like L) (host n key arguments) (host n key arguments')

section
variable {L L' : Likeness}

/-! ### Other likenesses -/

theorem Value.Like.mono (htoken : L'.Admits L) (hid : ∀ {a a' : ExprId}, L.id a a' → L'.id a a') {v v' : Value}
    (h : v.Like L v') : v.Like L' v' := by
  cases h with
  | plain h => exact .plain h
  | function h =>
    obtain ⟨hname, hparameters, hbody⟩ := h.decl
    exact .function ⟨h.identity, h.frame, htoken hname, htoken.parameters hparameters, hbody.mono htoken hid⟩

/-! ### What is seen of a value -/

theorem Closure.Like.indistinct {c c' : Closure} (h : c.Like L c') : c.Indistinct c' :=
  ⟨h.identity, L.lexeme_eq h.decl.name, h.decl.parameters.length_eq.symm⟩

namespace Value.Like
variable {v v' : Value}

theorem indistinct (h : v.Like L v') : v.Indistinct v' := Through.mono h Closure.Like.indistinct

theorem refl (hL : L.Reflexive) (v : Value) : v.Like L v := by
  cases v with
  | function c => exact .function ⟨rfl, rfl, ⟨hL.token _, hL.parameters _, .refl hL _⟩⟩
  | nil | bool _ | number _ | string _ | host _ => exact .plain nofun

end Value.Like

/-! ### Operators -/

namespace Operator

/-- Operators yield like values, or errors at tokens that stand for each other. -/
abbrev SameOutcome (L : Likeness) : Except RuntimeError Value → Except RuntimeError Value → Prop :=
  Outcome.Like (RuntimeError.Like L) (Value.Like L)

variable {operator operator' : Token} {l l' v v' : Value}

theorem negate_like (hop : L.token operator operator') (h : v.Like L v') :
    SameOutcome L (negate operator v) (negate operator' v') := by
  cases h with
  | plain _ =>
    cases v with
    | number x => exact .ok (.number _)
    | nil | bool _ | string _ | function _ | host _ => exact .error ⟨hop, rfl⟩
  | function _ => exact .error ⟨hop, rfl⟩

theorem unary_like (hop : L.token operator operator') (h : v.Like L v') :
    SameOutcome L (unary operator v) (unary operator' v') := by
  unfold unary
  rw [L.kind_eq hop, h.indistinct.isTruthy_eq]
  split
  · exact negate_like hop h
  · exact .ok (.bool _)
  · exact .error ⟨hop, rfl⟩

theorem add_like (hop : L.token operator operator') (hl : l.Like L l') (h : v.Like L v') :
    SameOutcome L (add operator l v) (add operator' l' v') := by
  cases hl with
  | plain _ =>
    cases h with
    | plain _ =>
      unfold add
      split
      · exact .ok (.number _)
      · exact .ok (.string _)
      · exact .error ⟨hop, rfl⟩
    | function _ => cases l <;> exact .error ⟨hop, rfl⟩
  | function _ => cases h <;> exact .error ⟨hop, rfl⟩

theorem compute_like (hop : L.token operator operator') (hl : l.Like L l') (h : v.Like L v') :
    SameOutcome L (compute operator l v) (compute operator' l' v') := by
  cases hl with
  | plain _ =>
    cases h with
    | plain _ =>
      unfold compute
      rw [L.kind_eq hop]
      split
      · split
        · rename_i hv
          exact .ok (.plain (isPlain_numeric? hv))
        · exact .error ⟨hop, rfl⟩
      · exact .error ⟨hop, rfl⟩
    | function _ => cases l <;> exact .error ⟨hop, rfl⟩
  | function _ => cases h <;> exact .error ⟨hop, rfl⟩

theorem binary_like (hop : L.token operator operator') (hl : l.Like L l') (h : v.Like L v') :
    SameOutcome L (binary operator l v) (binary operator' l' v') := by
  unfold binary
  rw [L.kind_eq hop, hl.indistinct.equals_eq h.indistinct]
  split
  · exact add_like hop hl h
  · exact .ok (.bool _)
  · exact .ok (.bool _)
  · exact compute_like hop hl h

theorem decides_like (hop : L.token operator operator') (hl : l.Like L l') :
    decides operator' l' = decides operator l := by
  unfold decides
  rw [L.kind_eq hop, hl.indistinct.isTruthy_eq]

end Operator

/-! ### The host -/

theorem Host.Indifferent.uniform {host : Host} (h : host.Indifferent) : host.Uniform := fun L n key _ _ hargs =>
  h (Closure.Like L) Closure.Like.indistinct n key hargs

theorem Host.withTime_uniform (time : Nat → Float) : (Host.withTime time).Uniform :=
  (Host.withTime_indifferent time).uniform

end
end Lox
