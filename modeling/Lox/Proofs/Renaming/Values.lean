import Lox.Proofs.Evaluation.Indistinct
import Lox.Proofs.Renaming.Trees

/-! # Values under renaming

While a program and the renamed one run side by side, some frames are frames of the renamed scope. A
function of the one run is alike one of the other when the frame it was made in is the same and its
declaration is renamed as the place of that frame demands (`Closure.Alike`). A program sees no difference
between alike values. -/

namespace Lox

/-- Which frames are frames of the renamed scope. -/
abbrev Marks := FrameId → Bool

/-- So many links outward from `f` stands a frame of the renamed scope, and no other does. -/
def Marks.Lies (marks : Marks) (fs : Frames) (f : FrameId) (depth : Option Nat) : Prop :=
  ∀ d g, fs.ancestor? d f = some g → (marks g = true ↔ depth = some d)

/-- Both functions were made in the same frame, by a declaration and the renamed one. -/
structure Closure.Alike (r : Renaming) (distances : Distances) (marks : Marks) (fs : Frames) (c c' : Closure) :
    Prop where
  identity : c'.identity = c.identity
  frame : c'.frame = c.frame
  exist : c.frame < fs.next
  renames : ∃ depth, marks.Lies fs c.frame depth ∧
    Stmt.Renames r distances depth (.function c.decl.name c.decl.parameters c.decl.body)
      (.function c'.decl.name c'.decl.parameters c'.decl.body)

/-- The same value, or two functions of which the second was made by the renamed declaration. -/
abbrev Value.Alike (r : Renaming) (distances : Distances) (marks : Marks) (fs : Frames) : Value → Value → Prop :=
  Value.Through (Closure.Alike r distances marks fs)

abbrev Flow.Alike (r : Renaming) (distances : Distances) (marks : Marks) (fs : Frames) : Flow → Flow → Prop :=
  Flow.Through (Closure.Alike r distances marks fs)

section
variable {r : Renaming} {distances : Distances} {marks marks' : Marks} {fs fs' : Frames}

/-! ### Later frames -/

theorem Marks.Lies.later {f : FrameId} {depth : Option Nat} (h : marks.Lies fs f depth) (hgrow : fs.Grows fs')
    (hmarks : ∀ g, g < fs.next → marks' g = marks g) (hinward : ∀ f g, fs.enclosing? f = some g → g < f)
    (hf : f < fs.next) : marks'.Lies fs' f depth := by
  intro d g hg
  rw [hgrow.ancestor?_eq hinward hf] at hg
  rw [hmarks g (Nat.lt_of_le_of_lt (Frames.ancestor?_le hinward hg) hf)]
  exact h d g hg

theorem Value.Alike.later {v v' : Value} (h : v.Alike r distances marks fs v') (hgrow : fs.Grows fs')
    (hmarks : ∀ g, g < fs.next → marks' g = marks g) (hinward : ∀ f g, fs.enclosing? f = some g → g < f) :
    v.Alike r distances marks' fs' v' := by
  cases h with
  | plain h => exact .plain h
  | function h =>
    obtain ⟨depth, hlies, hrenames⟩ := h.renames
    exact .function ⟨h.identity, h.frame, Nat.lt_of_lt_of_le h.exist hgrow.next, depth,
      hlies.later hgrow hmarks hinward h.exist, hrenames⟩

theorem Value.Alike.later_option {v v' : Option Value} (h : Option.Rel (Value.Alike r distances marks fs) v v')
    (hgrow : fs.Grows fs') (hmarks : ∀ g, g < fs.next → marks' g = marks g)
    (hinward : ∀ f g, fs.enclosing? f = some g → g < f) : Option.Rel (Value.Alike r distances marks' fs') v v' := by
  cases h with
  | some hv => exact .some (hv.later hgrow hmarks hinward)
  | none => exact .none

/-! ### What is seen of a value -/

theorem Closure.Alike.indistinct {c c' : Closure} (h : c.Alike r distances marks fs c') : c.Indistinct c' := by
  obtain ⟨depth, -, hrenames⟩ := h.renames
  obtain ⟨inner, hname, hparameters, -⟩ := hrenames.of_function
  refine ⟨h.identity, congrArg Token.lexeme hname, ?_⟩
  rw [hparameters, List.length_map]

theorem Value.Alike.indistinct {v v' : Value} (h : v.Alike r distances marks fs v') : v.Indistinct v' :=
  h.mono Closure.Alike.indistinct

end
end Lox
