import Lox.Proofs.ForLoops.Direct

/-! # Trees around an extra frame

In each round of what the parser makes of a `for` statement there is a frame around the body and the increment
that the loop itself does not have. So a distance that leads past this frame is one more there than in the loop
(`skip`). Two statements that run side by side, one inside such a frame and one not, are the same but for their
distances, which lead to the same frames (`Stmt.Skips`). -/

namespace Lox

/-! ### Distances -/

/-- The distance that leads to the same frame when an extra one stands so many links outward. -/
def skip : Option Nat → Nat → Nat
  | none, distance => distance
  | some extra, distance => if distance < extra then distance else distance + 1

/-- One frame further inside, the extra one is one link further outward. -/
def inside (extra : Option Nat) : Option Nat := extra.map (· + 1)

theorem skip_zero {extra : Option Nat} (h : extra ≠ some 0) : skip extra 0 = 0 := by
  cases extra with
  | none => rfl
  | some k =>
    have hk : 0 < k := Nat.pos_of_ne_zero fun hk => h (congrArg some hk)
    exact if_pos hk

theorem skip_inside_zero (extra : Option Nat) : skip (inside extra) 0 = 0 := by
  cases extra with
  | none => rfl
  | some k => simp [inside, skip]

theorem skip_inside_succ (extra : Option Nat) (distance : Nat) :
    skip (inside extra) (distance + 1) = skip extra distance + 1 := by
  cases extra with
  | none => rfl
  | some k =>
    simp only [inside, Option.map_some, skip, Nat.add_lt_add_iff_right]
    split <;> rfl

/-! ### Trees -/

/-- The distances of references in two runs. -/
structure Tables where
  left : Distances
  right : Distances

/-- What the first run is evaluated in. -/
abbrev Tables.leftContext (tables : Tables) (host : Host) : Context := ⟨.resolved tables.left, host⟩

/-- What the second run is evaluated in. -/
abbrev Tables.rightContext (tables : Tables) (host : Host) : Context := ⟨.resolved tables.right, host⟩

/-- Tokens are the same, and the distance of the first reference skips the extra frame and otherwise leads where
    that of the second does. -/
def Likeness.skipping (tables : Tables) (extra : Option Nat) : Likeness :=
  .ofIds fun a a' => tables.left[a]? = (tables.right[a']?).map (skip extra)

mutual

/-- The first statement stands inside an extra frame, so many links outward, and declares nothing there. It is the
    second one, but for the distances that skip the frame. -/
inductive Stmt.Skips (tables : Tables) : Option Nat → Stmt → Stmt → Prop
  | expression {extra : Option Nat} {e e' : Expr} (h : e.Like (.skipping tables extra) e') :
    Stmt.Skips tables extra (.expression e) (.expression e')
  | print {extra : Option Nat} {e e' : Expr} (h : e.Like (.skipping tables extra) e') :
    Stmt.Skips tables extra (.print e) (.print e')
  | var {extra : Option Nat} {name : Token} {init init' : Option Expr} (hextra : extra ≠ some 0)
    (h : Expr.Like? (.skipping tables extra) init init') :
    Stmt.Skips tables extra (.var name init) (.var name init')
  | block {extra : Option Nat} {body body' : List Stmt}
    (h : Stmt.SkipsAll tables (inside extra) body body') :
    Stmt.Skips tables extra (.block body) (.block body')
  | branch {extra : Option Nat} {c c' : Expr} {yes yes' : Stmt} {no no' : Option Stmt}
    (hc : c.Like (.skipping tables extra) c') (hyes : Stmt.Skips tables extra yes yes')
    (hno : Stmt.Skips? tables extra no no') :
    Stmt.Skips tables extra (.branch c yes no) (.branch c' yes' no')
  | loop {extra : Option Nat} {c c' : Expr} {body body' : Stmt} (hc : c.Like (.skipping tables extra) c')
    (hbody : Stmt.Skips tables extra body body') :
    Stmt.Skips tables extra (.loop c body) (.loop c' body')
  | function {extra : Option Nat} {name : Token} {parameters : List Token} {body body' : List Stmt}
    (hextra : extra ≠ some 0) (h : Stmt.SkipsAll tables (inside extra) body body') :
    Stmt.Skips tables extra (.function name parameters body) (.function name parameters body')
  | ret {extra : Option Nat} {keyword : Token} {value value' : Option Expr}
    (h : Expr.Like? (.skipping tables extra) value value') :
    Stmt.Skips tables extra (.ret keyword value) (.ret keyword value')

inductive Stmt.Skips? (tables : Tables) : Option Nat → Option Stmt → Option Stmt → Prop
  | none {extra : Option Nat} : Stmt.Skips? tables extra none none
  | some {extra : Option Nat} {s s' : Stmt} (h : Stmt.Skips tables extra s s') :
    Stmt.Skips? tables extra (some s) (some s')

inductive Stmt.SkipsAll (tables : Tables) : Option Nat → List Stmt → List Stmt → Prop
  | nil {extra : Option Nat} : Stmt.SkipsAll tables extra [] []
  | cons {extra : Option Nat} {s s' : Stmt} {ss ss' : List Stmt} (h : Stmt.Skips tables extra s s')
    (hss : Stmt.SkipsAll tables extra ss ss') :
    Stmt.SkipsAll tables extra (s :: ss) (s' :: ss')

end

section
variable {tables : Tables} {extra : Option Nat} {name name' : Token} {parameters parameters' : List Token}
  {body body' : List Stmt}
  (h : Stmt.Skips tables extra (.function name parameters body) (.function name' parameters' body'))
include h

theorem Stmt.Skips.parameters_eq : parameters' = parameters := by
  cases h
  rfl

theorem Stmt.Skips.bodies : Stmt.SkipsAll tables (inside extra) body body' := by
  cases h with
  | function _ hbody => exact hbody

end

end Lox
