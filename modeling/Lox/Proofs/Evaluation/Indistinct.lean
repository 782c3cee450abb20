import Lox.Proofs.Evaluation.Preserve
import Mathlib.Data.List.Forall2

/-! # Indistinct values

Two runs that go on side by side hold the same values, but for functions that a relation puts beside each other
(`Value.Through`). If such functions have the same identity, the same name and as many parameters, a program sees
no difference between the values (`Value.Indistinct`): operators and output make none, nor does a host whose
functions see no more of their arguments (`Host.Indifferent`). The host `Host.withTime` is one. -/

namespace Lox

/-- The same value, or two functions of which `R` holds. -/
inductive Value.Through (R : Closure → Closure → Prop) : Value → Value → Prop
  | plain {v : Value} (h : v.IsPlain) : Value.Through R v v
  | function {c c' : Closure} (h : R c c') : Value.Through R (.function c) (.function c')

inductive Flow.Through (R : Closure → Closure → Prop) : Flow → Flow → Prop
  | normal : Flow.Through R .normal .normal
  | returned {v v' : Value} (h : v.Through R v') : Flow.Through R (.returned v) (.returned v')

/-- What a program sees of a function is the same. -/
structure Closure.Indistinct (c c' : Closure) : Prop where
  identity : c'.identity = c.identity
  name : c'.decl.name.lexeme = c.decl.name.lexeme
  arity : c'.decl.parameters.length = c.decl.parameters.length

/-- What a program sees of a value is the same. -/
abbrev Value.Indistinct : Value → Value → Prop := Value.Through Closure.Indistinct

/-- Both fail, with errors of which `E` holds, or both yield, and `R` holds of the values. -/
inductive Outcome.Like {ε α : Type} (E : ε → ε → Prop) (R : α → α → Prop) : Except ε α → Except ε α → Prop
  | ok {a b : α} (h : R a b) : Outcome.Like E R (.ok a) (.ok b)
  | error {e e' : ε} (h : E e e') : Outcome.Like E R (.error e) (.error e')

/-- Calls with arguments that are the same but for indistinct functions fail with the same message, or yield what is
    again the same but for such functions. So what a function of the host does depends on its arguments only as far
    as a program sees them, and it makes no functions of its own. -/
def Host.Indifferent (host : Host) : Prop :=
  ∀ (R : Closure → Closure → Prop), (∀ {c c' : Closure}, R c c' → c.Indistinct c') →
    ∀ (n : Nat) (key : String) {arguments arguments' : List Value},
      List.Forall₂ (Value.Through R) arguments arguments' →
        Outcome.Like Eq (Value.Through R) (host n key arguments) (host n key arguments')

section
variable {R : Closure → Closure → Prop}

namespace Value

theorem isPlain_ofLiteral (l : Literal) : (ofLiteral l).IsPlain := by
  cases l <;> nofun

namespace Through
variable {v v' : Value}

theorem nil : Through R .nil .nil := .plain nofun

theorem bool (b : Bool) : Through R (.bool b) (.bool b) := .plain nofun

theorem number (x : Float) : Through R (.number x) (.number x) := .plain nofun

theorem string (text : String) : Through R (.string text) (.string text) := .plain nofun

theorem host (f : HostFunction) : Through R (.host f) (.host f) := .plain nofun

theorem ofLiteral (l : Literal) : Through R (.ofLiteral l) (.ofLiteral l) := .plain (isPlain_ofLiteral l)

theorem mono {R' : Closure → Closure → Prop} (h : v.Through R v') (hR : ∀ {c c'}, R c c' → R' c c') :
    v.Through R' v' := by
  cases h with
  | plain h => exact .plain h
  | function h => exact .function (hR h)

end Through
end Value

theorem Flow.Through.result {flow flow' : Flow} (h : flow.Through R flow') : flow.result.Through R flow'.result := by
  cases h with
  | normal => exact .nil
  | returned h => exact h

/-! ### What is seen of a value -/

namespace Value.Indistinct
variable {v v' u u' : Value}

theorem isTruthy_eq (h : v.Indistinct v') : v'.isTruthy = v.isTruthy := by
  cases h <;> rfl

theorem typeName_eq (h : v.Indistinct v') : v'.typeName = v.typeName := by
  cases h <;> rfl

theorem display_eq (h : v.Indistinct v') : v'.display = v.display := by
  cases h with
  | plain => rfl
  | function h => rw [display, display, h.name]

theorem arity?_eq (h : v.Indistinct v') : v'.arity? = v.arity? := by
  cases h with
  | plain => rfl
  | function h => rw [arity?, arity?, h.arity]

theorem equals_eq (h : v.Indistinct v') (h' : u.Indistinct u') : v'.equals u' = v.equals u := by
  cases h with
  | plain h =>
    cases h' with
    | plain h' => rfl
    | function h' => cases v <;> first | rfl | exact absurd rfl (h _)
  | function h =>
    cases h' with
    | plain h' => cases u <;> first | rfl | exact absurd rfl (h' _)
    | function h' => rw [equals, equals, h.identity, h'.identity]

end Value.Indistinct

/-! ### Operators -/

namespace Operator
variable {l l' v v' : Value} (operator : Token)

theorem unary_indistinct (h : v.Indistinct v') : unary operator v' = unary operator v := by
  cases h with
  | plain => rfl
  | function => rfl

theorem add_indistinct (hl : l.Indistinct l') (h : v.Indistinct v') : add operator l' v' = add operator l v := by
  cases hl with
  | plain _ =>
    cases h with
    | plain _ => rfl
    | function _ => cases l <;> rfl
  | function _ => cases h <;> rfl

theorem compute_indistinct (hl : l.Indistinct l') (h : v.Indistinct v') :
    compute operator l' v' = compute operator l v := by
  cases hl with
  | plain _ =>
    cases h with
    | plain _ => rfl
    | function _ => cases l <;> rfl
  | function _ => cases h <;> rfl

theorem binary_indistinct (hl : l.Indistinct l') (h : v.Indistinct v') :
    binary operator l' v' = binary operator l v := by
  unfold binary
  rw [add_indistinct operator hl h, hl.equals_eq h, compute_indistinct operator hl h]

theorem decides_indistinct (hl : l.Indistinct l') : decides operator l' = decides operator l := by
  unfold decides
  rw [hl.isTruthy_eq]

end Operator

/-! ### The host -/

namespace Host

/-- A host that sees no more of functions than programs do yields only those that it was given: related to
    themselves are the functions among the arguments and no others. -/
theorem Indifferent.honest {host : Host} (h : host.Indifferent) : host.Honest := by
  intro n key arguments c hc
  let R (c c' : Closure) : Prop := c' = c ∧ .function c ∈ arguments
  have hR : ∀ {c c'}, R c c' → c.Indistinct c' := by
    rintro c _ ⟨rfl, -⟩
    exact ⟨rfl, rfl, rfl⟩
  have hsame : List.Forall₂ (Value.Through R) arguments arguments := by
    refine List.forall₂_same.mpr fun v hv => ?_
    cases v with
    | function c => exact .function ⟨rfl, hv⟩
    | nil | bool _ | number _ | string _ | host _ => exact .plain nofun
  have hlike := h R hR n key hsame
  rw [hc] at hlike
  cases hlike with
  | ok hv =>
    cases hv with
    | plain hplain => exact absurd rfl (hplain c)
    | function hmem => exact hmem.2

variable {arguments arguments' : List Value} (hR : ∀ {c c'}, R c c' → c.Indistinct c')

theorem headD_through (h : List.Forall₂ (Value.Through R) arguments arguments') :
    (arguments.headD .nil).Through R (arguments'.headD .nil) := by
  cases h with
  | nil => exact .nil
  | cons h _ => exact h

include hR

theorem display_through (h : List.Forall₂ (Value.Through R) arguments arguments') :
    arguments'.map Value.display = arguments.map Value.display := by
  induction h with
  | nil => rfl
  | cons h _ ih => rw [List.map_cons, List.map_cons, Value.Indistinct.display_eq (h.mono hR), ih]

theorem standard_through (key : String) (h : List.Forall₂ (Value.Through R) arguments arguments') :
    Outcome.Like Eq (Value.Through R) (standard key arguments) (standard key arguments') := by
  unfold standard
  split
  · cases h with
    | nil => exact .error rfl
    | @cons v _ _ _ h _ =>
      cases h with
      | plain _ =>
        cases v with
        | number x => exact .ok (.number _)
        | nil | bool _ | string _ | function _ | host _ => exact .error rfl
      | function _ => exact .error rfl
  · exact .ok (headD_through h)
  · rw [← h.length_eq]
    exact .ok (.number _)
  · cases h with
    | nil => exact .ok .nil
    | cons h _ =>
      dsimp only
      rw [Value.Indistinct.typeName_eq (h.mono hR)]
      exact .ok (.string _)
  · rw [display_through hR h]
    exact .ok (.string _)
  · rw [← h.length_eq]
    exact .error rfl
  · exact .error rfl

omit hR

theorem withTime_indifferent (time : Nat → Float) : (withTime time).Indifferent := by
  intro R hR n key arguments arguments' h
  unfold withTime
  split
  · exact .ok (.number _)
  · exact standard_through hR key h

theorem withTime_honest (time : Nat → Float) : (withTime time).Honest := (withTime_indifferent time).honest

end Host
end
end Lox
