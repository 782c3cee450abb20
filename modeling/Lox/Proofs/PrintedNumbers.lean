import Lox.Proofs.Numbers.Spelling
import Lox.Proofs.Parsing.Acceptance
import Lox.Proofs.Scanning.Writing
import Lox.Session

/-! # A printed number is source for the number

A finite number is printed as a numeral with an optional minus in front of it. These are the tokens that are
scanned (`items_signed`), and a literal with an optional prefix operator is what is parsed from them, up to the end
(`parse_numeral`). The numeral stands for the magnitude, and the minus gives back the sign, that of zero too, so the
value is the number that was printed (`display_readsAs`). -/

namespace Lox

/-! ### Tokens -/

/-- The tokens of a numeral with a value, and of the minus in front of it. -/
def numeralTokens (neg : Bool) (v : Float) (text : String) : List Token :=
  let token : Token := ⟨.number v, text, 1⟩
  if neg then [⟨.mark .minus, "-", 1⟩, token] else [token]

/-- The tree of a numeral with a value, and of the minus in front of it. -/
def numeralTree (neg : Bool) (v : Float) : Expr :=
  if neg then .unary ⟨.mark .minus, "-", 1⟩ (.literal (.number v)) else .literal (.number v)

namespace Scan

/-- A minus is a token by itself, whatever is behind it. -/
theorem minus_fits (behind : List Char) : Fits (.token (.mark .minus)) ['-'] behind := by
  refine .token (mark_longest rfl nofun) ?_
  rintro ⟨rest, hrest⟩
  cases hrest

/-- A number, with or without a minus in front of it, is scanned to its tokens. -/
theorem items_signed {v : Float} {text : String} (h : Spells (.number v) text.toList) (neg : Bool) :
    items (Number.signed neg text) = (numeralTokens neg v text ++ [Token.atEnd 1]).map .ok := by
  have hnumeral : partsOf text.toList = [⟨.token (.number v), text.toList⟩] := by
    have hfits : Fits (.token (.number v)) text.toList [] := h.fits nofun
    have hparts := hfits.partsOf
    rwa [List.append_nil, partsOf] at hparts
  have hline : text.toList.count '\n' = 0 := List.count_eq_zero.mpr (h.no_line_end (by simp))
  rw [items_eq_content, content]
  cases neg with
  | false =>
    show itemsOf [] (partsOf text.toList) ++ [.ok (.atEnd (1 + text.toList.count '\n'))] = _
    rw [hnumeral, hline]
    simp [itemsOf, Verdict.item?, numeralTokens, hline]
  | true =>
    have htext : (Number.signed true text).toList = ['-'] ++ text.toList := String.toList_append
    rw [htext, (minus_fits text.toList).partsOf, hnumeral]
    simp [itemsOf, Verdict.item?, numeralTokens, hline]

end Scan

/-! ### The tree -/

namespace Parse
open Grammar

theorem unary_derives {ts : List Token} {e : Expr} (h : Derives .unary ts e) : Derives .assignment ts e :=
  .chain (.operand (.operand (.operand (.operand (.operand (.operand h))))))

theorem numeral_derives (neg : Bool) (v : Float) (text : String) :
    Derives .assignment (numeralTokens neg v text) (numeralTree neg v) := by
  have hliteral : Derives .unary [⟨.number v, text, 1⟩] (.literal (.number v)) :=
    .called (.callee (.constant (.number v)))
  refine unary_derives ?_
  cases neg with
  | false => exact hliteral
  | true => exact .sign (.inr rfl) hliteral

theorem body_numeral (neg : Bool) (v : Float) (text : String) (line : Nat) :
    body (numeralTokens neg v text ++ [Token.atEnd line]) = numeralTokens neg v text := by
  cases neg <;> rfl

/-- A tree without references has nothing to be numbered. -/
theorem eq_numeralTree {e : Expr} {neg : Bool} {v : Float} (h : e.unnumbered = numeralTree neg v) :
    e = numeralTree neg v := by
  cases neg with
  | false =>
    cases e <;> cases h
    rfl
  | true =>
    cases e with
    | unary operator e =>
      cases e <;> cases h
      rfl
    | literal | grouping | binary | logical | var | assign | call => cases h

theorem parse_numeral (neg : Bool) (v : Float) (text : String) (id : ExprId) :
    let tokens := numeralTokens neg v text ++ [Token.atEnd 1]
    ∃ s, expression (fuelFor tokens) (.start tokens id) = .ok (numeralTree neg v) s ∧ s.rest = [] ∧ s.errors = #[] := by
  intro tokens
  have hderives : Derives .assignment (body tokens) (numeralTree neg v) := by
    rw [body_numeral]
    exact numeral_derives neg v text
  have hlimits : (numeralTree neg v).WithinLimits := by cases neg <;> trivial
  obtain ⟨e, s, hparse, hbuilt⟩ := expression_complete id hderives
  obtain rfl := eq_numeralTree hbuilt.view_eq
  exact ⟨s, hparse, hbuilt.rest, hbuilt.errors hlimits⟩

end Parse

/-! ### The value -/

theorem evaluate_numeralTree (neg : Bool) (v : Float) (host : Host) (fuel : Nat) (s : Session) :
    s.evaluate host (fuel + 2) (numeralTree neg v) = (.ok (.number (if neg then -v else v)), s) := by
  cases neg <;> rfl

theorem display_finite {x : Float} {neg : Bool} {m : Nat} {e : Int} (h : Parts.ofFloat x = .finite neg m e) :
    (Value.number x).display = Number.signed neg (Number.magnitude .up x m e).positional := by
  show Number.positional "Infinity" x = _
  rw [Number.positional, h]

/-- The minus gives the sign back to the magnitude. -/
theorem signed_magnitude {x : Float} {neg : Bool} {m : Nat} {e : Int} (h : Parts.ofFloat x = .finite neg m e) :
    (if neg then -(Number.magnitude .up x m e).toFloat else (Number.magnitude .up x m e).toFloat) = x := by
  have hfits := Parts.fits_of_ofFloat h
  rw [Decimal.magnitude_toFloat h, ← Parts.toFloat_ofFloat h]
  cases neg with
  | false => rfl
  | true => exact Parts.neg_toFloat hfits

/-- The text is an expression with this value: it is scanned without an error and parsed without one up to the end
    marker, and evaluation in any session yields the value and leaves the session as it was. -/
def ReadsAs (text : String) (v : Value) : Prop :=
  ∀ id : ExprId,
    let tokens := Scan.tokens (Scan.items text)
    Scan.errors (Scan.items text) = [] ∧ ∃ e s line, tokens = Parse.body tokens ++ [.atEnd line] ∧
      Parse.expression (Parse.fuelFor tokens) (.start tokens id) = .ok e s ∧ s.rest = [] ∧
      (parseExpression tokens id).expression? = some e ∧ (parseExpression tokens id).errors = [] ∧
      ∀ (host : Host) (fuel : Nat) (session : Session), session.evaluate host (fuel + 2) e = (.ok v, session)

/-- What is printed for a finite number is an expression whose value is that number, bit for bit. -/
theorem display_readsAs (x : Float) (hx : x.isFinite = true) : ReadsAs (Value.number x).display (.number x) := by
  intro id
  obtain ⟨neg, m, e, hparts⟩ := Parts.isFinite_iff.mp hx
  obtain ⟨s, hparse, hrest, herrors⟩ := Parse.parse_numeral neg (Number.magnitude .up x m e).toFloat
    (Number.magnitude .up x m e).positional id
  have hitems := Scan.items_signed (Decimal.positional_spells (Number.magnitude .up x m e)) neg
  have hexpression := Parse.parseExpression_of_ok hparse herrors
  rw [← display_finite hparts] at hitems
  rw [hitems, Scan.errors_map_ok, Scan.tokens_map_ok]
  dsimp only
  rw [Parse.body_numeral]
  refine ⟨rfl, _, s, 1, rfl, hparse, hrest, congrArg _ hexpression, congrArg _ hexpression, fun host fuel session => ?_⟩
  rw [evaluate_numeralTree, signed_magnitude hparts]

/-- Zero with a sign, and the least positive double. -/
theorem display_readsAs_least : (-0.0 : Float).isFinite = true ∧ (Float.ofBits 1).isFinite = true ∧
    ReadsAs "-0" (.number (-0.0)) ∧ ReadsAs (Value.number (Float.ofBits 1)).display (.number (Float.ofBits 1)) := by
  have hzero : (-0.0 : Float).isFinite = true := by decide +kernel
  have hleast : (Float.ofBits 1).isFinite = true := by decide +kernel
  have htext : (Value.number (-0.0)).display = "-0" := by decide +kernel
  exact ⟨hzero, hleast, htext ▸ display_readsAs (-0.0) hzero, display_readsAs (Float.ofBits 1) hleast⟩

end Lox
