import Lox.Number.Shortest

/-! # How numbers are spelled

Each place that writes a number has a spelling of its own. All of them write the fewest digits that
read back; they differ in the names of the values that are not finite, in whether a number without
fraction keeps a point, and in whether exponents are written. -/

namespace Lox.Number

/-- A sign in front of the text of a magnitude. -/
def signed (negative : Bool) (magnitude : String) : String :=
  if negative then "-" ++ magnitude else magnitude

/-- The shortest decimal of the magnitude of a finite number. -/
def magnitude (tie : Tie) (x : Float) (mantissa : Nat) (exponent : Int) : Decimal :=
  if mantissa = 0 then ⟨0, 0⟩ else Decimal.shortest tie x.abs mantissa exponent

/-- Positional notation, with the given name for the infinities. -/
def positional (infinity : String) (x : Float) : String :=
  match Parts.ofFloat x with
  | .nan => "NaN"
  | .infinite neg => signed neg infinity
  | .finite neg mantissa exponent => signed neg (magnitude .up x mantissa exponent).positional

/-- The text that a program prints for a number. -/
def display (x : Float) : String := positional "Infinity" x

/-- A number token shows a whole number below `2 ^ 63` with one decimal and no sign on zero. -/
def inToken (x : Float) : String :=
  let parts := Parts.ofFloat x
  match parts.whole? with
  | some n =>
    if n < Nat.pow 2 63 then signed (parts.negative && n != 0) (toString n ++ ".0") else positional "inf" x
  | none => positional "inf" x

/-- The prefix form shows every whole number with all its digits and one decimal. -/
def inPrefixForm (x : Float) : String :=
  let parts := Parts.ofFloat x
  match parts.whole? with
  | some n => signed parts.negative (toString n ++ ".0")
  | none => positional "inf" x

/-- In an outline a number is positional with at least one decimal when its first digit stands
    between the fifth decimal place and the sixteenth digit before the point, and scientific
    otherwise. NaN and the infinities have no spelling. -/
def inOutline? (x : Float) : Option String :=
  match Parts.ofFloat x with
  | .finite neg mantissa exponent =>
    let d := magnitude .toEven x mantissa exponent
    let text :=
      if -5 ≤ d.order ∧ d.order ≤ 15 then
        if 0 ≤ d.exponent then d.positional ++ ".0" else d.positional
      else d.scientific
    some (signed neg text)
  | _ => none

end Lox.Number
