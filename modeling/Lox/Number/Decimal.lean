import Lox.Number.Parts

/-! # Decimal numerals

A decimal is a whole number of digits and a power of ten. It is what a numeral in a text denotes; the
double it stands for is the nearest one, and of two equally near the one whose last bit is zero. -/

namespace Lox

/-- The number `digits · 10 ^ exponent`. -/
structure Decimal where
  digits : Nat
  exponent : Int
deriving DecidableEq, Repr

namespace Decimal

/-- The value of a run of decimal digits; the empty run is zero. -/
def valueOf (run : List Char) : Nat :=
  run.foldl (fun n c => 10 * n + (c.toNat - '0'.toNat)) 0

/-- The decimal written as `whole.fraction`. -/
def ofDigits (whole fraction : List Char) : Decimal :=
  ⟨valueOf (whole ++ fraction), -(fraction.length : Int)⟩

/-- The nearest double. -/
def toFloat (d : Decimal) : Float :=
  if 0 ≤ d.exponent then Float.ofScientific (d.digits * Nat.pow 10 d.exponent.toNat) false 0
  else Float.ofScientific d.digits true (-d.exponent).toNat

/-- The same number with a last digit zero moved into the exponent. -/
def dropZero (d : Decimal) : Decimal :=
  if d.digits % 10 = 0 then ⟨d.digits / 10, d.exponent + 1⟩ else d

/-- Positional notation: no exponent, and a point only before a fraction. -/
def positional (d : Decimal) : String :=
  let run := Nat.toDigits 10 d.digits
  if 0 ≤ d.exponent then String.ofList (run ++ List.replicate d.exponent.toNat '0')
  else
    let places := (-d.exponent).toNat
    let run := List.replicate (places + 1 - run.length) '0' ++ run
    let whole := run.length - places
    String.ofList (run.take whole ++ '.' :: run.drop whole)

/-- The power of ten of the first digit. -/
def order (d : Decimal) : Int := d.exponent + (Nat.toDigits 10 d.digits).length - 1

/-- Scientific notation: one digit before the point, no empty fraction, and a signed exponent. -/
def scientific (d : Decimal) : String :=
  let run := Nat.toDigits 10 d.digits
  let fraction := if run.length ≤ 1 then [] else '.' :: run.drop 1
  let sign := if 0 ≤ d.order then '+' else '-'
  String.ofList (run.take 1 ++ fraction ++ 'e' :: sign :: Nat.toDigits 10 d.order.natAbs)

end Decimal
end Lox
