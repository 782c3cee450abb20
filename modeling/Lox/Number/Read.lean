import Lox.Number.Decimal

/-! # Reading numbers from text

Beside the numerals of programs there is a wider form, for numbers that come from outside: a sign, a
fraction without whole part or the other way round, an exponent, and the names of infinity and NaN in
any case. -/

namespace Lox.Number

/-- A run of digits with an optional fraction; what follows it is returned too. -/
def splitNumeral (cs : List Char) : (List Char × List Char) × List Char :=
  let whole := cs.takeWhile Char.isDigit
  match cs.dropWhile Char.isDigit with
  | '.' :: rest => ((whole, rest.takeWhile Char.isDigit), rest.dropWhile Char.isDigit)
  | rest => ((whole, []), rest)

/-- The exponent after a numeral: nothing at all, or `e`, a sign and at least one digit. -/
def exponent? : List Char → Option Int
  | [] => some 0
  | 'e' :: rest | 'E' :: rest =>
    let (negative, run) : Bool × List Char := match rest with
      | '-' :: run => (true, run)
      | '+' :: run => (false, run)
      | run => (false, run)
    if run.isEmpty || !run.all Char.isDigit then none
    else
      let n : Int := Decimal.valueOf run
      some (if negative then -n else n)
  | _ => none

/-- The magnitude that a text without sign stands for. -/
def magnitude? (cs : List Char) : Option Float :=
  let name := String.ofList (cs.map Char.toLower)
  if name = "inf" ∨ name = "infinity" then some (1.0 / 0.0)
  else if name = "nan" then some (0.0 / 0.0)
  else
    let ((whole, fraction), rest) := splitNumeral cs
    if whole.isEmpty && fraction.isEmpty then none
    else (exponent? rest).map fun e =>
      let d := Decimal.ofDigits whole fraction
      let e := d.exponent + e
      Float.ofScientific d.digits (e < 0) e.natAbs

/-- The number that a text stands for. -/
def read? (text : String) : Option Float :=
  match text.toList with
  | '-' :: cs => (magnitude? cs).map (- ·)
  | '+' :: cs => magnitude? cs
  | cs => magnitude? cs

end Lox.Number
