/-! # The parts of a number

A number is an IEEE 754 double. Its bits hold a sign, a whole number and a power of two, and every
spelling of a number is computed from these parts in exact arithmetic. -/

namespace Lox

/-- What the bits of a double stand for. A finite one is `± mantissa · 2 ^ exponent`. -/
inductive Parts where
  | nan
  | infinite (negative : Bool)
  | finite (negative : Bool) (mantissa : Nat) (exponent : Int)
deriving DecidableEq, Repr

namespace Parts

/-- Reads the 64 bits: one of sign, eleven of exponent, fifty-two of fraction. -/
def ofBits (bits : Nat) : Parts :=
  let negative := decide (bits / Nat.pow 2 63 = 1)
  let biased : Nat := bits / Nat.pow 2 52 % Nat.pow 2 11
  let fraction : Nat := bits % Nat.pow 2 52
  if biased = 2047 then
    if fraction = 0 then infinite negative else nan
  else if biased = 0 then finite negative fraction (-1074)
  else finite negative (Nat.pow 2 52 + fraction) (biased - 1075)

/-- The parts of a double. -/
def ofFloat (x : Float) : Parts := ofBits x.toBits.toNat

/-- The magnitude as a fraction of whole numbers, for `mantissa · 2 ^ exponent`. -/
def ratio (mantissa : Nat) (exponent : Int) : Nat × Nat :=
  if 0 ≤ exponent then (mantissa * Nat.pow 2 exponent.toNat, 1)
  else (mantissa, Nat.pow 2 (-exponent).toNat)

/-- The magnitude of a number without fraction; nothing for any other, NaN and the infinities too. -/
def whole? : Parts → Option Nat
  | finite _ mantissa exponent =>
    let (num, den) := ratio mantissa exponent
    if num % den = 0 then some (num / den) else none
  | _ => none

/-- Whether the sign bit is set. A NaN counts as positive. -/
def negative : Parts → Bool
  | nan => false
  | infinite neg | finite neg _ _ => neg

end Parts
end Lox
