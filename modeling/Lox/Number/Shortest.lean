import Lox.Number.Decimal

/-! # The fewest digits that read back

A positive double is written with the fewest decimal digits whose nearest double it is. For a given
number of digits only the two neighbours of the double on that decimal grid can read back, so one
digit more is tried until one of them does. When both do the nearer is taken, and `Tie` says which
when they are equally near. -/

namespace Lox

/-- Which of two equally near candidates is taken. -/
inductive Tie where
  | up
  | toEven
deriving DecidableEq, Repr

namespace Decimal

/-- The power of ten of the first digit of `num / den`, which is positive. -/
def orderOf (num den : Nat) : Int :=
  if den ≤ num then (Nat.toDigits 10 (num / den)).length - 1
  else
    match (List.range 400).find? fun k => den ≤ num * Nat.pow 10 (k + 1) with
    | some k => -(k + 1 : Int)
    | none => 0

/-- How often `10 ^ unit` goes into `num / den`. -/
def stepsBelow (num den : Nat) (unit : Int) : Nat :=
  if 0 ≤ unit then num / (den * Nat.pow 10 unit.toNat)
  else num * Nat.pow 10 (-unit).toNat / den

/-- Whether `num / den` is nearer to `steps + 1` units of `10 ^ unit` than to `steps` units. -/
def nearerAbove (tie : Tie) (num den steps : Nat) (unit : Int) : Bool :=
  let (twice, middle) :=
    if 0 ≤ unit then (2 * num, (2 * steps + 1) * (den * Nat.pow 10 unit.toNat))
    else (2 * num * Nat.pow 10 (-unit).toNat, (2 * steps + 1) * den)
  match compare twice middle with
  | .lt => false
  | .gt => true
  | .eq => match tie with
    | .up => true
    | .toEven => steps % 2 = 1

/-- Of the two multiples of `10 ^ unit` around `x = num / den`, the one that reads back as `x`. -/
def onGrid? (tie : Tie) (x : Float) (num den : Nat) (unit : Int) : Option Decimal :=
  let steps := stepsBelow num den unit
  let below : Decimal := ⟨steps, unit⟩
  let above : Decimal := dropZero ⟨steps + 1, unit⟩
  let readsBack (d : Decimal) : Bool := d.toFloat.toBits = x.toBits
  match readsBack below, readsBack above with
  | false, false => none
  | true, false => some below
  | false, true => some above
  | true, true => some (if nearerAbove tie num den steps unit then above else below)

/-- All digits of `mantissa · 2 ^ exponent`. -/
def exact (mantissa : Nat) (exponent : Int) : Decimal :=
  if 0 ≤ exponent then ⟨mantissa * Nat.pow 2 exponent.toNat, 0⟩
  else ⟨mantissa * Nat.pow 5 (-exponent).toNat, exponent⟩

/-- The shortest decimal that reads back as `x`, the positive double `mantissa · 2 ^ exponent`.
    Seventeen digits are always enough. -/
def shortest (tie : Tie) (x : Float) (mantissa : Nat) (exponent : Int) : Decimal :=
  let (num, den) := Parts.ratio mantissa exponent
  let order := orderOf num den
  ((List.range 17).findSome? fun k : Nat => onGrid? tie x num den (order - k)).getD
    (exact mantissa exponent)

end Decimal
end Lox
