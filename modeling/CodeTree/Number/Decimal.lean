/-
Decimal numerals and doubles: how a numeral is read, and the shortest numeral that
names a double.
-/

import CodeTree.Number.Double

namespace CodeTree

/-- The decimal number `digits * 10 ^ exponent`. -/
structure Decimal where
  digits : Nat
  exponent : Int
deriving DecidableEq, Inhabited

namespace Decimal

/-- How many decimal digits a whole number is written with. -/
def digitCount (n : Nat) : Nat := (Nat.toDigits 10 n).length

/-! ### Reading -/

/-- Powers of ten up to this one are doubles. -/
def greatestPower : Nat := 308

/-- Divides by powers of ten until the exponent is used up. A quotient that has become zero stays
so. -/
def descend : Nat → Double → Nat → Double
  | 0, number, _ => number
  | steps + 1, number, exponent =>
    if exponent ≤ greatestPower then number.dividedBy (.powerOfTen exponent)
    else if number.isZero then number
    else descend steps (number.dividedBy (.powerOfTen greatestPower)) (exponent - greatestPower)

/-- The value read from `significand * 10 ^ exponent`: the significand is rounded to a double,
which is then multiplied or divided by the nearest double of the power of ten. Nothing is read
when the result is too large. -/
def toDouble? (significand : Nat) (exponent : Int) : Option Double :=
  let number := Double.ofRatio false significand 1
  if exponent < 0 then some (descend (exponent.natAbs / greatestPower + 1) number exponent.natAbs)
  else if exponent.toNat ≤ greatestPower then
    let product := number.times (.powerOfTen exponent.toNat)
    if product.isFinite then some product else none
  else if number.isZero then some number
  else none

/-! ### Shortest numerals -/

/-- The numbers that round to a double: those between `low / scale` and `high / scale`, ends
included when `closed`, around `exact / scale`. -/
structure Interval where
  low : Nat
  exact : Nat
  high : Nat
  scale : Nat
  closed : Bool

/-- The interval of a finite double. The gap below a power of two is half the gap above it. -/
def interval (number : Double) : Interval :=
  let m := number.significand
  let below := if number.fraction.val = 0 && 1 < number.exponent.val then 1 else 2
  let unit := if number.power < 0 then 1 else Nat.pow 2 number.power.natAbs
  let scale := if number.power < 0 then 4 * Nat.pow 2 number.power.natAbs else 4
  { low := (4 * m - below) * unit
    exact := 4 * m * unit
    high := (4 * m + 2) * unit
    scale
    closed := m % 2 == 0 }

/-- The whole `e` with `10 ^ e ≤ num / den < 10 ^ (e + 1)`, for positive `num` and `den`. -/
def decimalExponent (num den : Nat) : Int :=
  if den ≤ num then (digitCount (num / den) : Int) - 1
  else -(digitCount ((den - 1) / num) : Int)

/-- Whether `digits * unitNum / unitDen` lies in the interval. -/
def Interval.contains (range : Interval) (digits unitNum unitDen : Nat) : Bool :=
  let point := digits * unitNum * range.scale
  let low := range.low * unitDen
  let high := range.high * unitDen
  if range.closed then low ≤ point && point ≤ high else low < point && point < high

/-- The multiple of `10 ^ exponent` in the interval that is nearest to the exact value, if there
is one. A tie goes to the even multiple. -/
def Interval.nearest? (range : Interval) (exponent : Int) : Option Nat :=
  let unitNum := if exponent < 0 then 1 else Nat.pow 10 exponent.natAbs
  let unitDen := if exponent < 0 then Nat.pow 10 exponent.natAbs else 1
  let num := range.exact * unitDen
  let den := range.scale * unitNum
  let floor := num / den
  let best := Double.roundQuotient num den
  let other := if best = floor then floor + 1 else floor
  if range.contains best unitNum unitDen then some best
  else if range.contains other unitNum unitDen then some other
  else none

/-- Moves the trailing zeros of the digits into the exponent. -/
def trim : Nat → Decimal → Decimal
  | 0, decimal => decimal
  | steps + 1, decimal =>
    if decimal.digits % 10 = 0 then trim steps ⟨decimal.digits / 10, decimal.exponent + 1⟩
    else decimal

/-- Tries numerals of ever more digits, starting at the power of ten of the leading digit. -/
def search (range : Interval) (leading : Int) : Nat → Nat → Decimal
  | 0, _ => ⟨0, 0⟩
  | steps + 1, count =>
    let exponent := leading - count
    match range.nearest? exponent with
    | some digits => trim (digitCount digits) ⟨digits, exponent⟩
    | none => search range leading steps (count + 1)

/-- The numeral with the fewest digits that reads back as a positive finite number, and of those
the nearest to it. Seventeen digits are always enough. -/
def shortest (number : Double) : Decimal :=
  let range := interval number
  search range (decimalExponent range.exact range.scale) 17 0

/-- The exponent of the scientific form `d.ddd × 10 ^ e`. -/
def scientificExponent (decimal : Decimal) : Int :=
  decimal.exponent + digitCount decimal.digits - 1

end Decimal

end CodeTree
