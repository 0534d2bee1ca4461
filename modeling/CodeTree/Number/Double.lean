/-
Double-precision numbers, given by the three fields of their format: a sign, an
eleven-bit exponent and a fraction of fifty-two bits. Each number has exactly one
such description, so that equality of descriptions and equality of numbers differ
only at the two zeros and at the codes that stand for no number.

All arithmetic is exact arithmetic on whole numbers followed by one rounding, to
the nearest double, a half going to the even significand.
-/

namespace CodeTree

/-- A double-precision number by the fields of its format. -/
structure Double where
  negative : Bool
  /-- The exponent field. Zero marks numbers without a leading one, 2047 the infinities and NaN. -/
  exponent : Fin 2048
  fraction : Fin (Nat.pow 2 52)
deriving DecidableEq

namespace Double

def zero (negative : Bool) : Double := ⟨negative, 0, ⟨0, Nat.two_pow_pos 52⟩⟩

def infinity (negative : Bool) : Double := ⟨negative, 2047, ⟨0, Nat.two_pow_pos 52⟩⟩

instance : Inhabited Double := ⟨zero false⟩

def isNaN (number : Double) : Bool := number.exponent == 2047 && number.fraction.val != 0

def isFinite (number : Double) : Bool := number.exponent != 2047

def isZero (number : Double) : Bool := number.exponent == 0 && number.fraction.val == 0

/-- Numeric equality: NaN equals nothing, and the two zeros are equal. -/
def equals (left right : Double) : Bool :=
  !left.isNaN && !right.isNaN && (left == right || (left.isZero && right.isZero))

/-- A finite number is `significand * 2 ^ power`, up to its sign. -/
def significand (number : Double) : Nat :=
  if number.exponent.val = 0 then number.fraction.val else Nat.pow 2 52 + number.fraction.val

@[inherit_doc significand]
def power (number : Double) : Int :=
  if number.exponent.val = 0 then -1074 else (number.exponent.val : Int) - 1075

/-- A finite number as a quotient of whole numbers, up to its sign. -/
def ratio (number : Double) : Nat × Nat :=
  if number.power < 0 then (number.significand, Nat.pow 2 number.power.natAbs)
  else (number.significand * Nat.pow 2 number.power.natAbs, 1)

/-! ### Rounding -/

/-- The whole number nearest to `num / den`, a half going to the even one. -/
def roundQuotient (num den : Nat) : Nat :=
  let floor := num / den
  let twice := 2 * (num % den)
  if twice < den then floor
  else if den < twice then floor + 1
  else if floor % 2 = 0 then floor else floor + 1

/-- `num / den` scaled down by `2 ^ shift`, as a quotient. -/
def scaleDown (num den : Nat) (shift : Int) : Nat × Nat :=
  if shift < 0 then (num * Nat.pow 2 shift.natAbs, den) else (num, den * Nat.pow 2 shift.natAbs)

/-- The whole `e` with `2 ^ e ≤ num / den < 2 ^ (e + 1)`, for positive `num` and `den`. -/
def binaryExponent (num den : Nat) : Int :=
  let guess : Int := (Nat.log2 num : Int) - Nat.log2 den
  let scaled := scaleDown num den guess
  if scaled.1 < scaled.2 then guess - 1 else guess

/-- The number `±m * 2 ^ q` of a significand `m ≤ 2 ^ 53` that is below `2 ^ 52` only where `q` is
the least power. Powers beyond the format give an infinity. -/
def assemble (negative : Bool) (m : Nat) (q : Int) : Double :=
  if h : m < Nat.pow 2 52 then ⟨negative, 0, ⟨m, h⟩⟩
  else
    let field := if m < Nat.pow 2 53 then (q + 1075).toNat else (q + 1076).toNat
    let rest := if m < Nat.pow 2 53 then m - Nat.pow 2 52 else 0
    if small : field < 2047 then
      ⟨negative, ⟨field, Nat.lt_succ_of_lt small⟩,
        ⟨rest % Nat.pow 2 52, Nat.mod_lt rest (Nat.two_pow_pos 52)⟩⟩
    else infinity negative

/-- The double nearest to `±num / den`. -/
def ofRatio (negative : Bool) (num den : Nat) : Double :=
  if num = 0 then zero negative
  else
    let q := max (binaryExponent num den - 52) (-1074)
    let scaled := scaleDown num den q
    assemble negative (roundQuotient scaled.1 scaled.2) q

/-- The double nearest to a whole number. -/
def ofInt (n : Int) : Double := ofRatio (n < 0) n.natAbs 1

/-- The whole number that a finite double stands for, when its magnitude is below `2 ^ 53`. -/
def toInt? (number : Double) : Option Int :=
  if number.isFinite then
    let (num, den) := number.ratio
    if num % den = 0 && num / den < Nat.pow 2 53 then
      let magnitude : Int := (num / den : Nat)
      some (if number.negative then -magnitude else magnitude)
    else none
  else none

/-! ### Products and quotients of positive numbers -/

/-- The double nearest to the product of two finite numbers, as magnitudes. -/
def times (left right : Double) : Double :=
  ofRatio false (left.ratio.1 * right.ratio.1) (left.ratio.2 * right.ratio.2)

/-- The double nearest to the quotient of two finite numbers, as magnitudes. -/
def dividedBy (left right : Double) : Double :=
  ofRatio false (left.ratio.1 * right.ratio.2) (left.ratio.2 * right.ratio.1)

/-- The double nearest to a power of ten. -/
def powerOfTen (n : Nat) : Double := ofRatio false (Nat.pow 10 n) 1

end Double

end CodeTree
