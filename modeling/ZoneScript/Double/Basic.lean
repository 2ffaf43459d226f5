import ZoneScript.Text.Integer

/-!
# Double-precision numbers

The numbers of the 64-bit binary floating-point format, as exact values, and the reading of decimal
texts: the result is the number nearest to the text, and of two equally near ones the even one.
-/

namespace ZoneScript

/-- A double-precision number. A finite one is `mantissa * 2 ^ exponent`, negated if `negative`
holds; there is a negative zero. -/
inductive Double where
  | nan
  | infinite (negative : Bool)
  | finite (negative : Bool) (mantissa : Nat) (exponent : Int)
  deriving DecidableEq, Repr, Inhabited

namespace Double

/-- The exponent of the smallest numbers. -/
def minExponent : Int := -1074

/-- The exponent of the largest numbers. -/
def maxExponent : Int := 971

/-- The least mantissa of a number whose exponent is not the smallest. -/
def minMantissa : Nat := Nat.pow 2 52

/-- Equality of numbers: the two zeros are equal, and a quantity that is no number equals itself. -/
def same : Double → Double → Bool
  | .finite _ 0 _, .finite _ 0 _ => true
  | x, y => x == y

/-! ## Rounding -/

/-- The nearest integer to `num / den`, the even one if two are equally near. -/
def roundDiv (num den : Nat) : Nat :=
  let quotient := num / den
  let twice := 2 * (num % den)
  if twice < den || (twice == den && quotient % 2 == 0) then quotient else quotient + 1

/-- `num * 2 ^ shift`, with the power moved to the denominator if it is negative. -/
def scaled (num den : Nat) (shift : Int) : Nat × Nat :=
  if 0 ≤ shift then (num * Nat.pow 2 shift.toNat, den) else (num, den * Nat.pow 2 (-shift).toNat)

/-- The number nearest to `num / den`, which is positive. -/
def ofRatio (negative : Bool) (num den : Nat) : Double :=
  let guess := max ((Nat.log2 num : Int) - Nat.log2 den - 53) minExponent
  let (a, b) := scaled num den (-guess)
  let exponent := if 2 * minMantissa ≤ a / b then guess + 1 else guess
  let (a, b) := scaled num den (-exponent)
  let mantissa := roundDiv a b
  let (mantissa, exponent) :=
    if mantissa = 2 * minMantissa then (minMantissa, exponent + 1) else (mantissa, exponent)
  if maxExponent < exponent then .infinite negative else .finite negative mantissa exponent

/-- The number nearest to `digits * 10 ^ power`. What lies far outside the range is decided by its
size alone, so that no power of ten grows with the text. -/
def ofDecimal (negative : Bool) (digits : Nat) (power : Int) : Double :=
  let size := (Nat.toDigits 10 digits).length + power
  if digits = 0 || size < -330 then .finite negative 0 minExponent
  else if 310 < size then .infinite negative
  else if 0 ≤ power then ofRatio negative (digits * Nat.pow 10 power.toNat) 1
  else ofRatio negative digits (Nat.pow 10 (-power).toNat)

/-- The number nearest to an integer. -/
def ofInt (n : Int) : Double :=
  ofDecimal (n < 0) n.natAbs 0

/-! ## Decimal texts -/

/-- The exponent part of a decimal text: nothing, or an `e` with an integer. -/
def readPower? : List Char → Option Int
  | [] => some 0
  | c :: cs =>
    if c == 'e' || c == 'E' then
      match cs with
      | '-' :: ds => (Text.readNat? 10 ds).map fun n => -(n : Int)
      | '+' :: ds => (Text.readNat? 10 ds).map Int.ofNat
      | ds => (Text.readNat? 10 ds).map Int.ofNat
    else none

/-- The number that an unsigned decimal text writes: digits with at most one point, at least one
digit in all, and an exponent part. -/
def readUnsigned? (negative : Bool) (cs : List Char) : Option Double :=
  let whole := cs.takeWhile Char.isDigit
  let rest := cs.dropWhile Char.isDigit
  let (fraction, tail) := match rest with
    | '.' :: ds => (ds.takeWhile Char.isDigit, ds.dropWhile Char.isDigit)
    | _ => ([], rest)
  (Text.readNat? 10 (whole ++ fraction)).bind fun digits =>
    (readPower? tail).map fun power => ofDecimal negative digits (power - fraction.length)

/-- The number that a decimal text writes; a sign may stand in front. -/
def read? : List Char → Option Double
  | '-' :: cs => readUnsigned? true cs
  | '+' :: cs => readUnsigned? false cs
  | cs => readUnsigned? false cs

/-- Whether the number is finite. -/
def isFinite : Double → Bool
  | .finite .. => true
  | _ => false

end Double

end ZoneScript
