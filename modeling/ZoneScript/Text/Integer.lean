/-!
# Integers as text

Reading and writing integers. A sign may stand in front, at least one digit of the base follows, and
nothing else is allowed: no blanks, no separators.
-/

namespace ZoneScript.Text

/-- The value of a digit of a base up to thirty-six. -/
def digitValue? (base : Nat) (c : Char) : Option Nat :=
  let value :=
    if c.isDigit then c.toNat - '0'.toNat
    else if 'a' ≤ c ∧ c ≤ 'z' then c.toNat - 'a'.toNat + 10
    else if 'A' ≤ c ∧ c ≤ 'Z' then c.toNat - 'A'.toNat + 10
    else base
  if value < base then some value else none

/-- Carries `value` on through the digits. -/
def foldDigits? (base : Nat) : Nat → List Char → Option Nat
  | value, [] => some value
  | value, c :: cs => (digitValue? base c).bind fun d => foldDigits? base (value * base + d) cs

/-- The number that a text of digits writes in `base`; no digits write no number. -/
def readNat? (base : Nat) : List Char → Option Nat
  | [] => none
  | c :: cs => foldDigits? base 0 (c :: cs)

/-- Whether a number fits `bits` bits. -/
def fitsUnsigned (bits n : Nat) : Bool :=
  n < Nat.pow 2 bits

/-- Whether an integer fits `bits` bits, one of which is for the sign. -/
def fitsSigned (bits : Nat) : Int → Bool
  | .ofNat n => fitsUnsigned (bits - 1) n
  | .negSucc n => fitsUnsigned (bits - 1) n

/-- Whether an integer fits `bits` bits, with or without one for the sign. -/
def fitsBits (bits : Nat) (n : Int) : Bool :=
  fitsSigned bits n || (0 ≤ n && fitsUnsigned bits n.toNat)

/-- A number without a sign, or with a plus sign in front. -/
def readPositive? (base : Nat) : List Char → Option Nat
  | '+' :: cs => readNat? base cs
  | cs => readNat? base cs

/-- An integer; either sign may stand in front. -/
def readInteger? (base : Nat) : List Char → Option Int
  | '-' :: cs => (readNat? base cs).map fun n => -(n : Int)
  | cs => (readPositive? base cs).map Int.ofNat

/-- A decimal number of so many bits; a plus sign may stand in front. -/
def readUnsigned? (bits : Nat) (cs : List Char) : Option Nat :=
  (readPositive? 10 cs).filter (fitsUnsigned bits)

/-- A decimal integer of so many bits; either sign may stand in front. -/
def readSigned? (bits : Nat) (cs : List Char) : Option Int :=
  (readInteger? 10 cs).filter (fitsSigned bits)

/-- The decimal digits of an integer, after a minus sign if it is negative. -/
def showInt : Int → List Char
  | .ofNat n => Nat.toDigits 10 n
  | .negSucc n => '-' :: Nat.toDigits 10 (n + 1)

end ZoneScript.Text
