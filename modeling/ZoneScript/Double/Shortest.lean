import ZoneScript.Double.Basic

/-!
# Shortest decimal digits

The fewest decimal digits that still read back as a given number, and of the texts with that many
digits the one nearest to the number. All comparisons are exact, between products of integers.
-/

namespace ZoneScript.Double

/-- What to do when two decimals of the least length are equally near. -/
inductive Tie where
  | even
  | up
  deriving DecidableEq, Repr

/-- Decimal digits with a power of ten: the number is `digits * 10 ^ power`. -/
structure Digits where
  digits : Nat
  power : Int
  deriving DecidableEq, Repr, Inhabited

/-- The bounds of the numbers that round to `mantissa * 2 ^ exponent`, in quarters of a unit of the
last place. Below a power of two the neighbours are twice as close. -/
def bounds (mantissa : Nat) (exponent : Int) : Nat × Nat :=
  let low := if mantissa = minMantissa ∧ minExponent < exponent then 1 else 2
  (4 * mantissa - low, 4 * mantissa + 2)

/-- `a * 2 ^ p` compared with `b * 10 ^ k`, as two integers. -/
def alignPowers (a : Nat) (p : Int) (b : Nat) (k : Int) : Nat × Nat :=
  (a * Nat.pow 2 p.toNat * Nat.pow 10 (-k).toNat, b * Nat.pow 2 (-p).toNat * Nat.pow 10 k.toNat)

/-- Whether the decimal reads back as `mantissa * 2 ^ exponent`. The bounds themselves do so when the
mantissa is even. -/
def readsBack (mantissa : Nat) (exponent : Int) (d : Digits) : Bool :=
  let (low, high) := bounds mantissa exponent
  let (lower, x) := alignPowers low (exponent - 2) d.digits d.power
  let (upper, y) := alignPowers high (exponent - 2) d.digits d.power
  if mantissa % 2 = 0 then lower ≤ x && y ≤ upper else lower < x && y < upper

/-- The better of the two decimals around the number on the grid of multiples of `10 ^ power`, if one
of them reads back. -/
def onGrid (tie : Tie) (mantissa : Nat) (exponent power : Int) : Option Digits :=
  let (num, den) := alignPowers mantissa exponent 1 power
  let below : Digits := ⟨num / den, power⟩
  let above : Digits := ⟨num / den + 1, power⟩
  let twice := 2 * (num % den)
  match readsBack mantissa exponent below, readsBack mantissa exponent above with
  | false, false => none
  | true, false => some below
  | false, true => some above
  | true, true =>
    let upward : Bool := match tie with
      | .up => den ≤ twice
      | .even => den < twice || (twice == den && below.digits % 2 == 1)
    some (if upward then above else below)

/-- The first hit on the grids from `power` down to `power - steps`; the last grid gives an answer in
any case. -/
def searchGrids (tie : Tie) (mantissa : Nat) (exponent : Int) : Nat → Int → Digits
  | 0, power =>
    let (num, den) := alignPowers mantissa exponent 1 power
    ⟨num / den, power⟩
  | steps + 1, power =>
    (onGrid tie mantissa exponent power).getD (searchGrids tie mantissa exponent steps (power - 1))

/-- A power of ten above the number: one bit is less than 0.30103 of a digit. -/
def powerAbove (mantissa : Nat) (exponent : Int) : Int :=
  (Nat.log2 mantissa + 1 + exponent) * 30103 / 100000 + 2

/-- The shortest decimal of `mantissa * 2 ^ exponent`, which is positive. Seventeen digits always
suffice, so the search ends on one of the grids that it tries. -/
def shortest (tie : Tie) (mantissa : Nat) (exponent : Int) : Digits :=
  searchGrids tie mantissa exponent 24 (powerAbove mantissa exponent)

end ZoneScript.Double
