import ZoneScript.Double.Shortest

/-!
# The texts of a number

Two notations are in use. A plain text is what a number stands for as a value in a configuration: it
never has an exponent and a whole number has no point. A marked text is how a number is named in a
document: it always shows that it is no integer, and far from one it has an exponent. Both write the
shortest digits that read back.
-/

namespace ZoneScript.Double

/-- The digits with the point moved `power` places to the right, without an exponent. A whole number
ends with `whole`. -/
def positional (whole : String) (d : Digits) : List Char :=
  let digits := Nat.toDigits 10 d.digits
  let places := (digits.length : Int) + d.power
  if 0 ≤ d.power then digits ++ List.replicate d.power.toNat '0' ++ whole.toList
  else if 0 < places then digits.take places.toNat ++ '.' :: digits.drop places.toNat
  else '0' :: '.' :: List.replicate (-places).toNat '0' ++ digits

/-- The digits with the point behind the first of them, and an exponent. -/
def scientific (d : Digits) : List Char :=
  let digits := Nat.toDigits 10 d.digits
  let point := match digits with
    | [] => []
    | [c] => [c]
    | c :: cs => c :: '.' :: cs
  point ++ 'e' :: Text.showInt ((digits.length : Int) + d.power - 1)

def sign (negative : Bool) : List Char :=
  if negative then ['-'] else []

/-- The text of a number as a value. -/
def plainText : Double → List Char
  | .nan => "NaN".toList
  | .infinite negative => sign negative ++ "inf".toList
  | .finite negative 0 _ => sign negative ++ ['0']
  | .finite negative m e => sign negative ++ positional "" (shortest .up m e)

/-- The text of a number in a document. Numbers from a hundred-thousandth up to ten to the sixteenth
are written without an exponent. -/
def markedText : Double → List Char
  | .nan => ".nan".toList
  | .infinite negative => sign negative ++ ".inf".toList
  | .finite negative 0 _ => sign negative ++ "0.0".toList
  | .finite negative m e =>
    let d := shortest .even m e
    let places := ((Nat.toDigits 10 d.digits).length : Int) + d.power
    sign negative ++ if -5 < places && places ≤ 16 then positional ".0" d else scientific d

end ZoneScript.Double
