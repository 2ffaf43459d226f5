/-!
# Shortening a text

A text longer than a limit is cut and marked with three dots. Lengths are UTF-8 bytes, and the cut
never falls inside a character.
-/

namespace ZoneScript.Text

/-- The number of UTF-8 bytes of a text. -/
def byteLength : List Char → Nat
  | [] => 0
  | c :: cs => c.utf8Size + byteLength cs

/-- The longest front of at most `room` bytes. -/
def fitting (room : Nat) : List Char → List Char
  | [] => []
  | c :: cs => if c.utf8Size ≤ room then c :: fitting (room - c.utf8Size) cs else []

theorem byteLength_fitting_le (room : Nat) (cs : List Char) :
    byteLength (fitting room cs) ≤ room := by
  induction cs generalizing room with
  | nil => simp [fitting, byteLength]
  | cons c cs ih =>
    simp only [fitting]
    split
    · have := ih (room - c.utf8Size)
      simp only [byteLength]
      omega
    · simp [byteLength]

/-- A text of at most `limit` bytes stays as it is; of a longer one the front that leaves room for
three dots is kept. -/
def truncate (limit : Nat) (cs : List Char) : List Char :=
  if byteLength cs ≤ limit then cs else fitting (limit - 3) cs ++ "...".toList

end ZoneScript.Text
