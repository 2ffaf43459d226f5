import ZoneScript.Text.Space
import ZoneScript.Text.Split

/-!
# Logical lines

A line that ends with a backslash goes on in the next one. White space behind the backslash does not
matter, and a blank takes the backslash's place.
-/

namespace ZoneScript.Script

open Text

/-- A line with those that continue it, and the number of the first of them, counted from one. -/
structure LogicalLine where
  number : Nat
  text : List Char
  deriving DecidableEq, Repr, Inhabited

/-- What stands in front of the backslash at the end of a line, if there is one. -/
def continued? (line : List Char) : Option (List Char) :=
  dropTail? ['\\'] (trimEnd line)

/-- The logical lines of the physical ones, the first of which has this number. `pending` is a line
that is still to be continued. -/
def joinLines : Nat → Option LogicalLine → List (List Char) → List LogicalLine
  | _, none, [] => []
  | _, some pending, [] => [pending]
  | number, pending, line :: rest =>
    let current := pending.getD ⟨number, []⟩
    match continued? line with
    | some head =>
      joinLines (number + 1) (some { current with text := current.text ++ head ++ [' '] }) rest
    | none => { current with text := current.text ++ line } :: joinLines (number + 1) none rest

/-- The logical lines of a text. -/
def logicalLines (text : String) : List LogicalLine :=
  joinLines 1 none (lines text.toList)

end ZoneScript.Script
