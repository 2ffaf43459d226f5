/-!
# Edit distance

The least number of single-character insertions, deletions and replacements that turn one text into
another, and the nearest entry of a list of words.
-/

namespace ZoneScript.Text

/-- One row of the distance table. `diagonal` is the entry up and to the left, `left` the entry just
written, and `above` the rest of the row before. -/
def distanceRow (c : Char) : Nat → Nat → List Char → List Nat → List Nat
  | diagonal, left, d :: ds, up :: above =>
    let entry := min (min (up + 1) (left + 1)) (diagonal + if c == d then 0 else 1)
    entry :: distanceRow c up entry ds above
  | _, _, _, _ => []

/-- The last row of the distance table, for the rows of `cs` below `row`; `first` is the entry that
starts `row`. -/
def distanceRows (target : List Char) : Nat → List Nat → List Char → Nat
  | first, row, [] => row.getLast?.getD first
  | first, row, c :: cs =>
    distanceRows target (first + 1) (distanceRow c first (first + 1) target row) cs

/-- The edit distance between two texts, counted in characters. -/
def distance (source target : List Char) : Nat :=
  distanceRows target 0 ((List.range target.length).map (· + 1)) source

/-- The first of the words that are nearest to `key`, with its distance. -/
def nearest (key : String) : List String → Option (String × Nat)
  | [] => none
  | word :: rest =>
    let d := distance key.toList word.toList
    match nearest key rest with
    | none => some (word, d)
    | some (other, e) => if e < d then some (other, e) else some (word, d)

/-- The largest distance at which a word still counts as what was meant. -/
def suggestionDistance : Nat := 2

/-- The first nearest word of a catalogue, if it is near enough to be meant. -/
def suggest (key : String) (catalogue : List String) : Option String :=
  ((nearest key catalogue).filter (·.2 ≤ suggestionDistance)).map (·.1)

end ZoneScript.Text
