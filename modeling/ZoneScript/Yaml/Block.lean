import ZoneScript.Yaml.Token

/-!
# Block scalars

A block scalar is the lines below its header that are indented deeper than the collection around it.
A literal one keeps its line breaks, a folded one joins the lines that start with no blank. The header
may give the indentation, and says what becomes of the breaks at the end.
-/

namespace ZoneScript.Yaml

/-- What becomes of the line breaks at the end: one stays, none, or all. -/
inductive Chomping where
  | clip
  | strip
  | keep
  deriving DecidableEq, Repr, Inhabited

def blockProblem (text : String) (mark : Mark) : Problem :=
  ⟨text, mark, some "while scanning a block scalar"⟩

/-! ## The header -/

def readChomping (cursor : Cursor) : Option Chomping × Cursor :=
  match cursor.head? with
  | some '+' => (some .keep, cursor.skip 1)
  | some '-' => (some .strip, cursor.skip 1)
  | _ => (none, cursor)

/-- A digit that gives the indentation; zero is none. -/
def readIncrement (cursor : Cursor) : Except Problem (Option Nat × Cursor) :=
  match cursor.head? with
  | some c =>
    if c == '0' then .error (blockProblem "found an indentation indicator equal to 0" cursor.mark)
    else if c.isDigit then .ok (some (c.toNat - '0'.toNat), cursor.skip 1)
    else .ok (none, cursor)
  | none => .ok (none, cursor)

/-- The header after its first character, in either order of its two parts. -/
def readHeader (cursor : Cursor) : Except Problem (Chomping × Option Nat × Cursor) := do
  let (first, cursor) := readChomping cursor
  let (increment, cursor) ← readIncrement cursor
  let (second, cursor) := if first.isNone && increment.isSome then readChomping cursor else (none, cursor)
  let cursor := cursor.skipBlanksAndComment
  if cursor.atLineEnd then
    return ((first.or second).getD .clip, increment, cursor.skipLineBreak)
  else throw (blockProblem "did not find expected comment or line break" cursor.mark)

/-! ## The lines -/

/-- Passes the blanks that belong to the indentation. -/
def skipIndent (indent : Nat) : Nat → Cursor → Cursor
  | 0, cursor => cursor
  | fuel + 1, cursor =>
    if (indent == 0 || cursor.mark.column < indent) && cursor.head? == some ' ' then
      skipIndent indent fuel (cursor.skip 1)
    else cursor

/-- Passes empty lines and the indentation of the next line. Gives the breaks that were passed and the
greatest column that was reached; an indentation of zero is one that is not known yet. -/
def skipEmptyLines (indent : Nat) :
    Nat → List Char → Nat → Cursor → Except Problem (List Char × Nat × Cursor)
  | 0, breaks, deepest, cursor => .ok (breaks, deepest, cursor)
  | fuel + 1, breaks, deepest, cursor =>
    let cursor := skipIndent indent cursor.rest.length cursor
    let deepest := max deepest cursor.mark.column
    if (indent == 0 || cursor.mark.column < indent) && cursor.head? == some '\t' then
      .error (blockProblem "found a tab character where an indentation space is expected" cursor.mark)
    else match cursor.lineBreak? with
      | none => .ok (breaks, deepest, cursor)
      | some (text, next) => skipEmptyLines indent fuel (breaks ++ text) deepest next

/-- The lines of a block scalar: what was read so far, last first, whether the line before started
with a blank, the break that ended it, and the breaks of the empty lines after it. -/
def readLines (literal : Bool) (indent : Nat) :
    Nat → List Char → Bool → List Char → List Char → Cursor →
      Except Problem (List Char × List Char × List Char × Cursor)
  | 0, done, _, ending, empties, cursor => .ok (done, ending, empties, cursor)
  | fuel + 1, done, indentedBefore, ending, empties, cursor =>
    if cursor.mark.column == indent && !cursor.rest.isEmpty then
      let indented := (cursor.head?.map isBlank).getD false
      let joined :=
        if !literal && ending.head? == some '\n' && !indentedBefore && !indented then
          if empties.isEmpty then [' '] else empties
        else ending ++ empties
      let line := cursor.rest.takeWhile fun c => !isBreak c
      let cursor := cursor.skipToLineEnd
      let (ending, cursor) := cursor.lineBreak?.getD ([], cursor)
      (skipEmptyLines indent (cursor.rest.length + 1) [] 0 cursor).bind fun (empties, _, cursor) =>
        readLines literal indent fuel (line.reverse ++ (joined.reverse ++ done)) indented ending
          empties cursor
    else .ok (done, ending, empties, cursor)

/-- The block scalar at the cursor, inside a collection with this indentation. -/
def blockScalar (literal : Bool) (parent : Int) (cursor : Cursor) :
    Except Problem (Token × Cursor) := do
  let (chomping, increment, body) ← readHeader (cursor.skip 1)
  let given := match increment with
    | some n => if 0 ≤ parent then parent.toNat + n else n
    | none => 0
  let (empties, deepest, body) ← skipEmptyLines given (body.rest.length + 1) [] 0 body
  let indent := if given = 0 then max deepest (max (parent + 1).toNat 1) else given
  let (done, ending, empties, next) ←
    readLines literal indent (body.rest.length + 1) [] false [] empties body
  let tail := match chomping with
    | .strip => []
    | .clip => ending
    | .keep => ending ++ empties
  return (⟨.scalar (.ofList (done.reverse ++ tail)) (if literal then .literal else .folded),
    cursor.mark, next.mark⟩, next)

end ZoneScript.Yaml
