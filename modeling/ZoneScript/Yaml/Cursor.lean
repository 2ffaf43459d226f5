import ZoneScript.Text.Split

/-!
# Places in a text

A mark counts lines, columns and characters from zero. A cursor is the rest of a text together with
the mark where it starts. A problem says what was found at a mark, and what was being read there.
-/

namespace ZoneScript.Yaml

/-! ## Characters -/

def isBlank (c : Char) : Bool :=
  c == ' ' || c == '\t'

/-- The characters that end a line. -/
def isBreak (c : Char) : Bool :=
  c == '\n' || c == '\r' || c.toNat == 0x85 || c.toNat == 0x2028 || c.toNat == 0x2029

/-- Whether a place holds a blank, a line break or nothing. -/
def isGap : Option Char → Bool
  | none => true
  | some c => isBlank c || isBreak c

/-- The mark that may stand in front of a text to show its encoding. -/
def isByteOrderMark (c : Char) : Bool :=
  c.toNat == 0xFEFF

/-- The characters of names: letters, digits, `_` and `-`. -/
def isNameChar (c : Char) : Bool :=
  c.isAlphanum || c == '_' || c == '-'

/-- The characters that a text may hold. -/
def isAllowed (c : Char) : Bool :=
  let n := c.toNat
  n == 0x9 || n == 0xA || n == 0xD || (0x20 ≤ n && n ≤ 0x7E) || n == 0x85
    || (0xA0 ≤ n && n ≤ 0xD7FF) || (0xE000 ≤ n && n ≤ 0xFFFD) || 0x10000 ≤ n

/-! ## Marks -/

structure Mark where
  line : Nat := 0
  column : Nat := 0
  index : Nat := 0
  deriving DecidableEq, Repr, Inhabited

namespace Mark

/-- The place after `count` characters of the same line. -/
def advance (m : Mark) (count : Nat) : Mark :=
  ⟨m.line, m.column + count, m.index + count⟩

/-- The start of the next line, after a break of `width` characters. -/
def newLine (m : Mark) (width : Nat) : Mark :=
  ⟨m.line + 1, 0, m.index + width⟩

/-- Whether the mark is at the very start of the text. -/
def isStart (m : Mark) : Bool :=
  m.line == 0 && m.column == 0

end Mark

/-! ## Problems -/

/-- What is wrong at a mark. -/
structure Problem where
  text : String
  mark : Mark
  doing : Option String := none
  deriving DecidableEq, Repr, Inhabited

/-- The problem in words. At the very start of a text, where the mark says nothing, what was being
read is named as well. -/
def Problem.message (p : Problem) : String :=
  match p.doing with
  | some doing => if p.mark.isStart then p.text ++ ", " ++ doing else p.text
  | none => p.text

/-! ## Cursors -/

structure Cursor where
  rest : List Char
  mark : Mark := {}
  deriving DecidableEq, Repr, Inhabited

namespace Cursor

def head? (c : Cursor) : Option Char :=
  c.rest.head?

/-- The character `n` places ahead. -/
def peek? (c : Cursor) (n : Nat) : Option Char :=
  c.rest[n]?

/-- Passes `n` characters that are no line breaks. -/
def skip (c : Cursor) (n : Nat) : Cursor :=
  ⟨c.rest.drop n, c.mark.advance n⟩

/-- Passes the characters that `p` accepts, none of which is a line break. -/
def skipWhile (c : Cursor) (p : Char → Bool) : Cursor :=
  ⟨c.rest.dropWhile p, c.mark.advance (c.rest.takeWhile p).length⟩

/-- The text of a line break and the place after it. A carriage return with a line feed is one break,
and all but the two separators of Unicode count as a line feed. -/
def lineBreak? (c : Cursor) : Option (List Char × Cursor) :=
  match c.rest with
  | '\r' :: '\n' :: rest => some (['\n'], ⟨rest, c.mark.newLine 2⟩)
  | ch :: rest =>
    if isBreak ch then
      some (if ch.toNat == 0x2028 || ch.toNat == 0x2029 then [ch] else ['\n'],
        ⟨rest, c.mark.newLine 1⟩)
    else none
  | [] => none

/-- Passes a line break, if there is one. -/
def skipLineBreak (c : Cursor) : Cursor :=
  match c.lineBreak? with
  | some (_, next) => next
  | none => c

/-- Passes everything up to the end of the line. -/
def skipToLineEnd (c : Cursor) : Cursor :=
  c.skipWhile fun ch => !isBreak ch

/-- Passes blanks and a comment. -/
def skipBlanksAndComment (c : Cursor) : Cursor :=
  let c := c.skipWhile isBlank
  if c.head? == some '#' then c.skipToLineEnd else c

/-- Whether the line ends here. -/
def atLineEnd (c : Cursor) : Bool :=
  match c.head? with
  | none => true
  | some ch => isBreak ch

/-- Whether a line starts here with three times `ch` and a gap. -/
def atMarker (c : Cursor) (ch : Char) : Bool :=
  c.mark.column == 0 && c.peek? 0 == some ch && c.peek? 1 == some ch && c.peek? 2 == some ch
    && isGap (c.peek? 3)

/-- Whether a document starts or ends here. -/
def atDocumentMarker (c : Cursor) : Bool :=
  c.atMarker '-' || c.atMarker '.'

end Cursor

end ZoneScript.Yaml
