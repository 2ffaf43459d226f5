/-!
# White space

The characters that separate words, and the cuts that depend on them: trimming, words and lines.
White space is the Unicode property of that name, so a no-break space separates words as a blank does.
-/

namespace ZoneScript.Text

/-! ## The class -/

/-- The twenty-five characters with the property `White_Space`. -/
def isSpace (c : Char) : Bool :=
  let n := c.toNat
  (9 ≤ n && n ≤ 13) || n == 0x20 || n == 0x85 || n == 0xA0 || n == 0x1680
    || (0x2000 ≤ n && n ≤ 0x200A) || n == 0x2028 || n == 0x2029 || n == 0x202F
    || n == 0x205F || n == 0x3000

/-! ## Trimming -/

/-- Leaves out the white space in front. -/
def trimStart (cs : List Char) : List Char :=
  cs.dropWhile isSpace

/-- Leaves out the white space at the end: a blank is kept only when something follows it. -/
def trimEnd : List Char → List Char
  | [] => []
  | c :: cs =>
    match trimEnd cs with
    | [] => if isSpace c then [] else [c]
    | d :: ds => c :: d :: ds

/-- Leaves out the white space on both sides. -/
def trim (cs : List Char) : List Char :=
  trimEnd (trimStart cs)

/-! ## Pieces, words and lines -/

/-- The stretches between the characters that `p` accepts; `n` separators give `n + 1` pieces. -/
def pieces (p : Char → Bool) : List Char → List (List Char)
  | [] => [[]]
  | c :: cs =>
    if p c then [] :: pieces p cs
    else match pieces p cs with
      | [] => [[c]]
      | w :: ws => (c :: w) :: ws

theorem pieces_ne_nil (p : Char → Bool) (cs : List Char) : pieces p cs ≠ [] := by
  cases cs with
  | nil => simp [pieces]
  | cons c cs =>
    simp only [pieces]
    split
    · simp
    · split <;> simp

/-- The words of a text: the pieces between white space that are not empty. -/
def words (cs : List Char) : List (List Char) :=
  (pieces isSpace cs).filter (!·.isEmpty)

/-- A line without the carriage return that stood before its line feed. -/
def dropReturn : List Char → List Char
  | [] => []
  | c :: cs => if c == '\r' && cs.isEmpty then [] else c :: dropReturn cs

/-- The lines of a text that ends each of its lines with a line feed, as `pieces` cuts it: the rest
after the last line feed is a line only when it is not empty, and keeps its carriage return. -/
def endedLines : List (List Char) → List (List Char)
  | [] => []
  | [last] => if last.isEmpty then [] else [last]
  | line :: next :: rest => dropReturn line :: endedLines (next :: rest)

/-- The lines of a text. A line feed ends a line, and so does a carriage return with a line feed. -/
def lines (cs : List Char) : List (List Char) :=
  endedLines (pieces (· == '\n') cs)

end ZoneScript.Text
