import ZoneScript.Yaml.Scalar

/-!
# Writing scalars

A text is written plain if it reads back as the same text that way, between single quotes if that is
enough, and between double quotes otherwise, where characters without a picture of their own are
escaped. A text with line feeds is written as a literal block if its lines keep their ends there. No
line is ever folded.
-/

namespace ZoneScript.Yaml

/-! ## What a text looks like -/

/-- Whether a character stands for itself outside of double quotes. -/
def isPlainPrintable (c : Char) : Bool :=
  let n := c.toNat
  n == 0xA || (0x20 ≤ n && n ≤ 0x7E) || (0xA0 ≤ n && n ≤ 0xD7FF)
    || (0xE000 ≤ n && n ≤ 0xFFFD && n != 0xFEFF) || 0x10000 ≤ n

/-- Whether somewhere a character of the first kind stands in front of one of the second. -/
def hasPair (p q : Char → Bool) : List Char → Bool
  | c :: d :: cs => (p c && q d) || hasPair p q (d :: cs)
  | _ => false

def isSpaceChar (c : Char) : Bool :=
  c == ' '

/-- Whether all lines of the text show as they are: no character needs an escape, and no blank stands
at the end of a line. -/
def showsLines (cs : List Char) : Bool :=
  cs.all isPlainPrintable && !hasPair isSpaceChar isBreak cs

/-- Whether the text may stand in a literal block. -/
def fitsLiteral (cs : List Char) : Bool :=
  showsLines cs && !(cs.getLast?.map isSpaceChar).getD true

/-- Whether the text may stand between single quotes. -/
def fitsSingle (cs : List Char) : Bool :=
  showsLines cs && !hasPair isBreak isSpaceChar cs

/-- The characters that mean something else at the start of a plain scalar. -/
def isLeadingIndicator (c : Char) : Bool :=
  "#,[]&*!|>'\"%@".toList.contains c || c == '\x7b' || c == '\x7d' || c == '\x60'

/-- Whether the start of the text means something else than a plain scalar. -/
def startsOtherwise (cs : List Char) : Bool :=
  "---".toList.isPrefixOf cs || "...".toList.isPrefixOf cs ||
    match cs with
    | [] => false
    | c :: rest =>
      isLeadingIndicator c || ((c == '?' || c == ':' || c == '-') && isGap rest.head?)

/-- Whether a colon inside the text would end a plain key, or a number sign start a comment. -/
def breaksPlain : List Char → Bool
  | c :: d :: cs =>
    (d == ':' && isGap cs.head?) || (d == '#' && isGap (some c)) || breaksPlain (d :: cs)
  | _ => false

/-- Whether the text may be written plain. -/
def fitsPlain (cs : List Char) : Bool :=
  cs.all isPlainPrintable && !cs.any isBreak && !startsOtherwise cs && !breaksPlain cs
    && !(cs.head?.map isSpaceChar).getD false && !(cs.getLast?.map isSpaceChar).getD false

/-- Whether a plain scalar would be read as something else than a text. -/
def readsOtherwise (s : String) : Bool :=
  isPaddedNumber s.toList || match plainMeaning s with
    | .ok (.str _) => false
    | _ => true

/-- How a text is written. -/
def styleOf (s : String) : ScalarStyle :=
  let cs := s.toList
  if cs.contains '\n' then if fitsLiteral cs then .literal else .doubleQuoted
  else if fitsPlain cs && !readsOtherwise s then .plain
  else if fitsSingle cs then .singleQuoted
  else .doubleQuoted

/-! ## The styles -/

def pad (indent : Nat) : List Char :=
  List.replicate indent ' '

/-- The text with the indentation in front of each line but the first, empty lines apart. -/
def indentAfterBreaks (indent : Nat) : Bool → List Char → List Char
  | _, [] => []
  | afterBreak, c :: cs =>
    if isBreak c then c :: indentAfterBreaks indent true cs
    else (if afterBreak then pad indent else []) ++ c :: indentAfterBreaks indent false cs

/-- Whether the text ends with a line break. -/
def endsWithBreak (cs : List Char) : Bool :=
  (cs.getLast?.map isBreak).getD false

/-- The text between single quotes. -/
def singleQuotedText (indent : Nat) (cs : List Char) : List Char :=
  let doubled := fun c => if c == '\'' then ['\'', '\''] else [c]
  '\'' :: ((indentAfterBreaks indent false cs).flatMap doubled
    ++ (if endsWithBreak cs then pad indent else []) ++ ['\''])

/-- The escape of a character that has a short one. -/
def shortEscape? (n : Nat) : Option Char :=
  [(0x00, '0'), (0x07, 'a'), (0x08, 'b'), (0x09, 't'), (0x0A, 'n'), (0x0B, 'v'), (0x0C, 'f'),
    (0x0D, 'r'), (0x1B, 'e'), (0x22, '"'), (0x5C, '\\'), (0x85, 'N'), (0x2028, 'L'),
    (0x2029, 'P')].lookup n

/-- The number in hexadecimal with capital letters, filled up to `width` digits. -/
def hexDigits (width n : Nat) : List Char :=
  let digits := (Nat.toDigits 16 n).map Char.toUpper
  List.replicate (width - digits.length) '0' ++ digits

/-- A character between double quotes. -/
def doubleQuotedChar (c : Char) : List Char :=
  let n := c.toNat
  if isPlainPrintable c && !isBreak c && c != '"' && c != '\\' then [c]
  else match shortEscape? n with
    | some e => ['\\', e]
    | none =>
      if n ≤ 0xFF then '\\' :: 'x' :: hexDigits 2 n
      else if n ≤ 0xFFFF then '\\' :: 'u' :: hexDigits 4 n
      else '\\' :: 'U' :: hexDigits 8 n

def doubleQuotedText (cs : List Char) : List Char :=
  '"' :: (cs.flatMap doubleQuotedChar ++ ['"'])

/-- The header of a literal block: the indentation if the text starts with a blank or an empty line,
and what becomes of the breaks at its end. -/
def literalHeader (cs : List Char) : List Char :=
  let hint := if (cs.head?.map fun c => isSpaceChar c || isBreak c).getD false then ['2'] else []
  let chomping := match cs.reverse with
    | c :: rest =>
      if !isBreak c then ['-']
      else if rest.isEmpty || (rest.head?.map isBreak).getD false then ['+']
      else []
    | [] => ['-']
  '|' :: (hint ++ chomping)

/-! ## Scalars -/

/-- A text on one line, except for the line separators it may hold; it is no literal block. -/
def inlineText (indent : Nat) (s : String) : List Char :=
  match styleOf s with
  | .plain => s.toList
  | .singleQuoted => singleQuotedText indent s.toList
  | _ => doubleQuotedText s.toList

/-- A text with the end of its last line. -/
def scalarLines (indent : Nat) (s : String) : List Char :=
  if styleOf s == .literal then
    literalHeader s.toList ++ '\n' :: indentAfterBreaks indent true s.toList
      ++ (if endsWithBreak s.toList then [] else ['\n'])
  else inlineText indent s ++ ['\n']

/-- The greatest length of a key, in bytes, that needs no mark in front. -/
def maxSimpleKey : Nat := 128

/-- Whether a text may be a key without a mark in front. -/
def isSimpleKey (s : String) : Bool :=
  !s.toList.any isBreak && s.utf8ByteSize ≤ maxSimpleKey

end ZoneScript.Yaml
