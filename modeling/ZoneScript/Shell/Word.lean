import ZoneScript.Text.Space
import ZoneScript.Text.Split

/-!
# Shell words

A command line is cut into words at white space. Single quotes keep what they hold as it is, double
quotes know a backslash before `"`, `\`, `$` and a grave accent, a backslash outside quotes takes the
next character as it is, and a `#` where a word could start ends the line. Quoting is the way back:
it writes one word so that it is read as that word.
-/

namespace ZoneScript.Shell

/-! ## Splitting -/

/-- A quote that is still open at the end of the line. -/
inductive OpenQuote where
  | single
  | double
  deriving DecidableEq, Repr, Inhabited

def OpenQuote.message : OpenQuote → String
  | .single => "unterminated single quote"
  | .double => "unterminated double quote"

/-- Where the reader stands: between words, inside a word, or inside a quoted part of one. -/
inductive Mode where
  | gap
  | word
  | single
  | double
  deriving DecidableEq, Repr

/-- Puts a character in front of the first word. -/
def push (c : Char) : List (List Char) → List (List Char)
  | [] => [[c]]
  | w :: ws => (c :: w) :: ws

/-- The characters that a backslash escapes between double quotes. -/
def isEscapable (c : Char) : Bool :=
  c == '"' || c == '\\' || c == '$' || c == '\x60'

/-- The words of the rest of a line. Read from inside a word, the first of them is the rest of that
word. -/
def splitFrom : Mode → List Char → Except OpenQuote (List (List Char))
  | .gap, [] => .ok []
  | .gap, '\\' :: c :: cs => (splitFrom .word cs).map (push c)
  | .gap, c :: cs =>
    if Text.isSpace c then splitFrom .gap cs
    else if c == '#' then .ok []
    else if c == '\'' then splitFrom .single cs
    else if c == '"' then splitFrom .double cs
    else if c == '\\' then splitFrom .word cs
    else (splitFrom .word cs).map (push c)
  | .word, [] => .ok [[]]
  | .word, '\\' :: c :: cs => (splitFrom .word cs).map (push c)
  | .word, c :: cs =>
    if Text.isSpace c then (splitFrom .gap cs).map ([] :: ·)
    else if c == '\'' then splitFrom .single cs
    else if c == '"' then splitFrom .double cs
    else if c == '\\' then splitFrom .word cs
    else (splitFrom .word cs).map (push c)
  | .single, [] => .error .single
  | .single, c :: cs =>
    if c == '\'' then splitFrom .word cs else (splitFrom .single cs).map (push c)
  | .double, [] => .error .double
  | .double, '\\' :: c :: cs =>
    if isEscapable c then (splitFrom .double cs).map (push c)
    else (splitFrom .double (c :: cs)).map (push '\\')
  | .double, c :: cs =>
    if c == '"' then splitFrom .word cs else (splitFrom .double cs).map (push c)

/-- The words of a command line. -/
def split (line : String) : Except OpenQuote (List String) :=
  (splitFrom .gap line.toList).map (·.map String.ofList)

/-! ## Quoting -/

/-- The characters that need no quotes. -/
def isBare (c : Char) : Bool :=
  c.isAlphanum || c == '_' || c == '.' || c == '/' || c == ':' || c == '@' || c == '%' || c == '+'
    || c == ',' || c == '=' || c == '-'

/-- The body of a single-quoted word: a quote is closed, escaped and opened again. -/
def quoteBody : List Char → List Char
  | [] => []
  | c :: cs => if c == '\'' then '\'' :: '\\' :: '\'' :: '\'' :: quoteBody cs else c :: quoteBody cs

def quoteList (cs : List Char) : List Char :=
  if !cs.isEmpty && cs.all isBare then cs else '\'' :: (quoteBody cs ++ ['\''])

/-- Writes a word so that a shell reads it back as one word. -/
def quote (word : String) : String :=
  .ofList (quoteList word.toList)

/-- Writes a word of a rule's arguments: quotes only where the word would otherwise fall apart. -/
def quoteLoose (word : String) : String :=
  if word.isEmpty || word.toList.any Text.isSpace then quote word else word

/-- The words with a blank between each two. -/
def join (words : List String) : String :=
  " ".intercalate (words.map quoteLoose)

end ZoneScript.Shell
