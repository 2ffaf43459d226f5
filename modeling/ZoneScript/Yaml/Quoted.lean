import ZoneScript.Yaml.Token
import ZoneScript.Text.Integer

/-!
# Quoted scalars

A quoted scalar may run over several lines. Blanks around a line break are dropped, one break becomes
a blank, and of several the first is dropped. Between single quotes a quote is written twice; between
double quotes a backslash starts an escape, and in front of a line break it leaves the break out.
-/

namespace ZoneScript.Yaml

/-! ## Folding -/

/-- What stands between the last character and the next one: nothing, blanks of the same line, or
line breaks, the first apart from the others. -/
inductive Gap where
  | none
  | blanks (text : List Char)
  | breaks (first others : List Char)
  deriving DecidableEq, Repr, Inhabited

namespace Gap

/-- What a gap contributes to the scalar when another character follows it. -/
def fold : Gap → List Char
  | .none => []
  | .blanks text => text
  | .breaks first others =>
    if first.head? == some '\n' then (if others.isEmpty then [' '] else others)
    else first ++ others

/-- The gap with another blank. -/
def addBlank (ch : Char) : Gap → Gap
  | .none => .blanks [ch]
  | .blanks text => .blanks (text ++ [ch])
  | .breaks first others => .breaks first others

/-- The gap with another line break. -/
def addBreak (text : List Char) : Gap → Gap
  | .breaks first others => .breaks first (others ++ text)
  | _ => .breaks text []

/-- Whether the gap holds a line break. -/
def hasBreak : Gap → Bool
  | .breaks _ _ => true
  | _ => false

end Gap

/-! ## Escapes -/

/-- What follows a backslash: a character that stands for another one, or a number of digits. -/
inductive Escape where
  | char (c : Char)
  | digits (count : Nat)
  deriving DecidableEq, Repr

/-- The escape that a character after a backslash starts. -/
def escape? : Char → Option Escape
  | '0' => some (.char '\x00')
  | 'a' => some (.char '\x07')
  | 'b' => some (.char '\x08')
  | 't' | '\t' => some (.char '\t')
  | 'n' => some (.char '\n')
  | 'v' => some (.char '\x0b')
  | 'f' => some (.char '\x0c')
  | 'r' => some (.char '\r')
  | 'e' => some (.char '\x1b')
  | ' ' => some (.char ' ')
  | '"' => some (.char '"')
  | '/' => some (.char '/')
  | '\\' => some (.char '\\')
  | 'N' => some (.char '\u0085')
  | '_' => some (.char '\u00a0')
  | 'L' => some (.char '\u2028')
  | 'P' => some (.char '\u2029')
  | 'x' => some (.digits 2)
  | 'u' => some (.digits 4)
  | 'U' => some (.digits 8)
  | _ => none

/-- The number that hexadecimal digits write. -/
def hexNumber? (cs : List Char) : Option Nat :=
  cs.foldlM (fun n c => (Text.digitValue? 16 c).map (16 * n + ·)) 0

/-- The character with this number. -/
def charOfNumber? (n : Nat) : Option Char :=
  if n < 0xD800 || (0xE000 ≤ n && n < 0x110000) then some (Char.ofNat n) else none

/-! ## Reading -/

def quotedProblem (doing text : String) (mark : Mark) : Problem :=
  ⟨text, mark, some doing⟩

/-- A scalar without its opening quote: the characters read so far, last first, and the gap after
them. Each step uses at least one character, so fuel above their number never runs out. -/
def readQuoted (single : Bool) :
    Nat → List Char → Gap → Cursor → Except Problem (List Char × Cursor)
  | 0, _, _, cursor =>
    .error (quotedProblem "while scanning a quoted scalar" "found unexpected end of stream"
      cursor.mark)
  | fuel + 1, done, gap, cursor =>
    match cursor.rest with
    | [] =>
      .error (quotedProblem "while scanning a quoted scalar" "found unexpected end of stream"
        cursor.mark)
    | c :: rest =>
      if isBlank c then readQuoted single fuel done (gap.addBlank c) (cursor.skip 1)
      else match cursor.lineBreak? with
      | some (text, next) => readQuoted single fuel done (gap.addBreak text) next
      | none =>
        if cursor.atDocumentMarker then
          .error (quotedProblem "while scanning a quoted scalar"
            "found unexpected document indicator" cursor.mark)
        else
          let done := gap.fold.reverse ++ done
          if single then
            if c == '\'' then
              if rest.head? == some '\'' then
                readQuoted single fuel ('\'' :: done) .none (cursor.skip 2)
              else .ok (done.reverse, cursor.skip 1)
            else readQuoted single fuel (c :: done) .none (cursor.skip 1)
          else if c == '"' then .ok (done.reverse, cursor.skip 1)
          else if c == '\\' then
            match (cursor.skip 1).lineBreak? with
            | some (_, next) => readQuoted single fuel done (.breaks [] []) next
            | none =>
              match rest.head?.bind escape? with
              | none =>
                .error (quotedProblem "while parsing a quoted scalar"
                  "found unknown escape character" cursor.mark)
              | some (.char e) => readQuoted single fuel (e :: done) .none (cursor.skip 2)
              | some (.digits count) =>
                let digits := (cursor.skip 2).rest.take count
                match if digits.length = count then hexNumber? digits else none with
                | none =>
                  .error (quotedProblem "while parsing a quoted scalar"
                    "did not find expected hexadecimal number" (cursor.skip 2).mark)
                | some n =>
                  match charOfNumber? n with
                  | none =>
                    .error (quotedProblem "while parsing a quoted scalar"
                      "found invalid Unicode character escape code" (cursor.skip 2).mark)
                  | some e => readQuoted single fuel (e :: done) .none (cursor.skip (2 + count))
          else readQuoted single fuel (c :: done) .none (cursor.skip 1)

/-- The quoted scalar at the cursor, which stands at its opening quote. -/
def quotedScalar (single : Bool) (cursor : Cursor) : Except Problem (Token × Cursor) :=
  (readQuoted single (cursor.rest.length + 1) [] .none (cursor.skip 1)).map fun (text, next) =>
    (⟨.scalar (.ofList text) (if single then .singleQuoted else .doubleQuoted), cursor.mark,
      next.mark⟩, next)

end ZoneScript.Yaml
