import ZoneScript.Text.Split
import ZoneScript.Text.Integer

/-!
# JSON syntax

Reads a JSON text into its syntax tree. Numbers and the bodies of strings are kept as written, so
that what a number or an escape means is decided where the value is used. Nothing may follow the
value but white space.
-/

namespace ZoneScript

/-- A JSON text taken apart. A string is what stands between its quotes. -/
inductive Json where
  | null
  | bool (value : Bool)
  | number (text : String)
  | string (body : String)
  | array (items : List Json)
  | object (members : List (String × Json))
  deriving Repr, Inhabited

namespace Json

/-! ## Tokens -/

def isBlank (c : Char) : Bool :=
  c == ' ' || c == '\t' || c == '\n' || c == '\r'

def skipBlanks (cs : List Char) : List Char :=
  cs.dropWhile isBlank

def isHexDigit (c : Char) : Bool :=
  c.isDigit || ('a' ≤ c && c ≤ 'f') || ('A' ≤ c && c ≤ 'F')

/-- The characters that stand for another one after a backslash. -/
def isShortEscape (c : Char) : Bool :=
  c == '"' || c == '\\' || c == '/' || c == 'b' || c == 'f' || c == 'n' || c == 'r' || c == 't'

/-- The body of a string whose opening quote has been read, and what follows the closing quote. -/
def readBody? : List Char → Option (List Char × List Char)
  | [] => none
  | '\\' :: 'u' :: a :: b :: c :: d :: cs =>
    if isHexDigit a && isHexDigit b && isHexDigit c && isHexDigit d then
      (readBody? cs).map fun (body, rest) => ('\\' :: 'u' :: a :: b :: c :: d :: body, rest)
    else none
  | '\\' :: c :: cs =>
    if isShortEscape c then (readBody? cs).map fun (body, rest) => ('\\' :: c :: body, rest)
    else none
  | c :: cs =>
    if c == '"' then some ([], cs)
    else if c == '\\' || c.toNat < 0x20 then none
    else (readBody? cs).map fun (body, rest) => (c :: body, rest)

/-- At least one digit. -/
def readDigits? (cs : List Char) : Option (List Char × List Char) :=
  if (cs.takeWhile Char.isDigit).isEmpty then none
  else some (cs.takeWhile Char.isDigit, cs.dropWhile Char.isDigit)

/-- The whole part of a number: a zero, or digits that do not start with one. -/
def readWhole? : List Char → Option (List Char × List Char)
  | '0' :: cs => if (cs.head?.map Char.isDigit).getD false then none else some (['0'], cs)
  | cs => readDigits? cs

/-- A point with digits, if there is a point. -/
def readFraction? : List Char → Option (List Char × List Char)
  | '.' :: cs => (readDigits? cs).map fun (digits, rest) => ('.' :: digits, rest)
  | cs => some ([], cs)

/-- An exponent, if there is one. -/
def readExponent? : List Char → Option (List Char × List Char)
  | [] => some ([], [])
  | e :: cs =>
    if e == 'e' || e == 'E' then
      match cs with
      | '+' :: ds => (readDigits? ds).map fun (digits, rest) => (e :: '+' :: digits, rest)
      | '-' :: ds => (readDigits? ds).map fun (digits, rest) => (e :: '-' :: digits, rest)
      | ds => (readDigits? ds).map fun (digits, rest) => (e :: digits, rest)
    else some ([], e :: cs)

/-- A number as written. -/
def readNumber? (cs : List Char) : Option (List Char × List Char) := do
  let (sign, cs) := match cs with
    | '-' :: rest => (['-'], rest)
    | _ => ([], cs)
  let (whole, cs) ← readWhole? cs
  let (fraction, cs) ← readFraction? cs
  let (power, cs) ← readExponent? cs
  return (sign ++ whole ++ fraction ++ power, cs)

/-! ## Values -/

mutual

/-- A value at the start of a text, and the rest of the text. Every step down uses a character, so
fuel above the length of the text never runs out. -/
def readValue? : Nat → List Char → Option (Json × List Char)
  | 0, _ => none
  | fuel + 1, cs =>
    match skipBlanks cs with
    | [] => none
    | '"' :: rest => (readBody? rest).map fun (body, rest) => (.string (.ofList body), rest)
    | '[' :: rest =>
      match skipBlanks rest with
      | ']' :: rest => some (.array [], rest)
      | rest => (readItems? fuel rest).map fun (items, rest) => (.array items, rest)
    | '\x7b' :: rest =>
      match skipBlanks rest with
      | '\x7d' :: rest => some (.object [], rest)
      | rest => (readMembers? fuel rest).map fun (members, rest) => (.object members, rest)
    | 'n' :: rest => (Text.dropHead? "ull".toList rest).map fun rest => (.null, rest)
    | 't' :: rest => (Text.dropHead? "rue".toList rest).map fun rest => (.bool true, rest)
    | 'f' :: rest => (Text.dropHead? "alse".toList rest).map fun rest => (.bool false, rest)
    | rest => (readNumber? rest).map fun (text, rest) => (.number (.ofList text), rest)

/-- The items of a list up to its closing bracket. -/
def readItems? : Nat → List Char → Option (List Json × List Char)
  | 0, _ => none
  | fuel + 1, cs =>
    match readValue? fuel cs with
    | none => none
    | some (item, rest) =>
      match skipBlanks rest with
      | ',' :: rest => (readItems? fuel rest).map fun (items, rest) => (item :: items, rest)
      | ']' :: rest => some ([item], rest)
      | _ => none

/-- The members of an object up to its closing brace. -/
def readMembers? : Nat → List Char → Option (List (String × Json) × List Char)
  | 0, _ => none
  | fuel + 1, cs =>
    match skipBlanks cs with
    | '"' :: rest =>
      match readBody? rest with
      | none => none
      | some (key, rest) =>
        match skipBlanks rest with
        | ':' :: rest =>
          match readValue? fuel rest with
          | none => none
          | some (value, rest) =>
            match skipBlanks rest with
            | ',' :: rest =>
              (readMembers? fuel rest).map fun (members, rest) =>
                ((.ofList key, value) :: members, rest)
            | '\x7d' :: rest => some ([(.ofList key, value)], rest)
            | _ => none
        | _ => none
    | _ => none

end

/-- The syntax tree of a JSON text, if it is one. -/
def read? (text : String) : Option Json :=
  match readValue? (2 * text.toList.length + 2) text.toList with
  | some (value, rest) => if (skipBlanks rest).isEmpty then some value else none
  | none => none

/-! ## Meaning -/

/-- The value of four hexadecimal digits. -/
def hexValue (cs : List Char) : Nat :=
  cs.foldl (fun n c => 16 * n + ((Text.digitValue? 16 c).getD 0)) 0

/-- What a short escape stands for. -/
def shortEscape (c : Char) : Char :=
  if c == 'b' then '\x08' else if c == 'f' then '\x0c' else if c == 'n' then '\n'
  else if c == 'r' then '\r' else if c == 't' then '\t' else c

/-- The text that the body of a string stands for. Two escapes may write one character beyond the
first sixty-four thousand; half of such a pair is not a text. -/
def decode? : List Char → Option (List Char)
  | [] => some []
  | '\\' :: 'u' :: a :: b :: c :: d :: cs =>
    let n := hexValue [a, b, c, d]
    if 0xD800 ≤ n && n < 0xDC00 then
      match cs with
      | '\\' :: 'u' :: e :: f :: g :: h :: cs =>
        let m := hexValue [e, f, g, h]
        if 0xDC00 ≤ m && m < 0xE000 then
          (decode? cs).map (Char.ofNat (0x10000 + (n - 0xD800) * 0x400 + (m - 0xDC00)) :: ·)
        else none
      | _ => none
    else if 0xDC00 ≤ n && n < 0xE000 then none
    else (decode? cs).map (Char.ofNat n :: ·)
  | '\\' :: c :: cs => (decode? cs).map (shortEscape c :: ·)
  | c :: cs => (decode? cs).map (c :: ·)

/-- The text of a string. -/
def text? : Json → Option String
  | .string body => (decode? body.toList).map String.ofList
  | _ => none

end Json

end ZoneScript
