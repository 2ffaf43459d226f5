import ZoneScript.Node
import ZoneScript.Yaml.Token
import ZoneScript.Text.Quoted

/-!
# What scalars stand for

A plain scalar without a tag, or with one of the document's own, is null, a boolean or a number if it
is written like one, and a text otherwise. Any other scalar is a text, unless its tag asks for a value
of one of these types.
-/

namespace ZoneScript.Yaml

/-! ## Texts of values -/

def isNullText (s : String) : Bool :=
  ["null", "Null", "NULL", "~"].contains s

def boolOfText? (s : String) : Option Bool :=
  if ["true", "True", "TRUE"].contains s then some true
  else if ["false", "False", "FALSE"].contains s then some false
  else none

/-- Whether a text is digits behind a zero, such as `007`, which is no number. -/
def isPaddedNumber (cs : List Char) : Bool :=
  let digits := match cs with
    | '-' :: rest | '+' :: rest => rest
    | _ => cs
  1 < digits.length && digits.head? == some '0' && digits.all Char.isDigit

/-- The text without a plus sign in front. -/
def withoutPlus : List Char → List Char
  | '+' :: cs => cs
  | cs => cs

def startsWithSign (cs : List Char) : Bool :=
  cs.head? == some '+' || cs.head? == some '-'

/-- The base that a text starts with a mark for, and the digits after the mark. -/
def basedDigits? : List Char → Option (Nat × List Char)
  | '0' :: 'x' :: cs => some (16, cs)
  | '0' :: 'o' :: cs => some (8, cs)
  | '0' :: 'b' :: cs => some (2, cs)
  | _ => none

/-- The integer that a text writes: in decimal, or behind a mark in another base, with at most one
sign in front of it. -/
def intOfText? (cs : List Char) : Option Int :=
  let (negative, body) := match cs with
    | '-' :: rest => (true, rest)
    | _ => (false, withoutPlus cs)
  let magnitude := match basedDigits? body with
    | some (base, digits) => Text.readNat? base digits
    | none => if isPaddedNumber body then none else Text.readNat? 10 body
  magnitude.map fun n => if negative then -(n : Int) else n

/-- The number that a text writes in decimal notation, or by its name. -/
def floatOfText? (cs : List Char) : Option Double :=
  let body := withoutPlus cs
  let text := String.ofList body
  if body.length < cs.length && startsWithSign body then none
  else if [".inf", ".Inf", ".INF"].contains text then some (.infinite false)
  else if body.length < cs.length then (Double.read? body).filter (·.isFinite)
  else if ["-.inf", "-.Inf", "-.INF"].contains text then some (.infinite true)
  else if [".nan", ".NaN", ".NAN"].contains text then some .nan
  else (Double.read? body).filter (·.isFinite)

/-! ## Errors -/

/-- The types that a tag can ask for. -/
inductive ScalarType where
  | bool
  | int
  | float
  | null
  deriving DecidableEq, Repr, Inhabited

def ScalarType.noun : ScalarType → String
  | .bool => "a boolean"
  | .int => "an integer"
  | .float => "a float"
  | .null => "null"

/-- The type that a tag asks for. -/
def ScalarType.ofTag? (tag : Tag) : Option ScalarType :=
  match tag.text? with
  | some "tag:yaml.org,2002:bool" => some .bool
  | some "tag:yaml.org,2002:int" => some .int
  | some "tag:yaml.org,2002:float" => some .float
  | some "tag:yaml.org,2002:null" => some .null
  | _ => none

inductive ScalarError where
  /-- The text is no value of the type that its tag asks for. -/
  | unfit (text : String) (wanted : ScalarType)
  /-- The integer has more than 64 bits. -/
  | tooWide (value : Int)
  deriving DecidableEq, Repr, Inhabited

def ScalarError.message : ScalarError → String
  | .unfit text wanted =>
    "invalid value: string " ++ Text.quoted text ++ ", expected " ++ wanted.noun
  | .tooWide value =>
    "invalid type: integer \x60" ++ Node.intText value ++ "\x60 as "
      ++ (if 0 ≤ value then "u128" else "i128") ++ ", expected any YAML value"

/-! ## Meaning -/

/-- An integer of a document. Beyond 64 bits there is none; beyond 128 bits a text is no integer. -/
def readInt? (cs : List Char) : Option (Except ScalarError Node) :=
  (intOfText? cs).bind fun n =>
    if Text.fitsBits 64 n then some (.ok (.int n))
    else if Text.fitsBits 128 n then some (.error (.tooWide n))
    else none

/-- What a plain scalar without a tag stands for. -/
def plainMeaning (s : String) : Except ScalarError Node :=
  let cs := s.toList
  if s.isEmpty || isNullText s then .ok .null
  else match boolOfText? s with
    | some b => .ok (.bool b)
    | none =>
      match readInt? cs with
      | some result => result
      | none =>
        match if isPaddedNumber cs then none else floatOfText? cs with
        | some x => .ok (.float x)
        | none => .ok (.str s)

/-- What a scalar stands for whose tag asks for a type. -/
def typedMeaning (s : String) (wanted : ScalarType) : Except ScalarError Node :=
  let value? : Option (Except ScalarError Node) := match wanted with
    | .bool => (boolOfText? s).map fun b => .ok (.bool b)
    | .int => readInt? s.toList
    | .float => (floatOfText? s.toList).map fun x => .ok (.float x)
    | .null => if isNullText s then some (.ok .null) else none
  value?.getD (.error (.unfit s wanted))

/-- What a scalar stands for. A tag of the document's own does not change it, and any other one that
asks for no type makes it a text. -/
def scalarMeaning (tag : Option Tag) (s : String) (style : ScalarStyle) :
    Except ScalarError Node :=
  match tag.bind ScalarType.ofTag? with
  | some wanted => typedMeaning s wanted
  | none =>
    if (tag.map Tag.isOwn).getD true && style == .plain then plainMeaning s else .ok (.str s)

end ZoneScript.Yaml
