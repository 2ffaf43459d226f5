import ZoneScript.Json.Syntax
import ZoneScript.Node

/-!
# Trees from JSON

A JSON text as a document tree. A number without a point and an exponent that fits 64 bits, with or
without a sign, is an integer; every other number is a double-precision number.
-/

namespace ZoneScript.Json

/-- The value of a number as written. -/
def numberNode (text : String) : Option Node :=
  match Text.readInteger? 10 text.toList with
  | some n =>
    if Text.fitsBits 64 n then some (.int n) else (Double.read? text.toList).map .float
  | none => (Double.read? text.toList).map .float

mutual

/-- The tree that a JSON value stands for. -/
def node? : Json → Option Node
  | .null => some .null
  | .bool b => some (.bool b)
  | .number text => numberNode text
  | .string body => (decode? body.toList).map fun cs => .str (.ofList cs)
  | .array items => (nodes? items).map .seq
  | .object members => (entries? members).map .map

def nodes? : List Json → Option (List Node)
  | [] => some []
  | item :: items => (node? item).bind fun n => (nodes? items).map (n :: ·)

def entries? : List (String × Json) → Option Node.Entries
  | [] => some []
  | (key, value) :: members =>
    (decode? key.toList).bind fun k =>
      (node? value).bind fun v =>
        (entries? members).map ((.str (.ofList k), v) :: ·)

end

end ZoneScript.Json
