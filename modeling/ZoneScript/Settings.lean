import ZoneScript.Json.Syntax
import ZoneScript.Json.Write
import ZoneScript.Script.Import

/-!
# Settings

What a user can set once for every run, kept as JSON. Settings that are not there have their standard
values, and unknown ones are passed over. The values may also stand in a list, in the order of the
fields.
-/

namespace ZoneScript

/-- The notation of a configuration that is written. -/
inductive OutputFormat where
  | yaml
  | json
  deriving DecidableEq, Repr, Inhabited

namespace OutputFormat

def all : List OutputFormat :=
  [.yaml, .json]

def name : OutputFormat → String
  | .yaml => "yaml"
  | .json => "json"

def naming : Naming OutputFormat := { all, name }

abbrev ofName? : String → Option OutputFormat := naming.find?

end OutputFormat

structure Settings where
  /-- The zone of imported lines that name none. -/
  defaultZone : String := Script.Import.standardZone
  banners : Bool := true
  transient : Bool := false
  outputFormat : OutputFormat := .yaml
  deriving DecidableEq, Repr, Inhabited

namespace Settings

/-! ## Fields -/

inductive Field where
  | defaultZone
  | banners
  | transient
  | outputFormat
  deriving DecidableEq, Repr, Inhabited

namespace Field

def all : List Field :=
  [.defaultZone, .banners, .transient, .outputFormat]

def name : Field → String
  | .defaultZone => "default_zone"
  | .banners => "banners"
  | .transient => "transient"
  | .outputFormat => "output_format"

def naming : Naming Field := { all, name }

abbrev ofName? : String → Option Field := naming.find?

end Field

/-! ## Reading -/

def flag? : Json → Option Bool
  | .bool b => some b
  | _ => none

/-- A format: its name, or an object with its name as the only key and null as the value. -/
def format? : Json → Option OutputFormat
  | .object [(key, .null)] =>
    (Json.decode? key.toList).bind fun name => OutputFormat.ofName? (.ofList name)
  | value => value.text?.bind OutputFormat.ofName?

/-- The settings with a field set, if the value fits the field. -/
def set? (settings : Settings) (value : Json) : Field → Option Settings
  | .defaultZone => value.text?.map fun zone => { settings with defaultZone := zone }
  | .banners => (flag? value).map fun on => { settings with banners := on }
  | .transient => (flag? value).map fun on => { settings with transient := on }
  | .outputFormat => (format? value).map fun format => { settings with outputFormat := format }

/-- Sets the fields that an object names. No field may be set twice; `done` are those set before. -/
def setMembers? (settings : Settings) (done : List Field) :
    List (String × Json) → Option Settings
  | [] => some settings
  | (key, value) :: members =>
    (Json.decode? key.toList).bind fun name =>
      match Field.ofName? (.ofList name) with
      | none => setMembers? settings done members
      | some field =>
        if done.contains field then none
        else (settings.set? value field).bind fun settings =>
          setMembers? settings (field :: done) members

/-- Sets the fields in order; there may be fewer values than fields, but not more. -/
def setItems? (settings : Settings) : List Field → List Json → Option Settings
  | _, [] => some settings
  | [], _ :: _ => none
  | field :: fields, value :: values =>
    (settings.set? value field).bind fun settings => setItems? settings fields values

def ofJson? : Json → Option Settings
  | .object members => setMembers? {} [] members
  | .array items => setItems? {} Field.all items
  | _ => none

/-- The settings in a JSON text. -/
def ofText? (text : String) : Option Settings :=
  (Json.read? text).bind ofJson?

/-! ## Writing -/

def toNode (settings : Settings) : Node :=
  .map [
    (.str Field.defaultZone.name, .str settings.defaultZone),
    (.str Field.banners.name, .bool settings.banners),
    (.str Field.transient.name, .bool settings.transient),
    (.str Field.outputFormat.name, .str settings.outputFormat.name)]

/-- The settings as a JSON text. -/
def text (settings : Settings) : String :=
  Json.render settings.toNode

end Settings

end ZoneScript
