import ZoneScript.Config.Basic
import ZoneScript.Text.Space
import ZoneScript.Text.Split

/-!
# Ports as commands write them

A port is written `port/protocol`, and a forward port as fields with colons between them, such as
`port=80:proto=tcp:toport=8080:toaddr=10.0.0.2`. What stands between two colons and starts no field
belongs to the value before it, so an address may hold colons of its own.
-/

namespace ZoneScript

open Text

/-! ## Ports -/

namespace PortItem

/-- Reads `port/protocol`. Without a protocol the port has the standard one. -/
def ofSpec (spec : String) : PortItem :=
  match splitFirst '/' spec.toList with
  | some (port, protocol) => ⟨.ofList (trim port), .ofList (trim protocol), none⟩
  | none => ⟨.ofList (trim spec.toList), PortProtocol.standard.name, none⟩

def spec (item : PortItem) : String :=
  item.port ++ "/" ++ item.protocol

end PortItem

/-! ## Forward ports -/

/-- Why a text is no forward port. -/
inductive ForwardPortError where
  | malformed (segment : String)
  | noPort (spec : String)
  deriving DecidableEq, Repr, Inhabited

def ForwardPortError.message : ForwardPortError → String
  | .malformed segment => "malformed forward-port segment '" ++ segment ++ "'"
  | .noPort spec => "forward-port '" ++ spec ++ "' has no port"

namespace ForwardPort

/-- The fields of the written form. -/
inductive Part where
  | port
  | proto
  | toPort
  | toAddr
  deriving DecidableEq, Repr

def Part.ofName? : List Char → Option Part
  | ['p', 'o', 'r', 't'] => some .port
  | ['p', 'r', 'o', 't', 'o'] => some .proto
  | ['t', 'o', 'p', 'o', 'r', 't'] => some .toPort
  | ['t', 'o', 'a', 'd', 'd', 'r'] => some .toAddr
  | _ => none

/-- The field that a segment starts. -/
def startsPart? (segment : List Char) : Option (Part × List Char) :=
  (splitFirst '=' segment).bind fun (name, value) => (Part.ofName? name).map (·, value)

/-- The segments gathered into fields, after the segments in front that belong to no field. -/
def gather : List (List Char) → List (List Char) × List (Part × List Char)
  | [] => ([], [])
  | segment :: rest =>
    let (loose, parts) := gather rest
    match startsPart? segment with
    | some (part, value) => ([], (part, joinWith [':'] (value :: loose)) :: parts)
    | none => (segment :: loose, parts)

/-- Writes a field; a field that is written twice keeps the last value. -/
def setPart (item : ForwardPort) : Part × List Char → ForwardPort
  | (.port, value) => { item with port := .ofList value }
  | (.proto, value) => { item with protocol := .ofList value }
  | (.toPort, value) => { item with toPort := some (.ofList value) }
  | (.toAddr, value) => { item with toAddr := some (.ofList value) }

/-- Reads the written form. -/
def ofSpec? (spec : String) : Except ForwardPortError ForwardPort :=
  match gather (pieces (· == ':') spec.toList) with
  | (segment :: _, _) => .error (.malformed (.ofList segment))
  | ([], parts) =>
    let item := parts.foldl setPart { port := "", protocol := PortProtocol.standard.name }
    if item.port.isEmpty then .error (.noPort spec) else .ok item

/-- The written form. -/
def spec (item : ForwardPort) : String :=
  "port=" ++ item.port ++ ":proto=" ++ item.protocol
    ++ ((item.toPort.map (":toport=" ++ ·)).getD "")
    ++ ((item.toAddr.map (":toaddr=" ++ ·)).getD "")

end ForwardPort

end ZoneScript
