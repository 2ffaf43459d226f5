import ZoneScript.Config.PortSpec
import ZoneScript.Config.RichRuleText
import ZoneScript.Diagnostic
import ZoneScript.Keys
import ZoneScript.Node
import ZoneScript.Text.Quoted

/-!
# Configurations from trees

Reads a document tree as a configuration. Scalars become text. A mapping gives the fields that its
keys name and leaves out what it does not know; a missing field has its default. Items of a zone's
lists, variables and the members of rule groups come in several shapes, and an item that fits none of
them is reported as such, without a reason.

Two kinds of record are told apart. A plain one is a mapping with text keys, or null for one without
entries. A loose one belongs to an item with several shapes: there a number may stand for the key at
that position, and a rich rule or a clause of one may also be a list of its fields in order.
-/

namespace ZoneScript

/-- Why a tree is not read. -/
inductive DecodeError where
  /-- A value of the wrong kind. -/
  | wrongKind (found : Node) (expected : String)
  /-- A value that fits none of the shapes of this name. -/
  | noShape (name : String)
  /-- A tag on a value that may have several shapes. -/
  | tagged
  /-- A key that is written twice. -/
  | twice (key : String)
  /-- A list with more fields than the record. -/
  | tooLong (length : Nat)
  | priorityRange (value : Int)
  | priorityText (text : String)
  | forwardPort (reason : ForwardPortError)
  deriving Repr, Inhabited

namespace DecodeError

/-- A value as a message describes it. -/
def describe : Node → String
  | .null => "unit value"
  | .bool b => "boolean \x60" ++ Node.boolText b ++ "\x60"
  | .int n => "integer \x60" ++ Node.intText n ++ "\x60"
  | .float x =>
    let text := x.plainText
    let point := if x.isFinite && !text.contains '.' then ".0" else ""
    "floating point \x60" ++ .ofList text ++ point ++ "\x60"
  | .str s => "string " ++ Text.quoted s
  | .seq _ => "sequence"
  | .map _ => "map"
  | .tagged _ _ => "enum"

def message : DecodeError → String
  | .wrongKind found expected => "invalid type: " ++ describe found ++ ", expected " ++ expected
  | .noShape name => "data did not match any variant of untagged enum " ++ name
  | .tagged => "untagged and internally tagged enums do not support enum input"
  | .twice key => "duplicate field \x60" ++ key ++ "\x60"
  | .tooLong length => "invalid length " ++ toString length ++ ", expected fewer elements in sequence"
  | .priorityRange value => "priority " ++ Node.intText value ++ " out of range"
  | .priorityText text => "priority '" ++ text ++ "' is not an integer"
  | .forwardPort reason => reason.message

end DecodeError

namespace Decode

abbrev Result := Except DecodeError

/-! ## Tags -/

mutual

/-- Whether a tag stands anywhere in a tree. -/
def hasTag : Node → Bool
  | .tagged _ _ => true
  | .seq items => anyTag items
  | .map entries => anyEntryTag entries
  | _ => false

def anyTag : List Node → Bool
  | [] => false
  | node :: nodes => hasTag node || anyTag nodes

def anyEntryTag : List (Node × Node) → Bool
  | [] => false
  | (key, value) :: entries => hasTag key || hasTag value || anyEntryTag entries

end

/-- A value with several shapes: the one that `shapes` finds, and no tag anywhere. -/
def shaped {α : Type} (name : String) (shapes : Node → Option α) (node : Node) : Result α :=
  if hasTag node then .error .tagged
  else match shapes node with
    | some x => .ok x
    | none => .error (.noShape name)

/-! ## Scalars -/

/-- The text that a scalar stands for. An integer that does not fit 64 bits with a sign is taken as a
double-precision number. -/
def scalarText? : Node → Option String
  | .str s => some s
  | .int n => some (if Text.fitsSigned 64 n then Node.intText n else .ofList (Double.ofInt n).plainText)
  | .float x => some (.ofList x.plainText)
  | .bool b => some (Node.boolText b)
  | _ => none

def scalar (node : Node) : Result String :=
  shaped "Scalar" scalarText? node

def optional {α : Type} (read : Node → Result α) : Node → Result (Option α)
  | .null => .ok none
  | node => (read node).map some

def text (node : Node) : Result String :=
  match node.untag with
  | .str s => .ok s
  | other => .error (.wrongKind other "a string")

def flag (node : Node) : Result Bool :=
  match node.untag with
  | .bool b => .ok b
  | other => .error (.wrongKind other "a boolean")

/-- A priority: an integer of 32 bits, or a text of one. -/
def priority (node : Node) : Result Int :=
  match node with
  | .int n =>
    if Text.fitsSigned 64 n then
      if Text.fitsSigned 32 n then .ok n else .error (.priorityRange n)
    else (scalar node).bind fun s => .error (.priorityText s)
  | .str s =>
    match Text.readSigned? 32 (Text.trim s.toList) with
    | some n => .ok n
    | none => .error (.priorityText s)
  | _ => (scalar node).bind fun s => .error (.priorityText s)

/-! ## Lists and records -/

def each {α : Type} (read : Node → Result α) : List Node → Result (List α)
  | [] => .ok []
  | node :: nodes => (read node).bind fun x => (each read nodes).map (x :: ·)

/-- A list; null is the empty one. -/
def list {α : Type} (read : Node → Result α) (node : Node) : Result (List α) :=
  match node.untag with
  | .seq items => each read items
  | .null => .ok []
  | other => .error (.wrongKind other "a sequence")

/-- How the keys of a record are found. -/
inductive Style where
  | plain
  | loose
  deriving DecidableEq, Repr

/-- The field that a key names, if the record has it. -/
def fieldOf (style : Style) (keys : List String) (key : Node) : Result (Option String) :=
  match style, key.untag with
  | _, .str name => .ok (if keys.contains name then some name else none)
  | .loose, .int n =>
    if 0 ≤ n then .ok keys[n.toNat]? else .error (.wrongKind (.int n) "field identifier")
  | _, other => .error (.wrongKind other "field identifier")

/-- Reads the entries of a mapping one after the other into a record. -/
def fields {σ : Type} (style : Style) (keys : List String) (set : String → Node → σ → Result σ) :
    List String → Node.Entries → σ → Result σ
  | _, [], record => .ok record
  | seen, (key, value) :: entries, record =>
    match fieldOf style keys key with
    | .error e => .error e
    | .ok none => fields style keys set seen entries record
    | .ok (some name) =>
      if seen.contains name then .error (.twice name)
      else (set name value record).bind (fields style keys set (name :: seen) entries)

/-- Reads a list as the fields of a record in order. -/
def positions {σ : Type} (set : String → Node → σ → Result σ) :
    List String → List Node → σ → Result σ
  | _, [], record => .ok record
  | [], items, _ => .error (.tooLong items.length)
  | name :: names, item :: items, record => (set name item record).bind (positions set names items)

/-- A record of this name. -/
def record {σ : Type} (style : Style) (name : String) (keys : List String)
    (set : String → Node → σ → Result σ) (empty : σ) (node : Node) : Result σ :=
  match style, node.untag with
  | _, .map entries => fields style keys set [] entries empty
  | .plain, .null => .ok empty
  | .loose, .seq items => positions set keys items empty
  | _, other => .error (.wrongKind other ("struct " ++ name))

/-- A mapping whose keys are names. -/
def named {α : Type} (read : Node → Result α) :
    Node.Entries → List (String × α) → Result (List (String × α))
  | [], done => .ok done
  | (key, value) :: entries, done =>
    (text key).bind fun name =>
      (read value).bind fun x => named read entries (Ordered.insert name x done)

def namedMap {α : Type} (read : Node → Result α) (node : Node) : Result (List (String × α)) :=
  match node.untag with
  | .map entries => named read entries []
  | .null => .ok []
  | other => .error (.wrongKind other "a map")

/-! ## Items with several shapes -/

/-- The record of an item that may also be written as a scalar. -/
def itemRecord {σ : Type} (keys : List String) (set : String → Node → σ → Result σ) (empty : σ) :
    Node → Option σ
  | .map entries => (fields .loose keys set [] entries empty).toOption
  | _ => none

def scalars? : Node → Option (List String)
  | .seq items => items.mapM scalarText?
  | _ => none

def templateValue? (node : Node) : Option Variable :=
  ((scalars? node).map Variable.list).or ((scalarText? node).map Variable.scalar)

def variableOf (node : Node) : Result Variable :=
  shaped "Repr" templateValue? node

def setValueItem (name : String) (value : Node) (item : ValueItem) : Result ValueItem :=
  match name with
  | "value" => (scalar value).map fun s => { item with value := s }
  | "loop" => (optional text value).map fun s => { item with loop := s }
  | _ => .ok item

def valueItem? (node : Node) : Option ValueItem :=
  ((scalarText? node).map fun s => { value := s }).or
    (itemRecord Keys.valueItem setValueItem { value := "" } node)

def setPortItem (name : String) (value : Node) (item : PortItem) : Result PortItem :=
  match name with
  | "port" => (scalar value).map fun s => { item with port := s }
  | "protocol" =>
    (optional scalar value).map fun s => { item with protocol := s.getD PortProtocol.standard.name }
  | "loop" => (optional text value).map fun s => { item with loop := s }
  | _ => .ok item

def portItem? (node : Node) : Option PortItem :=
  ((scalarText? node).map PortItem.ofSpec).or
    (itemRecord Keys.port setPortItem { port := "", protocol := PortProtocol.standard.name } node)

def setForwardPort (name : String) (value : Node) (item : ForwardPort) : Result ForwardPort :=
  match name with
  | "port" => (scalar value).map fun s => { item with port := s }
  | "protocol" =>
    (optional scalar value).map fun s => { item with protocol := s.getD PortProtocol.standard.name }
  | "to_port" => (optional scalar value).map fun s => { item with toPort := s }
  | "to_addr" => (optional scalar value).map fun s => { item with toAddr := s }
  | "loop" => (optional text value).map fun s => { item with loop := s }
  | _ => .ok item

def forwardPort (node : Node) : Result ForwardPort :=
  match node with
  | .str spec => (ForwardPort.ofSpec? spec).mapError .forwardPort
  | _ =>
    shaped "Repr" (itemRecord Keys.forwardPort setForwardPort
      { port := "", protocol := PortProtocol.standard.name }) node

def setGroupPassthrough (name : String) (value : Node) (item : GroupPassthrough) :
    Result GroupPassthrough :=
  match name with
  | "args" => (scalar value).map fun s => { item with args := s }
  | "loop" => (optional text value).map fun s => { item with loop := s }
  | _ => .ok item

def groupPassthrough? : Node → Option GroupPassthrough
  | .str args => some { args }
  | node => itemRecord Keys.groupPassthrough setGroupPassthrough {} node

/-! ## Rich rules -/

def setRichLog (name : String) (value : Node) (log : RichLog) : Result RichLog :=
  match name with
  | "prefix" => (optional scalar value).map fun s => { log with label := s }
  | "level" => (optional scalar value).map fun s => { log with level := s }
  | "limit" => (optional scalar value).map fun s => { log with limit := s }
  | _ => .ok log

def setRichForwardPort (name : String) (value : Node) (item : RichForwardPort) :
    Result RichForwardPort :=
  match name with
  | "port" => (scalar value).map fun s => { item with port := s }
  | "protocol" => (scalar value).map fun s => { item with protocol := s }
  | "to_port" => (optional scalar value).map fun s => { item with toPort := s }
  | "to_addr" => (optional scalar value).map fun s => { item with toAddr := s }
  | _ => .ok item

def setRichSourcePort (name : String) (value : Node) (item : RichSourcePort) :
    Result RichSourcePort :=
  match name with
  | "port" => (scalar value).map fun s => { item with port := s }
  | "protocol" => (scalar value).map fun s => { item with protocol := s }
  | _ => .ok item

def setRichRule (style : Style) (name : String) (value : Node) (rule : RichRule) :
    Result RichRule :=
  match name with
  | "family" => (optional scalar value).map fun s => { rule with family := s }
  | "source" => (optional scalar value).map fun s => { rule with source := s }
  | "source_invert" => (flag value).map fun b => { rule with sourceInvert := b }
  | "destination" => (optional scalar value).map fun s => { rule with destination := s }
  | "destination_invert" => (flag value).map fun b => { rule with destinationInvert := b }
  | "service" => (optional scalar value).map fun s => { rule with service := s }
  | "port" => (optional scalar value).map fun s => { rule with port := s }
  | "protocol" => (optional scalar value).map fun s => { rule with protocol := s }
  | "icmp_block" => (optional scalar value).map fun s => { rule with icmpBlock := s }
  | "icmp_type" => (optional scalar value).map fun s => { rule with icmpType := s }
  | "masquerade" => (flag value).map fun b => { rule with masquerade := b }
  | "forward_port" =>
    (optional (record style "RichForwardPort" Keys.richForwardPort setRichForwardPort {}) value).map
      fun x => { rule with forwardPort := x }
  | "source_port" =>
    (optional (record style "RichPortSpec" Keys.richSourcePort setRichSourcePort {}) value).map
      fun x => { rule with sourcePort := x }
  | "log" =>
    (optional (record style "RichLog" Keys.richLog setRichLog {}) value).map
      fun x => { rule with log := x }
  | "audit" => (flag value).map fun b => { rule with audit := b }
  | "action" => (optional scalar value).map fun s => { rule with action := s }
  | "reject_type" => (optional scalar value).map fun s => { rule with rejectType := s }
  | "mark_set" => (optional scalar value).map fun s => { rule with markSet := s }
  | "loop" => (optional text value).map fun s => { rule with loop := s }
  | _ => .ok rule

/-- A rich rule as a record. -/
def richRule (style : Style) (node : Node) : Result RichRule :=
  record style "RichRule" Keys.richRule (setRichRule style) {} node

/-- A rich rule in a zone: a text or a record. -/
def richRuleItem? : Node → Option RichRule
  | .str rule => some (RichRule.ofText rule)
  | node => (richRule .loose node).toOption

/-! ## Zones -/

def setZone (name : String) (value : Node) (zone : Zone) : Result Zone :=
  match name with
  | "target" => (optional scalar value).map fun s => { zone with target := s }
  | "interfaces" =>
    (list (shaped "Repr" valueItem?) value).map fun xs => { zone with interfaces := xs }
  | "sources" => (list (shaped "Repr" valueItem?) value).map fun xs => { zone with sources := xs }
  | "services" => (list (shaped "Repr" valueItem?) value).map fun xs => { zone with services := xs }
  | "ports" => (list (shaped "Repr" portItem?) value).map fun xs => { zone with ports := xs }
  | "protocols" =>
    (list (shaped "Repr" valueItem?) value).map fun xs => { zone with protocols := xs }
  | "source_ports" =>
    (list (shaped "Repr" portItem?) value).map fun xs => { zone with sourcePorts := xs }
  | "rich_rules" =>
    (list (shaped "Repr" richRuleItem?) value).map fun xs => { zone with richRules := xs }
  | "forward" => (optional flag value).map fun b => { zone with forward := b }
  | "masquerade" => (optional flag value).map fun b => { zone with masquerade := b }
  | "forward_ports" => (list forwardPort value).map fun xs => { zone with forwardPorts := xs }
  | "icmp_blocks" =>
    (list (shaped "Repr" valueItem?) value).map fun xs => { zone with icmpBlocks := xs }
  | "icmp_block_inversion" =>
    (optional flag value).map fun b => { zone with icmpBlockInversion := b }
  | _ => .ok zone

def zone (node : Node) : Result Zone :=
  record .plain "Zone" Keys.zone setZone {} node

/-! ## The direct block -/

def setDirectChain (name : String) (value : Node) (chain : DirectChain) : Result DirectChain :=
  match name with
  | "ipv" => (scalar value).map fun s => { chain with ipv := s }
  | "table" => (scalar value).map fun s => { chain with table := s }
  | "chain" => (scalar value).map fun s => { chain with chain := s }
  | _ => .ok chain

def setDirectRule (name : String) (value : Node) (rule : DirectRule) : Result DirectRule :=
  match name with
  | "ipv" => (scalar value).map fun s => { rule with ipv := s }
  | "table" => (scalar value).map fun s => { rule with table := s }
  | "chain" => (scalar value).map fun s => { rule with chain := s }
  | "priority" => (priority value).map fun n => { rule with priority := n }
  | "args" => (scalar value).map fun s => { rule with args := s }
  | "loop" => (optional text value).map fun s => { rule with loop := s }
  | _ => .ok rule

def setPassthrough (name : String) (value : Node) (item : Passthrough) : Result Passthrough :=
  match name with
  | "ipv" => (scalar value).map fun s => { item with ipv := s }
  | "args" => (scalar value).map fun s => { item with args := s }
  | "loop" => (optional text value).map fun s => { item with loop := s }
  | _ => .ok item

def setGroupRule (name : String) (value : Node) (rule : GroupRule) : Result GroupRule :=
  match name with
  | "priority" => (optional priority value).map fun n => { rule with priority := n }
  | "args" => (scalar value).map fun s => { rule with args := s }
  | "loop" => (optional text value).map fun s => { rule with loop := s }
  | _ => .ok rule

/-- The families of a rule group: one, or a list. -/
def families? (node : Node) : Option (List String) :=
  (scalars? node).or ((scalarText? node).map ([·]))

def setRuleGroup (name : String) (value : Node) (group : RuleGroup) : Result RuleGroup :=
  match name with
  | "ipv" => (shaped "OneOrMany" families? value).map fun xs => { group with ipv := xs }
  | "table" => (scalar value).map fun s => { group with table := s }
  | "chain" => (scalar value).map fun s => { group with chain := s }
  | "priority" => (optional priority value).map fun n => { group with priority := n }
  | "rules" =>
    (list (record .plain "RuleGroupRule" Keys.groupRule setGroupRule {}) value).map
      fun xs => { group with rules := xs }
  | "passthroughs" =>
    (list (shaped "Repr" groupPassthrough?) value).map fun xs => { group with passthroughs := xs }
  | _ => .ok group

def setDirect (name : String) (value : Node) (direct : Direct) : Result Direct :=
  match name with
  | "chains" =>
    (list (record .plain "DirectChain" Keys.directChain setDirectChain {}) value).map
      fun xs => { direct with chains := xs }
  | "rules" =>
    (list (record .plain "DirectRule" Keys.directRule setDirectRule {}) value).map
      fun xs => { direct with rules := xs }
  | "passthroughs" =>
    (list (record .plain "Passthrough" Keys.passthrough setPassthrough {}) value).map
      fun xs => { direct with passthroughs := xs }
  | "rule_groups" =>
    (list (record .plain "RuleGroup" Keys.ruleGroup setRuleGroup {}) value).map
      fun xs => { direct with ruleGroups := xs }
  | _ => .ok direct

/-! ## Configurations -/

/-- The zones by name; a name without a value is an empty zone. -/
def zones (node : Node) : Result (List (String × Zone)) :=
  (namedMap (optional zone) node).map fun es => es.map fun (name, z) => (name, z.getD {})

def setConfig (name : String) (value : Node) (config : Config) : Result Config :=
  match name with
  | "variables" => (namedMap variableOf value).map fun es => { config with vars := es }
  | "zones" => (zones value).map fun es => { config with zones := es }
  | "direct" =>
    (optional (record .plain "Direct" Keys.direct setDirect {}) value).map
      fun d => { config with direct := d }
  | _ => .ok config

def config (node : Node) : Result Config :=
  record .plain "Config" Keys.topLevel setConfig {} node

end Decode

/-- The configuration that a document tree holds. -/
def Config.ofDocument (document : Node) : Except Failure Config :=
  (Decode.config document).mapError fun e => .validation "document" e.message

end ZoneScript
