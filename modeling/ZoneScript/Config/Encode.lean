import ZoneScript.Config.Basic
import ZoneScript.Node

/-!
# Configurations as trees

Writes a configuration as a document tree. What is absent, empty or switched off is left out, and an
item that needs no record is a plain text. Reading the tree gives the configuration back.
-/

namespace ZoneScript

namespace Encode

/-! ## Entries -/

/-- An entry of a record. -/
def entry (key : String) (value : Node) : Node × Node :=
  (.str key, value)

/-- An entry for a text that may be absent. -/
def optional (key : String) : Option String → Node.Entries
  | none => []
  | some text => [entry key (.str text)]

/-- An entry for a switch that is on. -/
def switch (key : String) : Bool → Node.Entries
  | false => []
  | true => [entry key (.bool true)]

/-- An entry for a toggle that is set. -/
def toggle (key : String) : Option Bool → Node.Entries
  | none => []
  | some b => [entry key (.bool b)]

/-- An entry for a part that may be absent. -/
def part {α : Type} (key : String) (node : α → Node) : Option α → Node.Entries
  | none => []
  | some x => [entry key (node x)]

/-- An entry for a list that is not empty. -/
def list {α : Type} (key : String) (node : α → Node) : List α → Node.Entries
  | [] => []
  | x :: xs => [entry key (.seq ((x :: xs).map node))]

/-! ## Items -/

def templateVariable : Variable → Node
  | .scalar value => .str value
  | .list items => .seq (items.map .str)

def valueItem (item : ValueItem) : Node :=
  match item.loop with
  | none => .str item.value
  | some loop => .map [entry "value" (.str item.value), entry "loop" (.str loop)]

def portItem (item : PortItem) : Node :=
  .map ([entry "port" (.str item.port), entry "protocol" (.str item.protocol)]
    ++ optional "loop" item.loop)

def forwardPort (item : ForwardPort) : Node :=
  .map ([entry "port" (.str item.port), entry "protocol" (.str item.protocol)]
    ++ optional "to_port" item.toPort ++ optional "to_addr" item.toAddr
    ++ optional "loop" item.loop)

def richLog (log : RichLog) : Node :=
  .map (optional "prefix" log.label ++ optional "level" log.level ++ optional "limit" log.limit)

def richForwardPort (item : RichForwardPort) : Node :=
  .map ([entry "port" (.str item.port), entry "protocol" (.str item.protocol)]
    ++ optional "to_port" item.toPort ++ optional "to_addr" item.toAddr)

def richSourcePort (item : RichSourcePort) : Node :=
  .map [entry "port" (.str item.port), entry "protocol" (.str item.protocol)]

def richRule (rule : RichRule) : Node :=
  .map (optional "family" rule.family
    ++ optional "source" rule.source ++ switch "source_invert" rule.sourceInvert
    ++ optional "destination" rule.destination
    ++ switch "destination_invert" rule.destinationInvert
    ++ optional "service" rule.service ++ optional "port" rule.port
    ++ optional "protocol" rule.protocol ++ optional "icmp_block" rule.icmpBlock
    ++ optional "icmp_type" rule.icmpType ++ switch "masquerade" rule.masquerade
    ++ part "forward_port" richForwardPort rule.forwardPort
    ++ part "source_port" richSourcePort rule.sourcePort
    ++ part "log" richLog rule.log ++ switch "audit" rule.audit
    ++ optional "action" rule.action ++ optional "reject_type" rule.rejectType
    ++ optional "mark_set" rule.markSet ++ optional "loop" rule.loop)

/-! ## Zones and the direct block -/

def zone (zone : Zone) : Node :=
  .map (optional "target" zone.target
    ++ list "interfaces" valueItem zone.interfaces ++ list "sources" valueItem zone.sources
    ++ list "services" valueItem zone.services ++ list "ports" portItem zone.ports
    ++ list "protocols" valueItem zone.protocols ++ list "source_ports" portItem zone.sourcePorts
    ++ list "rich_rules" richRule zone.richRules ++ toggle "forward" zone.forward
    ++ toggle "masquerade" zone.masquerade
    ++ list "forward_ports" forwardPort zone.forwardPorts
    ++ list "icmp_blocks" valueItem zone.icmpBlocks
    ++ toggle "icmp_block_inversion" zone.icmpBlockInversion)

def directChain (chain : DirectChain) : Node :=
  .map [entry "ipv" (.str chain.ipv), entry "table" (.str chain.table),
    entry "chain" (.str chain.chain)]

def directRule (rule : DirectRule) : Node :=
  .map ([entry "ipv" (.str rule.ipv), entry "table" (.str rule.table),
    entry "chain" (.str rule.chain), entry "priority" (.int rule.priority),
    entry "args" (.str rule.args)] ++ optional "loop" rule.loop)

def passthrough (item : Passthrough) : Node :=
  .map ([entry "ipv" (.str item.ipv), entry "args" (.str item.args)] ++ optional "loop" item.loop)

def groupRule (rule : GroupRule) : Node :=
  .map (part "priority" .int rule.priority ++ [entry "args" (.str rule.args)]
    ++ optional "loop" rule.loop)

def groupPassthrough (item : GroupPassthrough) : Node :=
  .map ([entry "args" (.str item.args)] ++ optional "loop" item.loop)

/-- The families of a group: one alone is written without a list. -/
def families : List String → Node
  | [family] => .str family
  | families => .seq (families.map .str)

def ruleGroup (group : RuleGroup) : Node :=
  .map ([entry "ipv" (families group.ipv), entry "table" (.str group.table),
    entry "chain" (.str group.chain)] ++ part "priority" .int group.priority
    ++ list "rules" groupRule group.rules
    ++ list "passthroughs" groupPassthrough group.passthroughs)

def direct (direct : Direct) : Node :=
  .map (list "chains" directChain direct.chains ++ list "rules" directRule direct.rules
    ++ list "passthroughs" passthrough direct.passthroughs
    ++ list "rule_groups" ruleGroup direct.ruleGroups)

/-! ## Configurations -/

/-- A mapping from names, left out when it is empty. -/
def namedMap {α : Type} (key : String) (node : α → Node) : List (String × α) → Node.Entries
  | [] => []
  | e :: es => [entry key (.map ((e :: es).map fun (name, x) => (.str name, node x)))]

end Encode

/-- The document tree of a configuration. -/
def Config.toDocument (config : Config) : Node :=
  .map (Encode.namedMap "variables" Encode.templateVariable config.vars
    ++ Encode.namedMap "zones" Encode.zone config.zones
    ++ Encode.part "direct" Encode.direct config.direct)

end ZoneScript
