import ZoneScript.Ordered
import ZoneScript.Vocabulary
import ZoneScript.ZoneField

/-!
# Firewall configurations

The typed form of a document: template variables, zones by name, and a block of direct chains, rules
and passthroughs. Variables and zones keep the order of the document, and so does every list; that
order decides the order of the commands. Every value is kept as text, because only the firewall
itself has the last word on what a value may be.
-/

namespace ZoneScript

/-- A template variable: one value, or a list for items that repeat. -/
inductive Variable where
  | scalar (value : String)
  | list (items : List String)
  deriving DecidableEq, Repr, Inhabited

namespace Variable

def scalar? : Variable → Option String
  | .scalar value => some value
  | .list _ => none

def list? : Variable → Option (List String)
  | .scalar _ => none
  | .list items => some items

end Variable

/-! ## The items of a zone -/

/-- An interface, source, service, protocol or ICMP block. An item with a loop stands for one item
for each value of the list variable that the loop names. -/
structure ValueItem where
  value : String
  loop : Option String := none
  deriving DecidableEq, Repr, Inhabited

/-- A port or a range of ports, with its protocol. -/
structure PortItem where
  port : String
  protocol : String
  loop : Option String := none
  deriving DecidableEq, Repr, Inhabited

/-- A port whose packets are sent on to another port or address. -/
structure ForwardPort where
  port : String
  protocol : String
  toPort : Option String := none
  toAddr : Option String := none
  loop : Option String := none
  deriving DecidableEq, Repr, Inhabited

/-- The log clause of a rich rule. -/
structure RichLog where
  label : Option String := none
  level : Option String := none
  limit : Option String := none
  deriving DecidableEq, Repr, Inhabited

/-- The forward-port element of a rich rule. -/
structure RichForwardPort where
  port : String := ""
  protocol : String := ""
  toPort : Option String := none
  toAddr : Option String := none
  deriving DecidableEq, Repr, Inhabited

/-- The source-port element of a rich rule. -/
structure RichSourcePort where
  port : String := ""
  protocol : String := ""
  deriving DecidableEq, Repr, Inhabited

/-- A rich rule. At most one element is expected: a service, a port with its protocol, a protocol
alone, an ICMP block or type, masquerading, a forward port or a source port. -/
structure RichRule where
  family : Option String := none
  source : Option String := none
  sourceInvert : Bool := false
  destination : Option String := none
  destinationInvert : Bool := false
  service : Option String := none
  port : Option String := none
  protocol : Option String := none
  icmpBlock : Option String := none
  icmpType : Option String := none
  masquerade : Bool := false
  forwardPort : Option RichForwardPort := none
  sourcePort : Option RichSourcePort := none
  log : Option RichLog := none
  audit : Bool := false
  action : Option String := none
  rejectType : Option String := none
  markSet : Option String := none
  loop : Option String := none
  deriving DecidableEq, Repr, Inhabited

/-! ## Zones -/

/-- A zone. A toggle is set to on, set to off, or left alone. -/
structure Zone where
  target : Option String := none
  interfaces : List ValueItem := []
  sources : List ValueItem := []
  services : List ValueItem := []
  ports : List PortItem := []
  protocols : List ValueItem := []
  sourcePorts : List PortItem := []
  richRules : List RichRule := []
  forward : Option Bool := none
  masquerade : Option Bool := none
  forwardPorts : List ForwardPort := []
  icmpBlocks : List ValueItem := []
  icmpBlockInversion : Option Bool := none
  deriving DecidableEq, Repr, Inhabited

namespace Zone

/-- The list of plain values behind a field, if it holds one. -/
def values? (zone : Zone) : ZoneField → Option (List ValueItem)
  | .interfaces => some zone.interfaces
  | .sources => some zone.sources
  | .services => some zone.services
  | .protocols => some zone.protocols
  | .icmpBlocks => some zone.icmpBlocks
  | _ => none

/-- The list of ports behind a field, if it holds one. -/
def ports? (zone : Zone) : ZoneField → Option (List PortItem)
  | .ports => some zone.ports
  | .sourcePorts => some zone.sourcePorts
  | _ => none

/-- What a toggle is set to. -/
def toggle? (zone : Zone) : ZoneField → Option Bool
  | .forward => zone.forward
  | .masquerade => zone.masquerade
  | .icmpBlockInversion => zone.icmpBlockInversion
  | _ => none

/-- Adds a plain value to a field that holds such a list. -/
def addValue (zone : Zone) (field : ZoneField) (item : ValueItem) : Zone :=
  match field with
  | .interfaces => { zone with interfaces := zone.interfaces ++ [item] }
  | .sources => { zone with sources := zone.sources ++ [item] }
  | .services => { zone with services := zone.services ++ [item] }
  | .protocols => { zone with protocols := zone.protocols ++ [item] }
  | .icmpBlocks => { zone with icmpBlocks := zone.icmpBlocks ++ [item] }
  | _ => zone

/-- Adds a port to a field that holds such a list. -/
def addPort (zone : Zone) (field : ZoneField) (item : PortItem) : Zone :=
  match field with
  | .ports => { zone with ports := zone.ports ++ [item] }
  | .sourcePorts => { zone with sourcePorts := zone.sourcePorts ++ [item] }
  | _ => zone

/-- Sets a toggle; other fields stay as they are. -/
def setToggle (zone : Zone) (field : ZoneField) (on : Bool) : Zone :=
  match field with
  | .forward => { zone with forward := some on }
  | .masquerade => { zone with masquerade := some on }
  | .icmpBlockInversion => { zone with icmpBlockInversion := some on }
  | _ => zone

theorem values?_isSome (zone : Zone) (f : ZoneField) :
    (zone.values? f).isSome = (f.kind == .values) := by
  cases f <;> rfl

theorem ports?_isSome (zone : Zone) (f : ZoneField) :
    (zone.ports? f).isSome = (f.kind == .ports) := by
  cases f <;> rfl

theorem values?_addValue (zone : Zone) (f : ZoneField) (item : ValueItem) :
    (zone.addValue f item).values? f = (zone.values? f).map (· ++ [item]) := by
  cases f <;> rfl

theorem ports?_addPort (zone : Zone) (f : ZoneField) (item : PortItem) :
    (zone.addPort f item).ports? f = (zone.ports? f).map (· ++ [item]) := by
  cases f <;> rfl

end Zone

/-! ## The direct block -/

/-- A chain of its own in a table of one family. -/
structure DirectChain where
  ipv : String := ""
  table : String := ""
  chain : String := ""
  deriving DecidableEq, Repr, Inhabited

/-- A rule in a chain, with its arguments as one text. -/
structure DirectRule where
  ipv : String := ""
  table : String := ""
  chain : String := ""
  priority : Int := 0
  args : String := ""
  loop : Option String := none
  deriving DecidableEq, Repr, Inhabited

/-- Arguments that are handed to the packet filter as they are. -/
structure Passthrough where
  ipv : String := ""
  args : String := ""
  loop : Option String := none
  deriving DecidableEq, Repr, Inhabited

/-- A rule of a rule group. Without a priority of its own it has the group's. -/
structure GroupRule where
  priority : Option Int := none
  args : String := ""
  loop : Option String := none
  deriving DecidableEq, Repr, Inhabited

/-- A passthrough of a rule group. -/
structure GroupPassthrough where
  args : String := ""
  loop : Option String := none
  deriving DecidableEq, Repr, Inhabited

/-- A chain with rules and passthroughs that is written once for several families. -/
structure RuleGroup where
  ipv : List String := []
  table : String := ""
  chain : String := ""
  priority : Option Int := none
  rules : List GroupRule := []
  passthroughs : List GroupPassthrough := []
  deriving DecidableEq, Repr, Inhabited

/-- The direct block. -/
structure Direct where
  chains : List DirectChain := []
  rules : List DirectRule := []
  passthroughs : List Passthrough := []
  ruleGroups : List RuleGroup := []
  deriving DecidableEq, Repr, Inhabited

def Direct.isEmpty (direct : Direct) : Bool :=
  direct.chains.isEmpty && direct.rules.isEmpty && direct.passthroughs.isEmpty
    && direct.ruleGroups.isEmpty

/-! ## Configurations -/

/-- A configuration. A direct block may be present and empty. -/
structure Config where
  vars : List (String × Variable) := []
  zones : List (String × Zone) := []
  direct : Option Direct := none
  deriving DecidableEq, Repr, Inhabited

namespace Config

/-- Like every map, those of a configuration have each name once. -/
structure HasDistinctNames (config : Config) : Prop where
  vars : (Ordered.names config.vars).Nodup
  zones : (Ordered.names config.zones).Nodup

/-- Whether two configurations say the same; the order of variables and zones does not matter. -/
def same (config other : Config) : Bool :=
  Ordered.same config.vars other.vars && Ordered.same config.zones other.zones
    && config.direct == other.direct

/-- Changes a zone, which starts empty if there is none of that name. -/
def alterZone (config : Config) (name : String) (f : Zone → Zone) : Config :=
  { config with zones := Ordered.alter name (fun zone => f (zone.getD {})) config.zones }

/-- Makes sure that there is a zone of that name. -/
def ensureZone (config : Config) (name : String) : Config :=
  config.alterZone name id

/-- Makes sure that there is a direct block. -/
def ensureDirect (config : Config) : Config :=
  { config with direct := some (config.direct.getD {}) }

end Config

end ZoneScript
