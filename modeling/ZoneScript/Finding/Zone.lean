import ZoneScript.Config.Decode
import ZoneScript.Finding.Field

/-!
# Findings in zones

A zone is checked field by field, in the order of the table of fields. Items may be written as a text
or as a mapping. The values of a forward port are looked at in a mapping only, and whether a rich rule
does anything is told from its values in a text and from its keys in a mapping.
-/

namespace ZoneScript.Finding

/-! ## Items -/

/-- An item of a list of plain values; `check` is what its text must pass. -/
def valueItem (check : String → Lexical.Result Unit) (path : String) (node : Node) : List Finding :=
  match node with
  | .map entries =>
    keys path Keys.valueItem "list item" entries ++ loop path entries ++
      match Node.find? "value" entries with
      | none => [⟨path, .missingKey "list item" "value"⟩]
      | some inner =>
        match inner.scalarText? with
        | some text => value path check text
        | none => [⟨childPath path "value", .notScalar inner.kindName⟩]
  | _ =>
    match node.scalarText? with
    | some text => value path check text
    | none => [⟨path, .valueItemShape node.kindName⟩]

/-- The port of a mapping, which should have one. -/
def portField (path what : String) (entries : Node.Entries) : List Finding :=
  if Node.hasKey "port" entries then checked path "port" portNumber entries
  else [⟨path, .missingKey what "port"⟩]

def portItem (path : String) (node : Node) : List Finding :=
  match node with
  | .map entries =>
    keys path Keys.port "port" entries ++ loop path entries ++ portField path "port" entries
      ++ checked path "protocol" portProtocol entries
  | _ =>
    match node.scalarText? with
    | some text => value path Lexical.portWithProtocol text
    | none => [⟨path, .portShape node.kindName⟩]

def forwardPort (path : String) (node : Node) : List Finding :=
  match node with
  | .map entries =>
    keys path Keys.forwardPort "forward port" entries ++ loop path entries
      ++ portField path "forward port" entries
      ++ checked path "protocol" portProtocol entries
      ++ checked path "to_port" portNumber entries
      ++ checked path "to_addr" Lexical.address entries
  | .str spec =>
    match ForwardPort.ofSpec? spec with
    | .ok _ => []
    | .error e => [⟨path, .badForwardPort e⟩]
  | _ => [⟨path, .forwardPortShape node.kindName⟩]

/-! ## Rich rules -/

/-- The value of an optional field of a rule. -/
def ruleValue (path key : String) (check : String → Lexical.Result Unit) (text : Option String) :
    List Finding :=
  (text.map (value (childPath path key) check)).getD []

/-- The values of a rule, however it was written. -/
def ruleValues (path : String) (rule : RichRule) : List Finding :=
  ruleValue path "family" Lexical.family rule.family
    ++ ruleValue path "source" Lexical.address rule.source
    ++ ruleValue path "destination" Lexical.address rule.destination
    ++ ruleValue path "port" portNumber rule.port
    ++ ruleValue path "action" Lexical.action rule.action
    ++ ruleValue path "log.level" Lexical.logLevel (rule.log.bind (·.level))
    ++ ruleValue path "log.prefix" Lexical.logLabel (rule.log.bind (·.label))

/-- A mapping inside a rule, whose fields are scalars. -/
def rulePart (path key : String) (valid : List String) (entries : Node.Entries) : List Finding :=
  field path key entries <| mapping key fun place inner =>
    keys place valid key inner ++ scalars place valid inner

def ruleScalars : List String :=
  ["family", "source", "destination", "service", "port", "protocol", "icmp_block", "icmp_type",
    "action", "reject_type", "mark_set"]

def ruleFlags : List String :=
  ["source_invert", "destination_invert", "masquerade", "audit"]

def richRule (path : String) (node : Node) : List Finding :=
  match node with
  | .str text =>
    let (rule, rest) := RichRule.ofTextRest text
    (match rest with
      | some token => [⟨path, .unreadRule token⟩]
      | none => [])
      ++ (if rule.hasEffect then [] else [⟨path, .noEffect⟩])
      ++ ruleValues path rule
  | .map entries =>
    keys path Keys.richRule "rich rule" entries ++ loop path entries
      ++ scalars path ruleScalars entries
      ++ ruleFlags.flatMap (flag path · entries)
      ++ rulePart path "log" Keys.richLog entries
      ++ rulePart path "forward_port" Keys.richForwardPort entries
      ++ rulePart path "source_port" Keys.richSourcePort entries
      ++ (if Keys.richRuleEffect.any (Node.hasKey · entries) then [] else [⟨path, .noEffect⟩])
      -- a rule of the wrong shape has no values to look at
      ++ ((Decode.richRule .plain node).toOption.map (ruleValues path)).getD []
  | _ => [⟨path, .richRuleShape node.kindName⟩]

/-! ## Zones -/

/-- What the plain values of a field must look like. -/
def valueCheck : ZoneField → String → Lexical.Result Unit
  | .interfaces => Lexical.interface
  | .sources => Lexical.address
  | _ => fun _ => .ok ()

def zoneField (path : String) (entries : Node.Entries) (f : ZoneField) : List Finding :=
  match f.kind with
  | .target => checked path f.key Lexical.target entries
  | .toggle => flag path f.key entries
  | .values => list path f.key entries (valueItem (valueCheck f))
  | .ports => list path f.key entries portItem
  | .forwardPorts => list path f.key entries forwardPort
  | .richRules => list path f.key entries richRule

def zone (path : String) (entries : Node.Entries) : List Finding :=
  keys path Keys.zone "zone" entries ++ ZoneField.all.flatMap (zoneField path entries)

end ZoneScript.Finding
