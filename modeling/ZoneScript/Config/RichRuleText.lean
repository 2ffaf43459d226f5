import ZoneScript.Config.Basic
import ZoneScript.Shell.Word

/-!
# Rich rules as text

A rich rule is written as clauses in one fixed order: family, source, destination, element, log,
audit, action. Reading takes the clauses in that order, never fails, and stops at the first word that
is out of place.
-/

namespace ZoneScript.RichRule

/-! ## Writing -/

/-- A word of the form ` name="value"`, or nothing. -/
def field (name : String) : Option String → String
  | none => ""
  | some value => " " ++ name ++ "=\"" ++ value ++ "\""

/-- The clause for an address. -/
def addressClause (name : String) (invert : Bool) : Option String → String
  | none => ""
  | some address => " " ++ name ++ (if invert then " not" else "") ++ field "address" (some address)

/-- The element of the rule; of several the first in this order counts. -/
def elementClause (rule : RichRule) : String :=
  match rule.service with
  | some service => " service" ++ field "name" (some service)
  | none =>
  match rule.port with
  | some port =>
    " port" ++ field "port" (some port)
      ++ field "protocol" (some (rule.protocol.getD PortProtocol.standard.name))
  | none =>
  match rule.protocol with
  | some protocol => " protocol" ++ field "value" (some protocol)
  | none =>
  match rule.icmpBlock with
  | some name => " icmp-block" ++ field "name" (some name)
  | none =>
  match rule.icmpType with
  | some name => " icmp-type" ++ field "name" (some name)
  | none =>
  if rule.masquerade then " masquerade"
  else match rule.forwardPort with
  | some forward =>
    " forward-port" ++ field "port" (some forward.port) ++ field "protocol" (some forward.protocol)
      ++ field "to-port" forward.toPort ++ field "to-addr" forward.toAddr
  | none =>
  match rule.sourcePort with
  | some source =>
    " source-port" ++ field "port" (some source.port) ++ field "protocol" (some source.protocol)
  | none => ""

def logClause : Option RichLog → String
  | none => ""
  | some log =>
    " log" ++ field "prefix" log.label ++ field "level" log.level
      ++ match log.limit with
        | none => ""
        | some limit => " limit" ++ field "value" (some limit)

/-- The action with what belongs to it. -/
def actionClause (rule : RichRule) : String :=
  match rule.action with
  | none => ""
  | some "reject" => " reject" ++ field "type" rule.rejectType
  | some "mark" => " mark" ++ field "set" rule.markSet
  | some action => " " ++ action

/-- The text of a rule. -/
def text (rule : RichRule) : String :=
  "rule" ++ field "family" rule.family
    ++ addressClause "source" rule.sourceInvert rule.source
    ++ addressClause "destination" rule.destinationInvert rule.destination
    ++ elementClause rule ++ logClause rule.log
    ++ (if rule.audit then " audit" else "")
    ++ actionClause rule

/-! ## Reading -/

/-- Takes a word, if it is the next one. -/
def eat (word : String) : List String → Bool × List String
  | [] => (false, [])
  | w :: ws => if w == word then (true, ws) else (false, w :: ws)

/-- Takes a word `key=value`, if it is the next one, and gives the value. -/
def eatValue (key : String) : List String → Option String × List String
  | [] => (none, [])
  | w :: ws =>
    match Text.dropHead? (key.toList ++ ['=']) w.toList with
    | some value => (some (.ofList value), ws)
    | none => (none, w :: ws)

/-- Takes a port and a protocol; without a protocol it is the standard one. -/
def eatPort (ws : List String) : (String × String) × List String :=
  let (port, ws) := eatValue "port" ws
  let (protocol, ws) := eatValue "protocol" ws
  ((port.getD "", protocol.getD PortProtocol.standard.name), ws)

/-- Takes the address clause of this name: whether it is inverted, and its address. -/
def eatAddress (name : String) (ws : List String) : (Bool × Option String) × List String :=
  match eat name ws with
  | (false, ws) => ((false, none), ws)
  | (true, ws) =>
    let (invert, ws) := eat "not" ws
    let (address, ws) := eatValue "address" ws
    ((invert, address), ws)

/-- Takes the element. -/
def eatElement (rule : RichRule) : List String → RichRule × List String
  | [] => (rule, [])
  | w :: ws =>
    match w with
    | "service" =>
      let (name, ws) := eatValue "name" ws
      ({ rule with service := name }, ws)
    | "port" =>
      let ((port, protocol), ws) := eatPort ws
      ({ rule with port := some port, protocol := some protocol }, ws)
    | "protocol" =>
      let (value, ws) := eatValue "value" ws
      ({ rule with protocol := value }, ws)
    | "icmp-block" =>
      let (name, ws) := eatValue "name" ws
      ({ rule with icmpBlock := name }, ws)
    | "icmp-type" =>
      let (name, ws) := eatValue "name" ws
      ({ rule with icmpType := name }, ws)
    | "masquerade" => ({ rule with masquerade := true }, ws)
    | "forward-port" =>
      let ((port, protocol), ws) := eatPort ws
      let (toPort, ws) := eatValue "to-port" ws
      let (toAddr, ws) := eatValue "to-addr" ws
      ({ rule with forwardPort := some { port, protocol, toPort, toAddr } }, ws)
    | "source-port" =>
      let ((port, protocol), ws) := eatPort ws
      ({ rule with sourcePort := some { port, protocol } }, ws)
    | _ => (rule, w :: ws)

/-- Takes the log clause. -/
def eatLog (ws : List String) : Option RichLog × List String :=
  match eat "log" ws with
  | (false, ws) => (none, ws)
  | (true, ws) =>
    let (label, ws) := eatValue "prefix" ws
    let (level, ws) := eatValue "level" ws
    match eat "limit" ws with
    | (false, ws) => (some { label, level }, ws)
    | (true, ws) =>
      let (limit, ws) := eatValue "value" ws
      (some { label, level, limit }, ws)

/-- Takes the action. -/
def eatAction (rule : RichRule) : List String → RichRule × List String
  | [] => (rule, [])
  | w :: ws =>
    match w with
    | "accept" | "drop" => ({ rule with action := some w }, ws)
    | "reject" =>
      let (type, ws) := eatValue "type" ws
      ({ rule with action := some w, rejectType := type }, ws)
    | "mark" =>
      let (mark, ws) := eatValue "set" ws
      ({ rule with action := some w, markSet := mark }, ws)
    | _ => (rule, w :: ws)

/-- Reads the words of a rule, and gives the words that are left. -/
def ofWords (ws : List String) : RichRule × List String :=
  let (_, ws) := eat "rule" ws
  let (family, ws) := eatValue "family" ws
  let ((sourceInvert, source), ws) := eatAddress "source" ws
  let ((destinationInvert, destination), ws) := eatAddress "destination" ws
  let (rule, ws) :=
    eatElement { family, source, sourceInvert, destination, destinationInvert } ws
  let (log, ws) := eatLog ws
  let (audit, ws) := eat "audit" ws
  eatAction { rule with log, audit } ws

/-- The words of a rule's text. If a quote is left open, quotes mean nothing and the text is cut at
white space. -/
def textWords (text : String) : List String :=
  match Shell.split text with
  | .ok ws => ws
  | .error _ => (Text.words text.toList).map String.ofList

/-- Reads a rule, and gives the first word that was not understood. -/
def ofTextRest (text : String) : RichRule × Option String :=
  let (rule, rest) := ofWords (textWords text)
  (rule, rest.head?)

/-- Reads a rule. -/
def ofText (text : String) : RichRule :=
  (ofTextRest text).1

/-- Whether the rule does anything: it decides, logs, audits or masquerades. -/
def hasEffect (rule : RichRule) : Bool :=
  rule.action.isSome || rule.log.isSome || rule.audit || rule.masquerade

end ZoneScript.RichRule
