import ZoneScript.Config.Basic
import ZoneScript.Script.Call

/-!
# Reading a command back

What a line of a script says about the configuration: a fragment of one, nothing, or an error. A line
that asks for the removal of an entry mentions the entry as one that adds it does.
-/

namespace ZoneScript.Script

/-! ## Outcomes -/

/-- Why a line says nothing about the configuration. -/
inductive SkipReason where
  | blank
  | comment
  | notCommand
  | reload
  | query
  deriving DecidableEq, Repr, Inhabited

def SkipReason.text : SkipReason → String
  | .blank => "blank line"
  | .comment => "comment"
  | .notCommand => "not a firewall-cmd command"
  | .reload => "reload"
  | .query => "query"

/-- Why a line cannot be read. -/
inductive LineError where
  | shellReference (text : String)
  | openQuote (quote : Shell.OpenQuote)
  | noValue (flag : String)
  | noDirectChange
  | chainWords (flag : String) (count : Nat)
  | ruleWords (flag : String) (count : Nat)
  | noRuleArguments (flag : String)
  | notPriority (text : String)
  | noFamily (flag : String)
  | noArguments (flag : String)
  | unknownCommand
  | unexpectedWord (word : String)
  | unknownFlag (flag : String)
  | forwardPort (error : ForwardPortError)
  deriving DecidableEq, Repr, Inhabited

def LineError.message : LineError → String
  | .shellReference text =>
    "shell variable '" ++ text ++ "' is not supported; expand it before importing"
  | .openQuote quote => quote.message
  | .noValue flag => "--" ++ flag ++ " needs a value"
  | .noDirectChange => "--direct without an add/remove chain, rule or passthrough"
  | .chainWords flag count =>
    "--" ++ flag ++ " needs exactly 3 arguments (ipv table chain), got " ++ toString count
  | .ruleWords flag count =>
    "--" ++ flag ++ " needs ipv, table, chain, priority and arguments, got " ++ toString count
      ++ " words"
  | .noRuleArguments flag => "--" ++ flag ++ " has no rule arguments"
  | .notPriority text => "direct rule priority '" ++ text ++ "' is not an integer"
  | .noFamily flag => "--" ++ flag ++ " needs ipv and arguments"
  | .noArguments flag => "--" ++ flag ++ " has no arguments"
  | .unknownCommand => "unrecognized command"
  | .unexpectedWord word => "unexpected argument '" ++ word ++ "'"
  | .unknownFlag flag => "unrecognized flag '--" ++ flag ++ "'"
  | .forwardPort error => error.message

/-- What a line comes to. -/
inductive Outcome where
  | skipped (reason : SkipReason)
  | failed (error : LineError)
  | parsed (fragment : Config)
  deriving DecidableEq, Repr, Inhabited

abbrev ReadResult := Except LineError

/-! ## The direct interface -/

/-- The entry that a call of the direct interface mentions. -/
def directEntry (call : DirectCall) : ReadResult Direct :=
  match call.kind, call.words with
  | .chain, [ipv, table, chain] => .ok { chains := [⟨ipv, table, chain⟩] }
  | .chain, words => .error (.chainWords call.flag words.length)
  | .rule, ipv :: table :: chain :: priority :: args =>
    if args.isEmpty then .error (.noRuleArguments call.flag)
    else match Text.readSigned? 32 priority.toList with
      | some n => .ok { rules := [{ ipv, table, chain, priority := n, args := Shell.join args }] }
      | none => .error (.notPriority priority)
  | .rule, words => .error (.ruleWords call.flag words.length)
  | .passthrough, [] => .error (.noFamily call.flag)
  | .passthrough, ipv :: args =>
    if args.isEmpty then .error (.noArguments call.flag)
    else .ok { passthroughs := [{ ipv, args := Shell.join args }] }

def directFragment (call : Call) : ReadResult Config :=
  match call.direct with
  | some direct => (directEntry direct).map fun entry => { direct := some entry }
  | none => .error .noDirectChange

/-! ## Zones -/

/-- What a flag of a zone command sets. -/
inductive Setter where
  | target
  | newZone
  | field (field : ZoneField)
  deriving DecidableEq, Repr, Inhabited

/-- The setter that a flag names. The target has a flag of its own, without a verb. -/
def Setter.ofName? (name : String) : Option Setter :=
  if name == "set-target" then some .target
  else if name == "new-zone" then some .newZone
  else if name == "change-interface" then some (.field .interfaces)
  else if name == "change-source" then some (.field .sources)
  else ((afterVerb? name).bind ZoneField.ofStem?).bind fun f =>
    if f.kind == .target then none else some (.field f)

/-- The value of a flag that needs one. -/
def Flag.required (flag : Flag) : ReadResult String :=
  match flag.value with
  | some value => if value.isEmpty then .error (.noValue flag.name) else .ok value
  | none => .error (.noValue flag.name)

/-- The zone with the entry that a flag mentions. -/
def setField (zone : Zone) (f : ZoneField) (flag : Flag) : ReadResult Zone :=
  match f.kind with
  | .toggle => .ok (zone.setToggle f true)
  | .values => flag.required.map fun value => zone.addValue f { value }
  | .ports => flag.required.map fun value => zone.addPort f (.ofSpec value)
  | .forwardPorts => do
    let value ← flag.required
    match ForwardPort.ofSpec? value with
    | .ok item => return { zone with forwardPorts := zone.forwardPorts ++ [item] }
    | .error e => throw (.forwardPort e)
  | .richRules => flag.required.map fun value =>
    { zone with richRules := zone.richRules ++ [.ofText value] }
  | .target => .error (.unknownFlag flag.name)

/-- What the flags of a zone command come to: the zones they make, and the zone they speak of, if any
of them does. -/
structure ZoneChange where
  created : List (String × Zone) := []
  zone : Option Zone := none
  deriving DecidableEq, Repr, Inhabited

def applyFlag (change : ZoneChange) (flag : Flag) : ReadResult ZoneChange :=
  let zone := change.zone.getD {}
  match Setter.ofName? flag.name with
  | none => .error (.unknownFlag flag.name)
  | some .newZone => flag.required.map fun name =>
    { change with created := Ordered.insertNew name {} change.created }
  | some .target => flag.required.map fun value =>
    { change with zone := some { zone with target := some value } }
  | some (.field f) => (setField zone f flag).map fun zone => { change with zone := some zone }

/-- The fragment of a zone command. One that names no zone but changes something speaks of the default
zone. -/
def zoneFragment (defaultZone : String) (call : Call) : ReadResult Config := do
  let zoneFlag := call.flags.find? (·.name == "zone")
  let actions := call.flags.filter (·.name != "zone")
  let modifies := actions.any fun flag => (Setter.ofName? flag.name).isSome
  if actions.isEmpty || (zoneFlag.isNone && !modifies) then throw .unknownCommand
  if let some word := call.words.head? then throw (.unexpectedWord word)
  let name ← match zoneFlag with
    | some flag => flag.required
    | none => .ok defaultZone
  let change ← actions.foldlM applyFlag {}
  return { zones := match change.zone with
    | some zone => Ordered.insert name zone change.created
    | none => change.created }

/-! ## Lines -/

/-- What a call comes to. -/
def Call.outcome (defaultZone : String) (call : Call) : Outcome :=
  if call.isReload then .skipped .reload
  else if call.isQuery then .skipped .query
  else match if call.isDirect then directFragment call else zoneFragment defaultZone call with
    | .ok fragment => .parsed fragment
    | .error e => .failed e

/-- What a logical line comes to. -/
def outcome (defaultZone : String) (line : List Char) : Outcome :=
  let text := Text.trim line
  if text.isEmpty then .skipped .blank
  else if text.head? == some '#' then .skipped .comment
  else if !runsCommand ((Text.words text).map String.ofList) then .skipped .notCommand
  else match reference? text with
    | some reference => .failed (.shellReference (.ofList reference))
    | none =>
      match Shell.split (.ofList text) with
      | .error quote => .failed (.openQuote quote)
      | .ok words =>
        match commandWords words with
        | [] => .skipped .notCommand
        | _ :: args => (Call.ofWords false false args).outcome defaultZone

end ZoneScript.Script
