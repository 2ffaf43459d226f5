import ZoneScript.Config.PortSpec
import ZoneScript.Config.RichRuleText
import ZoneScript.Shell.Word
import ZoneScript.Text.Integer

/-!
# Commands

What a line of a script does: it changes one entry of a zone or of the direct interface, either in the
permanent configuration or in the running one. Each line is written as one shell command, in which
every value is one word.
-/

namespace ZoneScript.Script

/-! ## Words of the command line -/

def commandName : String := "firewall-cmd"

def permanentFlag : String := "--permanent"

def reloadFlag : String := "--reload"

/-! ## Changes -/

/-- A change of the firewall. The value of an entry is the text by which the firewall knows it; a
toggle has none. -/
inductive Change where
  | target (zone value : String)
  | entry (verb : Verb) (zone : String) (field : ZoneField) (value : Option String)
  | chain (verb : Verb) (chain : DirectChain)
  | rule (verb : Verb) (rule : DirectRule)
  | passthrough (verb : Verb) (item : Passthrough)
  deriving DecidableEq, Repr, Inhabited

namespace Change

/-- Whether the change can be made in the running configuration too. -/
def hasRuntimeForm : Change → Bool
  | .target .. => ZoneField.target.hasRuntimeForm
  | .entry _ _ field _ => field.hasRuntimeForm
  | _ => true

/-- The flag that names the zone. -/
def zoneFlag (zone : String) : String :=
  "--zone=" ++ Shell.quote zone

/-- A flag with a verb and perhaps a value. -/
def entryFlag (verb : Verb) (field : ZoneField) (value : Option String) : String :=
  "--" ++ verb.name ++ "-" ++ field.stem ++ ((value.map fun v => "=" ++ Shell.quote v).getD "")

/-- The change as the words of a command; the arguments of rules are written as they are. -/
def text : Change → String
  | .target zone value => zoneFlag zone ++ " --set-target=" ++ Shell.quote value
  | .entry verb zone field value => zoneFlag zone ++ " " ++ entryFlag verb field value
  | .chain verb c =>
    "--direct --" ++ verb.name ++ "-chain " ++ Shell.quote c.ipv ++ " " ++ Shell.quote c.table ++ " "
      ++ Shell.quote c.chain
  | .rule verb r =>
    "--direct --" ++ verb.name ++ "-rule " ++ Shell.quote r.ipv ++ " " ++ Shell.quote r.table ++ " "
      ++ Shell.quote r.chain ++ " " ++ .ofList (Text.showInt r.priority) ++ " " ++ r.args
  | .passthrough verb p =>
    "--direct --" ++ verb.name ++ "-passthrough " ++ Shell.quote p.ipv ++ " " ++ p.args

end Change

/-! ## Lines -/

/-- A line of a script. -/
inductive Line where
  | banner (text : String)
  | command (permanent : Bool) (change : Change)
  | reload
  deriving DecidableEq, Repr, Inhabited

def Line.text : Line → String
  | .banner text => "# " ++ text
  | .command true change => commandName ++ " " ++ permanentFlag ++ " " ++ change.text
  | .command false change => commandName ++ " " ++ change.text
  | .reload => commandName ++ " " ++ reloadFlag

/-- The text of a script. The header makes a shell run it and stop at the first failure. -/
def scriptText (header : Bool) (lines : List String) : String :=
  (if header then "#!/bin/sh\nset -e\n" else "") ++ String.join (lines.map (· ++ "\n"))

end ZoneScript.Script
