import ZoneScript.Config.Basic
import ZoneScript.Distinct
import ZoneScript.Script.Command

/-!
# The script of a configuration

Writes the commands that bring about a literal configuration, or that take it back. To apply it, the
zones come first, then the direct chains, the rules that use them, and the passthroughs. To remove it,
everything of the direct block goes first, the chains after the rules in them.
-/

namespace ZoneScript.Script

/-- How a script is written. A transient one changes the running configuration as well and needs no
reload. -/
structure Options where
  transient : Bool := false
  banners : Bool := true
  deriving DecidableEq, Repr, Inhabited

/-! ## Zones -/

/-- The changes for one field of a zone. Removing a target means going back to the standard one. -/
def fieldChanges (verb : Verb) (name : String) (zone : Zone) (f : ZoneField) : List Change :=
  let entry (value : String) : Change := .entry verb name f (some value)
  match f.kind with
  | .target =>
    zone.target.toList.map fun target =>
      match verb with
      | .add => .target name target
      | .remove => .target name ZoneTarget.standard.name
  | .toggle => if zone.toggle? f = some true then [.entry verb name f none] else []
  | .values => ((zone.values? f).getD []).map fun item => entry item.value
  | .ports => ((zone.ports? f).getD []).map fun item => entry item.spec
  | .forwardPorts => zone.forwardPorts.map fun item => entry item.spec
  | .richRules => zone.richRules.map fun rule => entry rule.text

/-- The changes for a zone, in the order of the table of fields. -/
def zoneChanges (verb : Verb) (name : String) (zone : Zone) : List Change :=
  ZoneField.all.flatMap (fieldChanges verb name zone)

/-! ## The direct block -/

/-- The changes for the direct block. A chain is made once. -/
def directChanges (direction : Direction) (direct : Direct) : List Change :=
  let chains := (distinct direct.chains).map (.chain direction.verb)
  let rules := direct.rules.map (.rule direction.verb)
  let passthroughs := direct.passthroughs.map (.passthrough direction.verb)
  match direction with
  | .apply => chains ++ rules ++ passthroughs
  | .remove => rules ++ passthroughs ++ chains

/-! ## Scripts -/

/-- The lines of a change. -/
def changeLines (options : Options) (change : Change) : List Line :=
  .command true change ::
    if options.transient && change.hasRuntimeForm then [.command false change] else []

/-- The lines of several changes, under a banner if there are any. -/
def block (options : Options) (banner : String) (changes : List Change) : List Line :=
  if changes.isEmpty then []
  else
    (if options.banners then [.banner banner] else []) ++ changes.flatMap (changeLines options)

def zoneLines (options : Options) (direction : Direction) (config : Config) : List Line :=
  config.zones.flatMap fun (name, zone) =>
    block options ("Zone: " ++ name) (zoneChanges direction.verb name zone)

def directLines (options : Options) (direction : Direction) (config : Config) : List Line :=
  config.direct.toList.flatMap fun direct =>
    block options "Direct rules" (directChanges direction direct)

/-- The script of a literal configuration. -/
def ofConfig (options : Options) (direction : Direction) (config : Config) : List Line :=
  (match direction with
    | .apply => zoneLines options direction config ++ directLines options direction config
    | .remove => directLines options direction config ++ zoneLines options direction config)
    ++ if options.transient then [] else [.reload]

/-- The lines of the script as texts. -/
def lines (options : Options) (direction : Direction) (config : Config) : List String :=
  (ofConfig options direction config).map Line.text

end ZoneScript.Script
