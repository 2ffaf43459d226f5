import ZoneScript.Diagnostic
import ZoneScript.Template.Expansion

/-!
# What an expansion could not do

Nothing in an expansion fails. What it had to leave as it is written is reported, most of it once only:
an undefined variable once for all, and a list, an item or an address in the wrong place once for each
zone and for the direct block.
-/

namespace ZoneScript.Template

/-! ## Remarks -/

/-- Something that an expansion left as it is, and where. -/
inductive Remark where
  /-- A rule group asks for the address of a family that has none. -/
  | noAnyAddress (group : Nat) (ipv : String)
  | badLoop (path : String) (error : LoopError)
  | undefined (path name : String)
  | listUsed (path name : String)
  | strayItem (path : String)
  | strayAny (path : String)
  deriving DecidableEq, Repr, Inhabited

/-- The place of the direct block. -/
def directPath : String := "direct"

def LoopError.message : LoopError → String
  | .invalid directive => "invalid loop reference '" ++ directive ++ "'"
  | .notList name => "loop variable '" ++ name ++ "' is not a list"
  | .undefined name => "loop variable '" ++ name ++ "' is not defined"

namespace Remark

def path : Remark → String
  | .noAnyAddress group _ => "direct.rule_groups[" ++ toString group ++ "]"
  | .badLoop path _ | .undefined path _ | .listUsed path _ | .strayItem path | .strayAny path => path

def message : Remark → String
  | .noAnyAddress _ ipv =>
    "no any-address literal for family '" ++ ipv ++ "'; \x7b\x7bany\x7d\x7d left in place"
  | .badLoop _ error => error.message
  | .undefined _ name => "variable '" ++ name ++ "' is not defined"
  | .listUsed _ name => "list variable '" ++ name ++ "' used where a single value is expected"
  | .strayItem _ => "'\x7b\x7bitem\x7d\x7d' used outside a loop"
  | .strayAny _ => "'\x7b\x7bany\x7d\x7d' only resolves inside direct.rule_groups"

def diagnostic (r : Remark) : Diagnostic :=
  { path := r.path, message := r.message }

/-- Whether a remark has nothing new after those in `earlier`. -/
def isRepeated (earlier : List Remark) : Remark → Bool
  | .noAnyAddress .. | .badLoop .. => false
  | .undefined _ name => earlier.any fun
    | .undefined _ other => other == name
    | _ => false
  | .strayAny path => earlier.any fun
    | .strayAny other => other == path
    -- the rule group has said as much
    | .noAnyAddress .. => path == directPath
    | _ => false
  | remark => earlier.contains remark

/-- The remarks without those that have nothing new. -/
def withoutRepeated (earlier : List Remark) : List Remark → List Remark
  | [] => []
  | remark :: remarks =>
    if remark.isRepeated earlier then withoutRepeated earlier remarks
    else remark :: withoutRepeated (remark :: earlier) remarks

/-! ## Rule groups -/

/-- Whether a member of the group asks for the address that matches every host. -/
def usesAny (group : RuleGroup) : Bool :=
  (group.rules.map (·.args) ++ group.passthroughs.map (·.args)).any fun args =>
    (tokenNames args).contains anyName

def ofGroup (index : Nat) (group : RuleGroup) : List Remark :=
  (group.ipv.filter fun ipv => (anyAddress? ipv).isNone && usesAny group).map (.noAnyAddress index)

/-- The remarks on rule groups, counted from `index`. -/
def ofGroups : Nat → List RuleGroup → List Remark
  | _, [] => []
  | index, group :: groups => ofGroup index group ++ ofGroups (index + 1) groups

/-! ## Loops -/

/-- The remarks on the loops of a list, counted from `index`. -/
def ofLoops {α : Type} [HasLoop α] (vars : List (String × Variable)) (path : String) :
    Nat → List α → List Remark
  | _, [] => []
  | index, item :: items =>
    (match (HasLoop.loop? item).map (loopValues vars) with
      | some (.error e) => [.badLoop (path ++ "[" ++ toString index ++ "].loop") e]
      | _ => []) ++ ofLoops vars path (index + 1) items

def zonePath (name : String) : String :=
  "zones." ++ name

def ofZoneLoops (vars : List (String × Variable)) (name : String) (zone : Zone) : List Remark :=
  let path (f : ZoneField) := zonePath name ++ "." ++ f.key
  ofLoops vars (path .interfaces) 0 zone.interfaces
    ++ ofLoops vars (path .sources) 0 zone.sources
    ++ ofLoops vars (path .services) 0 zone.services
    ++ ofLoops vars (path .ports) 0 zone.ports
    ++ ofLoops vars (path .protocols) 0 zone.protocols
    ++ ofLoops vars (path .sourcePorts) 0 zone.sourcePorts
    ++ ofLoops vars (path .richRules) 0 zone.richRules
    ++ ofLoops vars (path .forwardPorts) 0 zone.forwardPorts
    ++ ofLoops vars (path .icmpBlocks) 0 zone.icmpBlocks

def ofDirectLoops (vars : List (String × Variable)) (direct : Direct) : List Remark :=
  ofLoops vars (directPath ++ ".rules") 0 direct.rules
    ++ ofLoops vars (directPath ++ ".passthroughs") 0 direct.passthroughs

/-! ## Substitution -/

/-- The remarks on a text that is substituted: what is not defined, then the lists, then what only
has a meaning elsewhere. -/
def ofText (vars : List (String × Variable)) (path text : String) : List Remark :=
  let names := tokenNames text
  let undefined := names.filter fun name => (Ordered.find? name vars).isNone
  let lists := names.filter fun name =>
    ((Ordered.find? name vars).bind Variable.list?).isSome
  (undefined.filter fun name => !isReserved name).map (.undefined path)
    ++ lists.map (.listUsed path)
    ++ (if undefined.contains itemName then [.strayItem path] else [])
    ++ (if undefined.contains anyName then [.strayAny path] else [])

def ofTexts (vars : List (String × Variable)) (path : String) (texts : List String) :
    List Remark :=
  texts.flatMap (ofText vars path)

/-! ## Configurations -/

/-- All that an expansion has to say, with repetitions. -/
def all (config : Config) : List Remark :=
  let vars := resolve config.vars
  let direct := config.direct.toList
  direct.flatMap (fun d => ofGroups 0 d.ruleGroups)
    ++ config.zones.flatMap (fun (name, zone) => ofZoneLoops vars name zone)
    ++ direct.flatMap (fun d => ofDirectLoops vars (realizeGroups d))
    ++ (unrolledZones config).flatMap (fun (name, zone) =>
      ofTexts vars (zonePath name) (texts zone))
    ++ (unrolledDirect config).toList.flatMap (fun d => ofTexts vars directPath (texts d))

end Remark

end Template

open Template in
/-- The warnings of the expansion of a configuration. -/
def Config.expansionWarnings (config : Config) : List Diagnostic :=
  (Remark.withoutRepeated [] (Remark.all config)).map Remark.diagnostic

end ZoneScript
