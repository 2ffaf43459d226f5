import ZoneScript.Template.Texts
import ZoneScript.Template.Token

/-!
# Expansion

An expansion turns a configuration with variables, loops and rule groups into a literal one. A variable
may refer to others, one step deep. Then rule groups become chains, rules and passthroughs; then each
item with a loop becomes one item for each value of its list; and last the tokens that are left are
replaced by the values of scalar variables. What cannot be replaced stays as it is written.
-/

namespace ZoneScript

namespace Template

/-! ## Variables -/

/-- The text with the scalar variables in it replaced by their values as written. -/
def resolveText (vars : List (String × Variable)) (text : String) : String :=
  replaceTokens (fun name =>
    if isReserved name then none else (Ordered.find? name vars).bind Variable.scalar?) text

def resolveVariable (vars : List (String × Variable)) : Variable → Variable
  | .scalar text => .scalar (resolveText vars text)
  | .list items => .list (items.map (resolveText vars))

/-- The variables with the references between them replaced. No variable has a reserved name. -/
def resolve (vars : List (String × Variable)) : List (String × Variable) :=
  (vars.filter fun (name, _) => !isReserved name).map fun (name, value) =>
    (name, resolveVariable vars value)

/-! ## Rule groups -/

/-- The address that matches every host of a family, by the family's name. -/
def anyAddress? (ipv : String) : Option String :=
  (DirectFamily.ofName? ipv).bind DirectFamily.anyAddress?

/-- The arguments of a member of a rule group, for one of its families. -/
def memberArgs (ipv args : String) : String :=
  match anyAddress? ipv with
  | some address => replaceName anyName address args
  | none => args

/-- The chain of a rule group for one of its families. -/
def groupChain (group : RuleGroup) (ipv : String) : DirectChain :=
  ⟨ipv, group.table, group.chain⟩

/-- The rules of a rule group for one of its families. -/
def groupRules (group : RuleGroup) (ipv : String) : List DirectRule :=
  group.rules.map fun rule =>
    { ipv
      table := group.table
      chain := group.chain
      priority := (rule.priority.or group.priority).getD 0
      args := memberArgs ipv rule.args
      loop := rule.loop }

/-- The passthroughs of a rule group for one of its families. -/
def groupPassthroughs (group : RuleGroup) (ipv : String) : List Passthrough :=
  group.passthroughs.map fun item => { ipv, args := memberArgs ipv item.args, loop := item.loop }

/-- The direct block with its rule groups written out behind its other entries. -/
def realizeGroups (direct : Direct) : Direct where
  chains := direct.chains ++ direct.ruleGroups.flatMap fun g => g.ipv.map (groupChain g)
  rules := direct.rules ++ direct.ruleGroups.flatMap fun g => g.ipv.flatMap (groupRules g)
  passthroughs :=
    direct.passthroughs ++ direct.ruleGroups.flatMap fun g => g.ipv.flatMap (groupPassthroughs g)

/-! ## Loops -/

/-- Why a loop has no values. -/
inductive LoopError where
  | invalid (directive : String)
  | notList (name : String)
  | undefined (name : String)
  deriving DecidableEq, Repr, Inhabited

/-- The values that a loop runs through. -/
def loopValues (vars : List (String × Variable)) (directive : String) :
    Except LoopError (List String) :=
  match loopTarget? directive with
  | none => .error (.invalid directive)
  | some name =>
    match Ordered.find? name vars with
    | some (.list values) => .ok values
    | some (.scalar _) => .error (.notList name)
    | none => .error (.undefined name)

variable {α : Type} [HasLoop α]

/-- The items that an item stands for. A loop without values is left out. -/
def unroll (vars : List (String × Variable)) (item : α) : List α :=
  match HasLoop.loop? item with
  | none => [item]
  | some directive =>
    let plain := HasLoop.withoutLoop item
    match loopValues vars directive with
    | .ok values => values.map fun value => mapTexts (replaceName itemName value) plain
    | .error _ => [plain]

def unrollAll (vars : List (String × Variable)) (items : List α) : List α :=
  items.flatMap (unroll vars)

def unrollZone (vars : List (String × Variable)) (zone : Zone) : Zone :=
  { zone with
    interfaces := unrollAll vars zone.interfaces
    sources := unrollAll vars zone.sources
    services := unrollAll vars zone.services
    ports := unrollAll vars zone.ports
    protocols := unrollAll vars zone.protocols
    sourcePorts := unrollAll vars zone.sourcePorts
    richRules := unrollAll vars zone.richRules
    forwardPorts := unrollAll vars zone.forwardPorts
    icmpBlocks := unrollAll vars zone.icmpBlocks }

def unrollDirect (vars : List (String × Variable)) (direct : Direct) : Direct :=
  { direct with
    rules := unrollAll vars direct.rules
    passthroughs := unrollAll vars direct.passthroughs }

/-! ## Substitution -/

/-- The text with the scalar variables in it replaced. -/
def substitute (vars : List (String × Variable)) (text : String) : String :=
  replaceTokens (fun name => (Ordered.find? name vars).bind Variable.scalar?) text

/-- The zones with rule groups and loops written out, but before substitution. -/
def unrolledZones (config : Config) : List (String × Zone) :=
  config.zones.map fun (name, zone) => (name, unrollZone (resolve config.vars) zone)

/-- The direct block with rule groups and loops written out, but before substitution. -/
def unrolledDirect (config : Config) : Option Direct :=
  config.direct.map fun direct => unrollDirect (resolve config.vars) (realizeGroups direct)

end Template

open Template in
/-- The literal configuration that a configuration stands for. -/
def Config.expand (config : Config) : Config where
  zones := (unrolledZones config).map fun (name, zone) =>
    (name, mapTexts (substitute (resolve config.vars)) zone)
  direct := ((unrolledDirect config).map (mapTexts (substitute (resolve config.vars)))).filter
    fun direct => !direct.isEmpty

end ZoneScript
