import Mathlib.Data.List.Forall2
import ZoneScript.Proofs.Expansion
import ZoneScript.Proofs.Replacement
import ZoneScript.Script.Write

/-!
# Rule groups written out

A rule group stands for a chain for each of its families, and for a rule or passthrough for each member
and family. Nothing else of an expansion depends on how they are written.
-/

namespace ZoneScript

open Template

/-! ## The entries of a group -/

/-- Arguments for a family: its address for each token that asks for the address of every host. -/
inductive ForFamily (args : String) : String → String → Prop
  | ipv4 {result : String} (h : Swapped anyName "0.0.0.0/0" args.toList result.toList) :
      ForFamily args "ipv4" result
  | ipv6 {result : String} (h : Swapped anyName "::/0" args.toList result.toList) :
      ForFamily args "ipv6" result
  | other {ipv : String} (hipv4 : ipv ≠ "ipv4") (hipv6 : ipv ≠ "ipv6") : ForFamily args ipv args

/-- The rule for a member of a group, for one of the families of the group. -/
structure IsRuleOf (group : RuleGroup) (ipv : String) (member : GroupRule) (rule : DirectRule) :
    Prop where
  family : rule.ipv = ipv
  table : rule.table = group.table
  chain : rule.chain = group.chain
  priority : rule.priority = member.priority.getD (group.priority.getD 0)
  args : ForFamily member.args ipv rule.args
  loop : rule.loop = member.loop

structure IsPassthroughOf (ipv : String) (member : GroupPassthrough) (item : Passthrough) : Prop where
  family : item.ipv = ipv
  args : ForFamily member.args ipv item.args
  loop : item.loop = member.loop

/-- One entry for each member of each family of each group, in order. -/
def ForMembers {α β : Type} (groups : List RuleGroup) (members : RuleGroup → List α)
    (relation : RuleGroup → String → α → β → Prop) (entries : List β) : Prop :=
  let memberships := groups.flatMap fun group =>
    group.ipv.flatMap fun ipv => (members group).map fun member => (group, ipv, member)
  List.Forall₂ (fun (group, ipv, member) entry => relation group ipv member entry) memberships entries

/-- The second direct block is the first one with its rule groups written out behind its entries. -/
structure Direct.IsSpelledOut (direct other : Direct) : Prop where
  chains : other.chains = direct.chains ++ direct.ruleGroups.flatMap fun group =>
    group.ipv.map fun ipv => { ipv, table := group.table, chain := group.chain }
  rules : ∃ rules, other.rules = direct.rules ++ rules ∧
    ForMembers direct.ruleGroups (·.rules) IsRuleOf rules
  passthroughs : ∃ items, other.passthroughs = direct.passthroughs ++ items ∧
    ForMembers direct.ruleGroups (·.passthroughs) (fun _ => IsPassthroughOf) items
  ruleGroups : other.ruleGroups = []

structure Config.IsSpelledOut (config other : Config) : Prop where
  vars : other.vars = config.vars
  zones : other.zones = config.zones
  direct : Option.Rel Direct.IsSpelledOut config.direct other.direct

variable {args ipv result : String} {group : RuleGroup}

theorem anyAddress?_eq_none (hipv4 : ipv ≠ "ipv4") (hipv6 : ipv ≠ "ipv6") : anyAddress? ipv = none := by
  rw [anyAddress?, Option.bind_eq_none_iff]
  intro family hfamily
  have hname := DirectFamily.naming.name_of_find? hfamily
  cases family with
  | ipv4 => exact absurd hname.symm hipv4
  | ipv6 => exact absurd hname.symm hipv6
  | eb => rfl

theorem forFamily_iff : ForFamily args ipv result ↔ result = memberArgs ipv args := by
  constructor
  · intro h
    cases h with
    | ipv4 h => exact swapped_iff.mp h
    | ipv6 h => exact swapped_iff.mp h
    | other hipv4 hipv6 => rw [memberArgs, anyAddress?_eq_none hipv4 hipv6]
  · rintro rfl
    by_cases hipv4 : ipv = "ipv4"
    · exact hipv4 ▸ .ipv4 (swapped_replaceName ..)
    by_cases hipv6 : ipv = "ipv6"
    · exact hipv6 ▸ .ipv6 (swapped_replaceName ..)
    rw [memberArgs, anyAddress?_eq_none hipv4 hipv6]
    exact .other hipv4 hipv6

theorem isRuleOf_iff (group : RuleGroup) (ipv : String) (member : GroupRule) (rule : DirectRule) :
    IsRuleOf group ipv member rule ↔
      { ipv
        table := group.table
        chain := group.chain
        priority := (member.priority.or group.priority).getD 0
        args := memberArgs ipv member.args
        loop := member.loop : DirectRule } = rule := by
  have hpriority : (member.priority.or group.priority).getD 0 =
      member.priority.getD (group.priority.getD 0) := by cases member.priority <;> rfl
  rw [hpriority]
  constructor
  · rintro ⟨rfl, htable, hchain, hpriority, hargs, hloop⟩
    rw [← htable, ← hchain, ← hpriority, ← forFamily_iff.mp hargs, ← hloop]
  · rintro rfl
    exact ⟨rfl, rfl, rfl, rfl, forFamily_iff.mpr rfl, rfl⟩

theorem isPassthroughOf_iff (ipv : String) (member : GroupPassthrough) (item : Passthrough) :
    IsPassthroughOf ipv member item ↔
      { ipv, args := memberArgs ipv member.args, loop := member.loop : Passthrough } = item := by
  constructor
  · rintro ⟨rfl, hargs, hloop⟩
    rw [← forFamily_iff.mp hargs, ← hloop]
  · rintro rfl
    exact ⟨rfl, forFamily_iff.mpr rfl, rfl⟩

theorem forMembers_iff {α β : Type} {relation : RuleGroup → String → α → β → Prop}
    {entry : RuleGroup → String → α → β}
    (h : ∀ g ipv member x, relation g ipv member x ↔ entry g ipv member = x) {groups : List RuleGroup}
    {members : RuleGroup → List α} {entries : List β} :
    ForMembers groups members relation entries ↔
      entries = groups.flatMap fun g => g.ipv.flatMap fun ipv => (members g).map (entry g ipv) := by
  have hmap : (groups.flatMap fun g => g.ipv.flatMap fun ipv => (members g).map (entry g ipv)) =
      (groups.flatMap fun g =>
        g.ipv.flatMap fun ipv => (members g).map fun member => (g, ipv, member)).map
          fun (g, ipv, member) => entry g ipv member := by
    simp only [List.map_flatMap, List.map_map]
    rfl
  simp only [ForMembers, h]
  rw [hmap, @eq_comm _ entries, ← List.forall₂_eq_eq_eq, List.forall₂_map_left_iff]

theorem forMembers_isRuleOf {groups : List RuleGroup} {rules : List DirectRule} :
    ForMembers groups (·.rules) IsRuleOf rules ↔
      rules = groups.flatMap fun g => g.ipv.flatMap (groupRules g) :=
  forMembers_iff isRuleOf_iff

theorem forMembers_isPassthroughOf {groups : List RuleGroup} {items : List Passthrough} :
    ForMembers groups (·.passthroughs) (fun _ => IsPassthroughOf) items ↔
      items = groups.flatMap fun g => g.ipv.flatMap (groupPassthroughs g) :=
  forMembers_iff fun _ => isPassthroughOf_iff

theorem Direct.isSpelledOut_iff {direct other : Direct} :
    direct.IsSpelledOut other ↔ other = realizeGroups direct := by
  constructor
  · rintro ⟨hchains, ⟨rules, hrules, hforRules⟩, ⟨items, hitems, hforItems⟩, hgroups⟩
    rw [forMembers_isRuleOf.mp hforRules] at hrules
    rw [forMembers_isPassthroughOf.mp hforItems] at hitems
    cases other
    simp only at hgroups hchains hrules hitems
    rw [hgroups, hchains, hrules, hitems]
    rfl
  · rintro rfl
    exact ⟨rfl, ⟨_, rfl, forMembers_isRuleOf.mpr rfl⟩, ⟨_, rfl, forMembers_isPassthroughOf.mpr rfl⟩, rfl⟩

theorem Config.isSpelledOut_iff {config other : Config} :
    config.IsSpelledOut other ↔ other = { config with direct := config.direct.map realizeGroups } := by
  constructor
  · rintro ⟨hvars, hzones, hdirect⟩
    cases other
    obtain ⟨rfl, rfl⟩ := And.intro hvars hzones
    congr 1
    revert hdirect
    cases config.direct with
    | none =>
      rintro ⟨⟩
      rfl
    | some direct =>
      rintro ⟨h⟩
      exact congrArg some (Direct.isSpelledOut_iff.mp h)
  · rintro rfl
    refine ⟨rfl, rfl, ?_⟩
    cases config.direct with
    | none => exact .none
    | some direct => exact .some (Direct.isSpelledOut_iff.mpr rfl)

/-! ## Results of a member -/

/-- The text that a loop puts in for a name. -/
def itemValue (value : String) : String → Option String :=
  fun name => if name == itemName then some value else none

/-- The text that a scalar variable puts in for its name. -/
def scalarValue (vars : List (String × Variable)) : String → Option String :=
  fun name => (Ordered.find? name vars).bind Variable.scalar?

variable {vars : List (String × Variable)} {loop : Option String} {name : String}

/-- The arguments when the loop is at one of its values. Without values they are left as they are. -/
inductive InLoop (vars : List (String × Variable)) (args : String) : Option String → String → Prop
  | plain : InLoop vars args none args
  | value {directive value : String} {values : List String}
      (hvalues : loopValues vars directive = .ok values) (hvalue : value ∈ values) :
      InLoop vars args (some directive) (replaceTokens (itemValue value) args)
  | error {directive : String} {e : LoopError} (he : loopValues vars directive = .error e) :
      InLoop vars args (some directive) args

/-- A value of the loop, or the value of a variable behind it, is part of a token in the result. -/
inductive Reintroduces (vars : List (String × Variable)) (loop : Option String) (name args : String) :
    String → Prop
  | loop {directive value : String} {values : List String} (hloop : loop = some directive)
      (hvalues : loopValues vars directive = .ok values) (hvalue : value ∈ values)
      (h : BringsIn (itemValue value) name args) :
      Reintroduces vars loop name args
        (replaceTokens (scalarValue vars) (replaceTokens (itemValue value) args))
  | variable {text : String} (htext : InLoop vars args loop text)
      (h : BringsIn (scalarValue vars) name text) :
      Reintroduces vars loop name args (replaceTokens (scalarValue vars) text)

theorem reintroduces_of_hasTokenOf {text : String} (hargs : ¬ HasTokenOf name args)
    (htext : InLoop vars args loop text)
    (h : HasTokenOf name (replaceTokens (scalarValue vars) text)) :
    Reintroduces vars loop name args (replaceTokens (scalarValue vars) text) := by
  rcases hasTokenOf_replaceTokens h with ⟨-, h⟩ | h
  · cases htext with
    | plain => exact absurd h hargs
    | error => exact absurd h hargs
    | value hvalues hvalue =>
      rcases hasTokenOf_replaceTokens h with ⟨-, h⟩ | h
      · exact absurd h hargs
      · exact .loop rfl hvalues hvalue h
  · exact .variable htext h

theorem inLoop_of_mem_expandAll {α : Type} [HasLoop α] {view : α → String}
    (hwithoutLoop : ∀ item : α, view (HasLoop.withoutLoop item) = view item)
    (hmapTexts : ∀ f (item : α), view (mapTexts f item) = f (view item)) {item x : α}
    (h : x ∈ expandAll vars [item]) :
    ∃ text, InLoop vars (view item) (HasLoop.loop? item) text ∧
      view x = replaceTokens (scalarValue vars) text := by
  obtain ⟨y, hy, rfl⟩ := List.mem_map.mp h
  rw [unrollAll, List.flatMap_singleton, unroll] at hy
  refine ⟨view y, ?_, hmapTexts _ y⟩
  split at hy
  · rename_i hloop
    rw [List.mem_singleton.mp hy, hloop]
    exact .plain
  · rename_i directive hloop
    rw [hloop]
    dsimp only at hy
    split at hy
    · rename_i values hvalues
      obtain ⟨value, hvalue, rfl⟩ := List.mem_map.mp hy
      rw [hmapTexts, hwithoutLoop]
      exact .value hvalues hvalue
    · rename_i e he
      rw [List.mem_singleton.mp hy, hwithoutLoop]
      exact .error he

theorem not_hasTokenOf_of_forFamily (h : ForFamily args ipv result)
    (hipv : ipv = "ipv4" ∨ ipv = "ipv6") : ¬ HasTokenOf anyName result := by
  cases h with
  | ipv4 h =>
    rw [swapped_iff.mp h]
    exact not_hasTokenOf_replaceName (by decide) (by simp [anyName, Text.isSpace]) args
  | ipv6 h =>
    rw [swapped_iff.mp h]
    exact not_hasTokenOf_replaceName (by decide) (by simp [anyName, Text.isSpace]) args
  | other hipv4 hipv6 => exact absurd hipv (not_or.mpr ⟨hipv4, hipv6⟩)

/-! ## Expansions -/

/-- The results of an entry are in the expansion. They ask for the address of every host only where a
value brings that in. -/
def ResolvesAny {α : Type} [HasLoop α] (config : Config) (entries : Direct → List α) (args : α → String)
    (entry : α) : Prop :=
  ∀ result ∈ expandAll (resolve config.vars) [entry],
    (∃ direct ∈ config.expand.direct, result ∈ entries direct) ∧
      (HasTokenOf anyName (args result) →
        Reintroduces (resolve config.vars) (HasLoop.loop? entry) anyName (args entry) (args result))

variable {config : Config} {direct : Direct}

theorem mem_direct_expand (hdirect : direct ∈ config.direct)
    (h : (expandDirect (resolve config.vars) direct).isEmpty = false) :
    expandDirect (resolve config.vars) direct ∈ config.expand.direct := by
  rw [expand_eq]
  exact Option.mem_filter_iff.mpr ⟨Option.mem_map_of_mem _ hdirect, by rw [h]; rfl⟩

theorem mem_expandAll_of_mem {α : Type} [HasLoop α] {items : List α} {item result : α}
    (hitem : item ∈ items) (h : result ∈ expandAll vars [item]) : result ∈ expandAll vars items := by
  rw [expandAll, unrollAll, List.flatMap_singleton] at h
  obtain ⟨x, hx, rfl⟩ := List.mem_map.mp h
  exact List.mem_map_of_mem (List.mem_flatMap.mpr ⟨item, hitem, hx⟩)

theorem resolvesAny_of_mem {α : Type} [HasLoop α] {entries : Direct → List α} {args : α → String}
    {items : List α} {entry : α} (hwithoutLoop : ∀ item : α, args (HasLoop.withoutLoop item) = args item)
    (hmapTexts : ∀ f (item : α), args (mapTexts f item) = f (args item))
    (hitems : ∀ result ∈ expandAll (resolve config.vars) items,
      ∃ direct ∈ config.expand.direct, result ∈ entries direct)
    (hentry : entry ∈ items) (hany : ¬ HasTokenOf anyName (args entry)) :
    ResolvesAny config entries args entry := by
  intro result hresult
  refine ⟨hitems result (mem_expandAll_of_mem hentry hresult), fun h => ?_⟩
  obtain ⟨text, htext, heq⟩ := inLoop_of_mem_expandAll hwithoutLoop hmapTexts hresult
  rw [heq] at h ⊢
  exact reintroduces_of_hasTokenOf hany htext h

theorem resolvesAny_rule {rule : DirectRule} (hdirect : direct ∈ config.direct)
    (hrule : rule ∈ (realizeGroups direct).rules) (hany : ¬ HasTokenOf anyName rule.args) :
    ResolvesAny config Direct.rules DirectRule.args rule := by
  refine resolvesAny_of_mem (fun _ => rfl) (fun _ _ => rfl) (fun result hresult => ?_) hrule hany
  have hmem : result ∈ (expandDirect (resolve config.vars) direct).rules := hresult
  exact ⟨_, mem_direct_expand hdirect (by simp [Direct.isEmpty, List.ne_nil_of_mem hmem]), hmem⟩

theorem resolvesAny_passthrough {item : Passthrough} (hdirect : direct ∈ config.direct)
    (hitem : item ∈ (realizeGroups direct).passthroughs) (hany : ¬ HasTokenOf anyName item.args) :
    ResolvesAny config Direct.passthroughs Passthrough.args item := by
  refine resolvesAny_of_mem (fun _ => rfl) (fun _ _ => rfl) (fun result hresult => ?_) hitem hany
  have hmem : result ∈ (expandDirect (resolve config.vars) direct).passthroughs := hresult
  exact ⟨_, mem_direct_expand hdirect (by simp [Direct.isEmpty, List.ne_nil_of_mem hmem]), hmem⟩

theorem realizeGroups_realizeGroups (direct : Direct) :
    realizeGroups (realizeGroups direct) = realizeGroups direct :=
  realizeGroups_of_nil rfl

theorem Config.expand_of_isSpelledOut {other : Config} (h : config.IsSpelledOut other) :
    other.expand = config.expand := by
  have hdirect (vars : List (String × Variable)) :
      expandDirect vars ∘ realizeGroups = expandDirect vars :=
    funext fun d => by
      rw [Function.comp, expandDirect, realizeGroups_realizeGroups, ← expandDirect]
  rw [isSpelledOut_iff.mp h, expand_eq, expand_eq, Option.map_map, hdirect]

/-- **Rule groups are written out.** There is one configuration in which the rule groups of this one are
written out as chains, rules and passthroughs, and it has the same expansion and the same scripts. For a
family that has an address, nothing is left in the results of a member that asks for it, except where a
value brings it in. -/
theorem Config.expand_spelledOut (config : Config) :
    (∃! other, config.IsSpelledOut other) ∧
      (∀ other, config.IsSpelledOut other → other.expand = config.expand ∧
        ∀ options direction, Script.lines options direction other.expand =
          Script.lines options direction config.expand) ∧
      ∀ direct ∈ config.direct, ∀ group ∈ direct.ruleGroups, ∀ ipv ∈ group.ipv,
        ipv = "ipv4" ∨ ipv = "ipv6" →
          (∀ member ∈ group.rules, ∃ rule, IsRuleOf group ipv member rule ∧
            ResolvesAny config Direct.rules DirectRule.args rule) ∧
          ∀ member ∈ group.passthroughs, ∃ item, IsPassthroughOf ipv member item ∧
            ResolvesAny config Direct.passthroughs Passthrough.args item := by
  refine ⟨⟨_, isSpelledOut_iff.mpr rfl, fun other h => isSpelledOut_iff.mp h⟩, fun other h => ?_, ?_⟩
  · have hexpand := expand_of_isSpelledOut h
    exact ⟨hexpand, fun options direction => by rw [hexpand]⟩
  · intro direct hdirect group hgroup ipv hipv hfamily
    constructor
    · intro member hmember
      have hrule := (isRuleOf_iff group ipv member _).mpr rfl
      have hany := not_hasTokenOf_of_forFamily hrule.args hfamily
      refine ⟨_, hrule, resolvesAny_rule hdirect ?_ hany⟩
      refine List.mem_append_right _ (List.mem_flatMap.mpr ⟨group, hgroup, ?_⟩)
      exact List.mem_flatMap.mpr ⟨ipv, hipv, List.mem_map_of_mem hmember⟩
    · intro member hmember
      have hitem := (isPassthroughOf_iff ipv member _).mpr rfl
      have hany := not_hasTokenOf_of_forFamily hitem.args hfamily
      refine ⟨_, hitem, resolvesAny_passthrough hdirect ?_ hany⟩
      refine List.mem_append_right _ (List.mem_flatMap.mpr ⟨group, hgroup, ?_⟩)
      exact List.mem_flatMap.mpr ⟨ipv, hipv, List.mem_map_of_mem hmember⟩

/-- A group for two families behind a rule, with a loop and priorities of both kinds, and a variable that
brings in what the group has replaced. -/
theorem Config.expand_spelledOut_families :
    let vars : List (String × Variable) :=
      [("hosts", .list ["a", "b"]), ("every", .scalar "\x7b\x7bany\x7d\x7d")]
    let explicit : DirectRule := { ipv := "ipv6", table := "nat", chain := "IN", args := "-j DROP" }
    let member : GroupRule := { args := "\x7b\x7b any\x7d\x7d \x7b\x7bevery\x7d\x7d" }
    let group : RuleGroup :=
      { ipv := ["ipv4", "eb"], table := "filter", chain := "IN", priority := some 3
        rules := [member,
          { priority := some 1, args := "\x7b\x7bitem\x7d\x7d", loop := some "hosts" }] }
    let config : Config := { vars, direct := some { rules := [explicit], ruleGroups := [group] } }
    let spelledOut : Config :=
      { vars
        direct := some
          { chains := [⟨"ipv4", "filter", "IN"⟩, ⟨"eb", "filter", "IN"⟩]
            rules := [
              explicit,
              ⟨"ipv4", "filter", "IN", 3, "0.0.0.0/0 \x7b\x7bevery\x7d\x7d", none⟩,
              ⟨"ipv4", "filter", "IN", 1, "\x7b\x7bitem\x7d\x7d", some "hosts"⟩,
              ⟨"eb", "filter", "IN", 3, "\x7b\x7b any\x7d\x7d \x7b\x7bevery\x7d\x7d", none⟩,
              ⟨"eb", "filter", "IN", 1, "\x7b\x7bitem\x7d\x7d", some "hosts"⟩] } }
    config.IsSpelledOut spelledOut ∧ spelledOut.expand = config.expand ∧
      ∃ rule, IsRuleOf group "ipv4" member rule ∧
        ResolvesAny config Direct.rules DirectRule.args rule := by
  intro vars explicit member group config spelledOut
  have hspelledOut : config.IsSpelledOut spelledOut := isSpelledOut_iff.mpr (by decide +kernel)
  obtain ⟨-, hexpand, hmembers⟩ := expand_spelledOut config
  obtain ⟨hrules, -⟩ := hmembers _ rfl group List.mem_cons_self "ipv4" List.mem_cons_self (.inl rfl)
  exact ⟨hspelledOut, (hexpand spelledOut hspelledOut).1, hrules member List.mem_cons_self⟩

end ZoneScript
