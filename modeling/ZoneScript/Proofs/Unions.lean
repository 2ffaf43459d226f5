import ZoneScript.Proofs.MergeLaws

/-!
# Merging is an ordered union

What a merge comes to, part by part. Names and items of the existing configuration come first and stay
in their order, the new ones of the incoming configuration follow in theirs, and nothing is lost or
said twice. Items are told apart by their keys. Of single values the incoming one counts; variables
and rule groups of the existing configuration stay as they are.
-/

namespace ZoneScript

open Ordered

/-! ## Keys -/

/-- What tells the items of a list apart. A template is never taken for one of the items that it stands
for, as the loop is part of the key. -/
class HasKey (α : Type) where
  Key : Type
  key : α → Key
  eq_of_key {x y : α} : key x = key y → x = y

instance : HasKey ValueItem where
  Key := String × Option String
  key item := (item.value, item.loop)
  eq_of_key {x y} h := by
    cases x
    cases y
    simp_all

instance : HasKey PortItem where
  Key := String × String × Option String
  key item := (item.port, item.protocol, item.loop)
  eq_of_key {x y} h := by
    cases x
    cases y
    simp_all

instance : HasKey ForwardPort where
  Key := String × String × Option String × Option String × Option String
  key item := (item.port, item.protocol, item.toPort, item.toAddr, item.loop)
  eq_of_key {x y} h := by
    cases x
    cases y
    simp_all

/-- No two rich rules are the same by a part of them. -/
instance : HasKey RichRule where
  Key := RichRule
  key := id
  eq_of_key := id

instance : HasKey DirectChain where
  Key := String × String × String
  key chain := (chain.ipv, chain.table, chain.chain)
  eq_of_key {x y} h := by
    cases x
    cases y
    simp_all

instance : HasKey DirectRule where
  Key := String × String × String × Int × String × Option String
  key rule := (rule.ipv, rule.table, rule.chain, rule.priority, rule.args, rule.loop)
  eq_of_key {x y} h := by
    cases x
    cases y
    simp_all

instance : HasKey Passthrough where
  Key := String × String × Option String
  key item := (item.ipv, item.args, item.loop)
  eq_of_key {x y} h := by
    cases x
    cases y
    simp_all

/-! ## Lists -/

section

variable {α : Type} [DecidableEq α]

theorem distinct_filter (p : α → Bool) (xs : List α) :
    distinct (xs.filter p) = (distinct xs).filter p := by
  induction xs with
  | nil => rfl
  | cons x xs ih =>
    by_cases hx : p x = true
    · rw [List.filter_cons_of_pos hx, distinct, distinct, ih, List.filter_cons_of_pos hx,
        List.filter_filter, List.filter_filter]
      simp only [Bool.and_comm]
    · rw [List.filter_cons_of_neg hx, distinct, ih, List.filter_cons_of_neg hx, List.filter_filter]
      refine List.filter_congr fun y _ => ?_
      by_cases hy : y = x
      · rw [hy]
        simp [hx]
      · simp [hy]

theorem distinct_eq_eraseDups (xs : List α) : distinct xs = xs.eraseDups := by
  cases xs with
  | nil => rfl
  | cons x xs =>
    rw [List.eraseDups_cons, ← distinct_eq_eraseDups (xs.filter fun y => !y == x), distinct_filter,
      distinct]
    refine congrArg (x :: ·) (List.filter_congr fun y _ => ?_)
    by_cases hy : y = x <;> simp [hy]
termination_by xs.length
decreasing_by exact Nat.lt_succ_of_le (List.length_filter_le _ xs)

/-- The union of two lists: the first one as far as it does not repeat itself, then what only the second
one has. -/
structure IsUnion [HasKey α] (existing incoming union : List α) : Prop where
  /-- No two items have the same key. -/
  keys : (union.map HasKey.key).Nodup
  /-- An item is there if it was on either side. -/
  mem item : item ∈ union ↔ item ∈ existing ∨ item ∈ incoming
  order : union = existing.eraseDups ++ (incoming.filter (· ∉ existing)).eraseDups

theorem isUnion_distinct [HasKey α] (existing incoming : List α) :
    IsUnion existing incoming (distinct (existing ++ incoming)) where
  keys := by
    refine List.pairwise_map.mpr ((nodup_distinct _).imp fun hne hkey => ?_)
    exact hne (HasKey.eq_of_key hkey)
  mem item := by rw [mem_distinct, List.mem_append]
  order := by
    rw [distinct_append, ← distinct_filter, distinct_eq_eraseDups, distinct_eq_eraseDups]

theorem isUnion_distinct_right [HasKey α] (incoming : List α) :
    IsUnion [] incoming (distinct (incoming ++ [])) := by
  rw [List.append_nil]
  exact isUnion_distinct [] incoming

theorem addNew_of_nodup {xs : List α} (h : xs.Nodup) (known : List α) :
    addNew known xs = known ++ xs.filter (· ∉ known) := by
  induction xs generalizing known with
  | nil => simp [addNew]
  | cons x xs ih =>
    obtain ⟨hx, hxs⟩ := List.nodup_cons.mp h
    rw [addNew, ih hxs]
    by_cases hknown : x ∈ known
    · simp [hknown]
    · have hrest : xs.filter (· ∉ known ++ [x]) = xs.filter (· ∉ known) := by
        refine List.filter_congr fun y hy => ?_
        have hne : y ≠ x := by
          rintro rfl
          exact hx hy
        simp [hne]
      rw [if_neg hknown, hrest]
      simp [hknown]

end

/-! ## Variables -/

theorem insertNew_of_mem {α : Type} {name : String} {es : List (String × α)} (h : name ∈ names es)
    (value : α) : insertNew name value es = es := by
  induction es with
  | nil => cases h
  | cons e es ih =>
    obtain ⟨n, v⟩ := e
    rw [insertNew, alter]
    by_cases hn : n = name
    · rw [if_pos hn]
      rfl
    · rw [if_neg hn]
      exact congrArg _ (ih ((List.mem_cons.mp h).resolve_left (Ne.symm hn)))

theorem mergeVars_of_nodup {incoming : List (String × Variable)} (h : (names incoming).Nodup)
    (existing : List (String × Variable)) :
    mergeVars existing incoming =
      existing ++ incoming.filter (·.1 ∉ names existing) := by
  induction incoming generalizing existing with
  | nil => simp [mergeVars, alterEach]
  | cons e incoming ih =>
    obtain ⟨name, value⟩ := e
    obtain ⟨hname, hincoming⟩ := List.nodup_cons.mp h
    show mergeVars (insertNew name value existing) incoming = _
    rw [ih hincoming]
    by_cases hmem : name ∈ names existing
    · rw [insertNew_of_mem hmem]
      simp [hmem]
    · have hrest : incoming.filter (·.1 ∉ names existing ++ [name]) =
          incoming.filter (·.1 ∉ names existing) := by
        refine List.filter_congr fun e he => ?_
        have hne : e.1 ≠ name := by
          rintro rfl
          exact hname (List.mem_map.mpr ⟨e, he, rfl⟩)
        simp [hne]
      have hnames : names (existing ++ [(name, value)]) = names existing ++ [name] := by simp [names]
      rw [insertNew, alter_of_not_mem hmem, Option.getD_none, hnames, hrest]
      simp [hmem]

/-! ## Zones -/

/-- The union of two zones, list by list. Of single values the incoming one counts, if there is one. -/
structure Zone.IsUnion (existing incoming union : Zone) : Prop where
  target : union.target = incoming.target.or existing.target
  toggles f : union.toggle? f = (incoming.toggle? f).or (existing.toggle? f)
  values f : ZoneScript.IsUnion ((existing.values? f).getD []) ((incoming.values? f).getD [])
    ((union.values? f).getD [])
  ports f : ZoneScript.IsUnion ((existing.ports? f).getD []) ((incoming.ports? f).getD [])
    ((union.ports? f).getD [])
  forwardPorts : ZoneScript.IsUnion existing.forwardPorts incoming.forwardPorts union.forwardPorts
  richRules : ZoneScript.IsUnion existing.richRules incoming.richRules union.richRules

theorem Zone.isUnion_merge (existing incoming : Zone) :
    existing.IsUnion incoming (existing.merge incoming) where
  target := rfl
  toggles := toggle?_merge existing incoming
  values f := by
    rw [values?_merge]
    exact isUnion_distinct _ _
  ports f := by
    rw [ports?_merge]
    exact isUnion_distinct _ _
  forwardPorts := isUnion_distinct _ _
  richRules := isUnion_distinct _ _

theorem find?_mergeZones {incoming : List (String × Zone)} (h : (names incoming).Nodup)
    (existing : List (String × Zone)) {name : String} {zone : Zone}
    (hzone : find? name (Config.mergeZones existing incoming) = some zone) :
    zone = ((find? name existing).getD {}).merge ((find? name incoming).getD {}) := by
  rw [Config.mergeZones_eq, find?_mapValues, find?_appendZones h] at hzone
  obtain ⟨joined, hjoined, rfl⟩ := Option.map_eq_some_iff.mp hzone
  rw [Zone.merge_eq]
  congr 1
  cases hincoming : find? name incoming with
  | none =>
    rw [hincoming] at hjoined
    rw [show find? name existing = some joined from hjoined]
    exact (appendZone_empty joined).symm
  | some more =>
    rw [hincoming] at hjoined
    exact (Option.some.inj hjoined).symm

/-! ## Direct blocks -/

/-- The union of two direct blocks. Rule groups are only added to. -/
structure Direct.IsUnion (existing incoming union : Direct) : Prop where
  chains : ZoneScript.IsUnion existing.chains incoming.chains union.chains
  rules : ZoneScript.IsUnion existing.rules incoming.rules union.rules
  passthroughs : ZoneScript.IsUnion existing.passthroughs incoming.passthroughs union.passthroughs
  groups : existing.ruleGroups <+: union.ruleGroups
  memGroups group : group ∈ union.ruleGroups ↔
    group ∈ existing.ruleGroups ∨ group ∈ incoming.ruleGroups

theorem Direct.isUnion_merge (existing incoming : Direct) :
    existing.IsUnion incoming (existing.merge incoming) where
  chains := isUnion_distinct _ _
  rules := isUnion_distinct _ _
  passthroughs := isUnion_distinct _ _
  groups := prefix_addNew _ _
  memGroups _ := mem_addNew

theorem Direct.isUnion_dedup (direct : Direct) : IsUnion {} direct direct.dedup where
  chains := isUnion_distinct_right _
  rules := isUnion_distinct_right _
  passthroughs := isUnion_distinct_right _
  groups := List.nil_prefix
  memGroups _ := by simp [dedup, merge, addNew]

theorem Direct.isUnion_mergeOptional (existing incoming : Option Direct) :
    (existing.getD {}).IsUnion (incoming.getD {}) ((mergeOptional existing incoming).getD {}) := by
  rcases existing with _ | existing <;> rcases incoming with _ | incoming
  · exact isUnion_merge {} {}
  · exact isUnion_dedup incoming
  · exact isUnion_merge existing {}
  · exact isUnion_merge existing incoming

/-! ## Configurations -/

/-- The union of two configurations, part by part. A part that is missing counts as an empty one. -/
structure Config.IsUnion (existing incoming union : Config) : Prop where
  vars : union.vars =
    existing.vars ++ incoming.vars.filter (·.1 ∉ names existing.vars)
  zoneNames : names union.zones =
    names existing.zones ++ (names incoming.zones).filter (· ∉ names existing.zones)
  zones name zone : find? name union.zones = some zone →
    ((find? name existing.zones).getD {}).IsUnion ((find? name incoming.zones).getD {}) zone
  direct : (existing.direct.getD {}).IsUnion (incoming.direct.getD {}) (union.direct.getD {})
  hasDirect : union.direct.isSome = (existing.direct.isSome || incoming.direct.isSome)

/-- **Unions.** A merge is the union of its two sides, in order: zones, variables and the items of every
list are those of the existing side followed by the new ones of the incoming side, each once. -/
theorem Config.merge_isUnion (existing : Config) {incoming : Config} (h : incoming.HasDistinctNames) :
    existing.IsUnion incoming (existing.merge incoming) where
  vars := by rw [merge_eq, mergeVars_of_nodup h.vars]
  zoneNames := by rw [merge_eq, names_mergeZones, addNew_of_nodup h.zones]
  zones name zone hzone := by
    rw [find?_mergeZones h.zones existing.zones hzone]
    exact Zone.isUnion_merge _ _
  direct := Direct.isUnion_mergeOptional _ _
  hasDirect := by
    rw [merge_eq]
    cases existing.direct <;> cases incoming.direct <;> rfl

/-- Items with and without a loop, repeated on one side and on both, and rule groups that are repeated
where they were. -/
theorem Config.merge_isUnion_repeated :
    let group (chain : String) : RuleGroup := { ipv := ["ipv4"], table := "filter", chain }
    let template : ValueItem := { value := "ssh", loop := some "all" }
    let dns : ValueItem := { value := "dns" }
    let ssh : ValueItem := { value := "ssh" }
    let existing : Config :=
      { vars := [("x", .scalar "1")]
        zones := [("a", { target := some "DROP", services := [ssh, template, template] })]
        direct := some { ruleGroups := [group "X", group "X"] } }
    let incoming : Config :=
      { vars := [("y", .list []), ("x", .scalar "2")]
        zones := [("b", {}), ("a", { services := [dns, ssh, dns], forward := some false })]
        direct := some { ruleGroups := [group "Y", group "X", group "Y"] } }
    let zone : Zone :=
      { target := some "DROP", services := [ssh, template, dns], forward := some false }
    incoming.HasDistinctNames ∧ existing.IsUnion incoming
      { vars := [("x", .scalar "1"), ("y", .list [])]
        zones := [("a", zone), ("b", {})]
        direct := some { ruleGroups := [group "X", group "X", group "Y"] } } := by
  intro group template dns ssh existing incoming zone
  have h : incoming.HasDistinctNames := ⟨by decide, by decide⟩
  exact ⟨h, merge_isUnion existing h⟩

end ZoneScript
