import ZoneScript.Proofs.Merge

/-!
# The laws of merging

Merging is associative, the empty configuration is neutral up to repetitions, and what was merged once
may be merged again without any effect. The laws hold of each part of a configuration: of variables,
which keep their first value, of zones, whose single values are the last ones, and of direct blocks,
whose rule groups are only added to.
-/

namespace ZoneScript

open Script Ordered

theorem distinct_distinct_append {α : Type} [DecidableEq α] (xs ys : List α) :
    distinct (distinct xs ++ ys) = distinct (xs ++ ys) := by
  rw [← distinct_append_distinct, distinct_distinct, distinct_append_distinct]

theorem distinct_append_distinct_right {α : Type} [DecidableEq α] (xs ys : List α) :
    distinct (xs ++ distinct ys) = distinct (xs ++ ys) := by
  rw [← distinct_append_distinct, distinct_distinct, distinct_append_distinct]

/-! ## Variables -/

/-- The variables of one map and those of another that have new names. -/
def mergeVars (existing incoming : List (String × Variable)) : List (String × Variable) :=
  alterEach (fun current value => current.getD value) existing incoming

theorem foldValues_getD {α : Type} (name : String) (more : List (String × α)) (v : Option α) :
    foldValues (fun current value => current.getD value) name more v = v.or (find? name more) := by
  induction more generalizing v with
  | nil => simp [foldValues, find?]
  | cons e more ih =>
    obtain ⟨n, w⟩ := e
    rw [foldValues_cons, ih]
    by_cases h : n = name <;> cases v <;> simp [find?, h]

theorem find?_mergeVars (name : String) (existing incoming : List (String × Variable)) :
    find? name (mergeVars existing incoming) = (find? name existing).or (find? name incoming) := by
  rw [mergeVars, find?_alterEach, foldValues_getD]

theorem names_mergeVars (existing incoming : List (String × Variable)) :
    names (mergeVars existing incoming) = addNew (names existing) (names incoming) :=
  names_alterEach _ _ _

theorem nodup_mergeVars {existing : List (String × Variable)} (h : (names existing).Nodup)
    (incoming : List (String × Variable)) : (names (mergeVars existing incoming)).Nodup :=
  nodup_alterEach h _ _

theorem mergeVars_assoc {a : List (String × Variable)} (ha : (names a).Nodup)
    (b c : List (String × Variable)) :
    mergeVars (mergeVars a b) c = mergeVars a (mergeVars b c) := by
  apply ext_of_nodup (nodup_mergeVars (nodup_mergeVars ha b) c)
  · simp only [names_mergeVars, addNew_addNew]
  · intro name
    simp only [find?_mergeVars, Option.or_assoc]

theorem empty_mergeVars {a : List (String × Variable)} (ha : (names a).Nodup) :
    mergeVars [] a = a :=
  (alterEach_of_disjoint ha (by simp) _).trans (List.map_id a)

theorem mergeVars_self {a : List (String × Variable)} (ha : (names a).Nodup) :
    mergeVars a a = a := by
  apply ext_of_nodup (nodup_mergeVars ha a)
  · rw [names_mergeVars, addNew_of_subset fun _ h => h]
  · intro name
    rw [find?_mergeVars, Option.or_self]

/-! ## Zones -/

theorem mapValues_dedup_dedup (zones : List (String × Zone)) :
    mapValues Zone.dedup (mapValues Zone.dedup zones) = mapValues Zone.dedup zones := by
  simp [mapValues, Zone.dedup_dedup]

section

variable {a b : List (String × Zone)}

theorem names_mergeZones (a b : List (String × Zone)) :
    names (Config.mergeZones a b) = addNew (names a) (names b) := by
  rw [Config.mergeZones_eq, names_mapValues, names_appendZones]

theorem dedup_appendZones_left (ha : (names a).Nodup) (hb : (names b).Nodup) :
    mapValues Zone.dedup (appendZones (mapValues Zone.dedup a) b) =
      mapValues Zone.dedup (appendZones a b) := by
  have ha' : (names (mapValues Zone.dedup a)).Nodup := by rwa [names_mapValues]
  rw [← dedup_appendZones ha' hb, mapValues_dedup_dedup, dedup_appendZones ha hb]

theorem dedup_appendZones_right (ha : (names a).Nodup) (hb : (names b).Nodup) :
    mapValues Zone.dedup (appendZones a (mapValues Zone.dedup b)) =
      mapValues Zone.dedup (appendZones a b) := by
  have hb' : (names (mapValues Zone.dedup b)).Nodup := by rwa [names_mapValues]
  rw [← dedup_appendZones ha hb', mapValues_dedup_dedup, dedup_appendZones ha hb]

theorem mergeZones_assoc {c : List (String × Zone)} (ha : (names a).Nodup) (hb : (names b).Nodup)
    (hc : (names c).Nodup) :
    Config.mergeZones (Config.mergeZones a b) c = Config.mergeZones a (Config.mergeZones b c) := by
  simp only [Config.mergeZones_eq]
  rw [dedup_appendZones_left (nodup_appendZones ha b) hc, appendZones_assoc ha hb,
    dedup_appendZones_right ha (nodup_appendZones hb c)]

theorem empty_mergeZones (ha : (names a).Nodup) :
    Config.mergeZones [] a = mapValues Zone.dedup a := by
  rw [Config.mergeZones_eq, appendZones_of_disjoint ha (by simp), List.nil_append]

theorem mergeZones_self (ha : (names a).Nodup) :
    Config.mergeZones a a = mapValues Zone.dedup a := by
  rw [Config.mergeZones_eq, dedup_appendZones_self ha]

end

/-! ## Direct blocks -/

theorem Direct.merge_assoc (a b c : Direct) : (a.merge b).merge c = a.merge (b.merge c) := by
  simp [Direct.merge, distinct_distinct_append, distinct_append_distinct_right, addNew_addNew]

theorem Direct.merge_self (a : Direct) : a.merge a = a.dedup := by
  simp [Direct.merge, Direct.dedup, distinct_append_self, addNew_of_subset, addNew]

theorem Direct.dedup_merge (a b : Direct) : a.dedup.merge b = a.merge b := by
  simp [Direct.merge, Direct.dedup, distinct_distinct_append, addNew]

theorem Direct.merge_dedup (a b : Direct) : a.merge b.dedup = a.merge b := by
  simp [Direct.merge, Direct.dedup, distinct_append_distinct_right, addNew]

theorem Direct.dedup_of_merge (a b : Direct) : (a.merge b).dedup = a.merge b := by
  simp [Direct.merge, Direct.dedup, distinct_distinct, addNew]

theorem mergeOptional_none (a : Option Direct) :
    Direct.mergeOptional a none = a.map Direct.dedup := by
  cases a <;> rfl

theorem none_mergeOptional (a : Option Direct) :
    Direct.mergeOptional none a = a.map Direct.dedup := by
  cases a <;> rfl

theorem mergeOptional_assoc (a b c : Option Direct) :
    Direct.mergeOptional (Direct.mergeOptional a b) c =
      Direct.mergeOptional a (Direct.mergeOptional b c) := by
  have both (x y : Direct) : Direct.mergeOptional (some x) (some y) = some (x.merge y) := rfl
  rcases a with _ | a <;> rcases b with _ | b <;> rcases c with _ | c <;>
    simp [mergeOptional_none, none_mergeOptional, both, Direct.dedup_dedup, Direct.dedup_merge,
      Direct.merge_dedup, Direct.dedup_of_merge, Direct.merge_assoc]

theorem mergeOptional_self (a : Option Direct) :
    Direct.mergeOptional a a = a.map Direct.dedup := by
  cases a with
  | none => rfl
  | some a => exact congrArg some a.merge_self

/-! ## Configurations -/

theorem Config.merge_eq (a b : Config) :
    a.merge b =
      { vars := mergeVars a.vars b.vars
        zones := mergeZones a.zones b.zones
        direct := Direct.mergeOptional a.direct b.direct } := rfl

theorem Config.merge_assoc {a b c : Config} (ha : a.HasDistinctNames) (hb : b.HasDistinctNames)
    (hc : c.HasDistinctNames) : (a.merge b).merge c = a.merge (b.merge c) := by
  simp only [Config.merge_eq, mergeVars_assoc ha.vars, mergeZones_assoc ha.zones hb.zones hc.zones,
    mergeOptional_assoc]

theorem Config.empty_merge {a : Config} (ha : a.HasDistinctNames) :
    ({} : Config).merge a = a.dedup := by
  rw [Config.dedup_eq, Config.merge_eq, empty_mergeVars ha.vars, empty_mergeZones ha.zones,
    none_mergeOptional]

theorem Config.merge_self {a : Config} (ha : a.HasDistinctNames) : a.merge a = a.dedup := by
  rw [Config.dedup_eq, Config.merge_eq, mergeVars_self ha.vars, mergeZones_self ha.zones,
    mergeOptional_self]

theorem Config.dedup_of_merge (a b : Config) : (a.merge b).dedup = a.merge b := by
  have hdirect : (Direct.mergeOptional a.direct b.direct).map Direct.dedup =
      Direct.mergeOptional a.direct b.direct := by
    rw [← mergeOptional_none]
    rcases a.direct with _ | x <;> rcases b.direct with _ | y
    · rfl
    · exact congrArg some (Direct.dedup_dedup y)
    · exact congrArg some (Direct.dedup_dedup x)
    · exact congrArg some (Direct.dedup_of_merge x y)
  rw [dedup_eq, merge_eq, hdirect, mergeZones_eq, mapValues_dedup_dedup]

theorem Config.hasDistinctNames_empty : ({} : Config).HasDistinctNames :=
  ⟨List.nodup_nil, List.nodup_nil⟩

theorem Config.merge_merge_self {a b : Config} (ha : a.HasDistinctNames) (hb : b.HasDistinctNames) :
    (a.merge b).merge b = a.merge b :=
  calc (a.merge b).merge b
    _ = a.merge (b.merge b) := merge_assoc ha hb hb
    _ = a.merge (b.merge {}) := by rw [merge_self hb, dedup]
    _ = (a.merge b).dedup := (merge_assoc ha hb hasDistinctNames_empty).symm
    _ = a.merge b := dedup_of_merge a b

/-- **The laws of merging.** Merging is associative; with an empty configuration or with itself, a
configuration only loses its repetitions, and it loses them once; what was merged before changes
nothing. -/
theorem Config.merge_laws {a b c : Config} (ha : a.HasDistinctNames) (hb : b.HasDistinctNames)
    (hc : c.HasDistinctNames) :
    (a.merge b).merge c = a.merge (b.merge c) ∧
      a.merge {} = a.dedup ∧ ({} : Config).merge a = a.dedup ∧ a.merge a = a.dedup ∧
      a.dedup.dedup = a.dedup ∧ (a.merge b).merge b = a.merge b :=
  ⟨merge_assoc ha hb hc, rfl, empty_merge ha, merge_self ha, dedup_of_merge a {},
    merge_merge_self ha hb⟩

/-- An empty direct block counts as one, repeated rule groups are kept where they are and not brought
in, a variable keeps its first value and a zone gets its last target. -/
theorem Config.merge_laws_groups :
    let group : RuleGroup := { ipv := ["ipv4"], table := "filter", chain := "X" }
    let ssh : Zone := { target := some "DROP", services := [{ value := "ssh" }, { value := "ssh" }] }
    let a : Config := { vars := [("x", .scalar "1")], zones := [("a", ssh)], direct := some {} }
    let b : Config := { vars := [("x", .scalar "2")], direct := some { ruleGroups := [group, group] } }
    let c : Config := { zones := [("b", {}), ("a", { target := some "ACCEPT" })] }
    (a.merge b).merge c = a.merge (b.merge c) ∧ (b.merge b).direct = b.direct ∧
      (a.merge b).merge b = a.merge b ∧
      (a.merge b).merge c =
        { vars := [("x", .scalar "1")]
          zones := [("a", { target := some "ACCEPT", services := [{ value := "ssh" }] }), ("b", {})]
          direct := some { ruleGroups := [group] } } := by
  intro group ssh a b c
  have ha : a.HasDistinctNames := ⟨by decide, by decide⟩
  have hb : b.HasDistinctNames := ⟨by decide, by decide⟩
  have hc : c.HasDistinctNames := ⟨by decide, by decide⟩
  obtain ⟨hassoc, -, -, -, -, hagain⟩ := merge_laws ha hb hc
  obtain ⟨-, -, -, hself, -, -⟩ := merge_laws hb hb hb
  exact ⟨hassoc, by rw [hself]; decide, hagain, by decide⟩

end ZoneScript
