import ZoneScript.Proofs.Import
import ZoneScript.Proofs.Store

/-!
# A configuration from its entries

Each change of a script that applies a configuration stands for a fragment that holds one entry. Put
together in order, the fragments are the configuration again, less what no change stands for.
-/

namespace ZoneScript

open Ordered Script

/-- A zone as its changes have it: none of them sets a toggle to off. -/
def Zone.written (zone : Zone) : Zone :=
  { zone with
    forward := zone.forward.filter id
    masquerade := zone.masquerade.filter id
    icmpBlockInversion := zone.icmpBlockInversion.filter id }

/-- A configuration as its changes have it, without zones and a direct block that need none. -/
def Config.written (config : Config) : Config where
  zones := (config.zones.filter fun (name, zone) =>
    !(zoneChanges .add name zone).isEmpty).map fun (name, zone) => (name, zone.written)
  direct := config.direct.filter fun direct => !direct.isEmpty

theorem Direct.dedup_appendDirect_self (direct : Direct) :
    (appendDirect direct direct).dedup = direct.dedup := by
  simp [Direct.dedup, Direct.merge, appendDirect, distinct_append_self]

namespace Script

/-! ## The same again -/

theorem tidyDirect_appendDirects_self (direct : Option Direct) :
    tidyDirect (appendDirects direct direct) = tidyDirect direct := by
  cases direct with
  | none => rfl
  | some d => simp [tidyDirect, appendDirects, Direct.dedup_appendDirect_self]

theorem ofFragments_twice (fs : List Config) : ofFragments (fs ++ fs) = ofFragments fs := by
  rw [ofFragments_eq, ofFragments_eq, gather_append, absorb_eq,
    dedup_appendZones_self (nodup_gather fs), tidyDirect_appendDirects_self]

theorem ofFragments_flatMap {α : Type} {xs : List α} {f g : α → List Config}
    (h : ∀ x ∈ xs, ofFragments (f x) = ofFragments (g x)) :
    ofFragments (xs.flatMap f) = ofFragments (xs.flatMap g) := by
  induction xs with
  | nil => rfl
  | cons x xs ih =>
    rw [List.flatMap_cons, List.flatMap_cons, ofFragments_append, ofFragments_append,
      h x List.mem_cons_self, ih fun y hy => h y (List.mem_cons_of_mem _ hy)]

/-! ## Zones -/

/-- What zones come to, one behind the other. -/
def joinZones (zones : List Zone) : Zone :=
  zones.foldl appendZone {}

theorem foldl_appendZone (zone : Zone) (zones : List Zone) :
    zones.foldl appendZone zone = appendZone zone (joinZones zones) := by
  induction zones generalizing zone with
  | nil => exact (appendZone_empty zone).symm
  | cons z zones ih =>
    have hz : joinZones (z :: zones) = appendZone z (joinZones zones) := by
      rw [joinZones, List.foldl_cons, empty_appendZone, ih]
    rw [List.foldl_cons, ih, hz, appendZone_assoc]

@[simp]
theorem joinZones_nil : joinZones [] = {} := rfl

@[simp]
theorem joinZones_cons (zone : Zone) (zones : List Zone) :
    joinZones (zone :: zones) = appendZone zone (joinZones zones) := by
  rw [joinZones, List.foldl_cons, empty_appendZone, foldl_appendZone]

theorem joinZones_append (xs ys : List Zone) :
    joinZones (xs ++ ys) = appendZone (joinZones xs) (joinZones ys) := by
  rw [joinZones, List.foldl_append, foldl_appendZone]
  rfl

/-- The changes for one field, with the zones that hold just the entry. -/
def fieldEntries (name : String) (zone : Zone) (f : ZoneField) : List (Change × Zone) :=
  let entry (value : String) : Change := .entry .add name f (some value)
  match f.kind with
  | .target => zone.target.toList.map fun t => (.target name t, { target := some t })
  | .toggle =>
    if zone.toggle? f = some true then [(.entry .add name f none, ({} : Zone).setToggle f true)]
    else []
  | .values => ((zone.values? f).getD []).map fun item =>
    (entry item.value, ({} : Zone).addValue f item)
  | .ports => ((zone.ports? f).getD []).map fun item =>
    (entry item.spec, ({} : Zone).addPort f item)
  | .forwardPorts => zone.forwardPorts.map fun item =>
    (entry item.spec, { forwardPorts := [item] })
  | .richRules => zone.richRules.map fun rule => (entry rule.text, { richRules := [rule] })

def zoneEntries (name : String) (zone : Zone) : List (Change × Zone) :=
  ZoneField.all.flatMap (fieldEntries name zone)

theorem map_fieldEntries (name : String) (zone : Zone) (f : ZoneField) :
    (fieldEntries name zone f).map (·.1) = fieldChanges .add name zone f := by
  cases f <;> simp [fieldEntries, fieldChanges, ZoneField.kind, Function.comp_def] <;> split <;> rfl

theorem map_zoneEntries (name : String) (zone : Zone) :
    (zoneEntries name zone).map (·.1) = zoneChanges .add name zone := by
  rw [zoneEntries, List.map_flatMap, zoneChanges]
  exact congrArg (List.flatMap · _) (funext (map_fieldEntries name zone))

end Script

/-- The zone with one of its fields only. -/
def Zone.only (zone : Zone) : ZoneField → Zone
  | .target => { target := zone.target }
  | .interfaces => { interfaces := zone.interfaces }
  | .sources => { sources := zone.sources }
  | .services => { services := zone.services }
  | .ports => { ports := zone.ports }
  | .protocols => { protocols := zone.protocols }
  | .sourcePorts => { sourcePorts := zone.sourcePorts }
  | .richRules => { richRules := zone.richRules }
  | .forward => { forward := zone.forward }
  | .masquerade => { masquerade := zone.masquerade }
  | .forwardPorts => { forwardPorts := zone.forwardPorts }
  | .icmpBlocks => { icmpBlocks := zone.icmpBlocks }
  | .icmpBlockInversion => { icmpBlockInversion := zone.icmpBlockInversion }

namespace Script

theorem joinZones_only (zone : Zone) : joinZones (ZoneField.all.map zone.only) = zone := by
  simp [ZoneField.all, Zone.only, appendZone]

theorem joinZones_items {α : Type} {whole : List α → Zone} (hnil : whole [] = {})
    (hcons : ∀ x xs, appendZone (whole [x]) (whole xs) = whole (x :: xs)) (change : α → Change)
    (xs : List α) : joinZones ((xs.map fun x => (change x, whole [x])).map (·.2)) = whole xs := by
  induction xs with
  | nil => exact hnil.symm
  | cons x xs ih => rw [List.map_cons, List.map_cons, joinZones_cons, ih, hcons]

theorem joinZones_toggle {whole : Option Bool → Zone} (hnone : whole none = {}) (change : Change)
    (on : Option Bool) :
    joinZones ((if on = some true then [(change, whole (some true))] else []).map (·.2)) =
      whole (on.filter id) := by
  rcases on with _ | _ | _
  · exact hnone.symm
  · exact hnone.symm
  · exact (joinZones_cons _ _).trans (appendZone_empty _)

theorem joinZones_fieldEntries (name : String) (zone : Zone) (f : ZoneField) :
    joinZones ((fieldEntries name zone f).map (·.2)) = zone.written.only f := by
  let items {α : Type} (whole : List α → Zone) := @joinZones_items α whole
  let toggle (whole : Option Bool → Zone) := @joinZones_toggle whole
  cases f with
  | target => cases h : zone.target <;> simp [fieldEntries, ZoneField.kind, Zone.only, Zone.written, h]
  | interfaces => exact items ({ interfaces := · }) rfl (fun _ _ => rfl) _ zone.interfaces
  | sources => exact items ({ sources := · }) rfl (fun _ _ => rfl) _ zone.sources
  | services => exact items ({ services := · }) rfl (fun _ _ => rfl) _ zone.services
  | ports => exact items ({ ports := · }) rfl (fun _ _ => rfl) _ zone.ports
  | protocols => exact items ({ protocols := · }) rfl (fun _ _ => rfl) _ zone.protocols
  | sourcePorts => exact items ({ sourcePorts := · }) rfl (fun _ _ => rfl) _ zone.sourcePorts
  | richRules => exact items ({ richRules := · }) rfl (fun _ _ => rfl) _ zone.richRules
  | forward => exact toggle ({ forward := · }) rfl _ zone.forward
  | masquerade => exact toggle ({ masquerade := · }) rfl _ zone.masquerade
  | forwardPorts => exact items ({ forwardPorts := · }) rfl (fun _ _ => rfl) _ zone.forwardPorts
  | icmpBlocks => exact items ({ icmpBlocks := · }) rfl (fun _ _ => rfl) _ zone.icmpBlocks
  | icmpBlockInversion => exact toggle ({ icmpBlockInversion := · }) rfl _ zone.icmpBlockInversion

theorem joinZones_zoneEntries (name : String) (zone : Zone) :
    joinZones ((zoneEntries name zone).map (·.2)) = zone.written := by
  have hfields (fs : List ZoneField) :
      joinZones ((fs.flatMap (fieldEntries name zone)).map (·.2)) =
        joinZones (fs.map zone.written.only) := by
    induction fs with
    | nil => rfl
    | cons f fs ih =>
      rw [List.flatMap_cons, List.map_append, joinZones_append, ih, joinZones_fieldEntries,
        List.map_cons, joinZones_cons]
  rw [zoneEntries, hfields, joinZones_only]

theorem gather_cons (f : Config) (fs : List Config) :
    gather (f :: fs) = absorb (absorb {} f) (gather fs) :=
  gather_append [f] fs

theorem gather_zoneFragments (name : String) (zones : List Zone) :
    gather (zones.map fun zone => { zones := [(name, zone)] }) =
      { zones := if zones.isEmpty then [] else [(name, joinZones zones)] } := by
  induction zones with
  | nil => rfl
  | cons z zones ih =>
    have hfirst : absorb {} { zones := [(name, z)] } = { zones := [(name, z)] } := by
      simp [absorb, Config.alterZone, alter]
    rw [List.map_cons, gather_cons, ih, hfirst]
    cases zones with
    | nil => simp
    | cons z' zones => simp [absorb, Config.alterZone, alter]

/-- The zones that have parts, each put together from its own. -/
def joined (parts : String → Zone → List Zone) (zones : List (String × Zone)) :
    List (String × Zone) :=
  (zones.filter fun (name, zone) => !(parts name zone).isEmpty).map
    fun (name, zone) => (name, joinZones (parts name zone))

theorem names_joined (parts : String → Zone → List Zone) (zones : List (String × Zone)) :
    (names (joined parts zones)).Sublist (names zones) := by
  have h : names (joined parts zones) =
      (zones.filter fun (name, zone) => !(parts name zone).isEmpty).map (·.1) := by
    rw [names, joined, List.map_map]
    rfl
  rw [h]
  exact List.filter_sublist.map _

theorem gather_zones {zones : List (String × Zone)} (h : (names zones).Nodup)
    (parts : String → Zone → List Zone) :
    gather (zones.flatMap fun (name, zone) =>
        (parts name zone).map fun part => { zones := [(name, part)] }) =
      { zones := joined parts zones } := by
  induction zones with
  | nil => rfl
  | cons e zones ih =>
    obtain ⟨name, zone⟩ := e
    obtain ⟨hname, h⟩ := List.nodup_cons.mp h
    -- the names that are left are some of those that were there
    have hrest := names_joined parts zones
    rw [List.flatMap_cons, gather_append, ih h, gather_zoneFragments, absorb_eq,
      appendZones_of_disjoint (h.sublist hrest)]
    · cases hparts : (parts name zone).isEmpty <;> simp [joined, hparts, appendDirects]
    · intro n hn
      split
      · exact List.not_mem_nil
      · rintro hmem
        rw [List.mem_singleton.mp hmem] at hn
        exact hname (hrest.subset hn)

/-! ## The direct block -/

def directEntries (direct : Direct) : List (Change × Direct) :=
  (distinct direct.chains).map (fun chain => (.chain .add chain, { chains := [chain] }))
    ++ direct.rules.map (fun rule => (.rule .add rule, { rules := [rule] }))
    ++ direct.passthroughs.map fun item => (.passthrough .add item, { passthroughs := [item] })

theorem map_directEntries (direct : Direct) :
    (directEntries direct).map (·.1) = directChanges .apply direct := by
  simp [directEntries, directChanges, Function.comp_def, Direction.verb]

/-- The direct entries in some fragments. -/
def directOf (fragments : List Config) : Direct where
  chains := fragments.flatMap fun f => (f.direct.getD {}).chains
  rules := fragments.flatMap fun f => (f.direct.getD {}).rules
  passthroughs := fragments.flatMap fun f => (f.direct.getD {}).passthroughs

theorem direct_gather (fragments : List Config) :
    (gather fragments).direct.getD {} = directOf fragments := by
  induction fragments with
  | nil => rfl
  | cons f fragments ih =>
    rw [gather_cons, absorb_eq, absorb_eq]
    simp only [getD_appendDirects, ih]
    rfl

theorem zones_gather (fragments : List Config) :
    (gather fragments).zones = appendZones [] (fragments.flatMap (·.zones)) := by
  have hfold (config : Config) : (fragments.foldl absorb config).zones =
      appendZones config.zones (fragments.flatMap (·.zones)) := by
    induction fragments generalizing config with
    | nil => rfl
    | cons f fragments ih =>
      rw [List.foldl_cons, ih, absorb_eq, List.flatMap_cons]
      exact List.foldl_append.symm
  exact hfold {}

theorem gather_directFragments (parts : List Direct) :
    (gather (parts.map fun part => { direct := some part })).zones = [] ∧
      (gather (parts.map fun part => { direct := some part })).direct.getD {} =
        { chains := parts.flatMap (·.chains)
          rules := parts.flatMap (·.rules)
          passthroughs := parts.flatMap (·.passthroughs) } := by
  constructor
  · rw [zones_gather, List.flatMap_map, List.flatMap_eq_nil_iff.mpr fun _ _ => rfl]
    rfl
  · rw [direct_gather]
    simp only [directOf, List.flatMap_map, Option.getD_some]

theorem tidyDirect_directEntries {direct : Direct} (h : direct.ruleGroups = []) :
    tidyDirect (gather (((directEntries direct).map (·.2)).map fun part =>
      { direct := some part })).direct = tidyDirect (some direct) := by
  have hdedup : Direct.dedup
      { chains := distinct direct.chains, rules := direct.rules
        passthroughs := direct.passthroughs } = direct.dedup := by
    simp [Direct.dedup, Direct.merge, distinct_distinct, h]
  have hparts : ((directEntries direct).map (·.2)).flatMap (·.chains) = distinct direct.chains ∧
      ((directEntries direct).map (·.2)).flatMap (·.rules) = direct.rules ∧
      ((directEntries direct).map (·.2)).flatMap (·.passthroughs) = direct.passthroughs := by
    have hnone {α β : Type} (xs : List α) : xs.flatMap (fun _ => ([] : List β)) = [] :=
      List.flatMap_eq_nil_iff.mpr fun _ _ => rfl
    simp [directEntries, List.flatMap_map, hnone]
  obtain ⟨hchains, hrules, hpassthroughs⟩ := hparts
  rw [tidyDirect_getD, (gather_directFragments _).2, hchains, hrules, hpassthroughs]
  exact congrArg (fun d => (some d).filter fun d => !d.isEmpty) hdedup

/-! ## Configurations -/

/-- The changes of a configuration, with the fragments that hold just the entry. -/
def entries (config : Config) : List (Change × Config) :=
  (config.zones.flatMap fun (name, zone) =>
    (zoneEntries name zone).map fun (change, z) => (change, { zones := [(name, z)] }))
    ++ config.direct.toList.flatMap fun direct =>
      (directEntries direct).map fun (change, d) => (change, { direct := some d })

theorem map_entries (config : Config) : (entries config).map (·.1) = allChanges .apply config := by
  have hzone (e : String × Zone) :
      ((zoneEntries e.1 e.2).map fun (change, z) => (change, ({ zones := [(e.1, z)] } : Config))).map
        (·.1) = zoneChanges .add e.1 e.2 := by
    rw [List.map_map]
    exact map_zoneEntries e.1 e.2
  have hdirect (direct : Direct) :
      ((directEntries direct).map fun (change, d) => (change, ({ direct := some d } : Config))).map
        (·.1) = directChanges .apply direct := by
    rw [List.map_map]
    exact map_directEntries direct
  rw [entries, allChanges, List.map_append, List.map_flatMap, List.map_flatMap]
  exact congr (congrArg _ (congrArg (List.flatMap · _) (funext hzone)))
    (congrArg (List.flatMap · _) (funext hdirect))

theorem fragments_entries (config : Config) :
    (entries config).map (·.2) =
      (config.zones.flatMap fun (name, zone) =>
        ((zoneEntries name zone).map (·.2)).map fun part => { zones := [(name, part)] }) ++
      ((config.direct.toList.flatMap directEntries).map (·.2)).map fun part =>
        { direct := some part } := by
  simp only [entries, List.map_append, List.map_flatMap, List.map_map]
  rfl

theorem joined_entries (zones : List (String × Zone)) :
    joined (fun name zone => (zoneEntries name zone).map (·.2)) zones =
      (zones.filter fun (name, zone) => !(zoneChanges .add name zone).isEmpty).map
        fun (name, zone) => (name, zone.written) := by
  simp only [joined, joinZones_zoneEntries, ← map_zoneEntries, List.isEmpty_map]

theorem ofFragments_entries {config : Config} (hnames : (names config.zones).Nodup)
    (hgroups : ∀ direct ∈ config.direct, direct.ruleGroups = []) :
    ofFragments ((entries config).map (·.2)) = config.written.dedup := by
  have hzones := gather_zones hnames fun name zone => (zoneEntries name zone).map (·.2)
  have hdirect : tidyDirect (gather (((config.direct.toList.flatMap directEntries).map (·.2)).map
      fun part => { direct := some part })).direct = tidyDirect config.direct := by
    cases hd : config.direct with
    | none => rfl
    | some direct =>
      rw [Option.toList_some, List.flatMap_singleton]
      exact tidyDirect_directEntries (hgroups direct hd)
  rw [ofFragments_eq, fragments_entries, gather_append, hzones, joined_entries, absorb_eq,
    (gather_directFragments _).1]
  rw [tidyDirect_appendDirects _ (ruleGroups_gather _), hdirect, Config.dedup_eq]
  have hwritten : Direct.mergeOptional (tidyDirect none) (tidyDirect config.direct) =
      config.written.direct.map Direct.dedup := by
    rw [show tidyDirect config.direct = config.written.direct.map Direct.dedup from tidyDirect_eq _]
    cases config.written.direct with
    | none => rfl
    | some direct => exact congrArg some (Direct.dedup_dedup direct)
  rw [hwritten]
  rfl

end Script

end ZoneScript
