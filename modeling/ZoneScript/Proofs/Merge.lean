import ZoneScript.Proofs.Ordered
import ZoneScript.Script.Import

/-!
# Merging is appending without repetition

Merging removes repetitions at each step and importing removes them once at the end. Both come to the
same: a merge is an append whose repetitions are left out, and leaving them out early changes nothing.
-/

namespace ZoneScript

theorem distinct_append_distinct {α : Type} [DecidableEq α] (xs ys : List α) :
    distinct (distinct xs ++ distinct ys) = distinct (xs ++ ys) := by
  simp [distinct_append, distinct_distinct]

open Script Ordered

/-! ## Zones -/

/-- The zone without repeated items. -/
def Zone.dedup (zone : Zone) : Zone :=
  zone.merge {}

theorem appendZone_assoc (a b c : Zone) :
    appendZone (appendZone a b) c = appendZone a (appendZone b c) := by
  simp [appendZone, Option.or_assoc]

@[simp]
theorem empty_appendZone (a : Zone) : appendZone {} a = a := by
  simp [appendZone]

@[simp]
theorem appendZone_empty (a : Zone) : appendZone a {} = a := by
  simp [appendZone]

theorem Zone.merge_eq (a b : Zone) : a.merge b = (appendZone a b).dedup := by
  simp [Zone.merge, Zone.dedup, appendZone]

theorem Zone.dedup_appendZone (a b : Zone) :
    (appendZone a.dedup b.dedup).dedup = (appendZone a b).dedup := by
  simp [Zone.dedup, Zone.merge, appendZone, distinct_append_distinct]

theorem Zone.dedup_dedup (a : Zone) : a.dedup.dedup = a.dedup := by
  simp [Zone.dedup, Zone.merge, distinct_distinct]

theorem Zone.dedup_appendZone_left (a b : Zone) :
    (appendZone a.dedup b).dedup = (appendZone a b).dedup := by
  rw [← dedup_appendZone, dedup_dedup, dedup_appendZone]

theorem Zone.dedup_appendZone_self (zone : Zone) :
    (appendZone zone zone).dedup = zone.dedup := by
  simp [Zone.dedup, Zone.merge, appendZone, distinct_append_self]

theorem Zone.values?_merge (a b : Zone) (f : ZoneField) :
    ((a.merge b).values? f).getD [] =
      distinct ((a.values? f).getD [] ++ (b.values? f).getD []) := by
  cases f <;> rfl

theorem Zone.ports?_merge (a b : Zone) (f : ZoneField) :
    ((a.merge b).ports? f).getD [] = distinct ((a.ports? f).getD [] ++ (b.ports? f).getD []) := by
  cases f <;> rfl

theorem Zone.toggle?_merge (a b : Zone) (f : ZoneField) :
    (a.merge b).toggle? f = (b.toggle? f).or (a.toggle? f) := by
  cases f <;> rfl

/-! ## Zones by name -/

/-- The zones of one list appended to those of another. -/
def appendZones (zones more : List (String × Zone)) : List (String × Zone) :=
  alterEach (fun current zone => appendZone (current.getD {}) zone) zones more

theorem names_appendZones (zones more : List (String × Zone)) :
    names (appendZones zones more) = addNew (names zones) (names more) :=
  names_alterEach _ _ _

theorem nodup_appendZones {zones : List (String × Zone)} (h : (names zones).Nodup)
    (more : List (String × Zone)) : (names (appendZones zones more)).Nodup :=
  nodup_alterEach h _ _

theorem appendZones_of_disjoint {a b : List (String × Zone)} (hb : (names b).Nodup)
    (h : ∀ name ∈ names b, name ∉ names a) : appendZones a b = a ++ b := by
  have hvalues : mapValues (appendZone {}) b = b := by
    simp [mapValues]
  exact (alterEach_of_disjoint hb h _).trans (congrArg (a ++ ·) hvalues)

/-- What becomes of a zone. Of a name that neither side has, nothing. -/
def appendOptional : Option Zone → Option Zone → Option Zone
  | zone, none => zone
  | zone, some more => some (appendZone (zone.getD {}) more)

theorem appendOptional_assoc (a b c : Option Zone) :
    appendOptional (appendOptional a b) c = appendOptional a (appendOptional b c) := by
  cases c with
  | none => rfl
  | some c =>
    cases b with
    | none => simp [appendOptional]
    | some b => simp [appendOptional, appendZone_assoc]

theorem find?_appendZones {more : List (String × Zone)} (h : (names more).Nodup) (name : String)
    (zones : List (String × Zone)) :
    find? name (appendZones zones more) = appendOptional (find? name zones) (find? name more) := by
  rw [appendZones, find?_alterEach, foldValues_of_nodup h]
  cases find? name more <;> simp [appendOptional]

theorem foldValues_appendOptional (name : String) (more : List (String × Zone)) (a b : Option Zone) :
    foldValues (fun current zone => appendZone (current.getD {}) zone) name more (appendOptional a b) =
      appendOptional a
        (foldValues (fun current zone => appendZone (current.getD {}) zone) name more b) := by
  induction more generalizing b with
  | nil => rfl
  | cons e more ih =>
    obtain ⟨n, zone⟩ := e
    rw [foldValues_cons, foldValues_cons]
    by_cases h : n = name
    · rw [if_pos h, if_pos h, ← ih]
      exact congrArg _ (appendOptional_assoc a b (some zone))
    · rw [if_neg h, if_neg h]
      exact ih b

theorem appendZones_assoc {a b : List (String × Zone)} (ha : (names a).Nodup) (hb : (names b).Nodup)
    (c : List (String × Zone)) : appendZones (appendZones a b) c = appendZones a (appendZones b c) := by
  apply ext_of_nodup (nodup_appendZones (nodup_appendZones ha b) c)
  · simp [names_appendZones, addNew_addNew]
  · intro name
    rw [find?_appendZones (nodup_appendZones hb c)]
    simp only [appendZones, find?_alterEach]
    rw [← foldValues_appendOptional, ← find?_appendZones hb]
    simp only [appendZones, find?_alterEach]

theorem Config.mergeZones_eq (existing incoming : List (String × Zone)) :
    mergeZones existing incoming = mapValues Zone.dedup (appendZones existing incoming) := by
  suffices ∀ a b : List (String × Zone), mapValues Zone.dedup a = mapValues Zone.dedup b →
      mapValues Zone.dedup (alterEach (fun current zone => (current.getD {}).merge zone) a incoming) =
        mapValues Zone.dedup (appendZones b incoming) from this _ _ rfl
  induction incoming with
  | nil => exact fun _ _ h => h
  | cons e incoming ih =>
    obtain ⟨name, zone⟩ := e
    intro a b h
    -- on both sides the new value is known from the old one without its repetitions
    have value : ∀ v : Option Zone, (appendZone (v.getD {}) zone).dedup =
        (appendZone ((v.map Zone.dedup).getD {}) zone).dedup := by
      intro v
      cases v with
      | none => rfl
      | some v => exact (Zone.dedup_appendZone_left v zone).symm
    apply ih
    rw [mapValues_alter (h := fun v => (appendZone (v.getD {}) zone).dedup),
      mapValues_alter (h := fun v => (appendZone (v.getD {}) zone).dedup), h]
    · exact value
    · intro v
      simp only
      rw [Zone.merge_eq, Zone.dedup_dedup]
      exact value v

theorem dedup_appendZones {a b : List (String × Zone)} (ha : (names a).Nodup) (hb : (names b).Nodup) :
    mapValues Zone.dedup (appendZones (mapValues Zone.dedup a) (mapValues Zone.dedup b)) =
      mapValues Zone.dedup (appendZones a b) := by
  apply ext_of_nodup
  · rw [names_mapValues]
    exact nodup_appendZones (by rwa [names_mapValues]) _
  · simp [names_appendZones]
  · intro name
    rw [find?_mapValues, find?_mapValues, find?_appendZones hb,
      find?_appendZones (by rwa [names_mapValues]), find?_mapValues, find?_mapValues]
    cases find? name b with
    | none => cases find? name a <;> simp [appendOptional, Zone.dedup_dedup]
    | some w =>
      cases find? name a with
      | none => simp [appendOptional, Zone.dedup_dedup]
      | some v => simp [appendOptional, Zone.dedup_appendZone]

theorem dedup_appendZones_self {a : List (String × Zone)} (ha : (names a).Nodup) :
    mapValues Zone.dedup (appendZones a a) = mapValues Zone.dedup a := by
  apply ext_of_nodup
  · rw [names_mapValues]
    exact nodup_appendZones ha a
  · simp [names_appendZones, addNew_of_subset]
  · intro name
    rw [find?_mapValues, find?_mapValues, find?_appendZones ha]
    cases find? name a <;> simp [appendOptional, Zone.dedup_appendZone_self]

/-! ## Direct blocks -/

/-- The direct block without repeated items. -/
def Direct.dedup (direct : Direct) : Direct :=
  direct.merge {}

theorem appendDirect_assoc (a b c : Direct) :
    appendDirect (appendDirect a b) c = appendDirect a (appendDirect b c) := by
  simp [appendDirect]

theorem Direct.eq_empty {direct : Direct} (h : direct.isEmpty = true) : direct = {} := by
  cases direct
  simpa [Direct.isEmpty, and_assoc] using h

theorem Direct.isEmpty_dedup (direct : Direct) : direct.dedup.isEmpty = direct.isEmpty := by
  have h {α : Type} [DecidableEq α] (xs : List α) : (distinct (xs ++ [])).isEmpty = xs.isEmpty := by
    cases xs <;> rfl
  simp only [Direct.dedup, Direct.merge, Direct.isEmpty, h, addNew]

theorem Direct.merge_eq {a b : Direct} (hb : b.ruleGroups = []) :
    a.merge b = (appendDirect a b).dedup := by
  simp [Direct.merge, Direct.dedup, appendDirect, hb, addNew]

theorem Direct.dedup_appendDirect (a b : Direct) :
    (appendDirect a.dedup b.dedup).dedup = (appendDirect a b).dedup := by
  simp [Direct.dedup, Direct.merge, appendDirect, distinct_append_distinct, addNew]

theorem Direct.dedup_dedup (a : Direct) : a.dedup.dedup = a.dedup := by
  simp [Direct.dedup, Direct.merge, distinct_distinct, addNew]

/-! ## Configurations -/

theorem Config.dedup_eq (config : Config) :
    config.dedup =
      { config with
        zones := mapValues Zone.dedup config.zones
        direct := config.direct.map Direct.dedup } := by
  have hdirect : Direct.mergeOptional config.direct none = config.direct.map Direct.dedup := by
    cases config.direct <;> rfl
  rw [dedup, merge, mergeZones_eq, hdirect]
  rfl

end ZoneScript
