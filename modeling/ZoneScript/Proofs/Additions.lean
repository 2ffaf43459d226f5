import ZoneScript.Proofs.Expansion
import ZoneScript.Proofs.Fragments
import ZoneScript.Proofs.Store

/-!
# Merging only adds

An addition is a configuration that defines no variables and turns nothing off, such as any that was
imported. After it was merged into a document, the script of the document still has each of its lines,
apart from those that set a target. Merging compares items as they are written, and the lines come from
what the items stand for; so the items are followed through merging first, and then through expanding.
-/

namespace ZoneScript

open Ordered Script Template

theorem subset_distinct_append {α : Type} [DecidableEq α] (xs ys : List α) :
    xs ⊆ distinct (xs ++ ys) :=
  fun _ hx => mem_distinct.mpr (List.mem_append_left ys hx)

/-- A zone that turns nothing off. -/
def Zone.NeverOff (zone : Zone) : Prop :=
  ∀ f, zone.toggle? f ≠ some false

/-- No zone of the list turns anything off. -/
def NeverOff (zones : List (String × Zone)) : Prop :=
  ∀ entry ∈ zones, entry.2.NeverOff

/-- A configuration that defines no variables and turns nothing off. -/
structure Config.IsAddition (config : Config) : Prop where
  vars : config.vars = []
  zones : NeverOff config.zones

/-! ## Zones with more in them -/

/-- The second zone has what the first one has, and turns on what that one turns on. Only the target may
be another one. -/
structure Zone.Within (zone more : Zone) : Prop where
  target : zone.target.isSome = true → more.target.isSome = true
  values f : (zone.values? f).getD [] ⊆ (more.values? f).getD []
  ports f : (zone.ports? f).getD [] ⊆ (more.ports? f).getD []
  forwardPorts : zone.forwardPorts ⊆ more.forwardPorts
  richRules : zone.richRules ⊆ more.richRules
  toggles f : zone.toggle? f = some true → more.toggle? f = some true

namespace Zone

theorem Within.refl (zone : Zone) : zone.Within zone where
  target := id
  values _ := List.Subset.refl _
  ports _ := List.Subset.refl _
  forwardPorts := List.Subset.refl _
  richRules := List.Subset.refl _
  toggles _ := id

theorem Within.trans {a b c : Zone} (h : a.Within b) (k : b.Within c) : a.Within c where
  target := k.target ∘ h.target
  values f := List.Subset.trans (h.values f) (k.values f)
  ports f := List.Subset.trans (h.ports f) (k.ports f)
  forwardPorts := List.Subset.trans h.forwardPorts k.forwardPorts
  richRules := List.Subset.trans h.richRules k.richRules
  toggles f := k.toggles f ∘ h.toggles f

theorem within_merge (zone : Zone) {more : Zone} (h : more.NeverOff) : zone.Within (zone.merge more)
    where
  target ht := by
    rw [Zone.merge, Option.isSome_or, ht, Bool.or_true]
  values f := values?_merge zone more f ▸ subset_distinct_append _ _
  ports f := ports?_merge zone more f ▸ subset_distinct_append _ _
  forwardPorts := subset_distinct_append _ _
  richRules := subset_distinct_append _ _
  toggles f ht := by
    rw [toggle?_merge, ht]
    cases hmore : more.toggle? f with
    | none => rfl
    | some flag =>
      cases flag with
      | true => rfl
      | false => exact absurd hmore (h f)

theorem neverOff_empty : ({} : Zone).NeverOff := by
  intro f
  cases f <;> simp [toggle?]

end Zone

/-- Each zone of the first list is in the second one too, under the same name and with more in it. -/
def ZonesWithin (zones more : List (String × Zone)) : Prop :=
  ∀ entry ∈ zones, ∃ zone, (entry.1, zone) ∈ more ∧ entry.2.Within zone

namespace ZonesWithin

theorem refl (zones : List (String × Zone)) : ZonesWithin zones zones :=
  fun entry h => ⟨entry.2, h, Zone.Within.refl _⟩

theorem trans {a b c : List (String × Zone)} (h : ZonesWithin a b) (k : ZonesWithin b c) :
    ZonesWithin a c := by
  intro entry hentry
  obtain ⟨zone, hzone, hwithin⟩ := h entry hentry
  obtain ⟨more, hmore, hmoreWithin⟩ := k (entry.1, zone) hzone
  exact ⟨more, hmore, hwithin.trans hmoreWithin⟩

theorem mapValues {f : Zone → Zone} (h : ∀ zone : Zone, zone.Within (f zone))
    (zones : List (String × Zone)) : ZonesWithin zones (Ordered.mapValues f zones) :=
  fun entry hentry => ⟨f entry.2, List.mem_map.mpr ⟨entry, hentry, rfl⟩, h entry.2⟩

theorem alter {f : Option Zone → Zone} (h : ∀ zone : Zone, zone.Within (f (some zone)))
    (name : String) (zones : List (String × Zone)) :
    ZonesWithin zones (Ordered.alter name f zones) := by
  induction zones with
  | nil => intro entry hentry; cases hentry
  | cons e zones ih =>
    obtain ⟨n, zone⟩ := e
    rw [Ordered.alter]
    intro entry hentry
    by_cases hn : n = name
    · rw [if_pos hn]
      rcases List.mem_cons.mp hentry with rfl | hentry
      · exact ⟨f (some zone), List.mem_cons_self, h zone⟩
      · exact ⟨entry.2, List.mem_cons_of_mem _ hentry, Zone.Within.refl _⟩
    · rw [if_neg hn]
      rcases List.mem_cons.mp hentry with rfl | hentry
      · exact ⟨zone, List.mem_cons_self, Zone.Within.refl _⟩
      · obtain ⟨more, hmore, hwithin⟩ := ih entry hentry
        exact ⟨more, List.mem_cons_of_mem _ hmore, hwithin⟩

theorem mergeZones (zones : List (String × Zone)) {more : List (String × Zone)}
    (h : NeverOff more) : ZonesWithin zones (Config.mergeZones zones more) := by
  suffices ∀ zones, ZonesWithin zones
      (alterEach (fun current zone => (current.getD {}).merge zone) zones more) from
    (this zones).trans (.mapValues (fun zone => zone.within_merge Zone.neverOff_empty) _)
  induction more with
  | nil => exact fun zones => .refl zones
  | cons e more ih =>
    intro zones
    obtain ⟨hzone, hmore⟩ := List.forall_mem_cons.mp h
    exact (ZonesWithin.alter (fun zone => zone.within_merge hzone) e.1 zones).trans (ih hmore _)

end ZonesWithin

/-! ## Direct blocks with more in them -/

/-- The second direct block has what the first one has. -/
structure Direct.Within (direct more : Direct) : Prop where
  chains : direct.chains ⊆ more.chains
  rules : direct.rules ⊆ more.rules
  passthroughs : direct.passthroughs ⊆ more.passthroughs
  ruleGroups : direct.ruleGroups ⊆ more.ruleGroups

theorem Direct.within_merge (direct more : Direct) : direct.Within (direct.merge more) where
  chains := subset_distinct_append _ _
  rules := subset_distinct_append _ _
  passthroughs := subset_distinct_append _ _
  ruleGroups _ h := mem_addNew.mpr (.inl h)

theorem Direct.exists_within_mergeOptional {direct : Direct} {existing : Option Direct}
    (h : direct ∈ existing) (incoming : Option Direct) :
    ∃ more ∈ Direct.mergeOptional existing incoming, direct.Within more := by
  rw [Option.mem_def] at h
  cases incoming with
  | none => exact ⟨direct.merge {}, by rw [h]; rfl, direct.within_merge {}⟩
  | some more => exact ⟨direct.merge more, by rw [h]; rfl, direct.within_merge more⟩

theorem Direct.Within.isEmpty {direct more : Direct} (h : direct.Within more)
    (hempty : more.isEmpty = true) : direct.isEmpty = true := by
  obtain ⟨hchains, hrules, hpassthroughs, hgroups⟩ := h
  rw [Direct.eq_empty hempty] at hchains hrules hpassthroughs hgroups
  simp [Direct.isEmpty, List.subset_nil.mp hchains, List.subset_nil.mp hrules,
    List.subset_nil.mp hpassthroughs, List.subset_nil.mp hgroups]

namespace Template

/-! ## Expanding more -/

theorem flatMap_subset {α β : Type} {xs ys : List α} (h : xs ⊆ ys) (f : α → List β) :
    xs.flatMap f ⊆ ys.flatMap f := by
  intro y hy
  obtain ⟨x, hx, hy⟩ := List.mem_flatMap.mp hy
  exact List.mem_flatMap.mpr ⟨x, h hx, hy⟩

theorem expandAll_subset {α : Type} [HasLoop α] {items more : List α} (h : items ⊆ more)
    (vars : List (String × Variable)) : expandAll vars items ⊆ expandAll vars more :=
  List.map_subset _ (flatMap_subset h _)

theorem append_flatMap_subset {α β : Type} {xs ys : List α} {groups others : List β}
    (h : xs ⊆ ys) (hgroups : groups ⊆ others) (f : β → List α) :
    xs ++ groups.flatMap f ⊆ ys ++ others.flatMap f :=
  List.append_subset.mpr ⟨List.subset_append_of_subset_left _ h,
    List.subset_append_of_subset_right _ (flatMap_subset hgroups f)⟩

variable (vars : List (String × Variable))

theorem values?_expandZone (zone : Zone) (f : ZoneField) :
    ((expandZone vars zone).values? f).getD [] = expandAll vars ((zone.values? f).getD []) := by
  cases f <;> rfl

theorem ports?_expandZone (zone : Zone) (f : ZoneField) :
    ((expandZone vars zone).ports? f).getD [] = expandAll vars ((zone.ports? f).getD []) := by
  cases f <;> rfl

theorem within_expandZone {zone more : Zone} (h : zone.Within more) :
    (expandZone vars zone).Within (expandZone vars more) where
  target := by simpa [expandZone] using h.target
  values f := by
    rw [values?_expandZone, values?_expandZone]
    exact expandAll_subset (h.values f) vars
  ports f := by
    rw [ports?_expandZone, ports?_expandZone]
    exact expandAll_subset (h.ports f) vars
  forwardPorts := expandAll_subset h.forwardPorts vars
  richRules := expandAll_subset h.richRules vars
  toggles f := by
    rw [toggle?_expandZone, toggle?_expandZone]
    exact h.toggles f

theorem within_realizeGroups {direct more : Direct} (h : direct.Within more) :
    (realizeGroups direct).Within (realizeGroups more) where
  chains := append_flatMap_subset h.chains h.ruleGroups _
  rules := append_flatMap_subset h.rules h.ruleGroups _
  passthroughs := append_flatMap_subset h.passthroughs h.ruleGroups _
  ruleGroups := List.Subset.refl _

theorem within_expandDirect {direct more : Direct} (h : direct.Within more) :
    (expandDirect vars direct).Within (expandDirect vars more) where
  chains := List.map_subset _ (within_realizeGroups h).chains
  rules := expandAll_subset (within_realizeGroups h).rules vars
  passthroughs := expandAll_subset (within_realizeGroups h).passthroughs vars
  ruleGroups := List.Subset.refl _

end Template

/-! ## Configurations with more in them -/

/-- The second configuration has what the first one has. -/
structure Config.Within (config more : Config) : Prop where
  vars : more.vars = config.vars
  zones : ZonesWithin config.zones more.zones
  direct : ∀ direct ∈ config.direct, ∃ d ∈ more.direct, direct.Within d

theorem Config.within_merge (config : Config) {addition : Config} (h : addition.IsAddition) :
    config.Within (config.merge addition) where
  vars := by rw [Config.merge, h.vars]; rfl
  zones := .mergeZones config.zones h.zones
  direct _ hdirect := Direct.exists_within_mergeOptional hdirect addition.direct

theorem Config.Within.expand {config more : Config} (h : config.Within more) :
    config.expand.Within more.expand where
  vars := rfl
  zones := by
    rw [expand_eq, expand_eq, h.vars]
    intro entry hentry
    obtain ⟨⟨name, zone⟩, hzone, rfl⟩ := List.mem_map.mp hentry
    obtain ⟨other, hother, hwithin⟩ := h.zones (name, zone) hzone
    exact ⟨_, List.mem_map.mpr ⟨(name, other), hother, rfl⟩, within_expandZone _ hwithin⟩
  direct := by
    rw [expand_eq, expand_eq, h.vars]
    intro direct hdirect
    obtain ⟨hsome, hnonempty⟩ := Option.mem_filter_iff.mp hdirect
    obtain ⟨d, hd, rfl⟩ := Option.map_eq_some_iff.mp hsome
    obtain ⟨other, hother, hwithin⟩ := h.direct d hd
    have hwithin := within_expandDirect (resolve config.vars) hwithin
    refine ⟨_, Option.mem_filter_iff.mpr ⟨Option.mem_map_of_mem _ hother, ?_⟩, hwithin⟩
    -- what has something in it has something in it still
    simp only [Bool.not_eq_true', Bool.eq_false_iff] at hnonempty ⊢
    exact mt hwithin.isEmpty hnonempty

namespace Script

/-! ## The lines of more -/

def Change.isTarget : Change → Bool
  | .target .. => true
  | _ => false

/-- Each change is among the others or sets a target, and then one of the others does too. -/
def Kept (changes others : List Change) : Prop :=
  ∀ c ∈ changes, c ∈ others ∨ c.isTarget = true ∧ ∃ d ∈ others, d.isTarget = true

theorem kept_fieldChanges {zone more : Zone} (h : zone.Within more) (name : String) (f : ZoneField) :
    Kept (fieldChanges .add name zone f) (fieldChanges .add name more f) := by
  intro change hchange
  unfold fieldChanges at hchange ⊢
  cases hkind : f.kind <;> simp only [hkind] at hchange ⊢
  case target =>
    obtain ⟨value, hvalue, rfl⟩ := List.mem_map.mp hchange
    obtain ⟨other, hother⟩ := Option.isSome_iff_exists.mp
      (h.target (Option.isSome_iff_exists.mpr ⟨value, Option.mem_toList.mp hvalue⟩))
    exact .inr ⟨rfl, _, List.mem_map.mpr ⟨other, Option.mem_toList.mpr hother, rfl⟩, rfl⟩
  case toggle =>
    by_cases hon : zone.toggle? f = some true
    · rw [if_pos hon] at hchange
      rw [if_pos (h.toggles f hon)]
      exact .inl hchange
    · rw [if_neg hon] at hchange
      cases hchange
  case values => exact .inl (List.map_subset _ (h.values f) hchange)
  case ports => exact .inl (List.map_subset _ (h.ports f) hchange)
  case forwardPorts => exact .inl (List.map_subset _ h.forwardPorts hchange)
  case richRules => exact .inl (List.map_subset _ h.richRules hchange)

theorem kept_zoneChanges {zone more : Zone} (h : zone.Within more) (name : String) :
    Kept (zoneChanges .add name zone) (zoneChanges .add name more) := by
  intro change hchange
  obtain ⟨f, hf, hchange⟩ := List.mem_flatMap.mp hchange
  have hmore : ∀ d ∈ fieldChanges .add name more f, d ∈ zoneChanges .add name more :=
    fun d hd => List.mem_flatMap.mpr ⟨f, hf, hd⟩
  rcases kept_fieldChanges h name f change hchange with hsame | ⟨htarget, d, hd, hdt⟩
  · exact .inl (hmore _ hsame)
  · exact .inr ⟨htarget, d, hmore d hd, hdt⟩

theorem kept_directChanges {direct more : Direct} (h : direct.Within more) :
    Kept (directChanges .apply direct) (directChanges .apply more) := by
  intro change hchange
  left
  rw [mem_directChanges] at hchange ⊢
  rcases hchange with ⟨c, hc, rfl⟩ | ⟨r, hr, rfl⟩ | ⟨p, hp, rfl⟩
  · exact .inl ⟨c, h.chains hc, rfl⟩
  · exact .inr (.inl ⟨r, h.rules hr, rfl⟩)
  · exact .inr (.inr ⟨p, h.passthroughs hp, rfl⟩)

theorem Kept.ne_nil {changes others : List Change} (h : Kept changes others) (hne : changes ≠ []) :
    others ≠ [] := by
  obtain ⟨c, hc⟩ := List.exists_mem_of_ne_nil changes hne
  rcases h c hc with hsame | ⟨-, d, hd, -⟩
  · exact List.ne_nil_of_mem hsame
  · exact List.ne_nil_of_mem hd

section

variable {options : Options} {line : Line}

theorem mem_block_of_kept {changes others : List Change} (h : Kept changes others) {banner : String}
    (hline : line.makes Change.isTarget = false) (hmem : line ∈ block options banner changes) :
    line ∈ block options banner others := by
  rw [block_eq, List.mem_append] at hmem ⊢
  rcases hmem with hmem | hmem
  · have hne : changes ≠ [] := by
      rintro rfl
      cases hmem
    left
    simpa [header, hne, h.ne_nil hne] using hmem
  · obtain ⟨c, hc, hmem⟩ := List.mem_flatMap.mp hmem
    obtain ⟨permanent, -, rfl⟩ := mem_changeLines.mp hmem
    have htarget : c.isTarget = false := hline
    refine .inr (List.mem_flatMap.mpr ⟨c, ?_, hmem⟩)
    exact (h c hc).resolve_right (by simp [htarget])

theorem mem_ofConfig_of_within {config more : Config} (h : config.Within more)
    (hline : line.makes Change.isTarget = false) (hmem : line ∈ ofConfig options .apply config) :
    line ∈ ofConfig options .apply more := by
  rw [mem_ofConfig] at hmem ⊢
  rcases hmem with hmem | hmem | hmem
  · obtain ⟨⟨name, zone⟩, hzone, hmem⟩ := List.mem_flatMap.mp hmem
    obtain ⟨other, hother, hwithin⟩ := h.zones (name, zone) hzone
    exact .inl (List.mem_flatMap.mpr
      ⟨(name, other), hother, mem_block_of_kept (kept_zoneChanges hwithin name) hline hmem⟩)
  · obtain ⟨direct, hdirect, hmem⟩ := List.mem_flatMap.mp hmem
    obtain ⟨other, hother, hwithin⟩ := h.direct direct (Option.mem_toList.mp hdirect)
    exact .inr (.inl (List.mem_flatMap.mpr ⟨other, Option.mem_toList.mpr hother,
      mem_block_of_kept (kept_directChanges hwithin) hline hmem⟩))
  · exact .inr (.inr hmem)

end

end Script

/-! ## Imports turn nothing off -/

namespace Zone

theorem toggle?_appendZone (zone more : Zone) (f : ZoneField) :
    (appendZone zone more).toggle? f = (more.toggle? f).or (zone.toggle? f) := by
  cases f <;> rfl

theorem NeverOff.of_or {zone more both : Zone} (h : zone.NeverOff) (k : more.NeverOff)
    (hboth : ∀ f, both.toggle? f = (more.toggle? f).or (zone.toggle? f)) : both.NeverOff := by
  intro f
  rw [hboth, ne_eq, Option.or_eq_some_iff, not_or]
  exact ⟨k f, fun hf => h f hf.2⟩

theorem NeverOff.enters {zone z : Zone} {f : ZoneField} {value : Option String} (h : zone.NeverOff)
    (henters : Script.Enters zone f value z) : z.NeverOff := by
  cases henters with
  | toggle hkind =>
    intro g
    rw [toggle?_setToggle hkind]
    split
    · simp
    · exact h g
  | value hkind hne =>
    intro g
    rw [toggle?_addValue]
    exact h g
  | port hkind hne =>
    intro g
    rw [toggle?_addPort]
    exact h g
  | forwardPort hkind hne hitem => exact h
  | richRule hkind hne => exact h

theorem Made.neverOff {zone : Zone} (h : zone.Made) : zone.NeverOff := by
  induction h with
  | empty => exact neverOff_empty
  | target h hne ih => exact ih
  | entry h henters ih => exact ih.enters henters
  | append h k ih ik => exact ih.of_or ik (toggle?_appendZone _ _)
  | dedup h ih => exact ih.of_or neverOff_empty (toggle?_merge _ {})

end Zone

namespace Script

theorem isAddition_ofText (zone text : String) : (Import.ofText zone text).config.IsAddition where
  vars := congrArg Config.vars (ofFragments_eq _)
  zones := fun entry hentry => ((made_ofText zone text).zones entry hentry).2.neverOff

/-- **Merging only adds.** Whatever the document makes of variables, loops and rule groups, its script
still has each of its lines after an addition was merged into it, apart from those that set a target;
and what is imported is an addition. -/
theorem mem_ofConfig_expand_merge (options : Options) (config : Config) :
    (∀ addition : Config, addition.IsAddition → ∀ line ∈ ofConfig options .apply config.expand,
        line.makes Change.isTarget = false →
          line ∈ ofConfig options .apply (config.merge addition).expand) ∧
      ∀ zone script, (Import.ofText zone script).config.IsAddition :=
  ⟨fun _ h _ hmem hline => mem_ofConfig_of_within (config.within_merge h).expand hline hmem,
    isAddition_ofText⟩

/-- The loop still comes to its second port and the rule group to its chain, when the first port and
another target are imported. -/
theorem mem_ofConfig_expand_merge_templates :
    let web : PortItem := { port := "\x7b\x7bitem\x7d\x7d", protocol := "tcp", loop := some "web" }
    let group : RuleGroup := { ipv := ["ipv4"], table := "filter", chain := "X" }
    let config : Config :=
      { vars := [("web", .list ["80", "443/udp"])]
        zones := [("a", { target := some "DROP", ports := [web] })]
        direct := some { ruleGroups := [group] } }
    let script := "firewall-cmd --zone=a --set-target=ACCEPT\nfirewall-cmd --zone=a --add-port=80/tcp\n"
    let merged := config.merge (Import.ofText "public" script).config
    let script := ofConfig {} .apply merged.expand
    .command true (.entry .add "a" .ports (some "443/udp")) ∈ script ∧
      .command true (.chain .add ⟨"ipv4", "filter", "X"⟩) ∈ script ∧
      .command true (.target "a" "DROP") ∉ script := by
  intro web group config text merged script
  obtain ⟨hmerge, himport⟩ := mem_ofConfig_expand_merge {} config
  exact ⟨hmerge _ (himport "public" text) _ (by decide +kernel) rfl,
    hmerge _ (himport "public" text) _ (by decide +kernel) rfl, by decide +kernel⟩

end Script

end ZoneScript
