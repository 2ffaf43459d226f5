import Mathlib.Logic.Equiv.Basic
import ZoneScript.Proofs.Entries
import ZoneScript.Proofs.ScriptText
import ZoneScript.Proofs.ZoneFlags

/-!
# The default zone

The default zone is where a line goes that changes a zone and names none. Nothing else depends on it:
not which lines are read, not what is reported, and not the order of zones. So two imports with
different default zones differ by the name of one zone, unless a line names one of the two itself.
-/

namespace ZoneScript

namespace Ordered

variable {α β : Type} {ρ σ : String → String}

/-! ## Names changed in place -/

/-- The map with every name changed. -/
def mapNames (ρ : String → String) (es : List (String × α)) : List (String × α) :=
  es.map fun (name, v) => (ρ name, v)

theorem mapNames_congr {es : List (String × α)} (h : ∀ name ∈ names es, ρ name = σ name) :
    mapNames ρ es = mapNames σ es :=
  List.map_congr_left fun e he => congrArg (·, e.2) (h e.1 (List.mem_map.mpr ⟨e, he, rfl⟩))

theorem mapNames_eq_self {es : List (String × α)} (h : ∀ name ∈ names es, ρ name = name) :
    mapNames ρ es = es :=
  (mapNames_congr h).trans (List.map_id es)

theorem mapNames_mapValues (ρ : String → String) (f : α → β) (es : List (String × α)) :
    mapNames ρ (mapValues f es) = mapValues f (mapNames ρ es) := by
  simp [mapNames, mapValues]

theorem mapNames_alter (h : Function.Injective ρ) (name : String) (f : Option α → α)
    (es : List (String × α)) : mapNames ρ (alter name f es) = alter (ρ name) f (mapNames ρ es) := by
  -- Different names stay different, so each value is found under its new name.
  induction es with
  | nil => rfl
  | cons e es ih =>
    obtain ⟨n, v⟩ := e
    by_cases hn : n = name
    · simp [mapNames, alter, hn]
    · simpa [mapNames, alter, hn, h.eq_iff] using ih

theorem mapNames_alterEach (h : Function.Injective ρ) (f : Option α → β → α) (es : List (String × α))
    (more : List (String × β)) :
    mapNames ρ (alterEach f es more) = alterEach f (mapNames ρ es) (mapNames ρ more) := by
  induction more generalizing es with
  | nil => rfl
  | cons e more ih =>
    obtain ⟨name, w⟩ := e
    refine (ih _).trans ?_
    rw [mapNames_alter h]
    rfl

end Ordered

open Ordered

/-- The configuration with every zone under a new name, in its place. -/
def Config.renameZones (ρ : String → String) (config : Config) : Config :=
  { config with zones := mapNames ρ config.zones }

/-- The configuration with one zone under a new name, in its place. -/
def Config.renameZone (name new : String) (config : Config) : Config :=
  config.renameZones fun n => if n = name then new else n

namespace Script

/-! ## New names for fragments -/

theorem names_ofFragments (fragments : List Config) {name : String} :
    name ∈ names (ofFragments fragments).zones ↔
      ∃ fragment ∈ fragments, name ∈ names fragment.zones := by
  rw [ofFragments_eq, names_mapValues, zones_gather, names_appendZones, mem_addNew]
  simp [names, List.map_flatMap]

theorem ofFragments_renameZones {ρ : String → String} (h : Function.Injective ρ)
    (fragments : List Config) :
    ofFragments (fragments.map (·.renameZones ρ)) = (ofFragments fragments).renameZones ρ := by
  have hzones : (fragments.map (·.renameZones ρ)).flatMap (·.zones) =
      mapNames ρ (fragments.flatMap (·.zones)) := by
    rw [List.flatMap_map]
    exact List.map_flatMap.symm
  have hdirect : directOf (fragments.map (·.renameZones ρ)) = directOf fragments := by
    simp only [directOf, List.flatMap_map, Config.renameZones]
  rw [ofFragments_eq, ofFragments_eq, tidyDirect_getD, direct_gather, hdirect, ← direct_gather,
    ← tidyDirect_getD, zones_gather, zones_gather, hzones, Config.renameZones, mapNames_mapValues,
    appendZones, appendZones, mapNames_alterEach h]
  rfl

/-! ## What flags come to, and nothing else -/

theorem newZone_of_ofName? {name : String} (h : Setter.ofName? name = some .newZone) :
    name = "new-zone" := by
  unfold Setter.ofName? at h
  split at h
  · cases h
  split at h
  · rename_i hname
    exact beq_iff_eq.mp hname
  split at h
  · cases h
  split at h
  · cases h
  obtain ⟨f, -, hf⟩ := Option.bind_eq_some_iff.mp h
  split at hf <;> cases hf

theorem mem_asked {setter : Setter} {flags : List Flag} {value : Option String} :
    value ∈ asked setter flags ↔
      ∃ flag ∈ flags, Setter.ofName? flag.name = some setter ∧ flag.value = value := by
  simp [asked, and_assoc]

/-- What flags come to has nothing but what they ask for: a zone is made under a name that one of them
gives, and one is spoken of only if a flag is about more than making zones. -/
structure ZoneChange.IsAsked (change : ZoneChange) (flags : List Flag) : Prop where
  created : ∀ name ∈ names change.created, some name ∈ asked .newZone flags
  zone : change.zone.isSome → ∃ setter, setter ≠ .newZone ∧ asked setter flags ≠ []

theorem isAsked_applyFlag {change next : ZoneChange} {flag : Flag} {flags : List Flag}
    (h : change.IsAsked flags) (happly : applyFlag change flag = .ok next) :
    next.IsAsked (flags ++ [flag]) := by
  have hmore {setter : Setter} {value : Option String} (hasked : value ∈ asked setter flags) :
      value ∈ asked setter (flags ++ [flag]) := by
    obtain ⟨f, hf, hsame⟩ := mem_asked.mp hasked
    exact mem_asked.mpr ⟨f, List.mem_append_left _ hf, hsame⟩
  have hflag {setter : Setter} (hsetter : Setter.ofName? flag.name = some setter) :
      flag.value ∈ asked setter (flags ++ [flag]) :=
    mem_asked.mpr ⟨flag, by simp, hsetter, rfl⟩
  -- a flag of the zone itself makes no other one
  have written {setter : Setter} (hsetter : Setter.ofName? flag.name = some setter)
      (hnew : setter ≠ .newZone) {zone : Zone} :
      ({ change with zone := some zone } : ZoneChange).IsAsked (flags ++ [flag]) :=
    ⟨fun name hname => hmore (h.created name hname),
      fun _ => ⟨setter, hnew, List.ne_nil_of_mem (hflag hsetter)⟩⟩
  cases applies_of_applyFlag happly with
  | @newZone new hsetter hvalue hne =>
    refine ⟨fun name hname => ?_, fun hzone => ?_⟩
    · rcases mem_names_alter.mp hname with rfl | hold
      · exact hvalue ▸ hflag hsetter
      · exact hmore (h.created name hold)
    · obtain ⟨other, hne, hasked⟩ := h.zone hzone
      obtain ⟨value, hvalue⟩ := List.exists_mem_of_ne_nil _ hasked
      exact ⟨other, hne, List.ne_nil_of_mem (hmore hvalue)⟩
  | target hsetter hvalue hne => exact written hsetter (by simp)
  | field hsetter henters => exact written hsetter (by simp)

theorem isAsked_foldlM {change next : ZoneChange} {done flags : List Flag} (h : change.IsAsked done)
    (hfold : flags.foldlM applyFlag change = .ok next) : next.IsAsked (done ++ flags) :=
  foldlM_induction (P := fun done change => change.IsAsked done) isAsked_applyFlag done h hfold

/-! ## Zone commands under all default zones -/

/-- The zone that a call names. -/
def Call.zone? (call : Call) : Option String :=
  (call.flags.find? (·.name == "zone")).bind (·.value)

/-- The call gives this name to a zone that it speaks of or makes. -/
def Call.NamesZone (call : Call) (name : String) : Prop :=
  ∃ flag ∈ call.flags, (flag.name = "zone" ∨ flag.name = "new-zone") ∧ flag.value = some name

instance (call : Call) (name : String) : Decidable (call.NamesZone name) :=
  inferInstanceAs (Decidable (∃ _ ∈ _, _))

theorem Call.namesZone_of_zone? {call : Call} {name : String} (h : call.zone? = some name) :
    call.NamesZone name := by
  obtain ⟨flag, hflag, hvalue⟩ := Option.bind_eq_some_iff.mp h
  exact ⟨flag, List.mem_of_find?_eq_some hflag, .inl (by simpa using List.find?_some hflag), hvalue⟩

/-- What the flags of a zone command come to, whichever zone is the default one. -/
structure Call.ComesTo (call : Call) (change : ZoneChange) : Prop where
  asks : call.flags.filter (·.name != "zone") ≠ []
  flags : (call.flags.filter (·.name != "zone")).foldlM applyFlag {} = .ok change
  zone : call.hasFlag (· == "zone") = true → call.zone?.isSome
  fragment : ∀ defaultZone, zoneFragment defaultZone call =
    .ok { zones := change.zones (call.zone?.getD defaultZone) }

theorem exists_setter_of_isReadable {flag : Flag} (h : flag.IsReadable) :
    ∃ setter, Setter.ofName? flag.name = some setter := by
  rw [Flag.IsReadable] at h
  cases hsetter : Setter.ofName? flag.name with
  | none => simp [hsetter] at h
  | some setter => exact ⟨setter, rfl⟩

theorem zoneFragment_error {defaultZone : String} {call : Call} {error : LineError}
    (h : zoneFragment defaultZone call = .error error) (other : String) :
    zoneFragment other call = .error error := by
  unfold zoneFragment at h ⊢
  dsimp only at h ⊢
  split at h
  · rename_i hguard
    rw [if_pos hguard]
    exact h
  rename_i hguard
  rw [if_neg hguard]
  split at h
  · exact h
  cases hflag : call.flags.find? (·.name == "zone") with
  | some flag =>
    rw [hflag] at h
    exact h
  | none =>
    rw [hflag] at h
    cases hfold : (call.flags.filter (·.name != "zone")).foldlM applyFlag {} with
    | error e =>
      rw [hfold] at h
      exact h
    | ok change =>
      rw [hfold] at h
      cases h

theorem comesTo_of_zoneFragment {defaultZone : String} {call : Call} {fragment : Config}
    (h : zoneFragment defaultZone call = .ok fragment) : ∃ change, call.ComesTo change := by
  obtain ⟨hwords, hne, name, change, hname, hfold, -⟩ := exists_change_of_zoneFragment h
  have hvalue : ∀ flag ∈ call.flags.find? (·.name == "zone"), call.zone? = some name := by
    intro flag hflag
    rw [zoneName, hflag] at hname
    rw [Call.zone?, hflag, Option.bind_some, (required_eq_ok.mp hname).1]
  have hzone (other : String) : zoneName other call.flags = .ok (call.zone?.getD other) := by
    rw [zoneName] at hname ⊢
    cases hflag : call.flags.find? (·.name == "zone") with
    | none => simp [Call.zone?, hflag]
    | some flag =>
      rw [hflag] at hname
      rw [hname, hvalue flag hflag]
      rfl
  refine ⟨change, hne, hfold, fun hflag => ?_, fun other => ?_⟩
  · obtain ⟨flag, hflag⟩ :=
      Option.isSome_iff_exists.mp (List.find?_isSome.mpr (List.any_eq_true.mp hflag))
    rw [hvalue flag hflag]
    rfl
  · obtain ⟨flag, hflag⟩ := List.exists_mem_of_ne_nil _ hne
    obtain ⟨setter, hsetter⟩ :=
      exists_setter_of_isReadable ((exists_foldlM {}).mp ⟨change, hfold⟩ flag hflag)
    exact zoneFragment_of_change hwords (List.any_eq_true.mpr ⟨flag, hflag, by rw [hsetter]; rfl⟩)
      (hzone other) hfold

theorem mem_names_zones {change : ZoneChange} {name other : String}
    (h : other ∈ names (change.zones name)) : other = name ∨ other ∈ names change.created := by
  rw [ZoneChange.zones] at h
  cases hzone : change.zone with
  | none =>
    rw [hzone] at h
    exact .inr h
  | some zone =>
    rw [hzone] at h
    exact mem_names_alter.mp h

namespace Call.ComesTo

variable {call : Call} {change : ZoneChange}

theorem isAsked (h : call.ComesTo change) : change.IsAsked call.flags := by
  have hstart : ({} : ZoneChange).IsAsked [] := ⟨by simp, by simp⟩
  obtain ⟨hcreated, hzone⟩ := isAsked_foldlM hstart h.flags
  rw [List.nil_append] at hcreated hzone
  simp only [asked_filter] at hcreated hzone
  exact ⟨hcreated, hzone⟩

theorem exists_setter (h : call.ComesTo change) :
    ∃ flag ∈ call.flags, ∃ setter, Setter.ofName? flag.name = some setter := by
  obtain ⟨flag, hflag⟩ := List.exists_mem_of_ne_nil _ h.asks
  exact ⟨flag, List.mem_of_mem_filter hflag,
    exists_setter_of_isReadable ((exists_foldlM {}).mp ⟨change, h.flags⟩ flag hflag)⟩

theorem zones_ne_nil (h : call.ComesTo change) (defaultZone : String) :
    change.zones (call.zone?.getD defaultZone) ≠ [] := by
  obtain ⟨flag, hflag, setter, hsetter⟩ := h.exists_setter
  have hasked : flag.value ∈ asked setter call.flags := mem_asked.mpr ⟨flag, hflag, hsetter, rfl⟩
  obtain ⟨hcreated, hzone⟩ := reflects_of_zoneFragment (h.fragment defaultZone)
  intro hnil
  rw [hnil] at hcreated hzone
  by_cases hnew : setter = .newZone
  · obtain ⟨name, hname, -⟩ := hcreated flag.value (hnew ▸ hasked)
    cases hname
  · obtain ⟨name, zone, -, hfind, -⟩ := hzone setter hnew (List.ne_nil_of_mem hasked)
    cases hfind

theorem namesZone_of_created (h : call.ComesTo change) {name : String}
    (hname : name ∈ names change.created) : call.NamesZone name := by
  obtain ⟨flag, hflag, hsetter, hvalue⟩ := mem_asked.mp (h.isAsked.created name hname)
  exact ⟨flag, hflag, .inr (newZone_of_ofName? hsetter), hvalue⟩

theorem eq_or_namesZone (h : call.ComesTo change) {defaultZone name : String}
    (hname : name ∈ names (change.zones (call.zone?.getD defaultZone))) :
    name = defaultZone ∨ call.NamesZone name := by
  rcases mem_names_zones hname with rfl | hcreated
  · cases hzone : call.zone? with
    | none => exact .inl rfl
    | some given => exact .inr (namesZone_of_zone? hzone)
  · exact .inr (h.namesZone_of_created hcreated)

theorem zone_eq_none (h : call.ComesTo change) (hnew : ∀ flag ∈ call.flags, flag.name = "new-zone") :
    change.zone = none := by
  rw [← Option.not_isSome_iff_eq_none]
  intro hzone
  obtain ⟨setter, hne, hasked⟩ := h.isAsked.zone hzone
  obtain ⟨value, hvalue⟩ := List.exists_mem_of_ne_nil _ hasked
  obtain ⟨flag, hflag, hsetter, -⟩ := mem_asked.mp hvalue
  rw [hnew flag hflag, show Setter.ofName? "new-zone" = some .newZone by decide] at hsetter
  exact hne (Option.some.inj hsetter).symm

theorem zones_congr (h : call.ComesTo change)
    (hflags : call.hasFlag (· == "zone") = true ∨ ∀ flag ∈ call.flags, flag.name = "new-zone")
    (defaultZone other : String) :
    change.zones (call.zone?.getD other) = change.zones (call.zone?.getD defaultZone) := by
  rcases hflags with hzone | hnew
  · obtain ⟨name, hname⟩ := Option.isSome_iff_exists.mp (h.zone hzone)
    rw [hname]
    rfl
  · rw [ZoneChange.zones, ZoneChange.zones, h.zone_eq_none hnew]
    rfl

theorem zones_swap (h : call.ComesTo change) {defaultZone other : String}
    (hdefault : ¬ call.NamesZone defaultZone) (hother : ¬ call.NamesZone other) :
    change.zones (call.zone?.getD other) =
      mapNames (Equiv.swap defaultZone other) (change.zones (call.zone?.getD defaultZone)) := by
  have hfixed {name : String} (hname : call.NamesZone name) :
      Equiv.swap defaultZone other name = name :=
    Equiv.swap_apply_of_ne_of_ne (fun heq => hdefault (heq ▸ hname)) (fun heq => hother (heq ▸ hname))
  have hcreated : mapNames (Equiv.swap defaultZone other) change.created = change.created := by
    exact mapNames_eq_self fun name hname => hfixed (h.namesZone_of_created hname)
  have hspoken : Equiv.swap defaultZone other (call.zone?.getD defaultZone) =
      call.zone?.getD other := by
    cases hzone : call.zone? with
    | none => exact Equiv.swap_apply_left defaultZone other
    | some name => exact hfixed (namesZone_of_zone? hzone)
  rw [ZoneChange.zones, ZoneChange.zones]
  cases change.zone with
  | none => exact hcreated.symm
  | some zone =>
    show Ordered.insert _ zone change.created = mapNames _ (Ordered.insert _ zone change.created)
    rw [Ordered.insert, Ordered.insert, mapNames_alter (Equiv.injective _), hcreated, hspoken]

end Call.ComesTo

/-! ## Lines under all default zones -/

/-- The call that the words of a line write, if the line can be cut into words. -/
def call? (line : List Char) : Option Call :=
  (Shell.split (.ofList (Text.trim line))).toOption.bind fun words =>
    (commandWords words).tail?.map (Call.ofWords false false)

/-- The line is read, and makes a zone or puts something into one. -/
def AddsZones (defaultZone : String) (line : List Char) : Prop :=
  ∃ fragment ∈ (outcome defaultZone line).fragment?, fragment.zones ≠ []

instance (defaultZone : String) (line : List Char) : Decidable (AddsZones defaultZone line) :=
  inferInstanceAs (Decidable (∃ _ ∈ _, _))

theorem addsZones_of_comesTo {call : Call} {change : ZoneChange} (h : call.ComesTo change)
    {defaultZone : String} {line : List Char}
    (houtcome : outcome defaultZone line =
      .parsed { zones := change.zones (call.zone?.getD defaultZone) }) : AddsZones defaultZone line :=
  ⟨_, by rw [houtcome]; rfl, h.zones_ne_nil defaultZone⟩

/-- What a line can come to, as the default zone varies: always the same, with nothing about a zone in
it, or the zones that its flags come to. -/
inductive Reading (line : List Char) : Prop
  | fixed {result : Outcome} (hzones : ∀ fragment ∈ result.fragment?, fragment.zones = [])
      (houtcome : ∀ defaultZone, outcome defaultZone line = result)
  | zones {call : Call} {change : ZoneChange} (hcall : call? line = some call)
      (hchange : call.ComesTo change)
      (houtcome : ∀ defaultZone, outcome defaultZone line =
        .parsed { zones := change.zones (call.zone?.getD defaultZone) })

theorem Call.outcome_cases (call : Call) :
    (∃ result : Outcome, (∀ fragment ∈ result.fragment?, fragment.zones = []) ∧
      ∀ defaultZone, call.outcome defaultZone = result) ∨
    ∃ change, call.ComesTo change ∧ ∀ defaultZone, call.outcome defaultZone =
      .parsed { zones := change.zones (call.zone?.getD defaultZone) } := by
  have silent (result : Outcome) (hnone : result.fragment? = none)
      (houtcome : ∀ defaultZone, call.outcome defaultZone = result) :
      ∃ result : Outcome, (∀ fragment ∈ result.fragment?, fragment.zones = []) ∧
        ∀ defaultZone, call.outcome defaultZone = result :=
    ⟨result, by simp [hnone], houtcome⟩
  cases hreload : call.isReload with
  | true => exact .inl (silent (.skipped .reload) rfl (by simp [Call.outcome, hreload]))
  | false =>
  cases hquery : call.isQuery with
  | true => exact .inl (silent (.skipped .query) rfl (by simp [Call.outcome, hreload, hquery]))
  | false =>
  cases hdirect : call.isDirect with
  | true =>
    cases hfragment : directFragment call with
    | error e =>
      exact .inl (silent (.failed e) rfl
        (by simp [Call.outcome, hreload, hquery, hdirect, hfragment]))
    | ok fragment =>
      refine .inl ⟨.parsed fragment, ?_,
        by simp [Call.outcome, hreload, hquery, hdirect, hfragment]⟩
      rintro _ ⟨⟩
      unfold directFragment at hfragment
      split at hfragment
      · obtain ⟨entry, -, rfl⟩ := map_eq_ok.mp hfragment
        rfl
      · cases hfragment
  | false =>
    cases hfragment : zoneFragment "" call with
    | error e =>
      exact .inl (silent (.failed e) rfl fun other => by
        simp [Call.outcome, hreload, hquery, hdirect, zoneFragment_error hfragment other])
    | ok fragment =>
      obtain ⟨change, hchange⟩ := comesTo_of_zoneFragment hfragment
      exact .inr ⟨change, hchange, fun other => by
        simp [Call.outcome, hreload, hquery, hdirect, hchange.fragment other]⟩

theorem reading (line : List Char) : Reading line := by
  have silent (result : Outcome) (hnone : result.fragment? = none)
      (houtcome : ∀ defaultZone, outcome defaultZone line = result) : Reading line :=
    .fixed (by simp [hnone]) houtcome
  -- blank lines, comments, other commands, shell variables, open quotes and a lone name say nothing
  cases hempty : (Text.trim line).isEmpty with
  | true => exact silent (.skipped .blank) rfl (by simp [outcome, hempty])
  | false =>
  cases hhash : (Text.trim line).head? == some '#' with
  | true => exact silent (.skipped .comment) rfl (by simp [outcome, hempty, hhash])
  | false =>
  cases hruns : runsCommand ((Text.words (Text.trim line)).map String.ofList) with
  | false =>
    exact silent (.skipped .notCommand) rfl (by simp [outcome, hempty, hhash, hruns])
  | true =>
  cases hreference : reference? (Text.trim line) with
  | some reference =>
    exact silent (.failed (.shellReference (.ofList reference))) rfl
      (by simp [outcome, hempty, hhash, hruns, hreference])
  | none =>
  cases hsplit : Shell.split (.ofList (Text.trim line)) with
  | error quote =>
    exact silent (.failed (.openQuote quote)) rfl
      (by simp [outcome, hempty, hhash, hruns, hreference, hsplit])
  | ok words =>
  cases hwords : commandWords words with
  | nil =>
    exact silent (.skipped .notCommand) rfl
      (by simp [outcome, hempty, hhash, hruns, hreference, hsplit, hwords])
  | cons command args =>
  have hcall (defaultZone : String) :
      outcome defaultZone line = (Call.ofWords false false args).outcome defaultZone := by
    simp [outcome, hempty, hhash, hruns, hreference, hsplit, hwords]
  rcases (Call.ofWords false false args).outcome_cases with
    ⟨result, hzones, hresult⟩ | ⟨change, hchange, hresult⟩
  · exact .fixed hzones fun defaultZone => (hcall defaultZone).trans (hresult defaultZone)
  · refine .zones ?_ hchange fun defaultZone => (hcall defaultZone).trans (hresult defaultZone)
    simp [call?, hsplit, hwords, Except.toOption]

namespace Reading

variable {line : List Char}

theorem report_congr (h : Reading line) {γ : Type} (report : Outcome → γ)
    (hreport : ∀ fragment more, report (.parsed fragment) = report (.parsed more))
    (defaultZone other : String) :
    report (outcome other line) = report (outcome defaultZone line) := by
  -- A report never looks into the fragment.
  cases h with
  | fixed hzones houtcome => rw [houtcome, houtcome]
  | zones hcall hchange houtcome =>
    rw [houtcome, houtcome]
    exact hreport _ _

theorem fragment?_congr (h : Reading line) {defaultZone : String}
    (hflags : AddsZones defaultZone line → ∀ call ∈ call? line,
      call.hasFlag (· == "zone") = true ∨ ∀ flag ∈ call.flags, flag.name = "new-zone")
    (other : String) :
    (outcome other line).fragment? = (outcome defaultZone line).fragment? := by
  cases h with
  | fixed hzones houtcome => rw [houtcome, houtcome]
  | zones hcall hchange houtcome =>
    have hadds := addsZones_of_comesTo hchange (houtcome defaultZone)
    rw [houtcome, houtcome, hchange.zones_congr (hflags hadds _ hcall) defaultZone other]

theorem fragment?_swap (h : Reading line) {defaultZone other : String}
    (hflags : AddsZones defaultZone line → ∀ call ∈ call? line,
      ¬ call.NamesZone defaultZone ∧ ¬ call.NamesZone other) :
    (outcome other line).fragment? =
      (outcome defaultZone line).fragment?.map (·.renameZones (Equiv.swap defaultZone other)) := by
  cases h with
  | @fixed result hzones houtcome =>
    rw [houtcome, houtcome]
    cases hfragment : result.fragment? with
    | none => rfl
    | some fragment =>
      have hnil : mapNames (Equiv.swap defaultZone other) fragment.zones = fragment.zones := by
        rw [hzones fragment hfragment]
        rfl
      rw [Option.map_some, Config.renameZones, hnil]
  | zones hcall hchange houtcome =>
    have hadds := addsZones_of_comesTo hchange (houtcome defaultZone)
    obtain ⟨hdefault, hother⟩ := hflags hadds _ hcall
    rw [houtcome, houtcome, hchange.zones_swap hdefault hother]
    rfl

theorem eq_of_mem_names (h : Reading line) {defaultZone other : String}
    (hflags : AddsZones defaultZone line → ∀ call ∈ call? line,
      ¬ call.NamesZone defaultZone ∧ ¬ call.NamesZone other)
    {fragment : Config} (hfragment : fragment ∈ (outcome defaultZone line).fragment?)
    (hname : other ∈ names fragment.zones) : other = defaultZone := by
  cases h with
  | fixed hzones houtcome =>
    rw [houtcome] at hfragment
    rw [hzones fragment hfragment] at hname
    cases hname
  | zones hcall hchange houtcome =>
    have hadds := addsZones_of_comesTo hchange (houtcome defaultZone)
    rw [houtcome] at hfragment
    cases hfragment
    exact (hchange.eq_or_namesZone hname).resolve_right (hflags hadds _ hcall).2

end Reading

/-! ## Imports under all default zones -/

theorem reports_ofText (defaultZone other text : String) :
    (Import.ofText other text).parsed = (Import.ofText defaultZone text).parsed ∧
      (Import.ofText other text).errors = (Import.ofText defaultZone text).errors ∧
      (Import.ofText other text).skipped = (Import.ofText defaultZone text).skipped := by
  have same {γ : Type} (read : LogicalLine × Outcome → Option γ)
      (hread : ∀ line fragment more, read (line, .parsed fragment) = read (line, .parsed more)) :
      (outcomes other text).filterMap read = (outcomes defaultZone text).filterMap read := by
    rw [outcomes, outcomes, List.filterMap_map, List.filterMap_map]
    refine List.filterMap_congr fun line _ => ?_
    exact (reading line.text).report_congr (fun result => read (line, result))
      (hread line) defaultZone other
  exact ⟨same _ fun _ _ _ => rfl, same _ fun _ _ _ => rfl, same _ fun _ _ _ => rfl⟩

theorem config_congr {defaultZone text : String}
    (hflags : ∀ line ∈ logicalLines text, AddsZones defaultZone line.text → ∀ call ∈ call? line.text,
      call.hasFlag (· == "zone") = true ∨ ∀ flag ∈ call.flags, flag.name = "new-zone")
    (other : String) : (Import.ofText other text).config = (Import.ofText defaultZone text).config := by
  rw [config_ofText, config_ofText, List.filterMap_map, List.filterMap_map]
  refine congrArg ofFragments (List.filterMap_congr fun line hline => ?_)
  exact (reading line.text).fragment?_congr (hflags line hline) other

section

variable {defaultZone other text : String}
  (hflags : ∀ line ∈ logicalLines text, AddsZones defaultZone line.text → ∀ call ∈ call? line.text,
    ¬ call.NamesZone defaultZone ∧ ¬ call.NamesZone other)
include hflags

theorem config_swap :
    (Import.ofText other text).config =
      (Import.ofText defaultZone text).config.renameZones (Equiv.swap defaultZone other) := by
  rw [config_ofText, config_ofText, ← ofFragments_renameZones (Equiv.injective _),
    List.filterMap_map, List.filterMap_map, List.map_filterMap]
  refine congrArg ofFragments (List.filterMap_congr fun line hline => ?_)
  exact (reading line.text).fragment?_swap (hflags line hline)

theorem eq_of_mem_config (hname : other ∈ names (Import.ofText defaultZone text).config.zones) :
    other = defaultZone := by
  rw [config_ofText, List.filterMap_map, names_ofFragments] at hname
  obtain ⟨fragment, hfragment, hname⟩ := hname
  obtain ⟨line, hline, hfragment⟩ := List.mem_filterMap.mp hfragment
  exact (reading line.text).eq_of_mem_names (hflags line hline) hfragment hname

theorem config_rename :
    (Import.ofText other text).config =
      (Import.ofText defaultZone text).config.renameZone defaultZone other := by
  rw [config_swap hflags, Config.renameZones, Config.renameZone, Config.renameZones]
  refine congrArg (fun zones => { (Import.ofText defaultZone text).config with zones })
    (mapNames_congr fun name hname => ?_)
  -- the other name is not there, so it need not be exchanged back
  rw [Equiv.swap_apply_def]
  split
  · rfl
  split
  · rename_i heq
    rw [heq] at hname
    rw [heq, eq_of_mem_config hflags hname]
  · rfl

end

theorem exists_setter_of_addsZones {defaultZone : String} {line : List Char}
    (h : AddsZones defaultZone line) :
    ∃ call, call? line = some call ∧ ∃ flag ∈ call.flags, (Setter.ofName? flag.name).isSome := by
  obtain ⟨fragment, hfragment, hne⟩ := h
  cases reading line with
  | fixed hzones houtcome =>
    rw [houtcome] at hfragment
    exact absurd (hzones fragment hfragment) hne
  | zones hcall hchange houtcome =>
    obtain ⟨flag, hflag, setter, hsetter⟩ := hchange.exists_setter
    exact ⟨_, hcall, flag, hflag, by rw [hsetter]; rfl⟩

/-- **The default zone.** Imports of the same text with two default zones read the same lines and report
the same. If all lines that say something about zones name their zone or only make new ones, the
configurations are the same too. If no such line gives the name of one of the two zones, then the one
zone is there in the place of the other, and nothing else differs. A line says something about a zone
only by a flag that sets something. -/
theorem ofText_defaultZone (defaultZone other text : String) :
    let first := Import.ofText defaultZone text
    let second := Import.ofText other text
    (second.parsed = first.parsed ∧ second.errors = first.errors ∧ second.skipped = first.skipped) ∧
    ((∀ line ∈ logicalLines text, AddsZones defaultZone line.text → ∀ call ∈ call? line.text,
        call.hasFlag (· == "zone") = true ∨ ∀ flag ∈ call.flags, flag.name = "new-zone") →
      second.config = first.config) ∧
    ((∀ line ∈ logicalLines text, AddsZones defaultZone line.text → ∀ call ∈ call? line.text,
        ¬ call.NamesZone defaultZone ∧ ¬ call.NamesZone other) →
      second.config = first.config.renameZone defaultZone other) ∧
    ∀ line, AddsZones defaultZone line → ∃ call, call? line = some call ∧
      ∃ flag ∈ call.flags, (Setter.ofName? flag.name).isSome := by
  intro first second
  refine ⟨reports_ofText defaultZone other text, fun hflags => ?_, fun hflags => ?_,
    fun line hadds => ?_⟩
  · exact config_congr hflags other
  · exact config_rename hflags
  · exact exists_setter_of_addsZones hadds

/-- One line leaves its zone to the default, between one that names a zone and one that makes a zone; on
their own, the other two do not depend on it. -/
theorem ofText_defaultZone_moved :
    let named := "firewall-cmd --zone=dmz --add-forward\n"
    let made := "firewall-cmd --new-zone=lab\n"
    let text := named ++ "firewall-cmd --add-forward\n" ++ made
    let first := Import.ofText "public" text
    first.config.zones.map (·.1) = ["dmz", "public", "lab"] ∧
      (Import.ofText "home" text).config = first.config.renameZone "public" "home" ∧
      (Import.ofText "home" (named ++ made)).config =
        (Import.ofText "public" (named ++ made)).config ∧
      ∃ call, call? "firewall-cmd --add-forward".toList = some call ∧
        ∃ flag ∈ call.flags, (Setter.ofName? flag.name).isSome := by
  intro named made text first
  have hmoved : ∀ line ∈ logicalLines text, AddsZones "public" line.text → ∀ call ∈ call? line.text,
      ¬ call.NamesZone "public" ∧ ¬ call.NamesZone "home" := by decide +kernel
  have hsame : ∀ line ∈ logicalLines (named ++ made), AddsZones "public" line.text →
      ∀ call ∈ call? line.text,
        call.hasFlag (· == "zone") = true ∨ ∀ flag ∈ call.flags, flag.name = "new-zone" := by
    decide +kernel
  have hadds : AddsZones "public" "firewall-cmd --add-forward".toList := by decide +kernel
  obtain ⟨-, -, moved, sets⟩ := ofText_defaultZone "public" "home" text
  obtain ⟨-, same, -⟩ := ofText_defaultZone "public" "home" (named ++ made)
  exact ⟨by decide +kernel, moved hmoved, same hsame, sets _ hadds⟩

end Script

end ZoneScript
