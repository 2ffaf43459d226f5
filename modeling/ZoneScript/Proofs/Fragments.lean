import ZoneScript.Proofs.Import

/-!
# What the reader can make

Whatever text is imported, the reader makes zones and direct blocks in a few ways only: it starts from
empty ones, enters what a flag mentions, appends one to another and leaves out repetitions.
-/

namespace ZoneScript

namespace Zone

/-! ## One entry more -/

theorem toggle?_setToggle {f : ZoneField} (hkind : f.kind = .toggle) (zone : Zone) (on : Bool)
    (g : ZoneField) :
    (zone.setToggle f on).toggle? g = if g = f then some on else zone.toggle? g := by
  cases f with
  | forward | masquerade | icmpBlockInversion => cases g <;> rfl
  | _ => cases hkind

theorem values?_addValue_of_ne {f g : ZoneField} (h : g ≠ f) (zone : Zone) (item : ValueItem) :
    (zone.addValue f item).values? g = zone.values? g := by
  cases f <;> cases g <;> first | rfl | exact absurd rfl h

theorem ports?_addPort_of_ne {f g : ZoneField} (h : g ≠ f) (zone : Zone) (item : PortItem) :
    (zone.addPort f item).ports? g = zone.ports? g := by
  cases f <;> cases g <;> first | rfl | exact absurd rfl h

theorem toggle?_addValue (zone : Zone) (f : ZoneField) (item : ValueItem) (g : ZoneField) :
    (zone.addValue f item).toggle? g = zone.toggle? g := by
  cases f <;> rfl

theorem toggle?_addPort (zone : Zone) (f : ZoneField) (item : PortItem) (g : ZoneField) :
    (zone.addPort f item).toggle? g = zone.toggle? g := by
  cases f <;> rfl

end Zone

namespace Script

/-! ## Entries -/

/-- What a flag with this value enters into a field of a zone. -/
inductive Enters (zone : Zone) (f : ZoneField) : Option String → Zone → Prop
  | toggle {value : Option String} (hkind : f.kind = .toggle) :
      Enters zone f value (zone.setToggle f true)
  | value {value : String} (hkind : f.kind = .values) (hne : value ≠ "") :
      Enters zone f (some value) (zone.addValue f { value })
  | port {value : String} (hkind : f.kind = .ports) (hne : value ≠ "") :
      Enters zone f (some value) (zone.addPort f (.ofSpec value))
  | forwardPort {value : String} {item : ForwardPort} (hkind : f.kind = .forwardPorts)
      (hne : value ≠ "") (hitem : ForwardPort.ofSpec? value = .ok item) :
      Enters zone f (some value) { zone with forwardPorts := zone.forwardPorts ++ [item] }
  | richRule {value : String} (hkind : f.kind = .richRules) (hne : value ≠ "") :
      Enters zone f (some value) { zone with richRules := zone.richRules ++ [.ofText value] }

theorem required_eq_ok {flag : Flag} {value : String} :
    flag.required = .ok value ↔ flag.value = some value ∧ value ≠ "" := by
  cases hvalue : flag.value with
  | none => simp [Flag.required, hvalue]
  | some v =>
    by_cases hv : v = ""
    · simp [Flag.required, hvalue, hv]
    · simp only [Flag.required, hvalue, String.isEmpty_iff, hv, if_false, Except.ok.injEq,
        Option.some.injEq, iff_self_and]
      rintro rfl
      exact hv

theorem map_eq_ok {α β ε : Type} {result : Except ε α} {f : α → β} {y : β} :
    result.map f = .ok y ↔ ∃ x, result = .ok x ∧ f x = y := by
  cases result <;> simp [Except.map]

theorem bind_eq_ok {α β ε : Type} {result : Except ε α} {f : α → Except ε β} {y : β} :
    result >>= f = .ok y ↔ ∃ x, result = .ok x ∧ f x = .ok y := by
  cases result <;> simp [bind, Except.bind]

theorem map_required_eq_ok {α : Type} {flag : Flag} {f : String → α} {y : α} :
    flag.required.map f = .ok y ↔ ∃ value, flag.value = some value ∧ value ≠ "" ∧ f value = y := by
  simp only [map_eq_ok, required_eq_ok, and_assoc]

theorem enters_of_setField {zone z : Zone} {f : ZoneField} {flag : Flag}
    (h : setField zone f flag = .ok z) : Enters zone f flag.value z := by
  rw [setField] at h
  cases hkind : f.kind with
  | target =>
    rw [hkind] at h
    cases h
  | toggle =>
    rw [hkind] at h
    cases h
    exact .toggle hkind
  | values =>
    rw [hkind] at h
    obtain ⟨value, hvalue, hne, rfl⟩ := map_required_eq_ok.mp h
    rw [hvalue]
    exact .value hkind hne
  | ports =>
    rw [hkind] at h
    obtain ⟨value, hvalue, hne, rfl⟩ := map_required_eq_ok.mp h
    rw [hvalue]
    exact .port hkind hne
  | richRules =>
    rw [hkind] at h
    obtain ⟨value, hvalue, hne, rfl⟩ := map_required_eq_ok.mp h
    rw [hvalue]
    exact .richRule hkind hne
  | forwardPorts =>
    rw [hkind] at h
    obtain ⟨value, hrequired, h⟩ := bind_eq_ok.mp h
    obtain ⟨hvalue, hne⟩ := required_eq_ok.mp hrequired
    rw [hvalue]
    cases hitem : ForwardPort.ofSpec? value with
    | error e => simp [hitem] at h
    | ok item =>
      rw [hitem] at h
      cases h
      exact .forwardPort hkind hne hitem

theorem setField_of_enters {zone z : Zone} {f : ZoneField} {value : Option String}
    (h : Enters zone f value z) (name : String) : setField zone f ⟨name, value⟩ = .ok z := by
  cases h with
  | toggle hkind => rw [setField, hkind]
  | value hkind hne =>
    rw [setField, hkind]
    exact map_required_eq_ok.mpr ⟨_, rfl, hne, rfl⟩
  | port hkind hne =>
    rw [setField, hkind]
    exact map_required_eq_ok.mpr ⟨_, rfl, hne, rfl⟩
  | forwardPort hkind hne hitem =>
    rw [setField, hkind]
    exact bind_eq_ok.mpr ⟨_, required_eq_ok.mpr ⟨rfl, hne⟩, by rw [hitem]; rfl⟩
  | richRule hkind hne =>
    rw [setField, hkind]
    exact map_required_eq_ok.mpr ⟨_, rfl, hne, rfl⟩

theorem setField_eq_ok {zone z : Zone} {f : ZoneField} {name : String} {value : Option String} :
    setField zone f ⟨name, value⟩ = .ok z ↔ Enters zone f value z :=
  ⟨enters_of_setField, (setField_of_enters · name)⟩

theorem Enters.target {zone z : Zone} {f : ZoneField} {value : Option String}
    (h : Enters zone f value z) : z.target = zone.target := by
  cases h with
  | toggle hkind => cases f <;> rfl
  | value hkind hne => cases f <;> rfl
  | port hkind hne => cases f <;> rfl
  | forwardPort hkind hne hitem => rfl
  | richRule hkind hne => rfl

/-- What words behind a flag of the direct interface mention. -/
inductive Mentions : DirectKind → List String → Direct → Prop
  | chain (ipv table chain : String) :
      Mentions .chain [ipv, table, chain] { chains := [⟨ipv, table, chain⟩] }
  | rule (ipv table chain priority : String) {n : Int} {args : List String}
      (hpriority : Text.readSigned? 32 priority.toList = some n) (hargs : args ≠ []) :
      Mentions .rule (ipv :: table :: chain :: priority :: args)
        { rules := [{ ipv, table, chain, priority := n, args := Shell.join args }] }
  | passthrough (ipv : String) {args : List String} (hargs : args ≠ []) :
      Mentions .passthrough (ipv :: args) { passthroughs := [{ ipv, args := Shell.join args }] }

theorem mentions_of_directEntry {call : DirectCall} {entry : Direct}
    (h : directEntry call = .ok entry) : Mentions call.kind call.words entry := by
  obtain ⟨flag, kind, words⟩ := call
  rw [directEntry.eq_def] at h
  split at h
  · rename_i ipv table chain hkind hwords
    cases hkind
    cases hwords
    cases h
    exact .chain ipv table chain
  · cases h
  · rename_i ipv table chain priority args hkind hwords
    cases hkind
    cases hwords
    split at h
    · cases h
    · rename_i hargs
      split at h
      · rename_i n hpriority
        cases h
        exact .rule ipv table chain priority hpriority (by simpa using hargs)
      · cases h
  · cases h
  · cases h
  · rename_i ipv args hkind hwords
    cases hkind
    cases hwords
    split at h
    · cases h
    · rename_i hargs
      cases h
      exact .passthrough ipv (by simpa using hargs)

theorem directEntry_of_mentions {kind : DirectKind} {words : List String} {entry : Direct}
    (h : Mentions kind words entry) (flag : String) : directEntry ⟨flag, kind, words⟩ = .ok entry := by
  cases h with
  | chain ipv table chain => rfl
  | rule ipv table chain priority hpriority hargs => simp [directEntry, hpriority, hargs]
  | passthrough ipv hargs => simp [directEntry, hargs]

theorem directEntry_eq_ok {flag : String} {kind : DirectKind} {words : List String} {entry : Direct} :
    directEntry ⟨flag, kind, words⟩ = .ok entry ↔ Mentions kind words entry :=
  ⟨mentions_of_directEntry, (directEntry_of_mentions · flag)⟩

end Script

open Script

/-! ## Zones and direct blocks that the reader makes -/

/-- A zone that the reader can make. -/
inductive Zone.Made : Zone → Prop
  | empty : Made {}
  | target {zone : Zone} {value : String} (h : Made zone) (hne : value ≠ "") :
      Made { zone with target := some value }
  | entry {zone z : Zone} {f : ZoneField} {value : Option String} (h : Made zone)
      (henters : Enters zone f value z) : Made z
  | append {zone more : Zone} (h : Made zone) (k : Made more) : Made (appendZone zone more)
  | dedup {zone : Zone} (h : Made zone) : Made zone.dedup

/-- A direct block that the reader can make. -/
inductive Direct.Made : Direct → Prop
  | empty : Made {}
  | mention {kind : DirectKind} {words : List String} {direct : Direct}
      (h : Mentions kind words direct) : Made direct
  | append {direct more : Direct} (h : Made direct) (k : Made more) : Made (appendDirect direct more)
  | dedup {direct : Direct} (h : Made direct) : Made direct.dedup

/-- Zones that the reader can make. Only the name of the default zone may be empty. -/
def MadeZones (defaultZone : String) (zones : List (String × Zone)) : Prop :=
  ∀ entry ∈ zones, (entry.1 = defaultZone ∨ entry.1 ≠ "") ∧ entry.2.Made

/-- A configuration that the reader can make. -/
structure Config.Made (defaultZone : String) (config : Config) : Prop where
  zones : MadeZones defaultZone config.zones
  direct : ∀ direct ∈ config.direct, direct.Made

section

variable {defaultZone : String} {zones more : List (String × Zone)}

theorem madeZones_nil : MadeZones defaultZone [] := by
  simp [MadeZones]

theorem MadeZones.alter (h : MadeZones defaultZone zones) {f : Option Zone → Zone}
    (hf : ∀ v : Option Zone, (∀ zone ∈ v, zone.Made) → (f v).Made) {name : String}
    (hname : name = defaultZone ∨ name ≠ "") : MadeZones defaultZone (Ordered.alter name f zones) := by
  induction zones with
  | nil =>
    intro entry hentry
    rw [List.mem_singleton.mp hentry]
    exact ⟨hname, hf none (by simp)⟩
  | cons e zones ih =>
    obtain ⟨n, zone⟩ := e
    obtain ⟨⟨hn, hzone⟩, hzones⟩ := List.forall_mem_cons.mp h
    rw [Ordered.alter]
    split
    · exact List.forall_mem_cons.mpr ⟨⟨hn, hf (some zone) (by simpa using hzone)⟩, hzones⟩
    · exact List.forall_mem_cons.mpr ⟨⟨hn, hzone⟩, ih hzones⟩

theorem MadeZones.appendZones (h : MadeZones defaultZone zones) (k : MadeZones defaultZone more) :
    MadeZones defaultZone (ZoneScript.appendZones zones more) := by
  induction more generalizing zones with
  | nil => exact h
  | cons e more ih =>
    obtain ⟨⟨hname, hzone⟩, hmore⟩ := List.forall_mem_cons.mp k
    refine ih (h.alter (fun v hv => ?_) hname) hmore
    cases v with
    | none => exact .append .empty hzone
    | some zone => exact .append (hv zone rfl) hzone

end

namespace Script

variable {defaultZone : String}

/-- What flags come to was made by the reader. -/
structure ZoneChange.Made (defaultZone : String) (change : ZoneChange) : Prop where
  created : MadeZones defaultZone change.created
  zone : ∀ zone ∈ change.zone, zone.Made

/-- What a flag that can be applied makes of what the flags in front of it come to. -/
inductive Applies (change : ZoneChange) (flag : Flag) : ZoneChange → Prop
  | newZone {name : String} (hsetter : Setter.ofName? flag.name = some .newZone)
      (hvalue : flag.value = some name) (hne : name ≠ "") :
      Applies change flag { change with created := Ordered.insertNew name {} change.created }
  | target {value : String} (hsetter : Setter.ofName? flag.name = some .target)
      (hvalue : flag.value = some value) (hne : value ≠ "") :
      Applies change flag { change with zone := some { change.zone.getD {} with target := some value } }
  | field {f : ZoneField} {zone : Zone} (hsetter : Setter.ofName? flag.name = some (.field f))
      (henters : Enters (change.zone.getD {}) f flag.value zone) :
      Applies change flag { change with zone := some zone }

theorem applies_of_applyFlag {change next : ZoneChange} {flag : Flag}
    (h : applyFlag change flag = .ok next) : Applies change flag next := by
  unfold applyFlag at h
  cases hsetter : Setter.ofName? flag.name with
  | none => simp [hsetter] at h
  | some setter =>
    rw [hsetter] at h
    cases setter with
    | newZone =>
      obtain ⟨name, hvalue, hne, rfl⟩ := map_required_eq_ok.mp h
      exact .newZone hsetter hvalue hne
    | target =>
      obtain ⟨value, hvalue, hne, rfl⟩ := map_required_eq_ok.mp h
      exact .target hsetter hvalue hne
    | field f =>
      obtain ⟨zone, hset, rfl⟩ := map_eq_ok.mp h
      exact .field hsetter (enters_of_setField hset)

theorem made_of_applyFlag {change next : ZoneChange} {flag : Flag} (h : change.Made defaultZone)
    (happly : applyFlag change flag = .ok next) : next.Made defaultZone := by
  have hzone : (change.zone.getD {}).Made := by
    cases hz : change.zone with
    | none => exact .empty
    | some zone => exact h.zone zone hz
  have written {zone : Zone} (k : zone.Made) :
      ({ change with zone := some zone } : ZoneChange).Made defaultZone :=
    ⟨h.created, fun _ hz => Option.some.inj hz ▸ k⟩
  cases applies_of_applyFlag happly with
  | newZone hsetter hvalue hne =>
    refine ⟨h.created.alter (fun v hv => ?_) (.inr hne), h.zone⟩
    cases v with
    | none => exact .empty
    | some zone => exact hv zone rfl
  | target hsetter hvalue hne => exact written (.target hzone hne)
  | field hsetter henters => exact written (.entry hzone henters)

-- The property may speak of the items that are done.
theorem foldlM_induction {σ α ε : Type} {step : σ → α → Except ε σ} {P : List α → σ → Prop}
    (hstep : ∀ {done state item next}, P done state → step state item = .ok next →
      P (done ++ [item]) next)
    (done : List α) {items : List α} {state last : σ} (h : P done state)
    (hfold : items.foldlM step state = .ok last) : P (done ++ items) last := by
  induction items generalizing done state with
  | nil =>
    cases hfold
    rw [List.append_nil]
    exact h
  | cons item items ih =>
    rw [List.foldlM_cons] at hfold
    obtain ⟨between, happly, hrest⟩ := bind_eq_ok.mp hfold
    rw [List.append_cons]
    exact ih _ (hstep h happly) hrest

theorem made_of_foldlM {flags : List Flag} {change next : ZoneChange} (h : change.Made defaultZone)
    (hfold : flags.foldlM applyFlag change = .ok next) : next.Made defaultZone :=
  foldlM_induction (P := fun _ change => change.Made defaultZone) made_of_applyFlag [] h hfold

/-- The name of the zone that a zone command speaks of. -/
def zoneName (defaultZone : String) (flags : List Flag) : ReadResult String :=
  match flags.find? (·.name == "zone") with
  | some flag => flag.required
  | none => .ok defaultZone

/-- The zones that flags come to: those they make, and the one they speak of under its name. -/
def ZoneChange.zones (change : ZoneChange) (name : String) : List (String × Zone) :=
  change.zone.elim change.created fun zone => Ordered.insert name zone change.created

theorem exists_change_of_zoneFragment {call : Call} {fragment : Config}
    (h : zoneFragment defaultZone call = .ok fragment) :
    call.words = [] ∧ (call.flags.filter (·.name != "zone")) ≠ [] ∧
      ∃ name change, zoneName defaultZone call.flags = .ok name ∧
        (call.flags.filter (·.name != "zone")).foldlM applyFlag {} = .ok change ∧
        fragment = { zones := change.zones name } := by
  unfold zoneFragment at h
  dsimp only at h
  -- a call without a change or with a word too many is refused
  split at h
  · cases h
  rename_i hguard
  have hne : (call.flags.filter (·.name != "zone")) ≠ [] := by
    intro hnil
    rw [hnil] at hguard
    exact hguard rfl
  split at h
  · cases h
  rename_i hwords
  refine ⟨List.head?_eq_none_iff.mp (Option.eq_none_iff_forall_ne_some.mpr hwords), hne, ?_⟩
  -- the name is given or the default one; the rest is the same
  split at h
  all_goals
    obtain ⟨name, hname, h⟩ := bind_eq_ok.mp h
    obtain ⟨change, hfold, h⟩ := bind_eq_ok.mp h
    cases h
    refine ⟨name, change, ?_, hfold, by rw [ZoneChange.zones]; cases change.zone <;> rfl⟩
    simp only [zoneName, *]

theorem zoneFragment_of_change {call : Call} {name : String} {change : ZoneChange}
    (hwords : call.words = [])
    (hsetter : (call.flags.filter (·.name != "zone")).any fun flag =>
      (Setter.ofName? flag.name).isSome)
    (hname : zoneName defaultZone call.flags = .ok name)
    (hfold : (call.flags.filter (·.name != "zone")).foldlM applyFlag {} = .ok change) :
    zoneFragment defaultZone call = .ok { zones := change.zones name } := by
  have hne : (call.flags.filter (·.name != "zone")).isEmpty = false := by
    rw [List.isEmpty_eq_false_iff]
    intro hnil
    rw [hnil] at hsetter
    cases hsetter
  rw [zoneName] at hname
  unfold zoneFragment
  dsimp only
  rw [hsetter, hne, hwords]
  cases hflag : call.flags.find? (·.name == "zone") with
  | none =>
    rw [hflag] at hname
    cases hname
    refine bind_eq_ok.mpr ⟨_, rfl, bind_eq_ok.mpr ⟨_, hfold, ?_⟩⟩
    rw [ZoneChange.zones]
    cases change.zone <;> rfl
  | some flag =>
    rw [hflag] at hname
    refine bind_eq_ok.mpr ⟨_, hname, bind_eq_ok.mpr ⟨_, hfold, ?_⟩⟩
    rw [ZoneChange.zones]
    cases change.zone <;> rfl

theorem made_of_zoneFragment {call : Call} {fragment : Config}
    (h : zoneFragment defaultZone call = .ok fragment) : fragment.Made defaultZone := by
  obtain ⟨-, -, name, change, hname, hfold, rfl⟩ := exists_change_of_zoneFragment h
  have hchange : change.Made defaultZone := made_of_foldlM ⟨madeZones_nil, by simp⟩ hfold
  have hname : name = defaultZone ∨ name ≠ "" := by
    rw [zoneName] at hname
    split at hname
    · exact .inr (required_eq_ok.mp hname).2
    · exact .inl (Except.ok.inj hname).symm
  refine ⟨?_, by simp⟩
  show MadeZones defaultZone (change.zones name)
  rw [ZoneChange.zones]
  cases hzone : change.zone with
  | none => exact hchange.created
  | some zone => exact hchange.created.alter (fun _ _ => hchange.zone zone hzone) hname

theorem made_of_directFragment {call : Call} {fragment : Config}
    (h : directFragment call = .ok fragment) : fragment.Made defaultZone := by
  unfold directFragment at h
  split at h
  · obtain ⟨entry, hentry, rfl⟩ := map_eq_ok.mp h
    refine ⟨madeZones_nil, ?_⟩
    rintro _ ⟨⟩
    exact .mention (mentions_of_directEntry hentry)
  · cases h

theorem made_of_call {call : Call} {fragment : Config}
    (h : call.outcome defaultZone = .parsed fragment) : fragment.Made defaultZone := by
  unfold Call.outcome at h
  split at h
  · cases h
  split at h
  · cases h
  split at h
  · rename_i hfragment
    cases h
    split at hfragment
    · exact made_of_directFragment hfragment
    · exact made_of_zoneFragment hfragment
  · cases h

theorem exists_call_of_parsed {line : List Char} {fragment : Config}
    (h : outcome defaultZone line = .parsed fragment) :
    ∃ call : Call, call.outcome defaultZone = .parsed fragment := by
  unfold outcome at h
  dsimp only at h
  -- blank lines, comments, other commands, shell variables, open quotes and a lone name say nothing
  split at h
  · cases h
  split at h
  · cases h
  split at h
  · cases h
  split at h
  · cases h
  split at h
  · cases h
  split at h
  · cases h
  · exact ⟨_, h⟩

theorem made_absorb {config fragment : Config} (h : config.Made defaultZone)
    (k : fragment.Made defaultZone) : (absorb config fragment).Made defaultZone := by
  rw [absorb_eq]
  refine ⟨h.zones.appendZones k.zones, ?_⟩
  cases hmore : fragment.direct with
  | none => exact h.direct
  | some more =>
    rintro _ ⟨⟩
    cases hdirect : config.direct with
    | none => exact .append .empty (k.direct more hmore)
    | some direct => exact .append (h.direct direct hdirect) (k.direct more hmore)

theorem made_gather {fragments : List Config} (h : ∀ fragment ∈ fragments, fragment.Made defaultZone) :
    (gather fragments).Made defaultZone := by
  suffices ∀ config : Config, config.Made defaultZone → (fragments.foldl absorb config).Made defaultZone
    from this {} ⟨madeZones_nil, by simp⟩
  induction fragments with
  | nil => exact fun _ hconfig => hconfig
  | cons fragment fragments ih =>
    intro config hconfig
    obtain ⟨hfragment, hfragments⟩ := List.forall_mem_cons.mp h
    exact ih hfragments _ (made_absorb hconfig hfragment)

theorem made_fragments (defaultZone text : String) :
    (gather (fragments (outcomes defaultZone text))).Made defaultZone := by
  apply made_gather
  intro fragment hfragment
  obtain ⟨⟨line, result⟩, hline, hresult⟩ := List.mem_filterMap.mp hfragment
  obtain ⟨logical, -, heq⟩ := List.mem_map.mp hline
  cases result <;> cases hresult
  obtain ⟨call, hcall⟩ := exists_call_of_parsed (Prod.mk.inj heq).2
  exact made_of_call hcall

theorem made_ofText (defaultZone text : String) :
    (Import.ofText defaultZone text).config.Made defaultZone := by
  have hgather := made_fragments defaultZone text
  rw [Import.ofText, ofFragments_eq]
  constructor
  case zones =>
    intro entry hentry
    obtain ⟨e, he, rfl⟩ := List.mem_map.mp hentry
    obtain ⟨hname, hzone⟩ := hgather.zones e he
    exact ⟨hname, hzone.dedup⟩
  case direct =>
    intro direct hdirect
    obtain ⟨d, hd, rfl⟩ := Option.map_eq_some_iff.mp (Option.mem_filter_iff.mp hdirect).1
    exact (hgather.direct d hd).dedup

end Script

end ZoneScript
