import Mathlib.Data.List.Basic
import ZoneScript.Proofs.Recognition

/-!
# The flags of a zone command

A zone command that is read shows each of its flags: a list of the zone has the entries that its flags
ask for in their order, a toggle is on if it has a flag, the target is the last one, and new zones are
there. It is read if each of its flags can be; otherwise it is an error. A line drops its flags without
an error in four ways: the command is not seen in it, it reads the configuration again, it asks for an
answer, or it changes the direct interface.
-/

namespace ZoneScript

open Script Ordered

/-! ## Entries of a zone -/

/-- An entry of one of a zone's lists. -/
inductive Entry where
  | value (item : ValueItem)
  | port (item : PortItem)
  | forwardPort (item : ForwardPort)
  | richRule (rule : RichRule)
  deriving DecidableEq, Repr

/-- The entry that a flag's value asks for in a field. -/
def Entry.ofValue? (f : ZoneField) (value : String) : Option Entry :=
  match f.kind with
  | .values => some (.value { value })
  | .ports => some (.port (.ofSpec value))
  | .forwardPorts => (ForwardPort.ofSpec? value).toOption.map .forwardPort
  | .richRules => some (.richRule (.ofText value))
  | .target | .toggle => none

namespace Zone

/-- The entries of a field; a target and a toggle have none. -/
def entries (zone : Zone) (f : ZoneField) : List Entry :=
  match f.kind with
  | .values => ((zone.values? f).getD []).map .value
  | .ports => ((zone.ports? f).getD []).map .port
  | .forwardPorts => zone.forwardPorts.map .forwardPort
  | .richRules => zone.richRules.map .richRule
  | .target | .toggle => []

variable {zone : Zone} {f g : ZoneField}

theorem entries_setToggle (zone : Zone) (f : ZoneField) (on : Bool) (g : ZoneField) :
    (zone.setToggle f on).entries g = zone.entries g := by
  cases f <;> rfl

theorem entries_addValue (hkind : f.kind = .values) (item : ValueItem) :
    (zone.addValue f item).entries g = zone.entries g ++ if g = f then [.value item] else [] := by
  by_cases hfield : g = f
  · subst hfield
    have hlist : (zone.values? g).isSome := by rw [values?_isSome, hkind]; rfl
    obtain ⟨items, hitems⟩ := Option.isSome_iff_exists.mp hlist
    simp [entries, hkind, values?_addValue, hitems]
  · have hports : (zone.addValue f item).ports? g = zone.ports? g := by cases f <;> rfl
    have hforwardPorts : (zone.addValue f item).forwardPorts = zone.forwardPorts := by cases f <;> rfl
    have hrichRules : (zone.addValue f item).richRules = zone.richRules := by cases f <;> rfl
    rw [entries, values?_addValue_of_ne hfield, hports, hforwardPorts, hrichRules, if_neg hfield,
      List.append_nil]
    rfl

theorem entries_addPort (hkind : f.kind = .ports) (item : PortItem) :
    (zone.addPort f item).entries g = zone.entries g ++ if g = f then [.port item] else [] := by
  by_cases hfield : g = f
  · subst hfield
    have hlist : (zone.ports? g).isSome := by rw [ports?_isSome, hkind]; rfl
    obtain ⟨items, hitems⟩ := Option.isSome_iff_exists.mp hlist
    simp [entries, hkind, ports?_addPort, hitems]
  · have hvalues : (zone.addPort f item).values? g = zone.values? g := by cases f <;> rfl
    have hforwardPorts : (zone.addPort f item).forwardPorts = zone.forwardPorts := by cases f <;> rfl
    have hrichRules : (zone.addPort f item).richRules = zone.richRules := by cases f <;> rfl
    rw [entries, ports?_addPort_of_ne hfield, hvalues, hforwardPorts, hrichRules, if_neg hfield,
      List.append_nil]
    rfl

end Zone

namespace Script

section

variable {zone z : Zone} {f g : ZoneField} {value : Option String}

theorem Enters.entries (h : Enters zone f value z) (hlist : g.isList = true) :
    (z.entries g).map some =
      (zone.entries g).map some ++ if g = f then [value.bind (Entry.ofValue? g)] else [] := by
  cases h with
  | toggle hkind =>
    have hne : g ≠ f := by
      rintro rfl
      rw [ZoneField.isList, hkind] at hlist
      cases hlist
    rw [Zone.entries_setToggle, if_neg hne, List.append_nil]
  | value hkind hne =>
    rw [Zone.entries_addValue hkind, List.map_append]
    split
    · rename_i hfield
      simp [Entry.ofValue?, hfield, hkind]
    · rfl
  | port hkind hne =>
    rw [Zone.entries_addPort hkind, List.map_append]
    split
    · rename_i hfield
      simp [Entry.ofValue?, hfield, hkind]
    · rfl
  | forwardPort hkind hne hitem =>
    cases f <;> cases hkind
    cases g <;> simp [Zone.entries, ZoneField.kind, Zone.values?, Zone.ports?, Entry.ofValue?, hitem,
      Except.toOption]
  | richRule hkind hne =>
    cases f <;> cases hkind
    cases g <;> simp [Zone.entries, ZoneField.kind, Zone.values?, Zone.ports?, Entry.ofValue?]

theorem Enters.toggle? (h : Enters zone f value z) (htoggle : g.kind = .toggle) :
    z.toggle? g = if g = f then some true else zone.toggle? g := by
  have hother (hkind : f.kind ≠ .toggle) (hsame : z.toggle? g = zone.toggle? g) :
      z.toggle? g = if g = f then some true else zone.toggle? g := by
    rw [if_neg, hsame]
    rintro rfl
    exact hkind htoggle
  cases h with
  | toggle hkind => exact Zone.toggle?_setToggle hkind zone true g
  | value hkind hne => exact hother (by simp [hkind]) (Zone.toggle?_addValue zone f _ g)
  | port hkind hne => exact hother (by simp [hkind]) (Zone.toggle?_addPort zone f _ g)
  | forwardPort hkind hne hitem => exact hother (by simp [hkind]) rfl
  | richRule hkind hne => exact hother (by simp [hkind]) rfl

end

/-! ## What flags ask for -/

/-- The values of the flags that set the same thing. -/
def asked (setter : Setter) (flags : List Flag) : List (Option String) :=
  (flags.filter fun flag => Setter.ofName? flag.name == some setter).map (·.value)

section

variable {flag : Flag} {setter named : Setter} (h : Setter.ofName? flag.name = some named)
include h

theorem asked_concat_self (flags : List Flag) :
    asked named (flags ++ [flag]) = asked named flags ++ [flag.value] := by
  simp [asked, h]

theorem asked_concat_of_ne (hne : setter ≠ named) (flags : List Flag) :
    asked setter (flags ++ [flag]) = asked setter flags := by
  simp [asked, h, hne.symm]

end

theorem asked_filter (setter : Setter) (flags : List Flag) :
    asked setter (flags.filter (·.name != "zone")) = asked setter flags := by
  rw [asked, asked, List.filter_filter]
  congr 2
  funext flag
  by_cases hname : flag.name = "zone"
  · have hnone : Setter.ofName? "zone" = none := by decide
    simp [hname, hnone]
  · simp [hname]

end Script

/-- A zone has what flags ask for, and nothing else. -/
structure Zone.Shows (zone : Zone) (flags : List Flag) : Prop where
  target : zone.target = (asked .target flags).getLast?.join
  toggles f (hkind : f.kind = .toggle) :
    zone.toggle? f = if asked (.field f) flags = [] then none else some true
  lists f (hlist : f.isList = true) :
    (zone.entries f).map some = (asked (.field f) flags).map (·.bind (Entry.ofValue? f))

namespace Zone.Shows

variable {zone z : Zone} {flags : List Flag} {flag : Flag}

theorem empty : ({} : Zone).Shows [] where
  target := rfl
  toggles f hkind := by cases f <;> rfl
  lists f hlist := by cases f <;> rfl

theorem congr (h : zone.Shows flags) {others : List Flag}
    (hasked : ∀ setter, setter ≠ .newZone → asked setter others = asked setter flags) :
    zone.Shows others where
  target := by
    rw [hasked _ (by simp)]
    exact h.target
  toggles f hkind := by
    rw [hasked _ (by simp)]
    exact h.toggles f hkind
  lists f hlist := by
    rw [hasked _ (by simp)]
    exact h.lists f hlist

theorem setTarget (h : zone.Shows flags) (hsetter : Setter.ofName? flag.name = some .target) :
    ({ zone with target := flag.value } : Zone).Shows (flags ++ [flag]) where
  target := by simp [asked_concat_self hsetter]
  toggles f hkind := by
    rw [asked_concat_of_ne hsetter (by simp), ← h.toggles f hkind]
    cases f <;> rfl
  lists f hlist := by
    rw [asked_concat_of_ne hsetter (by simp), ← h.lists f hlist]
    cases f <;> rfl

theorem enters (h : zone.Shows flags) {f : ZoneField}
    (hsetter : Setter.ofName? flag.name = some (.field f)) (henters : Enters zone f flag.value z) :
    z.Shows (flags ++ [flag]) where
  target := by
    rw [asked_concat_of_ne hsetter (by simp), henters.target]
    exact h.target
  toggles g hkind := by
    rw [henters.toggle? hkind]
    by_cases hfield : g = f
    · subst hfield
      simp [asked_concat_self hsetter]
    · rw [if_neg hfield, asked_concat_of_ne hsetter (by simpa using hfield)]
      exact h.toggles g hkind
  lists g hlist := by
    rw [henters.entries hlist, h.lists g hlist]
    by_cases hfield : g = f
    · subst hfield
      simp [asked_concat_self hsetter]
    · rw [if_neg hfield, List.append_nil, asked_concat_of_ne hsetter (by simpa using hfield)]

end Zone.Shows

namespace Script

/-! ## Flags one after the other -/

/-- What flags come to has what they ask for. Only flags that make zones speak of none. -/
structure ZoneChange.Shows (change : ZoneChange) (flags : List Flag) : Prop where
  created : ∀ value ∈ asked .newZone flags, ∃ name ∈ names change.created, value = some name
  zone : (change.zone.getD {}).Shows flags
  spoken : ∀ setter, setter ≠ .newZone → asked setter flags ≠ [] → change.zone.isSome

theorem shows_applyFlag {change next : ZoneChange} {flag : Flag} {flags : List Flag}
    (h : change.Shows flags) (happly : applyFlag change flag = .ok next) :
    next.Shows (flags ++ [flag]) := by
  -- a flag of the zone itself makes no other one
  have written {setter : Setter} (hsetter : Setter.ofName? flag.name = some setter)
      (hnew : setter ≠ .newZone) {zone : Zone} (k : zone.Shows (flags ++ [flag])) :
      ({ change with zone := some zone } : ZoneChange).Shows (flags ++ [flag]) := by
    refine ⟨?_, k, fun _ _ _ => rfl⟩
    rw [asked_concat_of_ne hsetter hnew.symm]
    exact h.created
  cases applies_of_applyFlag happly with
  | @newZone name hsetter hvalue hne =>
    refine ⟨?_, h.zone.congr fun _ hne => asked_concat_of_ne hsetter hne flags, ?_⟩
    · rw [asked_concat_self hsetter, hvalue]
      intro value hasked
      rcases List.mem_append.mp hasked with hold | hnew
      · obtain ⟨old, hmem, rfl⟩ := h.created value hold
        exact ⟨old, mem_names_alter.mpr (.inr hmem), rfl⟩
      · exact ⟨name, mem_names_alter.mpr (.inl rfl), List.mem_singleton.mp hnew⟩
    · intro other hne hasked
      rw [asked_concat_of_ne hsetter hne] at hasked
      exact h.spoken other hne hasked
  | target hsetter hvalue hne =>
    have htarget := h.zone.setTarget hsetter
    rw [hvalue] at htarget
    exact written hsetter (by simp) htarget
  | field hsetter henters => exact written hsetter (by simp) (h.zone.enters hsetter henters)

theorem shows_foldlM {change next : ZoneChange} {done flags : List Flag} (h : change.Shows done)
    (hfold : flags.foldlM applyFlag change = .ok next) : next.Shows (done ++ flags) :=
  foldlM_induction (P := fun done change => change.Shows done) shows_applyFlag done h hfold

/-! ## Flags among the words -/

theorem directKind?_of_setter {name : String} {setter : Setter} (h : Setter.ofName? name = some setter) :
    directKind? name = none := by
  unfold Setter.ofName? at h
  iterate 4
    split at h
    · rename_i hname
      rw [beq_iff_eq.mp hname]
      rfl
  obtain ⟨f, hf, -⟩ := Option.bind_eq_some_iff.mp h
  obtain ⟨stem, hstem, hfield⟩ := Option.bind_eq_some_iff.mp hf
  rw [directKind?, hstem, Option.bind_some, Option.eq_none_iff_forall_ne_some]
  intro kind hkind
  have hnone : ZoneField.ofStem? (DirectKind.naming.name kind) = none := by cases kind <;> rfl
  rw [DirectKind.naming.name_of_find? hkind, hfield] at hnone
  cases hnone

theorem eq_of_ofWord?_none {word name : String} (h : Flag.ofWord? word = some ⟨name, none⟩) :
    word = "--" ++ name := by
  obtain ⟨body, hbody, hflag⟩ := Option.map_eq_some_iff.mp h
  split at hflag
  · cases hflag
  · cases hflag
    rw [← String.toList_inj, Text.dropHead?_eq_some.mp hbody]
    simp

/-- Whether the words end in a bare `--timeout`, which takes the next word as its value. -/
def takesNext (words : List String) : Bool :=
  words.foldl (fun taken word => !taken && word == "--timeout") false

theorem mem_flags_ofWords {word : String} {flag : Flag} (hflag : Flag.ofWord? word = some flag)
    {setter : Setter} (hsetter : Setter.ofName? flag.name = some setter) {front : List String}
    (hdirect : ∀ w ∈ front, ∀ g ∈ Flag.ofWord? w, directKind? g.name = none) (direct : Bool) {skip : Bool}
    (hvalue : front.foldl (fun taken word => !taken && word == "--timeout") skip = false)
    (rest : List String) : flag ∈ (Call.ofWords direct skip (front ++ word :: rest)).flags := by
  induction front generalizing direct skip with
  | nil =>
    have hne {name : String} (hnone : Setter.ofName? name = none) : flag.name ≠ name := by
      rintro rfl
      rw [hnone] at hsetter
      cases hsetter
    have hpermanent : flag.name ≠ "permanent" := hne (by decide)
    have htimeout : flag.name ≠ "timeout" := hne (by decide)
    have hskip : skip = false := hvalue
    have hkind : (if direct = true then directKind? flag.name else none) = none := by
      rw [directKind?_of_setter hsetter, ite_self]
    rw [List.nil_append, Call.ofWords]
    simp [hskip, hflag, hpermanent, htimeout, hkind, Call.addFlag]
  | cons w front ih =>
    obtain ⟨hw, hdirect⟩ := List.forall_mem_cons.mp hdirect
    rw [List.foldl_cons] at hvalue
    rw [List.cons_append, Call.ofWords]
    split
    · rename_i hskip
      rw [hskip] at hvalue
      exact ih hdirect direct hvalue
    rename_i hskip
    rw [eq_false_of_ne_true hskip, Bool.not_false, Bool.true_and] at hvalue
    have hbare : Flag.ofWord? "--timeout" = some ⟨"timeout", none⟩ := by decide
    -- only a bare `--timeout` takes the next word
    have hother (h : Flag.ofWord? w ≠ some ⟨"timeout", none⟩) (direct : Bool) :
        flag ∈ (Call.ofWords direct false (front ++ word :: rest)).flags := by
      have hne : w ≠ "--timeout" := fun hw => h (hw ▸ hbare)
      rw [beq_false_of_ne hne] at hvalue
      exact ih hdirect direct hvalue
    cases hg : Flag.ofWord? w with
    | none => exact hother (by simp [hg]) direct
    | some g =>
      dsimp only
      split
      · rename_i hpermanent
        refine hother (fun h => ?_) direct
        obtain rfl := Option.some.inj (hg.symm.trans h)
        simp at hpermanent
      split
      · rename_i htimeout
        cases hv : g.value with
        | some v =>
          refine hother (fun h => ?_) direct
          obtain rfl := Option.some.inj (hg.symm.trans h)
          cases hv
        | none =>
          have hw : w = "--" ++ "timeout" := by
            apply eq_of_ofWord?_none
            rw [hg, ← beq_iff_eq.mp htimeout, ← hv]
          rw [hw] at hvalue
          exact ih hdirect direct hvalue
      · rename_i htimeout
        rw [hw g hg, ite_self]
        refine List.mem_cons_of_mem _ (hother (fun h => ?_) _)
        obtain rfl := Option.some.inj (hg.symm.trans h)
        simp at htimeout

/-! ## Commands that are read -/

/-- A flag that has what its setter needs: one of a toggle nothing, any other one a value, and that an
entry of its field. -/
def Flag.IsReadable (flag : Flag) : Prop :=
  match Setter.ofName? flag.name with
  | some (.field f) => f.kind = .toggle ∨
    ∃ value, flag.value = some value ∧ value ≠ "" ∧ (Entry.ofValue? f value).isSome
  | some _ => ∃ value, flag.value = some value ∧ value ≠ ""
  | none => False

/-- A command that speaks of zones only, by flags that can be read. -/
structure Call.IsZoneCommand (call : Call) : Prop where
  words : call.words = []
  asks : ∃ flag ∈ call.flags, flag.name ≠ "zone"
  flags : ∀ flag ∈ call.flags, flag.name ≠ "zone" → flag.IsReadable
  zone : ∀ flag ∈ call.flags.find? (·.name == "zone"), ∃ name, flag.value = some name ∧ name ≠ ""

theorem exists_enters (zone : Zone) {f : ZoneField} {value : Option String} :
    (∃ z, Enters zone f value z) ↔ f.kind = .toggle ∨
      ∃ text, value = some text ∧ text ≠ "" ∧ (Entry.ofValue? f text).isSome := by
  constructor
  · rintro ⟨z, h⟩
    cases h with
    | toggle hkind => exact .inl hkind
    | value hkind hne => exact .inr ⟨_, rfl, hne, by simp [Entry.ofValue?, hkind]⟩
    | port hkind hne => exact .inr ⟨_, rfl, hne, by simp [Entry.ofValue?, hkind]⟩
    | forwardPort hkind hne hitem =>
      exact .inr ⟨_, rfl, hne, by simp [Entry.ofValue?, hkind, hitem, Except.toOption]⟩
    | richRule hkind hne => exact .inr ⟨_, rfl, hne, by simp [Entry.ofValue?, hkind]⟩
  · rintro (hkind | ⟨text, rfl, hne, hentry⟩)
    · exact ⟨_, .toggle hkind⟩
    rw [Entry.ofValue?] at hentry
    cases hkind : f.kind with
    | target => simp [hkind] at hentry
    | toggle => exact ⟨_, .toggle hkind⟩
    | values => exact ⟨_, .value hkind hne⟩
    | ports => exact ⟨_, .port hkind hne⟩
    | richRules => exact ⟨_, .richRule hkind hne⟩
    | forwardPorts =>
      cases hitem : ForwardPort.ofSpec? text with
      | error e => simp [hkind, hitem, Except.toOption] at hentry
      | ok item => exact ⟨_, .forwardPort hkind hne hitem⟩

theorem exists_applyFlag (change : ZoneChange) {flag : Flag} :
    (∃ next, applyFlag change flag = .ok next) ↔ flag.IsReadable := by
  unfold applyFlag Flag.IsReadable
  cases Setter.ofName? flag.name with
  | none => simp
  | some setter =>
    cases setter with
    | newZone =>
      simp only [map_required_eq_ok]
      exact ⟨fun ⟨_, value, hvalue, hne, _⟩ => ⟨value, hvalue, hne⟩,
        fun ⟨value, hvalue, hne⟩ => ⟨_, value, hvalue, hne, rfl⟩⟩
    | target =>
      simp only [map_required_eq_ok]
      exact ⟨fun ⟨_, value, hvalue, hne, _⟩ => ⟨value, hvalue, hne⟩,
        fun ⟨value, hvalue, hne⟩ => ⟨_, value, hvalue, hne, rfl⟩⟩
    | field f =>
      simp only [map_eq_ok, ← exists_enters (change.zone.getD {})]
      exact ⟨fun ⟨_, zone, hset, _⟩ => ⟨zone, enters_of_setField hset⟩,
        fun ⟨zone, henters⟩ => ⟨_, zone, setField_of_enters henters flag.name, rfl⟩⟩

theorem exists_foldlM (change : ZoneChange) {flags : List Flag} :
    (∃ next, flags.foldlM applyFlag change = .ok next) ↔ ∀ flag ∈ flags, flag.IsReadable := by
  induction flags generalizing change with
  | nil => simp [pure, Except.pure]
  | cons flag flags ih =>
    simp only [List.foldlM_cons, bind_eq_ok]
    rw [List.forall_mem_cons, ← exists_applyFlag change]
    constructor
    · rintro ⟨next, between, happly, hrest⟩
      exact ⟨⟨between, happly⟩, (ih between).mp ⟨next, hrest⟩⟩
    · rintro ⟨⟨between, happly⟩, hflags⟩
      obtain ⟨next, hrest⟩ := (ih between).mpr hflags
      exact ⟨next, between, happly, hrest⟩

theorem exists_zoneFragment (defaultZone : String) {call : Call} :
    (∃ fragment, zoneFragment defaultZone call = .ok fragment) ↔ call.IsZoneCommand := by
  constructor
  · rintro ⟨fragment, h⟩
    obtain ⟨hwords, hne, name, change, hname, hfold, -⟩ := exists_change_of_zoneFragment h
    have hread := (exists_foldlM {}).mp ⟨change, hfold⟩
    refine ⟨hwords, ?_, fun flag hflag hzone => hread flag ?_, ?_⟩
    · obtain ⟨flag, hflag⟩ := List.exists_mem_of_ne_nil _ hne
      exact ⟨flag, by simpa using hflag⟩
    · simpa [hflag] using hzone
    · intro flag hflag
      rw [zoneName, hflag] at hname
      exact ⟨name, required_eq_ok.mp hname⟩
  · rintro ⟨hwords, ⟨flag, hflag, hzone⟩, hread, hname⟩
    have hactions : ∀ f ∈ call.flags.filter (·.name != "zone"), f.IsReadable := by
      intro f hf
      obtain ⟨hmem, hne⟩ := List.mem_filter.mp hf
      exact hread f hmem (by simpa using hne)
    have hsetter : (call.flags.filter (·.name != "zone")).any fun f =>
        (Setter.ofName? f.name).isSome := by
      refine List.any_eq_true.mpr ⟨flag, by simpa using ⟨hflag, hzone⟩, ?_⟩
      have hflagRead := hread flag hflag hzone
      rw [Flag.IsReadable] at hflagRead
      cases hs : Setter.ofName? flag.name with
      | none => simp [hs] at hflagRead
      | some setter => rfl
    obtain ⟨name, hname⟩ : ∃ name, zoneName defaultZone call.flags = .ok name := by
      rw [zoneName]
      cases hfind : call.flags.find? (·.name == "zone") with
      | none => exact ⟨defaultZone, rfl⟩
      | some zone =>
        obtain ⟨name, hvalue⟩ := hname zone hfind
        exact ⟨name, required_eq_ok.mpr hvalue⟩
    obtain ⟨change, hfold⟩ := (exists_foldlM {}).mpr hactions
    exact ⟨_, zoneFragment_of_change hwords hsetter hname hfold⟩

/-! ## Lines with flags of a zone -/

/-- What flags ask for is in a fragment: the new zones are there, and the zone that the flags speak of
has what they ask for and nothing else. -/
structure Reflects (defaultZone : String) (flags : List Flag) (fragment : Config) : Prop where
  created : ∀ value ∈ asked .newZone flags, ∃ name ∈ names fragment.zones, value = some name
  zone : ∀ setter, setter ≠ .newZone → asked setter flags ≠ [] →
    ∃ name zone, zoneName defaultZone flags = .ok name ∧ find? name fragment.zones = some zone ∧
      zone.Shows flags

theorem reflects_of_zoneFragment {defaultZone : String} {call : Call} {fragment : Config}
    (h : zoneFragment defaultZone call = .ok fragment) : Reflects defaultZone call.flags fragment := by
  obtain ⟨-, -, name, change, hname, hfold, rfl⟩ := exists_change_of_zoneFragment h
  have hstart : ({} : ZoneChange).Shows [] := ⟨by simp [asked], .empty, by simp [asked]⟩
  have hshows : change.Shows (call.flags.filter (·.name != "zone")) := shows_foldlM hstart hfold
  constructor
  case created =>
    intro value hvalue
    rw [← asked_filter] at hvalue
    obtain ⟨new, hnew, rfl⟩ := hshows.created value hvalue
    refine ⟨new, ?_, rfl⟩
    show new ∈ names (change.zones name)
    rw [ZoneChange.zones]
    cases change.zone with
    | none => exact hnew
    | some zone => exact mem_names_alter.mpr (.inr hnew)
  case zone =>
    intro setter hne hasked
    rw [← asked_filter] at hasked
    obtain ⟨zone, hzone⟩ := Option.isSome_iff_exists.mp (hshows.spoken setter hne hasked)
    have hzoneShows := hshows.zone
    rw [hzone] at hzoneShows
    refine ⟨name, zone, hname, ?_, hzoneShows.congr fun s _ => (asked_filter s _).symm⟩
    show find? name (change.zones name) = some zone
    rw [ZoneChange.zones, hzone]
    exact find?_alter_self name _ change.created

/-! ## Lines that drop flags -/

/-- An outcome that keeps the flags of a call: an error, or a fragment that has what they ask for. -/
inductive Keeps (defaultZone : String) (call : Call) : Outcome → Prop where
  | failed (error : LineError) : Keeps defaultZone call (.failed error)
  | parsed {fragment : Config} (hreflects : Reflects defaultZone call.flags fragment) :
    Keeps defaultZone call (.parsed fragment)

/-- The ways in which a call drops its flags of zones without an error, and what it comes to. Of a change
through the direct interface only the entry is read. -/
inductive Call.Drops (call : Call) : Outcome → Prop where
  | reload (hreload : call.isReload = true) : Drops call (.skipped .reload)
  | query (hreload : call.isReload = false) (hquery : call.isQuery = true) : Drops call (.skipped .query)
  | direct (hreload : call.isReload = false) (hquery : call.isQuery = false)
    (hdirect : call.isDirect = true) {change : DirectCall} (hchange : call.direct = some change)
    {entry : Direct} (hentry : directEntry change = .ok entry) :
    Drops call (.parsed { direct := some entry })

/-- The ways in which a line drops the flags of its call: the words between white space do not show the
command, or the call drops them. A reference to a shell variable is an error before that. -/
inductive Drops (line : List Char) (call : Call) : Outcome → Prop where
  | unseen (hruns : runsCommand (rawWords line) = false) : Drops line call (.skipped .notCommand)
  | call (hruns : runsCommand (rawWords line) = true) (hreference : reference? (Text.trim line) = none)
    {o : Outcome} (hdrops : call.Drops o) : Drops line call o

namespace Call

variable {call : Call} {defaultZone : String}

theorem outcome_of_drops {o : Outcome} (h : call.Drops o) : call.outcome defaultZone = o := by
  cases h with
  | reload hreload => simp [outcome, hreload]
  | query hreload hquery => simp [outcome, hreload, hquery]
  | direct hreload hquery hdirect hchange hentry =>
    simp [outcome, hreload, hquery, hdirect, directFragment, hchange, hentry, Except.map]

theorem outcome_of_not_drops (defaultZone : String) (h : ∀ o, ¬ call.Drops o) :
    (call.isDirect = true ∧ ∃ error, call.outcome defaultZone = .failed error) ∨
      call.isDirect = false ∧ call.outcome defaultZone = match zoneFragment defaultZone call with
        | .ok fragment => .parsed fragment
        | .error error => .failed error := by
  have hreload : call.isReload = false := eq_false_of_ne_true fun hreload => h _ (.reload hreload)
  have hquery : call.isQuery = false := eq_false_of_ne_true fun hquery => h _ (.query hreload hquery)
  cases hdirect : call.isDirect with
  | false =>
    refine .inr ⟨rfl, ?_⟩
    rw [outcome, hreload, hquery, hdirect]
    rfl
  | true =>
    refine .inl ⟨rfl, ?_⟩
    rw [outcome, hreload, hquery, hdirect, directFragment]
    cases hchange : call.direct with
    | none => exact ⟨_, rfl⟩
    | some change =>
      cases hentry : directEntry change with
      | error error => exact ⟨_, by simp [hentry, Except.map]; rfl⟩
      | ok entry => exact absurd (.direct hreload hquery hdirect hchange hentry) (h _)

theorem keeps_of_not_drops (h : ∀ o, ¬ call.Drops o) :
    Keeps defaultZone call (call.outcome defaultZone) := by
  obtain ⟨-, error, hfailed⟩ | ⟨-, hzone⟩ := outcome_of_not_drops defaultZone h
  · rw [hfailed]
    exact .failed error
  · rw [hzone]
    cases hfragment : zoneFragment defaultZone call with
    | error error => exact .failed error
    | ok fragment => exact .parsed (reflects_of_zoneFragment hfragment)

theorem not_keeps_of_drops {flag : Flag} (hflag : flag ∈ call.flags)
    (hsetter : (Setter.ofName? flag.name).isSome) {o : Outcome} (h : call.Drops o) :
    ¬ Keeps defaultZone call o := by
  -- A skipped line has no fragment, and the fragment of a direct change has no zone.
  intro hkeeps
  cases h with
  | reload hreload => cases hkeeps
  | query hreload hquery => cases hkeeps
  | direct hreload hquery hdirect hchange hentry =>
    obtain ⟨setter, hsetter⟩ := Option.isSome_iff_exists.mp hsetter
    have hasked : flag.value ∈ asked setter call.flags :=
      List.mem_map_of_mem (List.mem_filter.mpr ⟨hflag, by simp [hsetter]⟩)
    cases hkeeps with
    | parsed hreflects =>
      by_cases hnew : setter = .newZone
      · subst hnew
        obtain ⟨name, hname, -⟩ := hreflects.created _ hasked
        cases hname
      · obtain ⟨name, zone, -, hfind, -⟩ := hreflects.zone setter hnew (List.ne_nil_of_mem hasked)
        cases hfind

end Call

/-- **Flags.** Let a line be cut into words, behind its command the arguments of a call. Each flag of a
zone among them is one of the call's, up to the first flag of the direct interface and less the value of
a timeout. `Drops` tells what becomes of a line that drops its flags; with a flag of a zone, a line is
an error, or a fragment that has all that the flags ask for and nothing else, if and only if it drops
none. If it is not one of the direct interface either, it is read exactly if a shell puts in no value and
all flags can be read. -/
theorem keeps_iff_not_drops (defaultZone : String) {line : List Char} {words : List String}
    (hsplit : Shell.split (.ofList (Text.trim line)) = .ok words) {command : String}
    {args : List String} (hwords : commandWords words = command :: args) {call : Call}
    (hcall : Call.ofWords false false args = call) :
    (∀ front word rest, args = front ++ word :: rest → ∀ flag, Flag.ofWord? word = some flag →
      (Setter.ofName? flag.name).isSome →
      (∀ w ∈ front, ∀ g ∈ Flag.ofWord? w, directKind? g.name = none) →
      takesNext front = false → flag ∈ call.flags) ∧
    (∀ o, Drops line call o → outcome defaultZone line = o) ∧
    ((∃ flag ∈ call.flags, (Setter.ofName? flag.name).isSome) →
      (Keeps defaultZone call (outcome defaultZone line) ↔ ∀ o, ¬ Drops line call o)) ∧
    ((∀ o, ¬ Drops line call o) → call.isDirect = false →
      ((∃ fragment, outcome defaultZone line = .parsed fragment) ↔
        reference? (Text.trim line) = none ∧ call.IsZoneCommand)) := by
  obtain ⟨hempty, hhash⟩ := not_blank_of_commandWords hsplit hwords
  have hflags : ∀ front word rest, args = front ++ word :: rest → ∀ flag,
      Flag.ofWord? word = some flag → (Setter.ofName? flag.name).isSome →
      (∀ w ∈ front, ∀ g ∈ Flag.ofWord? w, directKind? g.name = none) →
      takesNext front = false → flag ∈ call.flags := by
    rintro front word rest rfl flag hflag hsetter hdirect hvalue
    obtain ⟨setter, hsetter⟩ := Option.isSome_iff_exists.mp hsetter
    rw [← hcall]
    exact mem_flags_ofWords hflag hsetter hdirect false hvalue rest
  refine ⟨hflags, ?_⟩
  cases hruns : runsCommand (rawWords line) with
  | false =>
    obtain ⟨reason, hskipped, hreason⟩ := outcome_of_not_runsCommand hruns defaultZone
    rw [hskipped, hreason hempty hhash]
    have hunseen : Drops line call (.skipped .notCommand) := .unseen hruns
    refine ⟨?_, fun _ => iff_of_false nofun fun h => h _ hunseen, fun h => absurd hunseen (h _)⟩
    rintro o (_ | ⟨hseen, -, -⟩)
    · rfl
    · rw [hruns] at hseen
      cases hseen
  | true =>
    rw [outcome_of_runsCommand hruns hsplit hwords, hcall]
    cases hreference : reference? (Text.trim line) with
    | some reference =>
      have hnone : ∀ o, ¬ Drops line call o := by
        rintro o (hunseen | ⟨-, hnone, -⟩)
        · rw [hruns] at hunseen
          cases hunseen
        · rw [hreference] at hnone
          cases hnone
      exact ⟨fun o h => absurd h (hnone o), fun _ => iff_of_true (.failed _) hnone, by simp⟩
    | none =>
      have hdrops (o : Outcome) : Drops line call o ↔ call.Drops o := by
        refine ⟨?_, .call hruns hreference⟩
        rintro (hunseen | ⟨-, -, h⟩)
        · rw [hruns] at hunseen
          cases hunseen
        · exact h
      simp only [hdrops, true_and]
      refine ⟨fun o => Call.outcome_of_drops, ?_, fun hnone hdirect => ?_⟩
      · rintro ⟨flag, hflag, hsetter⟩
        refine ⟨fun hkeeps o ho => ?_, Call.keeps_of_not_drops⟩
        rw [Call.outcome_of_drops ho] at hkeeps
        exact Call.not_keeps_of_drops hflag hsetter ho hkeeps
      · obtain ⟨hother, -⟩ | ⟨-, hzone⟩ := Call.outcome_of_not_drops defaultZone hnone
        · rw [hdirect] at hother
          cases hother
        · rw [hzone, ← exists_zoneFragment defaultZone]
          cases zoneFragment defaultZone call <;> simp

/-- Flags of several kinds on one line: the last target counts, and the new zone is there too. -/
theorem keeps_iff_not_drops_mixed :
    let line := "firewall-cmd --set-target=a --add-port=1 --new-zone=b --add-forward --set-target=c"
    let flags : List Flag := [⟨"set-target", some "a"⟩, ⟨"add-port", some "1"⟩,
      ⟨"new-zone", some "b"⟩, ⟨"add-forward", none⟩, ⟨"set-target", some "c"⟩]
    let zone : Zone :=
      { target := some "c", ports := [{ port := "1", protocol := "tcp" }], forward := some true }
    let fragment : Config := { zones := [("b", {}), ("public", zone)] }
    outcome "public" line.toList = .parsed fragment ∧ Reflects "public" flags fragment := by
  intro line flags zone fragment
  let args :=
    ["--set-target=a", "--add-port=1", "--new-zone=b", "--add-forward", "--set-target=c"]
  have hruns : runsCommand (rawWords line.toList) = true := by decide +kernel
  have hsplit : Shell.split (.ofList (Text.trim line.toList)) = .ok ("firewall-cmd" :: args) := by
    decide +kernel
  have hwords : commandWords ("firewall-cmd" :: args) = "firewall-cmd" :: args := by
    decide +kernel
  have hcall : Call.ofWords false false args = { flags } := by decide +kernel
  have hparsed : outcome "public" line.toList = .parsed fragment := by
    rw [outcome_of_runsCommand hruns hsplit hwords, hcall]
    decide +kernel
  have hkept : ∀ o, ¬ Drops line.toList { flags } o := by
    rintro o (hunseen | ⟨-, -, hreload | ⟨-, hquery⟩ | ⟨-, -, hdirect, -, -⟩⟩)
    · rw [hruns] at hunseen
      cases hunseen
    · exact absurd hreload (by decide +kernel)
    · exact absurd hquery (by decide +kernel)
    · exact absurd hdirect (by decide +kernel)
  obtain ⟨-, -, hkeeps, -⟩ := keeps_iff_not_drops "public" hsplit hwords hcall
  have hkeeps := (hkeeps ⟨⟨"set-target", some "a"⟩, List.mem_cons_self, by decide +kernel⟩).mpr hkept
  rw [hparsed] at hkeeps
  cases hkeeps with
  | parsed hreflects => exact ⟨hparsed, hreflects⟩

/-- A change through the direct interface is read without the flag of a zone beside it, and a line that
reads the configuration again or asks for an answer is left out with it. -/
theorem direct_drops_flags :
    let direct := "firewall-cmd --direct --zone=public --add-service=ssh --add-chain ipv4 filter c"
    let reload := "firewall-cmd --zone=public --add-service=ssh --reload"
    let query := "firewall-cmd --zone=public --add-service=ssh --list-services"
    Flag.ofWord? "--add-service=ssh" = some ⟨"add-service", some "ssh"⟩ ∧
      Setter.ofName? "add-service" = some (.field .services) ∧
      Shell.split direct = .ok ["firewall-cmd", "--direct", "--zone=public", "--add-service=ssh",
        "--add-chain", "ipv4", "filter", "c"] ∧
      outcome "public" direct.toList =
        .parsed { direct := some { chains := [⟨"ipv4", "filter", "c"⟩] } } ∧
      Shell.split reload = .ok ["firewall-cmd", "--zone=public", "--add-service=ssh", "--reload"] ∧
      outcome "public" reload.toList = .skipped .reload ∧
      Shell.split query =
        .ok ["firewall-cmd", "--zone=public", "--add-service=ssh", "--list-services"] ∧
      outcome "public" query.toList = .skipped .query := by
  decide +kernel

end Script

end ZoneScript
