import ZoneScript.Proofs.CommandWords
import ZoneScript.Proofs.Entries
import ZoneScript.Proofs.Fragments
import ZoneScript.Proofs.ScriptText

/-!
# Scripts that mention the same entries

Whether a script is transient and whether it applies a configuration or removes it, its lines mention
the same entries, so it is imported as the same configuration. Only the targets are lost on the way
back: the script that removes a configuration sets the standard ones.
-/

namespace ZoneScript

open Ordered Text Shell

/-! ## Standard targets -/

/-- The zone with the standard target in place of its own. -/
def Zone.withStandardTarget (zone : Zone) : Zone :=
  { zone with target := zone.target.map fun _ => ZoneTarget.standard.name }

theorem Zone.withStandardTarget_of_none {zone : Zone} (h : zone.target = none) :
    zone.withStandardTarget = zone := by
  cases zone
  simp_all [Zone.withStandardTarget]

/-- The configuration with the standard target wherever there is one. -/
def Config.withStandardTargets (config : Config) : Config :=
  { config with zones := mapValues Zone.withStandardTarget config.zones }

namespace Script

theorem withStandardTarget_appendZone (a b : Zone) :
    (appendZone a b).withStandardTarget = appendZone a.withStandardTarget b.withStandardTarget := by
  cases ha : a.target <;> cases hb : b.target <;>
    simp [Zone.withStandardTarget, appendZone, ha, hb]

theorem withStandardTargets_appendZones (a b : List (String × Zone)) :
    mapValues Zone.withStandardTarget (appendZones a b) =
      appendZones (mapValues Zone.withStandardTarget a) (mapValues Zone.withStandardTarget b) := by
  induction b generalizing a with
  | nil => rfl
  | cons e b ih =>
    refine (ih _).trans (congrArg (appendZones · (mapValues Zone.withStandardTarget b)) ?_)
    refine mapValues_alter (fun v => ?_) a
    cases v <;> simp [withStandardTarget_appendZone]

theorem ofFragments_congr {fs gs : List Config} (hzones : fs.flatMap (·.zones) = gs.flatMap (·.zones))
    (hdirect : directOf fs = directOf gs) : ofFragments fs = ofFragments gs := by
  rw [ofFragments_eq, ofFragments_eq, zones_gather, zones_gather, hzones,
    tidyDirect_getD (gather fs).direct, tidyDirect_getD (gather gs).direct, direct_gather, direct_gather,
    hdirect]

theorem ofFragments_withStandardTargets (fs : List Config) :
    ofFragments (fs.map Config.withStandardTargets) = (ofFragments fs).withStandardTargets := by
  have hzones : (fs.map Config.withStandardTargets).flatMap (·.zones) =
      mapValues Zone.withStandardTarget (fs.flatMap (·.zones)) := by
    rw [List.flatMap_map, mapValues, List.map_flatMap]
    rfl
  have hdirect : directOf (fs.map Config.withStandardTargets) = directOf fs := by
    simp only [directOf, List.flatMap_map]
    rfl
  have hdedup (zones : List (String × Zone)) :
      mapValues Zone.dedup (mapValues Zone.withStandardTarget zones) =
        mapValues Zone.withStandardTarget (mapValues Zone.dedup zones) := by
    simp [mapValues, Zone.dedup, Zone.merge, Zone.withStandardTarget]
  rw [ofFragments_eq, ofFragments_eq, Config.withStandardTargets, zones_gather, zones_gather, hzones,
    tidyDirect_getD (gather (fs.map _)).direct, tidyDirect_getD (gather fs).direct, direct_gather,
    direct_gather, hdirect, ← hdedup, withStandardTargets_appendZones]
  rfl

/-! ## The order of fragments -/

/-- What a change is about: zones, or one kind of direct entries. -/
def Change.kind? : Change → Option DirectKind
  | .target .. | .entry .. => none
  | .chain .. => some .chain
  | .rule .. => some .rule
  | .passthrough .. => some .passthrough

/-- The fragment has only what changes of this kind are about. -/
structure IsAbout (kind? : Option DirectKind) (fragment : Config) : Prop where
  zones : fragment.zones ≠ [] → kind? = none
  chains : (fragment.direct.getD {}).chains ≠ [] → kind? = some .chain
  rules : (fragment.direct.getD {}).rules ≠ [] → kind? = some .rule
  passthroughs : (fragment.direct.getD {}).passthroughs ≠ [] → kind? = some .passthrough

theorem flatMap_filterMap_filter {α : Type} {read : Change → Option Config} {part : Config → List α}
    {p : Change → Bool} (h : ∀ c f, read c = some f → part f ≠ [] → p c = true)
    (changes : List Change) :
    ((changes.filter p).filterMap read).flatMap part = (changes.filterMap read).flatMap part := by
  induction changes with
  | nil => rfl
  | cons c changes ih =>
    cases hc : read c with
    | none =>
      rw [List.filterMap_cons_none hc, ← ih, List.filter_cons]
      split
      · rw [List.filterMap_cons_none hc]
      · rfl
    | some f =>
      rw [List.filterMap_cons_some hc, List.flatMap_cons, ← ih]
      by_cases hpart : part f = []
      · rw [hpart, List.nil_append, List.filter_cons]
        split
        · rw [List.filterMap_cons_some hc, List.flatMap_cons, hpart, List.nil_append]
        · rfl
      · rw [List.filter_cons_of_pos (h c f hc hpart), List.filterMap_cons_some hc, List.flatMap_cons]

theorem ofFragments_reorder {read : Change → Option Config}
    (hread : ∀ c f, read c = some f → IsAbout c.kind? f) {xs ys : List Change}
    (h : ∀ kind?, xs.filter (·.kind? == kind?) = ys.filter (·.kind? == kind?)) :
    ofFragments (xs.filterMap read) = ofFragments (ys.filterMap read) := by
  have hparts {α : Type} (kind? : Option DirectKind) {part : Config → List α}
      (hpart : ∀ (c : Change) f, IsAbout c.kind? f → part f ≠ [] → c.kind? = kind?) :
      (xs.filterMap read).flatMap part = (ys.filterMap read).flatMap part := by
    have hkind : ∀ c f, read c = some f → part f ≠ [] → (c.kind? == kind?) = true :=
      fun c f hc hne => beq_iff_eq.mpr (hpart c f (hread c f hc) hne)
    rw [← flatMap_filterMap_filter hkind xs, ← flatMap_filterMap_filter hkind ys, h kind?]
  apply ofFragments_congr (hparts none fun _ _ habout => habout.zones)
  rw [directOf, directOf, hparts (some .chain) fun _ _ habout => habout.chains,
    hparts (some .rule) fun _ _ habout => habout.rules,
    hparts (some .passthrough) fun _ _ habout => habout.passthroughs]

/-! ## What a change says -/

/-- The fragment that the lines of a change are read as, if they can be read. -/
def Change.fragment? (defaultZone : String) (change : Change) : Option Config :=
  (bodyOutcome defaultZone (trimEnd change.text.toList)).fragment?

theorem fragment?_ofResult {result : ReadResult Config} {fragment : Config} :
    (Outcome.ofResult result).fragment? = some fragment ↔ result = .ok fragment := by
  cases result <;> simp [Outcome.ofResult, Outcome.fragment?]

theorem fragment?_bodyOutcome {defaultZone : String} {body : List Char} {fragment : Config} :
    (bodyOutcome defaultZone body).fragment? = some fragment ↔
      ¬ HasReference body ∧ ∃ words, splitFrom .gap body = .ok words ∧
        ((Call.ofWords false false (words.map String.ofList)).outcome defaultZone).fragment? =
          some fragment := by
  rw [bodyOutcome]
  cases hreference : reference? body with
  | some reference => simp [HasReference, hreference, Outcome.fragment?]
  | none =>
    cases splitFrom .gap body with
    | error quote => simp [Outcome.fragment?]
    | ok words => simp [HasReference, hreference]

theorem fragment?_of_headWords {defaultZone : String} {change : Change} (h : change.args? = none)
    {fragment : Config} :
    change.fragment? defaultZone = some fragment ↔
      ¬ HasReference change.text.toList ∧
        ((Call.ofWords false false change.headWords).outcome defaultZone).fragment? =
          some fragment := by
  have hargs : change.ArgsRead [] := by simp [Change.ArgsRead, h]
  rw [Change.fragment?, trimEnd_of_closes (closes_text (by simp [h])), fragment?_bodyOutcome,
    splitFrom_text hargs]
  simp

theorem fragment?_zoneCall {defaultZone zone name : String} {value : Option String}
    (hname : isChangeName name = true) {fragment : Config} :
    ((zoneCall zone ⟨name, value⟩).outcome defaultZone).fragment? = some fragment ↔
      zone ≠ "" ∧
        ∃ change, applyFlag {} ⟨name, value⟩ = .ok change ∧ change.fragment zone = fragment := by
  rw [outcome_zoneCall defaultZone zone value hname]
  by_cases hzone : zone = ""
  · simp [hzone, Outcome.fragment?]
  · rw [if_neg hzone, fragment?_ofResult, map_eq_ok]
    simp [hzone]

theorem fragment?_target {defaultZone zone value : String} {fragment : Config} :
    (Change.target zone value).fragment? defaultZone = some fragment ↔
      ¬ HasReference (Change.target zone value).text.toList ∧ zone ≠ "" ∧ value ≠ "" ∧
        { zones := [(zone, { target := some value })] } = fragment := by
  rw [fragment?_of_headWords rfl, ofWords_target,
    fragment?_zoneCall (show isChangeName "set-target" = true by rfl)]
  have happly {change : ZoneChange} : applyFlag {} ⟨"set-target", some value⟩ = .ok change ↔
      value ≠ "" ∧ { zone := some { target := some value } } = change := by
    have htarget : Setter.ofName? "set-target" = some .target := by rfl
    rw [applyFlag, htarget]
    refine map_required_eq_ok.trans ⟨?_, fun h => ⟨value, rfl, h⟩⟩
    rintro ⟨_, ⟨⟩, h⟩
    exact h
  simp only [happly]
  constructor
  · rintro ⟨href, hzone, _, ⟨hvalue, rfl⟩, h⟩
    exact ⟨href, hzone, hvalue, h⟩
  · rintro ⟨href, hzone, hvalue, h⟩
    exact ⟨href, hzone, _, ⟨hvalue, rfl⟩, h⟩

theorem fragment?_entry {defaultZone zone : String} {verb : Verb} {f : ZoneField}
    {value : Option String} {fragment : Config} :
    (Change.entry verb zone f value).fragment? defaultZone = some fragment ↔
      ¬ HasReference (Change.entry verb zone f value).text.toList ∧ zone ≠ "" ∧
        ∃ z, Enters {} f value z ∧ { zones := [(zone, z)] } = fragment := by
  rw [fragment?_of_headWords rfl, ofWords_entry, fragment?_zoneCall (isChangeName_entryName verb f),
    applyFlag_entry]
  simp only [map_eq_ok, setField_eq_ok]
  constructor
  · rintro ⟨href, hzone, _, ⟨z, hset, rfl⟩, h⟩
    exact ⟨href, hzone, z, hset, h⟩
  · rintro ⟨href, hzone, z, hset, h⟩
    exact ⟨href, hzone, _, ⟨z, hset, rfl⟩, h⟩

/-- The flag that asks for a change of the direct interface. -/
def directFlag (verb : Verb) (kind : DirectKind) : String :=
  "--" ++ verb.name ++ "-" ++ kind.name

/-- The text of a change of the direct interface, with the words behind its flag. -/
def directText (verb : Verb) (kind : DirectKind) (ipv rest : String) : String :=
  "--direct " ++ directFlag verb kind ++ " " ++ quote ipv ++ rest

theorem exists_directText {change : Change} {kind : DirectKind} (h : change.kind? = some kind) :
    ∃ verb ipv rest, change.text = directText verb kind ipv rest ∧
      change.undo.text = directText .remove kind ipv rest := by
  cases change with
  | target zone value => cases h
  | entry verb zone f value => cases h
  | chain verb c =>
    cases h
    refine ⟨verb, c.ipv, " " ++ quote c.table ++ " " ++ quote c.chain, ?_, ?_⟩
    · show "--direct --" ++ verb.name ++ "-chain " ++ quote c.ipv ++ " " ++ quote c.table ++ " "
        ++ quote c.chain = _
      simp [directText, directFlag, DirectKind.name, ← String.toList_inj]
    · show "--direct --" ++ Verb.remove.name ++ "-chain " ++ quote c.ipv ++ " " ++ quote c.table
        ++ " " ++ quote c.chain = _
      simp [directText, directFlag, DirectKind.name, ← String.toList_inj]
  | rule verb r =>
    cases h
    refine ⟨verb, r.ipv, " " ++ quote r.table ++ " " ++ quote r.chain ++ " "
      ++ .ofList (showInt r.priority) ++ " " ++ r.args, ?_, ?_⟩
    · show "--direct --" ++ verb.name ++ "-rule " ++ quote r.ipv ++ " " ++ quote r.table ++ " "
        ++ quote r.chain ++ " " ++ .ofList (showInt r.priority) ++ " " ++ r.args = _
      simp [directText, directFlag, DirectKind.name, ← String.toList_inj]
    · show "--direct --" ++ Verb.remove.name ++ "-rule " ++ quote r.ipv ++ " " ++ quote r.table ++ " "
        ++ quote r.chain ++ " " ++ .ofList (showInt r.priority) ++ " " ++ r.args = _
      simp [directText, directFlag, DirectKind.name, ← String.toList_inj]
  | passthrough verb p =>
    cases h
    refine ⟨verb, p.ipv, " " ++ p.args, ?_, ?_⟩
    · show "--direct --" ++ verb.name ++ "-passthrough " ++ quote p.ipv ++ " " ++ p.args = _
      simp [directText, directFlag, DirectKind.name, ← String.toList_inj]
    · show "--direct --" ++ Verb.remove.name ++ "-passthrough " ++ quote p.ipv ++ " " ++ p.args = _
      simp [directText, directFlag, DirectKind.name, ← String.toList_inj]

theorem fragment?_direct {defaultZone : String} {change : Change} {verb : Verb} {kind : DirectKind}
    {ipv rest : String} (htext : change.text = directText verb kind ipv rest) {fragment : Config} :
    change.fragment? defaultZone = some fragment ↔
      ¬ HasReference (trimEnd (quote ipv ++ rest).toList) ∧
        ∃ words, splitFrom .gap (trimEnd (quote ipv ++ rest).toList) = .ok words ∧
          ∃ entry, Mentions kind (words.map String.ofList) entry ∧
            { direct := some entry } = fragment := by
  have hbody : trimEnd (quote ipv ++ rest).toList ≠ [] := by
    obtain ⟨front, c, hquote, hspace, -⟩ := closes_quoteList ipv.toList
    exact trimEnd_ne_nil (c := c) (by simp [quote, hquote]) hspace
  have htrim : trimEnd change.text.toList = "--direct".toList ++ ' ' ::
      ((directFlag verb kind).toList ++ ' ' :: trimEnd (quote ipv ++ rest).toList) := by
    have h := trimEnd_append hbody
      ("--direct".toList ++ ' ' :: ((directFlag verb kind).toList ++ [' ']))
    simpa [htext, directText] using h
  have hreference : HasReference (trimEnd change.text.toList) ↔
      HasReference (trimEnd (quote ipv ++ rest).toList) := by
    have hdollar : '$' ∉ "--direct".toList ++ ' ' :: ((directFlag verb kind).toList ++ [' ']) := by
      cases verb <;> cases kind <;> decide
    rw [HasReference, HasReference, htrim,
      ← reference?_append hdollar (trimEnd (quote ipv ++ rest).toList)]
    simp
  have hwords : splitFrom .gap (trimEnd change.text.toList) =
      (splitFrom .gap (trimEnd (quote ipv ++ rest).toList)).map
        (["--direct".toList, (directFlag verb kind).toList] ++ ·) := by
    have hdirect : isFixed "--direct".toList = true := by decide
    have hflag : isFixed (directFlag verb kind).toList = true := isFixed_direct verb kind
    rw [htrim, splitFrom_gap_word hdirect, splitFrom_gap_word hflag]
    cases splitFrom .gap (trimEnd (quote ipv ++ rest).toList) <;> rfl
  have hcall (words : List (List Char)) :
      ((Call.ofWords false false ((["--direct".toList, (directFlag verb kind).toList] ++ words).map
        String.ofList)).outcome defaultZone).fragment? = some fragment ↔
        ∃ entry, Mentions kind (words.map String.ofList) entry ∧
          { direct := some entry } = fragment := by
    have houtcome := outcome_direct defaultZone verb kind (words.map String.ofList)
    rw [List.map_append, List.map_cons, List.map_singleton, String.ofList_toList, String.ofList_toList]
    rw [← directFlag] at houtcome
    refine (Eq.congr_left (congrArg Outcome.fragment? houtcome)).trans ?_
    rw [fragment?_ofResult, map_eq_ok]
    simp only [directEntry_eq_ok]
  rw [Change.fragment?, fragment?_bodyOutcome, hreference, hwords]
  simp only [map_eq_ok]
  constructor
  · rintro ⟨href, _, ⟨words, hsplit, rfl⟩, h⟩
    exact ⟨href, words, hsplit, (hcall words).mp h⟩
  · rintro ⟨href, words, hsplit, h⟩
    exact ⟨href, _, ⟨words, hsplit, rfl⟩, (hcall words).mpr h⟩

/-! ## A change and the one that takes it back -/

theorem hasReference_entry {zone : String} {f : ZoneField} {value : Option String} (verb other : Verb) :
    HasReference (Change.entry verb zone f value).text.toList ↔
      HasReference (Change.entry other zone f value).text.toList := by
  have htext (verb : Verb) : (Change.entry verb zone f value).text.toList =
      (Change.zoneFlag zone).toList ++ ' ' :: (("--" ++ verb.name).toList ++
        ("-" ++ f.stem ++ ((value.map fun v => "=" ++ quote v).getD "")).toList) := by
    show (Change.zoneFlag zone ++ " " ++ Change.entryFlag verb f value).toList = _
    simp [Change.entryFlag]
  have hinert (verb : Verb) : isInert ("--" ++ verb.name).toList = true := by
    cases verb <;> decide
  rw [htext, htext, hasReference_exchange (hinert verb) (hinert other)]

theorem hasReference_target {zone value : String}
    (h : HasReference (Change.target zone value).text.toList → HasReference zone.toList) :
    HasReference (Change.target zone ZoneTarget.standard.name).text.toList ↔
      HasReference (Change.target zone value).text.toList := by
  have htext (value : String) : (Change.target zone value).text.toList =
      (Change.zoneFlag zone).toList ++ ' ' :: ("--set-target=".toList ++ (quote value).toList) := by
    show (Change.zoneFlag zone ++ " --set-target=" ++ quote value).toList = _
    simp
  constructor
  · -- the standard target takes no part in a reference
    intro hstandard
    have hinert :
        isInert ("--set-target=".toList ++ (quote ZoneTarget.standard.name).toList) = true := by
      decide
    rw [htext, ← List.append_nil (_ ++ (quote ZoneTarget.standard.name).toList),
      hasReference_blank_inert hinert] at hstandard
    have hmore := hstandard.append_right ("--set-target=".toList ++ (quote value).toList)
    rwa [htext, List.append_cons]
  · intro htarget
    have hzone : HasReference (Change.zoneFlag zone).toList := by
      have := (h htarget).quoteList.append_left "--zone=".toList
      simpa [Change.zoneFlag, quote] using this
    rw [htext]
    exact hzone.append_right _

/-- The target of a zone takes part in a reference only where its name has one. -/
def Change.TargetIsApart : Change → Prop
  | .target zone value => value ≠ "" ∧
      (HasReference (Change.target zone value).text.toList → HasReference zone.toList)
  | _ => True

theorem fragment?_undo (defaultZone : String) {change : Change} (h : change.TargetIsApart) :
    change.undo.fragment? defaultZone =
      (change.fragment? defaultZone).map Config.withStandardTargets := by
  have hkept (hsame : change.undo.fragment? defaultZone = change.fragment? defaultZone)
      (hid : ∀ fragment, change.fragment? defaultZone = some fragment →
        fragment.withStandardTargets = fragment) :
      change.undo.fragment? defaultZone =
        (change.fragment? defaultZone).map Config.withStandardTargets := by
    rw [hsame]
    cases hread : change.fragment? defaultZone with
    | none => rfl
    | some fragment => exact congrArg some (hid fragment hread).symm
  have hdirect {kind : DirectKind} (hkind : change.kind? = some kind) :
      change.undo.fragment? defaultZone =
        (change.fragment? defaultZone).map Config.withStandardTargets := by
    obtain ⟨verb, ipv, rest, htext, hundo⟩ := exists_directText hkind
    refine hkept (Option.ext fun _ => (fragment?_direct hundo).trans (fragment?_direct htext).symm) ?_
    intro fragment hread
    obtain ⟨-, -, -, entry, -, rfl⟩ := (fragment?_direct htext).mp hread
    rfl
  cases change with
  | target zone value =>
    obtain ⟨hvalue, hname⟩ := h
    have hstandard : ZoneTarget.standard.name ≠ "" := by decide
    apply Option.ext
    intro fragment
    rw [Option.map_eq_some_iff]
    constructor
    · intro hread
      obtain ⟨href, hzone, -, rfl⟩ := fragment?_target.mp hread
      rw [hasReference_target hname] at href
      exact ⟨_, fragment?_target.mpr ⟨href, hzone, hvalue, rfl⟩, rfl⟩
    · rintro ⟨_, hread, rfl⟩
      obtain ⟨href, hzone, -, rfl⟩ := fragment?_target.mp hread
      rw [← hasReference_target hname] at href
      exact fragment?_target.mpr ⟨href, hzone, hstandard, rfl⟩
  | entry verb zone f value =>
    refine hkept (Option.ext fun fragment => ?_) fun fragment hread => ?_
    · rw [Change.undo, fragment?_entry, fragment?_entry, hasReference_entry .remove verb]
    · obtain ⟨-, -, z, henters, rfl⟩ := fragment?_entry.mp hread
      have hz : z.withStandardTarget = z := Zone.withStandardTarget_of_none henters.target
      simp [Config.withStandardTargets, mapValues, hz]
  | chain verb c => exact hdirect rfl
  | rule verb r => exact hdirect rfl
  | passthrough verb p => exact hdirect rfl

theorem isAbout_fragment? {defaultZone : String} {change : Change} {fragment : Config}
    (h : change.fragment? defaultZone = some fragment) : IsAbout change.kind? fragment := by
  have hzone {zones : List (String × Zone)} : IsAbout none { zones } :=
    ⟨fun _ => rfl, fun h => absurd rfl h, fun h => absurd rfl h, fun h => absurd rfl h⟩
  cases hkind : change.kind? with
  | none =>
    cases change with
    | target zone value =>
      obtain ⟨-, -, -, rfl⟩ := fragment?_target.mp h
      exact hzone
    | entry verb zone f value =>
      obtain ⟨-, -, z, -, rfl⟩ := fragment?_entry.mp h
      exact hzone
    | chain verb c => cases hkind
    | rule verb r => cases hkind
    | passthrough verb p => cases hkind
  | some kind =>
    obtain ⟨verb, ipv, rest, htext, -⟩ := exists_directText hkind
    obtain ⟨-, words, -, entry, hmentions, rfl⟩ := (fragment?_direct htext).mp h
    generalize words.map String.ofList = ws at hmentions
    cases hmentions <;>
      exact ⟨fun h => absurd rfl h, by simp, by simp, by simp⟩

/-! ## The changes of both directions -/

theorem fieldChanges_remove (name : String) (zone : Zone) (f : ZoneField) :
    fieldChanges .remove name zone f = (fieldChanges .add name zone f).map Change.undo := by
  cases f <;> simp [fieldChanges, ZoneField.kind, Change.undo, Function.comp_def] <;> split <;> rfl

theorem zoneChanges_remove (name : String) (zone : Zone) :
    zoneChanges .remove name zone = (zoneChanges .add name zone).map Change.undo := by
  rw [zoneChanges, zoneChanges, List.map_flatMap]
  exact congrArg (List.flatMap · _) (funext (fieldChanges_remove name zone))

theorem kind?_of_mem_zoneChanges {verb : Verb} {name : String} {zone : Zone} {change : Change}
    (h : change ∈ zoneChanges verb name zone) : change.kind? = none := by
  obtain ⟨f, -, hf⟩ := List.mem_flatMap.mp h
  have hzone := isZone_of_mem_fieldChanges hf
  cases change <;> first | rfl | cases hzone

/-- The changes of one kind that remove a configuration. -/
def removals (config : Config) : Option DirectKind → List Change
  | none => config.zones.flatMap fun (name, zone) => zoneChanges .remove name zone
  | some .chain => (distinct (config.direct.getD {}).chains).map (.chain .remove)
  | some .rule => (config.direct.getD {}).rules.map (.rule .remove)
  | some .passthrough => (config.direct.getD {}).passthroughs.map (.passthrough .remove)

theorem kind?_of_mem_removals {config : Config} {kind? : Option DirectKind} {change : Change}
    (h : change ∈ removals config kind?) : change.kind? = kind? := by
  rcases kind? with _ | _ | _ | _
  · obtain ⟨e, -, h⟩ := List.mem_flatMap.mp h
    exact kind?_of_mem_zoneChanges h
  all_goals
    obtain ⟨x, -, rfl⟩ := List.mem_map.mp h
    rfl

theorem filter_removals (config : Config) (kind? other : Option DirectKind) :
    (removals config other).filter (·.kind? == kind?) =
      if other = kind? then removals config other else [] := by
  split
  · rename_i h
    exact List.filter_eq_self.mpr fun c hc => beq_iff_eq.mpr ((kind?_of_mem_removals hc).trans h)
  · rename_i h
    refine List.filter_eq_nil_iff.mpr fun c hc => ?_
    rw [beq_iff_eq, kind?_of_mem_removals hc]
    exact h

theorem orderedChanges_remove (config : Config) :
    orderedChanges .remove config =
      removals config (some .rule) ++ removals config (some .passthrough)
        ++ removals config (some .chain) ++ removals config none := by
  cases hdirect : config.direct <;>
    simp [orderedChanges, removals, hdirect, directChanges, Direction.verb, distinct]

theorem map_undo_orderedChanges_apply (config : Config) :
    (orderedChanges .apply config).map Change.undo =
      removals config none ++ (removals config (some .chain) ++ removals config (some .rule)
        ++ removals config (some .passthrough)) := by
  have hzones : (config.zones.flatMap fun (name, zone) => zoneChanges .add name zone).map Change.undo =
      removals config none := by
    rw [List.map_flatMap]
    exact congrArg (List.flatMap · _) (funext fun e => (zoneChanges_remove e.1 e.2).symm)
  have hdirect : (config.direct.toList.flatMap (directChanges .apply)).map Change.undo =
      removals config (some .chain) ++ removals config (some .rule)
        ++ removals config (some .passthrough) := by
    cases hdirect : config.direct <;>
      simp [removals, hdirect, directChanges, distinct, Change.undo, Function.comp_def]
  rw [orderedChanges, List.map_append]
  exact congr (congrArg _ hzones) hdirect

theorem filter_kind?_orderedChanges (config : Config) (kind? : Option DirectKind) :
    (orderedChanges .remove config).filter (·.kind? == kind?) =
      ((orderedChanges .apply config).map Change.undo).filter (·.kind? == kind?) := by
  rw [orderedChanges_remove, map_undo_orderedChanges_apply]
  simp only [List.filter_append, filter_removals]
  rcases kind? with _ | _ | _ | _ <;> simp

/-! ## Scripts -/

theorem config_of_changes (defaultZone : String) (header : Bool) {options : Options}
    (hbanners : options.banners = false) {direction : Direction} {config : Config}
    (hlines : ∀ line ∈ lines options direction config, IsSingle line) :
    (Import.ofText defaultZone (scriptText header (lines options direction config))).config =
      ofFragments ((orderedChanges direction config).filterMap (·.fragment? defaultZone)) := by
  have hreload : (if options.transient then [] else [Line.reload]).filterMap
      (fun line => (outcome defaultZone line.text.toList).fragment?) = [] := by
    split
    · rfl
    · rw [List.filterMap_cons, outcome_reload]
      rfl
  have hchange (change : Change) : (changeLines options change).filterMap
        (fun line => (outcome defaultZone line.text.toList).fragment?) =
      (changeLines options change).filterMap fun _ => change.fragment? defaultZone := by
    refine List.filterMap_congr fun line hline => ?_
    obtain ⟨permanent, -, rfl⟩ := mem_changeLines.mp hline
    rw [outcome_line]
    rfl
  rw [config_scriptText defaultZone header hlines, lines, List.filterMap_map,
    ofConfig_of_not_banners hbanners, List.filterMap_append]
  refine (congrArg (fun fs => ofFragments (_ ++ fs)) hreload).trans ?_
  rw [List.append_nil, List.filterMap_flatMap, List.filterMap_eq_flatMap_toList]
  refine ofFragments_flatMap fun change _ => ?_
  refine (congrArg ofFragments (hchange change)).trans ?_
  -- the second line of a change repeats the first
  rw [changeLines]
  cases change.fragment? defaultZone with
  | none => split <;> rfl
  | some fragment =>
    split
    · exact ofFragments_twice [fragment]
    · rfl

/-- **Directions.** If every target takes part in a shell reference only where the name of its zone has
one, and no line is continued, then the transient script is imported as the other one is, in both
directions, and removing is imported as applying with the standard targets. -/
theorem config_of_directions {config : Config}
    (htargets : ∀ entry ∈ config.zones, ∀ target ∈ entry.2.target, target ≠ "" ∧
      (HasReference (Line.command true (.target entry.1 target)).text.toList →
        HasReference entry.1.toList))
    (hlines : ∀ transient direction, ∀ line ∈ lines { transient, banners := false } direction config,
      '\n' ∉ line.toList ∧ (trimEnd line.toList).getLast? ≠ some '\\')
    (header : Bool) (defaultZone : String) :
    let imported (transient : Bool) (direction : Direction) : Config :=
      (Import.ofText defaultZone
        (scriptText header (lines { transient, banners := false } direction config))).config
    imported true .apply = imported false .apply ∧ imported true .remove = imported false .remove ∧
      imported false .remove = (imported false .apply).withStandardTargets := by
  intro imported
  have hchanges (transient : Bool) (direction : Direction) : imported transient direction =
      ofFragments ((orderedChanges direction config).filterMap (·.fragment? defaultZone)) :=
    config_of_changes defaultZone header rfl fun line hline =>
      ⟨(hlines transient direction line hline).1,
        continued?_eq_none.mpr (hlines transient direction line hline).2⟩
  have hapart : ∀ change ∈ orderedChanges .apply config, change.TargetIsApart := by
    intro change hchange
    have hasked : Asks .apply config change := mem_allChanges.mp hchange
    cases hasked with
    | target hzone htarget =>
      obtain ⟨hne, hname⟩ := htargets _ hzone _ htarget
      rw [HasReference, reference?_text] at hname
      exact ⟨hne, hname⟩
    | toggle | value | port | forwardPort | richRule | chain | rule | passthrough => trivial
  have hundo : ((orderedChanges .apply config).map Change.undo).filterMap (·.fragment? defaultZone) =
      ((orderedChanges .apply config).filterMap (·.fragment? defaultZone)).map
        Config.withStandardTargets := by
    rw [List.filterMap_map, List.map_filterMap]
    exact List.filterMap_congr fun change hchange => fragment?_undo defaultZone (hapart change hchange)
  refine ⟨by rw [hchanges, hchanges], by rw [hchanges, hchanges], ?_⟩
  calc imported false .remove
    _ = ofFragments ((orderedChanges .remove config).filterMap (·.fragment? defaultZone)) :=
      hchanges false .remove
    _ = ofFragments
          (((orderedChanges .apply config).map Change.undo).filterMap (·.fragment? defaultZone)) :=
      ofFragments_reorder (fun _ _ => isAbout_fragment?) (filter_kind?_orderedChanges config)
    _ = (ofFragments ((orderedChanges .apply config).filterMap
          (·.fragment? defaultZone))).withStandardTargets := by
      rw [hundo, ofFragments_withStandardTargets]
    _ = (imported false .apply).withStandardTargets := by rw [hchanges]

/-- A line with a reference in the name of its zone and one with an open quote cannot be read in either
direction; the chain is removed last. -/
theorem config_of_directions_unread :
    let rule : DirectRule := { ipv := "eb", table := "t", chain := "X", args := "it's" }
    let config : Config :=
      { zones := [("$a", { target := some "\x7d" }), ("b", { target := some "DROP" })]
        direct := some { chains := [⟨"eb", "t", "X"⟩], rules := [rule] } }
    let imported (transient : Bool) (direction : Direction) : Config :=
      (Import.ofText "public"
        (scriptText true (lines { transient, banners := false } direction config))).config
    HasReference (Line.command true (.target "$a" "\x7d")).text.toList ∧
      imported true .remove = (imported true .apply).withStandardTargets := by
  intro rule config imported
  have htargets : ∀ entry ∈ config.zones, ∀ target ∈ entry.2.target, target ≠ "" ∧
      (HasReference (Line.command true (.target entry.1 target)).text.toList →
        HasReference entry.1.toList) := by
    decide +kernel
  have hlines : ∀ transient direction,
      ∀ line ∈ lines { transient, banners := false } direction config,
        '\n' ∉ line.toList ∧ (trimEnd line.toList).getLast? ≠ some '\\' := by
    rintro (_ | _) (_ | _) <;> decide +kernel
  obtain ⟨happly, hremove, hstandard⟩ := config_of_directions htargets hlines true "public"
  refine ⟨by decide +kernel, ?_⟩
  calc imported true .remove
    _ = imported false .remove := hremove
    _ = (imported false .apply).withStandardTargets := hstandard
    _ = (imported true .apply).withStandardTargets := congrArg Config.withStandardTargets happly.symm

/-- No target needs to hold a reference of its own: one that closes what the name of its zone leaves
open makes the line that sets it unreadable, while the line that takes it back is read. -/
theorem target_closes_reference :
    let config : Config := { zones := [("$\x7b", { target := some "\x7d" })] }
    let imported (transient : Bool) (direction : Direction) : Config :=
      (Import.ofText "public"
        (scriptText false (lines { transient, banners := false } direction config))).config
    (∀ entry ∈ config.zones, ∀ target ∈ entry.2.target, target ≠ "" ∧ ¬ HasReference target.toList) ∧
      (∀ transient direction, ∀ line ∈ lines { transient, banners := false } direction config,
        '\n' ∉ line.toList ∧ (trimEnd line.toList).getLast? ≠ some '\\') ∧
      imported false .apply = {} ∧
      imported false .remove ≠ (imported false .apply).withStandardTargets := by
  intro config imported
  refine ⟨by decide +kernel, ?_, by decide +kernel, by decide +kernel⟩
  rintro (_ | _) (_ | _) <;> decide +kernel

end Script

end ZoneScript
