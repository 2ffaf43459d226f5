import ZoneScript.Config.Encode
import ZoneScript.Proofs.CheckedRules

/-!
# Items of two shapes

A forward port and a rich rule may be written as a text or as a mapping. The values of a forward port
are looked at in a mapping only. A rich rule that does nothing is found by its values in a text, and in
a mapping by its keys.
-/

namespace ZoneScript

open Node Decode

/-! ## Records by their keys -/

namespace Decode

/-- All keys of a mapping are texts. -/
def HasTextKeys (entries : Entries) : Prop :=
  ∀ entry ∈ entries, ∃ key, entry.1 = .str key

variable {σ β : Type} {style : Style} {keys seen : List String} {key name : String} {value node : Node}
  {set : String → Node → σ → Decode.Result σ} {entries : Entries} {record result : σ}

theorem fields_cons_str
    (h : fields style keys set seen ((.str key, value) :: entries) record = .ok result) :
    (key ∉ keys ∧ fields style keys set seen entries record = .ok result) ∨
      (key ∉ seen ∧ ∃ next, set key value record = .ok next ∧
        fields style keys set (key :: seen) entries next = .ok result) := by
  rw [fields, fieldOf_str] at h
  by_cases hkey : key ∈ keys
  · simp only [List.contains_iff_mem.mpr hkey, if_true] at h
    by_cases hseen : key ∈ seen
    · simp [hseen] at h
    · rw [if_neg (by simpa using hseen)] at h
      exact .inr ⟨hseen, Script.bind_eq_ok.mp h⟩
  · refine .inl ⟨hkey, ?_⟩
    simpa [hkey] using h

theorem find?_eq_none_of_seen (htext : HasTextKeys entries) (hname : name ∈ keys) (hseen : name ∈ seen)
    (h : fields style keys set seen entries record = .ok result) : find? name entries = none := by
  induction entries generalizing seen record with
  | nil => rfl
  | cons entry entries ih =>
    obtain ⟨⟨key, hkey⟩, htexts⟩ := List.forall_mem_cons.mp htext
    obtain ⟨k, value⟩ := entry
    obtain rfl : k = .str key := hkey
    rcases fields_cons_str h with ⟨hother, h⟩ | ⟨hnew, next, -, h⟩
    · have hne : key ≠ name := fun heq => hother (heq ▸ hname)
      simpa [find?, hne] using ih htexts hseen h
    · have hne : key ≠ name := fun heq => hnew (heq ▸ hseen)
      simpa [find?, hne] using ih htexts (List.mem_cons_of_mem _ hseen) h

theorem view_of_fields (view : σ → β) (htext : HasTextKeys entries) (hname : name ∈ keys)
    (hother : ∀ key node r next, key ≠ name → set key node r = .ok next → view next = view r)
    (h : fields style keys set seen entries record = .ok result) :
    (find? name entries = none ∧ view result = view record) ∨
      ∃ node r next, find? name entries = some node ∧ set name node r = .ok next ∧
        view result = view next := by
  induction entries generalizing seen record with
  | nil =>
    obtain rfl := Except.ok.inj h
    exact .inl ⟨rfl, rfl⟩
  | cons entry entries ih =>
    obtain ⟨⟨key, hkey⟩, htexts⟩ := List.forall_mem_cons.mp htext
    obtain ⟨k, value⟩ := entry
    obtain rfl : k = .str key := hkey
    rcases fields_cons_str h with ⟨hunknown, h⟩ | ⟨-, next, hset, h⟩
    · have hne : key ≠ name := fun heq => hunknown (heq ▸ hname)
      simpa [find?, hne] using ih htexts h
    · by_cases hne : key = name
      · subst hne
        have hnone := find?_eq_none_of_seen htexts hname List.mem_cons_self h
        rcases ih htexts h with ⟨-, hview⟩ | ⟨node, _, _, hfind, -⟩
        · exact .inr ⟨value, record, next, by simp [find?], hset, hview⟩
        · rw [hnone] at hfind
          cases hfind
      · have hkept := hother key value record next hne hset
        rw [← hkept]
        simpa [find?, hne] using ih htexts h

theorem exists_of_optional {α : Type} {read : Node → Decode.Result α} {x : Option α}
    (hnull : node ≠ .null) (h : Decode.optional read node = .ok x) : ∃ y, x = some y := by
  have hread : (read node).map some = .ok x := by
    cases node with
    | null => exact absurd rfl hnull
    | _ => exact h
  obtain ⟨y, -, rfl⟩ := Script.map_eq_ok.mp hread
  exact ⟨y, rfl⟩

theorem setRichRule_keeps {rule next : RichRule} (h : setRichRule style key node rule = .ok next) :
    (key ≠ "action" → next.action = rule.action) ∧ (key ≠ "log" → next.log = rule.log) ∧
      (key ≠ "audit" → next.audit = rule.audit) ∧
      (key ≠ "masquerade" → next.masquerade = rule.masquerade) := by
  unfold setRichRule at h
  split at h
  all_goals first
    | obtain ⟨_, -, rfl⟩ := Script.map_eq_ok.mp h
      simp
    | obtain rfl := Except.ok.inj h
      simp

end Decode

/-! ## The values of a forward port -/

namespace Finding

/-- A text passes a check, or waits for a variable. -/
def Passes (check : String → Lexical.Result Unit) (text : String) : Prop :=
  isTemplated text = true ∨ check text = .ok ()

/-- The values of a forward port are what they must be, as far as they can be told. -/
structure ForwardPortPasses (item : ForwardPort) : Prop where
  port : Passes portNumber item.port
  protocol : Passes portProtocol item.protocol
  toPort : ∀ text ∈ item.toPort, Passes portNumber text
  toAddr : ∀ text ∈ item.toAddr, Passes Lexical.address text

/-- The messages about values that are not what they must be. -/
def valueMessages (findings : List Finding) : List String :=
  findings.filterMap fun finding =>
    match finding.issue with
    | .badValue error => some error.message
    | _ => none

variable {path key text : String} {check : String → Lexical.Result Unit} {entries : Entries}

theorem valueMessages_append (fs gs : List Finding) :
    valueMessages (fs ++ gs) = valueMessages fs ++ valueMessages gs :=
  List.filterMap_append

theorem valueMessages_value : valueMessages (value path check text) = [] ↔ Passes check text := by
  rw [value, Passes]
  split
  · simp [valueMessages, *]
  · split <;> simp [valueMessages, *]

theorem valueMessages_checked_none (h : find? key entries = none) :
    valueMessages (checked path key check entries) = [] := by
  rw [checked, field, h]
  rfl

theorem valueMessages_checked_str (h : find? key entries = some (.str text)) :
    valueMessages (checked path key check entries) = [] ↔ Passes check text := by
  rw [checked, field, h]
  exact valueMessages_value

theorem valueMessages_checked_optional {value : Option String}
    (h : find? key entries = value.map .str) :
    valueMessages (checked path key check entries) = [] ↔ ∀ text ∈ value, Passes check text := by
  cases value with
  | none => simp [valueMessages_checked_none h]
  | some text => simp [valueMessages_checked_str h]

theorem valueMessages_forwardPort {item : ForwardPort} (hloop : item.loop = none) :
    valueMessages (forwardPort path (Encode.forwardPort item)) = [] ↔ ForwardPortPasses item := by
  obtain ⟨port, protocol, toPort, toAddr, loop⟩ := item
  obtain rfl : loop = none := hloop
  rw [Encode.forwardPort]
  generalize hentries : [Encode.entry "port" (.str port), Encode.entry "protocol" (.str protocol)]
    ++ Encode.optional "to_port" toPort ++ Encode.optional "to_addr" toAddr
    ++ Encode.optional "loop" none = entries
  have hport : find? "port" entries = some (.str port) := by
    rw [← hentries]; rfl
  have hprotocol : find? "protocol" entries = some (.str protocol) := by
    rw [← hentries]; rfl
  have htoPort : find? "to_port" entries = toPort.map .str := by
    rw [← hentries]; cases toPort <;> cases toAddr <;> rfl
  have htoAddr : find? "to_addr" entries = toAddr.map .str := by
    rw [← hentries]; cases toPort <;> cases toAddr <;> rfl
  have hnone : find? "loop" entries = none := by
    rw [← hentries]; cases toPort <;> cases toAddr <;> rfl
  have hkeys : keys path Keys.forwardPort "forward port" entries = [] := by
    rw [← hentries]; cases toPort <;> cases toAddr <;> rfl
  have hfield : portField path "forward port" entries = checked path "port" portNumber entries := by
    rw [portField, hasKey, hport]; rfl
  have hno : Finding.loop path entries = [] := by
    rw [Finding.loop, field, hnone]
  simp only [forwardPort, hkeys, hno, hfield, valueMessages_append, List.append_eq_nil_iff,
    valueMessages_checked_str hport, valueMessages_checked_str hprotocol,
    valueMessages_checked_optional htoPort, valueMessages_checked_optional htoAddr]
  constructor
  · rintro ⟨⟨⟨⟨-, hport⟩, hprotocol⟩, htoPort⟩, htoAddr⟩
    exact ⟨hport, hprotocol, htoPort, htoAddr⟩
  · rintro ⟨hport, hprotocol, htoPort, htoAddr⟩
    exact ⟨⟨⟨⟨⟨rfl, rfl⟩, hport⟩, hprotocol⟩, htoPort⟩, htoAddr⟩

/-! ## Rules without an effect -/

/-- No finding is about what a rule does. -/
def WithoutEffect (findings : List Finding) : Prop :=
  ∀ finding ∈ findings, finding.issue ≠ .noEffect

theorem withoutEffect_nil : WithoutEffect [] :=
  List.forall_mem_nil _

theorem withoutEffect_singleton {finding : Finding} :
    WithoutEffect [finding] ↔ finding.issue ≠ .noEffect :=
  List.forall_mem_singleton

theorem withoutEffect_append {fs gs : List Finding} :
    WithoutEffect (fs ++ gs) ↔ WithoutEffect fs ∧ WithoutEffect gs :=
  List.forall_mem_append

theorem withoutEffect_flatMap {α : Type} {xs : List α} {check : α → List Finding}
    (h : ∀ x, WithoutEffect (check x)) : WithoutEffect (xs.flatMap check) := by
  intro finding hfinding
  obtain ⟨x, -, hmem⟩ := List.mem_flatMap.mp hfinding
  exact h x finding hmem

theorem withoutEffect_keys {valid : List String} {what : String} :
    WithoutEffect (keys path valid what entries) := by
  intro finding hfinding
  obtain ⟨entry, -, h⟩ := List.mem_filterMap.mp hfinding
  obtain ⟨-, ⟨⟩⟩ := Option.ite_none_left_eq_some.mp h
  exact Issue.noConfusion

theorem withoutEffect_value : WithoutEffect (value path check text) := by
  rw [value]
  split
  · exact withoutEffect_nil
  · split
    · exact withoutEffect_nil
    · exact withoutEffect_singleton.mpr Issue.noConfusion

theorem withoutEffect_field {check : String → Node → List Finding}
    (h : ∀ place node, WithoutEffect (check place node)) :
    WithoutEffect (field path key entries check) := by
  rw [field]
  split
  · exact h _ _
  · exact withoutEffect_nil

theorem withoutEffect_checked : WithoutEffect (checked path key check entries) := by
  refine withoutEffect_field fun place node => ?_
  rw [scalarNode]
  split
  · exact withoutEffect_value
  · exact withoutEffect_singleton.mpr Issue.noConfusion

theorem withoutEffect_scalars {names : List String} : WithoutEffect (scalars path names entries) :=
  withoutEffect_flatMap fun _ => withoutEffect_checked

theorem withoutEffect_flag : WithoutEffect (flag path key entries) := by
  refine withoutEffect_field fun place node => ?_
  split
  · exact withoutEffect_nil
  · exact withoutEffect_singleton.mpr Issue.noConfusion

theorem withoutEffect_loop : WithoutEffect (loop path entries) := by
  refine withoutEffect_field fun place node => ?_
  split
  · exact withoutEffect_nil
  · exact withoutEffect_singleton.mpr Issue.noConfusion

theorem withoutEffect_rulePart {valid : List String} :
    WithoutEffect (rulePart path key valid entries) := by
  refine withoutEffect_field fun place node => ?_
  cases node with
  | map inner => exact withoutEffect_append.mpr ⟨withoutEffect_keys, withoutEffect_scalars⟩
  | _ => exact withoutEffect_singleton.mpr Issue.noConfusion

theorem withoutEffect_ruleValues {rule : RichRule} : WithoutEffect (ruleValues path rule) := by
  have hvalue {key : String} {check : String → Lexical.Result Unit} {text : Option String} :
      WithoutEffect (ruleValue path key check text) := by
    cases text with
    | none => exact withoutEffect_nil
    | some text => exact withoutEffect_value
  simp only [ruleValues, withoutEffect_append, hvalue, and_self]

theorem noEffect_mem_richRule_map :
    ⟨path, .noEffect⟩ ∈ richRule path (.map entries) ↔
      ∀ key ∈ Keys.richRuleEffect, hasKey key entries = false := by
  have hnot {findings : List Finding} (h : WithoutEffect findings) :
      (⟨path, .noEffect⟩ : Finding) ∉ findings := fun hmem => h _ hmem rfl
  have hvalues (rule : Option RichRule) : WithoutEffect ((rule.map (ruleValues path)).getD []) := by
    cases rule with
    | none => exact withoutEffect_nil
    | some rule => exact withoutEffect_ruleValues
  simp only [richRule, List.mem_append, hnot withoutEffect_keys, hnot withoutEffect_loop,
    hnot withoutEffect_scalars, hnot (withoutEffect_flatMap fun _ => withoutEffect_flag),
    hnot withoutEffect_rulePart, hnot (hvalues _), false_or, or_false]
  split
  · rename_i h
    obtain ⟨key, hkey, hhas⟩ := List.any_eq_true.mp h
    simp only [List.not_mem_nil, false_iff]
    exact fun hnone => absurd (hnone key hkey) (by simp [hhas])
  · rename_i h
    simpa using h

theorem noEffect_mem_richRule_str :
    ⟨path, .noEffect⟩ ∈ richRule path (.str text) ↔ (RichRule.ofText text).hasEffect = false := by
  have hvalues (rule : RichRule) : (⟨path, .noEffect⟩ : Finding) ∉ ruleValues path rule :=
    fun hmem => withoutEffect_ruleValues _ hmem rfl
  simp only [richRule, RichRule.ofText, List.mem_append, hvalues, or_false]
  generalize RichRule.ofTextRest text = result
  obtain ⟨rule, token⟩ := result
  cases token <;> cases rule.hasEffect <;> simp

variable {rule : RichRule}

theorem effect_of_hasKey (htext : HasTextKeys entries)
    (h : Decode.richRule .loose (.map entries) = .ok rule) :
    (hasKey "action" entries = false → rule.action = none) ∧
      (hasKey "log" entries = false → rule.log = none) ∧
      (hasKey "audit" entries = false → rule.audit = false) ∧
      (hasKey "masquerade" entries = false → rule.masquerade = false) := by
  have hfields : fields .loose Keys.richRule (setRichRule .loose) [] entries {} = .ok rule := h
  have habsent {β : Type} (view : RichRule → β) {name : String} (hname : name ∈ Keys.richRule)
      (hkeeps : ∀ key node r next, key ≠ name → setRichRule .loose key node r = .ok next →
        view next = view r) (hkey : hasKey name entries = false) : view rule = view {} := by
    rcases view_of_fields view htext hname hkeeps hfields with ⟨-, hview⟩ | ⟨_, _, _, hsome, -⟩
    · exact hview
    · simp [hasKey, hsome] at hkey
  exact ⟨habsent RichRule.action (by decide) fun _ _ _ _ hne hset => (setRichRule_keeps hset).1 hne,
    habsent RichRule.log (by decide) fun _ _ _ _ hne hset => (setRichRule_keeps hset).2.1 hne,
    habsent RichRule.audit (by decide) fun _ _ _ _ hne hset => (setRichRule_keeps hset).2.2.1 hne,
    habsent RichRule.masquerade (by decide) fun _ _ _ _ hne hset => (setRichRule_keeps hset).2.2.2 hne⟩

theorem hasKey_of_eq_none {α : Type} (view : RichRule → Option α)
    (htext : HasTextKeys entries) (hkey : key ∈ Keys.richRule)
    (hother : ∀ name node r next, name ≠ key → setRichRule .loose name node r = .ok next →
      view next = view r)
    (hset : ∀ node r next, setRichRule .loose key node r = .ok next →
      ∃ read, Decode.optional read node = .ok (view next))
    (hnull : ∀ node, find? key entries = some node → node ≠ .null)
    (h : Decode.richRule .loose (.map entries) = .ok rule) (hnone : view rule = none) :
    hasKey key entries = false := by
  rcases view_of_fields view htext hkey hother h with ⟨habsent, -⟩ | ⟨node, r, next, hsome, hread, hview⟩
  · rw [hasKey, habsent]
    rfl
  · obtain ⟨_, hoptional⟩ := hset node r next hread
    obtain ⟨part, hpart⟩ := exists_of_optional (hnull node hsome) hoptional
    rw [hview, hpart] at hnone
    cases hnone

theorem hasKey_of_action (htext : HasTextKeys entries) (hquiet : Quiet (richRule path (.map entries)))
    (h : Decode.richRule .loose (.map entries) = .ok rule) (haction : rule.action = none) :
    hasKey "action" entries = false := by
  simp only [richRule, quiet_append] at hquiet
  obtain ⟨⟨⟨⟨⟨⟨⟨⟨-, -⟩, hscalars⟩, -⟩, -⟩, -⟩, -⟩, -⟩, -⟩ := hquiet
  refine hasKey_of_eq_none RichRule.action htext (by decide)
    (fun _ _ _ _ hne hset => (setRichRule_keeps hset).1 hne) (fun node r next hset => ?_)
    (fun node hsome => ?_) h haction
  · obtain ⟨action, haction, rfl⟩ := Script.map_eq_ok.mp hset
    exact ⟨_, haction⟩
  · have hscalar := isSome_of_scalarNode
      (quiet_field hsome (quiet_flatMap.mp hscalars "action" (by decide)))
    rintro rfl
    cases hscalar

theorem hasKey_of_log (htext : HasTextKeys entries) (hquiet : Quiet (richRule path (.map entries)))
    (h : Decode.richRule .loose (.map entries) = .ok rule) (hlog : rule.log = none) :
    hasKey "log" entries = false := by
  simp only [richRule, quiet_append] at hquiet
  obtain ⟨⟨⟨⟨⟨-, hpart⟩, -⟩, -⟩, -⟩, -⟩ := hquiet
  refine hasKey_of_eq_none RichRule.log htext (by decide)
    (fun _ _ _ _ hne hset => (setRichRule_keeps hset).2.1 hne) (fun node r next hset => ?_)
    (fun node hsome => ?_) h hlog
  · obtain ⟨log, hlog, rfl⟩ := Script.map_eq_ok.mp hset
    exact ⟨_, hlog⟩
  · have hmapping := quiet_field hsome hpart
    rintro rfl
    cases (quiet_singleton _).mp hmapping

theorem noEffect_mem_iff (htext : HasTextKeys entries) (hquiet : Quiet (richRule path (.map entries)))
    (h : Decode.richRule .loose (.map entries) = .ok rule) :
    ⟨path, .noEffect⟩ ∈ richRule path (.map entries) ↔
      rule.hasEffect = false ∧ hasKey "audit" entries = false ∧ hasKey "masquerade" entries = false := by
  obtain ⟨haction, hlog, haudit, hmasquerade⟩ := effect_of_hasKey htext h
  rw [noEffect_mem_richRule_map]
  simp only [Keys.richRuleEffect, List.mem_cons, List.not_mem_nil, or_false, forall_eq_or_imp, forall_eq,
    RichRule.hasEffect, Bool.or_eq_false_iff, Option.isSome_eq_false_iff, Option.isNone_iff_eq_none]
  constructor
  · rintro ⟨hnoAction, hnoLog, hnoAudit, hnoMasquerade⟩
    exact ⟨⟨⟨⟨haction hnoAction, hlog hnoLog⟩, haudit hnoAudit⟩, hmasquerade hnoMasquerade⟩,
      hnoAudit, hnoMasquerade⟩
  · rintro ⟨⟨⟨⟨hnoAction, hnoLog⟩, -⟩, -⟩, hnoAudit, hnoMasquerade⟩
    exact ⟨hasKey_of_action htext hquiet h hnoAction, hasKey_of_log htext hquiet h hnoLog, hnoAudit,
      hnoMasquerade⟩

/-- A switch for what a rule does is written out, on or off. -/
def WritesSwitch : Node → Prop
  | .map entries => hasKey "audit" entries = true ∨ hasKey "masquerade" entries = true
  | _ => False

theorem noEffect_mem_richRule {node : Node} (hquiet : Quiet (richRule path node))
    (htext : ∀ entries, node = .map entries → HasTextKeys entries)
    (h : shaped "Repr" richRuleItem? node = .ok rule) :
    ⟨path, .noEffect⟩ ∈ richRule path node ↔ rule.hasEffect = false ∧ ¬ WritesSwitch node := by
  rw [shaped] at h
  split at h
  · cases h
  cases node with
  | str text =>
    obtain rfl : RichRule.ofText text = rule := Except.ok.inj h
    simp [noEffect_mem_richRule_str, WritesSwitch]
  | map entries =>
    cases hread : Decode.richRule .loose (.map entries) with
    | error e => simp [richRuleItem?, hread, Except.toOption] at h
    | ok read =>
      obtain rfl : read = rule := by simpa [richRuleItem?, hread, Except.toOption] using h
      rw [noEffect_mem_iff (htext entries rfl) hquiet hread, WritesSwitch, not_or,
        Bool.not_eq_true, Bool.not_eq_true]
  | null | bool | int | float | seq | tagged => cases (quiet_singleton _).mp hquiet

theorem hasEffect_eq_false_iff : rule.hasEffect = false ↔
    rule.action = none ∧ rule.log = none ∧ rule.audit = false ∧ rule.masquerade = false := by
  simp only [RichRule.hasEffect, Bool.or_eq_false_iff, Option.isSome_eq_false_iff,
    Option.isNone_iff_eq_none, and_assoc]

/-- **Items of two shapes.** Nothing is said about the values of a forward port that is written as a
text, so both shapes agree if and only if its values are what they must be. A rich rule without an error
is read, and it is found to do nothing if and only if it does nothing, unless it is a mapping that writes
out a switch. -/
theorem item_shapes (path : String) :
    (∀ spec item, ForwardPort.ofSpec? spec = .ok item →
      forwardPort path (.str spec) = [] ∧
        (valueMessages (forwardPort path (.str spec)) =
          valueMessages (forwardPort path (Encode.forwardPort item)) ↔ ForwardPortPasses item)) ∧
      ∀ node, Quiet (richRule path node) →
        (node.IsJson → ∃ rule, shaped "Repr" richRuleItem? node = .ok rule) ∧
        ∀ rule, shaped "Repr" richRuleItem? node = .ok rule →
          (∀ entries, node = .map entries → HasTextKeys entries) →
          (⟨path, .noEffect⟩ ∈ richRule path node ↔
            (rule.action = none ∧ rule.log = none ∧ rule.audit = false ∧ rule.masquerade = false) ∧
              ¬ WritesSwitch node) := by
  constructor
  · intro spec item h
    have hempty : forwardPort path (.str spec) = [] := by
      rw [forwardPort, h]
    have hloop := (ForwardPort.isLiteral_of_ofSpec? h).loop
    refine ⟨hempty, ?_⟩
    rw [hempty, ← valueMessages_forwardPort hloop, eq_comm]
    rfl
  · intro node hquiet
    refine ⟨fun hjson => answersFor_richRule path node hjson hquiet, fun rule h htext => ?_⟩
    rw [noEffect_mem_richRule hquiet htext h, hasEffect_eq_false_iff]

/-- An address with colons in a text, and a mapping without the key of anything that a rule does. -/
theorem item_shapes_agree :
    let spec := "port=80:toaddr=fe80::1"
    let item : ForwardPort := { port := "80", protocol := "tcp", toAddr := some "fe80::1" }
    let idle := Node.map (ofFields [("service", .str "ssh"), ("loop", .str "hosts")])
    let rule : RichRule := { service := some "ssh", loop := some "hosts" }
    ForwardPort.ofSpec? spec = .ok item ∧
      valueMessages (forwardPort "f" (.str spec)) =
        valueMessages (forwardPort "f" (Encode.forwardPort item)) ∧
      shaped "Repr" richRuleItem? idle = .ok rule ∧
      ⟨"r", .noEffect⟩ ∈ richRule "r" idle := by
  intro spec item idle rule
  have hread : ForwardPort.ofSpec? spec = .ok item := by decide +kernel
  have hpasses : ForwardPortPasses item :=
    { port := .inr (by decide +kernel)
      protocol := .inr (by decide +kernel)
      toPort := by rintro _ ⟨⟩
      toAddr := by
        rintro _ ⟨⟩
        exact .inr (by decide +kernel) }
  have hrule : shaped "Repr" richRuleItem? idle = .ok rule := rfl
  have hquiet : Quiet (richRule "r" idle) := by
    unfold Quiet
    decide +kernel
  have htext : ∀ entries, idle = .map entries → HasTextKeys entries := by
    intro entries hentries
    rw [← Node.map.inj hentries]
    simp [HasTextKeys, ofFields]
  refine ⟨hread, (((item_shapes "f").1 spec item hread).2).mpr hpasses, hrule, ?_⟩
  refine (((item_shapes "r").2 idle hquiet).2 _ hrule htext).mpr ⟨⟨rfl, rfl, rfl, rfl⟩, ?_⟩
  rintro (h | h) <;> cases h

/-- A port that is too large and a switch that is off are found in one shape only. A number for a key
hides what a rule does. -/
theorem item_shapes_differ :
    let item : ForwardPort := { port := "99999", protocol := "tcp" }
    let off := Node.map (ofFields [("service", .str "ssh"), ("audit", .bool false)])
    let numbered := Node.map [(.str "service", .str "ssh"), (.int 15, .str "accept")]
    (ForwardPort.ofSpec? "port=99999" = .ok item ∧
        valueMessages (forwardPort "f" (.str "port=99999")) ≠
          valueMessages (forwardPort "f" (Encode.forwardPort item))) ∧
      (shaped "Repr" richRuleItem? off = .ok { service := some "ssh" } ∧ richRule "r" off = []) ∧
      (shaped "Repr" richRuleItem? numbered = .ok { service := some "ssh", action := some "accept" } ∧
        ⟨"r", .noEffect⟩ ∈ richRule "r" numbered) := by
  refine ⟨⟨rfl, by decide +kernel⟩, ⟨rfl, by decide +kernel⟩, rfl, by decide +kernel⟩

end Finding

end ZoneScript
