import ZoneScript.Proofs.RuleTexts
import ZoneScript.Proofs.Validation

/-!
# Rich rules without a finding

A rich rule in which the checker finds nothing is read. Its text gives it back if and only if each part
of the rule has a place in the text: one element at most, and nothing without what it belongs to.
-/

namespace ZoneScript

open Node Decode

/-! ## Text keys -/

namespace Text

theorem head_showInt (n : Int) : (showInt n).head?.any Char.isLower = false := by
  cases n with
  | ofNat n =>
    obtain ⟨c, cs, hcons⟩ := List.exists_cons_of_ne_nil (Nat.toDigits_ne_nil (b := 10) (n := n))
    have hdigit : c.isDigit = true :=
      Nat.isDigit_of_mem_toDigits (by decide) (by decide) (hcons ▸ List.mem_cons_self)
    rw [showInt, hcons, List.head?_cons, Option.any_some]
    unfold Char.isDigit at hdigit
    unfold Char.isLower
    simp only [Bool.and_eq_true, decide_eq_true_eq, Bool.and_eq_false_iff, decide_eq_false_iff_not,
      UInt32.le_iff_toNat_le, ge_iff_le] at hdigit ⊢
    exact .inl fun hlower => absurd (hlower.trans hdigit.2) (by decide)
  | negSucc n => rfl

end Text

namespace Decode

/-- The keys of a catalogue are words. -/
def AreWords (keys : List String) : Prop :=
  ∀ key ∈ keys, key.toList.head?.any Char.isLower = true

instance (keys : List String) : Decidable (AreWords keys) :=
  inferInstanceAs (Decidable (∀ _ ∈ _, _))

theorem exists_str_of_fieldOf {keys : List String} (hwords : AreWords keys) {key : Node}
    {field : Option String} (hname : key.keyName ∈ keys) (htag : hasTag key = false)
    (h : fieldOf .loose keys key = .ok field) : ∃ name, key = .str name := by
  cases key with
  | str name => exact ⟨name, rfl⟩
  | int n =>
    have hword := hwords _ hname
    have htext : (Node.int n).keyName.toList = Text.showInt n := by
      simp [keyName, Node.scalarText?, intText]
    rw [htext, Text.head_showInt] at hword
    cases hword
  | tagged tag value => cases htag
  | null | bool | float | seq | map => cases h

theorem fields_plain_of_loose {σ : Type} {keys : List String} (hwords : AreWords keys)
    {set set' : String → Node → σ → Decode.Result σ} {entries : Entries} {seen : List String}
    (hkeys : ∀ entry ∈ entries, entry.1.keyName ∈ keys) (htag : anyEntryTag entries = false)
    (hset : ∀ key, key ∉ seen → ∀ value, find? key entries = some value → ∀ record result,
      set key value record = .ok result → set' key value record = .ok result)
    {record result : σ} (h : fields .loose keys set seen entries record = .ok result) :
    fields .plain keys set' seen entries record = .ok result := by
  induction entries generalizing seen record with
  | nil => exact h
  | cons entry entries ih =>
    obtain ⟨key, value⟩ := entry
    obtain ⟨hname, hnames⟩ := List.forall_mem_cons.mp hkeys
    simp only [anyEntryTag, Bool.or_eq_false_iff] at htag
    obtain ⟨⟨hkeyTag, hvalueTag⟩, htags⟩ := htag
    rw [fields] at h
    cases hfield : fieldOf .loose keys key with
    | error e => simp [hfield] at h
    | ok field =>
      obtain ⟨name, rfl⟩ := exists_str_of_fieldOf hwords hname hkeyTag hfield
      have hmem : name ∈ keys := hname
      have hloose : fieldOf .loose keys (.str name) = .ok (some name) := by simp [fieldOf, untag, hmem]
      have hplain : fieldOf .plain keys (.str name) = .ok (some name) := by simp [fieldOf, untag, hmem]
      rw [fields, hplain]
      simp only [hloose] at h
      simp only
      by_cases hseen : name ∈ seen
      · simp [hseen] at h
      · rw [if_neg (by simpa using hseen)] at h ⊢
        obtain ⟨next, hnext, hrest⟩ := Script.bind_eq_ok.mp h
        rw [hset name hseen value (by simp [find?]) _ _ hnext]
        refine ih hnames htags (fun k hk v hv => ?_) hrest
        refine hset k (fun h => hk (List.mem_cons_of_mem _ h)) v ?_
        have hne : name ≠ k := fun heq => hk (heq ▸ List.mem_cons_self)
        simp [find?, hne, hv]

theorem hasTag_of_find? {key : String} {entries : Entries} {node : Node}
    (h : find? key entries = some node) (htag : anyEntryTag entries = false) : hasTag node = false := by
  induction entries with
  | nil => cases h
  | cons entry entries ih =>
    obtain ⟨other, value⟩ := entry
    simp only [anyEntryTag, Bool.or_eq_false_iff] at htag
    obtain ⟨⟨-, hvalue⟩, hrest⟩ := htag
    unfold find? at h
    split at h
    · cases h
    · split at h <;> simp_all
    · simp_all

end Decode

namespace Finding

/-! ## Rules in both styles -/

theorem keyName_mem_of_keys {path what : String} {valid : List String} {entries : Entries}
    (h : keys path valid what entries = []) : ∀ entry ∈ entries, entry.1.keyName ∈ valid := by
  intro entry hentry
  have := List.filterMap_eq_nil_iff.mp h entry hentry
  simpa using this

theorem plain_of_rulePart {σ : Type} {path key name : String} {valid : List String}
    (hwords : AreWords valid) {set : String → Node → σ → Decode.Result σ} {empty : σ}
    {entries : Entries} {node : Node} (hclean : rulePart path key valid entries = [])
    (hf : find? key entries = some node) (htag : hasTag node = false) {result : Option σ}
    (h : Decode.optional (record .loose name valid set empty) node = .ok result) :
    Decode.optional (record .plain name valid set empty) node = .ok result := by
  rw [rulePart, field, hf] at hclean
  cases node with
  | map inner =>
    obtain ⟨hkeys, -⟩ := List.append_eq_nil_iff.mp hclean
    obtain ⟨x, hx, rfl⟩ := Script.map_eq_ok.mp h
    refine Script.map_eq_ok.mpr ⟨x, ?_, rfl⟩
    exact fields_plain_of_loose hwords (keyName_mem_of_keys hkeys) htag
      (fun _ _ _ _ _ _ hset => hset) hx
  | null | bool | int | float | str | seq | tagged => cases hclean

theorem setRichRule_plain {key : String}
    (hkey : key ∉ ["log", "forward_port", "source_port"]) (node : Node) (rule : RichRule) :
    setRichRule .plain key node rule = setRichRule .loose key node rule := by
  unfold setRichRule
  split <;> first | rfl | exact absurd (by simp) hkey

theorem plain_of_richRule {path : String} {entries : Entries}
    (hclean : richRule path (.map entries) = []) (htag : hasTag (.map entries) = false)
    {rule : RichRule} (h : Decode.richRule .loose (.map entries) = .ok rule) :
    Decode.richRule .plain (.map entries) = .ok rule := by
  simp only [richRule, List.append_eq_nil_iff] at hclean
  obtain ⟨⟨⟨⟨⟨⟨⟨⟨hkeys, -⟩, -⟩, -⟩, hlog⟩, hforward⟩, hsource⟩, -⟩, -⟩ := hclean
  refine fields_plain_of_loose (by decide) (keyName_mem_of_keys hkeys) htag ?_ h
  intro key _ value hf rule result hset
  have hvalue := hasTag_of_find? hf htag
  by_cases hkey : key ∈ ["log", "forward_port", "source_port"]
  · simp only [List.mem_cons, List.not_mem_nil, or_false] at hkey
    rcases hkey with rfl | rfl | rfl
    · obtain ⟨x, hx, rfl⟩ := Script.map_eq_ok.mp hset
      exact Script.map_eq_ok.mpr ⟨x, plain_of_rulePart (by decide) hlog hf hvalue hx, rfl⟩
    · obtain ⟨x, hx, rfl⟩ := Script.map_eq_ok.mp hset
      exact Script.map_eq_ok.mpr ⟨x, plain_of_rulePart (by decide) hforward hf hvalue hx, rfl⟩
    · obtain ⟨x, hx, rfl⟩ := Script.map_eq_ok.mp hset
      exact Script.map_eq_ok.mpr ⟨x, plain_of_rulePart (by decide) hsource hf hvalue hx, rfl⟩
  · rwa [setRichRule_plain hkey]

theorem ruleValues_of_richRule {path : String} {entries : Entries}
    (hclean : richRule path (.map entries) = []) (htag : hasTag (.map entries) = false)
    {rule : RichRule} (h : Decode.richRule .loose (.map entries) = .ok rule) :
    ruleValues path rule = [] := by
  have hplain := plain_of_richRule hclean htag h
  simp only [richRule, List.append_eq_nil_iff] at hclean
  simpa [hplain, Except.toOption] using hclean.2

theorem value_eq_nil {path text : String} {check : String → Lexical.Result Unit}
    (h : value path check text = []) : isTemplated text = true ∨ check text = .ok () := by
  rw [value] at h
  split at h
  · exact .inl ‹_›
  · split at h
    · exact .inr ‹_›
    · cases h

theorem action_of_ruleValues {path : String} {rule : RichRule} (h : ruleValues path rule = []) :
    ∀ action ∈ rule.action,
      isTemplated action = true ∨ action ∈ RuleAction.all.map RuleAction.name := by
  intro action haction
  simp only [ruleValues, List.append_eq_nil_iff] at h
  obtain ⟨⟨⟨-, hvalue⟩, -⟩, -⟩ := h
  rw [ruleValue, haction] at hvalue
  refine (value_eq_nil hvalue).imp_right fun hok => ?_
  rw [Lexical.action, Lexical.word] at hok
  split at hok
  · rename_i found hfound
    exact List.mem_map.mpr ⟨found, RuleAction.naming.mem_all found, RuleAction.naming.name_of_find? hfound⟩
  · cases hok

end Finding

namespace RichRule

/-! ## Rules that their texts give back -/

/-- The rule as its text can say it: it repeats for nothing, and a port has a protocol. -/
def spoken (rule : RichRule) : RichRule :=
  { rule with
    loop := none
    protocol := if rule.port.isSome then some (rule.protocol.getD PortProtocol.standard.name)
      else rule.protocol }

theorem text_spoken (rule : RichRule) : rule.spoken.text = rule.text := by
  have helement : elementClause rule.spoken = elementClause rule := by
    cases hport : rule.port <;> simp [elementClause, spoken, hport]
  simp only [text, helement]
  rfl

theorem elements_spoken (rule : RichRule) : rule.spoken.elements = rule.elements := by
  cases hport : rule.port <;> simp [elements, spoken, hport]

theorem verbatim_spoken {rule : RichRule} (h : Verbatim rule.strings) :
    Verbatim rule.spoken.strings := by
  have hprotocol : Verbatim rule.protocol.toList → Verbatim rule.spoken.protocol.toList := by
    intro hprotocol
    rw [spoken]
    split
    · exact verbatim_getD hprotocol (by decide)
    · exact hprotocol
  simp only [strings, elementStrings, verbatim_append] at h ⊢
  tauto

/-- Each part of the rule has a place in its text. -/
@[mk_iff]
structure FitsText (rule : RichRule) : Prop where
  element : rule.elements.count true ≤ 1
  sourceInvert : rule.sourceInvert → rule.source.isSome
  destinationInvert : rule.destinationInvert → rule.destination.isSome
  rejectType : rule.rejectType.isSome → rule.action = some "reject"
  markSet : rule.markSet.isSome → rule.action = some "mark"
  action : ∀ action ∈ rule.action, Finding.isTemplated action = false

instance (rule : RichRule) : Decidable rule.FitsText :=
  decidable_of_iff' _ rule.fitsText_iff

theorem isSpoken_spoken_iff {rule : RichRule}
    (haction : ∀ action ∈ rule.action,
      Finding.isTemplated action = true ∨ action ∈ RuleAction.all.map RuleAction.name) :
    rule.spoken.IsSpoken ↔ rule.FitsText := by
  have hliteral : ∀ action ∈ RuleAction.all.map RuleAction.name,
      Finding.isTemplated action = false := by
    decide
  constructor
  · intro h
    exact ⟨elements_spoken rule ▸ h.element, h.sourceInvert, h.destinationInvert, h.rejectType,
      h.markSet, fun action ha => hliteral action (h.action action ha)⟩
  · intro h
    exact
      { loop := rfl
        element := (elements_spoken rule).symm ▸ h.element
        protocol := fun hport => by simp_all [spoken]
        sourceInvert := h.sourceInvert
        destinationInvert := h.destinationInvert
        rejectType := h.rejectType
        markSet := h.markSet
        action := fun action ha => (haction action ha).resolve_left (by simp [h.action action ha]) }

/-- **Rules without a finding.** A rule in which the checker finds nothing is read. If its texts stand
for themselves between double quotes, its own text gives back all of it, but for the list that it
repeats for and a protocol that it leaves out, exactly if each part of it has a place there. -/
theorem ofTextRest_text_of_checked {path : String} {entries : Entries}
    (hclean : Finding.richRule path (.map entries) = []) :
    ((Node.map entries).IsJson → ∃ rule, shaped "Repr" richRuleItem? (.map entries) = .ok rule) ∧
      ∀ rule, shaped "Repr" richRuleItem? (.map entries) = .ok rule → Verbatim rule.strings →
        (ofTextRest rule.text = (rule.spoken, none) ↔ rule.FitsText) := by
  constructor
  · intro hjson
    exact Finding.answersFor_richRule path _ hjson (by simp [hclean, Finding.Quiet])
  · intro rule hrule hstrings
    rw [shaped] at hrule
    split at hrule
    · cases hrule
    · rename_i htag
      cases hread : Decode.richRule .loose (.map entries) with
      | error e => simp [richRuleItem?, hread, Except.toOption] at hrule
      | ok read =>
        obtain rfl : read = rule := by simpa [richRuleItem?, hread, Except.toOption] using hrule
        have hvalues := Finding.ruleValues_of_richRule hclean (by simpa using htag) hread
        rw [← text_spoken, ofTextRest_text_iff (verbatim_spoken hstrings)]
        exact isSpoken_spoken_iff (Finding.action_of_ruleValues hvalues)

/-- An inverted address, a port without a protocol, a log whose prefix has a backslash, and a list to
repeat for. -/
theorem ofTextRest_text_of_checked_reject :
    let entries := ofFields
      [("family", .str "ipv4"), ("source", .str "10.0.0.0/8"), ("source_invert", .bool true),
        ("port", .int 80), ("log", .map (ofFields [("prefix", .str "no \\d \x7b\x7bx\x7d\x7d")])),
        ("action", .str "reject"), ("reject_type", .str "tcp-reset"), ("loop", .str "xs")]
    let rule : RichRule :=
      { family := some "ipv4", source := some "10.0.0.0/8", sourceInvert := true, port := some "80"
        log := some { label := some "no \\d \x7b\x7bx\x7d\x7d" }, action := some "reject"
        rejectType := some "tcp-reset", loop := some "xs" }
    Finding.richRule "r" (.map entries) = [] ∧
      shaped "Repr" richRuleItem? (.map entries) = .ok rule ∧
      ofTextRest rule.text = ({ rule with protocol := some "tcp", loop := none }, none) := by
  intro entries rule
  have hclean : Finding.richRule "r" (.map entries) = [] := by decide +kernel
  have hread : shaped "Repr" richRuleItem? (.map entries) = .ok rule := by rfl
  refine ⟨hclean, hread, ?_⟩
  exact ((ofTextRest_text_of_checked hclean).2 rule hread (by decide +kernel)).mpr (by decide +kernel)

/-- A rule with two elements keeps the first, and a double quote in a name takes it apart; the checker
finds nothing in either. -/
theorem text_loses_parts :
    let both := ofFields [("service", .str "ssh"), ("port", .int 80), ("action", .str "accept")]
    let quoted := ofFields [("service", .str "a\"b"), ("action", .str "accept")]
    let rule : RichRule := { service := some "ssh", port := some "80", action := some "accept" }
    let broken : RichRule := { service := some "a\"b", action := some "accept" }
    (Finding.richRule "r" (.map both) = [] ∧ shaped "Repr" richRuleItem? (.map both) = .ok rule ∧
        ofTextRest rule.text = ({ service := some "ssh", action := some "accept" }, none)) ∧
      (Finding.richRule "r" (.map quoted) = [] ∧ shaped "Repr" richRuleItem? (.map quoted) = .ok broken ∧
        ofTextRest broken.text ≠ (broken.spoken, none)) := by
  intro both quoted rule broken
  refine ⟨⟨by decide +kernel, rfl, by decide +kernel⟩, by decide +kernel, rfl, by decide +kernel⟩

end RichRule

end ZoneScript
