import ZoneScript.Proofs.NormalForm

/-!
# Rich rules and their texts

Among the rules without double quotes and backslashes, the canonical ones are those that their texts
give back. The other way round, a text that is read to its end has all of its words in the text of the
rule, which may write out a default more, exactly if each word that asks for a value has it: the reader
takes such a word before it knows whether the value follows, and without it nothing of the word is left
in the rule.
-/

namespace ZoneScript

open Shell

namespace RichRule

/-! ## Rules that their texts give back -/

theorem action_eatElement (rule : RichRule) (ws : List String) :
    (eatElement rule ws).1.action = rule.action := by
  fun_cases eatElement rule ws <;> rfl

theorem action_eatAction {rule : RichRule} (h : rule.action = none) (ws : List String) :
    ∀ action ∈ (eatAction rule ws).1.action, action ∈ RuleAction.all.map RuleAction.name := by
  fun_cases eatAction rule ws <;> simp_all [RuleAction.all, RuleAction.name]

theorem action_ofText (text : String) :
    ∀ action ∈ (ofText text).action, action ∈ RuleAction.all.map RuleAction.name := by
  rw [ofText, ofTextRest, ofWords]
  dsimp only
  exact action_eatAction (action_eatElement _ _) _

/-- The rule with an address inverted only where there is one. -/
def upright (rule : RichRule) : RichRule :=
  { rule with
    sourceInvert := rule.sourceInvert && rule.source.isSome
    destinationInvert := rule.destinationInvert && rule.destination.isSome }

theorem text_upright (rule : RichRule) : rule.upright.text = rule.text := by
  have hclause (name : String) (invert : Bool) (address : Option String) :
      addressClause name (invert && address.isSome) address = addressClause name invert address := by
    cases address <;> simp [addressClause]
  simp only [text, upright, hclause]
  rfl

theorem ofTextRest_text_iff {rule : RichRule} (hstrings : Verbatim rule.strings) :
    ofTextRest rule.text = (rule, none) ↔ rule.IsSpoken := by
  refine ⟨fun h => ?_, fun h => ofTextRest_text h hstrings⟩
  have hrule : ofText rule.text = rule := congrArg Prod.fst h
  have hread := isRead_ofText rule.text
  have haction := action_ofText rule.text
  rw [hrule] at hread haction
  have hupright : rule.upright.IsSpoken :=
    { loop := hread.loop
      element := hread.element
      protocol := hread.protocol
      sourceInvert := fun h => (Bool.and_eq_true_iff.mp h).2
      destinationInvert := fun h => (Bool.and_eq_true_iff.mp h).2
      rejectType := hread.rejectType
      markSet := hread.markSet
      action := haction }
  have hback := ofTextRest_text hupright hstrings
  rw [text_upright, h] at hback
  obtain ⟨hsame, -⟩ := Prod.mk.inj hback
  rwa [← hsame] at hupright

/-- **Rules and their texts.** A rule is canonical if and only if it has no double quote and no
backslash and its own text gives it back, with nothing left unread. -/
theorem isCanonical_iff_ofTextRest (rule : RichRule) :
    rule.IsCanonical ↔ Blunt rule.strings ∧ ofTextRest rule.text = (rule, none) := by
  constructor
  · intro h
    exact ⟨h.blunt, ofTextRest_text h.isSpoken h.blunt.verbatim⟩
  · rintro ⟨hblunt, hback⟩
    have h := (ofTextRest_text_iff hblunt.verbatim).mp hback
    exact ⟨h.loop, h.element, h.protocol, h.sourceInvert, h.destinationInvert, h.rejectType,
      h.markSet, h.action, hblunt⟩

/-! ## Words that ask for a value -/

/-- The key of the value that a word asks for. -/
def valueKey? : String → Option String
  | "source" | "destination" => some "address"
  | "service" | "icmp-block" | "icmp-type" => some "name"
  | "protocol" | "limit" => some "value"
  | _ => none

/-- Whether the word has the value that it asks for behind it; an address may be inverted. -/
def hasValue (word : String) (ws : List String) : Bool :=
  match valueKey? word with
  | none => true
  | some key =>
    (eatValue key (if key == "address" then (eat "not" ws).2 else ws)).1.isSome

def isComplete : List String → Bool
  | [] => true
  | w :: ws => hasValue w ws && isComplete ws

theorem hasValue_of_none {word : String} (h : valueKey? word = none) (ws : List String) :
    hasValue word ws = true := by
  simp [hasValue, h]

theorem hasValue_of_ne {word key : String} (h : valueKey? word = some key) (hne : key ≠ "address")
    (ws : List String) : hasValue word ws = (eatValue key ws).1.isSome := by
  simp [hasValue, h, hne]

theorem valueKey?_field (key value : String) : valueKey? (key ++ "=" ++ value) = none := by
  have hmem : '=' ∈ (key ++ "=" ++ value).toList := by simp
  unfold valueKey?
  split <;> first | rfl | (rename_i heq; rw [heq] at hmem; exact absurd hmem (by decide))

/-! ## Defaults -/

/-- The words that the text of a rule has although the text it was read from may lack them: the first
one, and what a port is and how it is sent if nothing is said about it. -/
def defaultWords : List String :=
  "rule" :: (fieldWords "port" (some "") ++ fieldWords "protocol" (some PortProtocol.standard.name))

/-- The second list is the first one with default words put in. -/
inductive WithDefaults : List String → List String → Prop
  | nil : WithDefaults [] []
  | keep {ws out : List String} (word : String) :
    WithDefaults ws out → WithDefaults (word :: ws) (word :: out)
  | default {ws out : List String} {word : String} (h : word ∈ defaultWords) :
    WithDefaults ws out → WithDefaults ws (word :: out)

theorem WithDefaults.sublist {ws out : List String} (h : WithDefaults ws out) : ws.Sublist out := by
  induction h with
  | nil => exact List.Sublist.refl []
  | keep word _ ih => exact ih.cons_cons word
  | default _ _ ih => exact ih.cons _

theorem WithDefaults.append {ws ws' out out' : List String} (h : WithDefaults ws out)
    (h' : WithDefaults ws' out') : WithDefaults (ws ++ ws') (out ++ out') := by
  induction h with
  | nil => exact h'
  | keep word _ ih => exact ih.keep word
  | default hword _ ih => exact ih.default hword

def isOwn (word : String) : Bool :=
  !defaultWords.contains word

theorem WithDefaults.countP_isOwn {ws out : List String} (h : WithDefaults ws out) :
    out.countP isOwn = ws.countP isOwn := by
  induction h with
  | nil => rfl
  | keep word _ ih => rw [List.countP_cons, List.countP_cons, ih]
  | default hword _ ih => simpa [List.countP_cons, isOwn, hword] using ih

/-! ## What is taken and what is written -/

/-- The words up to `rest` were taken, and `out` is written for them: the same words with defaults put
in, or fewer words of its own, as the value of one was missing. -/
def Takes (ws rest out : List String) : Prop :=
  ∃ taken, ws = taken ++ rest ∧
    (WithDefaults taken out ∧ isComplete ws = isComplete rest ∨
      isComplete ws = false ∧ out.countP isOwn < taken.countP isOwn)

namespace Takes

variable {ws mid rest out out' : List String}

theorem refl (ws : List String) : Takes ws ws [] :=
  ⟨[], rfl, .inl ⟨.nil, rfl⟩⟩

theorem trans (h : Takes ws mid out) (h' : Takes mid rest out') : Takes ws rest (out ++ out') := by
  obtain ⟨taken, rfl, hout⟩ := h
  obtain ⟨taken', rfl, hout'⟩ := h'
  refine ⟨taken ++ taken', (List.append_assoc ..).symm, ?_⟩
  rw [List.countP_append, List.countP_append]
  rcases hout with ⟨hwith, hcomplete⟩ | ⟨hlost, hlt⟩
  · rcases hout' with ⟨hwith', hcomplete'⟩ | ⟨hlost', hlt'⟩
    · exact .inl ⟨hwith.append hwith', hcomplete.trans hcomplete'⟩
    · have := hwith.countP_isOwn
      exact .inr ⟨hcomplete.trans hlost', by omega⟩
  · -- what was lost in front is not made up for behind
    have hle : out'.countP isOwn ≤ taken'.countP isOwn :=
      hout'.elim (fun h => h.1.countP_isOwn.le) fun h => h.2.le
    exact .inr ⟨hlost, by omega⟩

theorem cons {word : String} (hvalue : hasValue word ws = true) (h : Takes ws rest out) :
    Takes (word :: ws) rest (word :: out) := by
  obtain ⟨taken, hws, hout⟩ := h
  have hcomplete : isComplete (word :: ws) = isComplete ws := by
    rw [isComplete, hvalue, Bool.true_and]
  refine ⟨word :: taken, by rw [hws, List.cons_append], ?_⟩
  rw [hcomplete, List.countP_cons, List.countP_cons]
  exact hout.imp (fun h => ⟨h.1.keep word, h.2⟩) fun h => ⟨h.1, by omega⟩

theorem default {word : String} (hword : word ∈ defaultWords) (h : Takes ws rest out) :
    Takes ws rest (word :: out) := by
  obtain ⟨taken, hws, hout⟩ := h
  refine ⟨taken, hws, hout.imp (fun h => ⟨h.1.default hword, h.2⟩) fun h => ⟨h.1, ?_⟩⟩
  simpa [List.countP_cons, isOwn, hword] using h.2

theorem lost {word : String} (taken : List String) (hown : isOwn word = true)
    (hvalue : hasValue word (taken ++ rest) = false) :
    Takes (word :: (taken ++ rest)) rest [] :=
  ⟨word :: taken, rfl, .inr ⟨by simp [isComplete, hvalue], by simp [hown]⟩⟩

theorem sublist_iff (h : Takes ws [] out) : ws.Sublist out ↔ isComplete ws = true := by
  obtain ⟨taken, rfl, hout⟩ := h
  rw [List.append_nil] at hout ⊢
  rcases hout with ⟨hwith, hcomplete⟩ | ⟨hlost, hlt⟩
  · exact iff_of_true hwith.sublist hcomplete
  · refine iff_of_false (fun hsub => ?_) (by simp [hlost])
    have := hsub.countP_le (p := isOwn)
    omega

theorem withDefaults (h : Takes ws [] out) (hcomplete : isComplete ws = true) :
    WithDefaults ws out := by
  obtain ⟨taken, rfl, hout⟩ := h
  rw [List.append_nil] at hout hcomplete ⊢
  rcases hout with ⟨hwith, -⟩ | ⟨hlost, -⟩
  · exact hwith
  · rw [hlost] at hcomplete
    cases hcomplete

end Takes

/-! ## Clause by clause -/

theorem eat_cases (word : String) (ws : List String) :
    eat word ws = (false, ws) ∨ ∃ rest, ws = word :: rest ∧ eat word ws = (true, rest) := by
  cases ws with
  | nil => exact .inl rfl
  | cons w ws =>
    by_cases h : w = word
    · subst h
      exact .inr ⟨ws, rfl, eat_self w ws⟩
    · exact .inl (by simp [eat, h])

theorem eatValue_cases (key : String) (ws : List String) :
    eatValue key ws = (none, ws) ∨
      ∃ value rest, ws = (key ++ "=" ++ value) :: rest ∧ eatValue key ws = (some value, rest) := by
  cases ws with
  | nil => exact .inl rfl
  | cons w ws =>
    rw [eatValue]
    cases h : Text.dropHead? (key.toList ++ ['=']) w.toList with
    | none => exact .inl rfl
    | some value =>
      have hw : w = key ++ "=" ++ .ofList value := by
        rw [← String.toList_inj, Text.dropHead?_eq_some.mp h]
        simp
      exact .inr ⟨.ofList value, ws, by rw [hw], rfl⟩

theorem takes_eat {word : String} (hword : valueKey? word = none) {ws rest : List String} {found : Bool}
    (h : eat word ws = (found, rest)) : Takes ws rest (if found then [word] else []) := by
  rcases eat_cases word ws with hnot | ⟨tail, rfl, hyes⟩
  · obtain ⟨rfl, rfl⟩ := Prod.mk.inj (hnot.symm.trans h)
    exact .refl ws
  · obtain ⟨rfl, rfl⟩ := Prod.mk.inj (hyes.symm.trans h)
    exact (Takes.refl tail).cons (hasValue_of_none hword tail)

theorem takes_first {ws rest : List String} {found : Bool} (h : eat "rule" ws = (found, rest)) :
    Takes ws rest ["rule"] := by
  have htakes := takes_eat rfl h
  cases found with
  | false => exact htakes.default List.mem_cons_self
  | true => exact htakes

theorem takes_eatValue {key : String} {ws rest : List String} {value : Option String}
    (h : eatValue key ws = (value, rest)) : Takes ws rest (fieldWords key value) := by
  rcases eatValue_cases key ws with hnone | ⟨v, tail, rfl, hsome⟩
  · obtain ⟨rfl, rfl⟩ := Prod.mk.inj (hnone.symm.trans h)
    exact .refl ws
  · obtain ⟨rfl, rfl⟩ := Prod.mk.inj (hsome.symm.trans h)
    exact (Takes.refl tail).cons (hasValue_of_none (valueKey?_field key v) tail)

theorem takes_eatValue_getD {key default : String}
    (hdefault : key ++ "=" ++ default ∈ defaultWords) {ws rest : List String} {value : Option String}
    (h : eatValue key ws = (value, rest)) :
    Takes ws rest (fieldWords key (some (value.getD default))) := by
  have htakes := takes_eatValue h
  cases value with
  | none => exact htakes.default hdefault
  | some v => exact htakes

theorem takes_eatPort {ws rest : List String} {port protocol : String}
    (h : eatPort ws = ((port, protocol), rest)) :
    Takes ws rest (fieldWords "port" (some port) ++ fieldWords "protocol" (some protocol)) := by
  obtain ⟨hpair, rfl⟩ := Prod.mk.inj h
  obtain ⟨rfl, rfl⟩ := Prod.mk.inj hpair
  exact (takes_eatValue_getD (by decide) rfl).trans (takes_eatValue_getD (by decide) rfl)

/-- A word with a value of its own. -/
def namedWords (word key : String) : Option String → List String
  | none => []
  | some value => word :: fieldWords key (some value)

theorem takes_named {word key : String} (hkey : valueKey? word = some key) (hne : key ≠ "address")
    (hown : isOwn word = true) {ws rest : List String} {value : Option String}
    (h : eatValue key ws = (value, rest)) : Takes (word :: ws) rest (namedWords word key value) := by
  have hvalue := hasValue_of_ne hkey hne ws
  rw [h] at hvalue
  cases value with
  | some v => exact (takes_eatValue h).cons hvalue
  | none =>
    -- nothing was taken behind the word, and the word is lost
    rcases eatValue_cases key ws with hnone | ⟨v, tail, -, hsome⟩
    · obtain ⟨-, rfl⟩ := Prod.mk.inj (hnone.symm.trans h)
      exact .lost [] hown hvalue
    · rw [h] at hsome
      cases hsome

theorem takes_eatAddress {name : String} (hkey : valueKey? name = some "address")
    (hown : isOwn name = true) {ws rest : List String} {invert : Bool} {address : Option String}
    (h : eatAddress name ws = ((invert, address), rest)) :
    Takes ws rest (addressWords name invert address) := by
  rw [eatAddress] at h
  rcases eat_cases name ws with hnot | ⟨tail, rfl, hyes⟩
  · rw [hnot] at h
    obtain ⟨hpair, rfl⟩ := Prod.mk.inj h
    obtain ⟨rfl, rfl⟩ := Prod.mk.inj hpair
    exact .refl ws
  · rw [hyes] at h
    dsimp only at h
    obtain ⟨hpair, hrest⟩ := Prod.mk.inj h
    obtain ⟨hinvert, haddress⟩ := Prod.mk.inj hpair
    have hnot : eat "not" tail = (invert, (eat "not" tail).2) := by rw [← hinvert]
    have hread : eatValue "address" (eat "not" tail).2 = (address, rest) := by
      rw [← haddress, ← hrest]
    have hvalue : hasValue name tail = address.isSome := by
      simp [hasValue, hkey, hread]
    have hbehind : Takes tail (eat "not" tail).2 (if invert then ["not"] else []) :=
      takes_eat (by decide) hnot
    cases address with
    | some a => exact (hbehind.trans (takes_eatValue hread)).cons hvalue
    | none =>
      -- the word is lost, and with it the inversion
      rcases eatValue_cases "address" (eat "not" tail).2 with hnone | ⟨v, _, -, hsome⟩
      · obtain ⟨-, hrest⟩ := Prod.mk.inj (hnone.symm.trans hread)
        obtain ⟨taken, htail, -⟩ := hbehind
        rw [hrest] at htail
        rw [htail] at hvalue ⊢
        exact .lost taken hown hvalue
      · rw [hread] at hsome
        cases hsome

theorem takes_eatLog {ws rest : List String} {log : Option RichLog} (h : eatLog ws = (log, rest)) :
    Takes ws rest (logWords log) := by
  rw [eatLog] at h
  rcases eat_cases "log" ws with hnot | ⟨tail, rfl, hyes⟩
  · rw [hnot] at h
    obtain ⟨rfl, rfl⟩ := Prod.mk.inj h
    exact .refl ws
  · rcases hlabel : eatValue "prefix" tail with ⟨label, ws₁⟩
    rcases hlevel : eatValue "level" ws₁ with ⟨level, ws₂⟩
    simp only [hyes, hlabel, hlevel] at h
    have hhead : Takes ("log" :: tail) ws₂
        ("log" :: (fieldWords "prefix" label ++ fieldWords "level" level)) :=
      ((takes_eatValue hlabel).trans (takes_eatValue hlevel)).cons (hasValue_of_none rfl tail)
    rcases eat_cases "limit" ws₂ with hnone | ⟨behind, rfl, hsome⟩
    · rw [hnone] at h
      obtain ⟨rfl, rfl⟩ := Prod.mk.inj h
      simpa [logWords, limitWords] using hhead
    · rcases hlimit : eatValue "value" behind with ⟨limit, ws₃⟩
      simp only [hsome, hlimit] at h
      obtain ⟨rfl, rfl⟩ := Prod.mk.inj h
      have hvalue : Takes ("limit" :: behind) ws₃ (namedWords "limit" "value" limit) :=
        takes_named rfl (by decide) (by decide) hlimit
      have hwords : namedWords "limit" "value" limit = limitWords limit := by cases limit <;> rfl
      simpa [logWords, hwords] using hhead.trans hvalue

theorem takes_eatElement (rule : RichRule) (hnone : rule.elements.count true = 0)
    (ws : List String) :
    Takes ws (eatElement rule ws).2 (elementWords (eatElement rule ws).1) := by
  -- as the rule has no element yet, none hides the one that is read
  obtain ⟨hservice, hport, hprotocol, hblock, htype, hmasquerade, hforward, hsource⟩ :=
    count_elements_eq_zero hnone
  have hempty : elementWords rule = [] := by
    simp [elementWords, element?, hservice, hport, hprotocol, hblock, htype, hmasquerade, hforward,
      hsource]
  fun_cases eatElement rule ws with
  | case1 | case10 =>
    rw [hempty]
    exact .refl _
  | case2 ws name rest hname =>
    have hwords : elementWords { rule with service := name } = namedWords "service" "name" name := by
      cases name <;> simp [elementWords, element?, Element.words, namedWords, hport, hprotocol, hblock,
        htype, hmasquerade, hforward, hsource]
    rw [hwords]
    exact takes_named rfl (by decide) (by decide) hname
  | case3 ws port protocol rest hpair =>
    simp only [elementWords, element?, hservice, Option.map_some, Option.getD_some, Element.words]
    exact (takes_eatPort hpair).cons (hasValue_of_none rfl ws)
  | case4 ws value rest hvalue =>
    have hwords : elementWords { rule with protocol := value } =
        namedWords "protocol" "value" value := by
      cases value <;> simp [elementWords, element?, Element.words, namedWords, hservice, hport, hblock,
        htype, hmasquerade, hforward, hsource]
    rw [hwords]
    exact takes_named rfl (by decide) (by decide) hvalue
  | case5 ws name rest hname =>
    have hwords : elementWords { rule with icmpBlock := name } =
        namedWords "icmp-block" "name" name := by
      cases name <;> simp [elementWords, element?, Element.words, namedWords, hservice, hport,
        hprotocol, htype, hmasquerade, hforward, hsource]
    rw [hwords]
    exact takes_named rfl (by decide) (by decide) hname
  | case6 ws name rest hname =>
    have hwords : elementWords { rule with icmpType := name } = namedWords "icmp-type" "name" name := by
      cases name <;> simp [elementWords, element?, Element.words, namedWords, hservice, hport,
        hprotocol, hblock, hmasquerade, hforward, hsource]
    rw [hwords]
    exact takes_named rfl (by decide) (by decide) hname
  | case7 ws =>
    simp only [elementWords, element?, hservice, hport, hprotocol, hblock, htype, if_true,
      Option.map_some, Option.getD_some, Element.words]
    exact (Takes.refl ws).cons (hasValue_of_none rfl ws)
  | case8 ws port protocol ws₁ hpair toPort ws₂ htoPort toAddr ws₃ htoAddr =>
    have hrest := ((takes_eatPort hpair).trans (takes_eatValue htoPort)).trans (takes_eatValue htoAddr)
    have hvalue : hasValue "forward-port" ws = true := hasValue_of_none rfl ws
    simpa [elementWords, element?, Element.words, hservice, hport, hprotocol, hblock, htype,
      hmasquerade] using hrest.cons hvalue
  | case9 ws port protocol rest hpair =>
    have hrest := takes_eatPort hpair
    have hvalue : hasValue "source-port" ws = true := hasValue_of_none rfl ws
    simpa [elementWords, element?, Element.words, hservice, hport, hprotocol, hblock, htype,
      hmasquerade, hforward] using hrest.cons hvalue

theorem takes_eatAction {rule : RichRule} (hnone : rule.action = none) (ws : List String) :
    Takes ws (eatAction rule ws).2 (actionWords (eatAction rule ws).1) := by
  have hempty : actionWords rule = [] := by rw [actionWords, hnone]
  fun_cases eatAction rule ws with
  | case1 | case6 =>
    rw [hempty]
    exact .refl _
  | case2 ws | case3 ws =>
    exact (Takes.refl ws).cons (hasValue_of_none rfl ws)
  | case4 ws type rest htype =>
    exact (takes_eatValue htype).cons (hasValue_of_none rfl ws)
  | case5 ws mark rest hmark =>
    exact (takes_eatValue hmark).cons (hasValue_of_none rfl ws)

/-! ## Whole texts -/

theorem words_eatAction (rule : RichRule) (ws : List String) :
    words (eatAction rule ws).1 =
      fieldWords "family" rule.family ++ addressWords "source" rule.sourceInvert rule.source
        ++ addressWords "destination" rule.destinationInvert rule.destination
        ++ elementWords rule ++ logWords rule.log ++ (if rule.audit then ["audit"] else [])
        ++ actionWords (eatAction rule ws).1 := by
  fun_cases eatAction rule ws <;> rfl

theorem upToAddresses_eatElement (rule : RichRule) (ws : List String) :
    (eatElement rule ws).1.upToAddresses = rule.upToAddresses := by
  fun_cases eatElement rule ws <;> rfl

theorem takes_ofWords (ws : List String) :
    Takes ws (ofWords ws).2 ("rule" :: words (ofWords ws).1) := by
  rcases hfirst : eat "rule" ws with ⟨first, ws₀⟩
  rcases hfamily : eatValue "family" ws₀ with ⟨family, ws₁⟩
  rcases hsource : eatAddress "source" ws₁ with ⟨⟨sourceInvert, source⟩, ws₂⟩
  rcases hdestination : eatAddress "destination" ws₂ with ⟨⟨destinationInvert, destination⟩, ws₃⟩
  set addresses : RichRule := { family, source, sourceInvert, destination, destinationInvert }
  have helement := takes_eatElement addresses rfl ws₃
  have haddresses := upToAddresses_eatElement addresses ws₃
  have hfront := action_eatElement addresses ws₃
  rcases hread : eatElement addresses ws₃ with ⟨front, ws₄⟩
  rcases hlog : eatLog ws₄ with ⟨log, ws₅⟩
  rcases haudit : eat "audit" ws₅ with ⟨audit, ws₆⟩
  rw [hread] at helement haddresses hfront
  have hrule : ofWords ws = eatAction { front with log, audit } ws₆ := by
    simp only [ofWords, hfirst, hfamily, hsource, hdestination, addresses] at hread ⊢
    simp only [hread, hlog, haudit]
  -- the log, the audit and the action do not touch the element
  have hnone : { front with log, audit }.action = none := hfront
  have helement : Takes ws₃ ws₄ (elementWords { front with log, audit }) := helement
  have htakes := (takes_first hfirst).trans <| (takes_eatValue hfamily).trans <|
    (takes_eatAddress rfl (by decide) hsource).trans <|
    (takes_eatAddress rfl (by decide) hdestination).trans <|
    helement.trans <| (takes_eatLog hlog).trans <| (takes_eat rfl haudit).trans <|
    takes_eatAction hnone ws₆
  simp only [upToAddresses, mk.injEq, addresses] at haddresses
  obtain ⟨rfl, rfl, rfl, rfl, rfl, -⟩ := haddresses
  rw [hrule, words_eatAction]
  simpa only [List.append_assoc, List.singleton_append] using htakes

/-- **Texts and their rules.** If a text is read to its end, its words are among the words of the rule,
in their order, exactly if each word that asks for a value has it; and then the words of the rule are
those of the text with defaults put in. The words of the rule are what its own text is cut into, if the
texts in it stand for themselves between double quotes. -/
theorem words_of_ofTextRest {text : String} {rule : RichRule} (h : ofTextRest text = (rule, none)) :
    ((textWords text).Sublist ("rule" :: words rule) ↔ isComplete (textWords text) = true) ∧
      (isComplete (textWords text) = true → WithDefaults (textWords text) ("rule" :: words rule)) ∧
      (Verbatim rule.strings → split rule.text = .ok ("rule" :: words rule)) := by
  have haction := action_ofText text
  have htakes := takes_ofWords (textWords text)
  have hrule : (ofWords (textWords text)).1 = rule := congrArg Prod.fst h
  have hrest : (ofWords (textWords text)).2.head? = none := congrArg Prod.snd h
  rw [hrule, List.head?_eq_none_iff.mp hrest] at htakes
  rw [ofText, h] at haction
  exact ⟨htakes.sublist_iff, htakes.withDefaults, split_text haction⟩

/-- No first word, an inverted address, a port without a number, and a quote that is not closed, so that
the words are those between white space. -/
theorem words_of_ofTextRest_open :
    let text := "destination not address=::/0 port protocol=udp log prefix=it's limit value=1/m reject"
    let rule : RichRule :=
      { destination := some "::/0", destinationInvert := true, port := some "", protocol := some "udp"
        log := some { label := some "it's", limit := some "1/m" }, action := some "reject" }
    ofTextRest text = (rule, none) ∧ isComplete (textWords text) = true ∧
      (textWords text).Sublist ("rule" :: words rule) ∧
      split rule.text = .ok
        ["rule", "destination", "not", "address=::/0", "port", "port=", "protocol=udp", "log",
          "prefix=it's", "limit", "value=1/m", "reject"] := by
  intro text rule
  have hread : ofTextRest text = (rule, none) := by decide +kernel
  have hcomplete : isComplete (textWords text) = true := by decide +kernel
  obtain ⟨hsublist, -, hsplit⟩ := words_of_ofTextRest hread
  exact ⟨hread, hcomplete, hsublist.mpr hcomplete, hsplit (by decide +kernel)⟩

/-- A source without an address is read to its end and leaves nothing, and a double quote in a value
leaves a quote open in the text of the rule. -/
theorem source_leaves_nothing :
    let rule : RichRule := { sourceInvert := true, action := some "accept" }
    let quoted : RichRule := { service := some "a\"b", action := some "accept" }
    ofTextRest "rule source not accept" = (rule, none) ∧ split rule.text = .ok ["rule", "accept"] ∧
      ¬ (textWords "rule source not accept").Sublist ["rule", "accept"] ∧
      ofTextRest "rule service name='a\"b' accept" = (quoted, none) ∧
      split quoted.text = .error .double := by
  decide +kernel

end RichRule

end ZoneScript
