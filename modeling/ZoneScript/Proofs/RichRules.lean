import Mathlib.Tactic.MkIffOfInductiveProp
import ZoneScript.Config.RichRuleText
import ZoneScript.Proofs.Words

/-!
# Rich rules that are read back

A rule with at most one element, in which nothing stands without what it belongs to, is read back from
its text. First the words that the text writes, then what the reader takes of them, clause by clause.
-/

namespace ZoneScript

open Shell

/-! ## Canonical rules -/

/-- Texts that need no backslash between double quotes. -/
def Blunt (texts : List String) : Prop :=
  ∀ s ∈ texts, ∀ c ∈ s.toList, c ≠ '"' ∧ c ≠ '\\'

instance (texts : List String) : Decidable (Blunt texts) :=
  decidable_of_iff (texts.all fun s => s.toList.all fun c => c != '"' && c != '\\')
    (by simp [Blunt])

/-- Texts that stand for themselves between double quotes. -/
def Verbatim (texts : List String) : Prop :=
  ∀ s ∈ texts, isVerbatim s.toList = true

instance (texts : List String) : Decidable (Verbatim texts) :=
  decidable_of_iff (texts.all fun s => isVerbatim s.toList) (by simp [Verbatim])

theorem verbatim_append {ss ts : List String} : Verbatim (ss ++ ts) ↔ Verbatim ss ∧ Verbatim ts :=
  List.forall_mem_append

theorem verbatim_cons {s : String} {ts : List String} :
    Verbatim (s :: ts) ↔ Verbatim [s] ∧ Verbatim ts :=
  @verbatim_append [s] ts

theorem Blunt.verbatim {texts : List String} (h : Blunt texts) : Verbatim texts :=
  fun s hs => isVerbatim_of_ne (h s hs)

def RichForwardPort.strings (forward : RichForwardPort) : List String :=
  forward.port :: forward.protocol :: (forward.toPort.toList ++ forward.toAddr.toList)

def RichSourcePort.strings (source : RichSourcePort) : List String :=
  [source.port, source.protocol]

def RichLog.strings (log : RichLog) : List String :=
  log.label.toList ++ log.level.toList ++ log.limit.toList

namespace RichRule

/-- The texts in the elements of a rule. -/
def elementStrings (rule : RichRule) : List String :=
  rule.service.toList ++ rule.port.toList ++ rule.protocol.toList ++ rule.icmpBlock.toList
    ++ rule.icmpType.toList ++ rule.forwardPort.toList.flatMap RichForwardPort.strings
    ++ rule.sourcePort.toList.flatMap RichSourcePort.strings

/-- The texts in a rule. -/
def strings (rule : RichRule) : List String :=
  rule.family.toList ++ rule.source.toList ++ rule.destination.toList ++ elementStrings rule
    ++ rule.log.toList.flatMap RichLog.strings ++ rule.action.toList ++ rule.rejectType.toList
    ++ rule.markSet.toList

/-- Which elements a rule has; a port and its protocol are one. -/
def elements (rule : RichRule) : List Bool :=
  [rule.service.isSome, rule.port.isSome || rule.protocol.isSome, rule.icmpBlock.isSome,
    rule.icmpType.isSome, rule.masquerade, rule.forwardPort.isSome, rule.sourcePort.isSome]

/-- A rule that its text gives back. -/
@[mk_iff]
structure IsCanonical (rule : RichRule) : Prop where
  loop : rule.loop = none
  element : rule.elements.count true ≤ 1
  protocol : rule.port.isSome → rule.protocol.isSome
  sourceInvert : rule.sourceInvert → rule.source.isSome
  destinationInvert : rule.destinationInvert → rule.destination.isSome
  rejectType : rule.rejectType.isSome → rule.action = some "reject"
  markSet : rule.markSet.isSome → rule.action = some "mark"
  action : ∀ action ∈ rule.action, action ∈ RuleAction.all.map RuleAction.name
  blunt : Blunt rule.strings

instance (rule : RichRule) : Decidable rule.IsCanonical :=
  decidable_of_iff' _ rule.isCanonical_iff

/-- A rule whose words give it back. -/
structure IsSpoken (rule : RichRule) : Prop where
  loop : rule.loop = none
  element : rule.elements.count true ≤ 1
  protocol : rule.port.isSome → rule.protocol.isSome
  sourceInvert : rule.sourceInvert → rule.source.isSome
  destinationInvert : rule.destinationInvert → rule.destination.isSome
  rejectType : rule.rejectType.isSome → rule.action = some "reject"
  markSet : rule.markSet.isSome → rule.action = some "mark"
  action : ∀ action ∈ rule.action, action ∈ RuleAction.all.map RuleAction.name

theorem IsCanonical.isSpoken {rule : RichRule} (h : rule.IsCanonical) : rule.IsSpoken :=
  ⟨h.loop, h.element, h.protocol, h.sourceInvert, h.destinationInvert, h.rejectType, h.markSet,
    h.action⟩

/-! ## The words of a rule -/

def fieldWords (name : String) (value : Option String) : List String :=
  (value.map fun v => name ++ "=" ++ v).toList

def addressWords (name : String) (invert : Bool) : Option String → List String
  | none => []
  | some address => name :: ((if invert then ["not"] else []) ++ fieldWords "address" (some address))

/-- An element that a rule can have. -/
inductive Element where
  | service (name : String)
  | port (number transport : String)
  | protocol (name : String)
  | icmpBlock (name : String)
  | icmpType (name : String)
  | masquerade
  | forwardPort (forward : RichForwardPort)
  | sourcePort (source : RichSourcePort)

def Element.words : Element → List String
  | .service name => "service" :: fieldWords "name" (some name)
  | .port number transport =>
    "port" :: (fieldWords "port" (some number) ++ fieldWords "protocol" (some transport))
  | .protocol name => "protocol" :: fieldWords "value" (some name)
  | .icmpBlock name => "icmp-block" :: fieldWords "name" (some name)
  | .icmpType name => "icmp-type" :: fieldWords "name" (some name)
  | .masquerade => ["masquerade"]
  | .forwardPort forward =>
    "forward-port" :: (fieldWords "port" (some forward.port)
      ++ fieldWords "protocol" (some forward.protocol)
      ++ fieldWords "to-port" forward.toPort ++ fieldWords "to-addr" forward.toAddr)
  | .sourcePort source =>
    "source-port" :: (fieldWords "port" (some source.port)
      ++ fieldWords "protocol" (some source.protocol))

/-- The rule with the element in it. -/
def Element.into (rule : RichRule) : Element → RichRule
  | .service name => { rule with service := some name }
  | .port number transport => { rule with port := some number, protocol := some transport }
  | .protocol name => { rule with protocol := some name }
  | .icmpBlock name => { rule with icmpBlock := some name }
  | .icmpType name => { rule with icmpType := some name }
  | .masquerade => { rule with masquerade := true }
  | .forwardPort forward => { rule with forwardPort := some forward }
  | .sourcePort source => { rule with sourcePort := some source }

/-- The element that the text of a rule has. -/
def element? (rule : RichRule) : Option Element :=
  match rule.service with
  | some name => some (.service name)
  | none =>
  match rule.port with
  | some number => some (.port number (rule.protocol.getD PortProtocol.standard.name))
  | none =>
  match rule.protocol with
  | some name => some (.protocol name)
  | none =>
  match rule.icmpBlock with
  | some name => some (.icmpBlock name)
  | none =>
  match rule.icmpType with
  | some name => some (.icmpType name)
  | none =>
  if rule.masquerade then some .masquerade
  else match rule.forwardPort with
  | some forward => some (.forwardPort forward)
  | none => rule.sourcePort.map .sourcePort

def elementWords (rule : RichRule) : List String :=
  (rule.element?.map Element.words).getD []

def limitWords : Option String → List String
  | none => []
  | some limit => "limit" :: fieldWords "value" (some limit)

def logWords : Option RichLog → List String
  | none => []
  | some log =>
    "log" :: (fieldWords "prefix" log.label ++ fieldWords "level" log.level ++ limitWords log.limit)

def actionWords (rule : RichRule) : List String :=
  match rule.action with
  | none => []
  | some "reject" => "reject" :: fieldWords "type" rule.rejectType
  | some "mark" => "mark" :: fieldWords "set" rule.markSet
  | some action => [action]

/-- The words that the text of a rule writes, behind the first one. -/
def words (rule : RichRule) : List String :=
  fieldWords "family" rule.family ++ addressWords "source" rule.sourceInvert rule.source
    ++ addressWords "destination" rule.destinationInvert rule.destination
    ++ elementWords rule ++ logWords rule.log ++ (if rule.audit then ["audit"] else [])
    ++ actionWords rule

/-! ## Writing -/

theorem spells_field (name : String) (h : isFixed name.toList = true) {value : Option String}
    (hvalue : Verbatim value.toList) : Spells (field name value) (fieldWords name value) := by
  cases value with
  | none => exact spells_empty
  | some v =>
    have hquoted : Continues ('=' :: '"' :: (v.toList ++ ['"'])) ('=' :: v.toList) :=
      (continues_fixed (by decide : isFixed ['='] = true)).append
        (continues_double (hvalue v List.mem_cons_self))
    have hbegins : Begins (name ++ "=\"" ++ v ++ "\"").toList (name ++ "=" ++ v).toList := by
      simpa using (begins_fixed h).append hquoted
    simpa [field, fieldWords, String.append_assoc] using spells_word hbegins

theorem spells_field_some (name : String) (h : isFixed name.toList = true) {v : String}
    (hv : Verbatim [v]) : Spells (field name (some v)) (fieldWords name (some v)) :=
  spells_field name h hv

theorem spells_addressClause (name : String) (h : isFixed name.toList = true) (invert : Bool)
    {address : Option String} (haddress : Verbatim address.toList) :
    Spells (addressClause name invert address) (addressWords name invert address) := by
  cases address with
  | none => exact spells_empty
  | some v =>
    have hinvert : Spells (if invert then " not" else "") (if invert then ["not"] else []) := by
      cases invert with
      | false => exact spells_empty
      | true => exact spells_fixed "not" (by decide)
    have := ((spells_fixed name h).append hinvert).append
      (spells_field "address" (by decide) haddress)
    simpa [addressClause, addressWords] using this

theorem verbatim_getD {value : Option String} {s : String} (h : Verbatim value.toList)
    (hs : Verbatim [s]) : Verbatim [value.getD s] := by
  cases value with
  | none => exact hs
  | some v => exact h

theorem spells_elementClause {rule : RichRule} (h : Verbatim rule.elementStrings) :
    Spells (elementClause rule) (elementWords rule) := by
  simp only [elementStrings, verbatim_append] at h
  obtain ⟨⟨⟨⟨⟨⟨hservice, hport⟩, hprotocol⟩, hblock⟩, htype⟩, hforward⟩, hsource⟩ := h
  rw [elementClause, elementWords, element?]
  cases hs : rule.service with
  | some service =>
    rw [hs] at hservice
    exact (spells_fixed "service" (by decide)).append (spells_field "name" (by decide) hservice)
  | none =>
  cases hp : rule.port with
  | some port =>
    rw [hp] at hport
    have hprotocol := verbatim_getD hprotocol (by decide : Verbatim [PortProtocol.standard.name])
    exact ((spells_fixed "port" (by decide)).append (spells_field "port" (by decide) hport)).append
      (spells_field "protocol" (by decide) hprotocol)
  | none =>
  cases hr : rule.protocol with
  | some protocol =>
    rw [hr] at hprotocol
    exact (spells_fixed "protocol" (by decide)).append (spells_field "value" (by decide) hprotocol)
  | none =>
  cases hb : rule.icmpBlock with
  | some name =>
    rw [hb] at hblock
    exact (spells_fixed "icmp-block" (by decide)).append (spells_field "name" (by decide) hblock)
  | none =>
  cases ht : rule.icmpType with
  | some name =>
    rw [ht] at htype
    exact (spells_fixed "icmp-type" (by decide)).append (spells_field "name" (by decide) htype)
  | none =>
  cases rule.masquerade with
  | true => exact spells_fixed "masquerade" (by decide)
  | false =>
  cases hf : rule.forwardPort with
  | some forward =>
    simp only [hf, Option.toList_some, List.flatMap_singleton, RichForwardPort.strings] at hforward
    obtain ⟨hport, hrest⟩ := verbatim_cons.mp hforward
    obtain ⟨hprotocol, hrest⟩ := verbatim_cons.mp hrest
    obtain ⟨htoPort, htoAddr⟩ := verbatim_append.mp hrest
    exact ((((spells_fixed "forward-port" (by decide)).append
      (spells_field_some "port" (by decide) hport)).append
      (spells_field_some "protocol" (by decide) hprotocol)).append
      (spells_field "to-port" (by decide) htoPort)).append
      (spells_field "to-addr" (by decide) htoAddr)
  | none =>
  cases hp : rule.sourcePort with
  | some source =>
    simp only [hp, Option.toList_some, List.flatMap_singleton, RichSourcePort.strings] at hsource
    obtain ⟨hport, hprotocol⟩ := verbatim_cons.mp hsource
    exact ((spells_fixed "source-port" (by decide)).append
      (spells_field_some "port" (by decide) hport)).append
      (spells_field_some "protocol" (by decide) hprotocol)
  | none => exact spells_empty

theorem spells_logClause {log : Option RichLog} (h : Verbatim (log.toList.flatMap RichLog.strings)) :
    Spells (logClause log) (logWords log) := by
  cases log with
  | none => exact spells_empty
  | some log =>
    obtain ⟨label, level, limit⟩ := log
    simp only [Option.toList_some, List.flatMap_singleton, RichLog.strings, verbatim_append] at h
    obtain ⟨⟨hlabel, hlevel⟩, hlimit⟩ := h
    have hhead := ((spells_fixed "log" (by decide)).append
      (spells_field "prefix" (by decide) hlabel)).append (spells_field "level" (by decide) hlevel)
    cases limit with
    | none => simpa [logClause, logWords, limitWords] using hhead
    | some limit =>
      have htail := (spells_fixed "limit" (by decide)).append
        (spells_field "value" (by decide) hlimit)
      simpa [logClause, logWords, limitWords, String.append_assoc] using hhead.append htail

theorem spells_actionClause {rule : RichRule} (htype : Verbatim rule.rejectType.toList)
    (hset : Verbatim rule.markSet.toList)
    (haction : ∀ action ∈ rule.action, action ∈ RuleAction.all.map RuleAction.name) :
    Spells (actionClause rule) (actionWords rule) := by
  rw [actionClause, actionWords]
  cases ha : rule.action with
  | none => exact spells_empty
  | some action =>
    have hmem := haction action ha
    simp only [RuleAction.all, RuleAction.name, List.map_cons, List.map_nil, List.mem_cons,
      List.not_mem_nil, or_false] at hmem
    rcases hmem with rfl | rfl | rfl | rfl
    · exact spells_fixed "accept" (by decide)
    · exact spells_fixed "drop" (by decide)
    · exact (spells_fixed "reject" (by decide)).append (spells_field "type" (by decide) htype)
    · exact (spells_fixed "mark" (by decide)).append (spells_field "set" (by decide) hset)

theorem split_text {rule : RichRule}
    (haction : ∀ action ∈ rule.action, action ∈ RuleAction.all.map RuleAction.name)
    (hstrings : Verbatim rule.strings) : split (text rule) = .ok ("rule" :: words rule) := by
  simp only [strings, verbatim_append] at hstrings
  obtain ⟨⟨⟨⟨⟨⟨⟨hfamily, hsource⟩, hdestination⟩, helement⟩, hlog⟩, -⟩, htype⟩, hset⟩ := hstrings
  have haudit : Spells (if rule.audit then " audit" else "")
      (if rule.audit then ["audit"] else []) := by
    cases rule.audit with
    | false => exact spells_empty
    | true => exact spells_fixed "audit" (by decide)
  have := (((((((spells_field "family" (by decide) hfamily).append
    (spells_addressClause "source" (by decide) rule.sourceInvert hsource)).append
    (spells_addressClause "destination" (by decide) rule.destinationInvert hdestination)).append
    (spells_elementClause helement)).append (spells_logClause hlog)).append haudit).append
    (spells_actionClause htype hset haction))
  simpa [text, words, String.append_assoc] using split_spells (begins_fixed (by decide)) this

/-! ## Reading -/

/-- The list is empty or starts with one of these words. -/
def StartsIn (heads ws : List String) : Prop :=
  ∀ w ∈ ws.head?, w ∈ heads

theorem startsIn_nil (heads : List String) : StartsIn heads [] := by
  simp [StartsIn]

theorem startsIn_cons {heads : List String} {w : String} (h : w ∈ heads) (ws : List String) :
    StartsIn heads (w :: ws) := by
  simpa [StartsIn] using h

theorem StartsIn.append {heads vs ws : List String} (hv : StartsIn heads vs)
    (hw : StartsIn heads ws) : StartsIn heads (vs ++ ws) := by
  cases vs with
  | nil => exact hw
  | cons v vs => exact hv

theorem StartsIn.mono {heads more ws : List String} (h : StartsIn heads ws)
    (hsub : ∀ w ∈ heads, w ∈ more) : StartsIn more ws :=
  fun w hw => hsub w (h w hw)

theorem eat_self (word : String) (ws : List String) : eat word (word :: ws) = (true, ws) := by
  simp [eat]

theorem eat_other {heads ws : List String} (h : StartsIn heads ws) {word : String}
    (hword : word ∉ heads) : eat word ws = (false, ws) := by
  cases ws with
  | nil => rfl
  | cons w ws =>
    have hne : w ≠ word := by
      rintro rfl
      exact hword (h w rfl)
    simp [eat, hne]

/-- The value of a key does not come next. -/
def Lacks (key : String) (ws : List String) : Prop :=
  eatValue key ws = (none, ws)

theorem lacks_of_startsIn {key : String} {heads ws : List String} (h : StartsIn heads ws)
    (hkey : ∀ w ∈ heads, Text.dropHead? (key.toList ++ ['=']) w.toList = none) : Lacks key ws := by
  cases ws with
  | nil => rfl
  | cons w ws => simp [Lacks, eatValue, hkey w (h w rfl)]

theorem eatValue_field {key : String} {value : Option String} {ws : List String}
    (h : Lacks key ws) : eatValue key (fieldWords key value ++ ws) = (value, ws) := by
  cases value with
  | none => exact h
  | some v =>
    have hdrop : Text.dropHead? (key.toList ++ ['=']) (key.toList ++ '=' :: v.toList) =
        some v.toList := Text.dropHead?_eq_some.mpr (by simp)
    simp [fieldWords, eatValue, hdrop]

theorem eatValue_last (key : String) (value : Option String) :
    eatValue key (fieldWords key value) = (value, []) := by
  rw [← List.append_nil (fieldWords key value)]
  exact eatValue_field rfl

theorem lacks_field {key other : String} {value : Option String} {ws : List String}
    (h : ∀ v, Text.dropHead? (key.toList ++ ['=']) (other.toList ++ '=' :: v) = none)
    (hws : Lacks key ws) : Lacks key (fieldWords other value ++ ws) := by
  cases value with
  | none => exact hws
  | some v => simp [fieldWords, Lacks, eatValue, h v.toList]

theorem eatAddress_words {name : String} {invert : Bool} {address : Option String}
    {heads ws : List String} (h : StartsIn heads ws) (hname : name ∉ heads)
    (hkey : ∀ w ∈ heads, Text.dropHead? ("address".toList ++ ['=']) w.toList = none)
    (hinvert : invert → address.isSome) :
    eatAddress name (addressWords name invert address ++ ws) = ((invert, address), ws) := by
  cases address with
  | none =>
    have : invert = false := by simpa using hinvert
    rw [addressWords, List.nil_append, eatAddress, eat_other h hname, this]
  | some v =>
    have hnot : eat "not" ((if invert then ["not"] else []) ++ (fieldWords "address" (some v) ++ ws)) =
        (invert, fieldWords "address" (some v) ++ ws) := by
      cases invert with
      | true => exact eat_self _ _
      | false =>
        have hne : "address=" ++ v ≠ "not" := by
          intro heq
          have := congrArg String.toList heq
          simp at this
        simp [fieldWords, eat, hne]
    simp only [addressWords, List.cons_append, List.append_assoc, eatAddress, eat_self, hnot,
      eatValue_field (lacks_of_startsIn h hkey)]

/-! ## Clause by clause -/

def actionHeads : List String := ["accept", "drop", "reject", "mark"]

def logHeads : List String := "log" :: "audit" :: actionHeads

def elementHeads : List String :=
  ["service", "port", "protocol", "icmp-block", "icmp-type", "masquerade", "forward-port",
    "source-port"]

theorem startsIn_actionWords {rule : RichRule}
    (h : ∀ action ∈ rule.action, action ∈ RuleAction.all.map RuleAction.name) :
    StartsIn actionHeads (actionWords rule) := by
  rw [actionWords]
  cases ha : rule.action with
  | none => exact startsIn_nil _
  | some action =>
    have hmem := h action ha
    simp only [RuleAction.all, RuleAction.name, List.map_cons, List.map_nil, List.mem_cons,
      List.not_mem_nil, or_false] at hmem
    rcases hmem with rfl | rfl | rfl | rfl <;> exact startsIn_cons (by decide) _

theorem startsIn_addressWords (name : String) (invert : Bool) (address : Option String) :
    StartsIn [name] (addressWords name invert address) := by
  cases address with
  | none => exact startsIn_nil _
  | some address => exact startsIn_cons List.mem_cons_self _

theorem startsIn_logWords (log : Option RichLog) : StartsIn ["log"] (logWords log) := by
  cases log with
  | none => exact startsIn_nil _
  | some log => exact startsIn_cons List.mem_cons_self _

theorem startsIn_elementWords (rule : RichRule) : StartsIn elementHeads (elementWords rule) := by
  rw [elementWords]
  cases rule.element? with
  | none => exact startsIn_nil _
  | some element => cases element <;> exact startsIn_cons (by decide) _

theorem startsIn_limitWords (limit : Option String) : StartsIn ["limit"] (limitWords limit) := by
  cases limit with
  | none => exact startsIn_nil _
  | some limit => exact startsIn_cons (by decide) _

theorem eatLog_words (log : Option RichLog) {ws : List String}
    (h : StartsIn ("audit" :: actionHeads) ws) : eatLog (logWords log ++ ws) = (log, ws) := by
  cases log with
  | none =>
    rw [logWords, List.nil_append, eatLog, eat_other h (by decide)]
  | some log =>
    obtain ⟨label, level, limit⟩ := log
    have hlimit : StartsIn ("limit" :: "audit" :: actionHeads) (limitWords limit ++ ws) :=
      ((startsIn_limitWords limit).mono (by simp)).append (h.mono fun _ => List.mem_cons_of_mem _)
    have hlevel : Lacks "level" (limitWords limit ++ ws) := lacks_of_startsIn hlimit (by decide)
    have hlabel : Lacks "prefix" (fieldWords "level" level ++ (limitWords limit ++ ws)) :=
      lacks_field (fun _ => rfl) (lacks_of_startsIn hlimit (by decide))
    simp only [logWords, List.cons_append, List.append_assoc, eatLog, eat_self,
      eatValue_field hlabel, eatValue_field hlevel]
    cases limit with
    | none => rw [limitWords, List.nil_append, eat_other h (by decide)]
    | some limit =>
      have hvalue : Lacks "value" ws := lacks_of_startsIn h (by decide)
      simp only [limitWords, List.cons_append, eat_self, eatValue_field hvalue]

theorem eatPort_words {port protocol : String} {ws : List String} (h : Lacks "protocol" ws) :
    eatPort (fieldWords "port" (some port) ++ (fieldWords "protocol" (some protocol) ++ ws)) =
      ((port, protocol), ws) := by
  have hport : Lacks "port" (fieldWords "protocol" (some protocol) ++ ws) := by
    simp [Lacks, fieldWords, eatValue, Text.dropHead?]
  simp only [eatPort, eatValue_field hport, eatValue_field h, Option.getD_some]

theorem eatElement_other (rule : RichRule) {ws : List String} (h : StartsIn logHeads ws) :
    eatElement rule ws = (rule, ws) := by
  cases ws with
  | nil => rfl
  | cons w ws =>
    have hw := h w rfl
    simp only [logHeads, actionHeads, List.mem_cons, List.not_mem_nil, or_false] at hw
    rcases hw with rfl | rfl | rfl | rfl | rfl | rfl <;> rfl

theorem eatElement_words (rule : RichRule) (element : Element) {ws : List String}
    (h : StartsIn logHeads ws) :
    eatElement rule (element.words ++ ws) = (element.into rule, ws) := by
  have hlacks (key : String)
      (hkey : ∀ w ∈ logHeads, Text.dropHead? (key.toList ++ ['=']) w.toList = none) :
      Lacks key ws := lacks_of_startsIn h hkey
  have hname := hlacks "name" (by decide)
  have hvalue := hlacks "value" (by decide)
  have hprotocol := hlacks "protocol" (by decide)
  cases element with
  | service name | icmpBlock name | icmpType name =>
    simp [Element.words, Element.into, eatElement, eatValue_field hname]
  | protocol name => simp [Element.words, Element.into, eatElement, eatValue_field hvalue]
  | masquerade => rfl
  | port number transport | sourcePort source =>
    simp [Element.words, Element.into, eatElement, eatPort_words hprotocol]
  | forwardPort forward =>
    have haddr := hlacks "to-addr" (by decide)
    have hport : Lacks "to-port" (fieldWords "to-addr" forward.toAddr ++ ws) :=
      lacks_field (fun _ => rfl) (hlacks "to-port" (by decide))
    have hprotocol : Lacks "protocol"
        (fieldWords "to-port" forward.toPort ++ (fieldWords "to-addr" forward.toAddr ++ ws)) :=
      lacks_field (fun _ => rfl) (lacks_field (fun _ => rfl) hprotocol)
    simp [Element.words, Element.into, eatElement, eatPort_words hprotocol, eatValue_field hport,
      eatValue_field haddr]

/-- A rule up to its element. -/
def upToElement (rule : RichRule) : RichRule :=
  { rule with
    log := none, audit := false, action := none, rejectType := none, markSet := none, loop := none }

/-- A rule up to its addresses. -/
def upToAddresses (rule : RichRule) : RichRule :=
  { family := rule.family
    source := rule.source
    sourceInvert := rule.sourceInvert
    destination := rule.destination
    destinationInvert := rule.destinationInvert }

theorem element?_into {rule : RichRule} (hcount : rule.elements.count true ≤ 1)
    (hprotocol : rule.port.isSome → rule.protocol.isSome) :
    (rule.element?.map (Element.into rule.upToAddresses)).getD rule.upToAddresses =
      rule.upToElement := by
  -- field by field as `element?` looks for them: with the first that is there, the count is used up
  cases hs : rule.service with
  | some name =>
    simp [elements, hs, List.count_eq_zero] at hcount
    simp [element?, Element.into, upToAddresses, upToElement, hs, hcount]
  | none =>
  cases hr : rule.protocol with
  | some name =>
    simp [elements, hs, hr, List.count_eq_zero] at hcount
    cases hp : rule.port <;>
      simp [element?, Element.into, upToAddresses, upToElement, hs, hr, hp, hcount]
  | none =>
  have hp : rule.port = none := by simpa [hr] using hprotocol
  cases hb : rule.icmpBlock with
  | some name =>
    simp [elements, hs, hr, hp, hb, List.count_eq_zero] at hcount
    simp [element?, Element.into, upToAddresses, upToElement, hs, hr, hp, hb, hcount]
  | none =>
  cases ht : rule.icmpType with
  | some name =>
    simp [elements, hs, hr, hp, hb, ht, List.count_eq_zero] at hcount
    simp [element?, Element.into, upToAddresses, upToElement, hs, hr, hp, hb, ht, hcount]
  | none =>
  cases hm : rule.masquerade with
  | true =>
    simp [elements, hs, hr, hp, hb, ht, hm, List.count_eq_zero] at hcount
    simp [element?, Element.into, upToAddresses, upToElement, hs, hr, hp, hb, ht, hm, hcount]
  | false =>
  cases hf : rule.forwardPort with
  | some forward =>
    simp [elements, hs, hr, hp, hb, ht, hm, hf, List.count_eq_zero] at hcount
    simp [element?, Element.into, upToAddresses, upToElement, hs, hr, hp, hb, ht, hm, hf, hcount]
  | none =>
  cases ho : rule.sourcePort <;>
    simp [element?, Element.into, upToAddresses, upToElement, hs, hr, hp, hb, ht, hm, hf, ho]

theorem eatElement_elementWords {rule : RichRule} (h : rule.IsSpoken) {ws : List String}
    (hws : StartsIn logHeads ws) :
    eatElement rule.upToAddresses (elementWords rule ++ ws) = (rule.upToElement, ws) := by
  rw [← element?_into h.element h.protocol, elementWords]
  cases rule.element? with
  | none => exact eatElement_other _ hws
  | some element => exact eatElement_words _ element hws

theorem eatAction_words {rule : RichRule} (h : rule.IsSpoken) :
    eatAction { rule with action := none, rejectType := none, markSet := none } (actionWords rule) =
      (rule, []) := by
  have htype := h.rejectType
  have hset := h.markSet
  have haction := h.action
  clear h
  obtain ⟨family, source, sourceInvert, destination, destinationInvert, service, port, protocol,
    icmpBlock, icmpType, masquerade, forwardPort, sourcePort, log, audit, action, rejectType,
    markSet, loop⟩ := rule
  cases action with
  | none =>
    obtain rfl : rejectType = none := by simpa using htype
    obtain rfl : markSet = none := by simpa using hset
    rfl
  | some action =>
    have hmem := haction action rfl
    simp only [RuleAction.all, RuleAction.name, List.map_cons, List.map_nil, List.mem_cons,
      List.not_mem_nil, or_false] at hmem
    rcases hmem with rfl | rfl | rfl | rfl
    · obtain rfl : rejectType = none := by simpa using htype
      obtain rfl : markSet = none := by simpa using hset
      rfl
    · obtain rfl : rejectType = none := by simpa using htype
      obtain rfl : markSet = none := by simpa using hset
      rfl
    · obtain rfl : markSet = none := by simpa using hset
      simp [actionWords, eatAction, eatValue_last]
    · obtain rfl : rejectType = none := by simpa using htype
      simp [actionWords, eatAction, eatValue_last]

theorem eat_audit (audit : Bool) {ws : List String} (h : StartsIn actionHeads ws) :
    eat "audit" ((if audit then ["audit"] else []) ++ ws) = (audit, ws) := by
  cases audit with
  | false => exact eat_other h (by decide)
  | true => exact eat_self _ _

theorem startsIn_audit (audit : Bool) {ws : List String} (h : StartsIn actionHeads ws) :
    StartsIn ("audit" :: actionHeads) ((if audit then ["audit"] else []) ++ ws) := by
  cases audit with
  | false => exact h.mono fun _ => List.mem_cons_of_mem _
  | true => exact startsIn_cons List.mem_cons_self _

theorem ofWords_words {rule : RichRule} (h : rule.IsSpoken) :
    ofWords ("rule" :: words rule) = (rule, []) := by
  have haction := startsIn_actionWords h.action
  have haudit := startsIn_audit rule.audit haction
  have hlog : StartsIn logHeads (logWords rule.log ++ _) :=
    ((startsIn_logWords rule.log).mono (by decide)).append (haudit.mono (by decide))
  have helement : StartsIn (elementHeads ++ logHeads) (elementWords rule ++ _) :=
    ((startsIn_elementWords rule).mono (by decide)).append (hlog.mono (by decide))
  have hdestination : StartsIn ("destination" :: (elementHeads ++ logHeads)) (_ ++ _) :=
    ((startsIn_addressWords "destination" rule.destinationInvert rule.destination).mono
      (by decide)).append (helement.mono (by decide))
  have hsource : StartsIn ("source" :: "destination" :: (elementHeads ++ logHeads)) (_ ++ _) :=
    ((startsIn_addressWords "source" rule.sourceInvert rule.source).mono (by decide)).append
      (hdestination.mono (by decide))
  have hfamily : Lacks "family" _ := lacks_of_startsIn hsource (by decide)
  have eatSource := eatAddress_words hdestination (by decide : "source" ∉ _) (by decide)
    h.sourceInvert
  have eatDestination := eatAddress_words helement (by decide : "destination" ∉ _) (by decide)
    h.destinationInvert
  have hrule : { rule.upToElement with log := rule.log, audit := rule.audit } =
      { rule with action := none, rejectType := none, markSet := none } := by
    simp [upToElement, h.loop]
  have eatElement := eatElement_elementWords h hlog
  rw [upToAddresses] at eatElement
  simp only [words, List.append_assoc, ofWords, eat_self, eatValue_field hfamily, eatSource,
    eatDestination, eatElement, eatLog_words rule.log haudit, eat_audit rule.audit haction]
  exact (congrArg (eatAction · (actionWords rule)) hrule).trans (eatAction_words h)

theorem ofTextRest_text {rule : RichRule} (h : rule.IsSpoken) (hstrings : Verbatim rule.strings) :
    ofTextRest rule.text = (rule, none) := by
  rw [ofTextRest, textWords, split_text h.action hstrings]
  simp only [ofWords_words h]
  rfl

end RichRule

end ZoneScript
