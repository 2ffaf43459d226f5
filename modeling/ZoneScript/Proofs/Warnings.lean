import ZoneScript.Compilation
import ZoneScript.Proofs.Silence
import ZoneScript.Proofs.VariableOrder

/-!
# One warning for each

An expansion warns of a name that nothing defines once in all, and of a list that stands for a single
value once at each place. Without a token of the name there is no warning.
-/

namespace ZoneScript

open Ordered

namespace Template

/-- A text stands at a place, with the rule groups and loops of the configuration written out. -/
inductive TextAt (config : Config) : String → String → Prop
  | zone {name text : String} {zone : Zone} (hzone : (name, zone) ∈ unrolledZones config)
      (htext : text ∈ texts zone) : TextAt config (Remark.zonePath name) text
  | direct {direct : Direct} {text : String} (hdirect : unrolledDirect config = some direct)
      (htext : text ∈ texts direct) : TextAt config directPath text

namespace Remark

variable {vars : List (String × Variable)}

/-! ## Remarks on texts -/

def isOnText : Remark → Bool
  | .noAnyAddress .. | .badLoop .. => false
  | _ => true

theorem isOnText_of_mem_ofGroups {remark : Remark} {index : Nat} {groups : List RuleGroup}
    (h : remark ∈ ofGroups index groups) : remark.isOnText = false := by
  induction groups generalizing index with
  | nil => cases h
  | cons group groups ih =>
    rcases List.mem_append.mp h with h | h
    · obtain ⟨ipv, -, rfl⟩ := List.mem_map.mp h
      rfl
    · exact ih h

theorem isOnText_of_mem_ofLoops {α : Type} [HasLoop α] {remark : Remark} {path : String} {index : Nat}
    {items : List α} (h : remark ∈ ofLoops vars path index items) : remark.isOnText = false := by
  induction items generalizing index with
  | nil => cases h
  | cons item items ih =>
    rcases List.mem_append.mp h with h | h
    · split at h
      · rw [List.mem_singleton.mp h]
        rfl
      · cases h
    · exact ih h

theorem isOnText_of_mem_ofZoneLoops {remark : Remark} {name : String} {zone : Zone}
    (h : remark ∈ ofZoneLoops vars name zone) : remark.isOnText = false := by
  simp only [ofZoneLoops, List.mem_append] at h
  rcases h with (((((((h | h) | h) | h) | h) | h) | h) | h) | h <;> exact isOnText_of_mem_ofLoops h

theorem isOnText_of_mem_ofDirectLoops {remark : Remark} {direct : Direct}
    (h : remark ∈ ofDirectLoops vars direct) : remark.isOnText = false :=
  (List.mem_append.mp h).elim isOnText_of_mem_ofLoops isOnText_of_mem_ofLoops

theorem mem_all_iff {config : Config} {remark : Remark} (h : remark.isOnText = true) :
    remark ∈ all config ↔
      ∃ path text, TextAt config path text ∧ remark ∈ ofText (resolve config.vars) path text := by
  constructor
  · intro hmem
    simp only [all, List.mem_append, List.mem_flatMap] at hmem
    rcases hmem with (((⟨d, -, hd⟩ | ⟨e, -, he⟩) | ⟨d, -, hd⟩) | ⟨e, he, htexts⟩) | ⟨d, hd, htexts⟩
    · simp [isOnText_of_mem_ofGroups hd] at h
    · simp [isOnText_of_mem_ofZoneLoops he] at h
    · simp [isOnText_of_mem_ofDirectLoops hd] at h
    · obtain ⟨text, htext, hremark⟩ := List.mem_flatMap.mp htexts
      exact ⟨_, text, .zone he htext, hremark⟩
    · obtain ⟨text, htext, hremark⟩ := List.mem_flatMap.mp htexts
      exact ⟨_, text, .direct (Option.mem_toList.mp hd) htext, hremark⟩
  · rintro ⟨path, text, htext, hremark⟩
    cases htext with
    | zone hzone htext =>
      have htexts := List.mem_flatMap.mpr ⟨text, htext, hremark⟩
      exact List.mem_append_left _ (List.mem_append_right _ (List.mem_flatMap.mpr ⟨_, hzone, htexts⟩))
    | direct hdirect htext =>
      have htexts := List.mem_flatMap.mpr ⟨text, htext, hremark⟩
      exact List.mem_append_right _ (List.mem_flatMap.mpr ⟨_, Option.mem_toList.mpr hdirect, htexts⟩)

theorem undefined_mem_ofText {path place name text : String} :
    .undefined place name ∈ ofText vars path text ↔
      place = path ∧ name ∈ tokenNames text ∧ find? name vars = none ∧ isReserved name = false := by
  simp only [ofText, List.mem_append, List.mem_map, List.mem_filter]
  constructor
  · rintro (((⟨n, ⟨⟨hn, hnone⟩, hreserved⟩, heq⟩ | ⟨n, -, heq⟩) | h) | h)
    · obtain ⟨rfl, rfl⟩ := Remark.undefined.inj heq
      exact ⟨rfl, hn, Option.isNone_iff_eq_none.mp hnone, by simpa using hreserved⟩
    · cases heq
    · split at h <;> simp at h
    · split at h <;> simp at h
  · rintro ⟨rfl, hmem, hnone, hreserved⟩
    exact .inl (.inl (.inl ⟨name, ⟨⟨hmem, by simp [hnone]⟩, by simp [hreserved]⟩, rfl⟩))

theorem listUsed_mem_ofText {path place name text : String} :
    .listUsed place name ∈ ofText vars path text ↔
      place = path ∧ name ∈ tokenNames text ∧ ∃ items, find? name vars = some (.list items) := by
  have hlist (n : String) : ((find? n vars).bind Variable.list?).isSome = true ↔
      ∃ items, find? n vars = some (.list items) := by
    cases find? n vars with
    | none => simp
    | some value => cases value <;> simp [Variable.list?]
  simp only [ofText, List.mem_append, List.mem_map, List.mem_filter, hlist]
  constructor
  · rintro (((⟨n, -, heq⟩ | ⟨n, ⟨hn, hitems⟩, heq⟩) | h) | h)
    · cases heq
    · obtain ⟨rfl, rfl⟩ := Remark.listUsed.inj heq
      exact ⟨rfl, hn, hitems⟩
    · split at h <;> simp at h
    · split at h <;> simp at h
  · rintro ⟨rfl, hmem, hitems⟩
    exact .inl (.inl (.inr ⟨name, ⟨hmem, hitems⟩, rfl⟩))

/-! ## Repetitions -/

theorem countP_withoutRepeated {p : Remark → Bool}
    (hp : ∀ remark earlier, p remark = true → remark.isRepeated earlier = earlier.any p)
    (earlier remarks : List Remark) :
    (withoutRepeated earlier remarks).countP p =
      if earlier.any p = false ∧ remarks.any p = true then 1 else 0 := by
  induction remarks generalizing earlier with
  | nil => simp [withoutRepeated]
  | cons remark remarks ih =>
    rw [withoutRepeated]
    cases hremark : p remark with
    | false =>
      split
      · rw [ih, List.any_cons, hremark, Bool.false_or]
      · rw [List.countP_cons_of_neg (by simp [hremark]), ih, List.any_cons, List.any_cons, hremark,
          Bool.false_or, Bool.false_or]
    | true =>
      rw [hp remark earlier hremark]
      cases hearlier : earlier.any p with
      | true => rw [if_pos rfl, ih, hearlier]; simp
      | false =>
        rw [if_neg Bool.false_ne_true, List.countP_cons_of_pos hremark, ih, List.any_cons,
          List.any_cons, hremark]
        simp

def isUndefined (name : String) : Remark → Bool
  | .undefined _ other => other == name
  | _ => false

theorem countP_isUndefined (name : String) (remarks : List Remark) :
    (withoutRepeated [] remarks).countP (isUndefined name) =
      if remarks.any (isUndefined name) then 1 else 0 := by
  have hrepeated (remark : Remark) (earlier : List Remark) (h : isUndefined name remark = true) :
      remark.isRepeated earlier = earlier.any (isUndefined name) := by
    cases remark with
    | undefined path other =>
      obtain rfl : other = name := by simpa [isUndefined] using h
      refine congrArg earlier.any (funext fun r => ?_)
      cases r <;> rfl
    | _ => cases h
  simpa using countP_withoutRepeated hrepeated [] remarks

theorem countP_listUsed (path name : String) (remarks : List Remark) :
    (withoutRepeated [] remarks).countP (· == .listUsed path name) =
      if remarks.any (· == .listUsed path name) then 1 else 0 := by
  have hrepeated (remark : Remark) (earlier : List Remark) (h : (remark == .listUsed path name) = true) :
      remark.isRepeated earlier = earlier.any (· == .listUsed path name) := by
    obtain rfl := eq_of_beq h
    exact List.any_beq'.symm
  simpa using countP_withoutRepeated hrepeated [] remarks

/-! ## Keys -/

def keyOf (kind text : String) : String :=
  kind ++ ":" ++ text

/-- What a remark is known by once it is made. A remark without a key is made each time. -/
def key? : Remark → Option String
  | .noAnyAddress .. | .badLoop .. => none
  | .undefined _ name => some (keyOf "missing" name)
  | .listUsed path name => some (keyOf "list" (keyOf name path))
  | .strayItem path => some (keyOf "item" path)
  | .strayAny path => some (keyOf "any" path)

/-- The keys that become known with a remark. -/
def keysAfter : Remark → List String
  -- what a group says of an address need not be said again of the direct block
  | .noAnyAddress .. => [keyOf "any" directPath]
  | remark => remark.key?.toList

/-- The remarks that are made one after the other, with the keys that are known. -/
def made (known : List String) : List Remark → List Remark
  | [] => []
  | remark :: remarks =>
    if remark.key?.any known.contains then made known remarks
    else remark :: made (remark.keysAfter ++ known) remarks

/-- No colon is in the name of the remark. -/
def IsPlain : Remark → Prop
  | .undefined _ name | .listUsed _ name => ':' ∉ name.toList
  | _ => True

theorem keyOf_inj {kind other text more : String} (h : ':' ∉ kind.toList) (k : ':' ∉ other.toList) :
    keyOf kind text = keyOf other more ↔ kind = other ∧ text = more := by
  refine ⟨fun heq => ?_, by rintro ⟨rfl, rfl⟩; rfl⟩
  have hcut {kind : String} (text : String) (h : ':' ∉ kind.toList) :
      Text.splitFirst ':' (keyOf kind text).toList = some (kind.toList, text.toList) :=
    Text.splitFirst_eq_some.mpr ⟨by simp [keyOf], h⟩
  have hpair := hcut text h
  rw [heq, hcut more k] at hpair
  simpa [String.toList_inj, eq_comm] using hpair

theorem isRepeated_singleton {remark earlier : Remark} (h : remark.IsPlain) (k : earlier.IsPlain) :
    remark.isRepeated [earlier] = remark.key?.any earlier.keysAfter.contains := by
  cases remark with
  | noAnyAddress | badLoop => rfl
  | undefined path name =>
    cases earlier <;> simp (disch := decide) [isRepeated, key?, keysAfter, keyOf_inj]
    exact Bool.beq_comm
  | listUsed path name =>
    cases earlier <;> simp (disch := decide) [isRepeated, key?, keysAfter, keyOf_inj]
    rw [decide_eq_decide.mpr (keyOf_inj h k), Bool.decide_and, Bool.and_comm]
  | strayItem path =>
    cases earlier <;> simp (disch := decide) [isRepeated, key?, keysAfter, keyOf_inj]
  | strayAny path =>
    cases earlier <;> simp (disch := decide) [isRepeated, key?, keysAfter, keyOf_inj]
    · rfl
    · exact Bool.beq_comm

theorem isRepeated_eq_any (remark : Remark) (earlier : List Remark) :
    remark.isRepeated earlier = earlier.any fun e => remark.isRepeated [e] := by
  induction earlier with
  | nil => cases remark <;> rfl
  | cons e es ih =>
    rw [List.any_cons, ← ih]
    cases remark <;> simp [isRepeated]

theorem made_eq_withoutRepeated {earlier remarks : List Remark} (h : ∀ remark ∈ remarks, remark.IsPlain)
    (k : ∀ remark ∈ earlier, remark.IsPlain) :
    made (earlier.flatMap keysAfter) remarks = withoutRepeated earlier remarks := by
  induction remarks generalizing earlier with
  | nil => rfl
  | cons remark remarks ih =>
    obtain ⟨hremark, hremarks⟩ := List.forall_mem_cons.mp h
    have hknown : remark.key?.any (earlier.flatMap keysAfter).contains = remark.isRepeated earlier := by
      rw [isRepeated_eq_any, Bool.eq_iff_iff, Option.any_eq_true, List.any_eq_true]
      constructor
      · rintro ⟨key, hkey, hmem⟩
        obtain ⟨e, he, hmem⟩ := List.mem_flatMap.mp (List.contains_iff_mem.mp hmem)
        rw [← List.contains_iff_mem] at hmem
        exact ⟨e, he, by simpa [isRepeated_singleton hremark (k e he), hkey] using hmem⟩
      · rintro ⟨e, he, hrepeated⟩
        rw [isRepeated_singleton hremark (k e he), Option.any_eq_true] at hrepeated
        obtain ⟨key, hkey, hmem⟩ := hrepeated
        have hmem := List.mem_flatMap.mpr ⟨e, he, List.contains_iff_mem.mp hmem⟩
        exact ⟨key, hkey, List.contains_iff_mem.mpr hmem⟩
    rw [made, withoutRepeated, hknown, ih hremarks k, ← List.flatMap_cons,
      ih hremarks (List.forall_mem_cons.mpr ⟨hremark, k⟩)]

theorem isPlain_of_mem_all {config : Config} {remark : Remark} (h : remark ∈ all config) :
    remark.IsPlain := by
  have hname {name text : String} (h : name ∈ tokenNames text) : ':' ∉ name.toList := by
    obtain ⟨written, htoken, -⟩ := mem_tokenNames.mp h
    cases htoken with
    | spaced _ hname _ => exact fun hmem => absurd (all_isNameChar_of_isName hname _ hmem) (by decide)
  cases remark with
  | undefined path name =>
    obtain ⟨_, _, -, hremark⟩ := (mem_all_iff rfl).mp h
    exact hname (undefined_mem_ofText.mp hremark).2.1
  | listUsed path name =>
    obtain ⟨_, _, -, hremark⟩ := (mem_all_iff rfl).mp h
    exact hname (listUsed_mem_ofText.mp hremark).2.1
  | _ => trivial

theorem made_all (config : Config) : made [] (all config) = withoutRepeated [] (all config) :=
  made_eq_withoutRepeated (fun _ => isPlain_of_mem_all) (List.forall_mem_nil _)

/-! ## Messages -/

/-- How the message of a remark begins. -/
def lead : Remark → List Char
  | .noAnyAddress .. => ['n', 'o']
  | .badLoop _ (.invalid _) => ['i', 'n']
  | .badLoop .. => ['l', 'o']
  | .undefined .. => ['v', 'a']
  | .listUsed .. => ['l', 'i']
  | .strayItem _ | .strayAny _ => ['\'', '\x7b']

theorem take_message (remark : Remark) : remark.message.toList.take 2 = remark.lead := by
  cases remark with
  | noAnyAddress _ ipv =>
    change ("no any-address literal for family '" ++ ipv ++ _).toList.take 2 = _
    simp [lead]
  | badLoop path error =>
    cases error with
    | invalid directive =>
      change ("invalid loop reference '" ++ directive ++ _).toList.take 2 = _
      simp [lead]
    | notList name =>
      change ("loop variable '" ++ name ++ _).toList.take 2 = _
      simp [lead]
    | undefined name =>
      change ("loop variable '" ++ name ++ _).toList.take 2 = _
      simp [lead]
  | undefined path name =>
    change ("variable '" ++ name ++ _).toList.take 2 = _
    simp [lead]
  | listUsed path name =>
    change ("list variable '" ++ name ++ _).toList.take 2 = _
    simp [lead]
  | strayItem path =>
    change ("'\x7b\x7bitem\x7d\x7d' used outside a loop").toList.take 2 = _
    simp [lead]
  | strayAny path =>
    change ("'\x7b\x7bany\x7d\x7d' only resolves inside direct.rule_groups").toList.take 2 = _
    simp [lead]

theorem message_undefined_iff {remark : Remark} {name : String} :
    remark.message = "variable '" ++ name ++ "' is not defined" ↔ isUndefined name remark = true := by
  constructor
  · intro h
    have hlead := take_message remark
    rw [h] at hlead
    cases remark with
    | undefined path other =>
      change "variable '" ++ other ++ _ = _ at h
      simpa [isUndefined] using h
    | badLoop path error => cases error <;> simp [lead] at hlead
    | _ => simp [lead] at hlead
  · intro h
    cases remark with
    | undefined path other =>
      obtain rfl : other = name := by simpa [isUndefined] using h
      rfl
    | _ => cases h

theorem message_listUsed_iff {remark : Remark} {path name : String} :
    remark.path = path ∧
        remark.message = "list variable '" ++ name ++ "' used where a single value is expected" ↔
      (remark == .listUsed path name) = true := by
  rw [beq_iff_eq]
  constructor
  · rintro ⟨rfl, h⟩
    have hlead := take_message remark
    rw [h] at hlead
    cases remark with
    | listUsed path other =>
      change "list variable '" ++ other ++ _ = _ at h
      obtain rfl : other = name := by simpa using h
      rfl
    | badLoop path error => cases error <;> simp [lead] at hlead
    | _ => simp [lead] at hlead
  · rintro rfl
    exact ⟨rfl, rfl⟩

theorem any_isUndefined {config : Config} {name : String} :
    (all config).any (isUndefined name) = true ↔
      isReserved name = false ∧ find? name (resolve config.vars) = none ∧
        ∃ path text, TextAt config path text ∧ HasTokenOf name text := by
  constructor
  · intro h
    obtain ⟨remark, hmem, hname⟩ := List.any_eq_true.mp h
    cases remark with
    | undefined place other =>
      obtain rfl : other = name := by simpa [isUndefined] using hname
      obtain ⟨path, text, htext, hremark⟩ := (mem_all_iff rfl).mp hmem
      obtain ⟨-, htoken, hnone, hreserved⟩ := undefined_mem_ofText.mp hremark
      exact ⟨hreserved, hnone, path, text, htext, mem_tokenNames.mp htoken⟩
    | _ => cases hname
  · rintro ⟨hreserved, hnone, path, text, htext, htoken⟩
    have hremark : .undefined path name ∈ ofText (resolve config.vars) path text :=
      undefined_mem_ofText.mpr ⟨rfl, mem_tokenNames.mpr htoken, hnone, hreserved⟩
    exact List.any_eq_true.mpr
      ⟨_, (mem_all_iff rfl).mpr ⟨path, text, htext, hremark⟩, by simp [isUndefined]⟩

theorem any_listUsed {config : Config} {path name : String} :
    (all config).any (· == .listUsed path name) = true ↔
      (∃ items, find? name (resolve config.vars) = some (.list items)) ∧
        ∃ text, TextAt config path text ∧ HasTokenOf name text := by
  rw [List.any_beq', List.contains_iff_mem, mem_all_iff rfl]
  constructor
  · rintro ⟨place, text, htext, hremark⟩
    obtain ⟨rfl, htoken, hitems⟩ := listUsed_mem_ofText.mp hremark
    exact ⟨hitems, text, htext, mem_tokenNames.mp htoken⟩
  · rintro ⟨hitems, text, htext, htoken⟩
    have hremark : .listUsed path name ∈ ofText (resolve config.vars) path text :=
      listUsed_mem_ofText.mpr ⟨rfl, mem_tokenNames.mpr htoken, hitems⟩
    exact ⟨path, text, htext, hremark⟩

end Remark

theorem find?_resolve (vars : List (String × Variable)) (name : String) :
    find? name (resolve vars) =
      if isReserved name then none else (find? name vars).map (resolveVariable vars) := by
  have hfind := find?_filter (fun n => !isReserved n) name vars
  rw [resolve_eq, resolvedIn, find?_mapValues, hfind]
  cases isReserved name <;> simp

end Template

open Template Remark

open scoped Classical in
/-- **One warning for each.** There is one warning of a name if no variable has it and it is not
reserved, and one of a list at a place, if a token of the name stands in some text, for the list in a
text of the place; else there is none. The variables are those of the configuration but for reserved
names, and the warnings those of a run that knows what it has made by texts as keys. -/
theorem Config.expansionWarnings_once (config : Config) (name : String) :
    let vars := (Expansion.ofConfig config).vars
    let warnings := (Expansion.ofConfig config).warnings
    warnings = (made [] (all config)).map Remark.diagnostic ∧
      find? name vars =
        (if isReserved name then none else (find? name config.vars).map (resolveVariable config.vars)) ∧
      (warnings.countP fun d => d.message = "variable '" ++ name ++ "' is not defined") =
        (if isReserved name = false ∧ find? name vars = none ∧
          ∃ path text, TextAt config path text ∧ HasTokenOf name text then 1 else 0) ∧
      ∀ path, (warnings.countP fun d => d.path = path ∧
          d.message = "list variable '" ++ name ++ "' used where a single value is expected") =
        (if (∃ items, find? name vars = some (.list items)) ∧
          ∃ text, TextAt config path text ∧ HasTokenOf name text then 1 else 0) := by
  intro vars warnings
  have hcount {p : Diagnostic → Bool} {q : Remark → Bool}
      (h : ∀ remark : Remark, p remark.diagnostic = true ↔ q remark = true) :
      warnings.countP p = (withoutRepeated [] (all config)).countP q :=
    List.countP_map.trans (List.countP_congr fun remark _ => h remark)
  refine ⟨by rw [made_all]; rfl, find?_resolve config.vars name, ?_, fun path => ?_⟩
  · rw [hcount fun _ => decide_eq_true_iff.trans message_undefined_iff, countP_isUndefined]
    exact if_congr any_isUndefined rfl rfl
  · rw [hcount fun _ => decide_eq_true_iff.trans message_listUsed_iff, countP_listUsed]
    exact if_congr any_listUsed rfl rfl

/-- An undefined name in two zones, a list in one of them and in a group, and a reserved name. -/
example :
    let unknown : ValueItem := { value := "\x7b\x7bx\x7d\x7d" }
    let list : ValueItem := { value := "\x7b\x7b l \x7d\x7d-\x7b\x7bl\x7d\x7d" }
    let group : RuleGroup :=
      { ipv := ["eb"], table := "\x7b\x7bl\x7d\x7d", rules := [{ args := "\x7b\x7bany\x7d\x7d" }] }
    let config : Config :=
      { vars := [("l", .list []), ("item", .list [])]
        zones := [("a", { services := [unknown, list, unknown] }),
          ("b", { target := some "\x7b\x7bitem\x7d\x7d", services := [unknown] })]
        direct := some { ruleGroups := [group] } }
    made [] (all config) =
      [.noAnyAddress 0 "eb", .undefined "zones.a" "x", .listUsed "zones.a" "l", .strayItem "zones.b",
        .listUsed "direct" "l"] := by
  decide +kernel

end ZoneScript
