import ZoneScript.Proofs.Arguments
import ZoneScript.Proofs.Lines
import ZoneScript.Proofs.Numbers
import ZoneScript.Proofs.References
import ZoneScript.Script.Read

/-!
# Commands that are read back

A change is written as one line, whose words are the flags and values it was made of. From these words
the reader gets the entry that the change is about.
-/

namespace ZoneScript

namespace Text

/-! ## Lines that end well -/

theorem trimEnd_of_closes {text : List Char} (h : Shell.Closes text) : trimEnd text = text := by
  obtain ⟨front, c, rfl, hspace, -⟩ := h
  induction front with
  | nil => simp [trimEnd, hspace]
  | cons d front ih =>
    rw [List.cons_append, trimEnd, ih]
    have hne : front ++ [c] ≠ [] := List.append_ne_nil_of_right_ne_nil front (List.cons_ne_nil c [])
    obtain ⟨e, es, he⟩ := List.exists_cons_of_ne_nil hne
    rw [he]

theorem trimEnd_ne_nil {c : Char} {cs : List Char} (h : c ∈ cs) (hspace : isSpace c = false) :
    trimEnd cs ≠ [] := by
  induction cs with
  | nil => cases h
  | cons d cs ih =>
    rw [trimEnd]
    rcases List.mem_cons.mp h with rfl | h
    · split <;> simp [hspace]
    · obtain ⟨e, es, he⟩ := List.exists_cons_of_ne_nil (ih h)
      simp [he]

theorem trimEnd_append {cs : List Char} (h : trimEnd cs ≠ []) (front : List Char) :
    trimEnd (front ++ cs) = front ++ trimEnd cs := by
  induction front with
  | nil => rfl
  | cons c front ih =>
    obtain ⟨d, ds, hd⟩ := List.exists_cons_of_ne_nil (List.append_ne_nil_of_right_ne_nil front h)
    rw [List.cons_append, trimEnd, ih, List.cons_append, hd]

theorem trimEnd_append_of_eq_nil {cs : List Char} (h : trimEnd cs = []) (front : List Char) :
    trimEnd (front ++ cs) = trimEnd front := by
  induction front with
  | nil => exact h
  | cons c front ih => rw [List.cons_append, trimEnd, trimEnd, ih]

theorem dropReturn_of_closes {text : List Char} (h : Shell.Closes text) : dropReturn text = text := by
  obtain ⟨front, c, rfl, hspace, -⟩ := h
  induction front with
  | nil =>
    have hne : c ≠ '\r' := by
      rintro rfl
      exact absurd hspace (by decide)
    simp [dropReturn, hne]
  | cons d front ih =>
    rw [List.cons_append, dropReturn, ih]
    simp

end Text

namespace Script

open Text Shell

theorem continued?_of_closes {text : List Char} (h : Closes text) : continued? text = none := by
  rw [continued?_eq_none, trimEnd_of_closes h]
  obtain ⟨front, c, rfl, -, hback⟩ := h
  simpa using hback

/-! ## Words of a change -/

/-- The words of a change, without the arguments of a rule. -/
def Change.headWords : Change → List String
  | .target zone value => ["--zone=" ++ zone, "--set-target=" ++ value]
  | .entry verb zone field value =>
    ["--zone=" ++ zone,
      "--" ++ verb.name ++ "-" ++ field.stem ++ ((value.map fun v => "=" ++ v).getD "")]
  | .chain verb c =>
    ["--direct", "--" ++ verb.name ++ "-" ++ DirectKind.chain.name, c.ipv, c.table, c.chain]
  | .rule verb r =>
    ["--direct", "--" ++ verb.name ++ "-" ++ DirectKind.rule.name, r.ipv, r.table, r.chain,
      .ofList (showInt r.priority)]
  | .passthrough verb p =>
    ["--direct", "--" ++ verb.name ++ "-" ++ DirectKind.passthrough.name, p.ipv]

/-- The arguments that are written as they are. -/
def Change.args? : Change → Option String
  | .rule _ r => some r.args
  | .passthrough _ p => some p.args
  | _ => none

theorem spells_quote (word : String) : Spells (" " ++ quote word) [word] :=
  spells_word (by simpa [quote] using begins_quoteList word.toList)

theorem spells_flag (name : String) (h : isFixed name.toList = true) (value : String) :
    Spells (" " ++ (name ++ quote value)) [name ++ value] := by
  apply spells_word
  simpa [quote] using (begins_fixed h).append (continues_quoteList value.toList)

theorem isPlain_showInt (n : Int) : ∀ c ∈ showInt n, isPlain c = true := by
  have hdigits (n : Nat) : ∀ c ∈ Nat.toDigits 10 n, isPlain c = true := by
    intro c hc
    have hdigit := Nat.isDigit_of_mem_toDigits (by decide) (by decide) hc
    exact isPlain_of_isBare (by simp [isBare, Char.isAlphanum, hdigit])
  cases n with
  | ofNat n => exact hdigits n
  | negSucc n => exact List.forall_mem_cons.mpr ⟨by decide, hdigits (n + 1)⟩

theorem isFixed_showInt (n : Int) : isFixed (showInt n) = true := by
  have hplain := isPlain_showInt n
  have hne : showInt n ≠ [] := by
    cases n with
    | ofNat n => exact Nat.toDigits_ne_nil
    | negSucc n => exact List.cons_ne_nil _ _
  have hhash : (showInt n).head? ≠ some '#' := by
    cases n with
    | ofNat n =>
      intro h
      have := Nat.isDigit_of_mem_toDigits (by decide) (by decide) (List.mem_of_mem_head? h)
      exact absurd this (by decide)
    | negSucc n => simp [showInt]
  simp only [isFixed, Bool.and_eq_true, Bool.not_eq_true', List.isEmpty_eq_false_iff, bne_iff_ne,
    List.all_eq_true]
  exact ⟨⟨hne, hhash⟩, hplain⟩

/-- Characters of the names of flags. -/
def isNameChar (c : Char) : Bool :=
  isPlain c && c != '='

theorem all_isNameChar_verb (verb : Verb) : verb.name.toList.all isNameChar = true := by
  cases verb <;> rfl

theorem all_isNameChar_stem (field : ZoneField) : field.stem.toList.all isNameChar = true := by
  cases field <;> rfl

theorem all_isNameChar_kind (kind : DirectKind) : kind.name.toList.all isNameChar = true := by
  cases kind <;> rfl

theorem all_isPlain_of_isNameChar {cs : List Char} (h : cs.all isNameChar = true) :
    cs.all isPlain = true := by
  simp only [isNameChar, List.all_eq_true, Bool.and_eq_true] at h ⊢
  exact fun c hc => (h c hc).1

theorem isFixed_flag (verb : Verb) {stem : String} (h : stem.toList.all isPlain = true) :
    isFixed ("--" ++ verb.name ++ "-" ++ stem).toList = true := by
  have hverb := all_isPlain_of_isNameChar (all_isNameChar_verb verb)
  have hdash : isPlain '-' = true := by decide
  simp [isFixed, hverb, hdash, h]

theorem isFixed_entry (verb : Verb) (field : ZoneField) :
    isFixed ("--" ++ verb.name ++ "-" ++ field.stem).toList = true :=
  isFixed_flag verb (all_isPlain_of_isNameChar (all_isNameChar_stem field))

theorem isFixed_entry_value (verb : Verb) (field : ZoneField) :
    isFixed ("--" ++ verb.name ++ "-" ++ field.stem ++ "=").toList = true := by
  have hstem : (field.stem ++ "=").toList.all isPlain = true := by
    have hequals : isPlain '=' = true := by decide
    simp [all_isPlain_of_isNameChar (all_isNameChar_stem field), hequals]
  simpa [String.append_assoc] using isFixed_flag verb hstem

theorem isFixed_direct (verb : Verb) (kind : DirectKind) :
    isFixed ("--" ++ verb.name ++ "-" ++ kind.name).toList = true :=
  isFixed_flag verb (all_isPlain_of_isNameChar (all_isNameChar_kind kind))

theorem spells_direct (verb : Verb) (kind : DirectKind) :
    Spells (" --direct --" ++ verb.name ++ "-" ++ kind.name)
      ["--direct", "--" ++ verb.name ++ "-" ++ kind.name] := by
  have h := (spells_fixed "--direct" (by decide)).append (spells_fixed _ (isFixed_direct verb kind))
  simpa [← String.append_assoc] using h

theorem spells_head (change : Change) :
    ∃ text, Spells text change.headWords ∧
      " " ++ change.text = text ++ ((change.args?.map fun args => " " ++ args).getD "") := by
  cases change with
  | target zone value =>
    have h := (spells_flag "--zone=" (by decide) zone).append
      (spells_flag "--set-target=" (by decide) value)
    refine ⟨_, h, ?_⟩
    show " " ++ (Change.zoneFlag zone ++ " --set-target=" ++ quote value) = _ ++ ""
    simp [Change.zoneFlag, ← String.toList_inj]
  | entry verb zone field value =>
    have hflag : Spells (" " ++ Change.entryFlag verb field value)
        ["--" ++ verb.name ++ "-" ++ field.stem ++ ((value.map fun v => "=" ++ v).getD "")] := by
      cases value with
      | none => simpa [Change.entryFlag] using spells_fixed _ (isFixed_entry verb field)
      | some value =>
        simpa [Change.entryFlag, String.append_assoc] using
          spells_flag _ (isFixed_entry_value verb field) value
    have h := (spells_flag "--zone=" (by decide) zone).append hflag
    refine ⟨_, h, ?_⟩
    show " " ++ (Change.zoneFlag zone ++ " " ++ Change.entryFlag verb field value) = _ ++ ""
    simp [Change.zoneFlag, ← String.toList_inj]
  | chain verb c =>
    have h := (((spells_direct verb .chain).append (spells_quote c.ipv)).append
      (spells_quote c.table)).append (spells_quote c.chain)
    refine ⟨_, h, ?_⟩
    show " " ++ ("--direct --" ++ verb.name ++ "-chain " ++ quote c.ipv ++ " " ++ quote c.table ++ " "
      ++ quote c.chain) = _ ++ ""
    simp [DirectKind.name, ← String.toList_inj]
  | rule verb r =>
    have hpriority := spells_fixed (.ofList (showInt r.priority))
      (by rw [String.toList_ofList]; exact isFixed_showInt _)
    have h := ((((spells_direct verb .rule).append (spells_quote r.ipv)).append
      (spells_quote r.table)).append (spells_quote r.chain)).append hpriority
    refine ⟨_, h, ?_⟩
    show " " ++ ("--direct --" ++ verb.name ++ "-rule " ++ quote r.ipv ++ " " ++ quote r.table ++ " "
      ++ quote r.chain ++ " " ++ .ofList (showInt r.priority) ++ " " ++ r.args) =
        _ ++ (" " ++ r.args)
    simp [DirectKind.name, ← String.toList_inj]
  | passthrough verb p =>
    have h := (spells_direct verb .passthrough).append (spells_quote p.ipv)
    refine ⟨_, h, ?_⟩
    show " " ++ ("--direct --" ++ verb.name ++ "-passthrough " ++ quote p.ipv ++ " " ++ p.args) =
      _ ++ (" " ++ p.args)
    simp [DirectKind.name, ← String.toList_inj]

/-- The arguments of a change are read as these words. -/
def Change.ArgsRead (change : Change) (words : List String) : Prop :=
  match change.args? with
  | none => words = []
  | some args => split args = .ok words

/-- The flag of a line for the permanent configuration. -/
def permanentWords (permanent : Bool) : List String :=
  if permanent then [permanentFlag] else []

theorem splitFrom_args {change : Change} {args : List String} (h : change.ArgsRead args) :
    splitFrom .word ((change.args?.map fun args => " " ++ args).getD "").toList =
      .ok ([] :: args.map String.toList) := by
  rw [Change.ArgsRead] at h
  cases ha : change.args? with
  | none =>
    rw [ha] at h
    rw [h]
    rfl
  | some rest =>
    rw [ha] at h
    simp only [Option.map_some, Option.getD_some, String.toList_append]
    exact congrArg (Except.map ([] :: ·)) (split_eq_ok.mp h)

theorem splitFrom_text {change : Change} {args : List String} (h : change.ArgsRead args) :
    splitFrom .gap change.text.toList = .ok ((change.headWords ++ args).map String.toList) := by
  obtain ⟨text, hhead, htext⟩ := spells_head change
  have hwords := hhead.splitFrom (splitFrom_args h)
  rw [← String.toList_append, ← htext, String.toList_append, ← List.map_append] at hwords
  exact splitFrom_word_blank_eq_ok.mp hwords

theorem split_command (permanent : Bool) {change : Change} {args : List String}
    (h : change.ArgsRead args) :
    split (Line.command permanent change).text =
      .ok (commandName :: (permanentWords permanent ++ change.headWords ++ args)) := by
  have hcommand : isFixed commandName.toList = true := by decide
  have hpermanent : isFixed permanentFlag.toList = true := by decide
  rw [split_eq_ok]
  cases permanent with
  | false =>
    show splitFrom .gap (commandName ++ " " ++ change.text).toList = _
    simp [splitFrom_gap_word hcommand, splitFrom_text h, Except.map, permanentWords]
  | true =>
    show splitFrom .gap (commandName ++ " " ++ permanentFlag ++ " " ++ change.text).toList = _
    simp [splitFrom_gap_word hcommand, splitFrom_gap_word hpermanent, splitFrom_text h, Except.map,
      permanentWords]

/-! ## Lines as the reader finds them -/

theorem closes_quote (front word : String) : Closes (front ++ quote word).toList := by
  rw [String.toList_append, quote, String.toList_ofList]
  exact (closes_quoteList word.toList).append _

theorem closes_fixed (front : String) {word : String} (h : isFixed word.toList = true) :
    Closes (front ++ word).toList := by
  rw [String.toList_append]
  exact (closes_of_fixed h).append _

theorem closes_text {change : Change} (h : ∀ args ∈ change.args?, Closes args.toList) :
    Closes change.text.toList := by
  have hargs (front : String) {args : String} (ha : args ∈ change.args?) :
      Closes (front ++ args).toList := by
    rw [String.toList_append]
    exact (h args ha).append _
  cases change with
  | target zone value => exact closes_quote (Change.zoneFlag zone ++ " --set-target=") value
  | entry verb zone field value =>
    show Closes (Change.zoneFlag zone ++ " " ++ Change.entryFlag verb field value).toList
    cases value with
    | none =>
      simpa [Change.entryFlag] using closes_fixed (Change.zoneFlag zone ++ " ")
        (isFixed_entry verb field)
    | some value =>
      simpa [Change.entryFlag] using closes_quote
        (Change.zoneFlag zone ++ " --" ++ verb.name ++ "-" ++ field.stem ++ "=") value
  | chain verb c =>
    exact closes_quote ("--direct --" ++ verb.name ++ "-chain " ++ quote c.ipv ++ " " ++
      quote c.table ++ " ") c.chain
  | rule verb r => exact hargs _ rfl
  | passthrough verb p => exact hargs _ rfl

theorem closes_command (permanent : Bool) {change : Change}
    (h : ∀ args ∈ change.args?, Closes args.toList) :
    Closes (Line.command permanent change).text.toList := by
  have hfront (front : String) : Closes (front ++ change.text).toList := by
    rw [String.toList_append]
    exact (closes_text h).append _
  cases permanent with
  | false => exact hfront (commandName ++ " ")
  | true => exact hfront (commandName ++ " " ++ permanentFlag ++ " ")

theorem commandWords_commandName (ws : List String) :
    commandWords (commandName :: ws) = commandName :: ws := by
  have hprivilege : commandName ∉ privilegeCommands := by decide
  simp [commandWords, dropPrivilege, hprivilege]

theorem runsCommand_commandName (ws : List String) : runsCommand (commandName :: ws) = true := by
  have hcommand : isCommand commandName = true := by decide
  simp [runsCommand, commandWords_commandName, hcommand]

/-- What a line comes to by what stands behind the command in it. -/
def bodyOutcome (defaultZone : String) (body : List Char) : Outcome :=
  match reference? body with
  | some reference => .failed (.shellReference (.ofList reference))
  | none =>
    match splitFrom .gap body with
    | .error quote => .failed (.openQuote quote)
    | .ok words => (Call.ofWords false false (words.map String.ofList)).outcome defaultZone

theorem outcome_commandName (defaultZone : String) {body : List Char} (h : trimEnd body ≠ []) :
    outcome defaultZone (commandName.toList ++ ' ' :: body) =
      bodyOutcome defaultZone (trimEnd body) := by
  have htrim : trim (commandName.toList ++ ' ' :: body) =
      commandName.toList ++ ' ' :: trimEnd body := by
    have hblank : trimEnd (' ' :: body) = ' ' :: trimEnd body := trimEnd_append h [' ']
    show trimEnd (commandName.toList ++ ' ' :: body) = _
    rw [trimEnd_append (by simp [hblank]), hblank]
  have hruns : runsCommand
      ((words (commandName.toList ++ ' ' :: trimEnd body)).map String.ofList) = true := by
    have hblank : isSpace ' ' = true := by decide
    have hspace : commandName.toList.any isSpace = false := by decide
    have hwords : words (commandName.toList ++ ' ' :: trimEnd body) =
        commandName.toList :: words (trimEnd body) := by
      rw [words, pieces_append_cons hblank, pieces_of_not (List.any_eq_false.mp hspace)]
      rfl
    rw [hwords, List.map_cons, String.ofList_toList, runsCommand_commandName]
  have hreference : reference? (commandName.toList ++ ' ' :: trimEnd body) =
      reference? (trimEnd body) := by
    have hdollar : '$' ∉ commandName.toList ++ [' '] := by decide
    rw [← reference?_append hdollar, List.append_assoc]
    rfl
  have hsplit := splitFrom_gap_word (by decide : isFixed commandName.toList = true) (trimEnd body)
  have hempty : (commandName.toList ++ ' ' :: trimEnd body).isEmpty = false := rfl
  have hhash : ((commandName.toList ++ ' ' :: trimEnd body).head? == some '#') = false := rfl
  simp only [outcome, htrim, hempty, hhash, hruns, hreference, bodyOutcome, split, String.toList_ofList,
    hsplit]
  cases reference? (trimEnd body) with
  | some reference => rfl
  | none =>
    cases splitFrom .gap (trimEnd body) with
    | error quote => rfl
    | ok ws => simp [Except.map, commandWords_commandName]

theorem bodyOutcome_permanentFlag (defaultZone : String) (body : List Char) :
    bodyOutcome defaultZone (permanentFlag.toList ++ ' ' :: body) = bodyOutcome defaultZone body := by
  have hreference : reference? (permanentFlag.toList ++ ' ' :: body) = reference? body := by
    have hdollar : '$' ∉ permanentFlag.toList ++ [' '] := by decide
    rw [← reference?_append hdollar, List.append_assoc]
    rfl
  have hsplit := splitFrom_gap_word (by decide : isFixed permanentFlag.toList = true) body
  simp only [bodyOutcome, hreference, hsplit]
  cases splitFrom .gap body with
  | error quote => rfl
  | ok ws =>
    simp only [Except.map, List.map_cons, String.ofList_toList]
    rfl

theorem head?_text (change : Change) : change.text.toList.head? = some '-' := by
  cases change with
  | target zone value =>
    show (Change.zoneFlag zone ++ " --set-target=" ++ quote value).toList.head? = _
    simp [Change.zoneFlag]
  | entry verb zone field value =>
    show (Change.zoneFlag zone ++ " " ++ Change.entryFlag verb field value).toList.head? = _
    simp [Change.zoneFlag]
  | chain verb c =>
    show ("--direct --" ++ verb.name ++ "-chain " ++ quote c.ipv ++ " " ++ quote c.table ++ " "
      ++ quote c.chain).toList.head? = _
    simp
  | rule verb r =>
    show ("--direct --" ++ verb.name ++ "-rule " ++ quote r.ipv ++ " " ++ quote r.table ++ " "
      ++ quote r.chain ++ " " ++ .ofList (showInt r.priority) ++ " " ++ r.args).toList.head? = _
    simp
  | passthrough verb p =>
    show ("--direct --" ++ verb.name ++ "-passthrough " ++ quote p.ipv ++ " " ++ p.args).toList.head? = _
    simp

theorem trimEnd_text_ne_nil (change : Change) : trimEnd change.text.toList ≠ [] :=
  trimEnd_ne_nil (List.mem_of_mem_head? (head?_text change)) (by decide)

theorem outcome_line (defaultZone : String) (permanent : Bool) (change : Change) :
    outcome defaultZone (Line.command permanent change).text.toList =
      bodyOutcome defaultZone (trimEnd change.text.toList) := by
  have htext := trimEnd_text_ne_nil change
  cases permanent with
  | false =>
    have hline : (Line.command false change).text.toList =
        commandName.toList ++ ' ' :: change.text.toList := by
      show (commandName ++ " " ++ change.text).toList = _
      simp
    rw [hline, outcome_commandName defaultZone htext]
  | true =>
    have hline : (Line.command true change).text.toList =
        commandName.toList ++ ' ' :: (permanentFlag.toList ++ ' ' :: change.text.toList) := by
      show (commandName ++ " " ++ permanentFlag ++ " " ++ change.text).toList = _
      simp
    have hflag : trimEnd (permanentFlag.toList ++ ' ' :: change.text.toList) =
        permanentFlag.toList ++ ' ' :: trimEnd change.text.toList := by
      have h := trimEnd_append htext (permanentFlag.toList ++ [' '])
      rwa [List.append_assoc, List.append_assoc] at h
    rw [hline, outcome_commandName defaultZone (by simp [hflag]), hflag, bodyOutcome_permanentFlag]

theorem reference?_text {permanent : Bool} {change : Change} :
    reference? (Line.command permanent change).text.toList = reference? change.text.toList := by
  have hfront (front : String) (h : '$' ∉ front.toList) :
      reference? (front ++ change.text).toList = reference? change.text.toList := by
    rw [String.toList_append, reference?_append h]
  cases permanent with
  | false => exact hfront (commandName ++ " ") (by decide)
  | true => exact hfront (commandName ++ " " ++ permanentFlag ++ " ") (by decide)

theorem outcome_command (defaultZone : String) (permanent : Bool) {change : Change}
    {args : List String} (hargs : change.ArgsRead args)
    (hcloses : ∀ args ∈ change.args?, Closes args.toList)
    (hreference : reference? (Line.command permanent change).text.toList = none) :
    outcome defaultZone (Line.command permanent change).text.toList =
      (Call.ofWords false false (change.headWords ++ args)).outcome defaultZone := by
  rw [reference?_text] at hreference
  simp [outcome_line, trimEnd_of_closes (closes_text hcloses), bodyOutcome, hreference,
    splitFrom_text hargs]

/-! ## Calls -/

theorem ofWord?_bare {name : String} (h : '=' ∉ name.toList) :
    Flag.ofWord? ("--" ++ name) = some ⟨name, none⟩ := by
  have hcut : splitFirst '=' name.toList = none := by
    rw [Option.eq_none_iff_forall_ne_some]
    rintro ⟨before, after⟩ hcut
    rw [(splitFirst_eq_some.mp hcut).1] at h
    simp at h
  simp [Flag.ofWord?, dropHead?, hcut]

theorem ofWord?_value {name : String} (h : '=' ∉ name.toList) (value : String) :
    Flag.ofWord? ("--" ++ name ++ "=" ++ value) = some ⟨name, some value⟩ := by
  have hcut : splitFirst '=' (name.toList ++ '=' :: value.toList) =
      some (name.toList, value.toList) := splitFirst_eq_some.mpr ⟨rfl, h⟩
  simp [Flag.ofWord?, dropHead?, hcut]

theorem ofWords_flag {word : String} {flag : Flag} (h : Flag.ofWord? word = some flag)
    (hname : flag.name ∉ ["permanent", "timeout", "direct"]) (rest : List String) :
    Call.ofWords false false (word :: rest) = (Call.ofWords false false rest).addFlag flag := by
  simp only [List.mem_cons, List.not_mem_nil, or_false, not_or] at hname
  obtain ⟨hpermanent, htimeout, hdirect⟩ := hname
  simp [Call.ofWords, h, hpermanent, htimeout, beq_false_of_ne hdirect]

/-- A call with a flag for the zone and one for what changes in it. -/
def zoneCall (zone : String) (flag : Flag) : Call :=
  { flags := [⟨"zone", some zone⟩, flag] }

theorem ofWords_zone {zone word : String} {flag : Flag} (h : Flag.ofWord? word = some flag)
    (hname : flag.name ∉ ["permanent", "timeout", "direct"]) :
    Call.ofWords false false ["--zone=" ++ zone, word] = zoneCall zone flag := by
  have hzone : Flag.ofWord? ("--zone=" ++ zone) = some ⟨"zone", some zone⟩ :=
    ofWord?_value (by decide : '=' ∉ "zone".toList) zone
  rw [ofWords_flag hzone (by simp), ofWords_flag h hname]
  rfl

/-- The name of the flag for a field. -/
def entryName (verb : Verb) (field : ZoneField) : String :=
  verb.name ++ "-" ++ field.stem

theorem ofWords_target (zone value : String) :
    Call.ofWords false false (Change.target zone value).headWords =
      zoneCall zone ⟨"set-target", some value⟩ :=
  ofWords_zone (ofWord?_value (by decide : '=' ∉ "set-target".toList) value)
    (show "set-target" ∉ _ by decide)

theorem toList_entryName (verb : Verb) (field : ZoneField) :
    (entryName verb field).toList = verb.name.toList ++ '-' :: field.stem.toList := by
  simp [entryName]

theorem equals_not_mem_entryName (verb : Verb) (field : ZoneField) :
    '=' ∉ (entryName verb field).toList := by
  have hname {cs : List Char} (h : cs.all isNameChar = true) : '=' ∉ cs :=
    fun hmem => absurd (List.all_eq_true.mp h '=' hmem) (by decide)
  rw [toList_entryName, List.mem_append, List.mem_cons]
  rintro (h | h | h)
  · exact hname (all_isNameChar_verb verb) h
  · exact absurd h (by decide)
  · exact hname (all_isNameChar_stem field) h

theorem entryName_not_mem {verb : Verb} {names : List String}
    (h : ∀ name ∈ names, startsWith (verb.name ++ "-").toList name.toList = false)
    (field : ZoneField) : entryName verb field ∉ names := by
  intro hmem
  have hstarts : startsWith (verb.name ++ "-").toList (entryName verb field).toList = true := by
    have hdrop : dropHead? (verb.name ++ "-").toList (entryName verb field).toList =
        some field.stem.toList := dropHead?_eq_some.mpr (by rw [← String.toList_append, entryName])
    rw [startsWith, hdrop]
    rfl
  rw [h _ hmem] at hstarts
  cases hstarts

theorem ofWords_entry (verb : Verb) (zone : String) (field : ZoneField) (value : Option String) :
    Call.ofWords false false (Change.entry verb zone field value).headWords =
      zoneCall zone ⟨entryName verb field, value⟩ := by
  have hequals := equals_not_mem_entryName verb field
  have hname : entryName verb field ∉ ["permanent", "timeout", "direct"] :=
    entryName_not_mem (by cases verb <;> decide) field
  refine ofWords_zone ?_ hname
  cases value with
  | none => simpa [entryName, String.append_assoc] using ofWord?_bare hequals
  | some value => simpa [entryName, String.append_assoc] using ofWord?_value hequals value

/-- A call of the direct interface. -/
def directCall (verb : Verb) (kind : DirectKind) (words : List String) : Call :=
  { flags := [⟨"direct", none⟩], direct := some ⟨verb.name ++ "-" ++ kind.name, kind, words⟩ }

/-! ## What a call comes to -/

/-- A name that says neither that the call is of another kind nor which zone it is about. -/
def isChangeName (name : String) : Bool :=
  name != "zone" && name != "reload" && name != "complete-reload" && name != "direct"
    && !Call.queryFlags.contains name
    && !Call.queryHeads.any fun head => startsWith head.toList name.toList

theorem isChangeName_entryName (verb : Verb) (field : ZoneField) :
    isChangeName (entryName verb field) = true := by
  have hkinds : entryName verb field ∉ ["zone", "reload", "complete-reload", "direct"] :=
    entryName_not_mem (by cases verb <;> decide) field
  simp only [List.mem_cons, List.not_mem_nil, or_false, not_or] at hkinds
  obtain ⟨hzone, hreload, hcomplete, hdirect⟩ := hkinds
  have hflags : Call.queryFlags.contains (entryName verb field) = false := by
    rw [List.contains_eq_mem, decide_eq_false_iff_not]
    exact entryName_not_mem (by cases verb <;> decide) field
  have hheads : (Call.queryHeads.any fun head =>
      startsWith head.toList (entryName verb field).toList) = false := by
    rw [toList_entryName]
    cases verb <;> rfl
  rw [isChangeName, hflags, hheads, bne_iff_ne.mpr hzone, bne_iff_ne.mpr hreload,
    bne_iff_ne.mpr hcomplete, bne_iff_ne.mpr hdirect]
  rfl

/-- The result of a reader as the outcome of a line. -/
def Outcome.ofResult : ReadResult Config → Outcome
  | .ok fragment => .parsed fragment
  | .error error => .failed error

theorem outcome_of_change (defaultZone : String) {call : Call} (hreload : call.isReload = false)
    (hquery : call.isQuery = false) :
    call.outcome defaultZone =
      .ofResult (if call.isDirect then directFragment call else zoneFragment defaultZone call) := by
  rw [Call.outcome, hreload, hquery]
  cases (if call.isDirect then directFragment call else zoneFragment defaultZone call) <;> rfl

/-- The fragment of a call for a zone. -/
def ZoneChange.fragment (zone : String) (change : ZoneChange) : Config where
  zones := match change.zone with
    | some z => Ordered.insert zone z change.created
    | none => change.created

theorem outcome_zoneCall (defaultZone zone : String) {name : String} (value : Option String)
    (hname : isChangeName name = true) :
    (zoneCall zone ⟨name, value⟩).outcome defaultZone =
      if zone = "" then .failed (.noValue "zone")
      else .ofResult ((applyFlag {} ⟨name, value⟩).map (·.fragment zone)) := by
  simp only [isChangeName, Bool.and_eq_true, bne_iff_ne, Bool.not_eq_true'] at hname
  obtain ⟨⟨⟨⟨⟨hne, hreload⟩, hcomplete⟩, hdirect⟩, hflags⟩, hheads⟩ := hname
  have hzoneQuery : Call.queryFlags.contains "zone" = false ∧
      (Call.queryHeads.any fun head => startsWith head.toList "zone".toList) = false := by decide
  have hisReload : (zoneCall zone ⟨name, value⟩).isReload = false := by
    simp [Call.isReload, Call.hasFlag, zoneCall, hreload, hcomplete]
  have hisQuery : (zoneCall zone ⟨name, value⟩).isQuery = false := by
    simp only [Call.isQuery, Call.hasFlag, zoneCall, List.any_cons, List.any_nil, hzoneQuery.1,
      hzoneQuery.2, hflags, hheads, Bool.or_false]
  have hisDirect : (zoneCall zone ⟨name, value⟩).isDirect = false := by
    simp [Call.isDirect, Call.hasFlag, zoneCall, hdirect]
  have hfragment : zoneFragment defaultZone (zoneCall zone ⟨name, value⟩) =
      if zone = "" then .error (.noValue "zone")
      else (applyFlag {} ⟨name, value⟩).map (·.fragment zone) := by
    by_cases hzone : zone = ""
    · simp [zoneFragment, zoneCall, hne, Flag.required, hzone]
      rfl
    · have hrequired : Flag.required ⟨"zone", some zone⟩ = .ok zone := by
        simp [Flag.required, hzone]
      simp [zoneFragment, zoneCall, hne, hrequired, hzone]
      cases applyFlag {} ⟨name, value⟩ <;> rfl
  rw [outcome_of_change defaultZone hisReload hisQuery, hisDirect, if_neg (by decide), hfragment]
  split <;> rfl

theorem ofName?_entryName (verb : Verb) (field : ZoneField) :
    Setter.ofName? (entryName verb field) =
      if field.kind = .target then none else some (.field field) := by
  have hverb : afterVerb? (entryName verb field) = some field.stem := by
    rw [afterVerb?, toList_entryName]
    cases verb with
    | add =>
      show some (String.ofList field.stem.toList) = _
      rw [String.ofList_toList]
    | remove =>
      show some (String.ofList field.stem.toList) = _
      rw [String.ofList_toList]
  have hnames : entryName verb field ∉ ["set-target", "new-zone", "change-interface", "change-source"] :=
    entryName_not_mem (by cases verb <;> decide) field
  simp only [List.mem_cons, List.not_mem_nil, or_false, not_or] at hnames
  obtain ⟨htarget, hzone, hinterface, hsource⟩ := hnames
  simp [Setter.ofName?, htarget, hzone, hinterface, hsource, hverb, ZoneField.ofStem?_stem]

theorem applyFlag_entry (verb : Verb) (field : ZoneField) (value : Option String) :
    applyFlag {} ⟨entryName verb field, value⟩ =
      (setField {} field ⟨entryName verb field, value⟩).map fun z => { zone := some z } := by
  rw [applyFlag, ofName?_entryName]
  by_cases h : field.kind = .target
  · simp [h, setField]
    rfl
  · simp [h]

theorem ofWords_direct (verb : Verb) (kind : DirectKind) (words : List String) :
    Call.ofWords false false ("--direct" :: ("--" ++ verb.name ++ "-" ++ kind.name) :: words) =
      directCall verb kind words := by
  cases verb <;> cases kind <;> rfl

theorem outcome_direct (defaultZone : String) (verb : Verb) (kind : DirectKind) (words : List String) :
    (Call.ofWords false false ("--direct" :: ("--" ++ verb.name ++ "-" ++ kind.name) :: words)).outcome
        defaultZone =
      .ofResult ((directEntry ⟨verb.name ++ "-" ++ kind.name, kind, words⟩).map fun entry =>
        { direct := some entry }) := by
  have hisReload : (directCall verb kind words).isReload = false := rfl
  have hisQuery : (directCall verb kind words).isQuery = false := rfl
  have hisDirect : (directCall verb kind words).isDirect = true := rfl
  rw [ofWords_direct, outcome_of_change defaultZone hisReload hisQuery, hisDirect, if_pos rfl]
  rfl

theorem parsed_direct (defaultZone : String) (verb : Verb) (kind : DirectKind) {words : List String}
    {entry : Direct} (h : directEntry ⟨verb.name ++ "-" ++ kind.name, kind, words⟩ = .ok entry) :
    (Call.ofWords false false ("--direct" :: ("--" ++ verb.name ++ "-" ++ kind.name) :: words)).outcome
      defaultZone = .parsed { direct := some entry } := by
  rw [outcome_direct, h]
  rfl

theorem isEmpty_of_join {args : String} {words : List String} (hne : args ≠ "")
    (hjoin : join words = args) : words.isEmpty = false := by
  cases words with
  | nil => exact absurd hjoin.symm hne
  | cons w ws => rfl

theorem directEntry_rule (flag : String) {rule : DirectRule} (hloop : rule.loop = none)
    (hpriority : fitsSigned 32 rule.priority = true) {words : List String} (hne : rule.args ≠ "")
    (hjoin : join words = rule.args) :
    directEntry ⟨flag, .rule,
        rule.ipv :: rule.table :: rule.chain :: .ofList (showInt rule.priority) :: words⟩ =
      .ok { rules := [rule] } := by
  simp [directEntry, isEmpty_of_join hne hjoin, readSigned?_showInt hpriority, hjoin, ← hloop]

theorem directEntry_passthrough (flag : String) {item : Passthrough} (hloop : item.loop = none)
    {words : List String} (hne : item.args ≠ "") (hjoin : join words = item.args) :
    directEntry ⟨flag, .passthrough, item.ipv :: words⟩ = .ok { passthroughs := [item] } := by
  simp [directEntry, isEmpty_of_join hne hjoin, hjoin, ← hloop]

/-! ## What a line says -/

/-- Both lines of the change are read as the fragment, unless a shell would put in a value. -/
def Change.Says (change : Change) (fragment : Config) : Prop :=
  (∀ permanent, Closes (Line.command permanent change).text.toList) ∧
    ∀ defaultZone permanent, reference? (Line.command permanent change).text.toList = none →
      outcome defaultZone (Line.command permanent change).text.toList = .parsed fragment

theorem says_of_call {change : Change} (args : List String) {fragment : Config}
    (hargs : change.ArgsRead args) (hcloses : ∀ args ∈ change.args?, Closes args.toList)
    (hcall : ∀ defaultZone, (Call.ofWords false false (change.headWords ++ args)).outcome defaultZone =
      .parsed fragment) : change.Says fragment :=
  ⟨fun permanent => closes_command permanent hcloses, fun defaultZone permanent hreference =>
    (outcome_command defaultZone permanent hargs hcloses hreference).trans (hcall defaultZone)⟩

theorem says_target {zone value : String} (hzone : zone ≠ "") (hvalue : value ≠ "") :
    (Change.target zone value).Says { zones := [(zone, { target := some value })] } := by
  refine says_of_call [] rfl (by simp [Change.args?]) fun defaultZone => ?_
  have happly : applyFlag {} ⟨"set-target", some value⟩ =
      .ok { zone := some { target := some value } } := by
    simp [applyFlag, Setter.ofName?, Flag.required, hvalue]
    rfl
  rw [List.append_nil, ofWords_target, outcome_zoneCall defaultZone zone _
    (show isChangeName "set-target" = true by rfl), if_neg hzone, happly]
  rfl

theorem says_entry {zone : String} (hzone : zone ≠ "") {field : ZoneField} {value : Option String}
    {z : Zone} (hset : setField {} field ⟨entryName .add field, value⟩ = .ok z) :
    (Change.entry .add zone field value).Says { zones := [(zone, z)] } := by
  refine says_of_call [] rfl (by simp [Change.args?]) fun defaultZone => ?_
  rw [List.append_nil, ofWords_entry, outcome_zoneCall defaultZone zone _
    (isChangeName_entryName .add field), if_neg hzone, applyFlag_entry, hset]
  rfl

/-- Arguments that their own words give back. -/
def IsRejoined (args : String) : Prop :=
  args ≠ "" ∧ ∃ words, split args = .ok words ∧ join words = args

instance (args : String) : Decidable (IsRejoined args) :=
  match h : split args with
  | .ok words => decidable_of_iff (args ≠ "" ∧ join words = args) (by simp [IsRejoined, h])
  | .error _ => .isFalse (by simp [IsRejoined, h])

theorem says_chain (chain : DirectChain) :
    (Change.chain .add chain).Says { direct := some { chains := [chain] } } := by
  refine says_of_call [] rfl (by simp [Change.args?]) fun defaultZone => ?_
  rw [List.append_nil]
  exact parsed_direct defaultZone .add .chain rfl

theorem says_rule {rule : DirectRule} (hloop : rule.loop = none)
    (hpriority : fitsSigned 32 rule.priority = true) (hargs : IsRejoined rule.args) :
    (Change.rule .add rule).Says { direct := some { rules := [rule] } } := by
  obtain ⟨hne, words, hsplit, hjoin⟩ := hargs
  have hcloses : ∀ args ∈ (Change.rule .add rule).args?, Closes args.toList := by
    rintro _ ⟨⟩
    exact closes_of_join_eq hne hsplit hjoin
  exact says_of_call words hsplit hcloses fun defaultZone =>
    parsed_direct defaultZone .add .rule (directEntry_rule _ hloop hpriority hne hjoin)

theorem says_passthrough {item : Passthrough} (hloop : item.loop = none)
    (hargs : IsRejoined item.args) :
    (Change.passthrough .add item).Says { direct := some { passthroughs := [item] } } := by
  obtain ⟨hne, words, hsplit, hjoin⟩ := hargs
  have hcloses : ∀ args ∈ (Change.passthrough .add item).args?, Closes args.toList := by
    rintro _ ⟨⟩
    exact closes_of_join_eq hne hsplit hjoin
  exact says_of_call words hsplit hcloses fun defaultZone =>
    parsed_direct defaultZone .add .passthrough (directEntry_passthrough _ hloop hne hjoin)

end Script

end ZoneScript
