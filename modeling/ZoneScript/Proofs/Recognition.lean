import Mathlib.Data.List.Basic
import ZoneScript.Proofs.Fragments
import ZoneScript.Proofs.Words

/-!
# Recognizing the command

Whether a line runs the firewall's command is seen from its words as white space cuts them, before the
line is cut as a shell would cut it. Both ways see the same command as long as no quote, backslash or
comment stands in front of it or in it. Only the value of an option may have quotes, if there is no
white space between them.
-/

namespace ZoneScript

namespace Text

/-! ## Words between white space -/

theorem pieces_eq_cons {p : Char → Bool} {cs w : List Char} {ws : List (List Char)}
    (h : pieces p cs = w :: ws) :
    (∀ c ∈ w, ¬ p c = true) ∧ ((cs = w ∧ ws = []) ∨
      ∃ c tail, cs = w ++ c :: tail ∧ p c = true ∧ pieces p tail = ws) := by
  induction cs generalizing w with
  | nil =>
    cases h
    exact ⟨by simp, .inl ⟨rfl, rfl⟩⟩
  | cons d cs ih =>
    by_cases hd : p d = true
    · rw [pieces_cons_of_pos hd] at h
      cases h
      exact ⟨by simp, .inr ⟨d, cs, rfl, hd, rfl⟩⟩
    · obtain ⟨v, vs, hv⟩ := List.exists_cons_of_ne_nil (pieces_ne_nil p cs)
      rw [pieces_cons_of_neg hd hv] at h
      cases h
      obtain ⟨hletters, hrest⟩ := ih hv
      refine ⟨List.forall_mem_cons.mpr ⟨hd, hletters⟩, ?_⟩
      rcases hrest with ⟨rfl, rfl⟩ | ⟨c, tail, rfl, hc, htail⟩
      · exact .inl ⟨rfl, rfl⟩
      · exact .inr ⟨c, tail, rfl, hc, htail⟩

theorem words_cons_space {c : Char} (h : isSpace c = true) (cs : List Char) :
    words (c :: cs) = words cs := by
  rw [words, pieces_cons_of_pos h]
  rfl

theorem words_cons_letter {c : Char} (h : ¬ isSpace c = true) (cs : List Char) :
    ∃ w, (c :: cs = w ∧ words (c :: cs) = [w]) ∨
      ∃ d tail, c :: cs = w ++ d :: tail ∧ isSpace d = true ∧ words (c :: cs) = w :: words tail := by
  obtain ⟨v, vs, hv⟩ := List.exists_cons_of_ne_nil (pieces_ne_nil isSpace cs)
  have hpieces := pieces_cons_of_neg h hv
  have hwords : words (c :: cs) = (c :: v) :: vs.filter (!·.isEmpty) := by
    rw [words, hpieces]
    rfl
  refine ⟨c :: v, ?_⟩
  rcases (pieces_eq_cons hpieces).2 with ⟨heq, rfl⟩ | ⟨d, tail, heq, hd, rfl⟩
  · exact .inl ⟨heq, hwords⟩
  · exact .inr ⟨d, tail, heq, hd, hwords⟩

end Text

namespace Shell

/-! ## The same words as a shell reads them -/

theorem ne_backslash_of_isSpace {c : Char} (h : Text.isSpace c = true) : c ≠ '\\' := by
  rintro rfl
  exact absurd h (by decide)

theorem splitFrom_gap_space {c : Char} (h : Text.isSpace c = true) (cs : List Char) :
    splitFrom .gap (c :: cs) = splitFrom .gap cs := by
  rw [splitFrom_gap_cons (ne_backslash_of_isSpace h), if_pos h]

theorem splitFrom_word_space {c : Char} (h : Text.isSpace c = true) (cs : List Char) :
    splitFrom .word (c :: cs) = (splitFrom .gap cs).map ([] :: ·) := by
  rw [splitFrom_word_cons (ne_backslash_of_isSpace h), if_pos h]

theorem Begins.splitFrom_end {text word : List Char} (h : Begins text word) :
    splitFrom .gap text = .ok [word] := by
  have hend := h []
  rw [List.append_nil, show splitFrom .word [] = .ok [[]] by rfl] at hend
  simpa [Except.map, pushAll_word] using hend

theorem Begins.splitFrom_space {text word : List Char} (h : Begins text word) {c : Char}
    (hc : Text.isSpace c = true) (rest : List Char) :
    splitFrom .gap (text ++ c :: rest) = (splitFrom .gap rest).map (word :: ·) := by
  rw [h, splitFrom_word_space hc]
  cases splitFrom .gap rest with
  | error e => rfl
  | ok ws => simp [Except.map, pushAll_word]

theorem splitFrom_of_words_eq_nil {cs : List Char} (h : Text.words cs = []) :
    splitFrom .gap cs = .ok [] := by
  induction cs with
  | nil => rfl
  | cons c cs ih =>
    by_cases hspace : Text.isSpace c = true
    · rw [Text.words_cons_space hspace] at h
      rw [splitFrom_gap_space hspace, ih h]
    · obtain ⟨w, ⟨-, hwords⟩ | ⟨d, tail, -, -, hwords⟩⟩ := Text.words_cons_letter hspace cs
      · rw [h] at hwords
        cases hwords
      · rw [h] at hwords
        cases hwords

theorem splitFrom_of_words_eq_cons {cs w : List Char} {ws : List (List Char)}
    (h : Text.words cs = w :: ws) :
    ∃ tail, Text.words tail = ws ∧ ∀ word, Begins w word →
      splitFrom .gap cs = (splitFrom .gap tail).map (word :: ·) := by
  induction cs with
  | nil => cases h
  | cons c cs ih =>
    by_cases hspace : Text.isSpace c = true
    · rw [Text.words_cons_space hspace] at h
      obtain ⟨tail, htail, hsplit⟩ := ih h
      exact ⟨tail, htail, fun word hword => (splitFrom_gap_space hspace cs).trans (hsplit word hword)⟩
    · obtain ⟨v, ⟨heq, hwords⟩ | ⟨d, tail, heq, hd, hwords⟩⟩ := Text.words_cons_letter hspace cs
      · rw [h] at hwords
        cases hwords
        exact ⟨[], rfl, fun word hword => heq ▸ hword.splitFrom_end⟩
      · rw [h] at hwords
        cases hwords
        exact ⟨tail, rfl, fun word hword => heq ▸ hword.splitFrom_space hd tail⟩

end Shell

namespace Script

open Shell

/-! ## The words in front of the command -/

/-- The words up to the command mean themselves to a shell. The value of an option, which the search
for the command leaves out, only needs to be one word. -/
def PlainLead (inside skip : Bool) : List String → Prop
  | [] => True
  | word :: rest =>
    if skip then (∃ value, Begins word.toList value) ∧ PlainLead inside false rest
    else isFixed word.toList = true ∧
      if privilegeCommands.contains word then PlainLead true false rest
      else if inside && word.toList.head? == some '-' then
        PlainLead true (valuedOptions.contains word) rest
      else True

theorem head?_dropPrivilege {cs : List Char} {ts : List (List Char)}
    (hsplit : splitFrom .gap cs = .ok ts) {inside skip : Bool}
    (hlead : PlainLead inside skip ((Text.words cs).map String.ofList)) :
    (dropPrivilege inside skip (ts.map String.ofList)).head? =
      (dropPrivilege inside skip ((Text.words cs).map String.ofList)).head? := by
  generalize hwords : Text.words cs = ws at hlead ⊢
  induction ws generalizing cs ts inside skip with
  | nil =>
    rw [splitFrom_of_words_eq_nil hwords] at hsplit
    cases hsplit
    rfl
  | cons w ws ih =>
    obtain ⟨tail, htail, hcut⟩ := splitFrom_of_words_eq_cons hwords
    have hrest {word : List Char} (hword : Begins w word) :
        ∃ us, ts = word :: us ∧ splitFrom .gap tail = .ok us := by
      rw [hcut word hword] at hsplit
      cases hus : splitFrom .gap tail with
      | error e =>
        rw [hus] at hsplit
        cases hsplit
      | ok us =>
        rw [hus] at hsplit
        cases hsplit
        exact ⟨us, rfl, rfl⟩
    rw [List.map_cons, PlainLead] at hlead
    cases skip with
    | true =>
      obtain ⟨⟨value, hvalue⟩, hlead⟩ := hlead
      rw [String.toList_ofList] at hvalue
      obtain ⟨us, rfl, hus⟩ := hrest hvalue
      exact ih hus htail hlead
    | false =>
      obtain ⟨hfixed, hlead⟩ := hlead
      rw [String.toList_ofList] at hfixed
      obtain ⟨us, rfl, hus⟩ := hrest (begins_fixed hfixed)
      rw [List.map_cons, List.map_cons, dropPrivilege, dropPrivilege]
      simp only [Bool.false_eq_true, if_false]
      split
      · rename_i hprivilege
        rw [if_pos hprivilege] at hlead
        exact ih hus htail hlead
      · rename_i hprivilege
        rw [if_neg hprivilege] at hlead
        split
        · rename_i hoption
          rw [if_pos hoption] at hlead
          exact ih hus htail hlead
        · rfl

/-! ## Lines that run the command -/

theorem outcome_ne_notCommand (defaultZone : String) (call : Call) :
    call.outcome defaultZone ≠ .skipped .notCommand := by
  unfold Call.outcome
  split
  · simp
  split
  · simp
  split <;> simp

section

variable {line : List Char}

/-- The words of a line between white space. -/
def rawWords (line : List Char) : List String :=
  (Text.words (Text.trim line)).map String.ofList

theorem outcome_of_not_runsCommand (h : runsCommand (rawWords line) = false) (defaultZone : String) :
    ∃ reason, outcome defaultZone line = .skipped reason ∧
      (Text.trim line ≠ [] → (Text.trim line).head? ≠ some '#' → reason = .notCommand) := by
  rw [rawWords] at h
  rw [outcome]
  split
  · rename_i hempty
    exact ⟨.blank, rfl, fun hne => absurd (List.isEmpty_iff.mp hempty) hne⟩
  split
  · rename_i hhash
    exact ⟨.comment, rfl, fun _ hne => absurd (beq_iff_eq.mp hhash) hne⟩
  · rw [h]
    exact ⟨.notCommand, rfl, fun _ _ => rfl⟩

theorem not_blank_of_commandWords {words : List String}
    (hsplit : Shell.split (.ofList (Text.trim line)) = .ok words) {command : String}
    {args : List String} (hwords : commandWords words = command :: args) :
    Text.trim line ≠ [] ∧ (Text.trim line).head? ≠ some '#' := by
  constructor
  · intro hnil
    rw [hnil] at hsplit
    cases hsplit
    cases hwords
  · intro hhead
    obtain ⟨rest, hrest⟩ := List.head?_eq_some_iff.mp hhead
    rw [hrest, Shell.split, String.toList_ofList] at hsplit
    cases hsplit
    cases hwords

theorem outcome_of_runsCommand (h : runsCommand (rawWords line) = true) {words : List String}
    (hsplit : Shell.split (.ofList (Text.trim line)) = .ok words) {command : String}
    {args : List String} (hwords : commandWords words = command :: args) (defaultZone : String) :
    outcome defaultZone line =
      match reference? (Text.trim line) with
      | some reference => .failed (.shellReference (.ofList reference))
      | none => (Call.ofWords false false args).outcome defaultZone := by
  obtain ⟨hempty, hhash⟩ := not_blank_of_commandWords hsplit hwords
  rw [rawWords] at h
  cases hreference : reference? (Text.trim line) <;>
    simp [outcome, List.isEmpty_eq_false_iff.mpr hempty, beq_false_of_ne hhash, h, hsplit, hwords,
      hreference]

/-- **Recognition.** Let the words of a line up to the command mean themselves. Then the firewall's
command is seen in the words between white space if and only if it is seen in the words of the shell. So
a line is read only if a shell runs that command, and of lines that are no comments exactly the others
are skipped as no such command. -/
theorem recognizes_command (defaultZone : String) {words : List String}
    (hsplit : Shell.split (.ofList (Text.trim line)) = .ok words)
    (hlead : PlainLead false false (rawWords line)) :
    runsCommand (rawWords line) = runsCommand words ∧
      (∀ fragment, outcome defaultZone line = .parsed fragment → runsCommand words = true) ∧
      (Text.trim line ≠ [] → (Text.trim line).head? ≠ some '#' →
        (outcome defaultZone line = .skipped .notCommand ↔ runsCommand words = false)) := by
  have hsame : runsCommand (rawWords line) = runsCommand words := by
    obtain ⟨ts, hts, rfl⟩ : ∃ ts, splitFrom .gap (Text.trim line) = .ok ts ∧ ts.map .ofList = words := by
      rw [Shell.split, String.toList_ofList] at hsplit
      exact map_eq_ok.mp hsplit
    simp only [runsCommand, commandWords, rawWords, head?_dropPrivilege hts hlead]
  cases hruns : runsCommand (rawWords line) with
  | false =>
    obtain ⟨reason, hskipped, hreason⟩ := outcome_of_not_runsCommand hruns defaultZone
    refine ⟨hsame ▸ hruns.symm, ?_, fun hne hhash => ?_⟩
    · intro fragment hparsed
      rw [hskipped] at hparsed
      cases hparsed
    · rw [hskipped, hreason hne hhash, ← hsame, hruns]
      simp
  | true =>
    obtain ⟨command, args, hwords⟩ : ∃ command args, commandWords words = command :: args := by
      rw [hsame] at hruns
      cases hwords : commandWords words with
      | nil => simp [runsCommand, hwords] at hruns
      | cons command args => exact ⟨command, args, rfl⟩
    refine ⟨hsame ▸ hruns.symm, fun _ _ => hsame ▸ hruns, fun _ _ => ?_⟩
    rw [← hsame, hruns, outcome_of_runsCommand hruns hsplit hwords]
    cases reference? (Text.trim line) with
    | some reference => simp
    | none => simp [outcome_ne_notCommand]

end

/-- The value of an option in quotes, options of two commands, and a path to the command. -/
theorem recognizes_command_quoted :
    let line := " sudo -p 'pass:' -n doas /usr/bin/firewall-cmd --set-target=\"DR\"OP"
    let words := ["sudo", "-p", "pass:", "-n", "doas", "/usr/bin/firewall-cmd", "--set-target=DROP"]
    Shell.split (.ofList (Text.trim line.toList)) = .ok words ∧ runsCommand words = true ∧
      outcome "public" line.toList = .parsed { zones := [("public", { target := some "DROP" })] } := by
  intro line words
  have hsplit : Shell.split (.ofList (Text.trim line.toList)) = .ok words := by decide +kernel
  have hraw : rawWords line.toList = ["sudo", "-p", "'pass:'", "-n", "doas", "/usr/bin/firewall-cmd",
      "--set-target=\"DR\"OP"] := by decide +kernel
  have hlead : PlainLead false false (rawWords line.toList) := by
    rw [hraw]
    exact ⟨by decide, by decide, ⟨_, begins_single "pass:".toList⟩, by decide, by decide, by decide, trivial⟩
  have hparsed : outcome "public" line.toList =
      .parsed { zones := [("public", { target := some "DROP" })] } := by decide +kernel
  exact ⟨hsplit, (recognizes_command "public" hsplit hlead).2.1 _ hparsed, hparsed⟩

/-- A blank between quotes hides the command, and a part of a quoted value may look like it. -/
theorem quoted_value_misleads :
    let hidden := "sudo -p \"Password: \" firewall-cmd --add-service=ssh"
    let other := "sudo -u \"a firewall-cmd b\" ls --add-service=ssh"
    (∃ words, Shell.split hidden = .ok words ∧ runsCommand words = true) ∧
      outcome "public" hidden.toList = .skipped .notCommand ∧
      (∃ words, Shell.split other = .ok words ∧ runsCommand words = false) ∧
      outcome "public" other.toList =
        .parsed { zones := [("public", { services := [{ value := "ssh" }] })] } := by
  exact ⟨⟨["sudo", "-p", "Password: ", "firewall-cmd", "--add-service=ssh"], rfl, by decide +kernel⟩,
    by decide +kernel,
    ⟨["sudo", "-u", "a firewall-cmd b", "ls", "--add-service=ssh"], rfl, by decide +kernel⟩,
    by decide +kernel⟩

end Script

end ZoneScript
