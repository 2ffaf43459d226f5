import ZoneScript.Proofs.CommandWords
import ZoneScript.Proofs.Fragments

/-!
# Arguments of direct commands

The words behind the fixed fields of a direct command are kept as one text. The text is cut into the
same words again, in the entry as well as on the line that is written for it, if each word that needs
quotes got some. White space gets them, and so does the empty word; a quote, a backslash or a leading
`#` on its own does not.
-/

namespace ZoneScript.Script

open Shell

/-- The words behind the fixed fields of a direct command. -/
def DirectCall.args (call : DirectCall) : List String :=
  match call.kind with
  | .chain => []
  | .rule => call.words.drop 4
  | .passthrough => call.words.drop 1

theorem directChanges_of_mentions {call : DirectCall} {entry : Direct}
    (h : Mentions call.kind call.words entry) (direction : Direction) :
    ∃ change, directChanges direction entry = [change] ∧
      change.args? = if call.kind = .chain then none else some (join call.args) := by
  obtain ⟨flag, kind, words⟩ := call
  cases h with
  | chain ipv table chain =>
    refine ⟨.chain direction.verb ⟨ipv, table, chain⟩, ?_, rfl⟩
    cases direction <;> rfl
  | rule ipv table chain priority hpriority hargs =>
    rename_i n args
    refine ⟨.rule direction.verb { ipv, table, chain, priority := n, args := join args }, ?_, rfl⟩
    cases direction <;> rfl
  | passthrough ipv hargs =>
    rename_i args
    refine ⟨.passthrough direction.verb { ipv, args := join args }, ?_, rfl⟩
    cases direction <;> rfl

theorem argsRead_of_staysWhole {call : DirectCall} {change : Change}
    (hargs : change.args? = if call.kind = .chain then none else some (join call.args))
    (hwhole : ∀ word ∈ call.args, StaysWhole word.toList) : change.ArgsRead call.args := by
  rw [Change.ArgsRead, hargs]
  by_cases hkind : call.kind = .chain
  · simp [hkind, DirectCall.args]
  · simpa [hkind] using split_join.mpr hwhole

/-- **Arguments.** Joined words are cut into the same words again if and only if each of them is empty,
has white space in it, or means itself without quotes. What a direct command is read as keeps the words
behind its fixed fields in this joined form, and if they are of these kinds, then the line that is
written for it, in either direction, hands on the same words. -/
theorem directFragment_keeps_args (words : List String) :
    (split (join words) = .ok words ↔ ∀ word ∈ words, StaysWhole word.toList) ∧
    ∀ (call : Call) (direct : DirectCall) (fragment : Config),
      call.direct = some direct → direct.args = words → directFragment call = .ok fragment →
      ∀ direction, ∃ change, directChanges direction (fragment.direct.getD {}) = [change] ∧
        change.args? = (if direct.kind = .chain then none else some (join words)) ∧
        ((∀ word ∈ words, StaysWhole word.toList) → ∀ permanent,
          split (Line.command permanent change).text =
            .ok (commandName :: (permanentWords permanent ++ change.headWords ++ words))) := by
  refine ⟨split_join, fun call direct fragment hdirect hwords hread direction => ?_⟩
  subst hwords
  rw [directFragment, hdirect] at hread
  obtain ⟨entry, hentry, rfl⟩ := map_eq_ok.mp hread
  obtain ⟨change, hchange, hargs⟩ :=
    directChanges_of_mentions (mentions_of_directEntry hentry) direction
  exact ⟨change, hchange, hargs, fun hwhole permanent =>
    split_command permanent (argsRead_of_staysWhole hargs hwhole)⟩

/-- A comment of several words, one of them with an apostrophe, and an empty argument. -/
theorem directFragment_keeps_args_comment :
    let args := ["-m", "comment", "--comment", "it's #1", ""]
    let call := Call.ofWords false false (["--direct", "--add-rule", "eb", "t", "X", "+5"] ++ args)
    let rule : DirectRule :=
      { ipv := "eb", table := "t", chain := "X", priority := 5,
        args := "-m comment --comment 'it'\\''s #1' ''" }
    directFragment call = .ok { direct := some { rules := [rule] } } ∧
      split rule.args = .ok args ∧
      split (Line.command true (.rule .remove rule)).text =
        .ok (["firewall-cmd", "--permanent", "--direct", "--remove-rule", "eb", "t", "X", "5"] ++ args) := by
  intro args call rule
  have hread : directFragment call = .ok { direct := some { rules := [rule] } } := by decide +kernel
  have hwhole : ∀ word ∈ args, StaysWhole word.toList := by decide +kernel
  obtain ⟨hsplit, hkept⟩ := directFragment_keeps_args args
  obtain ⟨change, hchange, hargs, hline⟩ := hkept call _ _ rfl rfl hread .remove
  obtain rfl : Change.rule .remove rule = change := by
    simpa [directChanges, Direction.verb, distinct] using hchange
  obtain hjoin : rule.args = join args := Option.some.inj hargs
  exact ⟨hread, hjoin ▸ hsplit.mpr hwhole, hline hwhole true⟩

/-- An apostrophe leaves a quote open, a backslash is lost, and a leading `#` takes the rest of the
line with it. -/
theorem split_join_unquoted :
    split (join ["--comment", "it's"]) = .error .single ∧
      split (join ["--comment", "a\\b"]) = .ok ["--comment", "ab"] ∧
      split (join ["--comment", "#5", "-j", "DROP"]) = .ok ["--comment"] := by
  decide +kernel

end ZoneScript.Script
