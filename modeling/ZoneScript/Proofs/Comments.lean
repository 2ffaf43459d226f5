import Mathlib.Data.List.Basic
import Mathlib.Data.Option.Basic
import ZoneScript.Proofs.ScriptText

/-!
# Comments

A comment says nothing about the configuration. It keeps to its line unless there is a backslash at the
end: then the logical line behind belongs to the comment, whatever it holds.
-/

namespace ZoneScript

namespace Text

theorem head?_trimEnd {c : Char} (h : isSpace c = false) (cs : List Char) :
    (trimEnd (c :: cs)).head? = some c := by
  rw [trimEnd]
  split
  · simp [h]
  · rfl

end Text

namespace Script

open Text Shell

/-! ## Comments -/

/-- The line is a comment. -/
def isComment (line : List Char) : Bool :=
  (trim line).head? == some '#'

theorem outcome_of_isComment {line : List Char} (h : isComment line = true) (defaultZone : String) :
    outcome defaultZone line = .skipped .comment := by
  obtain ⟨rest, hrest⟩ := List.head?_eq_some_iff.mp (beq_iff_eq.mp h)
  simp [outcome, hrest]

/-- The logical lines of a text that are no comments. -/
def spoken (text : String) : List (List Char) :=
  ((logicalLines text).map (·.text)).filter fun line => !isComment line

theorem spoken_append {s t : String} (h : IsWhole s.toList) :
    spoken (s ++ t) = spoken s ++ spoken t := by
  rw [spoken, logicalLines_append h, List.map_append, List.map_map, List.filter_append]
  rfl

theorem filterMap_spoken {α : Type} {read : List Char → Option α}
    (h : ∀ line, isComment line = true → read line = none) (text : String) :
    (spoken text).filterMap read = (logicalLines text).filterMap fun line => read line.text := by
  rw [spoken, List.filterMap_filter, List.filterMap_map]
  refine List.filterMap_congr fun line _ => ?_
  cases hcomment : isComment line.text with
  | false => simp [hcomment]
  | true => simp [hcomment, h line.text hcomment]

/-- What a report says of a line, apart from where it stands. -/
def FailedLine.complaint (failed : FailedLine) : String × LineError :=
  (failed.text, failed.error)

/-- What is said of a line that cannot be read. -/
def complaint? (defaultZone : String) (line : List Char) : Option (String × LineError) :=
  match outcome defaultZone line with
  | .failed error => some (LogicalLine.shown ⟨0, line⟩, error)
  | _ => none

theorem ofText_congr {s t : String} (h : spoken s = spoken t) (defaultZone : String) :
    (Import.ofText defaultZone s).config = (Import.ofText defaultZone t).config ∧
      (Import.ofText defaultZone s).errors.map FailedLine.complaint =
        (Import.ofText defaultZone t).errors.map FailedLine.complaint := by
  have hconfig (text : String) : (Import.ofText defaultZone text).config =
      ofFragments ((spoken text).filterMap fun line => (outcome defaultZone line).fragment?) := by
    rw [config_ofText, List.filterMap_map, filterMap_spoken]
    · rfl
    · exact fun line hline => by rw [outcome_of_isComment hline]; rfl
  have herrors (text : String) :
      (Import.ofText defaultZone text).errors.map FailedLine.complaint =
        (spoken text).filterMap (complaint? defaultZone) := by
    rw [filterMap_spoken fun line hline => by simp [complaint?, outcome_of_isComment hline]]
    simp only [Import.ofText, outcomes, List.filterMap_map, List.map_filterMap]
    refine List.filterMap_congr fun line _ => ?_
    simp only [complaint?, Function.comp_apply]
    cases outcome defaultZone line.text <;> rfl
  rw [hconfig, hconfig, herrors, herrors, h]
  exact ⟨rfl, rfl⟩

/-! ## Texts that end a line -/

theorem isWhole_append {xs ys : List Char} (hx : IsWhole xs) (hy : IsWhole ys) :
    IsWhole (xs ++ ys) := by
  by_cases hne : ys = []
  · rwa [hne, List.append_nil]
  · refine ⟨.inr ?_, fun line hline => ?_⟩
    · rw [List.getLast?_append_of_ne_nil _ hne]
      exact hy.1.resolve_left hne
    · rw [lines_append hx.1, List.getLast?_append, Option.mem_def, Option.or_eq_some_iff] at hline
      rcases hline with hline | ⟨-, hline⟩
      · exact hy.2 line hline
      · exact hx.2 line hline

theorem closes_getLast_pieces {text : List Char} (h : Closes text) :
    ∀ piece ∈ (pieces (· == '\n') text).getLast?, Closes piece := by
  obtain ⟨front, c, rfl, hspace, hback⟩ := h
  induction front with
  | nil =>
    have hfeed : ¬ (c == '\n') = true := by
      rw [beq_iff_eq]
      rintro rfl
      exact absurd hspace (by decide)
    rw [List.nil_append, pieces_cons_of_neg (p := (· == '\n')) hfeed (pieces_nil _)]
    rintro _ ⟨⟩
    exact ⟨[], c, rfl, hspace, hback⟩
  | cons d front ih =>
    obtain ⟨w, ws, hw⟩ := List.exists_cons_of_ne_nil (pieces_ne_nil (· == '\n') (front ++ [c]))
    rw [hw] at ih
    by_cases hfeed : (d == '\n') = true
    · rw [List.cons_append, pieces_cons_of_pos (p := (· == '\n')) hfeed, hw]
      exact ih
    · rw [List.cons_append, pieces_cons_of_neg (p := (· == '\n')) hfeed hw]
      cases ws with
      | nil =>
        rintro _ ⟨⟩
        exact (ih w rfl).append [d]
      | cons v vs => exact ih

theorem isWhole_of_closes {text : List Char} (h : Closes text) : IsWhole (text ++ ['\n']) := by
  refine ⟨.inr List.getLast?_concat, fun line hline => ?_⟩
  rw [lines_append_cons, show Text.lines [] = [] by rfl, List.append_nil, List.getLast?_map] at hline
  obtain ⟨piece, hpiece, rfl⟩ := Option.mem_map.mp hline
  rw [← continued?_eq_none, continued?_dropReturn]
  exact continued?_of_closes (closes_getLast_pieces h piece hpiece)

theorem isWhole_of_isSingle {line : String} (h : IsSingle line) : IsWhole (line ++ "\n").toList := by
  have hlines : Text.lines (line ++ "\n").toList = [dropReturn line.toList] := by
    simpa using lines_join (List.forall_mem_singleton.mpr h.1)
  refine ⟨.inr (by simp), fun last hlast => ?_⟩
  rw [hlines] at hlast
  obtain rfl : dropReturn line.toList = last := by simpa using hlast
  rw [← continued?_eq_none, continued?_dropReturn]
  exact h.2

/-! ## Comments between other lines -/

theorem isComment_cons (c : Char) (line : List Char) :
    isComment (c :: line) = if isSpace c then isComment line else c == '#' := by
  by_cases hspace : isSpace c = true
  · simp [isComment, trim, trimStart, hspace]
  · rw [Bool.not_eq_true] at hspace
    have hstart : trimStart (c :: line) = c :: line := by simp [trimStart, hspace]
    rw [isComment, trim, hstart, head?_trimEnd hspace, hspace]
    simp

theorem isComment_append {line : List Char} (h : isComment line = true) (more : List Char) :
    isComment (line ++ more) = true := by
  induction line with
  | nil => cases h
  | cons c line ih =>
    rw [isComment_cons] at h
    rw [List.cons_append, isComment_cons]
    by_cases hspace : isSpace c = true
    · rw [if_pos hspace] at h ⊢
      exact ih h
    · rwa [if_neg hspace] at h ⊢

theorem isComment_trimEnd (line : List Char) : isComment (trimEnd line) = isComment line := by
  induction line with
  | nil => rfl
  | cons c line ih =>
    rw [isComment_cons c line, ← ih, trimEnd]
    cases trimEnd line with
    | nil => by_cases hspace : isSpace c = true <;> simp [hspace, isComment_cons]
    | cons d rest => exact isComment_cons c _

theorem isComment_of_append_backslash {head : List Char} (h : isComment (head ++ ['\\']) = true) :
    isComment head = true := by
  induction head with
  | nil => cases h
  | cons c head ih =>
    rw [List.cons_append, isComment_cons] at h
    rw [isComment_cons]
    by_cases hspace : isSpace c = true
    · rw [if_pos hspace] at h ⊢
      exact ih h
    · rwa [if_neg hspace] at h ⊢

theorem isComment_of_continued? {line head : List Char} (h : isComment line = true)
    (hline : continued? line = some head) : isComment head = true := by
  rw [← isComment_trimEnd, continued?_eq_some.mp hline] at h
  exact isComment_of_append_backslash h

theorem map_text_joinLines (m n : Nat) (ls : List (List Char)) :
    (joinLines m none ls).map (·.text) = (joinLines n none ls).map (·.text) := by
  have hshift (k : Nat) : (joinLines k none ls).map (·.text) = (joinLines 0 none ls).map (·.text) := by
    have h := joinLines_shift k 0 none ls
    rw [Nat.zero_add, Option.map_none] at h
    rw [h, List.map_map]
    rfl
  rw [hshift m, hshift n]

theorem map_text_joinLines_pending (m n : Nat) (pending : LogicalLine) (ls : List (List Char)) :
    ∃ more, (joinLines m (some pending) ls).map (·.text) =
      (pending.text ++ more) :: ((joinLines n none ls).map (·.text)).tail := by
  induction ls generalizing m n pending with
  | nil => exact ⟨[], by simp [joinLines]⟩
  | cons line ls ih =>
    rw [joinLines, joinLines]
    cases hline : continued? line with
    | some head =>
      -- both sides now wait for the rest of a line, and take the same one
      obtain ⟨more, hmore⟩ := ih (m + 1) 0 { pending with text := pending.text ++ head ++ [' '] }
      obtain ⟨other, hother⟩ := ih (n + 1) 0 ⟨n, [] ++ head ++ [' ']⟩
      refine ⟨head ++ [' '] ++ more, ?_⟩
      simp only [Option.getD_some, Option.getD_none]
      rw [hmore, hother]
      simp
    | none => exact ⟨line, by simp [map_text_joinLines (m + 1) (n + 1)]⟩

theorem spoken_comment {c : String} (h : IsSingle c) (hc : isComment c.toList = true) (t : String) :
    spoken (c ++ "\n" ++ t) = spoken t := by
  have hline : scriptText false [c] = c ++ "\n" := by simp [scriptText]
  have hcomment : isComment (dropReturn c.toList) = true := by rwa [isComment, trim_dropReturn]
  have hnone : spoken (scriptText false [c]) = [] := by
    rw [spoken, texts_of_isSingle (List.forall_mem_singleton.mpr h)]
    simpa [headerLines] using hcomment
  rw [spoken_append (isWhole_of_isSingle h), ← hline, hnone, List.nil_append]

theorem spoken_comment_continued {c : String} (hfeed : '\n' ∉ c.toList)
    (hc : isComment c.toList = true) {head : List Char} (hhead : continued? c.toList = some head)
    (t : String) :
    spoken (c ++ "\n" ++ t) =
      ((logicalLines t).map (·.text)).tail.filter fun line => !isComment line := by
  have hlines : lines (c ++ "\n" ++ t).toList = dropReturn c.toList :: lines t.toList := by
    have hpieces : pieces (· == '\n') c.toList = [c.toList] :=
      pieces_of_not fun d hd hn => hfeed (beq_iff_eq.mp hn ▸ hd)
    have htext : (c ++ "\n" ++ t).toList = c.toList ++ '\n' :: t.toList := by simp
    rw [htext, lines_append_cons, hpieces]
    rfl
  obtain ⟨more, hmore⟩ :=
    map_text_joinLines_pending 2 1 ⟨1, [] ++ head ++ [' ']⟩ (lines t.toList)
  have htexts : (logicalLines (c ++ "\n" ++ t)).map (·.text) =
      (head ++ [' '] ++ more) :: ((logicalLines t).map (·.text)).tail := by
    rw [logicalLines, hlines, joinLines, continued?_dropReturn, hhead]
    exact hmore
  have hfirst : isComment (head ++ [' '] ++ more) = true := by
    rw [List.append_assoc]
    exact isComment_append (isComment_of_continued? hc hhead) _
  rw [spoken, htexts, List.filter_cons_of_neg (by rw [hfirst]; decide)]

/-- **Comments.** A comment between two pieces of a script changes neither the configuration nor what
is said of lines that cannot be read, unless it has a backslash at the end. With one, it stands for
itself and the logical line behind it: the script is imported as if both were not there. -/
theorem ofText_comment (defaultZone : String) {s c t : String} (hs : IsWhole s.toList)
    (hfeed : '\n' ∉ c.toList) (hc : isComment c.toList = true) :
    let imported (text : String) : Import := Import.ofText defaultZone text
    let same (text other : String) : Prop :=
      (imported text).config = (imported other).config ∧
        (imported text).errors.map FailedLine.complaint =
          (imported other).errors.map FailedLine.complaint
    ((trimEnd c.toList).getLast? ≠ some '\\' → same (s ++ (c ++ "\n" ++ t)) (s ++ t)) ∧
      ((trimEnd c.toList).getLast? = some '\\' → ∀ rest,
        (logicalLines rest).map (·.text) = ((logicalLines t).map (·.text)).tail →
        same (s ++ (c ++ "\n" ++ t)) (s ++ rest)) := by
  intro imported same
  constructor
  · intro hback
    apply ofText_congr
    rw [spoken_append hs, spoken_append hs,
      spoken_comment ⟨hfeed, continued?_eq_none.mpr hback⟩ hc]
  · intro hback rest hrest
    obtain ⟨head, hhead⟩ := List.getLast?_eq_some_iff.mp hback
    apply ofText_congr
    rw [spoken_append hs, spoken_append hs,
      spoken_comment_continued hfeed hc (continued?_eq_some.mpr hhead), ← hrest]
    rfl

/-- A comment of one line, and one that takes a command over two lines with it. -/
theorem ofText_comment_continued :
    let add (service : String) : String := "firewall-cmd --zone=a --add-service=" ++ service
    let config (services : List String) : Config :=
      { zones := [("a", { services := services.map ({ value := · }) })] }
    let imported (text : String) : Import := Import.ofText "public" text
    (imported (add "ssh" ++ "\n" ++ ("\t# \\ old\r" ++ "\n" ++ add "dns"))).config =
        config ["ssh", "dns"] ∧
      (imported ("" ++ (" #old \\ " ++ "\n" ++ (add "ssh \\\n --timeout=5\n" ++ add "dns")))).config =
        config ["dns"] := by
  intro add config imported
  have hsingle := (ofText_comment "public" (s := add "ssh" ++ "\n") (c := "\t# \\ old\r")
    (t := add "dns") (by decide +kernel) (by decide) (by decide)).1 (by decide)
  have hcontinued := (ofText_comment "public" (s := "") (c := " #old \\ ")
    (t := add "ssh \\\n --timeout=5\n" ++ add "dns") (by decide) (by decide) (by decide)).2 (by decide)
    (add "dns") (by decide +kernel)
  exact ⟨hsingle.1.trans (by decide +kernel), hcontinued.1.trans (by decide +kernel)⟩

/-- A backslash at the end of a comment takes the command behind it into the comment. -/
theorem comment_takes_command :
    let command := "firewall-cmd --zone=public --add-service=ssh\n"
    let imported (text : String) : Import := Import.ofText "public" text
    (imported ("# old \\" ++ "\n" ++ command)).config = {} ∧
      (imported command).config =
        { zones := [("public", { services := [{ value := "ssh" }] })] } := by
  decide +kernel

end Script

end ZoneScript
