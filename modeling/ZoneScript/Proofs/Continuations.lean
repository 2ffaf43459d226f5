import Mathlib.Data.List.TakeWhile
import Mathlib.Logic.Relation
import ZoneScript.Proofs.Places
import ZoneScript.Proofs.ScriptText

/-!
# Continued lines

A command may be broken at the white space between its words: with a backslash at the end of each part,
the parts are read as the line that they make. The joined line has two blanks where the broken one had
its separator, and no stage of the reader tells the one from the other.
-/

namespace ZoneScript

namespace Shell

open Text

/-! ## A wider separator -/

/-- The second line has two blanks in the place of a separator of the first. -/
inductive Widens : List Char → List Char → Prop
  | widen {front : List Char} {c : Char} (hspace : isSpace c = true)
      (hplace : (placeAfter front).isOutside = true) (back : List Char) :
      Widens (front ++ c :: back) (front ++ ' ' :: ' ' :: back)

theorem splitFrom_widen {front : List Char} {c : Char} (hspace : isSpace c = true)
    (hplace : (placeAfter front).isOutside = true) (back : List Char) :
    splitFrom .gap (front ++ c :: back) = splitFrom .gap (front ++ ' ' :: ' ' :: back) := by
  obtain ⟨f, hf⟩ := Place.exists_read_append .gap front
  calc splitFrom .gap (front ++ c :: back)
    _ = ((placeAfter front).read (c :: back)).map f := hf _
    _ = ((placeAfter front).read (' ' :: ' ' :: back)).map f := by rw [Place.read_space hplace hspace]
    _ = splitFrom .gap (front ++ ' ' :: ' ' :: back) := (hf _).symm

end Shell

namespace Text

theorem words_append_space {c : Char} (h : isSpace c = true) (front back : List Char) :
    words (front ++ c :: back) = words front ++ words back := by
  rw [words, pieces_append_cons h, List.filter_append]
  rfl

theorem words_widen {c : Char} (h : isSpace c = true) (front back : List Char) :
    words (front ++ c :: back) = words (front ++ ' ' :: ' ' :: back) := by
  rw [words_append_space h, words_append_space rfl, words_cons_space rfl]

/-! ## Trimmed lines -/

section

variable {front spaces back : List Char}

theorem trimEnd_of_isSpace (h : ∀ c ∈ spaces, isSpace c = true) : trimEnd spaces = [] := by
  induction spaces with
  | nil => rfl
  | cons c spaces ih =>
    obtain ⟨hc, hspaces⟩ := List.forall_mem_cons.mp h
    simp [trimEnd, ih hspaces, hc]

theorem trimStart_append (h : trimStart front ≠ []) (rest : List Char) :
    trimStart (front ++ rest) = trimStart front ++ rest := by
  rw [trimStart, List.dropWhile_append, if_neg (by simpa [trimStart] using h)]
  rfl

theorem trim_append_first (hspaces : ∀ c ∈ spaces, isSpace c = true) (hfront : trimStart front = []) :
    trim (front ++ (spaces ++ back)) = trim back := by
  have hall : ∀ c ∈ front ++ spaces, isSpace c = true :=
    List.forall_mem_append.mpr ⟨List.dropWhile_eq_nil_iff.mp hfront, hspaces⟩
  rw [← List.append_assoc, trim, trimStart, List.dropWhile_append_of_pos hall]
  rfl

theorem trim_append_last (hspaces : ∀ c ∈ spaces, isSpace c = true) (hfront : trimStart front ≠ [])
    (hback : trimEnd back = []) : trim (front ++ (spaces ++ back)) = trim front := by
  rw [trim, trimStart_append hfront, ← List.append_assoc, trimEnd_append_of_eq_nil hback,
    trimEnd_append_of_eq_nil (trimEnd_of_isSpace hspaces)]
  rfl

theorem trim_append_between (spaces : List Char) (hfront : trimStart front ≠ [])
    (hback : trimEnd back ≠ []) :
    trim (front ++ (spaces ++ back)) = trimStart front ++ (spaces ++ trimEnd back) := by
  rw [trim, trimStart_append hfront, ← List.append_assoc, trimEnd_append hback, List.append_assoc]

end

/-! ## White space around a text -/

theorem exists_eq_trimEnd (cs : List Char) :
    ∃ after, (∀ c ∈ after, isSpace c = true) ∧ cs = trimEnd cs ++ after := by
  induction cs with
  | nil => exact ⟨[], by simp, rfl⟩
  | cons c cs ih =>
    obtain ⟨after, hafter, hcs⟩ := ih
    rw [trimEnd]
    cases hend : trimEnd cs with
    | cons d ds => exact ⟨after, hafter, by rw [hend] at hcs; rw [List.cons_append, ← hcs]⟩
    | nil =>
      rw [hend, List.nil_append] at hcs
      by_cases hc : isSpace c = true
      · exact ⟨c :: after, List.forall_mem_cons.mpr ⟨hc, hafter⟩, by simp [hc, ← hcs]⟩
      · exact ⟨after, hafter, by simp [hc, ← hcs]⟩

theorem exists_eq_trim (cs : List Char) :
    ∃ before after, (∀ c ∈ before, isSpace c = true) ∧ (∀ c ∈ after, isSpace c = true) ∧
      cs = before ++ (trim cs ++ after) := by
  obtain ⟨after, hafter, h⟩ := exists_eq_trimEnd (trimStart cs)
  refine ⟨cs.takeWhile isSpace, after, fun _ => List.mem_takeWhile_imp, hafter, ?_⟩
  rw [trim, ← h, trimStart, List.takeWhile_append_dropWhile]

theorem trim_append_append {before inner after : List Char} (hbefore : ∀ c ∈ before, isSpace c = true)
    (hinner : ∀ c ∈ inner, isSpace c = false) (hafter : ∀ c ∈ after, isSpace c = true) :
    trim (before ++ (inner ++ after)) = inner := by
  have hend : trimEnd inner = inner := by
    induction inner with
    | nil => rfl
    | cons c inner ih =>
      obtain ⟨hc, hinner⟩ := List.forall_mem_cons.mp hinner
      rw [trimEnd, ih hinner]
      cases inner <;> simp [hc]
  have hfront : trim ([] ++ (before ++ (inner ++ after))) = trim (inner ++ after) :=
    trim_append_first hbefore rfl
  rw [List.nil_append] at hfront
  rw [hfront]
  cases inner with
  | nil => rw [List.nil_append, trim, trimStart, List.dropWhile_eq_nil_iff.mpr hafter, trimEnd]
  | cons c inner =>
    have hc := hinner c List.mem_cons_self
    have hstart : trimStart (c :: inner) = c :: inner := List.dropWhile_cons_of_neg (by simp [hc])
    have hlast : trim (c :: inner ++ (after ++ [])) = trim (c :: inner) :=
      trim_append_last hafter (by simp [hstart]) rfl
    rw [List.append_nil] at hlast
    rw [hlast, trim, hstart, hend]

end Text

namespace Script

open Text Shell

/-! ## White space and references -/

theorem ne_of_isSpace {c d : Char} (h : isSpace c = true) (hd : isSpace d = false) : c ≠ d := by
  rintro rfl
  rw [h] at hd
  cases hd

theorem isVariableStart_of_isSpace {c : Char} (h : isSpace c = true) : isVariableStart c = false := by
  by_contra hstart
  have hbare : isBare c = true := by
    simp only [isVariableStart, Bool.not_eq_false, Bool.or_eq_true, beq_iff_eq] at hstart
    rcases hstart with hletter | rfl
    · simp [isBare, Char.isAlphanum, hletter]
    · decide
  exact absurd h (by simp [isSpace_of_isPlain (isPlain_of_isBare hbare)])

theorem hasReference_widen {c : Char} (h : isSpace c = true) (front back : List Char) :
    HasReference (front ++ c :: back) ↔ HasReference (front ++ ' ' :: ' ' :: back) := by
  have hne {d : Char} (hd : isSpace d = false) : c ≠ d := ne_of_isSpace h hd
  have hdollar : c ≠ '$' := hne (by decide)
  have hopen : c ≠ '\x7b' := hne (by decide)
  have hround : c ≠ '(' := hne (by decide)
  have hclose : '\x7d' ≠ c := (hne (by decide)).symm
  have hroundClose : ')' ≠ c := (hne (by decide)).symm
  have hblank : isVariableStart ' ' = false := by decide
  induction front with
  | nil => simp [hasReference_cons, hdollar]
  | cons d front ih =>
    have hfollows : FollowsDollar (front ++ c :: back) ↔
        FollowsDollar (front ++ ' ' :: ' ' :: back) := by
      cases front with
      | nil => simp [FollowsDollar, hblank, hopen, hround, isVariableStart_of_isSpace h]
      | cons e front => simp [FollowsDollar, hclose, hroundClose]
    rw [List.cons_append, List.cons_append, hasReference_cons, hasReference_cons, hfollows]
    exact or_congr Iff.rfl ih

/-! ## What a wider line comes to -/

/-- Outcomes that are the same but for the text of a reference to a shell variable. -/
inductive Outcome.Alike : Outcome → Outcome → Prop
  | same (result : Outcome) : Alike result result
  | reference (s t : String) :
      Alike (.failed (.shellReference s)) (.failed (.shellReference t))

theorem Outcome.Alike.trans {r s t : Outcome} (h : r.Alike s) (k : s.Alike t) : r.Alike t := by
  cases h with
  | same => exact k
  | reference s t =>
    cases k with
    | same => exact .reference s t
    | reference => exact .reference s _

theorem alike_outcome {line wide : List Char} (hempty : (trim line).isEmpty = (trim wide).isEmpty)
    (hhead : (trim line).head? = (trim wide).head?) (hwords : words (trim line) = words (trim wide))
    (hreference : HasReference (trim line) ↔ HasReference (trim wide))
    (hsplit : splitFrom .gap (trim line) = splitFrom .gap (trim wide)) (defaultZone : String) :
    (outcome defaultZone line).Alike (outcome defaultZone wide) := by
  have hcut : Shell.split (.ofList (trim line)) = Shell.split (.ofList (trim wide)) := by
    rw [Shell.split, Shell.split, String.toList_ofList, String.toList_ofList, hsplit]
  simp only [outcome, hempty, hhead, hwords, hcut]
  split
  · exact .same _
  split
  · exact .same _
  split
  · exact .same _
  cases hline : reference? (trim line) with
  | some s =>
    obtain ⟨t, ht⟩ := Option.isSome_iff_exists.mp (hreference.mp (by rw [HasReference, hline]; rfl))
    rw [ht]
    exact .reference _ _
  | none =>
    have hwide : reference? (trim wide) = none := by
      rw [← Option.not_isSome_iff_eq_none]
      intro hsome
      have hback := hreference.mpr hsome
      rw [HasReference, hline] at hback
      cases hback
    rw [hwide]
    exact .same _

theorem alike_of_widens {line wide : List Char} (h : Widens line wide) (defaultZone : String) :
    (outcome defaultZone line).Alike (outcome defaultZone wide) := by
  -- A separator at one of the ends is gone when the line is trimmed, another one is still there.
  cases h with
  | @widen front c hspace hplace back =>
    have hc : ∀ d ∈ [c], isSpace d = true := by simpa using hspace
    have hblanks : ∀ d ∈ [' ', ' '], isSpace d = true := by
      have hblank : isSpace ' ' = true := rfl
      simp [hblank]
    have same (htrim : trim (front ++ ([c] ++ back)) = trim (front ++ ([' ', ' '] ++ back))) :
        (outcome defaultZone (front ++ c :: back)).Alike
          (outcome defaultZone (front ++ ' ' :: ' ' :: back)) := by
      show (outcome defaultZone (front ++ ([c] ++ back))).Alike
        (outcome defaultZone (front ++ ([' ', ' '] ++ back)))
      rw [outcome, outcome, htrim]
      exact .same _
    by_cases hfront : trimStart front = []
    · exact same (by rw [trim_append_first hc hfront, trim_append_first hblanks hfront])
    by_cases hback : trimEnd back = []
    · exact same (by rw [trim_append_last hc hfront hback, trim_append_last hblanks hfront hback])
    have hline : trim (front ++ c :: back) = trimStart front ++ c :: trimEnd back :=
      trim_append_between [c] hfront hback
    have hwide : trim (front ++ ' ' :: ' ' :: back) = trimStart front ++ ' ' :: ' ' :: trimEnd back :=
      trim_append_between [' ', ' '] hfront hback
    rw [← placeAfter_trimStart] at hplace
    obtain ⟨d, ds, hstart⟩ := List.exists_cons_of_ne_nil hfront
    apply alike_outcome
    · rw [hline, hwide, hstart]
      rfl
    · rw [hline, hwide, hstart]
      rfl
    · rw [hline, hwide]
      exact words_widen hspace _ _
    · rw [hline, hwide]
      exact hasReference_widen hspace _ _
    · rw [hline, hwide]
      exact splitFrom_widen hspace hplace _

theorem alike_of_reflTransGen {line wide : List Char} (h : Relation.ReflTransGen Widens line wide)
    (defaultZone : String) : (outcome defaultZone line).Alike (outcome defaultZone wide) := by
  induction h with
  | refl => exact .same _
  | tail _ hwidens ih => exact ih.trans (alike_of_widens hwidens defaultZone)

/-! ## Broken lines -/

/-- A line with a mark at each character that is to be replaced. -/
abbrev MarkedLine := List (Char × Bool)

namespace MarkedLine

/-- The line without its marks. -/
def text (line : MarkedLine) : List Char :=
  line.map (·.1)

/-- The line with the same text in place of each marked character. -/
def replace (new : List Char) (line : MarkedLine) : List Char :=
  line.flatMap fun (c, mark) => if mark then new else [c]

/-- The line with a blank, a backslash and a line feed in place of each marked character. -/
def broken (line : MarkedLine) : List Char :=
  line.replace [' ', '\\', '\n']

/-- The line with two blanks in place of each marked character. -/
def wide (line : MarkedLine) : List Char :=
  line.replace [' ', ' ']

/-- The marked characters separate words, read from this place on: each is white space outside quotes
and comments, without a backslash in front that takes it, and something other than white space is
behind it. -/
def MarksSeparators : Place → MarkedLine → Prop
  | _, [] => True
  | place, (c, mark) :: line =>
    (mark = true →
        isSpace c = true ∧ place.isOutside = true ∧ ∃ d ∈ MarkedLine.text line, isSpace d = false) ∧
      MarksSeparators (place.next c) line

def decideMarksSeparators :
    (place : Place) → (line : MarkedLine) → Decidable (line.MarksSeparators place)
  | _, [] => inferInstanceAs (Decidable True)
  | place, (c, _) :: line =>
    have := decideMarksSeparators (place.next c) line
    have := List.decidableBEx (isSpace · = false) (MarkedLine.text line)
    inferInstanceAs (Decidable (_ ∧ _))

instance (place : Place) (line : MarkedLine) : Decidable (line.MarksSeparators place) :=
  decideMarksSeparators place line

variable {place : Place} {line : MarkedLine}

@[simp]
theorem text_cons (c : Char) (mark : Bool) (line : MarkedLine) :
    text ((c, mark) :: line) = c :: line.text := rfl

@[simp]
theorem replace_unmarked (new : List Char) (c : Char) (line : MarkedLine) :
    replace new ((c, false) :: line) = c :: line.replace new := rfl

@[simp]
theorem replace_marked (new : List Char) (c : Char) (line : MarkedLine) :
    replace new ((c, true) :: line) = new ++ line.replace new := rfl

theorem MarksSeparators.replace_eq_text (h : line.MarksSeparators place)
    (hspaces : ∀ c ∈ line.text, isSpace c = true) (new : List Char) : line.replace new = line.text := by
  induction line generalizing place with
  | nil => rfl
  | cons e line ih =>
    obtain ⟨c, mark⟩ := e
    obtain ⟨hmark, h⟩ := h
    have hrest : ∀ d ∈ text line, isSpace d = true := fun d hd =>
      hspaces d (List.mem_cons_of_mem c hd)
    cases mark with
    | false => rw [replace_unmarked, text_cons, ih h hrest]
    | true =>
      obtain ⟨-, -, d, hd, hletter⟩ := hmark rfl
      rw [hrest d hd] at hletter
      cases hletter

theorem MarksSeparators.exists_letter (h : line.MarksSeparators place)
    (hletter : ∃ d ∈ line.text, isSpace d = false) (new : List Char) :
    ∃ d ∈ line.replace new, isSpace d = false := by
  obtain ⟨d, hd, hletter⟩ := hletter
  refine ⟨d, ?_, hletter⟩
  induction line generalizing place with
  | nil => cases hd
  | cons e line ih =>
    obtain ⟨c, mark⟩ := e
    obtain ⟨hmark, h⟩ := h
    cases mark with
    | false =>
      rw [replace_unmarked]
      rcases List.mem_cons.mp hd with rfl | hd
      · exact List.mem_cons_self
      · exact List.mem_cons_of_mem _ (ih h hd)
    | true =>
      rw [replace_marked]
      rcases List.mem_cons.mp hd with rfl | hd
      · rw [(hmark rfl).1] at hletter
        cases hletter
      · exact List.mem_append_right _ (ih h hd)

end MarkedLine

/-! ## The last part of a line -/

/-- What the last physical line adds to its logical line. -/
def lastLine (ended : Bool) (cs : List Char) : List Char :=
  let line := if ended then dropReturn cs else cs
  (continued? line).elim line (· ++ [' '])

theorem dropReturn_append {back : List Char} (h : back ≠ []) (front : List Char) :
    dropReturn (front ++ back) = front ++ dropReturn back := by
  induction front with
  | nil => rfl
  | cons c front ih =>
    have hne : front ++ back ≠ [] := List.append_ne_nil_of_right_ne_nil front h
    rw [List.cons_append, dropReturn, ih]
    simp [hne]

theorem continued?_append {back : List Char} (h : trimEnd back ≠ []) (front : List Char) :
    continued? (front ++ back) = (continued? back).map (front ++ ·) := by
  cases hback : continued? back with
  | some head =>
    rw [continued?_eq_some] at hback
    rw [Option.map_some, continued?_eq_some, trimEnd_append h, hback, List.append_assoc]
  | none =>
    rw [continued?_eq_none] at hback
    rw [Option.map_none, continued?_eq_none, trimEnd_append h, List.getLast?_append_of_ne_nil _ h]
    exact hback

theorem lastLine_append {back : List Char} (h : ∃ d ∈ back, isSpace d = false) (ended : Bool)
    (front : List Char) : lastLine ended (front ++ back) = front ++ lastLine ended back := by
  obtain ⟨d, hd, hletter⟩ := h
  have hend : trimEnd back ≠ [] := trimEnd_ne_nil hd hletter
  have hcut : (if ended then dropReturn (front ++ back) else front ++ back) =
      front ++ if ended then dropReturn back else back := by
    rw [dropReturn_append (List.ne_nil_of_mem hd)]
    cases ended <;> rfl
  have hendCut : trimEnd (if ended then dropReturn back else back) ≠ [] := by
    cases ended with
    | false => exact hend
    | true => exact trimEnd_dropReturn back ▸ hend
  simp only [lastLine]
  rw [hcut, continued?_append hendCut]
  cases continued? (if ended then dropReturn back else back) with
  | none => rfl
  | some head => simp

theorem reflTransGen_widens {line : MarkedLine} {place : Place} (h : line.MarksSeparators place)
    (front : List Char) (hplace : placeAfter front = place) (ended : Bool) :
    Relation.ReflTransGen Widens (front ++ lastLine ended line.text)
      (front ++ lastLine ended line.wide) := by
  induction line generalizing front place with
  | nil => exact .refl
  | cons e line ih =>
    obtain ⟨c, mark⟩ := e
    by_cases hletter : ∃ d ∈ MarkedLine.text line, isSpace d = false
    · obtain ⟨hmark, hline⟩ := h
      have hwide : ∃ d ∈ MarkedLine.wide line, isSpace d = false := hline.exists_letter hletter _
      have htext : lastLine ended (MarkedLine.text ((c, mark) :: line)) =
          c :: lastLine ended (MarkedLine.text line) := lastLine_append hletter ended [c]
      cases mark with
      | false =>
        have hkept : lastLine ended (MarkedLine.wide ((c, false) :: line)) =
            c :: lastLine ended (MarkedLine.wide line) := lastLine_append hwide ended [c]
        have hnext : placeAfter (front ++ [c]) = place.next c := by
          rw [placeAfter, List.foldl_append, ← placeAfter, hplace]
          rfl
        have hrest := ih hline _ hnext
        rw [List.append_assoc, List.append_assoc] at hrest
        rw [htext, hkept]
        exact hrest
      | true =>
        obtain ⟨hspace, houtside, -⟩ := hmark rfl
        have hwidened : lastLine ended (MarkedLine.wide ((c, true) :: line)) =
            ' ' :: ' ' :: lastLine ended (MarkedLine.wide line) :=
          lastLine_append hwide ended [' ', ' ']
        have hnext : placeAfter (front ++ [' ', ' ']) = place.next c := by
          rw [placeAfter, List.foldl_append, ← placeAfter, hplace,
            Place.next_of_isOutside houtside hspace]
          exact Place.next_of_isOutside (c := ' ')
            (by rw [Place.next_of_isOutside houtside rfl]; rfl) rfl
        have hrest := ih hline _ hnext
        rw [List.append_assoc, List.append_assoc] at hrest
        rw [htext, hwidened]
        exact .head (.widen hspace (hplace ▸ houtside) _) hrest
    · -- no separator is left, so that nothing is replaced
      have hspaces : ∀ d ∈ MarkedLine.text line, isSpace d = true := by simpa using hletter
      obtain ⟨hmark, hline⟩ := h
      cases mark with
      | false =>
        rw [MarkedLine.wide, MarkedLine.replace_unmarked, hline.replace_eq_text hspaces]
        exact .refl
      | true => exact absurd (hmark rfl).2.2 hletter

/-! ## Joining the parts -/

/-- The end of the last physical line. -/
def lineEnd (ended : Bool) : List Char :=
  if ended then ['\n'] else []

theorem pieces_of_noFeed {cs : List Char} (h : '\n' ∉ cs) : pieces (· == '\n') cs = [cs] :=
  pieces_of_not fun _ hc hfeed => h (beq_iff_eq.mp hfeed ▸ hc)

theorem lines_lineEnd (ended : Bool) {cs : List Char} (hfeed : '\n' ∉ cs) (hne : cs ≠ []) :
    lines (cs ++ lineEnd ended) = [if ended then dropReturn cs else cs] := by
  cases ended with
  | true =>
    rw [lineEnd, if_pos rfl, lines_append_cons, pieces_of_noFeed hfeed]
    rfl
  | false =>
    rw [lineEnd, if_neg (by simp), List.append_nil, lines, pieces_of_noFeed hfeed, endedLines,
      if_neg (by simpa using hne)]
    rfl

theorem lines_continued {cs : List Char} (hfeed : '\n' ∉ cs) (rest : List Char) :
    lines (cs ++ ' ' :: '\\' :: '\n' :: rest) = (cs ++ [' ', '\\']) :: lines rest := by
  have hpart : '\n' ∉ cs ++ [' ', '\\'] := by simpa using hfeed
  have hlines := lines_append_cons (cs ++ [' ', '\\']) rest
  rw [pieces_of_noFeed hpart, List.append_assoc] at hlines
  refine hlines.trans ?_
  rw [List.map_singleton, dropReturn_append (by simp)]
  rfl

theorem joinLines_continued {cs : List Char} (hfeed : '\n' ∉ cs) (n : Nat)
    (pending : Option LogicalLine) (rest : List Char) :
    joinLines n pending (lines (cs ++ ' ' :: '\\' :: '\n' :: rest)) =
      joinLines (n + 1) (some ⟨(pending.getD ⟨n, []⟩).number,
        (pending.getD ⟨n, []⟩).text ++ (cs ++ [' ', ' '])⟩) (lines rest) := by
  have hcontinued : continued? (cs ++ [' ', '\\']) = some (cs ++ [' ']) := by
    rw [continued?_append (by decide)]
    rfl
  rw [lines_continued hfeed, joinLines, hcontinued]
  simp

theorem joinLines_lineEnd (ended : Bool) {cs : List Char} (hfeed : '\n' ∉ cs) (hne : cs ≠ []) (n : Nat)
    (pending : Option LogicalLine) :
    joinLines n pending (lines (cs ++ lineEnd ended)) =
      [⟨(pending.getD ⟨n, []⟩).number, (pending.getD ⟨n, []⟩).text ++ lastLine ended cs⟩] := by
  rw [lines_lineEnd ended hfeed hne, lastLine, joinLines]
  cases continued? (if ended then dropReturn cs else cs) with
  | none => rfl
  | some head => simp [joinLines]

theorem joinLines_broken {line : MarkedLine} {place : Place} (h : line.MarksSeparators place)
    (cs : List Char) (hfeed : '\n' ∉ cs ++ line.text) (hne : cs ++ line.text ≠ []) (ended : Bool)
    (n : Nat) (pending : Option LogicalLine) :
    joinLines n pending (lines (cs ++ (line.broken ++ lineEnd ended))) =
      [⟨(pending.getD ⟨n, []⟩).number,
        (pending.getD ⟨n, []⟩).text ++ lastLine ended (cs ++ line.wide)⟩] := by
  induction line generalizing cs place n pending with
  | nil =>
    have hcs : '\n' ∉ cs ∧ cs ≠ [] := by simpa [MarkedLine.text] using And.intro hfeed hne
    rw [show cs ++ MarkedLine.wide [] = cs from List.append_nil cs]
    exact joinLines_lineEnd ended hcs.1 hcs.2 n pending
  | cons e line ih =>
    obtain ⟨c, mark⟩ := e
    obtain ⟨hmark, hline⟩ := h
    cases mark with
    | false =>
      have hrest := ih hline (cs ++ [c]) (by simpa using hfeed) (by simp) n pending
      rw [List.append_assoc cs, List.append_assoc cs] at hrest
      exact hrest
    | true =>
      obtain ⟨-, -, hletter⟩ := hmark rfl
      obtain ⟨hcs, hrestFeed⟩ : '\n' ∉ cs ∧ '\n' ∉ MarkedLine.text line := by
        simp only [MarkedLine.text_cons, List.mem_append, List.mem_cons, not_or] at hfeed
        exact ⟨hfeed.1, hfeed.2.2⟩
      have hwide : ∃ d ∈ MarkedLine.wide line, isSpace d = false := hline.exists_letter hletter _
      have hlast : lastLine ended (cs ++ MarkedLine.wide ((c, true) :: line)) =
          cs ++ [' ', ' '] ++ lastLine ended (MarkedLine.wide line) := by
        rw [← lastLine_append hwide, List.append_assoc]
        rfl
      have hne : MarkedLine.text line ≠ [] := by
        obtain ⟨d, hd, -⟩ := hletter
        exact List.ne_nil_of_mem hd
      calc joinLines n pending (lines (cs ++ (MarkedLine.broken ((c, true) :: line) ++ lineEnd ended)))
        _ = joinLines (n + 1) (some ⟨(pending.getD ⟨n, []⟩).number,
              (pending.getD ⟨n, []⟩).text ++ (cs ++ [' ', ' '])⟩)
              (lines (MarkedLine.broken line ++ lineEnd ended)) :=
          joinLines_continued hcs n pending (MarkedLine.broken line ++ lineEnd ended)
        _ = [⟨(pending.getD ⟨n, []⟩).number, (pending.getD ⟨n, []⟩).text ++ (cs ++ [' ', ' ']) ++
              lastLine ended (MarkedLine.wide line)⟩] := ih hline [] hrestFeed hne (n + 1) _
        _ = _ := by rw [hlast, List.append_assoc _ (cs ++ [' ', ' '])]

/-! ## Imports of broken lines -/

/-- The numbers and reasons of the lines that say nothing. -/
def Import.reasons (result : Import) : List (Nat × SkipReason) :=
  result.skipped.map fun skipped => (skipped.line, skipped.reason)

/-- The numbers of the lines that cannot be read. -/
def Import.failures (result : Import) : List Nat :=
  result.errors.map (·.line)

theorem ofText_of_alike {s t : String} {number : Nat} {cs ds : List Char}
    (hs : logicalLines s = [⟨number, cs⟩]) (ht : logicalLines t = [⟨number, ds⟩]) {defaultZone : String}
    (h : (outcome defaultZone cs).Alike (outcome defaultZone ds)) :
    let first := Import.ofText defaultZone s
    let second := Import.ofText defaultZone t
    second.config = first.config ∧ second.parsed = first.parsed ∧
      second.failures = first.failures ∧ second.reasons = first.reasons ∧
      first.parsed ++ first.failures ++ first.reasons.map (·.1) = [number] := by
  simp only [Import.ofText, outcomes, hs, ht, List.map_singleton, Import.failures, Import.reasons]
  generalize outcome defaultZone cs = result at h
  generalize outcome defaultZone ds = other at h
  cases h with
  | same => cases result <;> exact ⟨rfl, rfl, rfl, rfl, rfl⟩
  | reference => exact ⟨rfl, rfl, rfl, rfl, rfl⟩

/-- **Continuation.** Let a text be one line, with or without a line feed at its end, and let some of
the white space that separates its words be replaced by a blank, a backslash and a line feed. Then it is
imported as before: as the same configuration, and if the line is not read, it is listed once, under the
same number, as an error or as left out for the same reason. -/
theorem ofText_broken (defaultZone : String) {line : MarkedLine} (hne : line ≠ [])
    (hfeed : '\n' ∉ line.text) (hmarks : line.MarksSeparators .gap) (ended : Bool) :
    let whole := Import.ofText defaultZone (.ofList (line.text ++ lineEnd ended))
    let broken := Import.ofText defaultZone (.ofList (line.broken ++ lineEnd ended))
    broken.config = whole.config ∧ broken.parsed = whole.parsed ∧
      broken.failures = whole.failures ∧ broken.reasons = whole.reasons ∧
      whole.parsed ++ whole.failures ++ whole.reasons.map (·.1) = [1] := by
  have htext : line.text ≠ [] := by simpa [MarkedLine.text] using hne
  have hwhole :
      logicalLines (.ofList (line.text ++ lineEnd ended)) = [⟨1, lastLine ended line.text⟩] := by
    rw [logicalLines, String.toList_ofList]
    exact joinLines_lineEnd ended hfeed htext 1 none
  have hbroken :
      logicalLines (.ofList (line.broken ++ lineEnd ended)) = [⟨1, lastLine ended line.wide⟩] := by
    rw [logicalLines, String.toList_ofList]
    exact joinLines_broken hmarks [] hfeed htext ended 1 none
  have hwidens := reflTransGen_widens hmarks [] rfl ended
  exact ofText_of_alike hwhole hbroken (alike_of_reflTransGen hwidens defaultZone)

/-- A line broken at its tabs, two of which stand side by side; quotes keep the white space in them. -/
theorem ofText_broken_tabs :
    let whole := "sudo\tfirewall-cmd --zone=dmz\t\t--set-target='a  b' --add-forward\t# on\n"
    let broken :=
      "sudo \\\nfirewall-cmd --zone=dmz \\\n \\\n--set-target='a  b' --add-forward \\\n# on\n"
    (Import.ofText "public" broken).config = (Import.ofText "public" whole).config ∧
      (Import.ofText "public" broken).parsed = (Import.ofText "public" whole).parsed ∧
      (Import.ofText "public" whole).config =
        { zones := [("dmz", { target := some "a  b", forward := some true })] } := by
  intro whole broken
  let line : MarkedLine :=
    "sudo\tfirewall-cmd --zone=dmz\t\t--set-target='a  b' --add-forward\t# on".toList.map fun c =>
      (c, c == '\t')
  have hwhole : String.ofList (line.text ++ lineEnd true) = whole := by decide +kernel
  have hbroken : String.ofList (line.broken ++ lineEnd true) = broken := by decide +kernel
  have hmarks : line.MarksSeparators .gap := by decide +kernel
  have hsame := ofText_broken "public" (by decide +kernel) (by decide +kernel) hmarks true
  rw [hwhole, hbroken] at hsame
  exact ⟨hsame.1, hsame.2.1, by decide +kernel⟩

end Script

end ZoneScript
