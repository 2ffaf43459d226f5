import ZoneScript.Proofs.Recognition

/-!
# Places in a line

The reader takes a character together with the backslash in front of it. Here each character is taken
on its own, so that a line can be looked at from any place in it: what the reader makes of the front of
a line depends on nothing that follows, and all that the rest of the line can tell of the front is the
place where it starts.
-/

namespace ZoneScript

namespace Shell

open Text

/-- Where the reader stands in front of a character: as between two of its steps, or behind a backslash
that may take the character, or in a comment. -/
inductive Place where
  | gap
  | word
  | single
  | double
  | escape
  | doubleEscape
  | comment
  deriving DecidableEq, Repr

namespace Place

/-- The place behind a character that is not quoted and no white space. -/
def enter (c : Char) : Place :=
  if c == '\'' then single
  else if c == '"' then double
  else if c == '\\' then escape
  else word

/-- The place behind a character. -/
def next (place : Place) (c : Char) : Place :=
  match place with
  | gap => if isSpace c then gap else if c == '#' then comment else enter c
  | word => if isSpace c then gap else enter c
  | single => if c == '\'' then word else single
  | double => if c == '"' then word else if c == '\\' then doubleEscape else double
  | escape => word
  | doubleEscape => double
  | comment => comment

/-- Whether white space here separates words: outside quotes and comments, and not behind a
backslash. -/
def isOutside (place : Place) : Bool :=
  place == gap || place == word

/-- The words of the rest of a line, read from a place in it. -/
def read : Place → List Char → Except OpenQuote (List (List Char))
  | gap, cs => splitFrom .gap cs
  | word, cs => splitFrom .word cs
  | single, cs => splitFrom .single cs
  | double, cs => splitFrom .double cs
  | escape, cs => splitFrom .word ('\\' :: cs)
  | doubleEscape, cs => splitFrom .double ('\\' :: cs)
  | comment, _ => .ok []

/-! ## One character

One case for each place; only the character decides which of the reader's steps it is. -/

theorem exists_read_enter {c : Char} (hspace : isSpace c = false) :
    ∃ f, ∀ cs, splitFrom .word (c :: cs) = ((enter c).read cs).map f := by
  by_cases hback : c = '\\'
  · subst hback
    exact ⟨pushAll [], fun cs => (map_pushAll_nil _).symm⟩
  rw [enter]
  split
  · rename_i hsingle
    exact ⟨pushAll [], fun cs => by
      rw [splitFrom_word_cons hback, map_pushAll_nil]
      simp [hspace, hsingle, read]⟩
  split
  · rename_i hsingle hdouble
    exact ⟨pushAll [], fun cs => by
      rw [splitFrom_word_cons hback, map_pushAll_nil]
      simp [hspace, hsingle, hdouble, read]⟩
  · rename_i hsingle hdouble
    exact ⟨push c, fun cs => by
      rw [splitFrom_word_cons hback]
      simp [hspace, hsingle, hdouble, hback, read]⟩

theorem exists_read_cons (place : Place) (c : Char) :
    ∃ f, ∀ cs, place.read (c :: cs) = ((place.next c).read cs).map f := by
  have same {r s : Except OpenQuote (List (List Char))} (h : r = s) : r = s.map (pushAll []) :=
    h.trans (map_pushAll_nil s).symm
  cases place with
  | gap =>
    rw [next]
    split
    · rename_i hspace
      exact ⟨pushAll [], fun cs => same (splitFrom_gap_space hspace cs)⟩
    rename_i hspace
    split
    · rename_i hhash
      refine ⟨pushAll [], fun cs => same ?_⟩
      rw [beq_iff_eq.mp hhash]
      rfl
    · rename_i hhash
      obtain ⟨f, hf⟩ := exists_read_enter (eq_false_of_ne_true hspace)
      refine ⟨f, fun cs => (splitFrom_gap_eq_word (eq_false_of_ne_true hspace) ?_ cs).trans (hf cs)⟩
      simpa using hhash
  | word =>
    rw [next]
    split
    · rename_i hspace
      exact ⟨([] :: ·), fun cs => splitFrom_word_space hspace cs⟩
    · rename_i hspace
      exact exists_read_enter (eq_false_of_ne_true hspace)
  | single =>
    rw [next]
    split
    · rename_i hquote
      exact ⟨pushAll [], fun cs => same (by simp [read, splitFrom_single_cons, hquote])⟩
    · rename_i hquote
      exact ⟨push c, fun cs => by simp [read, splitFrom_single_cons, hquote]⟩
  | double =>
    rw [next]
    split
    · rename_i hquote
      rw [beq_iff_eq.mp hquote]
      exact ⟨pushAll [], fun cs => same rfl⟩
    rename_i hquote
    split
    · rename_i hback
      rw [beq_iff_eq.mp hback]
      exact ⟨pushAll [], fun cs => same rfl⟩
    · rename_i hback
      exact ⟨push c, fun cs => by
        simp [read, splitFrom_double_cons (by simpa using hback), hquote]⟩
  | escape => exact ⟨push c, fun cs => rfl⟩
  | doubleEscape =>
    by_cases hescapable : isEscapable c = true
    · exact ⟨push c, fun cs => by simp [read, next, splitFrom_double_backslash, hescapable]⟩
    · -- the backslash stays, and so does the character behind it
      have hback : c ≠ '\\' := by
        rintro rfl
        exact hescapable (by decide)
      have hquote : c ≠ '"' := by
        rintro rfl
        exact hescapable (by decide)
      refine ⟨pushAll ['\\', c], fun cs => ?_⟩
      rw [read, splitFrom_double_backslash, splitFrom_double_cons hback]
      simp only [hescapable, hquote, beq_iff_eq, if_false, Bool.false_eq_true]
      exact map_pushAll_append _ ['\\'] [c]
  | comment => exact ⟨id, fun cs => rfl⟩

/-! ## Any number of characters -/

theorem exists_read_append (place : Place) (front : List Char) :
    ∃ f, ∀ cs, place.read (front ++ cs) = ((front.foldl next place).read cs).map f := by
  induction front generalizing place with
  | nil => exact ⟨pushAll [], fun cs => (map_pushAll_nil _).symm⟩
  | cons c front ih =>
    obtain ⟨f, hf⟩ := exists_read_cons place c
    obtain ⟨g, hg⟩ := ih (place.next c)
    refine ⟨f ∘ g, fun cs => ?_⟩
    rw [List.cons_append, hf, hg, List.foldl_cons]
    cases ((front.foldl next (place.next c)).read cs) <;> rfl

theorem next_of_isOutside {place : Place} (h : place.isOutside = true) {c : Char}
    (hspace : isSpace c = true) : place.next c = gap := by
  cases place with
  | gap | word => simp [next, hspace]
  | _ => cases h

theorem read_space {place : Place} (h : place.isOutside = true) {c : Char} (hspace : isSpace c = true)
    (cs : List Char) : place.read (c :: cs) = place.read (' ' :: ' ' :: cs) := by
  cases place with
  | gap => exact splitFrom_gap_space hspace cs
  | word => exact splitFrom_word_space hspace cs
  | _ => cases h

end Place

/-- The place behind the front of a line. -/
def placeAfter (front : List Char) : Place :=
  front.foldl Place.next .gap

theorem placeAfter_trimStart (front : List Char) : placeAfter (trimStart front) = placeAfter front := by
  induction front with
  | nil => rfl
  | cons c front ih =>
    by_cases hspace : isSpace c = true
    · have hstart : trimStart (c :: front) = trimStart front := by simp [trimStart, hspace]
      have hplace : placeAfter (c :: front) = placeAfter front := by
        rw [placeAfter, List.foldl_cons, Place.next_of_isOutside rfl hspace, ← placeAfter]
      rw [hstart, hplace, ih]
    · simp [trimStart, hspace]

end Shell

end ZoneScript
