/-!
# Cutting a text at a mark

Cuts at the first occurrence of a character or of a fixed text, and the text joined back.
-/

namespace ZoneScript.Text

/-- What stands before and after the first `mark`, if there is one. -/
def splitFirst (mark : Char) : List Char → Option (List Char × List Char)
  | [] => none
  | c :: cs =>
    if c == mark then some ([], cs)
    else (splitFirst mark cs).map fun (before, after) => (c :: before, after)

theorem splitFirst_eq_some {mark : Char} {cs before after : List Char} :
    splitFirst mark cs = some (before, after) ↔ cs = before ++ mark :: after ∧ mark ∉ before := by
  induction cs generalizing before after with
  | nil => simp [splitFirst]
  | cons c cs ih =>
    simp only [splitFirst]
    by_cases h : c = mark
    · subst h
      cases before with
      | nil => simp
      | cons d ds => simp; rintro rfl; simp
    · cases before with
      | nil => simp [h]
      | cons d ds =>
        simp only [beq_iff_eq, h, if_false, Option.map_eq_some_iff, Prod.exists, Prod.mk.injEq,
          List.cons.injEq, List.cons_append, List.mem_cons, not_or]
        constructor
        · rintro ⟨b, a, e, ⟨rfl, rfl⟩, rfl⟩
          obtain ⟨rfl, m⟩ := ih.mp e
          exact ⟨⟨rfl, rfl⟩, ⟨Ne.symm h, m⟩⟩
        · rintro ⟨⟨rfl, rfl⟩, -, m⟩
          exact ⟨ds, after, ih.mpr ⟨rfl, m⟩, ⟨rfl, rfl⟩, rfl⟩

theorem splitFirst_eq_none {mark : Char} {cs : List Char} :
    splitFirst mark cs = none ↔ mark ∉ cs := by
  induction cs with
  | nil => simp [splitFirst]
  | cons c cs ih =>
    by_cases h : c = mark
    · simp [splitFirst, h]
    · simp [splitFirst, h, ih, Ne.symm h]

/-- The rest of a text that starts with `head`. -/
def dropHead? : List Char → List Char → Option (List Char)
  | [], cs => some cs
  | _ :: _, [] => none
  | h :: hs, c :: cs => if h == c then dropHead? hs cs else none

theorem dropHead?_eq_some {head cs rest : List Char} :
    dropHead? head cs = some rest ↔ cs = head ++ rest := by
  induction head generalizing cs with
  | nil => simp [dropHead?]
  | cons h hs ih =>
    cases cs with
    | nil => simp [dropHead?]
    | cons c cs =>
      by_cases e : h = c
      · subst e; simp [dropHead?, ih]
      · simp [dropHead?, e, Ne.symm e]

/-- The front of a text that ends with `tail`. -/
def dropTail? (tail cs : List Char) : Option (List Char) :=
  (dropHead? tail.reverse cs.reverse).map List.reverse

/-- Whether `head` starts the text. -/
def startsWith (head cs : List Char) : Bool :=
  (dropHead? head cs).isSome

/-- Whether `part` occurs in the text. -/
def contains (part : List Char) : List Char → Bool
  | [] => part.isEmpty
  | c :: cs => startsWith part (c :: cs) || contains part cs

/-- The front of a text before the first occurrence of `part`, the whole text if there is none. -/
def before (part : List Char) : List Char → List Char
  | [] => []
  | c :: cs => if startsWith part (c :: cs) then [] else c :: before part cs

/-- The pieces with `mark` between each two. -/
def joinWith (mark : List Char) : List (List Char) → List Char
  | [] => []
  | [w] => w
  | w :: v :: ws => w ++ mark ++ joinWith mark (v :: ws)

end ZoneScript.Text
