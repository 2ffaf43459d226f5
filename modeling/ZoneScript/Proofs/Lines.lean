import ZoneScript.Script.LogicalLine

/-!
# Lines, physical and logical

A text that ends with a line feed is cut apart from what follows it, and so are its logical lines
unless the last physical one asks for more.
-/

namespace ZoneScript

namespace Text

/-! ## Pieces -/

@[simp]
theorem pieces_nil (p : Char → Bool) : pieces p [] = [[]] := rfl

theorem pieces_cons_of_pos {p : Char → Bool} {c : Char} (h : p c = true) (cs : List Char) :
    pieces p (c :: cs) = [] :: pieces p cs := by
  rw [pieces, if_pos h]

theorem pieces_cons_of_neg {p : Char → Bool} {c : Char} (h : ¬ p c = true) {cs w : List Char}
    {ws : List (List Char)} (hcs : pieces p cs = w :: ws) : pieces p (c :: cs) = (c :: w) :: ws := by
  rw [pieces, if_neg h, hcs]

theorem pieces_append_cons {p : Char → Bool} {c : Char} (h : p c = true) (xs ys : List Char) :
    pieces p (xs ++ c :: ys) = pieces p xs ++ pieces p ys := by
  induction xs with
  | nil => exact pieces_cons_of_pos h ys
  | cons x xs ih =>
    by_cases hx : p x = true
    · rw [List.cons_append, pieces_cons_of_pos hx, pieces_cons_of_pos hx, ih]
      rfl
    · obtain ⟨w, ws, hw⟩ := List.exists_cons_of_ne_nil (pieces_ne_nil p xs)
      rw [hw] at ih
      rw [List.cons_append, pieces_cons_of_neg hx ih, pieces_cons_of_neg hx hw]
      rfl

theorem pieces_append_of_not {p : Char → Bool} {xs : List Char} (h : ∀ c ∈ xs, ¬ p c = true)
    {ys w : List Char} {ws : List (List Char)} (hys : pieces p ys = w :: ws) :
    pieces p (xs ++ ys) = (xs ++ w) :: ws := by
  induction xs with
  | nil => exact hys
  | cons x xs ih =>
    exact pieces_cons_of_neg (h x List.mem_cons_self) (ih fun d hd => h d (List.mem_cons_of_mem _ hd))

theorem pieces_of_not {p : Char → Bool} {cs : List Char} (h : ∀ c ∈ cs, ¬ p c = true) :
    pieces p cs = [cs] := by
  simpa using pieces_append_of_not h (pieces_nil p)

/-! ## Lines -/

theorem endedLines_append {ys : List (List Char)} (h : ys ≠ []) (xs : List (List Char)) :
    endedLines (xs ++ ys) = xs.map dropReturn ++ endedLines ys := by
  induction xs with
  | nil => rfl
  | cons x xs ih =>
    obtain ⟨z, zs, hz⟩ := List.exists_cons_of_ne_nil (List.append_ne_nil_of_right_ne_nil xs h)
    rw [List.cons_append, hz, endedLines, ← hz, ih]
    rfl

theorem lines_append_cons (xs ys : List Char) :
    lines (xs ++ '\n' :: ys) = (pieces (· == '\n') xs).map dropReturn ++ lines ys := by
  rw [lines, pieces_append_cons (by rfl), endedLines_append (pieces_ne_nil _ _)]
  rfl

/-- A text is empty or ends with a line feed. -/
def IsEnded (cs : List Char) : Prop :=
  cs = [] ∨ cs.getLast? = some '\n'

instance (cs : List Char) : Decidable (IsEnded cs) :=
  inferInstanceAs (Decidable (_ ∨ _))

theorem lines_append {xs : List Char} (h : IsEnded xs) (ys : List Char) :
    lines (xs ++ ys) = lines xs ++ lines ys := by
  rcases h with rfl | h
  · rfl
  · obtain ⟨zs, rfl⟩ := List.getLast?_eq_some_iff.mp h
    rw [List.append_assoc, lines_append_cons, List.singleton_append, lines_append_cons]
    simp [lines, endedLines]

end Text

namespace Script

open Text

/-! ## Logical lines -/

/-- A text after which a new logical line starts: it is ended, and what stands in its last line has no
backslash at the end. -/
def IsWhole (cs : List Char) : Prop :=
  IsEnded cs ∧ ∀ line ∈ (lines cs).getLast?, (trimEnd line).getLast? ≠ some '\\'

instance (cs : List Char) : Decidable (IsWhole cs) :=
  inferInstanceAs (Decidable (_ ∧ _))

theorem continued?_eq_some {line head : List Char} :
    continued? line = some head ↔ trimEnd line = head ++ ['\\'] := by
  rw [continued?, dropTail?, Option.map_eq_some_iff]
  constructor
  · rintro ⟨r, hr, rfl⟩
    have := congrArg List.reverse (dropHead?_eq_some.mp hr)
    simpa using this
  · intro h
    exact ⟨head.reverse, dropHead?_eq_some.mpr (by simp [h]), by simp⟩

theorem continued?_eq_none {line : List Char} :
    continued? line = none ↔ (trimEnd line).getLast? ≠ some '\\' := by
  rw [ne_eq, List.getLast?_eq_some_iff, Option.eq_none_iff_forall_ne_some]
  constructor
  · rintro h ⟨head, hh⟩
    exact h head (continued?_eq_some.mpr hh)
  · intro h head hh
    exact h ⟨head, continued?_eq_some.mp hh⟩

/-- The same line further down. -/
def LogicalLine.shift (k : Nat) (line : LogicalLine) : LogicalLine :=
  { line with number := line.number + k }

theorem joinLines_shift (k n : Nat) (pending : Option LogicalLine) (ls : List (List Char)) :
    joinLines (n + k) (pending.map (.shift k)) ls = (joinLines n pending ls).map (.shift k) := by
  induction ls generalizing n pending with
  | nil => cases pending <;> rfl
  | cons l ls ih =>
    have current : (pending.map (.shift k)).getD ⟨n + k, []⟩ =
        (pending.getD ⟨n, []⟩).shift k := by
      cases pending <;> rfl
    rw [joinLines, joinLines, current]
    cases hl : continued? l with
    | some head =>
      simp only
      rw [← ih, Nat.add_right_comm]
      rfl
    | none =>
      simp only [List.map_cons]
      rw [← ih (n + 1) none, Nat.add_right_comm]
      rfl

theorem joinLines_append {xs : List (List Char)}
    (h : ∀ line, xs.getLast? = some line → continued? line = none) (n : Nat)
    {pending : Option LogicalLine} (hp : xs = [] → pending = none) (ys : List (List Char)) :
    joinLines n pending (xs ++ ys) = joinLines n pending xs ++ joinLines (n + xs.length) none ys := by
  induction xs generalizing n pending with
  | nil => rw [hp rfl]; rfl
  | cons x xs ih =>
    have hxs : ∀ line, xs.getLast? = some line → continued? line = none := by
      intro line hline
      apply h
      rw [List.getLast?_cons, hline]
      rfl
    rw [List.cons_append, joinLines, joinLines]
    cases hx : continued? x with
    | some head =>
      simp only
      rw [ih hxs]
      · simp [Nat.add_comm 1, Nat.add_assoc]
      · rintro rfl
        have := h x rfl
        rw [hx] at this
        contradiction
    | none =>
      simp only
      rw [ih hxs (n + 1) fun _ => rfl]
      simp [Nat.add_comm 1, Nat.add_assoc]

theorem logicalLines_append {s t : String} (h : IsWhole s.toList) :
    logicalLines (s ++ t) =
      logicalLines s ++ (logicalLines t).map (.shift (lines s.toList).length) := by
  obtain ⟨hended, hlast⟩ := h
  simp only [logicalLines]
  rw [String.toList_append, lines_append hended,
    joinLines_append (fun line hl => continued?_eq_none.mpr (hlast line hl)) 1 (fun _ => rfl)]
  exact congrArg _ (joinLines_shift _ 1 none _)

end Script

end ZoneScript
