import ZoneScript.Proofs.Continuations
import ZoneScript.Proofs.Tokens

/-!
# The variable of a loop

A loop names its variable by the bare name or by a token. What counts as a token is the same as in a text,
where it would be replaced.
-/

namespace ZoneScript

theorem Text.dropTail?_eq_some {tail cs front : List Char} :
    dropTail? tail cs = some front ↔ cs = front ++ tail := by
  rw [dropTail?, Option.map_eq_some_iff]
  constructor
  · rintro ⟨rest, hrest, rfl⟩
    have hreverse := congrArg List.reverse (dropHead?_eq_some.mp hrest)
    rwa [List.reverse_reverse, List.reverse_append, List.reverse_reverse] at hreverse
  · rintro rfl
    exact ⟨front.reverse, dropHead?_eq_some.mpr List.reverse_append, List.reverse_reverse front⟩

namespace Template

open Text

theorem isToken_iff_pieces {cs name : List Char} : IsToken cs name ↔ pieces cs = [.token cs name] := by
  constructor
  · intro h
    obtain ⟨c, inner, rfl, -⟩ := h.eq_cons
    rw [pieces_token h (List.append_nil _).symm, pieces]
  · intro h
    cases cs with
    | nil => simp [pieces] at h
    | cons c cs =>
      cases hread : tokenAt? (c :: cs) with
      | none => simp [pieces_char hread] at h
      | some found =>
        obtain ⟨other, rest⟩ := found
        obtain ⟨written, htoken, hcs⟩ := tokenAt?_eq_some.mp hread
        rw [pieces_token htoken hcs] at h
        obtain ⟨hpiece, -⟩ := List.cons.inj h
        obtain ⟨rfl, rfl⟩ := Piece.token.inj hpiece
        exact htoken

theorem braced_iff {cs inner : List Char} :
    (dropHead? opening cs).bind (dropTail? closing) = some inner ↔ cs = opening ++ (inner ++ closing) := by
  simp only [Option.bind_eq_some_iff, dropHead?_eq_some, dropTail?_eq_some]
  exact ⟨fun ⟨_, hopening, hclosing⟩ => hclosing ▸ hopening, fun h => ⟨_, h, rfl⟩⟩

theorem isToken_iff {cs name : List Char} :
    IsToken cs name ↔ ∃ inner, cs = opening ++ (inner ++ closing) ∧ trim inner = name ∧ isName name = true := by
  constructor
  · rintro @⟨before, name, after, hbefore, hname, hafter⟩
    refine ⟨before ++ (name ++ after), by simp only [List.append_assoc], ?_, hname⟩
    exact trim_append_append hbefore (fun c hc => isSpace_of_isNameChar (all_isNameChar_of_isName hname c hc))
      hafter
  · rintro ⟨inner, rfl, rfl, hname⟩
    obtain ⟨before, after, hbefore, hafter, hinner⟩ := exists_eq_trim inner
    have h := IsToken.spaced hbefore hname hafter
    rwa [← List.append_assoc (trim inner), ← List.append_assoc before, ← hinner] at h

/-- **Loops.** A loop names a variable if and only if it is, without the white space around it, the name
of the variable, or a token of that name from its start to its end: then as a text it would be replaced
as a whole. -/
theorem loopTarget?_eq_some_iff (directive name : String) :
    (loopTarget? directive = some name ↔
      (trim directive.toList = name.toList ∧ isName name.toList = true) ∨
        IsToken (trim directive.toList) name.toList) ∧
    (IsToken (trim directive.toList) name.toList ↔
      pieces (trim directive.toList) = [.token (trim directive.toList) name.toList]) := by
  refine ⟨?_, isToken_iff_pieces⟩
  have hofList {cs : List Char} : String.ofList cs = name ↔ cs = name.toList :=
    ⟨fun h => h ▸ String.toList_ofList.symm, fun h => h ▸ String.ofList_toList⟩
  have hnamed {cs : List Char} :
      (if isName cs then some (String.ofList cs) else none) = some name ↔
        cs = name.toList ∧ isName name.toList = true := by
    rw [Option.ite_none_right_eq_some, Option.some.injEq, hofList, and_comm]
    exact and_congr_right fun h => by rw [h]
  rw [loopTarget?]
  generalize trim directive.toList = whole
  simp only [hnamed]
  cases hbraces : (dropHead? opening whole).bind (dropTail? closing) with
  | some inner =>
    have hwhole := braced_iff.mp hbraces
    have hbare : ¬ (whole = name.toList ∧ isName name.toList = true) := by
      rintro ⟨rfl, hname⟩
      exact absurd (all_isNameChar_of_isName hname '\x7b' (hwhole ▸ List.mem_cons_self)) (by decide)
    rw [or_iff_right hbare, isToken_iff]
    constructor
    · rintro ⟨htrim, hname⟩
      exact ⟨inner, hwhole, htrim, hname⟩
    · rintro ⟨other, hother, htrim, hname⟩
      obtain rfl : inner = other := Option.some.inj (hbraces.symm.trans (braced_iff.mpr hother))
      exact ⟨htrim, hname⟩
  | none =>
    have htoken : ¬ IsToken whole name.toList := by
      intro h
      obtain ⟨inner, hinner, -⟩ := isToken_iff.mp h
      rw [braced_iff.mpr hinner] at hbraces
      cases hbraces
    rw [or_iff_left htoken]

end Template

end ZoneScript
