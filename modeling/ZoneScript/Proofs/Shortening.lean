import ZoneScript.Script.Import
import Mathlib.Data.List.Infix
import Mathlib.Order.Bounds.Basic

/-!
# Shortened texts

A text that is too long is cut at one of its positions, so never inside a character, and at the last one
that leaves room for the dots. A search through the offsets at which the characters begin finds it.
-/

namespace ZoneScript

namespace Text

/-! ## Lengths -/

@[simp]
theorem byteLength_append (front rest : List Char) :
    byteLength (front ++ rest) = byteLength front + byteLength rest := by
  induction front with
  | nil => simp [byteLength]
  | cons c front ih =>
    simp only [List.cons_append, byteLength, ih]
    omega

theorem byteLength_mono {front cs : List Char} (h : front <+: cs) : byteLength front ≤ byteLength cs := by
  obtain ⟨rest, rfl⟩ := h
  rw [byteLength_append]
  omega

theorem byteLength_eq_utf8ByteSize (cs : List Char) : byteLength cs = (String.ofList cs).utf8ByteSize := by
  induction cs with
  | nil => rfl
  | cons c cs ih =>
    rw [String.ofList_cons, String.utf8ByteSize_append, String.utf8ByteSize_singleton, byteLength, ih]

theorem byteLength_toList (s : String) : byteLength s.toList = s.utf8ByteSize := by
  rw [byteLength_eq_utf8ByteSize, String.ofList_toList]

/-! ## Fronts that fit -/

theorem prefix_fitting_iff {front cs : List Char} {room : Nat} :
    front <+: fitting room cs ↔ front <+: cs ∧ byteLength front ≤ room := by
  induction cs generalizing front room with
  | nil =>
    simp only [fitting, List.prefix_nil, iff_self_and]
    rintro rfl
    exact Nat.zero_le room
  | cons c cs ih =>
    cases front with
    | nil => simp [byteLength]
    | cons d front =>
      unfold fitting
      split
      case isTrue hfits =>
        simp only [List.cons_prefix_cons, ih, byteLength, and_assoc]
        refine and_congr_right fun hd => and_congr_right fun _ => ?_
        rw [hd]
        omega
      case isFalse hlong =>
        simp only [List.prefix_nil, reduceCtorEq, List.cons_prefix_cons, byteLength, false_iff]
        rintro ⟨⟨rfl, -⟩, hle⟩
        omega

theorem prefix_fitting (room : Nat) (cs : List Char) : fitting room cs <+: cs :=
  (prefix_fitting_iff.mp List.prefix_rfl).1

/-! ## Positions -/

theorem exists_pos_of_prefix {s : String} {front : List Char} (h : front <+: s.toList) :
    ∃ p : s.Pos, (s.sliceTo p).copy = String.ofList front ∧ p.offset.byteIdx = byteLength front := by
  obtain ⟨rest, hrest⟩ := h
  have hs : s = String.ofList front ++ String.ofList rest := by
    rw [← String.ofList_append, hrest, String.ofList_toList]
  have hvalid : (String.ofList front).rawEndPos.IsValid s :=
    String.Pos.Raw.isValid_iff_exists_append.mpr ⟨_, _, hs, rfl⟩
  have hsplits : (String.Pos.mk _ hvalid).Splits (String.ofList front) (String.ofList rest) := ⟨hs, rfl⟩
  refine ⟨_, hsplits.copy_sliceTo_eq, ?_⟩
  rw [byteLength_eq_utf8ByteSize]
  exact String.byteIdx_rawEndPos

theorem prefix_of_pos {s : String} (p : s.Pos) :
    (s.sliceTo p).copy.toList <+: s.toList ∧ byteLength (s.sliceTo p).copy.toList = p.offset.byteIdx := by
  constructor
  · have happend := congrArg String.toList p.splits.eq_append
    rw [String.toList_append] at happend
    exact ⟨_, happend.symm⟩
  · rw [byteLength_toList, p.splits.offset_eq_rawEndPos, String.byteIdx_rawEndPos]

/-! ## The search for the cut -/

/-- The offsets at which the characters of a text begin. -/
def starts (offset : Nat) : List Char → List Nat
  | [] => []
  | c :: cs => offset :: starts (offset + c.utf8Size) cs

/-- The last offset of a character that is not beyond `room`, found by walking through them in order. -/
def lastStart (room : Nat) (cs : List Char) : Nat :=
  ((starts 0 cs).takeWhile (· ≤ room)).getLastD 0

-- The walk keeps the room that is left: each character moves the offset on and takes as much from the room.
theorem getLastD_starts {cs : List Char} {room : Nat} (offset default : Nat) (hlong : room < byteLength cs) :
    ((starts offset cs).takeWhile (· ≤ offset + room)).getLastD default =
      offset + byteLength (fitting room cs) := by
  induction cs generalizing offset room default with
  | nil => exact absurd hlong (Nat.not_lt_zero room)
  | cons c cs ih =>
    rw [starts, List.takeWhile_cons_of_pos (by simp), List.getLastD_cons, fitting]
    split
    case isTrue hfits =>
      have hrest : room - c.utf8Size < byteLength cs := by
        simp only [byteLength] at hlong
        omega
      have hwalk := ih (offset + c.utf8Size) offset hrest
      have hroom : offset + c.utf8Size + (room - c.utf8Size) = offset + room := by omega
      rw [hroom] at hwalk
      rw [hwalk, byteLength, Nat.add_assoc]
    case isFalse hfits =>
      -- The next character, if there is one, begins beyond the room.
      cases cs with
      | nil => rfl
      | cons d cs =>
        rw [starts, List.takeWhile_cons_of_neg (by simpa using hfits)]
        rfl

theorem lastStart_eq {cs : List Char} {room : Nat} (hlong : room < byteLength cs) :
    lastStart room cs = byteLength (fitting room cs) := by
  have hwalk := getLastD_starts 0 0 hlong
  rwa [Nat.zero_add, Nat.zero_add] at hwalk

/-! ## Shortening -/

theorem truncate_of_le {limit : Nat} {cs : List Char} (h : byteLength cs ≤ limit) : truncate limit cs = cs :=
  if_pos h

theorem truncate_of_lt {limit : Nat} {cs : List Char} (h : limit < byteLength cs) :
    truncate limit cs = fitting (limit - 3) cs ++ "...".toList :=
  if_neg (Nat.not_le.mpr h)

theorem byteLength_truncate_le (limit : Nat) (cs : List Char) : byteLength (truncate limit cs) ≤ max limit 3 := by
  unfold truncate
  split
  · omega
  · have hdots : byteLength "...".toList = 3 := rfl
    have hfits := byteLength_fitting_le (limit - 3) cs
    rw [byteLength_append, hdots]
    omega

/-- **Shortening.** A text of at most `limit` bytes stays as it is. A longer one is cut at one of its
positions, the last of those that leave room for three dots, and the dots follow; the position is the one
that the walk through the beginnings of the characters finds. What comes out has at most `limit` bytes,
or three if `limit` is less. -/
theorem truncate_eq_slice (limit : Nat) (s : String) :
    (if s.utf8ByteSize ≤ limit then String.ofList (truncate limit s.toList) = s
      else ∃ cut : s.Pos,
        String.ofList (truncate limit s.toList) = (s.sliceTo cut).copy ++ "..." ∧
        IsGreatest {p : s.Pos | p.offset.byteIdx ≤ limit - 3} cut ∧
        cut.offset.byteIdx = lastStart (limit - 3) s.toList) ∧
    (String.ofList (truncate limit s.toList)).utf8ByteSize ≤ max limit 3 := by
  rw [← byteLength_eq_utf8ByteSize]
  refine ⟨?_, byteLength_truncate_le limit s.toList⟩
  split
  case isTrue hshort =>
    rw [← byteLength_toList] at hshort
    rw [truncate_of_le hshort, String.ofList_toList]
  case isFalse hlong =>
    rw [← byteLength_toList, Nat.not_le] at hlong
    obtain ⟨cut, hslice, hoffset⟩ := exists_pos_of_prefix (prefix_fitting (limit - 3) s.toList)
    refine ⟨cut, ?_, ⟨?_, ?_⟩, ?_⟩
    · rw [truncate_of_lt hlong, String.ofList_append, hslice, String.ofList_toList]
    · exact hoffset.trans_le (byteLength_fitting_le (limit - 3) s.toList)
    · intro p hp
      obtain ⟨hfront, hlength⟩ := prefix_of_pos p
      have hkept := byteLength_mono (prefix_fitting_iff.mpr ⟨hfront, hlength.trans_le hp⟩)
      rw [hlength, ← hoffset] at hkept
      exact hkept
    · rw [hoffset, lastStart_eq (by omega)]

example : String.ofList (truncate 5 "aüüü".toList) = "a..." := by decide

end Text

/-! ## Reports -/

namespace Script

theorem LogicalLine.utf8ByteSize_shown_le (line : LogicalLine) : line.shown.utf8ByteSize ≤ maxShownLine := by
  rw [shown, ← Text.byteLength_eq_utf8ByteSize]
  exact Text.byteLength_truncate_le maxShownLine _

/-- However long the lines of a script are, a report shows at most `maxShownLine` bytes of each. -/
theorem Import.texts_ofText_le (defaultZone text : String) :
    (∀ failed ∈ (ofText defaultZone text).errors, failed.text.utf8ByteSize ≤ maxShownLine) ∧
    ∀ skipped ∈ (ofText defaultZone text).skipped, skipped.text.utf8ByteSize ≤ maxShownLine := by
  constructor
  · intro failed hfailed
    obtain ⟨⟨line, outcome⟩, -, hline⟩ := List.mem_filterMap.mp hfailed
    cases outcome with
    | failed error => exact Option.some.inj hline ▸ line.utf8ByteSize_shown_le
    | _ => cases hline
  · intro skipped hskipped
    obtain ⟨⟨line, outcome⟩, -, hline⟩ := List.mem_filterMap.mp hskipped
    cases outcome with
    | skipped reason => exact Option.some.inj hline ▸ line.utf8ByteSize_shown_le
    | _ => cases hline

end Script

end ZoneScript
