import Mathlib.Order.Lattice.Nat
import ZoneScript.Text.Distance

/-!
# Suggested words

The distance table holds the least number of edits that turn one text into another, and a suggestion is
the first of the words that are nearest, if two edits or fewer make it.
-/

namespace ZoneScript.Text

/-! ## Edits -/

/-- A character is put in, taken out or replaced, at the start of a text or behind characters that
stay. -/
inductive Edit : List Char → List Char → Prop
  | insert (c : Char) (cs : List Char) : Edit cs (c :: cs)
  | delete (c : Char) (cs : List Char) : Edit (c :: cs) cs
  | replace (c d : Char) (cs : List Char) : Edit (c :: cs) (d :: cs)
  | behind (c : Char) {cs ds : List Char} (h : Edit cs ds) : Edit (c :: cs) (c :: ds)

/-- So many edits lead from one text to another. -/
inductive Edits : Nat → List Char → List Char → Prop
  | none (cs : List Char) : Edits 0 cs cs
  | step {n : Nat} {cs ds es : List Char} (first : Edit cs ds) (rest : Edits n ds es) :
      Edits (n + 1) cs es

namespace Edits

variable {n m : Nat} {cs ds es : List Char}

theorem trans (h : Edits n cs ds) (h' : Edits m ds es) : Edits (n + m) cs es := by
  induction h with
  | none => rwa [Nat.zero_add]
  | step first _ ih =>
    rw [Nat.add_right_comm]
    exact .step first (ih h')

theorem append (h : Edits n cs ds) (h' : Edit ds es) : Edits (n + 1) cs es :=
  h.trans (.step h' (.none es))

theorem behind (c : Char) (h : Edits n cs ds) : Edits n (c :: cs) (c :: ds) := by
  induction h with
  | none => exact .none _
  | step first _ ih => exact .step (.behind c first) ih

end Edits

/-! ### Edits of reversed texts -/

theorem Edit.append_right {cs ds : List Char} (h : Edit cs ds) (es : List Char) :
    Edit (cs ++ es) (ds ++ es) := by
  induction h with
  | insert c cs => exact .insert c (cs ++ es)
  | delete c cs => exact .delete c (cs ++ es)
  | replace c d cs => exact .replace c d (cs ++ es)
  | behind c _ ih => exact .behind c ih

theorem Edit.append_left {cs ds : List Char} (h : Edit cs ds) (front : List Char) :
    Edit (front ++ cs) (front ++ ds) := by
  induction front with
  | nil => exact h
  | cons c front ih => exact .behind c ih

theorem Edit.reverse {cs ds : List Char} (h : Edit cs ds) : Edit cs.reverse ds.reverse := by
  induction h with
  | insert c cs =>
    rw [List.reverse_cons]
    simpa using (Edit.insert c []).append_left cs.reverse
  | delete c cs =>
    rw [List.reverse_cons]
    simpa using (Edit.delete c []).append_left cs.reverse
  | replace c d cs =>
    rw [List.reverse_cons, List.reverse_cons]
    exact (Edit.replace c d []).append_left cs.reverse
  | behind c _ ih =>
    rw [List.reverse_cons, List.reverse_cons]
    exact ih.append_right [c]

theorem Edits.reverse {n : Nat} {cs ds : List Char} (h : Edits n cs ds) :
    Edits n cs.reverse ds.reverse := by
  induction h with
  | none => exact .none _
  | step first _ ih => exact .step first.reverse ih

/-! ## The least number of edits, from the ends of both texts -/

/-- The cost of an alignment: what stands at the front of either text is taken out or put in, or the two
fronts are made the same. -/
def alignment : List Char → List Char → Nat
  | [], ds => ds.length
  | c :: cs, [] => (c :: cs).length
  | c :: cs, d :: ds =>
    min (min (alignment cs (d :: ds) + 1) (alignment (c :: cs) ds + 1))
      (alignment cs ds + if c == d then 0 else 1)

theorem alignment_nil_left (ds : List Char) : alignment [] ds = ds.length := by
  rw [alignment]

theorem alignment_nil_right (cs : List Char) : alignment cs [] = cs.length := by
  cases cs <;> rw [alignment]

theorem alignment_self (cs : List Char) : alignment cs cs = 0 := by
  induction cs with
  | nil => exact alignment_nil_left []
  | cons c cs ih => simp [alignment, ih]

theorem edits_length_left (cs : List Char) : Edits cs.length cs [] := by
  induction cs with
  | nil => exact .none []
  | cons c cs ih => exact .step (.delete c cs) ih

theorem edits_length_right (ds : List Char) : Edits ds.length [] ds := by
  induction ds with
  | nil => exact .none []
  | cons d ds ih => exact ih.append (.insert d ds)

theorem edits_alignment (cs ds : List Char) : Edits (alignment cs ds) cs ds := by
  induction cs, ds using alignment.induct with
  | case1 ds =>
    rw [alignment_nil_left]
    exact edits_length_right ds
  | case2 c cs =>
    rw [alignment_nil_right]
    exact edits_length_left (c :: cs)
  | case3 c cs d ds hdelete hinsert hkeep =>
    have hfront : Edits (alignment cs ds + if c == d then 0 else 1) (c :: cs) (d :: ds) := by
      by_cases h : c = d
      · subst h
        simpa using hkeep.behind c
      · simpa [h] using (hkeep.behind c).append (.replace c d ds)
    rw [alignment]
    rcases min_choice (min (alignment cs (d :: ds) + 1) (alignment (c :: cs) ds + 1))
      (alignment cs ds + if c == d then 0 else 1) with h | h <;> rw [h]
    · rcases min_choice (alignment cs (d :: ds) + 1) (alignment (c :: cs) ds + 1) with h | h <;> rw [h]
      · exact .step (.delete c cs) hdelete
      · exact hinsert.append (.insert d ds)
    · exact hfront

/-! ### One edit changes the cost by one at most -/

theorem alignment_cons_left_le (c : Char) (cs ds : List Char) :
    alignment (c :: cs) ds ≤ alignment cs ds + 1 := by
  cases ds with
  | nil => simp [alignment_nil_right]
  | cons d ds =>
    rw [alignment]
    omega

theorem alignment_cons_right_le (cs : List Char) (d : Char) (ds : List Char) :
    alignment cs (d :: ds) ≤ alignment cs ds + 1 := by
  cases cs with
  | nil => simp [alignment]
  | cons c cs =>
    rw [alignment]
    omega

theorem le_alignment_cons_left (c : Char) (cs ds : List Char) :
    alignment cs ds ≤ alignment (c :: cs) ds + 1 := by
  induction ds with
  | nil => simp [alignment_nil_right]; omega
  | cons d ds ih =>
    have hright := alignment_cons_right_le cs d ds
    rw [alignment]
    omega

theorem alignment_replace_le (c d : Char) (cs ds : List Char) :
    alignment (c :: cs) ds ≤ alignment (d :: cs) ds + 1 := by
  induction ds with
  | nil => simp [alignment_nil_right]
  | cons e ds ih =>
    rw [alignment, alignment]
    split <;> split <;> omega

theorem alignment_behind_le (c : Char) {cs cs' : List Char}
    (h : ∀ ds, alignment cs ds ≤ alignment cs' ds + 1) (ds : List Char) :
    alignment (c :: cs) ds ≤ alignment (c :: cs') ds + 1 := by
  induction ds with
  | nil =>
    have := h []
    simp only [alignment_nil_right, List.length_cons] at this ⊢
    omega
  | cons d ds ih =>
    have htake := h (d :: ds)
    have hkeep := h ds
    rw [alignment, alignment]
    omega

theorem Edit.alignment_le {cs cs' : List Char} (h : Edit cs cs') (ds : List Char) :
    alignment cs ds ≤ alignment cs' ds + 1 := by
  induction h generalizing ds with
  | insert c cs => exact le_alignment_cons_left c cs ds
  | delete c cs => exact alignment_cons_left_le c cs ds
  | replace c d cs => exact alignment_replace_le c d cs ds
  | behind c _ ih => exact alignment_behind_le c ih ds

theorem Edits.alignment_le {n : Nat} {cs ds : List Char} (h : Edits n cs ds) : alignment cs ds ≤ n := by
  induction h with
  | none cs => rw [alignment_self]
  | step first _ ih => exact (first.alignment_le _).trans (Nat.add_le_add_right ih 1)

/-! ## The distance table -/

/-- A row of the table, for a front of one text against the fronts of the other. Both fronts are written
last character first, so that a longer front is one character in front of a shorter one. -/
def tableRow (source before : List Char) : List Char → List Nat
  | [] => []
  | d :: ds => alignment source (d :: before) :: tableRow source (d :: before) ds

theorem distanceRow_tableRow (c : Char) (source before target : List Char) :
    distanceRow c (alignment source before) (alignment (c :: source) before) target
      (tableRow source before target) = tableRow (c :: source) before target := by
  induction target generalizing before with
  | nil => rfl
  | cons d ds ih =>
    rw [tableRow, distanceRow, tableRow, ← alignment, ih (d :: before)]

theorem getLast?_tableRow (source before target : List Char) :
    (tableRow source before target).getLast?.getD (alignment source before) =
      alignment source (target.reverse ++ before) := by
  induction target generalizing before with
  | nil => rfl
  | cons d ds ih =>
    have htail := ih (d :: before)
    rw [tableRow, List.getLast?_cons, Option.getD_some, htail]
    simp

theorem distanceRows_tableRow (target source cs : List Char) :
    distanceRows target source.length (tableRow source [] target) cs =
      alignment (cs.reverse ++ source) target.reverse := by
  induction cs generalizing source with
  | nil =>
    have hlast := getLast?_tableRow source [] target
    rw [alignment_nil_right, List.append_nil] at hlast
    exact hlast
  | cons c cs ih =>
    have hrow := distanceRow_tableRow c source [] target
    rw [alignment_nil_right, alignment_nil_right] at hrow
    rw [distanceRows, ← List.length_cons (a := c), hrow, ih (c :: source)]
    simp

theorem tableRow_nil (before target : List Char) :
    tableRow [] before target = (List.range target.length).map (· + (before.length + 1)) := by
  induction target generalizing before with
  | nil => rfl
  | cons d ds ih =>
    have hlength : (d :: ds).length = ds.length + 1 := List.length_cons
    rw [tableRow, ih, alignment_nil_left, hlength, List.range_succ_eq_map,
      List.map_cons, List.map_map]
    refine List.cons_eq_cons.mpr ⟨by simp, List.map_congr_left fun n _ => ?_⟩
    simp only [List.length_cons, Function.comp_apply]
    omega

theorem distance_eq_alignment (source target : List Char) :
    distance source target = alignment source.reverse target.reverse := by
  have hrow := tableRow_nil [] target
  rw [distance, ← List.append_nil source.reverse, ← distanceRows_tableRow target [] source, hrow]
  rfl

/-- The distance is the least number of edits. -/
theorem isLeast_distance (source target : List Char) :
    IsLeast {n | Edits n source target} (distance source target) := by
  rw [distance_eq_alignment]
  constructor
  · have h := (edits_alignment source.reverse target.reverse).reverse
    rwa [List.reverse_reverse, List.reverse_reverse] at h
  · intro n h
    exact (Edits.reverse h).alignment_le

/-! ## Nearest words -/

/-- The least number of edits that make one word of another. -/
noncomputable def leastEdits (word other : String) : Nat :=
  sInf {n | Edits n word.toList other.toList}

theorem distance_eq_leastEdits (word other : String) :
    distance word.toList other.toList = leastEdits word other :=
  (isLeast_distance _ _).csInf_eq.symm

/-- The word stands at the first place of the catalogue from which no other word is nearer. -/
structure IsFirstNearest (key : String) (catalogue : List String) (index : Nat) (word : String) :
    Prop where
  here : catalogue[index]? = some word
  least : ∀ other ∈ catalogue, leastEdits key word ≤ leastEdits key other
  first : ∀ i < index, ∀ other, catalogue[i]? = some other → leastEdits key word < leastEdits key other

namespace IsFirstNearest

variable {key word other : String} {words : List String} {index : Nat}

theorem unique {i : Nat} (h : IsFirstNearest key words index word) (h' : IsFirstNearest key words i other) :
    word = other := by
  rcases lt_trichotomy index i with hlt | rfl | hlt
  · exact absurd (h'.first index hlt word h.here) (h.least other (List.mem_of_getElem? h'.here)).not_gt
  · exact Option.some.inj (h.here.symm.trans h'.here)
  · exact absurd (h.first i hlt other h'.here) (h'.least word (List.mem_of_getElem? h.here)).not_gt

theorem head (h : ∀ other ∈ words, leastEdits key word ≤ leastEdits key other) :
    IsFirstNearest key (word :: words) 0 word :=
  ⟨rfl, List.forall_mem_cons.mpr ⟨le_rfl, h⟩, fun _ h => absurd h (Nat.not_lt_zero _)⟩

theorem behind (h : IsFirstNearest key words index word) (hlt : leastEdits key word < leastEdits key other) :
    IsFirstNearest key (other :: words) (index + 1) word := by
  refine ⟨h.here, List.forall_mem_cons.mpr ⟨hlt.le, h.least⟩, fun i hi before hbefore => ?_⟩
  cases i with
  | zero =>
    obtain rfl := Option.some.inj hbefore
    exact hlt
  | succ i => exact h.first i (Nat.lt_of_succ_lt_succ hi) before hbefore

end IsFirstNearest

theorem nearest_spec (key : String) (words : List String) :
    match nearest key words with
    | none => words = []
    | some (word, d) => d = leastEdits key word ∧ ∃ index, IsFirstNearest key words index word := by
  induction words with
  | nil => rfl
  | cons word words ih =>
    rw [nearest, distance_eq_leastEdits]
    cases hrest : nearest key words with
    | none =>
      rw [hrest] at ih
      subst ih
      exact ⟨rfl, 0, .head (by simp)⟩
    | some found =>
      obtain ⟨other, d⟩ := found
      rw [hrest] at ih
      obtain ⟨rfl, index, hother⟩ := ih
      by_cases hlt : leastEdits key other < leastEdits key word
      · simp only [hlt, if_true]
        exact ⟨trivial, index + 1, hother.behind hlt⟩
      · simp only [hlt, if_false]
        exact ⟨trivial, 0, .head fun third hthird => (Nat.le_of_not_lt hlt).trans (hother.least third hthird)⟩

/-- **Suggestions.** A word is suggested if and only if it stands at the first place of the catalogue
from which no other word is nearer, counted in edits, and two edits or fewer make it of the key. Nothing
is suggested if and only if every word takes more than two. -/
theorem suggest_eq_some_iff (key : String) (catalogue : List String) :
    (∀ word, suggest key catalogue = some word ↔
      (∃ index, IsFirstNearest key catalogue index word) ∧ leastEdits key word ≤ 2) ∧
    (suggest key catalogue = none ↔ ∀ word ∈ catalogue, 2 < leastEdits key word) := by
  have hspec := nearest_spec key catalogue
  rw [suggest]
  cases hnearest : nearest key catalogue with
  | none =>
    rw [hnearest] at hspec
    subst hspec
    refine ⟨fun word => iff_of_false (by simp) ?_, by simp⟩
    rintro ⟨⟨index, hfirst⟩, -⟩
    simpa using hfirst.here
  | some found =>
    obtain ⟨nearestWord, d⟩ := found
    rw [hnearest] at hspec
    obtain ⟨rfl, index, hfirst⟩ := hspec
    by_cases hnear : leastEdits key nearestWord ≤ 2
    · have hsome : ((some (nearestWord, leastEdits key nearestWord)).filter
          (·.2 ≤ suggestionDistance)).map (·.1) = some nearestWord := by
        simp [suggestionDistance, hnear]
      rw [hsome]
      refine ⟨fun word => ⟨?_, ?_⟩, iff_of_false (by simp) ?_⟩
      · rintro ⟨⟩
        exact ⟨⟨index, hfirst⟩, hnear⟩
      · rintro ⟨⟨i, hword⟩, -⟩
        rw [hfirst.unique hword]
      · intro hfar
        exact absurd (hfar nearestWord (List.mem_of_getElem? hfirst.here)) hnear.not_gt
    · have hnone : ((some (nearestWord, leastEdits key nearestWord)).filter
          (·.2 ≤ suggestionDistance)).map (·.1) = none := by
        simp [suggestionDistance, hnear]
      rw [hnone]
      refine ⟨fun word => iff_of_false (by simp) ?_, iff_of_true rfl fun word hword => ?_⟩
      · rintro ⟨⟨i, hword⟩, hle⟩
        rw [← hfirst.unique hword] at hle
        exact hnear hle
      · exact (Nat.lt_of_not_le hnear).trans_le (hfirst.least word hword)

end ZoneScript.Text
