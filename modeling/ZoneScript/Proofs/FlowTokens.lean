import Mathlib.Data.List.InsertIdx
import Mathlib.Data.List.TakeWhile
import Mathlib.Logic.Relation
import ZoneScript.Proofs.PlainTrees
import ZoneScript.Proofs.PlainWords
import ZoneScript.Yaml.Reader

/-!
# The tokens of JSON

A JSON text is read as a flow collection. The reader's state is followed through one token after the other:
it stands between the brackets of so many levels, has read tokens of these kinds, and this much of the text
is left. The only thing that depends on more is whether a key is found to be one, since its place is given
up when it gets long or has a line break.
-/

namespace ZoneScript.Yaml

open Json (escapedChar stringText)

/-- The characters that tokens of JSON start with are none that a gap goes on with. -/
def startsToken (c : Char) : Bool :=
  !isBlank c && !isBreak c && c != '#' && !isByteOrderMark c

/-! ## Keys -/

/-- Whether a string is found to be a key at the colon behind it. -/
def isShortKey (name : String) : Bool :=
  !name.toList.any isBareBreak && decide ((stringText name).length ≤ maxKeyLength)

/-- The tokens of a key with its colon. -/
def keyKinds (name : String) : List TokenKind :=
  (if isShortKey name then [.key] else []) ++ [.scalar (reread name) .doubleQuoted, .value]

theorem any_isBreak_stringText (text : String) : (stringText text).any isBreak = text.toList.any isBareBreak := by
  have hchar (c : Char) : (escapedChar c).any isBreak = isBareBreak c := by
    cases hbreak : isBareBreak c with
    | true =>
      have hbare := isBare_of_isBareBreak hbreak
      simp [escapedChar_of_isBare hbare, isBreak_of_isBare hbare, hbreak]
    | false =>
      rw [List.any_eq_false]
      intro d hd
      simp [not_isBreak_of_mem_escapedChar hbreak hd]
  have hquote : isBreak '"' = false := rfl
  simp [stringText, hquote, List.any_flatMap, hchar]

theorem isStale_past (name : String) (token : Nat) (mark : Mark) :
    Reader.isStale (mark.past (stringText name)) ⟨false, token, mark⟩ = !isShortKey name := by
  have hlines : decide (mark.line < mark.line + (stringText name).countP isBreak) =
      name.toList.any isBareBreak := by
    rw [← any_isBreak_stringText, Bool.eq_iff_iff, List.any_eq_true]
    simp [List.countP_pos_iff]
  have hlength : decide (mark.index + maxKeyLength < mark.index + (stringText name).length) =
      !decide ((stringText name).length ≤ maxKeyLength) := by
    simp only [← decide_not, Nat.not_le, Nat.add_lt_add_iff_left]
  rw [Reader.isStale, Mark.line_past, Mark.index_past, hlines, hlength, isShortKey, Bool.not_and, Bool.not_not]

namespace Reader

/-! ## Steps -/

/-- One step of reading, which passes at least one character. -/
structure Takes (r r' : Reader) : Prop where
  unfinished : r.finished = false
  step : r.step = .ok r'
  shorter : r'.cursor.rest.length < r.cursor.rest.length

/-- Some steps of reading. -/
abbrev Passes : Reader → Reader → Prop :=
  Relation.ReflTransGen Takes

theorem Passes.run_eq {r r' : Reader} (h : Passes r r') {spare fuel : Nat}
    (hfuel : r.cursor.rest.length + spare ≤ fuel) :
    ∃ fuel', r'.cursor.rest.length + spare ≤ fuel' ∧ run fuel r = run fuel' r' := by
  induction h using Relation.ReflTransGen.head_induction_on generalizing fuel with
  | refl => exact ⟨fuel, hfuel, rfl⟩
  | @head r next htakes _ ih =>
    have hshorter := htakes.shorter
    obtain ⟨fuel, rfl⟩ := Nat.exists_eq_add_of_lt (show 0 < fuel by omega)
    obtain ⟨fuel', hfuel', hrun⟩ := ih (show next.cursor.rest.length + spare ≤ fuel by omega)
    refine ⟨fuel', hfuel', ?_⟩
    rw [Nat.zero_add, run, htakes.unfinished, htakes.step]
    exact hrun

/-- Reading stops with a problem, in front of the end of the text. -/
def Fails (r : Reader) : Prop :=
  ∃ r', Passes r r' ∧ r'.finished = false ∧ (∀ token ∈ r'.tokens.toList, token.kind ≠ .streamEnd) ∧
    ∃ problem, r'.step = .error problem

theorem Fails.of_passes {r r' : Reader} (h : Passes r r') (hfails : r'.Fails) : r.Fails := by
  obtain ⟨r'', hpasses, hrest⟩ := hfails
  exact ⟨r'', h.trans hpasses, hrest⟩

theorem Fails.run {r : Reader} (h : r.Fails) {fuel : Nat} (hfuel : r.cursor.rest.length + 1 ≤ fuel) :
    ∀ token ∈ (run fuel r).1, token.kind ≠ .streamEnd := by
  obtain ⟨r', hpasses, hunfinished, htokens, problem, hstep⟩ := h
  obtain ⟨fuel', hfuel', hrun⟩ := hpasses.run_eq hfuel
  obtain ⟨fuel', rfl⟩ := Nat.exists_eq_add_of_lt (show 0 < fuel' by omega)
  rw [hrun, Nat.zero_add, Reader.run, hunfinished, hstep]
  exact fun token htoken => htokens token (List.mem_of_mem_take htoken)

/-! ## States -/

/-- The reader is inside of `level` flow collections, has read tokens of these kinds, and `text` comes next,
gaps apart. -/
structure Stands (r : Reader) (level : Nat) (kinds : List TokenKind) (text : List Char) : Prop where
  rest : r.cursor.rest.dropWhile isWhite = text.dropWhile isWhite
  tokens : r.tokens.toList.map (·.kind) = kinds
  ongoing : .streamEnd ∉ kinds
  level : r.places.length = level + 1
  optional : ∀ place ∈ r.places, ∀ p ∈ place, p.required = false
  indent : r.indent = -1
  outer : r.outer = []
  unfinished : r.finished = false

variable {r : Reader} {level : Nat} {kinds : List TokenKind} {text : List Char}

theorem Stands.of_gap {gap : List Char} (hgap : ∀ c ∈ gap, isWhite c = true)
    (h : r.Stands level kinds (gap ++ text)) : r.Stands level kinds text :=
  { h with rest := by rw [h.rest, List.dropWhile_append_of_pos hgap] }

theorem Stands.inFlow (h : r.Stands level kinds text) : r.inFlow = decide (0 < level) := by
  rw [Reader.inFlow, h.level]
  simp

/-- The reader without the places that are given up at the cursor. -/
def fresh (r : Reader) : Reader :=
  { r with places := r.places.map fun place => place.filter fun p => !isStale r.cursor.mark p }

theorem dropStale_eq {mark : Mark} {places : List (Option KeyPlace)}
    (h : ∀ place ∈ places, ∀ p ∈ place, p.required = false) :
    dropStale mark places = .ok (places.map fun place => place.filter fun p => !isStale mark p) := by
  induction places with
  | nil => rfl
  | cons place places ih =>
    obtain ⟨hplace, hplaces⟩ := List.forall_mem_cons.mp h
    cases place with
    | none => rw [dropStale, ih hplaces]; rfl
    | some p =>
      rw [dropStale, ih hplaces]
      cases hstale : isStale mark p <;>
        simp [Option.filter_some, hstale, hplace p rfl, pure, Except.pure, bind, Except.bind]

theorem forgetStale_eq (h : ∀ place ∈ r.places, ∀ p ∈ place, p.required = false) :
    r.forgetStale = .ok r.fresh := by
  rw [forgetStale, dropStale_eq h]
  rfl

theorem Stands.forgetStale_eq (h : r.Stands level kinds text) : r.forgetStale = .ok r.fresh :=
  Reader.forgetStale_eq h.optional

theorem Stands.fresh (h : r.Stands level kinds text) : r.fresh.Stands level kinds text :=
  { h with
    level := by rw [Reader.fresh, List.length_map, h.level]
    optional := by
      intro place hplace p hp
      obtain ⟨before, hbefore, rfl⟩ := List.mem_map.mp hplace
      exact h.optional before hbefore p (Option.filter_eq_some_iff.mp hp).1 }

/-! ## Gaps -/

theorem skipWhile_cons {p : Char → Bool} {c : Char} (hc : p c = true) (cs : List Char) (mark : Mark) :
    (⟨c :: cs, mark⟩ : Cursor).skipWhile p = (⟨cs, mark.advance 1⟩ : Cursor).skipWhile p := by
  simp only [Cursor.skipWhile, List.dropWhile_cons_of_pos hc, List.takeWhile_cons_of_pos hc, Mark.advance,
    List.length_cons, Nat.add_assoc, Nat.add_comm 1]

theorem skipGap_blank (flow keyAllowed : Bool) (fuel : Nat) (cs : List Char) (mark : Mark) :
    skipGap flow (fuel + 1) keyAllowed ⟨' ' :: cs, mark⟩ =
      skipGap flow (fuel + 1) keyAllowed ⟨cs, mark.advance 1⟩ := by
  have hmark : isByteOrderMark ' ' = false := rfl
  have hcolumn : ((mark.advance 1).column == 0) = false := rfl
  rw [skipGap, skipGap]
  simp only [Cursor.head?, List.head?_cons, Option.map_some, Option.getD_some, hmark, hcolumn, Bool.and_false,
    Bool.false_and, Bool.false_eq_true, if_false]
  rw [skipWhile_cons rfl]

theorem skipGap_lineFeed (flow keyAllowed : Bool) (fuel : Nat) (cs : List Char) (mark : Mark) :
    skipGap flow (fuel + 1) keyAllowed ⟨'\n' :: cs, mark⟩ =
      skipGap flow fuel (keyAllowed || !flow) ⟨cs, mark.newLine 1⟩ := by
  have hmark : isByteOrderMark '\n' = false := rfl
  have hbreak : (⟨'\n' :: cs, mark⟩ : Cursor).lineBreak? = some (['\n'], ⟨cs, mark.newLine 1⟩) := rfl
  have hadvance : mark.advance 0 = mark := rfl
  rw [skipGap]
  simp [Cursor.head?, Cursor.skipWhile, hmark, hbreak, hadvance]

theorem skipGap_white {gap : List Char} (hgap : ∀ c ∈ gap, isWhite c = true)
    (htext : ∀ c ∈ text.head?, startsToken c = true) (flow keyAllowed : Bool) (mark : Mark) {fuel : Nat}
    (hfuel : gap.length < fuel) :
    skipGap flow fuel keyAllowed ⟨gap ++ text, mark⟩ =
      (keyAllowed || (!flow && gap.contains '\n'), ⟨text, mark.past gap⟩) := by
  induction gap generalizing keyAllowed mark fuel with
  | nil =>
    obtain ⟨fuel, rfl⟩ := Nat.exists_eq_add_of_lt hfuel
    rw [List.nil_append, skipGap]
    cases text with
    | nil => simp [Cursor.head?, Cursor.skipWhile, Cursor.lineBreak?, Mark.advance, Mark.past]
    | cons c text =>
      have hc := htext c rfl
      simp only [startsToken, Bool.and_eq_true, Bool.not_eq_true', bne_iff_ne] at hc
      obtain ⟨⟨⟨hblank, hbreak⟩, hcomment⟩, hmark⟩ := hc
      have hspace : (c == ' ') = false ∧ (c == '\t') = false := by simpa [isBlank] using hblank
      simp [Cursor.head?, Cursor.skipWhile, hmark, hspace, hcomment, lineBreak?_cons hbreak, Mark.advance,
        Mark.past]
  | cons c gap ih =>
    obtain ⟨hc, htail⟩ := List.forall_mem_cons.mp hgap
    obtain ⟨fuel, rfl⟩ := Nat.exists_eq_add_of_lt hfuel
    simp only [isWhite, Bool.or_eq_true, beq_iff_eq] at hc
    rcases hc with rfl | rfl
    · rw [List.cons_append, skipGap_blank, ih htail _ _ (by simp only [List.length_cons]; omega)]
      simp [Mark.past, isBreak]
    · rw [List.cons_append, skipGap_lineFeed, ih htail _ _ (by simp only [List.length_cons]; omega)]
      cases keyAllowed <;> cases flow <;> simp [Mark.past, isBreak]

/-- The reader behind a gap, where `rest` comes next. -/
def arrived (r : Reader) (gap rest : List Char) : Reader :=
  ({ r with
      cursor := ⟨rest, r.cursor.mark.past gap⟩
      keyAllowed := r.keyAllowed || (!r.inFlow && gap.contains '\n') } : Reader).fresh

theorem fresh_fresh (r : Reader) : r.fresh.fresh = r.fresh := by
  simp [fresh, Function.comp_def]

theorem arrived_nil {rest : List Char} (h : r.cursor.rest = rest) : r.arrived [] rest = r.fresh := by
  subst h
  simp [arrived, Mark.past]

theorem keyAllowed_arrived (h : r.keyAllowed = true) (gap rest : List Char) :
    (r.arrived gap rest).keyAllowed = true := by
  simp [arrived, fresh, h]

theorem Stands.closeBlocks_eq (h : r.Stands level kinds text) (column : Int) : r.closeBlocks column = r := by
  rw [closeBlocks, h.outer, closeFrom, ite_self]

theorem Stands.arrived (h : r.Stands level kinds text) (gap rest : List Char) :
    (r.arrived gap rest).Stands level kinds rest :=
  Stands.fresh { h with rest := rfl }

theorem Stands.step_eq (h : r.Stands level kinds text) {gap rest : List Char}
    (hgap : ∀ c ∈ gap, isWhite c = true) (hrest : ∀ c ∈ rest.head?, startsToken c = true)
    (hcursor : r.cursor.rest = gap ++ rest) :
    r.step = (r.arrived gap rest).readToken.bind forgetStale := by
  have hskip : skipGap r.inFlow (r.cursor.rest.length + 1) r.keyAllowed r.cursor =
      (r.keyAllowed || (!r.inFlow && gap.contains '\n'), ⟨rest, r.cursor.mark.past gap⟩) := by
    have hfuel : gap.length < r.cursor.rest.length + 1 := by
      rw [hcursor, List.length_append]
      omega
    rw [← skipGap_white hgap hrest r.inFlow r.keyAllowed r.cursor.mark hfuel, ← hcursor]
  have hbehind : ({ r with
      cursor := ⟨rest, r.cursor.mark.past gap⟩
      keyAllowed := r.keyAllowed || (!r.inFlow && gap.contains '\n') } : Reader).Stands level kinds rest :=
    { h with rest := rfl }
  rw [step, hskip]
  simp only [hbehind.forgetStale_eq, bind, Except.bind]
  rw [hbehind.fresh.closeBlocks_eq]
  rfl

theorem Stands.exists_gap (h : r.Stands level kinds text) (hhead : ∀ c ∈ text.head?, isWhite c = false) :
    ∃ gap, (∀ c ∈ gap, isWhite c = true) ∧ r.cursor.rest = gap ++ text := by
  have htext : text.dropWhile isWhite = text := by
    cases text with
    | nil => rfl
    | cons c text => exact List.dropWhile_cons_of_neg (by simp [hhead c rfl])
  refine ⟨r.cursor.rest.takeWhile isWhite, fun c hc => List.mem_takeWhile_imp hc, ?_⟩
  rw [← htext, ← h.rest, List.takeWhile_append_dropWhile]

/-! ## Tokens -/

theorem isWhite_of_startsToken {c : Char} (h : startsToken c = true) : isWhite c = false := by
  simp only [startsToken, Bool.and_eq_true, Bool.not_eq_true'] at h
  obtain ⟨⟨⟨hblank, hbreak⟩, -⟩, -⟩ := h
  have hspace : c ≠ ' ' := by
    rintro rfl
    cases hblank
  have hfeed : c ≠ '\n' := by
    rintro rfl
    cases hbreak
  simp [isWhite, hspace, hfeed]

theorem Stands.exists_arrived {c : Char} {rest : List Char} (h : r.Stands level kinds (c :: rest))
    (hc : startsToken c = true) :
    ∃ r₀ : Reader, r.step = r₀.readToken.bind forgetStale ∧ r₀.Stands level kinds (c :: rest) ∧
      r₀.cursor.rest = c :: rest ∧ rest.length < r.cursor.rest.length ∧
        (r.keyAllowed = true → r₀.keyAllowed = true) := by
  obtain ⟨gap, hgap, hcursor⟩ := h.exists_gap (by simp [isWhite_of_startsToken hc])
  refine ⟨_, h.step_eq hgap (by simp [hc]) hcursor, h.arrived gap _, rfl, ?_, fun hallowed =>
    keyAllowed_arrived hallowed gap _⟩
  rw [hcursor, List.length_append, List.length_cons]
  omega

-- `p` says what is known of whether a key may come behind the token.
theorem Stands.takes {c : Char} {rest text' : List Char} {level' : Nat} {kinds' : List TokenKind}
    {p : Bool → Prop} (h : r.Stands level kinds (c :: rest)) (hc : startsToken c = true)
    (hread : ∀ r₀ : Reader, r₀.Stands level kinds (c :: rest) → r₀.cursor.rest = c :: rest →
      ∃ r₁, r₀.readToken = .ok r₁ ∧ r₁.Stands level' kinds' text' ∧
        r₁.cursor.rest.length ≤ rest.length ∧ p r₁.keyAllowed) :
    ∃ r', r.Takes r' ∧ r'.Stands level' kinds' text' ∧ p r'.keyAllowed := by
  obtain ⟨r₀, hstep, h₀, hcursor, hlength, -⟩ := h.exists_arrived hc
  obtain ⟨r₁, hr₁, hstands, hshorter, hp⟩ := hread r₀ h₀ hcursor
  refine ⟨r₁.fresh, ⟨h.unfinished, ?_, hshorter.trans_lt hlength⟩, hstands.fresh, hp⟩
  rw [hstep, hr₁]
  exact hstands.forgetStale_eq

/-- The reader with another place on the current level. -/
def withPlace (r : Reader) (place : Option KeyPlace) : Reader :=
  { r with places := place :: r.places.drop 1 }

theorem Stands.withPlace (h : r.Stands level kinds text) {place : Option KeyPlace}
    (hplace : ∀ p ∈ place, p.required = false) : (r.withPlace place).Stands level kinds text :=
  { h with
    level := by simp [Reader.withPlace, h.level]
    optional := List.forall_mem_cons.mpr
      ⟨hplace, fun other hother => h.optional other (List.mem_of_mem_drop hother)⟩ }

theorem Stands.withoutPlace (h : r.Stands level kinds text) : (r.withPlace none).Stands level kinds text :=
  h.withPlace (by simp)

theorem Stands.forgetPlace_eq (h : r.Stands level kinds text) : r.forgetPlace = .ok (r.withPlace none) := by
  have hlevel := h.level
  have hoptional := h.optional
  obtain ⟨cursor, tokens, indent, outer, keyAllowed, places, finished⟩ := r
  match places with
  | none :: places => rfl
  | some place :: places =>
    have hplace := hoptional (some place) List.mem_cons_self place rfl
    simp [forgetPlace, hplace, Reader.withPlace]

theorem Stands.rememberPlace_eq (h : r.Stands level kinds text) :
    ∃ place, (∀ p ∈ place, p.required = false) ∧ r.rememberPlace = .ok (r.withPlace place) ∧
      (r.keyAllowed = true → place = some ⟨false, r.tokens.size, r.cursor.mark⟩) := by
  cases hallowed : r.keyAllowed with
  | true =>
    have hrequired : (r.indent == (r.cursor.mark.column : Int)) = false := by
      rw [h.indent, beq_eq_false_iff_ne]
      omega
    refine ⟨some ⟨false, r.tokens.size, r.cursor.mark⟩, by simp, ?_, fun _ => rfl⟩
    rw [rememberPlace, hallowed, h.forgetPlace_eq, hrequired]
    simp [Reader.withPlace, bind, Except.bind, pure, Except.pure]
  | false =>
    obtain ⟨place, places, hplaces⟩ := List.exists_cons_of_length_eq_add_one h.level
    have hsame : r.withPlace place = r := by
      obtain ⟨cursor, tokens, indent, outer, keyAllowed, _, finished⟩ := r
      subst hplaces
      rfl
    refine ⟨place, h.optional place (by simp [hplaces]), ?_, fun h => by cases h⟩
    rw [hsame, rememberPlace, hallowed]
    rfl

theorem Stands.mark {c : Char} {rest : List Char} (h : r.Stands level kinds (c :: rest))
    (hcursor : r.cursor.rest = c :: rest) {kind : TokenKind} (hkind : kind ≠ .streamEnd) :
    (r.mark kind 1).Stands level (kinds ++ [kind]) rest :=
  { h with
    rest := by simp [Reader.mark, Cursor.skip, hcursor]
    tokens := by simp [Reader.mark, Reader.push, h.tokens]
    ongoing := by simp [h.ongoing, hkind.symm] }

section

variable {c : Char} {rest : List Char}

theorem atMarker_eq_false {ch : Char} {cursor : Cursor} (h : cursor.rest = c :: rest) (hne : c ≠ ch) :
    cursor.atMarker ch = false := by
  simp [Cursor.atMarker, Cursor.peek?, h, hne]

theorem Stands.takes_open {kind : TokenKind} (h : r.Stands level kinds (c :: rest))
    (hkind : c = '[' ∧ kind = .flowSequenceStart ∨ c = '\x7b' ∧ kind = .flowMappingStart) :
    ∃ r', r.Takes r' ∧ r'.Stands (level + 1) (kinds ++ [kind]) rest ∧ r'.keyAllowed = true := by
  refine h.takes (p := (· = true)) (by rcases hkind with ⟨rfl, -⟩ | ⟨rfl, -⟩ <;> rfl) fun r₀ h₀ hcursor => ?_
  have hread : r₀.readToken = r₀.openFlow kind := by
    rcases hkind with ⟨rfl, rfl⟩ | ⟨rfl, rfl⟩ <;>
      simp [readToken, Cursor.head?, hcursor, atMarker_eq_false hcursor]
  obtain ⟨place, hplace, hremember, -⟩ := h₀.rememberPlace_eq
  have hend : kind ≠ .streamEnd := by rcases hkind with ⟨-, rfl⟩ | ⟨-, rfl⟩ <;> simp
  have hmark := (h₀.withPlace hplace).mark (r := r₀.withPlace place) hcursor hend
  refine ⟨_, by rw [hread, openFlow, hremember]; rfl, ?_, ?_, rfl⟩
  · exact { hmark with
      level := by rw [List.length_cons]; exact congrArg (· + 1) (h₀.withPlace hplace).level
      optional := List.forall_mem_cons.mpr ⟨by simp, (h₀.withPlace hplace).optional⟩ }
  · simp [Reader.mark, Cursor.skip, Reader.withPlace, hcursor]

theorem Stands.takes_close {kind : TokenKind} (h : r.Stands (level + 1) kinds (c :: rest))
    (hkind : c = ']' ∧ kind = .flowSequenceEnd ∨ c = '\x7d' ∧ kind = .flowMappingEnd) :
    ∃ r', r.Takes r' ∧ r'.Stands level (kinds ++ [kind]) rest := by
  suffices ∃ r', r.Takes r' ∧ r'.Stands level (kinds ++ [kind]) rest ∧ True by simpa using this
  refine h.takes (p := fun _ => True) (by rcases hkind with ⟨rfl, -⟩ | ⟨rfl, -⟩ <;> rfl)
    fun r₀ h₀ hcursor => ?_
  have hread : r₀.readToken = r₀.closeFlow kind := by
    rcases hkind with ⟨rfl, rfl⟩ | ⟨rfl, rfl⟩ <;>
      simp [readToken, Cursor.head?, hcursor, atMarker_eq_false hcursor]
  have hnone := h₀.withoutPlace
  have hend : kind ≠ .streamEnd := by rcases hkind with ⟨-, rfl⟩ | ⟨-, rfl⟩ <;> simp
  have hmark := hnone.mark (r := r₀.withPlace none) hcursor hend
  have hflow : (r₀.withPlace none).inFlow = true := by simp [hnone.inFlow]
  refine ⟨_, by rw [hread, closeFlow, h₀.forgetPlace_eq]; rfl, ?_, ?_, trivial⟩
  · exact { hmark with
      level := by simp only [hflow, if_true]; simp [hnone.level]
      optional := by
        simp only [hflow, if_true]
        exact fun place hplace => hnone.optional place (List.mem_of_mem_drop hplace) }
  · simp [Reader.mark, Cursor.skip, Reader.withPlace, hcursor]

theorem Stands.takes_comma (h : r.Stands level kinds (',' :: rest)) :
    ∃ r', r.Takes r' ∧ r'.Stands level (kinds ++ [.flowEntry]) rest ∧ r'.keyAllowed = true := by
  refine h.takes (p := (· = true)) rfl fun r₀ h₀ hcursor => ?_
  have hread : r₀.readToken = r₀.readFlowEntry := by
    simp [readToken, Cursor.head?, hcursor, atMarker_eq_false hcursor]
  have hnone := h₀.withoutPlace
  have hmark := hnone.mark (r := r₀.withPlace none) hcursor (show TokenKind.flowEntry ≠ .streamEnd by simp)
  refine ⟨{ (r₀.withPlace none).mark .flowEntry 1 with keyAllowed := true },
    by rw [hread, readFlowEntry, h₀.forgetPlace_eq]; rfl, { hmark with }, ?_, rfl⟩
  simp [Reader.mark, Cursor.skip, Reader.withPlace, hcursor]

theorem Stands.readNode_eq (h : r.Stands level kinds text) {read : Cursor → Except Problem (Token × Cursor)}
    {token : Token} {next : Cursor} (hread : read r.cursor = .ok (token, next))
    (hend : token.kind ≠ .streamEnd) :
    ∃ r₁, r.readNode read = .ok r₁ ∧ r₁.Stands level (kinds ++ [token.kind]) next.rest ∧ r₁.cursor = next ∧
      r₁.keyAllowed = false ∧ (r.keyAllowed = true →
        r₁.places.head? = some (some ⟨false, r.tokens.size, r.cursor.mark⟩)) := by
  obtain ⟨place, hplace, hremember, hkey⟩ := h.rememberPlace_eq
  have hplaced := h.withPlace hplace
  refine ⟨{ r.withPlace place with
    cursor := next, keyAllowed := false, tokens := (r.withPlace place).tokens.push token }, ?_, ?_, rfl, rfl,
    fun hallowed => by rw [hkey hallowed]; rfl⟩
  · rw [readNode, hremember]
    show Except.bind (read r.cursor) _ = _
    rw [hread]
    rfl
  · exact { hplaced with
      rest := rfl
      tokens := by simp [hplaced.tokens]
      ongoing := by simp [h.ongoing, hend.symm] }

theorem readToken_quote (hcursor : r.cursor.rest = '"' :: rest) :
    r.readToken = r.readNode (quotedScalar false) := by
  simp [readToken, Cursor.head?, hcursor, atMarker_eq_false hcursor]

theorem Stands.takes_string {s : String} (hmarker : hasMarker false s.toList = false)
    (h : r.Stands level kinds (stringText s ++ rest)) :
    ∃ r', r.Takes r' ∧ r'.Stands level (kinds ++ [.scalar (reread s) .doubleQuoted]) rest := by
  suffices ∃ r', r.Takes r' ∧ r'.Stands level (kinds ++ [.scalar (reread s) .doubleQuoted]) rest ∧ True by
    simpa using this
  rw [stringText_append] at h
  refine h.takes (p := fun _ => True) rfl fun r₀ h₀ hcursor => ?_
  have hquoted := quotedScalar_stringText hmarker rest r₀.cursor.mark
  rw [stringText_append, ← hcursor] at hquoted
  obtain ⟨r₁, hr₁, hstands, hnext, -⟩ := h₀.readNode_eq hquoted (by simp)
  refine ⟨r₁, by rw [readToken_quote hcursor, hr₁], hstands, ?_, trivial⟩
  rw [hnext]
  simp [quoteTail]
  omega

theorem Stands.fails_string {s : String} (hmarker : hasMarker false s.toList = true)
    (h : r.Stands level kinds (stringText s ++ rest)) : r.Fails := by
  refine ⟨r, .refl, h.unfinished, fun token htoken heq => ?_, ?_⟩
  · refine h.ongoing ?_
    rw [← h.tokens, ← heq]
    exact List.mem_map_of_mem htoken
  · rw [stringText_append] at h
    obtain ⟨r₀, hstep, h₀, hcursor, -, -⟩ := h.exists_arrived rfl
    obtain ⟨problem, hproblem⟩ := quotedScalar_stringText_marker hmarker rest r₀.cursor.mark
    rw [stringText_append, ← hcursor] at hproblem
    obtain ⟨place, -, hremember, -⟩ := h₀.rememberPlace_eq
    refine ⟨problem, ?_⟩
    have hread : r₀.readToken = .error problem := by
      rw [readToken_quote hcursor, readNode, hremember]
      show Except.bind (quotedScalar false r₀.cursor) _ = _
      rw [hproblem]
      rfl
    rw [hstep, hread]
    rfl

theorem isIndicator_of_isAlphanum {c : Char} (h : c.isAlphanum = true) : isIndicator c = false := by
  have hmarks : ("-?:,[]#&*!|>'\"%@".toList.any (·.isAlphanum)) = false := rfl
  have hmem : c ∉ "-?:,[]#&*!|>'\"%@".toList := fun hmem => List.any_eq_false.mp hmarks c hmem h
  have hne (d : Char) (hd : d.isAlphanum = false) := ne_of_isAlphanum h hd
  rw [isIndicator, beq_false_of_ne (hne '\x7b' rfl), beq_false_of_ne (hne '\x7d' rfl),
    beq_false_of_ne (hne '\x60' rfl)]
  simpa using hmem

theorem readToken_word {word : List Char} (hword : IsWord word) (hcursor : r.cursor.rest = word ++ rest) :
    r.readToken = r.readPlainScalar := by
  cases hword with
  | @bare c cs h =>
    have hc := h c List.mem_cons_self
    have hne (d : Char) (hd : d.isAlphanum = false) := ne_of_isAlphanum hc hd
    have hgoesOn := goesOn_of_isAlphanum hc
    simp [readToken, Cursor.head?, hcursor, atMarker_eq_false hcursor, hne, startsPlain,
      isIndicator_of_isAlphanum hc, hgoesOn.blank, hgoesOn.lineBreak]
  | @signed c cs h =>
    have hc := h c List.mem_cons_self
    have hgoesOn := goesOn_of_isAlphanum hc
    have hmarker : r.cursor.atMarker '-' = false := by
      simp [Cursor.atMarker, Cursor.peek?, hcursor, ne_of_isAlphanum hc (d := '-') rfl]
    simp [readToken, Cursor.head?, Cursor.peek?, hcursor, hmarker, atMarker_eq_false hcursor, startsPlain,
      isGap, hgoesOn.blank, hgoesOn.lineBreak]

theorem startsToken_of_goesOn {c : Char} (h : GoesOn c) : startsToken c = true := by
  rw [startsToken, h.blank, h.lineBreak, bne, h.comment, h.byteOrderMark]
  rfl

theorem Stands.takes_word {word : List Char} (hword : IsWord word) {gap : List Char}
    (hgap : ∀ d ∈ gap, isWhite d = true) (hc : c = ',' ∨ c = ']' ∨ c = '\x7d')
    (h : r.Stands (level + 1) kinds (word ++ (gap ++ c :: rest))) :
    ∃ r', r.Takes r' ∧ r'.Stands (level + 1) (kinds ++ [.scalar (.ofList word) .plain]) (gap ++ c :: rest) := by
  suffices ∃ r', r.Takes r' ∧
      r'.Stands (level + 1) (kinds ++ [.scalar (.ofList word) .plain]) (gap ++ c :: rest) ∧ True by
    simpa using this
  obtain ⟨d, ds, hcons⟩ := List.exists_cons_of_ne_nil hword.ne_nil
  rw [hcons, List.cons_append] at h
  refine h.takes (p := fun _ => True) (startsToken_of_goesOn (hword.goesOn d (by simp [hcons])))
    fun r₀ h₀ hcursor => ?_
  rw [← List.cons_append, ← hcons] at hcursor
  obtain ⟨token, next, brokeLine, hread, hkind, hnext⟩ :=
    plainScalar_word (r₀.indent + 1) hword hc hgap rest r₀.cursor.mark
  rw [← hcursor] at hread
  obtain ⟨place, hplace, hremember, -⟩ := h₀.rememberPlace_eq
  have hplaced := h₀.withPlace hplace
  have hflow : (r₀.withPlace place).inFlow = true := by simp [hplaced.inFlow]
  refine ⟨{ r₀.withPlace place with
    cursor := next, keyAllowed := brokeLine, tokens := (r₀.withPlace place).tokens.push token },
    ?_, ?_, ?_, trivial⟩
  · rw [readToken_word hword hcursor, readPlainScalar, hremember]
    show Except.bind (plainScalar (r₀.withPlace place).inFlow (r₀.indent + 1) r₀.cursor) _ = _
    rw [hflow, hread]
    rfl
  · exact { hplaced with
      rest := by rw [hnext, List.dropWhile_append_of_pos hgap]
      tokens := by simp [hplaced.tokens, hkind]
      ongoing := by simp [h.ongoing] }
  · simp [hnext]
    omega

theorem kinds_insertIdx {tokens : Array Token} {kinds : List TokenKind} {last : TokenKind}
    (h : tokens.toList.map (·.kind) = kinds ++ [last]) (token : Token) :
    (tokens.insertIdxIfInBounds kinds.length token).toList.map (·.kind) = kinds ++ [token.kind, last] := by
  have hinsert (kinds : List TokenKind) (kind : TokenKind) :
      (kinds ++ [last]).insertIdx kinds.length kind = kinds ++ [kind, last] := by
    induction kinds with
    | nil => rfl
    | cons k kinds ih => simp [List.insertIdx_succ_cons, ih]
  rw [← (Array.toArray_toList : tokens.toList.toArray = tokens), List.insertIdxIfInBounds_toArray]
  simp only [List.map_insertIdx, h, hinsert]

theorem Stands.readValue_eq {last : TokenKind} (h : r.Stands (level + 1) (kinds ++ [last]) (':' :: rest))
    (hcursor : r.cursor.rest = ':' :: rest) {place : Option KeyPlace} (hplace : r.places.head? = some place)
    (htoken : ∀ p ∈ place, p.token = kinds.length) :
    ∃ r₁, r.readValue = .ok r₁ ∧
      r₁.Stands (level + 1) (kinds ++ ((if place.isSome then [.key] else []) ++ [last, .value])) rest ∧
      r₁.cursor.rest = rest := by
  obtain ⟨places, hplaces⟩ := List.head?_eq_some_iff.mp hplace
  have hflow : r.inFlow = true := by simp [h.inFlow]
  have hlevel := h.level
  have hoptional := h.optional
  rw [hplaces] at hoptional hlevel
  have hmark := h.mark hcursor (show TokenKind.value ≠ .streamEnd by simp)
  cases place with
  | none =>
    refine ⟨{ r.mark .value 1 with keyAllowed := false }, ?_, ?_, by simp [Reader.mark, Cursor.skip, hcursor]⟩
    · rw [readValue, hplaces]
      simp [openBlock, hflow]
    · exact { hmark with
        tokens := by rw [hmark.tokens]; simp
        ongoing := by simpa using hmark.ongoing }
  | some p =>
    have hkinds := kinds_insertIdx h.tokens ⟨.key, p.mark, p.mark⟩
    rw [← htoken p rfl] at hkinds
    have hopen : (({ r with
        places := none :: places
        tokens := r.tokens.insertIdxIfInBounds p.token ⟨.key, p.mark, p.mark⟩ } : Reader).inFlow) = true := by
      rw [← hflow, Reader.inFlow, Reader.inFlow, hplaces]
      rfl
    refine ⟨{ ({ r with
        places := none :: places
        tokens := r.tokens.insertIdxIfInBounds p.token ⟨.key, p.mark, p.mark⟩ } : Reader).mark .value 1 with
      keyAllowed := false }, ?_, ?_, by simp [Reader.mark, Cursor.skip, hcursor]⟩
    · rw [readValue, hplaces]
      simp [openBlock, hopen]
    · exact { hmark with
        tokens := by simp [Reader.mark, Reader.push, hkinds]
        ongoing := by simpa using hmark.ongoing
        level := hlevel
        optional := List.forall_mem_cons.mpr ⟨by simp, (List.forall_mem_cons.mp hoptional).2⟩ }

theorem Stands.takes_name {name : String} (hmarker : hasMarker false name.toList = false)
    (h : r.Stands level kinds (stringText name ++ rest)) (hallowed : r.keyAllowed = true) :
    ∃ r', r.Takes r' ∧ r'.Stands level (kinds ++ [.scalar (reread name) .doubleQuoted]) rest ∧
      r'.cursor.rest = rest ∧ r'.fresh = r' ∧ ∃ mark,
        r'.places.head? = some (if isShortKey name then some ⟨false, kinds.length, mark⟩ else none) := by
  rw [stringText_append] at h
  obtain ⟨r₀, hstep, h₀, hcursor, hlength, hallowed₀⟩ := h.exists_arrived rfl
  have hquoted := quotedScalar_stringText hmarker rest r₀.cursor.mark
  rw [stringText_append, ← hcursor] at hquoted
  obtain ⟨r₁, hr₁, h₁, hnext, -, hplace⟩ := h₀.readNode_eq hquoted (by simp)
  refine ⟨r₁.fresh, ⟨h.unfinished, ?_, ?_⟩, h₁.fresh, by rw [Reader.fresh, hnext], fresh_fresh r₁,
    r₀.cursor.mark, ?_⟩
  · rw [hstep, readToken_quote hcursor, hr₁]
    exact h₁.forgetStale_eq
  · refine Nat.lt_of_le_of_lt ?_ hlength
    rw [Reader.fresh, hnext]
    simp [quoteTail]
    omega
  · have hsize : r₀.tokens.size = kinds.length := by
      rw [← h₀.tokens, List.length_map, Array.length_toList]
    rw [Reader.fresh, List.head?_map, hplace (hallowed₀ hallowed), hnext, hsize]
    simp [Option.filter_some, isStale_past]

theorem Stands.passes_key {name : String} (hmarker : hasMarker false name.toList = false)
    (h : r.Stands (level + 1) kinds (stringText name ++ ':' :: rest)) (hallowed : r.keyAllowed = true) :
    ∃ r', r.Passes r' ∧ r'.Stands (level + 1) (kinds ++ keyKinds name) rest := by
  obtain ⟨r₁, htakes, h₁, hrest, hfresh, mark, hplace⟩ := h.takes_name hmarker hallowed
  obtain ⟨r₂, hvalue, h₂, hrest₂⟩ := h₁.readValue_eq hrest hplace (by split <;> simp)
  have hread : r₁.readToken = r₁.readValue := by
    simp [readToken, Cursor.head?, hrest, atMarker_eq_false hrest, h₁.inFlow]
  have hstep : r₁.step = .ok r₂.fresh := by
    rw [h₁.step_eq (List.forall_mem_nil _) (by simp [startsToken]; decide) hrest, arrived_nil hrest, hfresh,
      hread, hvalue]
    exact h₂.forgetStale_eq
  refine ⟨r₂.fresh, .head htakes (.single ⟨h₁.unfinished, hstep, ?_⟩), ?_⟩
  · show r₂.cursor.rest.length < _
    rw [hrest₂, hrest, List.length_cons]
    omega
  · have hkinds : keyKinds name = (if (if isShortKey name then
        some (⟨false, kinds.length, mark⟩ : KeyPlace) else none).isSome then [TokenKind.key] else []) ++
        [.scalar (reread name) .doubleQuoted, .value] := by
      rw [keyKinds]
      cases isShortKey name <;> rfl
    rw [hkinds]
    exact h₂.fresh

theorem Stands.exists_end (h : r.Stands 0 kinds []) :
    ∃ r', r.step = .ok r' ∧ r'.finished = true ∧ r'.tokens.toList.map (·.kind) = kinds ++ [.streamEnd] := by
  obtain ⟨gap, hgap, hcursor⟩ := h.exists_gap (by simp)
  have h₀ := h.arrived gap []
  have hstep := h.step_eq hgap (by simp) hcursor
  have hend (mark : Mark) : ({ r.arrived gap [] with cursor := ⟨[], mark⟩ } : Reader).Stands 0 kinds [] :=
    { h₀ with rest := rfl }
  obtain ⟨mark, hread⟩ : ∃ mark, (r.arrived gap []).readToken = (do
      let r ← (({ r.arrived gap [] with cursor := ⟨[], mark⟩ } : Reader).closeBlocks (-1)).forgetPlace
      return { r.push .streamEnd mark mark with keyAllowed := false, finished := true }) := ⟨_, rfl⟩
  rw [(hend mark).closeBlocks_eq, (hend mark).forgetPlace_eq] at hread
  have hnone := (hend mark).withoutPlace
  refine ⟨Reader.fresh { (({ r.arrived gap [] with cursor := ⟨[], mark⟩ } : Reader).withPlace none).push
    .streamEnd mark mark with keyAllowed := false, finished := true }, ?_, rfl, ?_⟩
  · rw [hstep, hread]
    exact Reader.forgetStale_eq hnone.optional
  · simp [Reader.fresh, Reader.push, hnone.tokens]

end

end Reader

end ZoneScript.Yaml
