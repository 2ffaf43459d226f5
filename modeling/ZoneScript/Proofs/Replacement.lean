import ZoneScript.Proofs.Tokens

/-!
# Tokens replaced by name

To replace a name in a text is to put a value for each token of the name, and to keep the text between
these tokens. No token of the name is left in the result, unless a value that is put in is part of it.
-/

namespace ZoneScript.Template

/-! ## Pieces that are put in -/

/-- What is written for a piece. -/
def Piece.filled (f : String → Option String) : Piece → List Char
  | .char c => [c]
  | .token written name => ((f (.ofList name)).map String.toList).getD written

theorem toList_replaceTokens (f : String → Option String) (text : String) :
    (replaceTokens f text).toList = (pieces text.toList).flatMap (Piece.filled f) := by
  rw [replaceTokens, String.toList_ofList]
  rfl

theorem Piece.filled_of_eq_some {f : String → Option String} {written name : List Char} {value : String}
    (h : f (.ofList name) = some value) : filled f (.token written name) = value.toList := by
  rw [filled, h, Option.map_some, Option.getD_some]

theorem Piece.filled_of_eq_none {f : String → Option String} {written name : List Char}
    (h : f (.ofList name) = none) : filled f (.token written name) = written := by
  rw [filled, h, Option.map_none, Option.getD_none]

/-! ## The replacement of one name -/

/-- The second text is the first one with a value for each token of the name. What stands between the
tokens holds none of the name. -/
inductive Swapped (name value : String) : List Char → List Char → Prop
  | plain {cs : List Char} (h : ¬ HasTokenIn name cs) : Swapped name value cs cs
  | token {front written source result : List Char} (hfront : ¬ HasTokenIn name front)
      (htoken : IsToken written name.toList) (h : Swapped name value source result) :
      Swapped name value (front ++ (written ++ source)) (front ++ (value.toList ++ result))

variable {name value : String} {cs front written other source result : List Char}

theorem Swapped.append_token (h : Swapped name value source result) (hwritten : IsToken written other)
    (hother : other ≠ name.toList) : Swapped name value (written ++ source) (written ++ result) := by
  have hnone {cs : List Char} (h : ¬ HasTokenIn name cs) : ¬ HasTokenIn name (written ++ cs) := by
    rw [hasTokenIn_append_iff hwritten, not_or]
    exact ⟨hother.symm, h⟩
  cases h with
  | plain h => exact .plain (hnone h)
  | token hfront htoken h =>
    rw [← List.append_assoc written, ← List.append_assoc written]
    exact .token (hnone hfront) htoken h

theorem Swapped.cons {c : Char} (h : Swapped name value source result)
    (hread : tokenAt? (c :: source) = none) : Swapped name value (c :: source) (c :: result) := by
  cases h with
  | plain h => exact .plain (mt (hasTokenIn_cons_iff hread).mp h)
  | token hfront htoken h =>
    have hnone := mt (hasTokenIn_cons_iff (tokenAt?_of_append hread)).mp hfront
    exact .token hnone htoken h

theorem swapped_replaceName (name value text : String) :
    Swapped name value text.toList (replaceName name value text).toList := by
  rw [replaceName, toList_replaceTokens]
  generalize text.toList = cs
  induction cs using pieces.induct with
  | case1 =>
    rw [pieces]
    exact .plain (not_hasTokenIn_nil name)
  | case2 c cs other rest hread ih =>
    obtain ⟨written, hwritten, hcs⟩ := tokenAt?_eq_some.mp hread
    rw [pieces_token hwritten hcs, hcs, List.flatMap_cons]
    by_cases hother : String.ofList other = name
    · rw [Piece.filled_of_eq_some (if_pos (beq_iff_eq.mpr hother))]
      exact .token (not_hasTokenIn_nil name) (by rwa [← hother, String.toList_ofList]) ih
    · rw [Piece.filled_of_eq_none (if_neg (by simpa using hother))]
      exact ih.append_token hwritten fun heq => hother (by rw [heq, String.ofList_toList])
  | case3 c cs hread ih =>
    rw [pieces_char hread]
    exact ih.cons hread

theorem eq_nil_of_first_token {more written' source' : List Char} (h : IsToken written name.toList)
    (k : IsToken written' name.toList) (hfront : ¬ HasTokenIn name (front ++ more))
    (heq : more ++ (written' ++ source') = written ++ source) :
    more = [] ∧ written' = written ∧ source' = source := by
  rcases h.eq_or_behind k heq with ⟨rfl, rfl, -⟩ | ⟨rest, rfl⟩
  · exact ⟨rfl, rfl, List.append_cancel_left heq⟩
  · exact absurd ⟨written, h, List.append_assoc front _ _ ▸ List.infix_append front written rest⟩ hfront

theorem Swapped.unique {another : List Char} (h : Swapped name value cs result)
    (k : Swapped name value cs another) : result = another := by
  induction h generalizing another with
  | plain h =>
    cases k with
    | plain => rfl
    | token _ htoken _ => exact absurd ⟨_, htoken, List.infix_append' ..⟩ h
  | @token front written source result hfront htoken _ ih =>
    generalize hcs : front ++ (written ++ source) = cs at k
    cases k with
    | plain k => exact absurd ⟨written, htoken, hcs ▸ List.infix_append' ..⟩ k
    | @token front' written' source' another hfront' htoken' k =>
      rcases List.append_eq_append_iff.mp hcs with ⟨more, rfl, heq⟩ | ⟨more, rfl, heq⟩
      · obtain ⟨rfl, rfl, rfl⟩ := eq_nil_of_first_token htoken htoken' hfront' heq.symm
        rw [ih k, List.append_nil]
      · obtain ⟨rfl, rfl, rfl⟩ := eq_nil_of_first_token htoken' htoken hfront heq.symm
        rw [ih k, List.append_nil]

theorem swapped_iff {name value text result : String} :
    Swapped name value text.toList result.toList ↔ result = replaceName name value text := by
  constructor
  · exact fun h => String.toList_inj.mp (h.unique (swapped_replaceName name value text))
  · rintro rfl
    exact swapped_replaceName name value text

/-! ## Where a token comes from -/

variable {f : String → Option String}

/-- Between two positions of the result stands some of a value, or the place of an empty one. -/
inductive PutIn (f : String → Option String) (start stop : Nat) : List Piece → Prop
  | value {before after : List Piece} {written other : List Char} {value : String}
      (hvalue : f (.ofList other) = some value)
      (hstart : start < (before.flatMap (Piece.filled f)).length + value.toList.length)
      (hstop : (before.flatMap (Piece.filled f)).length < stop) :
      PutIn f start stop (before ++ .token written other :: after)

/-- A value that is put in is part of a token of the name in the result. -/
def BringsIn (f : String → Option String) (name text : String) : Prop :=
  ∃ front token back, IsToken token name.toList ∧
    (replaceTokens f text).toList = front ++ (token ++ back) ∧
    PutIn f front.length (front.length + token.length) (pieces text.toList)

/-- A token of the name is left as it is. -/
def Keeps (f : String → Option String) (name : List Char) (ps : List Piece) : Prop :=
  f (.ofList name) = none ∧ ∃ written, .token written name ∈ ps

theorem PutIn.head {start stop : Nat} {ps : List Piece} {value : String}
    (hvalue : f (.ofList other) = some value) (hstart : start < value.toList.length) (hstop : 0 < stop) :
    PutIn f start stop (.token written other :: ps) := by
  rw [← List.nil_append (_ :: ps)]
  exact .value hvalue (by simpa using hstart) hstop

theorem PutIn.cons {start stop : Nat} {ps : List Piece} (h : PutIn f start stop ps) (p : Piece) :
    PutIn f ((p.filled f).length + start) ((p.filled f).length + stop) (p :: ps) := by
  obtain ⟨hvalue, hstart, hstop⟩ := h
  rw [← List.cons_append]
  refine .value hvalue ?_ ?_
  all_goals
    rw [List.flatMap_cons, List.length_append]
    omega

theorem keeps_or_putIn_cons {name token more : List Char} {ps : List Piece} (p : Piece)
    (h : Keeps f name ps ∨ PutIn f more.length (more.length + token.length) ps) :
    Keeps f name (p :: ps) ∨
      PutIn f (p.filled f ++ more).length ((p.filled f ++ more).length + token.length) (p :: ps) := by
  rcases h with ⟨hnone, written, hmem⟩ | h
  · exact .inl ⟨hnone, written, List.mem_cons_of_mem p hmem⟩
  · rw [List.length_append, Nat.add_assoc]
    exact .inr (h.cons p)

theorem take_filled {ps : List Piece} {n : Nat}
    (h : ∀ before written other after value, ps = before ++ .token written other :: after →
      f (.ofList other) = some value → n ≤ (before.flatMap (Piece.filled f)).length) :
    (ps.flatMap (Piece.filled f)).take n = (ps.flatMap Piece.chars).take n := by
  induction ps generalizing n with
  | nil => rfl
  | cons p ps ih =>
    have hrest : ((ps.flatMap (Piece.filled f)).take (n - (p.filled f).length)) =
        (ps.flatMap Piece.chars).take (n - (p.filled f).length) := by
      refine ih fun before written other after value hps hvalue => ?_
      have := h (p :: before) written other after value (by rw [hps]; rfl) hvalue
      rw [List.flatMap_cons, List.length_append] at this
      omega
    rw [List.flatMap_cons, List.flatMap_cons, List.take_append, hrest, List.take_append]
    cases p with
    | char c => rfl
    | token written other =>
      cases hvalue : f (.ofList other) with
      | none => rw [Piece.filled_of_eq_none hvalue]; rfl
      | some value =>
        obtain rfl : n = 0 := Nat.le_zero.mp (h [] written other ps value rfl hvalue)
        simp

theorem putIn_of_tokenAt?_eq_none {c : Char} {token name back : List Char} (htoken : IsToken token name)
    (hread : tokenAt? (c :: cs) = none)
    (h : c :: (pieces cs).flatMap (Piece.filled f) = token ++ back) :
    PutIn f 0 token.length (.char c :: pieces cs) := by
  by_contra hnot
  have htake : ((pieces cs).flatMap (Piece.filled f)).take (token.length - 1) =
      cs.take (token.length - 1) := by
    refine (take_filled fun before written other after value hps hvalue => ?_).trans ?_
    · by_contra hlt
      rw [hps, ← List.cons_append] at hnot
      refine hnot (.value hvalue ?_ ?_) <;>
        rw [List.flatMap_cons, List.length_append, Piece.filled, List.length_singleton] <;> omega
    · rw [flatMap_pieces]
  obtain ⟨d, inner, rfl, -⟩ := htoken.eq_cons
  obtain rfl : c = '\x7b' := (List.cons.inj h).1
  have hfilled : (pieces cs).flatMap (Piece.filled f) = ('\x7b' :: d :: inner) ++ back :=
    (List.cons.inj h).2
  rw [hfilled, List.length_cons, Nat.add_sub_cancel, List.take_left] at htake
  have hcs : cs = ('\x7b' :: d :: inner) ++ cs.drop ('\x7b' :: d :: inner).length := by
    conv_lhs => rw [← List.take_append_drop ('\x7b' :: d :: inner).length cs, ← htake]
  rw [hcs, ← List.cons_append, tokenAt?_append htoken] at hread
  cases hread

theorem keeps_or_putIn {token name front back : List Char} (htoken : IsToken token name)
    (h : (pieces cs).flatMap (Piece.filled f) = front ++ (token ++ back)) :
    Keeps f name (pieces cs) ∨ PutIn f front.length (front.length + token.length) (pieces cs) := by
  have hpos : 0 < token.length := List.length_pos_of_mem htoken.mem
  induction cs using pieces.induct generalizing front with
  | case1 =>
    rw [pieces] at h
    have hmem : '\x7b' ∈ front ++ (token ++ back) :=
      List.mem_append_right _ (List.mem_append_left _ htoken.mem)
    rw [← h] at hmem
    cases hmem
  | case2 c cs other rest hread ih =>
    obtain ⟨written, hwritten, hcs⟩ := tokenAt?_eq_some.mp hread
    rw [pieces_token hwritten hcs, List.flatMap_cons] at h
    rw [pieces_token hwritten hcs]
    have hbehind {more : List Char} (hfront : front = Piece.filled f (.token written other) ++ more) :
        Keeps f name (.token written other :: pieces rest) ∨
          PutIn f front.length (front.length + token.length) (.token written other :: pieces rest) := by
      subst hfront
      rw [List.append_assoc, List.append_cancel_left_eq] at h
      exact keeps_or_putIn_cons _ (ih h)
    cases hvalue : f (.ofList other) with
    | none =>
      rw [Piece.filled_of_eq_none hvalue] at h hbehind
      rcases hwritten.eq_or_behind htoken h.symm with ⟨-, -, rfl⟩ | ⟨more, hmore⟩
      · exact .inl ⟨hvalue, written, List.mem_cons_self⟩
      · exact hbehind hmore
    | some value =>
      rw [Piece.filled_of_eq_some hvalue] at h hbehind
      rcases Nat.lt_or_ge front.length value.toList.length with hlt | hge
      · exact .inr (.head hvalue hlt (by omega))
      · have hvalue : value.toList = front.take value.toList.length := by
          rw [← List.take_append_of_le_length hge, ← h, List.take_left]
        exact hbehind (hvalue ▸ (List.take_append_drop _ front).symm)
  | case3 c cs hread ih =>
    rw [pieces_char hread] at h ⊢
    cases front with
    | nil =>
      rw [List.length_nil, Nat.zero_add]
      exact .inr (putIn_of_tokenAt?_eq_none htoken hread h)
    | cons d front =>
      obtain ⟨rfl, hrest⟩ := List.cons.inj h
      exact keeps_or_putIn_cons (.char c) (ih hrest)

theorem hasTokenOf_replaceTokens {name text : String} (h : HasTokenOf name (replaceTokens f text)) :
    (f name = none ∧ HasTokenOf name text) ∨ BringsIn f name text := by
  obtain ⟨token, htoken, front, back, heq⟩ := h
  rw [List.append_assoc, toList_replaceTokens] at heq
  rcases keeps_or_putIn htoken heq.symm with ⟨hnone, written, hmem⟩ | hput
  · rw [String.ofList_toList] at hnone
    refine .inl ⟨hnone, mem_tokenNames.mp ?_⟩
    exact List.mem_filterMap.mpr ⟨_, hmem, congrArg some String.ofList_toList⟩
  · exact .inr ⟨front, token, back, htoken, by rw [toList_replaceTokens, heq], hput⟩

/-! ## Values that bring nothing in -/

theorem exists_mem_of_behind {α : Type} {a b more back after : List α}
    (h : a ++ back = more ++ (b ++ after)) (hb : 0 < b.length) (hmore : more.length < a.length) :
    ∃ x, x ∈ a ∧ x ∈ b := by
  rcases List.append_eq_append_iff.mp h with ⟨rest, rfl, -⟩ | ⟨rest, rfl, heq⟩
  · rw [List.length_append] at hmore
    omega
  · obtain ⟨x, xs, rfl⟩ := List.exists_cons_of_length_pos hb
    cases rest with
    | nil => simp at hmore
    | cons y ys =>
      obtain rfl := (List.cons.inj heq).1
      exact ⟨x, by simp, List.mem_cons_self⟩

theorem exists_mem_of_overlap {α : Type} {a b front back before after : List α}
    (h : front ++ (a ++ back) = before ++ (b ++ after)) (ha : 0 < a.length) (hb : 0 < b.length)
    (hstart : front.length < before.length + b.length)
    (hstop : before.length < front.length + a.length) : ∃ x, x ∈ a ∧ x ∈ b := by
  rcases List.append_eq_append_iff.mp h with ⟨more, rfl, heq⟩ | ⟨more, rfl, heq⟩
  · rw [List.length_append] at hstop
    exact exists_mem_of_behind heq hb (by omega)
  · rw [List.length_append] at hstart
    obtain ⟨x, hxb, hxa⟩ := exists_mem_of_behind heq ha (by omega)
    exact ⟨x, hxa, hxb⟩

theorem mem_or_isSpace_of_mem {written name : List Char} (h : IsToken written name) {c : Char}
    (hc : c ∈ written) : c ∈ '\x7b' :: '\x7d' :: name ∨ Text.isSpace c = true := by
  obtain ⟨hbefore, -, hafter⟩ := h
  simp only [List.mem_append, opening, closing, List.mem_cons, List.not_mem_nil, or_false] at hc ⊢
  rcases hc with (hc | hc) | hc | hc | hc | hc | hc
  · exact .inl (.inl hc)
  · exact .inl (.inl hc)
  · exact .inr (hbefore c hc)
  · exact .inl (.inr (.inr hc))
  · exact .inr (hafter c hc)
  · exact .inl (.inr (.inl hc))
  · exact .inl (.inr (.inl hc))

theorem not_hasTokenOf_replaceName {name value : String} (hvalue : value ≠ "")
    (h : ∀ c ∈ value.toList, c ∉ '\x7b' :: '\x7d' :: name.toList ∧ Text.isSpace c = false)
    (text : String) : ¬ HasTokenOf name (replaceName name value text) := by
  intro htoken
  rcases hasTokenOf_replaceTokens htoken with ⟨hnone, -⟩ | ⟨front, token, back, htoken, hresult, hput⟩
  · rw [if_pos (beq_self_eq_true name)] at hnone
    cases hnone
  · generalize hps : pieces text.toList = ps at hput
    obtain @⟨before, after, written, other, value', hsome, hstart, hstop⟩ := hput
    obtain rfl : value = value' := Option.some.inj (Option.ite_none_right_eq_some.mp hsome).2
    rw [toList_replaceTokens, hps, List.flatMap_append, List.flatMap_cons,
      Piece.filled_of_eq_some hsome] at hresult
    obtain ⟨c, hc, hmem⟩ := exists_mem_of_overlap hresult.symm (List.length_pos_of_mem htoken.mem)
      (List.length_pos_of_ne_nil (by simpa using hvalue)) hstart hstop
    obtain ⟨hname, hspace⟩ := h c hmem
    rcases mem_or_isSpace_of_mem htoken hc with hc | hc
    · exact hname hc
    · simp [hspace] at hc

end ZoneScript.Template
