import ZoneScript.Proofs.TextEnds
import ZoneScript.Proofs.TreeTokens

/-!
# The events of a tree written as JSON

The walk through the tokens of a tree gives the events of the tree, provided that each name is short enough
to be found to be a key. Behind a name that is not, a colon is left over, and the walk breaks off in front of
the end of the text.
-/

namespace ZoneScript.Yaml

open Node (IsPlain entryNames itemNames names ofFields ofFields_cons)

/-! ## The events of the parts -/

/-- The event of a string. -/
def stringEvent (s : String) : EventKind :=
  .scalar {} (reread s) .doubleQuoted

mutual

/-- The events of a tree. -/
def nodeEvents : Node → List EventKind
  | .str s => [stringEvent s]
  | .seq items => .sequenceStart {} :: itemEvents items
  | .map entries => .mappingStart {} :: entryEvents entries
  | .tagged _ value => nodeEvents value
  | node => [.scalar {} (node.scalarText?.getD "null") .plain]

/-- The events of items, and the end of the list. -/
def itemEvents : List Node → List EventKind
  | [] => [.sequenceEnd]
  | item :: items => nodeEvents item ++ itemEvents items

/-- The events of entries, and the end of the mapping. -/
def entryEvents : List (Node × Node) → List EventKind
  | [] => [.mappingEnd]
  | (key, value) :: entries =>
    stringEvent (key.scalarText?.getD "") :: (nodeEvents value ++ entryEvents entries)

end

namespace Walk

/-! ## Steps -/

/-- Some steps of a walk, with the events that they give. -/
inductive Emits : Walk → List Event → Walk → Prop
  | refl (w : Walk) : Emits w [] w
  | head {w w' w'' : Walk} {event : Event} {events : List Event} (h : w.step = .ok (event, w'))
      (hrest : Emits w' events w'') : Emits w (event :: events) w''

theorem Emits.trans {w w' w'' : Walk} {events more : List Event} (h : w.Emits events w')
    (h' : w'.Emits more w'') : w.Emits (events ++ more) w'' := by
  induction h with
  | refl => exact h'
  | head h _ ih => exact .head h (ih h')

theorem Emits.run_eq {w w' : Walk} {events : List Event} (h : w.Emits events w') (fuel : Nat) :
    run (events.length + fuel) w = (events ++ (run fuel w').1, (run fuel w').2) := by
  induction h with
  | refl => simp
  | @head w w' w'' event events h _ ih =>
    have hlength : (event :: events).length + fuel = events.length + fuel + 1 := by
      rw [List.length_cons]
      omega
    rw [hlength, run, h]
    simp [ih]

theorem Emits.run_prefix {w w' : Walk} {events : List Event} (h : w.Emits events w') {fuel : Nat}
    (hfuel : fuel ≤ events.length) : (run fuel w).1 = events.take fuel := by
  induction h generalizing fuel with
  | refl =>
    obtain rfl := Nat.le_zero.mp hfuel
    rfl
  | head h _ ih =>
    cases fuel with
    | zero => rfl
    | succ fuel =>
      rw [run, h, List.take_succ_cons, ← ih (Nat.le_of_succ_le_succ hfuel)]

/-- The walk breaks off in front of the end of the text. -/
def Fails (w : Walk) : Prop :=
  ∃ events w', w.Emits events w' ∧ (∀ event ∈ events, event.kind ≠ .streamEnd) ∧
    ∃ problem, w'.step = .error problem

theorem Fails.run {w : Walk} (h : w.Fails) (fuel : Nat) : ∀ event ∈ (run fuel w).1, event.kind ≠ .streamEnd := by
  obtain ⟨events, w', hemits, hevents, problem, hproblem⟩ := h
  rcases Nat.le_total fuel events.length with hfuel | hfuel
  · rw [hemits.run_prefix hfuel]
    exact fun event hevent => hevents event (List.mem_of_mem_take hevent)
  · obtain ⟨more, rfl⟩ := Nat.exists_eq_add_of_le hfuel
    have hstop : (Walk.run more w').1 = [] := by
      cases more with
      | zero => rfl
      | succ more => rw [Walk.run, hproblem]
    rw [hemits.run_eq, hstop, List.append_nil]
    exact hevents

/-! ## States -/

/-- The walk has tokens of these kinds in front of it and expects this. -/
structure Stands (w : Walk) (kinds : List TokenKind) (expected : List Expected) : Prop where
  tokens : w.tokens.map (·.kind) = kinds
  expected : w.expected = expected

/-- The walk gives such events, and comes to such a state inside of the text. -/
structure Reaches (w : Walk) (kinds : List TokenKind) (expected : List Expected) (given : List EventKind) :
    Prop where
  exists_emits : ∃ events w', w.Emits events w' ∧ events.map (·.kind) = given ∧ w'.Stands kinds expected
  inside : .streamEnd ∉ given

/-- The walk does so if `good`, and breaks off if not. -/
structure Comes (w : Walk) (good : Prop) (kinds : List TokenKind) (expected : List Expected)
    (given : List EventKind) : Prop where
  reaches : good → w.Reaches kinds expected given
  fails : ¬ good → w.Fails

/-- The same of a step and all that follows it. -/
def Continues (result : Step (Event × Walk)) (good : Prop) (kinds : List TokenKind) (expected : List Expected)
    (given : List EventKind) : Prop :=
  ∃ event w' rest, result = .ok (event, w') ∧ given = event.kind :: rest ∧ event.kind ≠ .streamEnd ∧
    w'.Comes good kinds expected rest

variable {w : Walk} {good more : Prop} {kinds kinds' : List TokenKind} {expected expected' : List Expected}
  {given given' : List EventKind}

theorem Stands.comes (h : w.Stands kinds expected) : w.Comes True kinds expected [] :=
  ⟨fun _ => ⟨⟨[], w, .refl w, rfl, h⟩, List.not_mem_nil⟩, fun hbad => absurd trivial hbad⟩

theorem Fails.of_emits {w' : Walk} {events : List Event} (h : w.Emits events w')
    (hevents : ∀ event ∈ events, event.kind ≠ .streamEnd) (hfails : w'.Fails) : w.Fails := by
  obtain ⟨rest, w'', hemits, hrest, hproblem⟩ := hfails
  exact ⟨events ++ rest, w'', h.trans hemits, List.forall_mem_append.mpr ⟨hevents, hrest⟩, hproblem⟩

theorem Continues.comes (h : Continues w.step good kinds expected given) : w.Comes good kinds expected given := by
  obtain ⟨event, w', rest, hstep, rfl, hkind, hrest⟩ := h
  refine ⟨fun hgood => ?_, fun hbad => ?_⟩
  · obtain ⟨⟨events, w'', hemits, hevents, hstands⟩, hinside⟩ := hrest.reaches hgood
    exact ⟨⟨event :: events, w'', .head hstep hemits, by rw [List.map_cons, hevents], hstands⟩,
      by simp [hkind.symm, hinside]⟩
  · exact .of_emits (.head hstep (.refl w')) (by simpa using hkind) (hrest.fails hbad)

theorem Comes.andThen (h : w.Comes good kinds expected given)
    (hnext : ∀ w' : Walk, w'.Stands kinds expected → w'.Comes more kinds' expected' given') :
    w.Comes (good ∧ more) kinds' expected' (given ++ given') := by
  refine ⟨fun hgood => ?_, fun hbad => ?_⟩
  · obtain ⟨⟨events, w', hemits, hevents, hstands⟩, hinside⟩ := h.reaches hgood.1
    obtain ⟨⟨events', w'', hemits', hevents', hstands'⟩, hinside'⟩ := (hnext w' hstands).reaches hgood.2
    exact ⟨⟨events ++ events', w'', hemits.trans hemits', by rw [List.map_append, hevents, hevents'], hstands'⟩,
      by simp [hinside, hinside']⟩
  · by_cases hgood : good
    · obtain ⟨⟨events, w', hemits, hevents, hstands⟩, hinside⟩ := h.reaches hgood
      refine .of_emits hemits (fun event hevent heq => hinside ?_)
        ((hnext w' hstands).fails fun hmore => hbad ⟨hgood, hmore⟩)
      rw [← hevents, ← heq]
      exact List.mem_map_of_mem hevent
    · exact h.fails hgood

theorem Comes.congr {other : Prop} (h : w.Comes good kinds expected given) (hiff : other ↔ good) :
    w.Comes other kinds expected given :=
  ⟨fun hother => h.reaches (hiff.mp hother), fun hbad => h.fails fun hgood => hbad (hiff.mpr hgood)⟩

theorem Continues.andThen {result : Step (Event × Walk)} (h : Continues result good kinds expected given)
    (hnext : ∀ w' : Walk, w'.Stands kinds expected → w'.Comes more kinds' expected' given') :
    Continues result (good ∧ more) kinds' expected' (given ++ given') := by
  obtain ⟨event, w', rest, hstep, rfl, hkind, hrest⟩ := h
  exact ⟨event, w', rest ++ given', hstep, rfl, hkind, hrest.andThen hnext⟩

theorem Continues.congr {result : Step (Event × Walk)} {other : Prop}
    (h : Continues result good kinds expected given) (hiff : other ↔ good) :
    Continues result other kinds expected given := by
  obtain ⟨event, w', rest, hstep, hgiven, hkind, hrest⟩ := h
  exact ⟨event, w', rest, hstep, hgiven, hkind, hrest.congr hiff⟩

/-! ## Nodes -/

theorem Stands.exists_token {kind : TokenKind} (h : w.Stands (kind :: kinds) expected) :
    ∃ token tokens, w.tokens = token :: tokens ∧ token.kind = kind ∧ tokens.map (·.kind) = kinds := by
  have htokens := h.tokens
  cases hw : w.tokens with
  | nil => rw [hw] at htokens; cases htokens
  | cons token tokens =>
    rw [hw] at htokens
    obtain ⟨hkind, hrest⟩ := List.cons.inj htokens
    exact ⟨token, tokens, rfl, hkind, hrest⟩

/-- The tokens that a node starts with, where it has no properties and is not written in block style. -/
inductive StartsNode : TokenKind → Prop
  | scalar (text : String) (style : ScalarStyle) : StartsNode (.scalar text style)
  | sequence : StartsNode .flowSequenceStart
  | mapping : StartsNode .flowMappingStart

theorem Stands.expect {kind : TokenKind} {head : Expected} (h : w.Stands (kind :: kinds) (head :: expected))
    (next : List Expected) : (w.advance.expect next).Stands kinds (next ++ expected) where
  tokens := by
    obtain ⟨token, tokens, hw, -, hrest⟩ := h.exists_token
    simp [Walk.expect, advance, hw, hrest]
  expected := by simp [Walk.expect, advance, h.expected]

theorem Stands.advance {kind : TokenKind} (h : w.Stands (kind :: kinds) expected) :
    w.advance.Stands kinds expected where
  tokens := by
    obtain ⟨token, tokens, hw, -, hrest⟩ := h.exists_token
    simp [Walk.advance, hw, hrest]
  expected := h.expected

theorem Stands.readNode_scalar {text : String} {style : ScalarStyle} {head : Expected}
    (h : w.Stands (.scalar text style :: kinds) (head :: expected)) (block bare : Bool) (next : List Expected) :
    Continues (w.readNode block bare next) True kinds (next ++ expected) [.scalar {} text style] := by
  obtain ⟨token, tokens, hw, hkind, -⟩ := h.exists_token
  refine ⟨⟨.scalar {} text style, token.start⟩, w.advance.expect next, [], ?_, rfl, by simp,
    (h.expect next).comes⟩
  simp [readNode, readProperties, peek, hw, hkind, bind, Except.bind, pure, Except.pure]

theorem Stands.readNode_sequence {head : Expected}
    (h : w.Stands (.flowSequenceStart :: kinds) (head :: expected)) (block bare : Bool) (next : List Expected)
    (hinside : ∀ w' : Walk, w'.Stands kinds (.flowItem true :: (next ++ expected)) →
      w'.Comes good kinds' expected' given) :
    Continues (w.readNode block bare next) good kinds' expected' (.sequenceStart {} :: given) := by
  obtain ⟨token, tokens, hw, hkind, -⟩ := h.exists_token
  refine ⟨⟨.sequenceStart {}, token.start⟩, w.advance.expect (.flowItem true :: next), given, ?_, rfl, by simp,
    hinside _ (h.expect _)⟩
  simp [readNode, readProperties, peek, hw, hkind, bind, Except.bind, pure, Except.pure]

theorem Stands.readNode_mapping {head : Expected}
    (h : w.Stands (.flowMappingStart :: kinds) (head :: expected)) (block bare : Bool) (next : List Expected)
    (hinside : ∀ w' : Walk, w'.Stands kinds (.flowKey true :: (next ++ expected)) →
      w'.Comes good kinds' expected' given) :
    Continues (w.readNode block bare next) good kinds' expected' (.mappingStart {} :: given) := by
  obtain ⟨token, tokens, hw, hkind, -⟩ := h.exists_token
  refine ⟨⟨.mappingStart {}, token.start⟩, w.advance.expect (.flowKey true :: next), given, ?_, rfl, by simp,
    hinside _ (h.expect _)⟩
  simp [readNode, readProperties, peek, hw, hkind, bind, Except.bind, pure, Except.pure]

/-! ## Between the nodes -/

theorem step_eq {token : Token} {tokens : List Token} {head : Expected} (htokens : w.tokens = token :: tokens)
    (hexpected : w.expected = head :: expected) : w.step = w.eventAt token head := by
  rw [step, peek, htokens, hexpected]
  rfl

/-- The comma in front of a part that is not the first one. -/
def separator (first : Bool) : List TokenKind :=
  if first then [] else [.flowEntry]

theorem Stands.step_item {first : Bool} {kind : TokenKind}
    (h : w.Stands (separator first ++ kind :: kinds) (.flowItem first :: expected)) (hkind : StartsNode kind) :
    ∃ w' : Walk, w'.Stands (kind :: kinds) (.flowItem first :: expected) ∧
      w.step = w'.readNode false false [.flowItem false] := by
  cases first with
  | true =>
    obtain ⟨token, tokens, hw, htoken, -⟩ := h.exists_token
    refine ⟨w, h, ?_⟩
    rw [step_eq hw h.expected, eventAt]
    cases hkind <;> simp [htoken, peek, hw, bind, Except.bind]
  | false =>
    obtain ⟨comma, tokens, hw, hcomma, -⟩ := h.exists_token
    obtain ⟨token, tokens', hw', htoken, -⟩ := h.advance.exists_token
    refine ⟨w.advance, h.advance, ?_⟩
    rw [step_eq hw h.expected, eventAt]
    cases hkind <;> simp [hcomma, htoken, peek, hw', bind, Except.bind]

theorem Stands.comes_sequenceEnd {first : Bool} (h : w.Stands (.flowSequenceEnd :: kinds) (.flowItem first :: expected)) :
    w.Comes True kinds expected [.sequenceEnd] := by
  obtain ⟨token, tokens, hw, htoken, -⟩ := h.exists_token
  refine Continues.comes ⟨⟨.sequenceEnd, token.start⟩, w.advance.expect [], [], ?_, rfl, by simp,
    (h.expect []).comes⟩
  rw [step_eq hw h.expected, eventAt]
  simp [htoken]

theorem Stands.comes_mappingEnd {first : Bool} (h : w.Stands (.flowMappingEnd :: kinds) (.flowKey first :: expected)) :
    w.Comes True kinds expected [.mappingEnd] := by
  obtain ⟨token, tokens, hw, htoken, -⟩ := h.exists_token
  refine Continues.comes ⟨⟨.mappingEnd, token.start⟩, w.advance.expect [], [], ?_, rfl, by simp,
    (h.expect []).comes⟩
  rw [step_eq hw h.expected, eventAt]
  simp [htoken]

theorem Stands.step_key {first : Bool} {kind : TokenKind}
    (h : w.Stands (separator first ++ .key :: kind :: kinds) (.flowKey first :: expected))
    (hkind : StartsNode kind) :
    ∃ w' : Walk, w'.Stands (kind :: kinds) (.flowKey first :: expected) ∧
      w.step = w'.readNode false false [.flowValue] := by
  cases first with
  | true =>
    obtain ⟨token, tokens, hw, htoken, -⟩ := h.exists_token
    obtain ⟨token', tokens', hw', htoken', -⟩ := h.advance.exists_token
    refine ⟨w.advance, h.advance, ?_⟩
    rw [step_eq hw h.expected, eventAt]
    cases hkind <;> simp [htoken, htoken', peek, hw, hw', readNodeUnless, bind, Except.bind]
  | false =>
    obtain ⟨comma, tokens, hw, hcomma, -⟩ := h.exists_token
    obtain ⟨token, tokens', hw', htoken, -⟩ := h.advance.exists_token
    obtain ⟨token', tokens'', hw'', htoken', -⟩ := h.advance.advance.exists_token
    refine ⟨w.advance.advance, h.advance.advance, ?_⟩
    rw [step_eq hw h.expected, eventAt]
    cases hkind <;> simp [hcomma, htoken, htoken', peek, hw', hw'', readNodeUnless, bind, Except.bind]

theorem Stands.step_value {kind : TokenKind} (h : w.Stands (.value :: kind :: kinds) (.flowValue :: expected))
    (hkind : StartsNode kind) :
    ∃ w' : Walk, w'.Stands (kind :: kinds) (.flowValue :: expected) ∧
      w.step = w'.readNode false false [.flowKey false] := by
  obtain ⟨token, tokens, hw, htoken, -⟩ := h.exists_token
  obtain ⟨token', tokens', hw', htoken', -⟩ := h.advance.exists_token
  refine ⟨w.advance, h.advance, ?_⟩
  rw [step_eq hw h.expected, eventAt]
  cases hkind <;> simp [htoken, htoken', peek, hw', readNodeUnless, bind, Except.bind]

theorem Stands.fails_colon (h : w.Stands (.value :: kinds) (.missingValue :: expected)) : w.Fails := by
  obtain ⟨token, tokens, hw, htoken, -⟩ := h.exists_token
  have hfirst : w.step = .ok (emptyScalar token.start, w.expect [.flowKey false]) := by
    rw [step_eq hw h.expected, eventAt]
  have hsecond : ∃ problem, (w.expect [.flowKey false]).step = .error problem := by
    rw [step_eq (w := w.expect [.flowKey false]) hw
      (show (w.expect [.flowKey false]).expected = .flowKey false :: _ from rfl), eventAt]
    exact ⟨_, by simp [htoken, fail, bind, Except.bind]; rfl⟩
  exact ⟨[_], _, .head hfirst (.refl _), by simp [emptyScalar], hsecond⟩

theorem Stands.fails_name {first : Bool} {text : String} {style : ScalarStyle}
    (h : w.Stands (separator first ++ .scalar text style :: .value :: kinds) (.flowKey first :: expected)) :
    w.Fails := by
  -- A name that is no key is taken for a key without a value, and then the colon comes.
  obtain ⟨w', hstands, hstep⟩ : ∃ w' : Walk,
      w'.Stands (.scalar text style :: .value :: kinds) (.flowKey first :: expected) ∧
        w.step = w'.readNode false false [.missingValue] := by
    cases first with
    | true =>
      obtain ⟨token, tokens, hw, htoken, -⟩ := h.exists_token
      refine ⟨w, h, ?_⟩
      rw [step_eq hw h.expected, eventAt]
      simp [htoken, peek, hw, bind, Except.bind]
    | false =>
      obtain ⟨comma, tokens, hw, hcomma, -⟩ := h.exists_token
      obtain ⟨token, tokens', hw', htoken, -⟩ := h.advance.exists_token
      refine ⟨w.advance, h.advance, ?_⟩
      rw [step_eq hw h.expected, eventAt]
      simp [hcomma, htoken, peek, hw', bind, Except.bind]
  have hname := hstands.readNode_scalar false false [.missingValue]
  rw [← hstep] at hname
  have hcolon (w₁ : Walk) (h₁ : w₁.Stands (.value :: kinds) (.missingValue :: expected)) :
      w₁.Comes False kinds expected [] := ⟨False.elim, fun _ => h₁.fails_colon⟩
  exact (hname.andThen hcolon).comes.fails And.right

theorem Stands.comes_name {first : Bool} {name : String} {kind : TokenKind} (hkind : StartsNode kind)
    (h : w.Stands (separator first ++ (keyKinds name ++ kind :: kinds)) (.flowKey first :: expected))
    (hvalue : ∀ w' : Walk, w'.Stands (kind :: kinds) (.flowValue :: expected) →
      Continues (w'.readNode false false [.flowKey false]) good kinds' expected' given) :
    w.Comes (isShortKey name = true ∧ good) kinds' expected' (stringEvent name :: given) := by
  cases hshort : isShortKey name with
  | true =>
    simp only [keyKinds, hshort, if_true, List.cons_append, List.nil_append] at h
    obtain ⟨w', hstands, hstep⟩ := h.step_key (.scalar ..)
    have hname := hstands.readNode_scalar false false [.flowValue]
    rw [← hstep] at hname
    have hrest (w₁ : Walk) (h₁ : w₁.Stands (.value :: kind :: kinds) (.flowValue :: expected)) :
        w₁.Comes good kinds' expected' given := by
      obtain ⟨w₂, hstands₂, hstep₂⟩ := h₁.step_value hkind
      have hvalue₂ := hvalue w₂ hstands₂
      rw [← hstep₂] at hvalue₂
      exact hvalue₂.comes
    exact (hname.andThen hrest).comes.congr (by simp)
  | false =>
    simp only [keyKinds, hshort, Bool.false_eq_true, if_false, List.cons_append, List.nil_append] at h
    exact ⟨fun hgood => absurd hgood.1 Bool.false_ne_true, fun _ => h.fails_name⟩

end Walk

/-! ## Trees -/

/-- A tree that is walked through where a node is read: its events follow if all of its names are short. -/
structure IsWalked (node : Node) : Prop where
  starts : ∃ kind kinds, nodeKinds node = kind :: kinds ∧ Walk.StartsNode kind
  continues : ∀ (w : Walk) (kinds : List TokenKind) (head : Expected) (expected next : List Expected)
    (block bare : Bool), w.Stands (nodeKinds node ++ kinds) (head :: expected) →
      Walk.Continues (w.readNode block bare next) (∀ name ∈ node.names, isShortKey name = true) kinds
        (next ++ expected) (nodeEvents node)

namespace Walk

variable {w : Walk} {kinds : List TokenKind} {expected : List Expected}

theorem Stands.comes_item {node : Node} (hnode : IsWalked node) (first : Bool)
    (h : w.Stands (separator first ++ (nodeKinds node ++ kinds)) (.flowItem first :: expected)) :
    w.Comes (∀ name ∈ node.names, isShortKey name = true) kinds (.flowItem false :: expected)
      (nodeEvents node) := by
  obtain ⟨kind, more, heq, hkind⟩ := hnode.starts
  rw [heq, List.cons_append] at h
  obtain ⟨w', hstands, hstep⟩ := h.step_item hkind
  rw [← List.cons_append, ← heq] at hstands
  exact (hstep ▸ hnode.continues w' kinds _ expected [.flowItem false] false false hstands :
    Continues w.step ..).comes

theorem Stands.comes_items {items : List Node} (hitems : ∀ item ∈ items, IsWalked item)
    (h : w.Stands (itemKinds items ++ .flowSequenceEnd :: kinds) (.flowItem false :: expected)) :
    w.Comes (∀ name ∈ itemNames items, isShortKey name = true) kinds expected (itemEvents items) := by
  induction items generalizing w with
  | nil => exact h.comes_sequenceEnd.congr (by simp [itemNames])
  | cons item items ih =>
    obtain ⟨hitem, hitems⟩ := List.forall_mem_cons.mp hitems
    rw [itemKinds, List.cons_append, List.append_assoc] at h
    have hall := Comes.andThen (h.comes_item hitem false) fun w' h' => ih hitems h'
    rw [itemNames, itemEvents]
    exact hall.congr List.forall_mem_append

theorem Stands.comes_field {name : String} {value : Node} (hvalue : IsWalked value) (first : Bool)
    (h : w.Stands (separator first ++ (keyKinds name ++ (nodeKinds value ++ kinds))) (.flowKey first :: expected)) :
    w.Comes (isShortKey name = true ∧ ∀ name ∈ value.names, isShortKey name = true) kinds
      (.flowKey false :: expected) (stringEvent name :: nodeEvents value) := by
  obtain ⟨kind, more, heq, hkind⟩ := hvalue.starts
  rw [heq, List.cons_append] at h
  refine h.comes_name hkind fun w' h' => ?_
  rw [← List.cons_append, ← heq] at h'
  exact hvalue.continues w' kinds _ expected [.flowKey false] false false h'

theorem Stands.comes_entries {fields : List (String × Node)} (hfields : ∀ field ∈ fields, IsWalked field.2)
    (h : w.Stands (entryKinds (ofFields fields) ++ .flowMappingEnd :: kinds) (.flowKey false :: expected)) :
    w.Comes (∀ name ∈ entryNames (ofFields fields), isShortKey name = true) kinds expected
      (entryEvents (ofFields fields)) := by
  induction fields generalizing w with
  | nil => exact h.comes_mappingEnd.congr (by simp [ofFields, entryNames])
  | cons field fields ih =>
    obtain ⟨hfield, hfields⟩ := List.forall_mem_cons.mp hfields
    rw [ofFields_cons, entryKinds, List.cons_append] at h
    simp only [List.append_assoc, Node.scalarText?, Option.getD_some] at h
    have hall := Comes.andThen (h.comes_field hfield false) fun w' h' => ih hfields h'
    rw [ofFields_cons, entryNames, entryEvents]
    refine hall.congr ?_
    simp only [Node.scalarText?, Option.toList_some, List.singleton_append, List.forall_mem_cons,
      List.forall_mem_append, and_assoc]

end Walk

theorem isWalked_of_isPlain {depth : Nat} {node : Node} (h : node.IsPlain depth) : IsWalked node := by
  induction h with
  | bool | int | str =>
    refine ⟨⟨_, [], rfl, .scalar ..⟩, fun w kinds head expected next block bare h => ?_⟩
    exact (h.readNode_scalar block bare next).congr (by simp [names])
  | @seq depth items each ih =>
    refine ⟨?_, fun w kinds head expected next block bare h => ?_⟩
    · cases items <;> exact ⟨_, _, rfl, .sequence⟩
    cases items with
    | nil =>
      refine (h.readNode_sequence block bare next fun w' h' => h'.comes_sequenceEnd).congr ?_
      simp [names, itemNames]
    | cons item items =>
      obtain ⟨hitem, hitems⟩ := List.forall_mem_cons.mp ih
      simp only [nodeKinds, List.cons_append, List.append_assoc, List.nil_append] at h
      refine (h.readNode_sequence block bare next fun w' h' =>
        (h'.comes_item hitem true).andThen fun w'' h'' => h''.comes_items hitems).congr ?_
      rw [names, itemNames, List.forall_mem_append]
  | @map depth fields distinct each ih =>
    refine ⟨?_, fun w kinds head expected next block bare h => ?_⟩
    · cases fields <;> exact ⟨_, _, rfl, .mapping⟩
    cases fields with
    | nil =>
      refine (h.readNode_mapping block bare next fun w' h' => h'.comes_mappingEnd).congr ?_
      simp [ofFields, names, entryNames]
    | cons field fields =>
      obtain ⟨hfield, hfields⟩ := List.forall_mem_cons.mp ih
      simp only [ofFields_cons, nodeKinds, List.cons_append, List.append_assoc, List.nil_append,
        Node.scalarText?, Option.getD_some] at h
      refine (h.readNode_mapping block bare next fun w' h' =>
        (h'.comes_field hfield true).andThen fun w'' h'' => h''.comes_entries hfields).congr ?_
      simp only [ofFields_cons, names, entryNames, Node.scalarText?, Option.toList_some, List.singleton_append,
        List.forall_mem_cons, List.forall_mem_append, and_assoc]

/-! ## The whole text -/

namespace Walk

theorem Stands.comes_document {w : Walk} {node : Node} (hnode : IsWalked node)
    (h : w.Stands (nodeKinds node ++ [.streamEnd]) [.document true]) :
    w.Comes (∀ name ∈ node.names, isShortKey name = true) [.streamEnd] [.documentEnd]
      (.documentStart :: nodeEvents node) := by
  obtain ⟨kind, more, heq, hkind⟩ := hnode.starts
  rw [heq, List.cons_append] at h
  obtain ⟨token, tokens, hw, htoken, -⟩ := h.exists_token
  let inside : Walk := { w with handles := commonHandles }.expect [.blockNode, .documentEnd]
  have hinside : inside.Stands (nodeKinds node ++ [.streamEnd]) [.blockNode, .documentEnd] := by
    rw [heq, List.cons_append]
    exact ⟨h.tokens, by simp [inside, Walk.expect, h.expected]⟩
  have hstep : w.step = .ok (⟨.documentStart, token.start⟩, inside) := by
    rw [step_eq hw h.expected, eventAt, readDocument]
    cases hkind <;>
      simp [peek, hw, htoken, opensDocument, bind, Except.bind, pure, Except.pure, inside]
  have hread := hnode.continues inside [.streamEnd] .blockNode [.documentEnd] [] true false hinside
  have hstepInside : inside.step = inside.readNode true false [] := by
    rw [step_eq (w := inside) hw hinside.expected, eventAt]
  rw [← hstepInside] at hread
  exact Continues.comes ⟨_, inside, _, hstep, rfl, by simp, hread.comes⟩

theorem Stands.emits_end {w : Walk} (h : w.Stands [.streamEnd] [.documentEnd]) :
    ∃ events w', w.Emits events w' ∧ events.map (·.kind) = [.documentEnd, .streamEnd] ∧
      ∃ problem, w'.step = .error problem := by
  obtain ⟨token, tokens, hw, htoken, hrest⟩ := h.exists_token
  obtain rfl := List.map_eq_nil_iff.mp hrest
  let behind : Walk := { w with handles := [] }.expect [.document false]
  have hbehind : behind.tokens = [token] := hw
  have hfirst : w.step = .ok (⟨.documentEnd, token.start⟩, behind) := by
    rw [step_eq hw h.expected, eventAt]
    simp [htoken, behind]
  have hsecond : behind.step = .ok (⟨.streamEnd, token.start⟩, behind.advance.expect []) := by
    rw [step_eq hbehind rfl, eventAt, readDocument]
    simp [readMarkedDocument, peek, hbehind, htoken, bind, Except.bind, pure, Except.pure]
    rw [← hbehind]
  refine ⟨_, _, .head hfirst (.head hsecond (.refl _)), rfl, behind.ahead, ?_⟩
  have hnone : (behind.advance.expect []).tokens = [] := by simp [Walk.expect, Walk.advance, hbehind]
  rw [step, peek, hnone]
  rfl

end Walk

theorem length_nodeEvents_le {depth : Nat} {node : Node} (h : node.IsPlain depth) :
    (nodeEvents node).length ≤ (nodeKinds node).length := by
  have hkey (name : String) : 1 ≤ (keyKinds name).length := by simp [keyKinds]
  induction h with
  | bool | int | str => exact Nat.le_refl 1
  | @seq depth items each ih =>
    have htail (tail : List Node) (htail : ∀ item ∈ tail, item ∈ items) :
        (itemEvents tail).length ≤ (itemKinds tail).length + 1 := by
      induction tail with
      | nil => exact Nat.le_refl 1
      | cons item tail tail_ih =>
        obtain ⟨hitem, htail⟩ := List.forall_mem_cons.mp htail
        have := ih item hitem
        have := tail_ih htail
        simp only [itemEvents, itemKinds, List.length_cons, List.length_append]
        omega
    cases items with
    | nil => exact Nat.le_refl 2
    | cons item items =>
      have := ih item List.mem_cons_self
      have := htail items fun _ => List.mem_cons_of_mem item
      simp only [nodeEvents, itemEvents, nodeKinds, List.length_cons, List.length_append, List.length_nil]
      omega
  | @map depth fields distinct each ih =>
    have htail (tail : List (String × Node)) (htail : ∀ field ∈ tail, field ∈ fields) :
        (entryEvents (ofFields tail)).length ≤ (entryKinds (ofFields tail)).length + 1 := by
      induction tail with
      | nil => exact Nat.le_refl 1
      | cons field tail tail_ih =>
        obtain ⟨hfield, htail⟩ := List.forall_mem_cons.mp htail
        have := ih field hfield
        have := tail_ih htail
        have := hkey field.1
        simp only [ofFields_cons, entryEvents, entryKinds, List.length_cons, List.length_append,
          Node.scalarText?, Option.getD_some]
        omega
    cases fields with
    | nil => exact Nat.le_refl 2
    | cons field fields =>
      have := ih field List.mem_cons_self
      have := htail fields fun _ => List.mem_cons_of_mem field
      have := hkey field.1
      simp only [ofFields_cons, nodeEvents, entryEvents, nodeKinds, List.length_cons, List.length_append,
        List.length_nil, Node.scalarText?, Option.getD_some]
      omega

variable {depth : Nat} {entries : Node.Entries}

theorem events_write (h : IsPlain depth (.map entries))
    (hread : ∀ s ∈ (Node.map entries).names ++ (Node.map entries).texts, IsReadable s)
    (hshort : ∀ name ∈ (Node.map entries).names, isShortKey name = true) :
    (events (Json.write 0 (.map entries))).1.map (·.kind) =
      .documentStart :: (nodeEvents (.map entries) ++ [.documentEnd, .streamEnd]) := by
  have htokens := (tokens_write h hread).1
  have hlength := length_nodeEvents_le h
  rw [events]
  generalize tokens (Json.write 0 (.map entries)) = found at htokens ⊢
  obtain ⟨found, ahead⟩ := found
  have hcount := congrArg List.length htokens
  have hstart : Walk.Stands { tokens := found, ahead } (nodeKinds (.map entries) ++ [.streamEnd])
    [.document true] := ⟨htokens, rfl⟩
  obtain ⟨⟨before, w, hemits, hbefore, hstands⟩, -⟩ :=
    (hstart.comes_document (isWalked_of_isPlain h)).reaches hshort
  obtain ⟨after, w', hend, hafter, problem, hproblem⟩ := hstands.emits_end
  have hgiven : (before ++ after).map (·.kind) =
      .documentStart :: (nodeEvents (.map entries) ++ [.documentEnd, .streamEnd]) := by
    rw [List.map_append, hbefore, hafter, List.cons_append]
  have hfuel := congrArg List.length hgiven
  simp only [List.length_map, List.length_append, List.length_cons, List.length_nil] at hcount hfuel
  obtain ⟨fuel, hfuel⟩ : ∃ fuel, 4 * found.length + 8 = (before ++ after).length + fuel :=
    Nat.exists_eq_add_of_le (by rw [List.length_append]; omega)
  have hstop : (Walk.run fuel w').1 = [] := by
    cases fuel with
    | zero => rfl
    | succ fuel => rw [Walk.run, hproblem]
  show (Walk.run (4 * found.length + 8) _).1.map _ = _
  rw [hfuel, (hemits.trans hend).run_eq, hstop, List.append_nil, hgiven]

theorem ne_streamEnd_of_mem_events (h : IsPlain depth (.map entries))
    (hbad : ¬ ((∀ s ∈ (Node.map entries).names ++ (Node.map entries).texts, IsReadable s) ∧
      ∀ name ∈ (Node.map entries).names, isShortKey name = true)) :
    ∀ event ∈ (events (Json.write 0 (.map entries))).1, event.kind ≠ .streamEnd := by
  by_cases hread : ∀ s ∈ (Node.map entries).names ++ (Node.map entries).texts, IsReadable s
  · have htokens := (tokens_write h hread).1
    rw [events]
    generalize tokens (Json.write 0 (.map entries)) = found at htokens ⊢
    obtain ⟨found, ahead⟩ := found
    have hstart : Walk.Stands { tokens := found, ahead } (nodeKinds (.map entries) ++ [.streamEnd])
      [.document true] := ⟨htokens, rfl⟩
    refine Walk.Fails.run ((hstart.comes_document (isWalked_of_isPlain h)).fails ?_) _
    exact fun hshort => hbad ⟨hread, hshort⟩
  · intro event hevent hkind
    rw [events] at hevent
    obtain ⟨token, htoken, heq⟩ := Walk.exists_streamEnd_of_run ⟨event, hevent, hkind⟩
    exact ne_streamEnd_of_mem_tokens h hread token htoken heq

end ZoneScript.Yaml
