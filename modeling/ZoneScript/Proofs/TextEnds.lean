import ZoneScript.Yaml.Document

/-!
# Texts that are read to the end

A document is given only where the walk through the tokens came to the end of the text, and it came there
only if the end is among the tokens.
-/

namespace ZoneScript.Yaml

namespace Walk

/-! ## The walk -/

/-- A result of the walk leaves no tokens but those in front of it, and the text ends only where they say. -/
def Keeps (w : Walk) (result : Step (Event × Walk)) : Prop :=
  ∀ event w', result = .ok (event, w') →
    w'.tokens ⊆ w.tokens ∧ (event.kind = .streamEnd → ∃ token ∈ w.tokens, token.kind = .streamEnd)

variable {w w' : Walk} {event : Event} {result : Step (Event × Walk)}

theorem tokens_advance (w : Walk) : w.advance.tokens ⊆ w.tokens :=
  List.drop_subset 1 w.tokens

theorem Keeps.trans (h : w.Keeps result) (hw : w.tokens ⊆ w'.tokens) : w'.Keeps result := by
  intro event w'' hresult
  obtain ⟨htokens, hend⟩ := h event w'' hresult
  refine ⟨List.Subset.trans htokens hw, fun hkind => ?_⟩
  obtain ⟨token, htoken, heq⟩ := hend hkind
  exact ⟨token, hw htoken, heq⟩

theorem keeps_ok (hkind : event.kind ≠ .streamEnd) (htokens : w'.tokens ⊆ w.tokens) :
    w.Keeps (.ok (event, w')) := by
  rintro _ _ ⟨⟩
  exact ⟨htokens, fun h => absurd h hkind⟩

theorem keeps_error (problem : Option Problem) : w.Keeps (.error problem) := by
  rintro _ _ ⟨⟩

theorem tokens_readProperties {properties : Properties} (h : w.readProperties = .ok (properties, w')) :
    w'.tokens ⊆ w.tokens := by
  have htwo := List.Subset.trans (tokens_advance w.advance) (tokens_advance w)
  unfold readProperties at h
  simp only [bind, Except.bind, pure, Except.pure] at h
  repeat' split at h
  all_goals cases h
  all_goals first | exact htwo | exact tokens_advance w | exact List.Subset.refl _

theorem keeps_readNode (block bare : Bool) (next : List Expected) :
    w.Keeps (w.readNode block bare next) := by
  rw [readNode]
  cases hfirst : w.peek with
  | error problem => exact keeps_error problem
  | ok first =>
    simp only [bind, Except.bind, pure, Except.pure]
    split
    · exact keeps_ok (by simp) (tokens_advance w)
    split
    · exact keeps_error _
    rename_i found hproperties
    have htokens := tokens_readProperties (show w.readProperties = .ok (found.1, found.2) from hproperties)
    refine Keeps.trans ?_ htokens
    generalize found.2 = w'
    have hadvance := tokens_advance w'
    repeat' split
    all_goals first
      | exact keeps_error _
      | exact keeps_ok nofun hadvance
      | exact keeps_ok nofun (List.Subset.refl _)

theorem keeps_readNodeUnless (kinds : List TokenKind) (mark : Token → Mark) (block bare : Bool)
    (next : List Expected) : w.Keeps (w.readNodeUnless kinds mark block bare next) := by
  rw [readNodeUnless]
  cases w.peek with
  | error problem => exact keeps_error problem
  | ok token =>
    simp only [bind, Except.bind, pure, Except.pure]
    split
    · exact keeps_ok nofun (List.Subset.refl _)
    · exact keeps_readNode block bare next

theorem tokens_readDirectives {tokens tokens' : List Token} {hasVersion : Bool}
    {handles handles' : List (String × Tag)}
    (h : readDirectives tokens hasVersion handles = .ok (handles', tokens')) : tokens' ⊆ tokens := by
  induction tokens generalizing hasVersion handles with
  | nil =>
    cases h
    exact List.Subset.refl _
  | cons token tokens ih =>
    rw [readDirectives] at h
    have htail := List.subset_cons_self token tokens
    repeat' split at h
    all_goals first
      | exact List.Subset.trans (ih h) htail
      | cases h
    exact List.Subset.refl _

theorem keeps_readMarkedDocument : w.Keeps w.readMarkedDocument := by
  rw [readMarkedDocument]
  cases htoken : w.peek with
  | error problem => exact keeps_error problem
  | ok token =>
    simp only [bind, Except.bind, pure, Except.pure]
    split
    · rename_i hend
      have hmem : token ∈ w.tokens := by
        rw [peek] at htoken
        split at htoken
        · rename_i heq
          obtain rfl := Except.ok.inj htoken
          simp [heq]
        · cases htoken
      rintro _ _ ⟨⟩
      exact ⟨tokens_advance w, fun _ => ⟨token, hmem, beq_iff_eq.mp hend⟩⟩
    split
    · exact keeps_error _
    rename_i found hfound
    have htokens := tokens_readDirectives hfound
    repeat' split
    all_goals first
      | exact keeps_error _
      | exact keeps_ok nofun (List.Subset.trans (List.drop_subset 1 _) htokens)

theorem keeps_readDocument (first : Bool) : w.Keeps (w.readDocument first) := by
  rw [readDocument]
  split
  · cases w.peek with
    | error problem => exact keeps_error problem
    | ok token =>
      simp only [bind, Except.bind, pure, Except.pure]
      split
      · exact keeps_readMarkedDocument
      · exact keeps_ok nofun (List.Subset.refl _)
  · exact keeps_readMarkedDocument.trans (List.dropWhile_subset _)

theorem keeps_eventAt (token : Token) (expected : Expected) : w.Keeps (w.eventAt token expected) := by
  have hadvance := tokens_advance w
  have htwo := List.Subset.trans (tokens_advance w.advance) hadvance
  unfold eventAt
  cases expected with
  | document first => exact keeps_readDocument first
  | documentEnd =>
    refine keeps_ok nofun ?_
    simp only [expect]
    split
    · exact hadvance
    · exact List.Subset.refl _
  | _ =>
    simp only [bind, Except.bind, pure, Except.pure, readAfter]
    repeat' split
    all_goals first
      | exact keeps_error _
      | exact keeps_readNode _ _ _
      | exact keeps_readNodeUnless _ _ _ _ _
      | exact (keeps_readNode _ _ _).trans hadvance
      | exact (keeps_readNodeUnless _ _ _ _ _).trans hadvance
      | exact (keeps_readNodeUnless _ _ _ _ _).trans htwo
      | exact keeps_ok nofun (List.Subset.refl _)
      | exact keeps_ok nofun hadvance
      | exact keeps_ok nofun htwo

theorem keeps_step : w.Keeps w.step := by
  rw [step]
  cases w.peek with
  | error problem => exact keeps_error problem
  | ok token =>
    cases w.expected with
    | nil => exact keeps_error none
    | cons expected _ => exact keeps_eventAt token expected

theorem exists_streamEnd_of_run {fuel : Nat} (h : ∃ event ∈ (run fuel w).1, event.kind = .streamEnd) :
    ∃ token ∈ w.tokens, token.kind = .streamEnd := by
  induction fuel generalizing w with
  | zero =>
    obtain ⟨event, hevent, -⟩ := h
    cases hevent
  | succ fuel ih =>
    rw [run] at h
    cases hstep : w.step with
    | error problem =>
      rw [hstep] at h
      obtain ⟨event, hevent, -⟩ := h
      cases hevent
    | ok found =>
      obtain ⟨event, w'⟩ := found
      obtain ⟨htokens, hend⟩ := keeps_step event w' hstep
      rw [hstep] at h
      obtain ⟨other, hother, hkind⟩ := h
      rcases List.mem_cons.mp hother with rfl | hother
      · exact hend hkind
      · obtain ⟨token, htoken, heq⟩ := ih ⟨other, hother, hkind⟩
        exact ⟨token, htokens htoken, heq⟩

end Walk

/-! ## The document -/

theorem Draft.ofEvents_suffix (ahead : Option Problem) (draft : Draft) (events : List Event) :
    (ofEvents ahead draft events).2 <:+ events := by
  induction events generalizing draft with
  | nil => exact List.suffix_refl _
  | cons event events ih =>
    have htail := List.suffix_cons event events
    rw [ofEvents]
    repeat' split
    all_goals first
      | exact (ih _).trans htail
      | exact htail
      | exact List.suffix_refl _

theorem exists_streamEnd_of_load {text : String} {node : Node} (h : load text = .ok node) :
    ∃ event ∈ (events text.toList).1, event.kind = .streamEnd := by
  rw [load] at h
  generalize events text.toList = found at h ⊢
  obtain ⟨found, ahead⟩ := found
  dsimp only at h ⊢
  have hsuffix := Draft.ofEvents_suffix ahead {} found
  generalize Draft.ofEvents ahead {} found = result at h hsuffix
  obtain ⟨draft, rest⟩ := result
  cases hnode : draft.node with
  | error failure => simp [hnode, bind, Except.bind] at h
  | ok node' =>
    simp only [hnode, bind, Except.bind] at h
    split at h
    · cases h
    · exact ⟨_, hsuffix.subset List.mem_cons_self, rfl⟩
    · cases h

end ZoneScript.Yaml
