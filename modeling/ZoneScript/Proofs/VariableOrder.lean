import ZoneScript.Compilation
import ZoneScript.Proofs.Expansion
import ZoneScript.Proofs.Ordered

/-!
# The order of variables

An expansion asks for variables by their names, and each of them is resolved from what all were
declared as, not from what others were resolved to. So nothing depends on the order in which they are
declared, even if they refer to each other in a circle.
-/

namespace ZoneScript

namespace Ordered

variable {α β : Type} {es fs : List (String × α)}

/-- Two maps have the same values under the same names, in whatever order. -/
def Agree (es fs : List (String × α)) : Prop :=
  ∀ name, find? name es = find? name fs

theorem perm_names (h : es.Perm fs) : (names es).Perm (names fs) :=
  h.map _

theorem agree_of_perm (h : es.Perm fs) (hes : (names es).Nodup) : Agree es fs := by
  have hfs : (names fs).Nodup := (perm_names h).nodup_iff.mp hes
  intro name
  cases hfind : find? name es with
  | none =>
    have hnot : name ∉ names fs := by
      rw [← (perm_names h).mem_iff]
      exact find?_eq_none.mp hfind
    exact (find?_eq_none.mpr hnot).symm
  | some v => exact (find?_of_mem hfs (h.mem_iff.mp (mem_of_find? hfind))).symm

theorem Agree.mapValues (h : Agree es fs) (f : α → β) :
    Agree (Ordered.mapValues f es) (Ordered.mapValues f fs) := by
  intro name
  rw [find?_mapValues, find?_mapValues, h]

theorem find?_filter (p : String → Bool) (name : String) (es : List (String × α)) :
    find? name (es.filter fun e => p e.1) = if p name then find? name es else none := by
  induction es with
  | nil => simp [find?]
  | cons e es ih =>
    obtain ⟨n, v⟩ := e
    by_cases hn : n = name
    · subst hn
      by_cases hp : p n = true <;> simp [find?, hp, ih]
    · by_cases hp : p n = true <;> simp [find?, hp, hn, ih]

theorem Agree.filter (h : Agree es fs) (p : String → Bool) :
    Agree (es.filter fun e => p e.1) (fs.filter fun e => p e.1) := by
  intro name
  rw [find?_filter, find?_filter, h]

end Ordered

open Ordered

namespace Template

variable {vars others : List (String × Variable)}

/-! ## Variables -/

theorem resolveText_congr (h : Agree vars others) : resolveText vars = resolveText others := by
  funext text
  simp only [resolveText, h _]

theorem resolveVariable_congr (h : Agree vars others) :
    resolveVariable vars = resolveVariable others := by
  funext value
  cases value <;> simp only [resolveVariable, resolveText_congr h]

/-- The variables that have no reserved name, each with what it comes to if these are declared. -/
def resolvedIn (declared vars : List (String × Variable)) : List (String × Variable) :=
  mapValues (resolveVariable declared) (vars.filter fun e => !isReserved e.1)

theorem resolve_eq (vars : List (String × Variable)) : resolve vars = resolvedIn vars vars := rfl

theorem resolvedIn_congr (h : Agree vars others) : resolvedIn vars = resolvedIn others := by
  funext declared
  rw [resolvedIn, resolvedIn, resolveVariable_congr h]

theorem agree_resolve (h : Agree vars others) : Agree (resolve vars) (resolve others) := by
  rw [resolve_eq, resolve_eq, resolvedIn_congr h]
  exact (h.filter fun name => !isReserved name).mapValues _

/-! ## Loops and substitution -/

theorem loopValues_congr (h : Agree vars others) : loopValues vars = loopValues others := by
  funext directive
  simp only [loopValues, h _]

theorem substitute_congr (h : Agree vars others) : substitute vars = substitute others := by
  funext text
  simp only [substitute, h _]

section

variable {α : Type} [HasLoop α]

theorem unrollAll_congr (h : Agree vars others) :
    unrollAll (α := α) vars = unrollAll others := by
  funext items
  simp only [unrollAll]
  refine List.flatMap_congr fun item _ => ?_
  simp only [unroll, loopValues_congr h]

theorem expandAll_congr (h : Agree vars others) :
    expandAll (α := α) vars = expandAll others := by
  funext items
  rw [expandAll, expandAll, unrollAll_congr h, substitute_congr h]

end

theorem expandZone_congr (h : Agree vars others) : expandZone vars = expandZone others := by
  funext zone
  simp only [expandZone, substitute_congr h, expandAll_congr h]

theorem expandDirect_congr (h : Agree vars others) : expandDirect vars = expandDirect others := by
  funext direct
  simp only [expandDirect, substitute_congr h, expandAll_congr h]

theorem unrollZone_congr (h : Agree vars others) : unrollZone vars = unrollZone others := by
  funext zone
  simp only [unrollZone, unrollAll_congr h]

theorem unrollDirect_congr (h : Agree vars others) : unrollDirect vars = unrollDirect others := by
  funext direct
  simp only [unrollDirect, unrollAll_congr h]

/-! ## Remarks -/

namespace Remark

theorem ofLoops_congr {α : Type} [HasLoop α] (h : Agree vars others) (path : String) (index : Nat)
    (items : List α) : ofLoops vars path index items = ofLoops others path index items := by
  induction items generalizing index with
  | nil => rfl
  | cons item items ih => rw [ofLoops, ofLoops, loopValues_congr h, ih]

theorem ofZoneLoops_congr (h : Agree vars others) : ofZoneLoops vars = ofZoneLoops others := by
  funext name zone
  simp only [ofZoneLoops, ofLoops_congr h]

theorem ofDirectLoops_congr (h : Agree vars others) : ofDirectLoops vars = ofDirectLoops others := by
  funext direct
  simp only [ofDirectLoops, ofLoops_congr h]

theorem ofText_congr (h : Agree vars others) : ofText vars = ofText others := by
  funext path text
  simp only [ofText, h _]

theorem ofTexts_congr (h : Agree vars others) : ofTexts vars = ofTexts others := by
  funext path texts
  rw [ofTexts, ofTexts, ofText_congr h]

theorem all_congr {config : Config} (h : Agree vars config.vars) :
    all { config with vars } = all config := by
  -- Remarks come in the order of the zones and their items; that of the variables does not show.
  have hresolve := agree_resolve h
  simp only [all, unrolledZones, unrolledDirect, ofZoneLoops_congr hresolve,
    ofDirectLoops_congr hresolve, ofTexts_congr hresolve, unrollZone_congr hresolve,
    unrollDirect_congr hresolve]

end Remark

end Template

open Template

/-! ## Configurations -/

theorem Config.expand_congr {config : Config} {vars : List (String × Variable)}
    (h : Agree vars config.vars) : expand { config with vars } = config.expand := by
  have hresolve := agree_resolve h
  rw [expand_eq, expand_eq, expandZone_congr hresolve, expandDirect_congr hresolve]

/-- **The order of variables.** If the variables of a configuration are declared in another order, it
comes to the same and gives the same warnings, and each variable comes to the same and stands where it
was declared. -/
theorem Expansion.ofConfig_perm {config : Config} (h : config.HasDistinctNames)
    {vars : List (String × Variable)} (hperm : vars.Perm config.vars) :
    let other := ofConfig { config with vars }
    other.config = (ofConfig config).config ∧ other.warnings = (ofConfig config).warnings ∧
      (ofConfig config).vars = resolvedIn config.vars config.vars ∧
      other.vars = resolvedIn config.vars vars ∧ other.vars.Perm (ofConfig config).vars := by
  intro other
  have hnames : (names vars).Nodup := (perm_names hperm).nodup_iff.mpr h.vars
  have hagree : Agree vars config.vars := agree_of_perm hperm hnames
  have hvars : other.vars = resolvedIn config.vars vars := by
    rw [← resolvedIn_congr hagree]
    rfl
  refine ⟨Config.expand_congr hagree, ?_, rfl, hvars, ?_⟩
  · show (Remark.withoutRepeated [] (Remark.all { config with vars })).map Remark.diagnostic = _
    rw [Remark.all_congr hagree]
    rfl
  · rw [hvars]
    exact (hperm.filter _).map _

/-- A chain and a circle of variables, a list, and one with a reserved name. -/
theorem Expansion.ofConfig_perm_circle :
    let vars : List (String × Variable) :=
      [("a", .scalar "\x7b\x7bb\x7d\x7d"), ("b", .scalar "\x7b\x7ba\x7d\x7d"),
        ("c", .scalar "\x7b\x7ba\x7d\x7d"), ("item", .scalar "\x7b\x7bc\x7d\x7d"),
        ("l", .list ["1", "\x7b\x7bc\x7d\x7d"])]
    let circle : ValueItem := { value := "\x7b\x7ba\x7d\x7d" }
    let loop : ValueItem := { value := "\x7b\x7bitem\x7d\x7d", loop := some "l" }
    let config : Config := { vars, zones := [("z", { services := [circle, loop] })] }
    let services : List ValueItem := [circle, { value := "1" }, circle]
    config.HasDistinctNames ∧ vars.reverse.Perm vars ∧
      (ofConfig { config with vars := vars.reverse }).config = { zones := [("z", { services })] } ∧
      (ofConfig { config with vars := vars.reverse }).vars =
        [("l", .list ["1", "\x7b\x7ba\x7d\x7d"]), ("c", .scalar "\x7b\x7bb\x7d\x7d"),
          ("b", .scalar "\x7b\x7bb\x7d\x7d"), ("a", .scalar "\x7b\x7ba\x7d\x7d")] := by
  intro vars circle loop config services
  have h : config.HasDistinctNames := ⟨by decide, by decide⟩
  obtain ⟨hconfig, -, -, hvars, -⟩ := ofConfig_perm h (List.reverse_perm vars)
  exact ⟨h, List.reverse_perm vars, hconfig.trans (by decide +kernel), hvars.trans (by decide +kernel)⟩

end ZoneScript
