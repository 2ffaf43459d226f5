import ZoneScript.Distinct
import ZoneScript.Ordered

/-!
# Ordered maps, written entry by entry

Merging, absorbing and declaring all write the entries of one map into another. What comes out is
known by its names, in order, and by the value of each name.
-/

namespace ZoneScript

/-! ## New items and repeated ones -/

theorem addNew_append {α : Type} [DecidableEq α] (known xs ys : List α) :
    addNew known (xs ++ ys) = addNew (addNew known xs) ys := by
  induction xs generalizing known with
  | nil => rfl
  | cons x xs ih => exact ih _

theorem nodup_addNew {α : Type} [DecidableEq α] {known : List α} (h : known.Nodup) (xs : List α) :
    (addNew known xs).Nodup := by
  induction xs generalizing known with
  | nil => exact h
  | cons x xs ih =>
    rw [addNew]
    split
    · exact ih h
    · rename_i hx
      apply ih
      rw [List.nodup_append]
      refine ⟨h, by simp, ?_⟩
      rintro y hy z hz rfl
      rw [List.mem_singleton.mp hz] at hy
      exact hx hy

theorem addNew_of_subset {α : Type} [DecidableEq α] {known xs : List α} (h : ∀ x ∈ xs, x ∈ known) :
    addNew known xs = known := by
  induction xs with
  | nil => rfl
  | cons x xs ih =>
    rw [addNew, if_pos (h x List.mem_cons_self)]
    exact ih fun y hy => h y (List.mem_cons_of_mem _ hy)

theorem addNew_addNew {α : Type} [DecidableEq α] (known xs ys : List α) :
    addNew known (addNew xs ys) = addNew (addNew known xs) ys := by
  induction ys generalizing xs with
  | nil => rfl
  | cons y ys ih =>
    simp only [addNew]
    rw [ih]
    by_cases hx : y ∈ xs
    · rw [if_pos hx, if_pos (mem_addNew.mpr (.inr hx))]
    · rw [if_neg hx, addNew_append]
      rfl

theorem distinct_append_self {α : Type} [DecidableEq α] (xs : List α) :
    distinct (xs ++ xs) = distinct xs := by
  rw [distinct_append, List.filter_eq_nil_iff.mpr (by simp), List.append_nil]

namespace Ordered

variable {α β : Type}

/-! ## Names and values decide a map -/

@[simp]
theorem names_nil : names ([] : List (String × α)) = [] := rfl

@[simp]
theorem names_cons (e : String × α) (es : List (String × α)) : names (e :: es) = e.1 :: names es :=
  rfl

theorem find?_eq_none {name : String} {es : List (String × α)} :
    find? name es = none ↔ name ∉ names es := by
  induction es with
  | nil => simp [find?]
  | cons e es ih =>
    obtain ⟨n, v⟩ := e
    by_cases h : n = name
    · simp [find?, h]
    · simp [find?, h, ih, Ne.symm h]

theorem mem_of_find? {name : String} {v : α} {es : List (String × α)} (h : find? name es = some v) :
    (name, v) ∈ es := by
  induction es with
  | nil => simp [find?] at h
  | cons e es ih =>
    obtain ⟨n, w⟩ := e
    by_cases hn : n = name
    · simp only [find?, hn, if_true, Option.some.injEq] at h
      rw [hn, h]
      exact List.mem_cons_self
    · simp only [find?, hn, if_false] at h
      exact List.mem_cons_of_mem _ (ih h)

theorem find?_of_mem {name : String} {v : α} {es : List (String × α)} (hes : (names es).Nodup)
    (h : (name, v) ∈ es) : find? name es = some v := by
  induction es with
  | nil => simp at h
  | cons e es ih =>
    obtain ⟨n, w⟩ := e
    obtain ⟨hn, hes⟩ := List.nodup_cons.mp hes
    rcases List.mem_cons.mp h with he | h
    · obtain ⟨rfl, rfl⟩ := Prod.mk.inj he
      simp [find?]
    · have hne : n ≠ name := by
        rintro rfl
        exact hn (List.mem_map.mpr ⟨_, h, rfl⟩)
      rw [find?, if_neg hne]
      exact ih hes h

theorem ext_of_nodup {es fs : List (String × α)} (hes : (names es).Nodup)
    (hnames : names es = names fs) (hfind : ∀ name, find? name es = find? name fs) : es = fs := by
  induction es generalizing fs with
  | nil =>
    cases fs with
    | nil => rfl
    | cons f fs => simp at hnames
  | cons e es ih =>
    obtain ⟨n, v⟩ := e
    cases fs with
    | nil => simp at hnames
    | cons f fs =>
      obtain ⟨m, w⟩ := f
      obtain ⟨rfl, hrest⟩ : n = m ∧ names es = names fs := by simpa using hnames
      obtain ⟨hn, hes⟩ : n ∉ names es ∧ (names es).Nodup := by simpa using hes
      have hv := hfind n
      simp only [find?, if_true, Option.some.injEq] at hv
      rw [hv, ih hes hrest]
      intro name
      by_cases h : n = name
      · subst h
        rw [find?_eq_none.mpr hn, find?_eq_none.mpr (by rw [← hrest]; exact hn)]
      · simpa [find?, h] using hfind name

theorem mem_names_alter {name other : String} {f : Option α → α} {es : List (String × α)} :
    other ∈ names (alter name f es) ↔ other = name ∨ other ∈ names es := by
  rw [names_alter]
  split
  · rename_i hname
    exact ⟨.inr, fun h => h.elim (· ▸ hname) id⟩
  · rw [List.mem_append, List.mem_singleton, or_comm]

theorem alter_of_not_mem {name : String} {es : List (String × α)} (h : name ∉ names es)
    (f : Option α → α) : alter name f es = es ++ [(name, f none)] := by
  induction es with
  | nil => rfl
  | cons e es ih =>
    obtain ⟨n, v⟩ := e
    obtain ⟨hne, h⟩ := not_or.mp (mt List.mem_cons.mpr h)
    rw [alter, if_neg (Ne.symm hne), ih h]
    rfl

/-! ## Values changed in place -/

/-- The map with every value changed. -/
def mapValues (f : α → β) (es : List (String × α)) : List (String × β) :=
  es.map fun (name, v) => (name, f v)

@[simp]
theorem names_mapValues (f : α → β) (es : List (String × α)) : names (mapValues f es) = names es := by
  simp [names, mapValues]

@[simp]
theorem find?_mapValues (f : α → β) (name : String) (es : List (String × α)) :
    find? name (mapValues f es) = (find? name es).map f := by
  induction es with
  | nil => rfl
  | cons e es ih =>
    obtain ⟨n, v⟩ := e
    by_cases h : n = name
    · simp [mapValues, find?, h]
    · simpa [mapValues, find?, h] using ih

theorem mapValues_alter {f : α → β} {name : String} {g : Option α → α} {h : Option β → β}
    (hg : ∀ v, f (g v) = h (v.map f)) (es : List (String × α)) :
    mapValues f (alter name g es) = alter name h (mapValues f es) := by
  induction es with
  | nil => simp [alter, mapValues, hg]
  | cons e es ih =>
    obtain ⟨n, v⟩ := e
    by_cases hn : n = name
    · simp [alter, mapValues, hn, hg]
    · simpa [alter, mapValues, hn] using ih

/-! ## Writing many entries -/

/-- Writes the entries of one map into another, one after the other. -/
def alterEach (f : Option α → β → α) (es : List (String × α)) (more : List (String × β)) :
    List (String × α) :=
  more.foldl (fun es (name, w) => alter name (fun v => f v w) es) es

/-- What becomes of the value of one name. -/
def foldValues (f : Option α → β → α) (name : String) (more : List (String × β)) (v : Option α) :
    Option α :=
  more.foldl (fun v (n, w) => if n = name then some (f v w) else v) v

@[simp]
theorem foldValues_cons (f : Option α → β → α) (name n : String) (w : β) (more : List (String × β))
    (v : Option α) :
    foldValues f name ((n, w) :: more) v =
      foldValues f name more (if n = name then some (f v w) else v) := rfl

theorem names_alterEach (f : Option α → β → α) (es : List (String × α)) (more : List (String × β)) :
    names (alterEach f es more) = addNew (names es) (names more) := by
  induction more generalizing es with
  | nil => rfl
  | cons e more ih =>
    obtain ⟨n, w⟩ := e
    rw [names_cons, addNew, ← names_alter n (fun v => f v w)]
    exact ih _

theorem nodup_alterEach {es : List (String × α)} (hes : (names es).Nodup) (f : Option α → β → α)
    (more : List (String × β)) : (names (alterEach f es more)).Nodup := by
  rw [names_alterEach]
  exact nodup_addNew hes _

theorem find?_alterEach (f : Option α → β → α) (name : String) (es : List (String × α))
    (more : List (String × β)) :
    find? name (alterEach f es more) = foldValues f name more (find? name es) := by
  induction more generalizing es with
  | nil => rfl
  | cons e more ih =>
    obtain ⟨n, w⟩ := e
    refine (ih _).trans ?_
    by_cases h : n = name
    · subst h
      simp [foldValues, find?_alter_self]
    · simp [foldValues, find?_alter_of_ne (Ne.symm h), h]

theorem alterEach_of_disjoint {es : List (String × α)} {more : List (String × β)}
    (hmore : (names more).Nodup) (h : ∀ name ∈ names more, name ∉ names es)
    (f : Option α → β → α) : alterEach f es more = es ++ mapValues (f none) more := by
  induction more generalizing es with
  | nil => exact (List.append_nil es).symm
  | cons e more ih =>
    obtain ⟨name, w⟩ := e
    obtain ⟨hname, hmore⟩ := List.nodup_cons.mp hmore
    show alterEach f (alter name (fun v => f v w) es) more = _
    rw [alter_of_not_mem (h name List.mem_cons_self), ih hmore, List.append_assoc]
    · rfl
    · intro n hn
      simp only [names, List.map_append, List.map_singleton, List.mem_append, List.mem_singleton,
        not_or]
      refine ⟨h n (List.mem_cons_of_mem _ hn), ?_⟩
      rintro rfl
      exact hname hn

theorem foldValues_of_nodup {more : List (String × β)} (h : (names more).Nodup)
    (f : Option α → β → α) (name : String) (v : Option α) :
    foldValues f name more v = ((find? name more).map (f v)).or v := by
  induction more generalizing v with
  | nil => rfl
  | cons e more ih =>
    obtain ⟨n, w⟩ := e
    obtain ⟨hn, h⟩ := List.nodup_cons.mp h
    rw [foldValues_cons, ih h]
    by_cases hname : n = name
    · subst hname
      simp [find?, find?_eq_none.mpr hn]
    · simp [find?, hname]

end Ordered

end ZoneScript
