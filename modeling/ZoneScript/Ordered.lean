/-!
# Ordered maps

A map from names to values that keeps the order in which names came in, as a list of pairs. A name
that is written again keeps its place.
-/

namespace ZoneScript.Ordered

variable {α : Type}

/-- The value of a name. -/
def find? (name : String) : List (String × α) → Option α
  | [] => none
  | (n, v) :: es => if n = name then some v else find? name es

/-- Changes the value of a name; a new name goes to the end, with what `f` makes of nothing. -/
def alter (name : String) (f : Option α → α) : List (String × α) → List (String × α)
  | [] => [(name, f none)]
  | (n, v) :: es => if n = name then (n, f (some v)) :: es else (n, v) :: alter name f es

/-- Writes a value under a name. -/
def insert (name : String) (value : α) (entries : List (String × α)) : List (String × α) :=
  alter name (fun _ => value) entries

/-- Writes a value under a name that has none. -/
def insertNew (name : String) (value : α) (entries : List (String × α)) : List (String × α) :=
  alter name (·.getD value) entries

def names (entries : List (String × α)) : List String :=
  entries.map (·.1)

/-- Whether two maps have the same values under the same names, in whatever order. -/
def same [DecidableEq α] (entries others : List (String × α)) : Bool :=
  entries.length == others.length
    && entries.all fun (name, value) => find? name others == some value

theorem find?_alter_self (name : String) (f : Option α → α) (es : List (String × α)) :
    find? name (alter name f es) = some (f (find? name es)) := by
  induction es with
  | nil => simp [alter, find?]
  | cons e es ih =>
    obtain ⟨n, v⟩ := e
    by_cases h : n = name <;> simp [alter, find?, h, ih]

theorem find?_alter_of_ne {name other : String} (h : other ≠ name) (f : Option α → α)
    (es : List (String × α)) : find? other (alter name f es) = find? other es := by
  induction es with
  | nil => simp [alter, find?, Ne.symm h]
  | cons e es ih =>
    obtain ⟨n, v⟩ := e
    by_cases hn : n = name
    · simp [alter, find?, hn, Ne.symm h]
    · by_cases ho : n = other
      · subst ho; simp [alter, find?, hn]
      · simp [alter, find?, hn, ho, ih]

theorem names_alter (name : String) (f : Option α → α) (es : List (String × α)) :
    names (alter name f es) = if name ∈ names es then names es else names es ++ [name] := by
  induction es with
  | nil => simp [alter, names]
  | cons e es ih =>
    obtain ⟨n, v⟩ := e
    by_cases h : n = name
    · simp [alter, names, h]
    · simp only [alter, h, if_false, names, List.map_cons, List.mem_cons, Ne.symm h, false_or]
      simp only [names] at ih
      rw [ih]
      by_cases hm : name ∈ es.map (·.1) <;> simp [hm]

end ZoneScript.Ordered
