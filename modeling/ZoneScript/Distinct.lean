/-!
# Lists without repetition

Of equal items the first one stays, and the order stays as it is.
-/

namespace ZoneScript

variable {α : Type} [DecidableEq α]

/-- The items without those that occurred before. -/
def distinct : List α → List α
  | [] => []
  | x :: xs => x :: (distinct xs).filter (· ≠ x)

/-- Adds the items that are not there yet, one after the other. What is there is left as it is. -/
def addNew (known : List α) : List α → List α
  | [] => known
  | x :: xs => addNew (if x ∈ known then known else known ++ [x]) xs

@[simp]
theorem mem_distinct {x : α} {xs : List α} : x ∈ distinct xs ↔ x ∈ xs := by
  induction xs with
  | nil => simp [distinct]
  | cons y ys ih =>
    by_cases h : x = y <;> simp [distinct, ih, h]

theorem nodup_distinct (xs : List α) : (distinct xs).Nodup := by
  induction xs with
  | nil => simp [distinct]
  | cons x xs ih => simpa [distinct] using ih.sublist List.filter_sublist

theorem distinct_of_nodup {xs : List α} (h : xs.Nodup) : distinct xs = xs := by
  induction xs with
  | nil => rfl
  | cons x xs ih =>
    obtain ⟨hx, h⟩ := List.nodup_cons.mp h
    rw [distinct, ih h, List.filter_eq_self.mpr]
    intro y hy
    simp only [ne_eq, decide_not, Bool.not_eq_eq_eq_not, Bool.not_true, decide_eq_false_iff_not]
    rintro rfl
    exact hx hy

theorem distinct_distinct (xs : List α) : distinct (distinct xs) = distinct xs :=
  distinct_of_nodup (nodup_distinct xs)

theorem distinct_append (xs ys : List α) :
    distinct (xs ++ ys) = distinct xs ++ (distinct ys).filter (· ∉ xs) := by
  induction xs with
  | nil => simp [distinct, List.filter_eq_self.mpr]
  | cons x xs ih =>
    simp only [List.cons_append, distinct, ih, List.filter_append, List.filter_filter, List.cons.injEq,
      true_and, List.append_cancel_left_eq]
    apply List.filter_congr
    intro y _
    simp

theorem mem_addNew {x : α} {known xs : List α} : x ∈ addNew known xs ↔ x ∈ known ∨ x ∈ xs := by
  induction xs generalizing known with
  | nil => simp [addNew]
  | cons y ys ih =>
    rw [addNew, ih]
    by_cases h : y ∈ known
    · rw [if_pos h]
      constructor
      · rintro (hk | hy)
        · exact .inl hk
        · exact .inr (List.mem_cons_of_mem _ hy)
      · rintro (hk | hy)
        · exact .inl hk
        · rcases List.mem_cons.mp hy with rfl | hy
          · exact .inl h
          · exact .inr hy
    · simp [h, or_assoc]

theorem prefix_addNew (known xs : List α) : known <+: addNew known xs := by
  induction xs generalizing known with
  | nil => exact List.prefix_rfl
  | cons y ys ih =>
    rw [addNew]
    split
    · exact ih known
    · exact (List.prefix_append known [y]).trans (ih _)

end ZoneScript
