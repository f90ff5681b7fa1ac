import Mathlib.Data.List.Basic

/-!
# Tokens

The tokens of a list are the nonempty stretches between separators. Empty fields of a joined list
leave no token, so what the tokens tell of the fields is only which of them are not empty.
-/

namespace Tokens

variable {α : Type*}

/-- What is no separator and in no field is not in the joined list. -/
theorem not_mem_intercalate {sep x : α} {fields : List (List α)} (hsep : x ≠ sep)
    (h : ∀ field ∈ fields, x ∉ field) : x ∉ [sep].intercalate fields := by
  induction fields with
  | nil => exact List.not_mem_nil
  | cons field fields ih =>
    rw [List.forall_mem_cons] at h
    cases fields with
    | nil => simpa using h.1
    | cons next fields =>
      rw [List.intercalate_cons_cons, List.mem_append, List.mem_append, List.mem_singleton]
      rintro ((hmem | hmem) | hmem)
      · exact h.1 hmem
      · exact hsep hmem
      · exact ih h.2 hmem

variable [DecidableEq α]

/-- The nonempty stretches between separators. -/
def tokens (sep : α) (s : List α) : List (List α) := (s.splitOn sep).filter (· ≠ [])

/-- Fields that are joined give the nonempty ones back. -/
theorem tokens_intercalate {sep : α} {fields : List (List α)} (h : ∀ field ∈ fields, sep ∉ field) :
    tokens sep ([sep].intercalate fields) = fields.filter (· ≠ []) := by
  cases fields with
  | nil => rfl
  | cons field fields => rw [tokens, List.splitOn_intercalate sep h (List.cons_ne_nil _ _)]

/-- Without empty fields all of them come back. -/
theorem tokens_intercalate_of_ne {sep : α} {fields : List (List α)}
    (h : ∀ field ∈ fields, sep ∉ field) (hne : ∀ field ∈ fields, field ≠ []) :
    tokens sep ([sep].intercalate fields) = fields := by
  rw [tokens_intercalate h, List.filter_eq_self]
  exact fun field hfield => decide_eq_true (hne field hfield)

end Tokens
