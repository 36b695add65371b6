/-!
# Leading parts of lists

Taking a known beginning off a list. Texts use it for fixed words, file trees
for the entries below a directory.
-/

namespace AddonIndex

variable {α : Type} [DecidableEq α]

/-- What follows `lead` in a list that starts with it. -/
def dropLead? : (lead list : List α) → Option (List α)
  | [], list => some list
  | _ :: _, [] => none
  | a :: lead, b :: list => if a = b then dropLead? lead list else none

theorem dropLead?_eq_some_iff {lead list rest : List α} :
    dropLead? lead list = some rest ↔ list = lead ++ rest := by
  induction lead generalizing list with
  | nil => simp [dropLead?]
  | cons a lead ih =>
      cases list with
      | nil => simp [dropLead?]
      | cons b list =>
          by_cases same : a = b
          · subst same
            simp [dropLead?, ih]
          · simp [dropLead?, same, Ne.symm same]

@[simp]
theorem dropLead?_append (lead rest : List α) : dropLead? lead (lead ++ rest) = some rest :=
  dropLead?_eq_some_iff.2 rfl

end AddonIndex
