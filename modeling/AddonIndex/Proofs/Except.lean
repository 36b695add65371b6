/-!
# Computations that may fail

A sequence of two computations succeeds exactly if both do.
-/

namespace AddonIndex

variable {ε α β : Type}

theorem ok_bind (a : α) (next : α → Except ε β) : (.ok a >>= next) = next a := rfl

theorem error_bind (e : ε) (next : α → Except ε β) : (.error e >>= next) = .error e := rfl

theorem mapError_ok {ε' : Type} (words : ε → ε') (a : α) : (Except.ok a : Except ε α).mapError words = .ok a := rfl

theorem map_eq_bind (first : Except ε α) (convert : α → β) :
    first.map convert = first >>= fun a => pure (convert a) := rfl

/-- A sequence of two computations succeeds exactly if both do. -/
theorem bind_eq_ok_iff {first : Except ε α} {next : α → Except ε β} {b : β} :
    (first >>= next) = .ok b ↔ ∃ a, first = .ok a ∧ next a = .ok b := by
  cases first with
  | error e => simp [bind, Except.bind]
  | ok a => simp [bind, Except.bind]

/-- A sequence of two computations fails exactly if the first one does, or the second one after
it. -/
theorem bind_eq_error_iff {first : Except ε α} {next : α → Except ε β} {e : ε} :
    (first >>= next) = .error e ↔ first = .error e ∨ ∃ a, first = .ok a ∧ next a = .error e := by
  cases first with
  | error e => simp [bind, Except.bind]
  | ok a => simp [bind, Except.bind]

theorem map_eq_ok_iff {first : Except ε α} {convert : α → β} {b : β} :
    first.map convert = .ok b ↔ ∃ a, first = .ok a ∧ convert a = b := by
  cases first with
  | error e => simp [Except.map]
  | ok a => simp [Except.map]

theorem map_eq_error_iff {first : Except ε α} {convert : α → β} {e : ε} :
    first.map convert = .error e ↔ first = .error e := by
  cases first with
  | error e => simp [Except.map]
  | ok a => simp [Except.map]

end AddonIndex
