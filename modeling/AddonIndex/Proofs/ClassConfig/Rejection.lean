import AddonIndex.ClassConfig.Parse
import AddonIndex.Proofs.Except

/-!
# Where tokens are rejected

Each reading function takes tokens from the front of its list only, so what it
leaves is an end of the list, and so are the tokens from the offending one on if
it fails. The offending token of a text is thus one of its tokens.
-/

namespace AddonIndex.ClassConfig

variable {α β : Type}

/-- Whether a reading leaves an end of the tokens that it was given, or fails with one. -/
def Leaves (lexemes : List Lexeme) : Except Failure (α × List Lexeme) → Prop
  | .ok (_, rest) => rest <:+ lexemes
  | .error failure => failure.rest <:+ lexemes

theorem Leaves.mono {lexemes others : List Lexeme} {reading : Except Failure (α × List Lexeme)}
    (leaves : Leaves lexemes reading) (ending : lexemes <:+ others) : Leaves others reading := by
  cases reading with
  | ok result => exact List.IsSuffix.trans leaves ending
  | error failure => exact List.IsSuffix.trans leaves ending

/-- A reading that goes on with what another one leaves. -/
theorem Leaves.bind {lexemes : List Lexeme} {first : Except Failure (α × List Lexeme)}
    {next : α × List Lexeme → Except Failure (β × List Lexeme)} (leaves : Leaves lexemes first)
    (onward : ∀ a rest, Leaves rest (next (a, rest))) : Leaves lexemes (first >>= next) := by
  cases first with
  | ok result => exact (onward result.1 result.2).mono leaves
  | error failure => exact leaves

variable {lexemes : List Lexeme}

/-- A result that leaves what it was given. -/
theorem leaves_pure (result : α) : Leaves lexemes (pure (result, lexemes)) :=
  List.suffix_refl lexemes

theorem leaves_readWord (what : Text) : Leaves lexemes (readWord what lexemes) := by
  unfold readWord
  split
  · exact List.suffix_cons _ _
  · exact List.suffix_refl _
  · exact List.suffix_refl _

theorem leaves_readEnd : Leaves lexemes (readEnd lexemes) := by
  unfold readEnd
  split
  · exact List.suffix_refl _
  · split
    · exact List.suffix_cons _ _
    · split <;> exact List.suffix_refl _

theorem leaves_readBase : Leaves lexemes (readBase lexemes) := by
  unfold readBase
  split
  · refine Leaves.mono ?_ (List.suffix_cons _ _)
    exact (leaves_readWord _).bind fun base _ => leaves_pure (some base)
  · exact List.suffix_refl _

theorem leaves_readBrackets : Leaves lexemes (readBrackets lexemes) := by
  unfold readBrackets
  split
  · exact (List.suffix_cons _ _).trans (List.suffix_cons _ _)
  · exact List.suffix_cons _ _
  · exact List.suffix_refl _

theorem leaves_readEquals (name : Text) (isArray : Bool) :
    Leaves lexemes (readEquals name isArray lexemes) := by
  unfold readEquals
  split
  · exact List.suffix_refl _
  · split
    · exact List.suffix_cons _ _
    · split
      · exact List.suffix_cons _ _
      · exact List.suffix_refl _

theorem leaves_readRun (inArray : Bool) : Leaves lexemes (readRun inArray lexemes) := by
  simp only [readRun]
  split
  · exact List.dropWhile_suffix _
  · split <;> exact List.dropWhile_suffix _

section Elements

variable {readItems : List Lexeme → Except Failure (List Value × List Lexeme)}

theorem leaves_readElement (leaves : ∀ lexemes, Leaves lexemes (readItems lexemes))
    (first : Lexeme) : Leaves (first :: lexemes) (readElement readItems first lexemes) := by
  unfold readElement
  split
  · refine Leaves.mono ?_ (List.suffix_cons _ _)
    exact (leaves lexemes).bind fun items _ => leaves_pure (Value.array items)
  · exact leaves_readRun true

theorem leaves_readFollowing (leaves : ∀ lexemes, Leaves lexemes (readItems lexemes))
    (value : Value) : Leaves lexemes (readFollowing readItems value lexemes) := by
  unfold readFollowing
  split
  · refine Leaves.mono ?_ (List.suffix_cons _ _)
    exact (leaves _).bind fun values _ => leaves_pure (value :: values)
  · exact List.suffix_cons _ _
  · exact List.suffix_refl _

end Elements

theorem leaves_readArrayItems (bound : Nat) : Leaves lexemes (readArrayItems bound lexemes) := by
  induction bound generalizing lexemes with
  | zero => exact List.nil_suffix
  | succ bound ih =>
      cases lexemes with
      | nil => exact List.nil_suffix
      | cons first rest =>
          unfold readArrayItems
          split
          · exact List.suffix_cons _ _
          · exact (leaves_readElement (fun _ => ih) first).bind fun value rest =>
              leaves_readFollowing (fun _ => ih) value

theorem leaves_readValue : Leaves lexemes (readValue lexemes) := by
  unfold readValue
  split
  · refine Leaves.mono ?_ (List.suffix_cons _ _)
    exact (leaves_readArrayItems _).bind fun values _ => leaves_pure (Value.array values)
  · exact leaves_readRun false

theorem leaves_readAssignment : Leaves lexemes (readAssignment lexemes) := by
  unfold readAssignment
  exact (leaves_readWord _).bind fun name _ => leaves_readBrackets.bind fun isArray _ =>
    (leaves_readEquals name isArray).bind fun appends _ => leaves_readValue.bind fun value _ =>
      leaves_readEnd.bind fun _ _ => leaves_pure _

theorem leaves_readDeletion : Leaves lexemes (readDeletion lexemes) :=
  (leaves_readWord _).bind fun _ _ => leaves_readEnd

theorem leaves_readItems (bound : Nat) (inClass : Bool) :
    Leaves lexemes (readItems bound inClass lexemes) := by
  induction bound generalizing lexemes inClass with
  | zero => cases inClass <;> exact List.nil_suffix
  | succ bound ih =>
      cases lexemes with
      | nil => cases inClass <;> exact List.nil_suffix
      | cons first rest =>
          unfold readItems
          split
          · split <;> exact List.suffix_refl _
          · exact (ih inClass).mono (List.suffix_cons _ _)
          · split
            · refine Leaves.mono ?_ (List.suffix_cons _ _)
              refine (leaves_readWord _).bind fun name _ => leaves_readBase.bind fun base _ => ?_
              refine Leaves.bind ?_ fun inner _ => leaves_readEnd.bind fun _ _ =>
                (ih inClass).bind fun others _ => leaves_pure _
              split
              · refine Leaves.mono ?_ (List.suffix_cons _ _)
                exact (ih true).bind fun inner rest =>
                  (leaves_pure inner).mono (List.drop_suffix 1 rest)
              · exact List.suffix_refl _
            · split
              · exact (leaves_readDeletion.bind fun _ _ => ih inClass).mono (List.suffix_cons _ _)
              · exact leaves_readAssignment.bind fun assignment _ =>
                  (ih inClass).bind fun others _ => leaves_pure _
          · exact List.suffix_refl _

/-- The offending token of a rejected text is one of its tokens: the first one of those that the
failure keeps, or the last one of all if it keeps none. -/
theorem exists_of_readBody_eq_error {lexemes : List Lexeme} {failure : Failure}
    (fails : readBody lexemes = .error failure) :
    ∃ passed lexeme left, lexemes = passed ++ lexeme :: left ∧
      (failure.rest = lexeme :: left ∨ failure.rest = [] ∧ left = []) ∧
      failure.line lexemes = lexeme.line := by
  have nonempty : lexemes ≠ [] := by
    rintro rfl
    cases fails
  have ending : failure.rest <:+ lexemes := by
    have leaves : Leaves lexemes (readItems lexemes.length false lexemes) := leaves_readItems _ _
    unfold readBody at fails
    cases read : readItems lexemes.length false lexemes with
    | ok result =>
        rw [read] at fails
        cases fails
    | error found =>
        rw [read] at fails leaves
        cases fails
        exact leaves
  obtain ⟨passed, rfl⟩ := ending
  cases kept : failure.rest with
  | cons lexeme left =>
      refine ⟨passed, lexeme, left, rfl, .inl rfl, ?_⟩
      simp [Failure.line, kept]
  | nil =>
      rw [kept, List.append_nil] at nonempty
      refine ⟨passed.dropLast, passed.getLast nonempty, [], ?_, .inr ⟨rfl, rfl⟩, ?_⟩
      · rw [List.append_nil, List.dropLast_concat_getLast]
      · simp [Failure.line, kept, List.getLast?_eq_some_getLast nonempty]

end AddonIndex.ClassConfig
