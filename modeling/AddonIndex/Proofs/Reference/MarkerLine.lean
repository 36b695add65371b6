import AddonIndex.Proofs.ClassConfig.LineBoundary
import AddonIndex.Reference.Marker
import Mathlib.Data.List.TakeWhile

/-!
# The lines of a marker

Each line of a marker sets the flag or is idle: it is blank, a comment, or about another key. The last line that sets
the flag counts, so a text that follows on a new line has precedence, idle lines can be put in or left out anywhere, and
a marker line at the end decides.
-/

namespace AddonIndex

namespace Text

variable {text : Text}

/-- A line feed at the end of an unended line adds no line. -/
theorem feedLines_append_lineFeed_of_not_isEnded (unended : ¬ IsEnded text) :
    feedLines (text ++ ['\n']) = feedLines text := by
  induction text with
  | nil => exact absurd (.inl rfl) unended
  | cons c rest ih =>
      by_cases feed : c = '\n'
      · subst feed
        rw [isEnded_lineFeed_iff] at unended
        rw [List.cons_append, feedLines_lineFeed, feedLines_lineFeed, ih unended]
      · rw [List.cons_append, feedLines_cons feed, feedLines_cons feed]
        by_cases last : rest = []
        · rw [last]
          rfl
        · rw [isEnded_cons_iff feed] at unended
          rw [ih fun ended => unended ⟨last, ended⟩]

theorem isEnded_append_lineFeed (text : Text) : IsEnded (text ++ ['\n']) :=
  .inr List.getLast?_concat

theorem joinWith_cons {line : Text} {lines : List Text} (separator : Text) (nonempty : lines ≠ []) :
    joinWith separator (line :: lines) = line ++ separator ++ joinWith separator lines := by
  rw [joinWith, joinWith, List.intercalate_cons_of_ne_nil nonempty]

end Text

namespace Reference

open Text

variable {line text : Text} {lines : List Text}

/-! ## Idle lines -/

/-- Whether a line says nothing about the flag. -/
inductive IsIdle : (line : Text) → Prop
  /-- A line of blanks. -/
  | blank {line : Text} (areBlank : ∀ c ∈ line, isBlank c = true) : IsIdle line
  /-- A comment, which begins with a hash or an exclamation mark after blanks. -/
  | comment {blanks rest : Text} {mark : Char} (areBlank : ∀ c ∈ blanks, isBlank c = true)
      (isMark : mark = '#' ∨ mark = '!') : IsIdle (blanks ++ mark :: rest)
  /-- A line with another key after blanks. The key goes up to the first separator or to the end of the line, and it
  is empty if the first visible character is a separator. -/
  | otherKey {blanks key rest : Text} (areBlank : ∀ c ∈ blanks, isBlank c = true)
      (visible : ∀ c ∈ (key ++ rest).head?, isBlank c = false) (isKey : ∀ c ∈ key, endsKey c = false)
      (ends : ∀ c ∈ rest.head?, endsKey c = true) (other : key ≠ "valid".toList) :
      IsIdle (blanks ++ (key ++ rest))

theorem trimStart_append_of_areBlank {blanks rest : Text} (areBlank : ∀ c ∈ blanks, isBlank c = true)
    (visible : ∀ c ∈ rest.head?, isBlank c = false) : Text.trimStart (blanks ++ rest) = rest := by
  rw [Text.trimStart, List.dropWhile_append_of_pos areBlank]
  cases rest with
  | nil => rfl
  | cons c rest => exact List.dropWhile_cons_of_neg (by simp [visible c rfl])

theorem takeWhile_key {key rest : Text} (isKey : ∀ c ∈ key, endsKey c = false)
    (ends : ∀ c ∈ rest.head?, endsKey c = true) : (key ++ rest).takeWhile (!endsKey ·) = key := by
  rw [List.takeWhile_append_of_pos fun c member => by simp [isKey c member]]
  cases rest with
  | nil => simp
  | cons c rest => simp [ends c rfl]

theorem lineFlag?_of_isIdle (idle : IsIdle line) : lineFlag? line = none := by
  cases idle with
  | blank areBlank =>
      have trimmed : Text.trimStart line = [] := List.dropWhile_eq_nil_iff.2 areBlank
      rw [lineFlag?, trimmed]
  | @comment blanks rest mark areBlank isMark =>
      have visible : ∀ c ∈ (mark :: rest).head?, isBlank c = false := by
        rintro c ⟨⟩
        rcases isMark with rfl | rfl
        · decide
        · decide
      simp only [lineFlag?, trimStart_append_of_areBlank areBlank visible]
      rw [if_pos isMark]
  | @otherKey blanks key rest areBlank visible isKey ends other =>
      simp only [lineFlag?, trimStart_append_of_areBlank areBlank visible, takeWhile_key isKey ends]
      split
      · rfl
      · rw [if_neg other, ite_self]

/-! ## The last line that sets the flag -/

/-- The last of some settings counts. -/
theorem foldl_or_eq_getLast? {α β : Type} (setting? : α → Option β) (items : List α) (first : Option β) :
    items.foldl (fun flag item => (setting? item).or flag) first =
      (items.filterMap setting?).getLast?.or first := by
  induction items generalizing first with
  | nil => rfl
  | cons item rest ih =>
      rw [List.foldl_cons, ih]
      cases set : setting? item with
      | none => rw [List.filterMap_cons_none set, Option.none_or]
      | some value =>
          rw [List.filterMap_cons_some set, List.getLast?_cons]
          cases (rest.filterMap setting?).getLast? <;> rfl

theorem validFlag?_eq_getLast? (text : Text) : validFlag? text = (text.feedLines.filterMap lineFlag?).getLast? := by
  rw [validFlag?, foldl_or_eq_getLast?, Option.or_none]

/-- A line feed at the end of a text begins at most an empty line. -/
theorem filterMap_lineFlag?_append_lineFeed (text : Text) :
    (feedLines (text ++ ['\n'])).filterMap lineFlag? = (feedLines text).filterMap lineFlag? := by
  by_cases ended : IsEnded text
  · have empty : lineFlag? [] = none := rfl
    rw [feedLines_append ended, List.filterMap_append, feedLines_lineFeed, feedLines_nil,
      List.filterMap_cons_none empty, List.filterMap_nil, List.append_nil]
  · rw [feedLines_append_lineFeed_of_not_isEnded ended]

/-- What follows on a new line has precedence. -/
theorem validFlag?_append (a b : Text) : validFlag? (a ++ '\n' :: b) = (validFlag? b).or (validFlag? a) := by
  rw [List.append_cons, validFlag?_eq_getLast?, feedLines_append (isEnded_append_lineFeed a), List.filterMap_append,
    filterMap_lineFlag?_append_lineFeed, List.getLast?_append, ← validFlag?_eq_getLast?, ← validFlag?_eq_getLast?]

/-- Of parts on lines of their own the last one that sets the flag counts. -/
theorem validFlag?_joinWith (parts : List Text) :
    validFlag? (joinWith ['\n'] parts) = (parts.filterMap validFlag?).getLast? := by
  induction parts with
  | nil => rfl
  | cons part rest ih =>
      rcases eq_or_ne rest [] with rfl | nonempty
      · cases set : validFlag? part with
        | none =>
            rw [List.filterMap_cons_none set]
            simpa [joinWith] using set
        | some flag =>
            rw [List.filterMap_cons_some set]
            simpa [joinWith] using set
      · rw [joinWith_cons _ nonempty, List.append_assoc, List.singleton_append, validFlag?_append, ih]
        cases set : validFlag? part with
        | none => rw [List.filterMap_cons_none set, Option.or_none]
        | some flag =>
            rw [List.filterMap_cons_some set, List.getLast?_cons]
            cases (rest.filterMap validFlag?).getLast? <;> rfl

theorem validFlag?_of_isIdle (idle : IsIdle line) (oneLine : '\n' ∉ line) : validFlag? line = none := by
  rcases eq_or_ne line [] with rfl | nonempty
  · rfl
  · rw [validFlag?_eq_getLast?, feedLines_eq_singleton oneLine nonempty,
      List.filterMap_cons_none (lineFlag?_of_isIdle idle)]
    rfl

theorem validFlag?_markerText (valid : Bool) : validFlag? (markerText valid) = some valid := by
  cases valid <;> decide

/-- The last line that sets the flag counts: what follows on a new line has precedence if it sets the flag, idle lines
change nothing wherever they stand, and a marker line at the end decides. -/
theorem validFlag?_last_counts :
    (∀ a b : Text, validFlag? (a ++ '\n' :: b) = (validFlag? b).or (validFlag? a)) ∧
      (∀ (above below : List Text) (line : Text), IsIdle line → '\n' ∉ line →
        validFlag? (joinWith ['\n'] (above ++ line :: below)) = validFlag? (joinWith ['\n'] (above ++ below))) ∧
      ∀ (a : Text) (valid : Bool), validFlag? (a ++ '\n' :: markerText valid) = some valid := by
  refine ⟨validFlag?_append, fun above below line idle oneLine => ?_, fun a valid => ?_⟩
  · rw [validFlag?_joinWith, validFlag?_joinWith, List.filterMap_append, List.filterMap_append,
      List.filterMap_cons_none (validFlag?_of_isIdle idle oneLine)]
  · rw [validFlag?_append, validFlag?_markerText, Option.some_or]

/-- A key that only begins like that of the flag, between two lines that set it, changes nothing. -/
theorem validFlag?_beside_validity :
    IsIdle "\tvalidity=false\r".toList ∧ '\n' ∉ "\tvalidity=false\r".toList ∧
      validFlag? "valid : false\n\tvalidity=false\r\nvalid\ttrue".toList = some true := by
  have noEnd : "validity".toList.all (!endsKey ·) = true := by decide
  have isKey : ∀ c ∈ "validity".toList, endsKey c = false := by
    simpa only [List.all_eq_true, Bool.not_eq_true'] using noEnd
  have idle : IsIdle "\tvalidity=false\r".toList := by
    refine @IsIdle.otherKey ['\t'] "validity".toList "=false\r".toList (List.forall_mem_singleton.2 rfl) ?_ isKey ?_
      (by decide)
    · rintro _ ⟨⟩
      rfl
    · rintro _ ⟨⟩
      rfl
  refine ⟨idle, by decide, ?_⟩
  exact (validFlag?_last_counts.2.1 ["valid : false".toList] ["valid\ttrue".toList] _ idle (by decide)).trans (by decide)

end Reference

end AddonIndex
