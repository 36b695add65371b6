import AddonIndex.ClassConfig.Comment
import AddonIndex.ClassConfig.LogicalLine
import Mathlib.Data.List.Forall2

/-!
# Lines keep their numbers

Comments are removed from each line by itself, so that a text whose last line is
ended keeps its lines. Continued lines are joined in the place of the first of
them, and each of the others leaves a blank line in its own place.
-/

namespace AddonIndex

namespace Text

/-! ## Lines and line feeds -/

/-- Whether a text has no line that is not ended. -/
def IsEnded (text : Text) : Prop := text = [] ∨ text.getLast? = some '\n'

theorem isEnded_lineFeed_iff {rest : Text} : IsEnded ('\n' :: rest) ↔ IsEnded rest := by
  cases rest with
  | nil => simp [IsEnded]
  | cons c rest => simp [IsEnded, List.getLast?_cons_cons]

/-- What follows a character of an ended line holds the end of that line. -/
theorem isEnded_cons_iff {c : Char} (ordinary : c ≠ '\n') {rest : Text} :
    IsEnded (c :: rest) ↔ rest ≠ [] ∧ IsEnded rest := by
  cases rest with
  | nil => simp [IsEnded, ordinary]
  | cons next rest => simp [IsEnded, List.getLast?_cons_cons]

theorem feedLines_eq_nil_iff {text : Text} : feedLines text = [] ↔ text = [] := by
  cases text with
  | nil => simp
  | cons c rest =>
      by_cases lineFeed : c = '\n'
      · simp [lineFeed]
      · rw [feedLines_cons lineFeed]
        cases feedLines rest <;> simp [consLine]

/-- No line holds a line feed. -/
theorem lineFeed_not_mem_of_mem_feedLines {text line : Text} (member : line ∈ feedLines text) :
    '\n' ∉ line := by
  induction text generalizing line with
  | nil => simp at member
  | cons c rest ih =>
      by_cases lineFeed : c = '\n'
      · rw [lineFeed, feedLines_lineFeed] at member
        rcases List.mem_cons.1 member with rfl | later
        · exact List.not_mem_nil
        · exact ih later
      · rw [feedLines_cons lineFeed] at member
        cases lines : feedLines rest with
        | nil =>
            rw [lines, consLine, List.mem_singleton] at member
            rw [member, List.mem_singleton]
            exact Ne.symm lineFeed
        | cons first others =>
            rw [lines, consLine] at member
            rw [lines] at ih
            rcases List.mem_cons.1 member with rfl | later
            · intro found
              rcases List.mem_cons.1 found with same | inFirst
              · exact lineFeed same.symm
              · exact ih List.mem_cons_self inFirst
            · exact ih (List.mem_cons_of_mem _ later)

theorem feedLines_append_lineFeed {line : Text} (ordinary : '\n' ∉ line) (rest : Text) :
    feedLines (line ++ '\n' :: rest) = line :: feedLines rest := by
  induction line with
  | nil => simp
  | cons c line ih =>
      rw [List.cons_append, feedLines_cons (List.ne_of_not_mem_cons ordinary).symm,
        ih (List.not_mem_of_not_mem_cons ordinary), consLine]

/-- Lines are the text of which each line is ended by a line feed. -/
theorem feedLines_flatMap_lineFeed {lines : List Text} (ordinary : ∀ line ∈ lines, '\n' ∉ line) :
    feedLines (lines.flatMap (· ++ ['\n'])) = lines := by
  induction lines with
  | nil => rfl
  | cons line rest ih =>
      rw [List.flatMap_cons, List.append_assoc, List.singleton_append,
        feedLines_append_lineFeed (ordinary line List.mem_cons_self),
        ih fun other member => ordinary other (List.mem_cons_of_mem _ member)]

end Text

namespace ClassConfig

open Text

/-! ## Comments -/

/-- A character that is kept stands in the same line before and after. -/
theorem forall₂_consLine {c : Char} {lines others : List Text}
    (sublists : List.Forall₂ List.Sublist lines others) :
    List.Forall₂ List.Sublist (consLine c lines) (consLine c others) := by
  cases sublists with
  | nil => exact .cons (List.Sublist.refl _) .nil
  | cons first rest => exact .cons (first.cons_cons c) rest

/-- A character that is removed is one of its line. -/
theorem forall₂_consLine_right {c : Char} {lines others : List Text}
    (sublists : List.Forall₂ List.Sublist lines others) (nonempty : others ≠ []) :
    List.Forall₂ List.Sublist lines (consLine c others) := by
  cases sublists with
  | nil => exact absurd rfl nonempty
  | cons first rest => exact .cons (first.cons c) rest

/-- Comments are removed from each line by itself. -/
theorem forall₂_stripCommentsFrom (mode : CommentMode) {text : Text} (ended : IsEnded text) :
    List.Forall₂ List.Sublist (feedLines (stripCommentsFrom mode text)) (feedLines text) := by
  -- A character at which only the mode changes is removed from its line.
  have removed : ∀ {c : Char} {rest stripped : Text}, c ≠ '\n' → IsEnded (c :: rest) →
      (IsEnded rest → List.Forall₂ List.Sublist (feedLines stripped) (feedLines rest)) →
      List.Forall₂ List.Sublist (feedLines stripped) (feedLines (c :: rest)) := by
    intro c rest stripped ordinary ended sublists
    obtain ⟨nonempty, endedRest⟩ := (isEnded_cons_iff ordinary).1 ended
    rw [feedLines_cons ordinary]
    exact forall₂_consLine_right (sublists endedRest) fun none =>
      nonempty (feedLines_eq_nil_iff.1 none)
  -- A character that is kept is a line feed or stands in its line.
  have kept : ∀ {c : Char} {rest stripped : Text}, IsEnded (c :: rest) →
      (IsEnded rest → List.Forall₂ List.Sublist (feedLines stripped) (feedLines rest)) →
      List.Forall₂ List.Sublist (feedLines (c :: stripped)) (feedLines (c :: rest)) := by
    intro c rest stripped ended sublists
    by_cases lineFeed : c = '\n'
    · subst lineFeed
      rw [feedLines_lineFeed, feedLines_lineFeed]
      exact .cons (List.Sublist.refl _) (sublists (isEnded_lineFeed_iff.1 ended))
    · rw [feedLines_cons lineFeed, feedLines_cons lineFeed]
      exact forall₂_consLine (sublists ((isEnded_cons_iff lineFeed).1 ended).2)
  fun_induction stripCommentsFrom mode text with
  | case1 => exact .nil
  | case2 rest ih => exact removed (by decide) ended fun ended => removed (by decide) ended ih
  | case3 rest ih => exact removed (by decide) ended fun ended => removed (by decide) ended ih
  | case4 c rest _ _ ih => exact kept ended ih
  | case5 c rest ih => exact kept ended ih
  | case6 rest ih => exact kept ended ih
  | case7 c rest ordinary ih => exact removed ordinary ended ih
  | case8 star rest ih => exact kept ended ih
  | case9 star c rest ordinary _ ih => exact removed ordinary ended ih
  | case10 star c rest ordinary _ ih => exact removed ordinary ended ih

/-- Without its comments a text has the same lines, each without its comments. -/
theorem forall₂_stripComments {text : Text} (ended : IsEnded text) :
    List.Forall₂ List.Sublist (feedLines (stripComments text)) (feedLines text) :=
  forall₂_stripCommentsFrom .code ended

/-! ## Continued lines -/

/-- The logical line that starts with the first of some physical lines: as long as a line ends in
a backslash the next one belongs to it. -/
def joinedLine : List Text → Text
  | [] => []
  | line :: rest =>
      match Text.dropEnding? ['\\'] line with
      | some head => head ++ joinedLine rest
      | none => line

/-- Whether a line is continued on the next one. -/
def isContinued (line : Text) : Bool := (Text.dropEnding? ['\\'] line).isSome

/-- Whether the line of an index continues an earlier one. -/
def isContinuation (lines : List Text) : (index : Nat) → Bool
  | 0 => false
  | index + 1 => (lines[index]?).any isContinued

/-- One line in the place of each physical line: the logical line that starts there, or a blank one
if the line before is continued. -/
def linesInPlace : (continued : Bool) → List Text → List Text
  | _, [] => []
  | continued, line :: rest =>
      (if continued then [] else joinedLine (line :: rest)) :: linesInPlace (isContinued line) rest

/-- What is pending goes in front of the logical line that starts next, and the lines that were
joined before leave blank lines behind it. -/
theorem joinContinued_eq (pending : Text) (joined : Nat) (lines : List Text) :
    joinContinued pending (joined + 1) lines =
      (pending ++ joinedLine lines) :: (List.replicate joined [] ++ linesInPlace true lines) ∧
    joinContinued [] 0 lines = linesInPlace false lines := by
  induction lines generalizing pending joined with
  | nil => simp [joinContinued, joinedLine, linesInPlace]
  | cons line rest ih =>
      cases head : Text.dropEnding? ['\\'] line with
      | none =>
          have fresh := (ih [] 0).2
          simp [joinContinued, joinedLine, linesInPlace, isContinued, head, fresh,
            List.replicate_succ']
      | some start =>
          have more := (ih (pending ++ start) (joined + 1)).1
          have first := (ih start 0).1
          simp [joinContinued, joinedLine, linesInPlace, isContinued, head, more, first,
            List.replicate_succ']

/-- There is one logical line in the place of each physical one. -/
theorem logicalLines_eq (text : Text) :
    logicalLines text = linesInPlace false (physicalLines text) :=
  (joinContinued_eq [] 0 (physicalLines text)).2

theorem length_linesInPlace (continued : Bool) (lines : List Text) :
    (linesInPlace continued lines).length = lines.length := by
  induction lines generalizing continued with
  | nil => rfl
  | cons line rest ih => simp [linesInPlace, ih]

theorem getElem?_linesInPlace {continued : Bool} {lines : List Text} {index : Nat}
    (inside : index < lines.length) :
    (linesInPlace continued lines)[index]? =
      some (if index = 0 ∧ continued ∨ isContinuation lines index then []
        else joinedLine (lines.drop index)) := by
  induction lines generalizing continued index with
  | nil => simp at inside
  | cons line rest ih =>
      cases index with
      | zero => simp [linesInPlace, isContinuation]
      | succ index =>
          rw [linesInPlace, List.getElem?_cons_succ, ih (Nat.lt_of_succ_lt_succ inside)]
          cases index with
          | zero => simp [isContinuation]
          | succ index => simp [isContinuation]

/-- The logical line in the place of a physical line starts there, or it is blank. -/
theorem getElem?_logicalLines {text : Text} {index : Nat}
    (inside : index < (physicalLines text).length) :
    (logicalLines text)[index]? =
      some (if isContinuation (physicalLines text) index then []
        else joinedLine ((physicalLines text).drop index)) := by
  rw [logicalLines_eq, getElem?_linesInPlace inside]
  simp

theorem length_logicalLines (text : Text) :
    (logicalLines text).length = (feedLines text).length := by
  rw [logicalLines_eq, length_linesInPlace, physicalLines, List.length_map]

/-! ## No line feeds -/

theorem lineFeed_not_mem_of_mem_physicalLines {text line : Text}
    (member : line ∈ physicalLines text) : '\n' ∉ line := by
  obtain ⟨whole, inText, rfl⟩ := List.mem_map.1 member
  intro found
  have inWhole : '\n' ∈ whole := by
    have dropped := List.mem_reverse.1 found
    exact List.mem_reverse.1 ((List.dropWhile_sublist _).subset dropped)
  exact lineFeed_not_mem_of_mem_feedLines inText inWhole

theorem eq_append_of_dropEnding? {ending text head : Text}
    (dropped : Text.dropEnding? ending text = some head) : text = head ++ ending := by
  obtain ⟨reversed, split, rfl⟩ := Option.map_eq_some_iff.1 dropped
  have whole := congrArg List.reverse (dropLead?_eq_some_iff.1 split)
  simpa using whole

theorem lineFeed_not_mem_joinedLine {lines : List Text} (ordinary : ∀ line ∈ lines, '\n' ∉ line) :
    '\n' ∉ joinedLine lines := by
  induction lines with
  | nil => exact List.not_mem_nil
  | cons line rest ih =>
      have first := ordinary line List.mem_cons_self
      unfold joinedLine
      split
      · rename_i head dropped
        rw [eq_append_of_dropEnding? dropped] at first
        intro found
        rcases List.mem_append.1 found with inHead | inRest
        · exact first (List.mem_append_left _ inHead)
        · exact ih (fun other member => ordinary other (List.mem_cons_of_mem _ member)) inRest
      · exact first

/-- No logical line holds a line feed. -/
theorem lineFeed_not_mem_of_mem_logicalLines {text line : Text}
    (member : line ∈ logicalLines text) : '\n' ∉ line := by
  obtain ⟨index, inside, rfl⟩ := List.getElem_of_mem member
  have bound := inside
  rw [logicalLines_eq, length_linesInPlace] at bound
  have found := getElem?_logicalLines bound
  rw [List.getElem?_eq_getElem inside, Option.some.injEq] at found
  rw [found]
  split
  · exact List.not_mem_nil
  · exact lineFeed_not_mem_joinedLine fun other inDrop =>
      lineFeed_not_mem_of_mem_physicalLines (List.mem_of_mem_drop inDrop)

end ClassConfig

end AddonIndex
