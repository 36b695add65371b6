import AddonIndex.Proofs.ClassConfig.LineRole

/-!
# Nested conditionals

Lines whose conditionals are all ended form blocks within blocks. A run of them
carries out one branch of each conditional, which is picked where the
conditional opens, and only counts the lines of the other branch.

Other lines are broken at one place: a line there has no place in the
conditionals around it, or the lines end before the conditionals do. Every list
of lines is of one of the two forms.
-/

namespace AddonIndex.ClassConfig

/-- A line of a given role. -/
abbrev LineOf (kind : Role) := {line : Text // role line = kind}

/-- Lines whose conditionals are all ended. -/
inductive Blocks
  | nothing
  | plain (line : LineOf .plain) (following : Blocks)
  | block (condition : Condition) (opening : LineOf (.opening condition)) (first : Blocks)
      (closing : LineOf .ending) (following : Blocks)
  | choice (condition : Condition) (opening : LineOf (.opening condition)) (first : Blocks)
      (middle : LineOf .otherwise) (second : Blocks) (closing : LineOf .ending) (following : Blocks)

/-- How a line is carried out that has a number and follows some definitions. -/
abbrev Action := Nat → Definitions → Text → Except ConfigError (List Text × Definitions)

namespace Blocks

/-- The lines of blocks. -/
def lines : Blocks → List Text
  | nothing => []
  | plain line following => line.1 :: following.lines
  | block _ opening first closing following => opening.1 :: (first.lines ++ closing.1 :: following.lines)
  | choice _ opening first middle second closing following =>
      opening.1 :: (first.lines ++ middle.1 :: (second.lines ++ closing.1 :: following.lines))

/-- The output of blocks that are skipped: a blank line for each line. -/
def blank (blocks : Blocks) : List Text := blocks.lines.map fun _ => []

/-- Run blocks of which the first line has the given number. -/
def run (act : Action) : Blocks → Nat → Definitions → Except ConfigError (List Text × Definitions)
  | nothing, _, definitions => .ok ([], definitions)
  | plain line following, number, definitions => do
      let (output, definitions) ← act number definitions line
      let (outputs, definitions) ← following.run act (number + 1) definitions
      return (output ++ outputs, definitions)
  | block condition _ first _ following, number, definitions => do
      let (inside, definitions) ←
        if condition.holds definitions.macros then first.run act (number + 1) definitions
        else .ok (first.blank, definitions)
      let (outputs, definitions) ← following.run act (number + 1 + first.lines.length + 1) definitions
      return ([] :: inside ++ [] :: outputs, definitions)
  | choice condition _ first _ second _ following, number, definitions => do
      let (inside, definitions) ←
        if condition.holds definitions.macros then do
          let (inside, definitions) ← first.run act (number + 1) definitions
          .ok (inside ++ [] :: second.blank, definitions)
        else do
          let (inside, definitions) ← second.run act (number + 1 + first.lines.length + 1) definitions
          .ok (first.blank ++ [] :: inside, definitions)
      let (outputs, definitions) ←
        following.run act (number + 1 + first.lines.length + 1 + second.lines.length + 1) definitions
      return ([] :: inside ++ [] :: outputs, definitions)

end Blocks

/-- Where lines are: in no conditional, or in a branch of the innermost one. -/
inductive Place
  | outside
  | firstBranch
  | secondBranch
deriving DecidableEq, Repr

/-- Why a line of some role cannot be at a place. -/
def Place.refusal : Place → Role → Option DirectiveError
  | outside, .otherwise => some .elseWithoutIf
  | outside, .ending => some .endWithoutIf
  | secondBranch, .otherwise => some .duplicateElse
  | _, _ => none

/-- Lines at a place that are broken: at some point, maybe deeper inside, they end in a conditional
or have a line that cannot be there. -/
inductive Broken : Place → Type
  | unended {place : Place} (sound : Blocks) (entered : place ≠ .outside) : Broken place
  | misplaced {place : Place} (sound : Blocks) (cause : DirectiveError)
      (line : {line : Text // place.refusal (role line) = some cause}) (unread : List Text) : Broken place
  | inFirst {place : Place} (sound : Blocks) (condition : Condition)
      (opening : LineOf (.opening condition)) (inside : Broken .firstBranch) : Broken place
  | inSecond {place : Place} (sound : Blocks) (condition : Condition)
      (opening : LineOf (.opening condition)) (first : Blocks) (middle : LineOf .otherwise)
      (inside : Broken .secondBranch) : Broken place

namespace Broken

variable {place : Place}

/-- The lines of which some are broken. -/
def lines : {place : Place} → Broken place → List Text
  | _, unended sound _ => sound.lines
  | _, misplaced sound _ line unread => sound.lines ++ line.1 :: unread
  | _, inFirst sound _ opening inside => sound.lines ++ opening.1 :: inside.lines
  | _, inSecond sound _ opening first middle inside =>
      sound.lines ++ opening.1 :: (first.lines ++ middle.1 :: inside.lines)

/-- The lines before the defect. -/
def before : {place : Place} → Broken place → List Text
  | _, unended sound _ => sound.lines
  | _, misplaced sound _ _ _ => sound.lines
  | _, inFirst sound _ opening inside => sound.lines ++ opening.1 :: inside.before
  | _, inSecond sound _ opening first middle inside =>
      sound.lines ++ opening.1 :: (first.lines ++ middle.1 :: inside.before)

/-- The error that reports the defect. -/
def defect (file : Path) : {place : Place} → Broken place → Nat → ConfigError
  | _, unended sound _, number =>
      .directive file (number + sound.lines.length - 1) .unterminatedConditional
  | _, misplaced sound cause _ _, number => .directive file (number + sound.lines.length) cause
  | _, inFirst sound _ _ inside, number => inside.defect file (number + sound.lines.length + 1)
  | _, inSecond sound _ _ first _ inside, number =>
      inside.defect file (number + sound.lines.length + 1 + first.lines.length + 1)

/-- Run broken lines. Where they are skipped there is nothing on the way to the defect. -/
def run (file : Path) (act : Action) :
    {place : Place} → Broken place → Nat → Definitions → Except ConfigError (List Text × Definitions)
  | _, unended sound entered, number, definitions => do
      let _ ← sound.run act number definitions
      .error ((unended sound entered).defect file number)
  | _, misplaced sound cause line unread, number, definitions => do
      let _ ← sound.run act number definitions
      .error ((misplaced sound cause line unread).defect file number)
  | _, inFirst sound condition _ inside, number, definitions => do
      let (_, definitions) ← sound.run act number definitions
      if condition.holds definitions.macros then
        inside.run file act (number + sound.lines.length + 1) definitions
      else .error (inside.defect file (number + sound.lines.length + 1))
  | _, inSecond sound condition _ first _ inside, number, definitions => do
      let (_, definitions) ← sound.run act number definitions
      if condition.holds definitions.macros then
        let _ ← first.run act (number + sound.lines.length + 1) definitions
        .error (inside.defect file (number + sound.lines.length + 1 + first.lines.length + 1))
      else inside.run file act (number + sound.lines.length + 1 + first.lines.length + 1) definitions

end Broken

/-- Logical lines by their conditionals. -/
inductive Document
  | whole (blocks : Blocks)
  | broken (broken : Broken .outside)

namespace Document

def lines : Document → List Text
  | whole blocks => blocks.lines
  | broken inner => inner.lines

/-- Run the lines of a file. -/
def run (file : Path) (act : Action) : Document → Definitions → Except ConfigError (List Text × Definitions)
  | whole blocks, definitions => blocks.run act 1 definitions
  | broken inner, definitions => inner.run file act 1 definitions

end Document

/-! ## Every list of lines is a document -/

/-- How far lines are blocks: to their end, to a line that belongs to a conditional around them, or to
a conditional that is broken, wherever they are. -/
inductive Reading : List Text → Prop
  | whole (blocks : Blocks) : Reading blocks.lines
  | stopped (sound : Blocks) (line : Text) (stops : role line = .otherwise ∨ role line = .ending)
      (rest : List Text) : Reading (sound.lines ++ line :: rest)
  | broken {lines : List Text} (inside : ∀ place, ∃ broken : Broken place, broken.lines = lines) :
      Reading lines

/-- Broken lines are broken after further blocks too. -/
theorem Broken.exists_lines_eq_append {place : Place} (extra : List Text) (extend : Blocks → Blocks)
    (extended : ∀ blocks, (extend blocks).lines = extra ++ blocks.lines) (broken : Broken place) :
    ∃ extended : Broken place, extended.lines = extra ++ broken.lines := by
  cases broken with
  | unended sound entered => exact ⟨.unended (extend sound) entered, by simp [lines, extended]⟩
  | misplaced sound cause line unread =>
      exact ⟨.misplaced (extend sound) cause line unread, by simp [lines, extended]⟩
  | inFirst sound condition opening inside =>
      exact ⟨.inFirst (extend sound) condition opening inside, by simp [lines, extended]⟩
  | inSecond sound condition opening first middle inside =>
      exact ⟨.inSecond (extend sound) condition opening first middle inside, by simp [lines, extended]⟩

theorem Reading.append (extra : List Text) (extend : Blocks → Blocks)
    (extended : ∀ blocks, (extend blocks).lines = extra ++ blocks.lines) {rest : List Text}
    (reading : Reading rest) : Reading (extra ++ rest) := by
  cases reading with
  | whole blocks => exact extended blocks ▸ .whole (extend blocks)
  | stopped sound line stops rest =>
      rw [← List.append_assoc, ← extended]
      exact .stopped (extend sound) line stops rest
  | broken inside =>
      refine .broken fun place => ?_
      obtain ⟨broken, rfl⟩ := inside place
      exact broken.exists_lines_eq_append extra extend extended

/-- The lines after the middle of a conditional. -/
theorem Reading.of_middle {condition : Condition} (opening : LineOf (.opening condition)) (first : Blocks)
    (middle : LineOf .otherwise) {rest : List Text} (reading : Reading rest)
    (after : ∀ later, later.length < rest.length → Reading later) :
    Reading (opening.1 :: (first.lines ++ middle.1 :: rest)) := by
  cases reading with
  | whole second => exact .broken fun place => ⟨.inSecond .nothing _ opening first middle
      (.unended second nofun), rfl⟩
  | stopped second line stops later =>
      rcases stops with repeats | ends
      · have refused : Place.secondBranch.refusal (role line) = some .duplicateElse := by rw [repeats]; rfl
        exact .broken fun place => ⟨.inSecond .nothing _ opening first middle
          (.misplaced second .duplicateElse ⟨line, refused⟩ later), rfl⟩
      · have shorter : later.length < (second.lines ++ line :: later).length := by simp; omega
        have extended := (after later shorter).append
          (opening.1 :: (first.lines ++ middle.1 :: (second.lines ++ [line])))
          (.choice condition opening first middle second ⟨line, ends⟩) (by simp [Blocks.lines])
        simpa using extended
  | broken inside =>
      obtain ⟨broken, rfl⟩ := inside .secondBranch
      exact .broken fun place => ⟨.inSecond .nothing _ opening first middle broken, rfl⟩

/-- The lines after the opening of a conditional. -/
theorem Reading.of_opening {condition : Condition} (opening : LineOf (.opening condition)) {rest : List Text}
    (reading : Reading rest) (after : ∀ later, later.length < rest.length → Reading later) :
    Reading (opening.1 :: rest) := by
  cases reading with
  | whole first => exact .broken fun place => ⟨.inFirst .nothing _ opening (.unended first nofun), rfl⟩
  | stopped first line stops later =>
      have shorter : later.length < (first.lines ++ line :: later).length := by simp; omega
      rcases stops with divides | ends
      · exact .of_middle opening first ⟨line, divides⟩ (after later shorter) fun further less =>
          after further (Nat.lt_trans less shorter)
      · have extended := (after later shorter).append (opening.1 :: (first.lines ++ [line]))
          (.block condition opening first ⟨line, ends⟩) (by simp [Blocks.lines])
        simpa using extended
  | broken inside =>
      obtain ⟨broken, rfl⟩ := inside .firstBranch
      exact .broken fun place => ⟨.inFirst .nothing _ opening broken, rfl⟩

theorem reading (lines : List Text) : Reading lines := by
  match lines with
  | [] => exact .whole .nothing
  | line :: rest =>
      cases kind : role line with
      | plain => exact (reading rest).append [line] (.plain ⟨line, kind⟩) fun _ => rfl
      | opening condition =>
          exact .of_opening ⟨line, kind⟩ (reading rest) fun later shorter => reading later
      | otherwise => exact .stopped .nothing line (.inl kind) rest
      | ending => exact .stopped .nothing line (.inr kind) rest
termination_by lines.length

/-- Every list of lines is a document. -/
theorem Document.exists_lines_eq (lines : List Text) : ∃ document : Document, document.lines = lines := by
  cases reading lines with
  | whole blocks => exact ⟨.whole blocks, rfl⟩
  | stopped sound line stops rest =>
      rcases stops with divides | ends
      · have refused : Place.outside.refusal (role line) = some .elseWithoutIf := by rw [divides]; rfl
        exact ⟨.broken (.misplaced sound .elseWithoutIf ⟨line, refused⟩ rest), rfl⟩
      · have refused : Place.outside.refusal (role line) = some .endWithoutIf := by rw [ends]; rfl
        exact ⟨.broken (.misplaced sound .endWithoutIf ⟨line, refused⟩ rest), rfl⟩
  | broken inside =>
      obtain ⟨broken, rfl⟩ := inside .outside
      exact ⟨.broken broken, rfl⟩

end AddonIndex.ClassConfig
