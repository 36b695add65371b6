import AddonIndex.Text.Basic

/-!
# Logical lines

A line that ends in a backslash continues on the next one. A logical line takes
the place of its first physical line; blank lines stand for the others, so that
there are as many logical lines as physical ones.
-/

namespace AddonIndex.ClassConfig

/-- The lines of a text without the carriage returns at their ends. -/
def physicalLines (text : Text) : List Text :=
  text.feedLines.map (Text.dropEndWhile (· == '\r'))

/-- Join continued lines. `pending` is what the lines before have left to be
continued, and `joined` is their number. -/
def joinContinued (pending : Text) (joined : Nat) : List Text → List Text
  | [] =>
      if pending.isEmpty ∧ joined = 0 then []
      else pending :: List.replicate (joined - 1) []
  | line :: rest =>
      match Text.dropEnding? ['\\'] line with
      | some head => joinContinued (pending ++ head) (joined + 1) rest
      | none => (pending ++ line) :: (List.replicate joined [] ++ joinContinued [] 0 rest)

/-- The logical lines of a text. -/
def logicalLines (text : Text) : List Text := joinContinued [] 0 (physicalLines text)

end AddonIndex.ClassConfig
