import AddonIndex.Text.Basic

/-!
# Comments

Removing `//` and `/* */` comments from a config text. Comments do not begin
inside a string, and a string ends at its closing quote or at the end of its
line. Line feeds inside block comments stay, so that every line keeps its
number.
-/

namespace AddonIndex.ClassConfig

/-- What the scanner for comments is inside of. -/
inductive CommentMode
  | code
  | string
  | lineComment
  /-- The flag tells whether the character before was a star of the comment. -/
  | blockComment (star : Bool)
deriving DecidableEq, Repr

/-- Remove comments, beginning in the given mode. -/
def stripCommentsFrom : CommentMode → Text → Text
  | _, [] => []
  | .code, '/' :: '/' :: rest => stripCommentsFrom .lineComment rest
  | .code, '/' :: '*' :: rest => stripCommentsFrom (.blockComment false) rest
  | .code, c :: rest => c :: stripCommentsFrom (if c = '"' then .string else .code) rest
  | .string, c :: rest =>
      c :: stripCommentsFrom (if c = '"' ∨ c = '\n' then .code else .string) rest
  | .lineComment, c :: rest =>
      if c = '\n' then c :: stripCommentsFrom .code rest else stripCommentsFrom .lineComment rest
  | .blockComment star, c :: rest =>
      if c = '\n' then c :: stripCommentsFrom (.blockComment false) rest
      else if star ∧ c = '/' then stripCommentsFrom .code rest
      else stripCommentsFrom (.blockComment (c == '*')) rest

/-- The text without its comments. -/
def stripComments (text : Text) : Text := stripCommentsFrom .code text

end AddonIndex.ClassConfig
