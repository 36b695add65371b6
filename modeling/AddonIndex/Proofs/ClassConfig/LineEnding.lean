import AddonIndex.Proofs.ClassConfig.CommentRemoval
import AddonIndex.Proofs.Text.Encoding

/-!
# Line endings

A carriage return before a line feed is taken off before anything else looks at a line: in a comment it
goes with the comment, elsewhere it is the last character of its physical line. Neither a comment nor a
string literal begins or ends at it. So files in which each line feed follows a carriage return are read
like files without carriage returns.
-/

namespace AddonIndex.ClassConfig

open Text

/-- A carriage return at the end of a line is taken off. -/
theorem physicalLines_carriageReturn (rest : Text) :
    physicalLines ('\r' :: '\n' :: rest) = physicalLines ('\n' :: rest) := by
  rw [physicalLines, physicalLines, feedLines_cons (by decide), feedLines_lineFeed]
  rfl

theorem dropEndWhile_cons_congr {p : Char → Bool} {line other : Text}
    (same : dropEndWhile p line = dropEndWhile p other) (c : Char) :
    dropEndWhile p (c :: line) = dropEndWhile p (c :: other) := by
  have sameDropped : line.reverse.dropWhile p = other.reverse.dropWhile p := List.reverse_inj.1 same
  rw [dropEndWhile, dropEndWhile, List.reverse_cons, List.reverse_cons, List.dropWhile_append,
    List.dropWhile_append, sameDropped]

/-- Texts with the same physical lines have the same ones with a character in front of both. -/
theorem physicalLines_cons_congr {text other : Text} (same : physicalLines text = physicalLines other) (c : Char) :
    physicalLines (c :: text) = physicalLines (c :: other) := by
  by_cases feed : c = '\n'
  · subst feed
    exact congrArg ([] :: ·) same
  · unfold physicalLines at same ⊢
    rw [feedLines_cons feed, feedLines_cons feed]
    cases lines : feedLines text with
    | nil =>
        rw [lines] at same
        rw [List.map_eq_nil_iff.1 same.symm]
    | cons line rest =>
        rw [lines, List.map_cons] at same
        obtain ⟨otherLine, others, split, first, later⟩ := List.map_eq_cons_iff.1 same.symm
        rw [split, consLine, consLine, List.map_cons, List.map_cons, later, dropEndWhile_cons_congr first.symm c]

/-- A text begins like the same text with carriage returns, unless with a line feed. -/
theorem head?_withReturns_ne {text : Text} {c : Char} (noReturn : c ≠ '\r') (apart : text.head? ≠ some c) :
    text.withReturns.head? ≠ some c := by
  rw [withReturns, head?_putBefore]
  intro found
  obtain ⟨first, isFirst, same⟩ := Option.map_eq_some_iff.1 found
  split at same
  · exact noReturn same.symm
  · exact apart (same ▸ isFirst)

theorem withReturns_lineFeed (text : Text) : Text.withReturns ('\n' :: text) = '\r' :: '\n' :: text.withReturns :=
  putBefore_mark _ _ _

theorem withReturns_cons {c : Char} (ordinary : c ≠ '\n') (text : Text) :
    Text.withReturns (c :: text) = c :: text.withReturns :=
  putBefore_cons ordinary _

/-- Without comments a text has the same physical lines with carriage returns before its line feeds. -/
theorem physicalLines_withReturns (mode : CommentMode) (text : Text) :
    physicalLines (stripCommentsFrom mode text.withReturns) = physicalLines (stripCommentsFrom mode text) := by
  have slash : '/' ≠ '\n' := by decide
  have star : '*' ≠ '\n' := by decide
  have kept {c : Char} (noSlash : c ≠ '/') (rest : Text) : stripCommentsFrom .code (c :: rest) =
      c :: stripCommentsFrom (if c = '"' then .string else .code) rest :=
    (stripCommentsFrom_code fun isSlash => absurd isSlash noSlash).1
  fun_induction stripCommentsFrom mode text with
  | case1 mode => cases mode <;> rfl
  | case2 rest ih => rwa [withReturns_cons slash, withReturns_cons slash, stripCommentsFrom]
  | case3 rest ih => rwa [withReturns_cons slash, withReturns_cons star, stripCommentsFrom]
  | case4 c rest noLine noBlock ih =>
      by_cases feed : c = '\n'
      · subst feed
        rw [withReturns_lineFeed, kept (by decide), if_neg (by decide), kept (by decide),
          physicalLines_carriageReturn]
        exact physicalLines_cons_congr ih '\n'
      · have apart : c = '/' → (withReturns rest).head? ≠ some '/' ∧ (withReturns rest).head? ≠ some '*' := by
          intro isSlash
          constructor
          · refine head?_withReturns_ne (c := '/') (by decide) fun next => ?_
            obtain ⟨more, rfl⟩ := List.head?_eq_some_iff.1 next
            exact noLine more isSlash rfl
          · refine head?_withReturns_ne (c := '*') (by decide) fun next => ?_
            obtain ⟨more, rfl⟩ := List.head?_eq_some_iff.1 next
            exact noBlock more isSlash rfl
        rw [withReturns_cons feed, (stripCommentsFrom_code apart).1]
        exact physicalLines_cons_congr ih c
  | case5 c rest ih =>
      by_cases feed : c = '\n'
      · subst feed
        rw [withReturns_lineFeed, stripCommentsFrom, if_neg (by decide), stripCommentsFrom,
          physicalLines_carriageReturn]
        exact physicalLines_cons_congr ih '\n'
      · rw [withReturns_cons feed, stripCommentsFrom]
        exact physicalLines_cons_congr ih c
  | case6 rest ih =>
      rw [withReturns_lineFeed, stripCommentsFrom, if_neg (by decide), stripCommentsFrom, if_pos rfl]
      exact physicalLines_cons_congr ih '\n'
  | case7 c rest ordinary ih => rwa [withReturns_cons ordinary, stripCommentsFrom, if_neg ordinary]
  | case8 star rest ih =>
      rw [withReturns_lineFeed, stripCommentsFrom, if_neg (by decide), if_neg (by simp), stripCommentsFrom,
        if_pos rfl]
      exact physicalLines_cons_congr ih '\n'
  | case9 star c rest ordinary ends ih =>
      rwa [withReturns_cons ordinary, stripCommentsFrom, if_neg ordinary, if_pos ends]
  | case10 star c rest ordinary goesOn ih =>
      rwa [withReturns_cons ordinary, stripCommentsFrom, if_neg ordinary, if_neg goesOn]

theorem logicalLines_withReturns (text : Text) :
    logicalLines (stripComments text.withReturns) = logicalLines (stripComments text) :=
  congrArg (joinContinued [] 0) (physicalLines_withReturns .code text)

/-- The tree with a carriage return put before each line feed of the chosen files. -/
def withReturnsIn (tree : FileTree) (chosen : Location → Bool) : FileTree :=
  tree.rewriteFiles fun place content => if chosen place then bytesWithReturns content else content

/-- Files with carriage returns have the same logical lines, or cannot be read either. -/
theorem sameSources_withReturnsIn (tree : FileTree) (chosen : Location → Bool) :
    SameSources tree (withReturnsIn tree chosen) := by
  have rewritten : Rewrites (fun content other => other = bytesWithReturns content) tree
      (withReturnsIn tree chosen) := by
    refine FileTree.rewrites_rewriteFiles fun place content => ?_
    by_cases isChosen : chosen place
    · exact .inr (if_pos isChosen)
    · exact .inl (if_neg isChosen)
  refine ⟨rewritten.isFile_eq, fun file => ?_⟩
  rcases rewritten.readBytes_eq_or file with same | ⟨content, _, rfl, there, otherThere⟩
  · rw [sourceLines, sourceLines, FileTree.readText, FileTree.readText, same]
  · rw [sourceLines, sourceLines, FileTree.readText, FileTree.readText, there, otherThere, ok_bind, ok_bind,
      Text.decode?_bytesWithReturns]
    cases Text.decode? content with
    | none => rfl
    | some text => exact congrArg Except.ok (logicalLines_withReturns text)

/-- How lines are ended makes no difference. With a carriage return put before each line feed of any
chosen files, every config is read as before: with the same classes, assignments and definitions, or with
the same error. -/
theorem readConfig_withReturnsIn (tree : FileTree) (chosen : Location → Bool) (file includeDirectory : Path) :
    readConfig (withReturnsIn tree chosen) file includeDirectory = readConfig tree file includeDirectory :=
  (sameSources_withReturnsIn tree chosen).readConfig_eq file includeDirectory

end AddonIndex.ClassConfig
