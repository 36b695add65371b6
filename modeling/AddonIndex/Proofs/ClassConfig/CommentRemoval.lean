import AddonIndex.Proofs.ClassConfig.Spacing
import AddonIndex.Proofs.FileTree.History
import AddonIndex.Proofs.FileTree.Location
import Mathlib.Logic.Relation

/-!
# Comments leave nothing behind

What is read of a config depends on its text without comments. Where comments are taken out and their
line feeds stay, no other comment comes about, since no slash stands right before one. So a text
with comments taken out is left with the same text without comments.

No blank takes the place of a comment: what stands on both sides of it grows together. A blank in the
place of a comment is one more blank in the text without comments, and says nothing only where it stands
in a gap.
-/

namespace AddonIndex.ClassConfig

open Text

variable {text shorter other rest start before comment : Text} {spacing : Text} {inString : Bool}

/-! ## Comments in a text -/

/-- Whether the first star with a slash behind it is at the end of a text, if there is one. -/
def ClosesOnce (text : Text) : Prop :=
  ∀ front back, text = front ++ '*' :: '/' :: back → back = []

theorem ClosesOnce.of_append {before : Text} (closes : ClosesOnce (before ++ text)) :
    ClosesOnce text := by
  rintro front back rfl
  exact closes (before ++ front) back (List.append_assoc _ _ _).symm

/-- Whether a text is a comment where another text follows it: a line comment goes up to the end of
the line, and a block comment up to the first star with a slash behind it. -/
inductive IsComment : (comment rest : Text) → Prop
  | line {text rest : Text} (ordinary : '\n' ∉ text) (ends : ∀ c ∈ rest.head?, c = '\n') :
      IsComment ('/' :: '/' :: text) rest
  | block {text rest : Text} (closes : ClosesOnce (text ++ ['*', '/'])) :
      IsComment ('/' :: '*' :: (text ++ ['*', '/'])) rest

/-- The line feeds of a text. -/
def lineFeedsOf (text : Text) : Text := text.filter (· == '\n')

@[simp]
theorem lineFeedsOf_nil : lineFeedsOf [] = [] := rfl

@[simp]
theorem lineFeedsOf_lineFeed (text : Text) : lineFeedsOf ('\n' :: text) = '\n' :: lineFeedsOf text :=
  rfl

theorem lineFeedsOf_cons {c : Char} (ordinary : c ≠ '\n') (text : Text) :
    lineFeedsOf (c :: text) = lineFeedsOf text := by
  simp [lineFeedsOf, ordinary]

@[simp]
theorem lineFeedsOf_append (first second : Text) :
    lineFeedsOf (first ++ second) = lineFeedsOf first ++ lineFeedsOf second :=
  List.filter_append _ _

theorem lineFeedsOf_eq_nil (ordinary : '\n' ∉ text) : lineFeedsOf text = [] := by
  refine List.filter_eq_nil_iff.2 fun c member => ?_
  simpa using ne_of_mem_of_not_mem member ordinary

/-- Whether the second text is the first one, begun inside a string literal or outside, with some of
its comments replaced by a spacing and the line feeds in them. A string literal ends at a quote or
at the end of its line, and no comment begins in it. -/
inductive ReplacesComments (spacing : Text) : (inString : Bool) → Text → Text → Prop
  | nil (inString : Bool) : ReplacesComments spacing inString [] []
  | string {c : Char} {text other : Text} :
      ReplacesComments spacing (!decide (c = '"' ∨ c = '\n')) text other →
      ReplacesComments spacing true (c :: text) (c :: other)
  | code {c : Char} {text other : Text}
      (apart : c = '/' → text.head? ≠ some '/' ∧ text.head? ≠ some '*') :
      ReplacesComments spacing (decide (c = '"')) text other →
      ReplacesComments spacing false (c :: text) (c :: other)
  | kept {comment text other : Text} (isComment : IsComment comment text) :
      ReplacesComments spacing false text other →
      ReplacesComments spacing false (comment ++ text) (comment ++ other)
  | replaced {comment text other : Text} (isComment : IsComment comment text) :
      ReplacesComments spacing false text other →
      ReplacesComments spacing false (comment ++ text) (spacing ++ (lineFeedsOf comment ++ other))

/-! ## Removing comments -/

/-- A line comment is removed up to the end of its line. -/
theorem stripCommentsFrom_lineComment (ordinary : '\n' ∉ text) (ends : ∀ c ∈ rest.head?, c = '\n') :
    stripCommentsFrom .lineComment (text ++ rest) = stripCommentsFrom .code rest := by
  induction text with
  | nil =>
      cases rest with
      | nil => rfl
      | cons c rest =>
          obtain rfl := ends c rfl
          simp [stripCommentsFrom]
  | cons c text ih =>
      rw [List.cons_append, stripCommentsFrom, if_neg (List.ne_of_not_mem_cons ordinary).symm,
        ih (List.not_mem_of_not_mem_cons ordinary)]

/-- A block comment is removed up to the first star with a slash behind it. The star may be the
character before the text. -/
theorem stripCommentsFrom_blockComment {star : Bool}
    (closes : ClosesOnce ((if star then ['*'] else []) ++ (text ++ ['*', '/']))) :
    stripCommentsFrom (.blockComment star) (text ++ '*' :: '/' :: rest) =
      lineFeedsOf text ++ stripCommentsFrom .code rest := by
  induction text generalizing star with
  | nil => simp [stripCommentsFrom]
  | cons c text ih =>
      have closesLater : ClosesOnce (text ++ ['*', '/']) := by
        have whole : ClosesOnce ((if star then ['*'] else []) ++ [c] ++ (text ++ ['*', '/'])) := by
          simpa using closes
        exact whole.of_append
      rw [List.cons_append, stripCommentsFrom]
      split
      · rename_i feed
        subst feed
        rw [ih (by simpa using closesLater), lineFeedsOf_lineFeed, List.cons_append]
      · rename_i ordinary
        have goesOn : ¬ (star = true ∧ c = '/') := by
          rintro ⟨rfl, rfl⟩
          simpa using closes [] (text ++ ['*', '/']) rfl
        rw [if_neg goesOn, lineFeedsOf_cons ordinary]
        refine ih ?_
        by_cases isStar : c = '*'
        · subst isStar
          exact closes.of_append
        · simpa [isStar] using closesLater

/-- A comment is removed, and its line feeds stay. -/
theorem IsComment.stripCommentsFrom_append (isComment : IsComment comment rest) :
    stripCommentsFrom .code (comment ++ rest) = lineFeedsOf comment ++ stripCommentsFrom .code rest := by
  cases isComment with
  | line ordinary ends =>
      rw [lineFeedsOf_cons (by decide), lineFeedsOf_cons (by decide), lineFeedsOf_eq_nil ordinary]
      exact stripCommentsFrom_lineComment ordinary ends
  | @block text _ closes =>
      have removed : stripCommentsFrom (.blockComment false) (text ++ '*' :: '/' :: rest) =
          lineFeedsOf text ++ stripCommentsFrom .code rest :=
        stripCommentsFrom_blockComment closes
      rw [lineFeedsOf_cons (by decide), lineFeedsOf_cons (by decide), lineFeedsOf_append]
      simpa [stripCommentsFrom, lineFeedsOf] using removed

theorem stripCommentsFrom_lineFeedsOf (text rest : Text) :
    stripCommentsFrom .code (lineFeedsOf text ++ rest) =
      lineFeedsOf text ++ stripCommentsFrom .code rest := by
  induction text with
  | nil => rfl
  | cons c text ih =>
      by_cases feed : c = '\n'
      · subst feed
        have noSlash (more : Text) : '\n' = '/' → more.head? ≠ some '/' ∧ more.head? ≠ some '*' := nofun
        rw [lineFeedsOf_lineFeed, List.cons_append, (stripCommentsFrom_code (noSlash _)).1,
          if_neg (by decide), ih, List.cons_append]
      · rw [lineFeedsOf_cons feed, ih]

/-- A comment begins with a slash. -/
theorem IsComment.head? (isComment : IsComment comment rest) (more : Text) :
    (comment ++ more).head? = some '/' := by
  cases isComment <;> rfl

/-- A text that begins with no slash begins with the same character when comments are replaced. -/
theorem ReplacesComments.head?_eq (replaces : ReplacesComments spacing inString text shorter)
    (noSlash : text.head? ≠ some '/') : shorter.head? = text.head? := by
  cases replaces with
  | kept isComment => exact absurd (isComment.head? _) noSlash
  | replaced isComment => exact absurd (isComment.head? _) noSlash
  | _ => rfl

/-- A comment is one before other texts too, if these begin with the same character. -/
theorem IsComment.of_head?_eq (isComment : IsComment comment rest)
    (same : ReplacesComments spacing false rest shorter) : IsComment comment shorter := by
  cases isComment with
  | block closes => exact .block closes
  | line ordinary ends =>
      refine .line ordinary ?_
      rw [same.head?_eq]
      · exact ends
      · intro slash
        cases ends '/' slash

/-- The mode of the scanner for comments in code and in a string literal. -/
def codeMode (inString : Bool) : CommentMode := if inString then .string else .code

/-- Without its comments a text is the same if some were replaced by nothing but their line feeds. -/
theorem ReplacesComments.stripCommentsFrom_eq (replaces : ReplacesComments [] inString text shorter) :
    stripCommentsFrom (codeMode inString) shorter = stripCommentsFrom (codeMode inString) text := by
  induction replaces with
  | nil => rfl
  | @string c text other _ ih =>
      have mode : codeMode (!decide (c = '"' ∨ c = '\n')) =
          if c = '"' ∨ c = '\n' then .code else .string := by
        by_cases ends : c = '"' ∨ c = '\n' <;> simp only [codeMode, ends] <;> rfl
      rw [mode] at ih
      change stripCommentsFrom .string (c :: other) = stripCommentsFrom .string (c :: text)
      rw [stripCommentsFrom, stripCommentsFrom, ih]
  | @code c text other apart replaces ih =>
      have mode : codeMode (decide (c = '"')) = if c = '"' then .string else .code := by
        simp [codeMode]
      have apartOther : c = '/' → other.head? ≠ some '/' ∧ other.head? ≠ some '*' := by
        intro slash
        rw [replaces.head?_eq (apart slash).1]
        exact apart slash
      rw [mode] at ih
      exact (stripCommentsFrom_code apartOther).1.trans
        ((congrArg (c :: ·) ih).trans (stripCommentsFrom_code apart).1.symm)
  | kept isComment replaces ih =>
      have kept := (isComment.of_head?_eq replaces).stripCommentsFrom_append
      exact kept.trans ((congrArg _ ih).trans isComment.stripCommentsFrom_append.symm)
  | @replaced comment text other isComment _ ih =>
      have fed := stripCommentsFrom_lineFeedsOf comment other
      exact fed.trans ((congrArg _ ih).trans isComment.stripCommentsFrom_append.symm)

theorem ReplacesComments.stripComments_eq (replaces : ReplacesComments [] false text shorter) :
    stripComments shorter = stripComments text :=
  replaces.stripCommentsFrom_eq

/-! ## Files with other texts -/

/-- Whether an entry is the same as another one, or a file with the same flag and a text changed in some
way. -/
inductive ChangesEntry (changes : Text → Text → Prop) : Entry → Entry → Prop
  | same (entry : Entry) : ChangesEntry changes entry entry
  | file {text other : Text} (executable : Bool) (change : changes text other) :
      ChangesEntry changes (.file text.encode executable) (.file other.encode executable)

/-- Whether two trees have the same entries at the same locations, apart from texts of files that are
changed in some way. -/
structure ChangesTexts (changes : Text → Text → Prop) (tree other : FileTree) : Prop where
  workingDirectory : other.workingDirectory = tree.workingDirectory
  entries : ∀ place, Option.Rel (ChangesEntry changes) (tree.entryAt? place) (other.entryAt? place)

namespace ChangesTexts

variable {changes : Text → Text → Prop} {tree other : FileTree}

theorem rewrites (change : ChangesTexts changes tree other) :
    Rewrites (fun content otherContent => ∃ text otherText, changes text otherText ∧
      content = Text.encode text ∧ otherContent = Text.encode otherText) tree other where
  workingDirectory := change.workingDirectory
  entries place := by
    have related := change.entries place
    revert related
    generalize tree.entryAt? place = entry
    generalize other.entryAt? place = otherEntry
    rintro (⟨⟨entry⟩ | ⟨executable, changed⟩⟩ | _)
    · exact .some (.same _)
    · exact .some (.file executable ⟨_, _, changed, rfl, rfl⟩)
    · exact .none

theorem isFile_eq (change : ChangesTexts changes tree other) (path : Path) :
    other.isFile path = tree.isFile path :=
  change.rewrites.isFile_eq path

/-- A file has the same text in both trees, or it is changed. -/
theorem readText_eq_or (change : ChangesTexts changes tree other) (file : Path) :
    other.readText file = tree.readText file ∨
      ∃ text otherText, changes text otherText ∧ tree.readText file = .ok text ∧
        other.readText file = .ok otherText := by
  rcases change.rewrites.readBytes_eq_or file with
    same | ⟨_, _, ⟨text, otherText, changed, rfl, rfl⟩, there, otherThere⟩
  · exact .inl (by rw [FileTree.readText, FileTree.readText, same])
  · refine .inr ⟨text, otherText, changed, ?_, ?_⟩
    · rw [FileTree.readText, there, ok_bind, Text.decode?_encode]
      rfl
    · rw [FileTree.readText, otherThere, ok_bind, Text.decode?_encode]
      rfl

end ChangesTexts

/-- Where comments of files are replaced by nothing but the line feeds in them, the files have the same
logical lines: comments are removed before anything else is done. -/
theorem sameSources_of_changesTexts {tree other : FileTree}
    (change : ChangesTexts (ReplacesComments [] false) tree other) : SameSources tree other where
  isFile := change.isFile_eq
  sourceLines file := by
    rcases change.readText_eq_or file with same | ⟨text, otherText, replaces, there, otherThere⟩
    · rw [sourceLines, sourceLines, same]
    · simp only [sourceLines, there, otherThere, replaces.stripComments_eq]

theorem changesTexts_alone {changes : Text → Text → Prop} (change : changes text other) :
    ChangesTexts changes (aloneTree text) (aloneTree other) where
  workingDirectory := rfl
  entries place := by
    by_cases root : place = []
    · simp only [FileTree.entryAt?, if_pos root]
      exact .some (.same .directory)
    · simp only [FileTree.entryAt?, if_neg root, aloneTree, FileTree.lookup_cons_eq_ite]
      split
      · exact .some (.file false change)
      · exact .none

/-! ## A blank in place of a comment -/

/-- Whether the second text is the first one with a blank, and the line feeds in it, in place of a
comment, where the text without comments takes a blank. -/
inductive BlanksComment : Text → Text → Prop
  | blank {front comment back : Text} (outside : CommentMode.code.after front = .code)
      (noSlash : (stripComments front).getLast? ≠ some '/') (isComment : IsComment comment back)
      (takes : TakesBlank (stripComments front) (lineFeedsOf comment ++ stripComments back)) :
      BlanksComment (front ++ (comment ++ back)) (front ++ ' ' :: (lineFeedsOf comment ++ back))

/-- Without comments the text has the blank more. -/
theorem BlanksComment.exists_stripComments {other : Text} (blanks : BlanksComment text other) :
    ∃ before after, TakesBlank before after ∧ stripComments text = before ++ after ∧
      stripComments other = before ++ ' ' :: after := by
  cases blanks with
  | @blank front comment back outside noSlash isComment takes =>
      have split (rest : Text) :
          stripComments (front ++ rest) = stripComments front ++ stripCommentsFrom .code rest := by
        rw [stripComments, stripCommentsFrom_append_of_getLast?_ne .code noSlash rest, outside]
        rfl
      refine ⟨_, _, takes, ?_, ?_⟩
      · rw [split, isComment.stripCommentsFrom_append]
        rfl
      · have noSlash : ' ' = '/' → ((lineFeedsOf comment ++ back).head? ≠ some '/' ∧
            (lineFeedsOf comment ++ back).head? ≠ some '*') := by
          intro same
          cases same
        rw [split, (stripCommentsFrom_code noSlash).1, if_neg (by decide), stripCommentsFrom_lineFeedsOf]
        rfl

/-- Whether every string literal ends on its logical line in the files that a config is read from. -/
def ClosesStrings (includeDirectory file : Path) (tree : FileTree) : Prop :=
  ∀ source lines, IsSource tree includeDirectory file source → sourceLines tree source = .ok lines →
    ∀ line ∈ lines, Even (line.count '"')

section Blanks

variable {tree changed : FileTree} {includeDirectory file : Path}

theorem alikeSources_of_changesTexts (closes : ClosesStrings includeDirectory file tree)
    (change : ChangesTexts BlanksComment tree changed) :
    AlikeSources includeDirectory file tree changed where
  isFile := change.isFile_eq
  sourceLines source isSource := by
    rcases change.readText_eq_or source with same | ⟨text, other, blanks, there, otherThere⟩
    · have sameLines : sourceLines changed source = sourceLines tree source := by
        rw [sourceLines, sourceLines, same]
      rw [sameLines]
      cases read : sourceLines tree source with
      | error failure => exact .inl ⟨failure, rfl, rfl⟩
      | ok lines =>
          exact .inr ⟨lines, lines, rfl, rfl,
            List.forall₂_same.2 fun line member => readsAlike_self (closes source lines isSource read line member)⟩
    · obtain ⟨before, after, takes, plain, spaced⟩ := blanks.exists_stripComments
      have lines : sourceLines tree source = .ok (logicalLines (before ++ after)) := by
        simp only [sourceLines, there, plain]
      have otherLines : sourceLines changed source = .ok (logicalLines (before ++ ' ' :: after)) := by
        simp only [sourceLines, otherThere, spaced]
      exact .inr ⟨_, _, lines, otherLines, takes.forall₂_readsAlike (closes source _ isSource lines)⟩

theorem AlikeSources.closesStrings (alike : AlikeSources includeDirectory file tree changed) :
    ClosesStrings includeDirectory file changed := by
  intro source lines isSource read line member
  obtain ⟨_, plain, _, _, lineAlike⟩ := alike.exists_readsAlike (alike.isSource isSource) read member
  exact lineAlike.spaces.closed_other

/-- A config is read as the same after any number of comments are replaced by a blank, one after
another. -/
theorem readConfig_eq_of_blanksComments (closes : ClosesStrings includeDirectory file tree)
    (change : Relation.ReflTransGen (ChangesTexts BlanksComment) tree changed) :
    readConfig changed file includeDirectory = readConfig tree file includeDirectory := by
  suffices both : ClosesStrings includeDirectory file changed ∧
      readConfig changed file includeDirectory = readConfig tree file includeDirectory from both.2
  induction change with
  | refl => exact ⟨closes, rfl⟩
  | tail _ step ih =>
      obtain ⟨closes, same⟩ := ih
      have alike := alikeSources_of_changesTexts closes step
      exact ⟨alike.closesStrings, alike.readConfig_eq.trans same⟩

end Blanks

/-- Comments leave nothing behind. Where comments of files are replaced by nothing but the line feeds in
them, every config is read as before: with the same classes, assignments and definitions, or with the
same error. Where every string literal ends on its logical line, a blank in place of a comment makes no
difference either, if it stands in a gap of its logical line, in a directive before all that is visible
or behind it. -/
theorem readConfig_with_comments_replaced (tree : FileTree) (file includeDirectory : Path) :
    (∀ other, ChangesTexts (ReplacesComments [] false) tree other →
      readConfig other file includeDirectory = readConfig tree file includeDirectory) ∧
    (ClosesStrings includeDirectory file tree →
      ∀ other, Relation.ReflTransGen (ChangesTexts BlanksComment) tree other →
        readConfig other file includeDirectory = readConfig tree file includeDirectory) :=
  ⟨fun _ change => (sameSources_of_changesTexts change).readConfig_eq file includeDirectory,
    fun closes _ change => readConfig_eq_of_blanksComments closes change⟩

/-- Text without slashes and quotes stays as it is. -/
theorem ReplacesComments.code_append {front : Text}
    (noSlash : '/' ∉ front) (noQuote : '"' ∉ front)
    (replaces : ReplacesComments spacing false text shorter) :
    ReplacesComments spacing false (front ++ text) (front ++ shorter) := by
  induction front with
  | nil => exact replaces
  | cons c front ih =>
      refine .code (fun slash => absurd slash (List.ne_of_not_mem_cons noSlash).symm) ?_
      rw [decide_eq_false (List.ne_of_not_mem_cons noQuote).symm]
      exact ih (List.not_mem_of_not_mem_cons noSlash) (List.not_mem_of_not_mem_cons noQuote)

theorem replacesComments_self (noSlash : '/' ∉ text) (noQuote : '"' ∉ text) :
    ReplacesComments spacing false text text := by
  simpa using ReplacesComments.code_append noSlash noQuote (.nil false)

theorem closesOnce_of_notMem (noStar : '*' ∉ text) : ClosesOnce (text ++ ['*', '/']) := by
  intro front back same
  rcases List.append_eq_append_iff.1 same with ⟨inner, -, ends⟩ | ⟨inner, isText, ends⟩
  · have lengths := congrArg List.length ends
    simp only [List.length_append, List.length_cons, List.length_nil] at lengths
    exact List.eq_nil_of_length_eq_zero (by omega)
  · cases inner with
    | nil => exact (List.cons.inj (List.cons.inj ends).2).2
    | cons c inner =>
        obtain ⟨rfl, -⟩ := List.cons.inj ends
        exact absurd (isText ▸ List.mem_append_right front List.mem_cons_self) noStar

/-- The only file of a tree has the lines of its text. -/
theorem eq_of_sourceLines_alone {source : Path} {lines : List Text}
    (read : sourceLines (aloneTree text) source = .ok lines) :
    lines = logicalLines (stripComments text) := by
  unfold sourceLines at read
  cases readsText : (aloneTree text).readText source with
  | error cause =>
      rw [readsText] at read
      cases read
  | ok found =>
      rw [readsText] at read
      obtain ⟨place, content, executable, there, decoded⟩ := FileTree.readText_eq_ok_iff.1 readsText
      rcases FileTree.find_eq_ok_iff.1 there with ⟨_, _, isDirectory⟩ | ⟨_, _, _, _, _, entry, _⟩
      · cases isDirectory
      · have isText : content = text.encode := by
          simp only [FileTree.entryAt?, aloneTree, FileTree.lookup_cons_eq_ite] at entry
          split at entry
          · cases entry
          · split at entry
            · cases entry
              rfl
            · cases entry
        rw [isText, Text.decode?_encode] at decoded
        cases decoded
        exact (Except.ok.inj read).symm

/-- A comment over two lines, after one assignment and before another one. -/
def commentedConfig : Text := "x = a; /* b\nc */y = d;\n"

/-- The text without the comment, and with a blank in its place, is read as the same. -/
theorem readConfig_commentedConfig :
    ReplacesComments [] false commentedConfig "x = a; \ny = d;\n".toList ∧
      readConfig (aloneTree "x = a; \ny = d;\n".toList) aloneFile ⟨[]⟩ =
        readConfig (aloneTree commentedConfig) aloneFile ⟨[]⟩ ∧
      BlanksComment commentedConfig "x = a;  \ny = d;\n".toList ∧
      readConfig (aloneTree "x = a;  \ny = d;\n".toList) aloneFile ⟨[]⟩ =
        readConfig (aloneTree commentedConfig) aloneFile ⟨[]⟩ := by
  have isComment : IsComment "/* b\nc */".toList "y = d;\n".toList :=
    .block (closesOnce_of_notMem (show '*' ∉ " b\nc ".toList by decide))
  have plain : ReplacesComments [] false "y = d;\n".toList "y = d;\n".toList :=
    replacesComments_self (by decide) (by decide)
  have replaces : ReplacesComments [] false commentedConfig "x = a; \ny = d;\n".toList :=
    .code_append (show '/' ∉ "x = a; ".toList by decide) (by decide) (.replaced isComment plain)
  have gap : IsGap (lineFront "x = a; ".toList) (lineBack "\ny = d;\n".toList) :=
    ⟨by decide, .inr (show StopsToken [] from stopsToken_nil)⟩
  have takes : TakesBlank "x = a; ".toList "\ny = d;\n".toList :=
    ⟨by decide, by decide, by decide, ⟨gap, by decide⟩⟩
  have blanks : BlanksComment commentedConfig "x = a;  \ny = d;\n".toList :=
    @BlanksComment.blank "x = a; ".toList _ _ rfl (by decide) isComment takes
  have closes : ClosesStrings ⟨[]⟩ aloneFile (aloneTree commentedConfig) := by
    intro source lines _ read
    rw [eq_of_sourceLines_alone read]
    decide
  obtain ⟨without, withBlanks⟩ := readConfig_with_comments_replaced (aloneTree commentedConfig) aloneFile ⟨[]⟩
  exact ⟨replaces, without _ (changesTexts_alone replaces), blanks,
    withBlanks closes _ (.single (changesTexts_alone blanks))⟩

/-- A blank in place of a comment between two words makes a difference: without the comment they are
one word. -/
theorem comment_joins_words :
    ReplacesComments [' '] false "x = a/**/b;".toList "x = a b;".toList ∧
      readConfig (aloneTree "x = a/**/b;".toList) aloneFile ⟨[]⟩ = .ok
        { file :=
            { path := aloneFile, classes := []
              assignments :=
                [{ name := ['x'], isArray := false, appends := false, value := .raw ['a', 'b'] }] }
          definitions := [] } ∧
      readConfig (aloneTree "x = a b;".toList) aloneFile ⟨[]⟩ = .ok
        { file :=
            { path := aloneFile, classes := []
              assignments :=
                [{ name := ['x'], isArray := false, appends := false, value := .raw ['a', ' ', 'b'] }] }
          definitions := [] } := by
  have isComment : IsComment "/**/".toList "b;".toList := .block (closesOnce_of_notMem (show '*' ∉ [] by decide))
  have plain : ReplacesComments [' '] false "b;".toList "b;".toList :=
    replacesComments_self (by decide) (by decide)
  have replaces : ReplacesComments [' '] false "x = a/**/b;".toList "x = a b;".toList :=
    .code_append (show '/' ∉ "x = a".toList by decide) (by decide) (.replaced isComment plain)
  have joined : preprocess (aloneTree "x = a/**/b;".toList) aloneFile ⟨[]⟩ =
      .ok (["x = ab;".toList], {}) := by
    unfold preprocess preprocessFile maxInclusionDepth
    simp only
    rw [sourceLines_alone]
    rfl
  have apart : preprocess (aloneTree "x = a b;".toList) aloneFile ⟨[]⟩ =
      .ok (["x = a b;".toList], {}) := by
    unfold preprocess preprocessFile maxInclusionDepth
    simp only
    rw [sourceLines_alone]
    rfl
  have scannedJoined : scan (endLines ["x = ab;".toList]) = .ok
      [⟨.word ['x'], 1⟩, ⟨.equals, 1⟩, ⟨.word ['a', 'b'], 1⟩, ⟨.semicolon, 1⟩] := by
    decide +kernel
  have scannedApart : scan (endLines ["x = a b;".toList]) = .ok
      [⟨.word ['x'], 1⟩, ⟨.equals, 1⟩, ⟨.word ['a'], 1⟩, ⟨.word ['b'], 1⟩, ⟨.semicolon, 1⟩] := by
    decide +kernel
  refine ⟨replaces, ?_, ?_⟩
  · rw [readConfig, joined, ok_bind]
    simp only [readText, scannedJoined]
    rfl
  · rw [readConfig, apart, ok_bind]
    simp only [readText, scannedApart]
    rfl

/-!
## Texts without comments

Removing comments keeps every line feed and the order of what stays. What stays holds no comment: a slash stays only
before a character that makes no comment with it, and that character stays too. So nothing that is brought together by
the removal of a comment begins another one, and what was inside a string stays inside it.
-/

variable {c : Char}

/-- The characters that stay when comments are removed, each with a flag that tells whether it was read inside a
string. The quote that ends a string is inside of it, the one that begins it is not. -/
def keptFrom : CommentMode → Text → List (Char × Bool)
  | _, [] => []
  | .code, '/' :: '/' :: rest => keptFrom .lineComment rest
  | .code, '/' :: '*' :: rest => keptFrom (.blockComment false) rest
  | .code, c :: rest => (c, false) :: keptFrom (if c = '"' then .string else .code) rest
  | .string, c :: rest => (c, true) :: keptFrom (if c = '"' ∨ c = '\n' then .code else .string) rest
  | .lineComment, c :: rest =>
      if c = '\n' then (c, false) :: keptFrom .code rest else keptFrom .lineComment rest
  | .blockComment star, c :: rest =>
      if c = '\n' then (c, false) :: keptFrom (.blockComment false) rest
      else if star ∧ c = '/' then keptFrom .code rest
      else keptFrom (.blockComment (c == '*')) rest

/-- The characters that stay are those of the text without comments. -/
theorem map_fst_keptFrom (mode : CommentMode) (text : Text) :
    (keptFrom mode text).map Prod.fst = stripCommentsFrom mode text := by
  fun_induction keptFrom mode text <;> simp_all [stripCommentsFrom]

/-- A slash begins a comment only before another slash or a star. -/
theorem keptFrom_code (apart : c = '/' → text.head? ≠ some '/' ∧ text.head? ≠ some '*') :
    keptFrom .code (c :: text) = (c, false) :: keptFrom (if c = '"' then .string else .code) text := by
  have noLine : ∀ rest, c = '/' → text = '/' :: rest → False := by
    rintro rest slash rfl
    exact (apart slash).1 rfl
  have noBlock : ∀ rest, c = '/' → text = '*' :: rest → False := by
    rintro rest slash rfl
    exact (apart slash).2 rfl
  rw [keptFrom] <;> assumption

/-- Code that does not begin with a slash begins with the same character without its comments. -/
theorem head?_stripCommentsFrom_code (noSlash : text.head? ≠ some '/') :
    (stripCommentsFrom .code text).head? = text.head? := by
  cases text with
  | nil => rfl
  | cons c rest =>
      have apart : c = '/' → rest.head? ≠ some '/' ∧ rest.head? ≠ some '*' := by
        rintro rfl
        exact absurd rfl noSlash
      rw [(stripCommentsFrom_code apart).1, List.head?_cons, List.head?_cons]

/-- What the scanner is inside of where no comment is open. -/
def CommentMode.resumed : CommentMode → CommentMode
  | .string => .string
  | .code | .lineComment | .blockComment _ => .code

/-- What stays is read as it was before: nothing of it is in a comment, and the same of it is inside strings. -/
theorem keptFrom_stripCommentsFrom (mode : CommentMode) (text : Text) :
    keptFrom mode.resumed (stripCommentsFrom mode text) = keptFrom mode text := by
  fun_induction stripCommentsFrom mode text with
  | case1 mode => simp [keptFrom]
  | case2 rest ih => simpa [keptFrom, CommentMode.resumed] using ih
  | case3 rest ih => simpa [keptFrom, CommentMode.resumed] using ih
  | case4 c rest noLine noBlock ih =>
      have apart : c = '/' → rest.head? ≠ some '/' ∧ rest.head? ≠ some '*' := by
        intro slash
        constructor
        · intro first
          exact noLine _ slash (List.eq_cons_of_mem_head? first)
        · intro first
          exact noBlock _ slash (List.eq_cons_of_mem_head? first)
      -- A slash that stays is followed by the same character as before, since no comment begins there.
      have apartLater : c = '/' →
          (stripCommentsFrom (if c = '"' then .string else .code) rest).head? ≠ some '/' ∧
            (stripCommentsFrom (if c = '"' then .string else .code) rest).head? ≠ some '*' := by
        rintro rfl
        rw [if_neg (by decide), head?_stripCommentsFrom_code (apart rfl).1]
        exact apart rfl
      have resumed : (if c = '"' then CommentMode.string else .code).resumed =
          if c = '"' then CommentMode.string else .code := by
        split <;> rfl
      rw [resumed] at ih
      rw [CommentMode.resumed, keptFrom_code apartLater, keptFrom_code apart, ih]
  | case5 c rest ih =>
      have resumed : (if c = '"' ∨ c = '\n' then CommentMode.code else .string).resumed =
          if c = '"' ∨ c = '\n' then CommentMode.code else .string := by
        split <;> rfl
      rw [resumed] at ih
      rw [CommentMode.resumed, keptFrom, keptFrom, ih]
  | case6 rest ih => simpa [keptFrom, CommentMode.resumed] using ih
  | case7 c rest ordinary ih => simpa [keptFrom, CommentMode.resumed, ordinary] using ih
  | case8 star rest ih => simpa [keptFrom, CommentMode.resumed] using ih
  | case9 star c rest ordinary ends ih => simpa [keptFrom, CommentMode.resumed, ordinary, ends] using ih
  | case10 star c rest ordinary goesOn ih =>
      simpa [keptFrom, CommentMode.resumed, ordinary, goesOn] using ih

theorem stripCommentsFrom_sublist (mode : CommentMode) (text : Text) :
    (stripCommentsFrom mode text).Sublist text := by
  fun_induction stripCommentsFrom mode text with
  | case1 => exact List.Sublist.refl _
  | case2 rest ih => exact (ih.cons _).cons _
  | case3 rest ih => exact (ih.cons _).cons _
  | case4 c rest _ _ ih => exact ih.cons_cons c
  | case5 c rest ih => exact ih.cons_cons c
  | case6 rest ih => exact ih.cons_cons _
  | case7 c rest _ ih => exact ih.cons c
  | case8 star rest ih => exact ih.cons_cons _
  | case9 star c rest _ _ ih => exact ih.cons c
  | case10 star c rest _ _ ih => exact ih.cons c

theorem count_lineFeed_stripCommentsFrom (mode : CommentMode) (text : Text) :
    (stripCommentsFrom mode text).count '\n' = text.count '\n' := by
  fun_induction stripCommentsFrom mode text with
  | case1 => rfl
  | case2 rest ih => simpa using ih
  | case3 rest ih => simpa using ih
  | case4 c rest _ _ ih => rw [List.count_cons, List.count_cons, ih]
  | case5 c rest ih => rw [List.count_cons, List.count_cons, ih]
  | case6 rest ih => rw [List.count_cons, List.count_cons, ih]
  | case7 c rest ordinary ih => rw [ih, List.count_cons_of_ne ordinary]
  | case8 star rest ih => rw [List.count_cons, List.count_cons, ih]
  | case9 star c rest ordinary _ ih => rw [ih, List.count_cons_of_ne ordinary]
  | case10 star c rest ordinary _ ih => rw [ih, List.count_cons_of_ne ordinary]

/-- Without its comments a text has as many line feeds, its characters in the same order, and no comments; the same of
it is inside strings. -/
theorem stripComments_stable (text : Text) :
    (stripComments text).count '\n' = text.count '\n' ∧ (stripComments text).Sublist text ∧
      stripComments (stripComments text) = stripComments text ∧
      keptFrom .code (stripComments text) = keptFrom .code text := by
  have keptAgain : keptFrom .code (stripComments text) = keptFrom .code text :=
    keptFrom_stripCommentsFrom .code text
  refine ⟨count_lineFeed_stripCommentsFrom .code text, stripCommentsFrom_sublist .code text, ?_, keptAgain⟩
  calc stripComments (stripComments text)
      = (keptFrom .code (stripComments text)).map Prod.fst := (map_fst_keptFrom .code _).symm
    _ = (keptFrom .code text).map Prod.fst := by rw [keptAgain]
    _ = stripComments text := map_fst_keptFrom .code text

/-- Neither a slash before a comment nor one after it makes another comment with what it is brought next to. -/
example : stripComments "a / /*b*/ /c \"//d\" /* e\n*/ / f".toList = "a /  /c \"//d\" \n / f".toList := by
  decide

end AddonIndex.ClassConfig
