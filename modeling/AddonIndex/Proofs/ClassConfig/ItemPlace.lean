import AddonIndex.Proofs.ClassConfig.LineNumber
import AddonIndex.Proofs.ClassConfig.LineRole
import AddonIndex.Proofs.ClassConfig.Position
import AddonIndex.Proofs.ClassConfig.StringLiteral

/-!
# An assignment on a line of its own

An item of a config can stand on a line of its own where the line is active and outside of
comments, and where the tokens of the lines before it are complete items, in the whole text or in
a class that is open there. An assignment of a string literal on such a line is read as that, in
every file that is read at all.
-/

namespace AddonIndex.ClassConfig

open Arithmetic Text

variable {tree : FileTree} {includeDirectory file : Path}

theorem endLines_append (first second : List Text) :
    endLines (first ++ second) = endLines first ++ endLines second := List.flatMap_append

theorem isEnded_endLines (lines : List Text) : IsEnded (endLines lines) := by
  rcases List.eq_nil_or_concat lines with rfl | ⟨lines, last, rfl⟩
  · exact .inl rfl
  · rw [List.concat_eq_append, endLines_append, endLines_cons]
    exact .inr (by simp [endLines])

/-- Where the tokens of a text are read as a body, they are derived by a tree that stands for it. -/
theorem exists_derives_of_readBody {lexemes : List Lexeme} {body : Body} (read : readBody lexemes = .ok body) :
    ∃ items : ItemsTree, items.Derives (lexemes.map Lexeme.token) ∧ items.body = body := by
  obtain ⟨⟨found, rest⟩, readAll, rfl⟩ := map_eq_ok_iff.1 read
  obtain ⟨closed, items, consumes, fits, rfl⟩ := readItems_sound (Nat.le_refl _) readAll
  obtain rfl := nextToken_eq_none_iff.1 closed
  exact ⟨items, ⟨consumes_end_iff.1 consumes, fits⟩, rfl⟩

theorem scan_of_readText {text : Text} {body : Body} (read : readText file text = .ok body) :
    ∃ lexemes, scan text = .ok lexemes ∧ readBody lexemes = .ok body := by
  unfold readText at read
  split at read
  · cases read
  · split at read
    · cases read
    · cases read
      exact ⟨_, ‹_›, ‹_›⟩

/-- A place for an item on a line of its own in the text of a file, with what the lines before it
lead to. -/
structure ItemPlace (tree : FileTree) (includeDirectory file : Path) where
  before : Text
  after : Text
  outputs : List Text
  opened : List OpenConditional
  definitions : Definitions
  lexemes : List Lexeme
  position : Position
  /-- A line begins here. -/
  ended : IsEnded before
  /-- Nothing else stands on the line. -/
  stops : ∀ c ∈ after.head?, c = '\n'
  /-- The line is not part of a comment. -/
  outside : CommentMode.code.after before = .code
  /-- The line does not continue the one before it. -/
  uncontinued : EndsUncontinued (strippedLines before)
  /-- The lines before it give these lines of output, conditionals and definitions. -/
  effect : linesEffect tree includeDirectory
    (some (preprocessFile tree includeDirectory (maxInclusionDepth - 1))) file 1 [] {}
    (logicalLines (stripComments before)) = .ok (outputs, opened, definitions)
  active : isActive opened = true
  scanned : scan (endLines outputs) = .ok lexemes
  tokens_eq : lexemes.map Lexeme.token = position.tokens
  complete : ∀ name, position.Fits (.word name)

namespace ItemPlace

variable (place : ItemPlace tree includeDirectory file)

/-- The line is preprocessed to itself, apart from blanks at its end, and no output before it
depends on it. -/
theorem exists_outputs {line : LiteralLine} {outputs : List Text} {definitions : Definitions}
    (noMacro : place.definitions.macros.has line.name = false)
    (read : tree.readText file = .ok (place.before ++ (line.text ++ place.after)))
    (preprocessed : preprocess tree file includeDirectory = .ok (outputs, definitions)) :
    ∃ other : LiteralLine, other.name = line.name ∧ other.content = line.content ∧
      ∃ later, outputs = place.outputs ++ other.text :: later := by
  have stripped : stripComments (place.before ++ (line.text ++ place.after)) =
      stripComments place.before ++ (line.text ++ stripComments place.after) := by
    rw [stripComments, stripCommentsFrom_append _ place.ended, place.outside, line.keepsCode]
    rfl
  have stops : ∀ c ∈ (stripComments place.after).head?, c = '\n' := by
    cases after : place.after with
    | nil => simp [stripComments, stripCommentsFrom]
    | cons c rest =>
        obtain rfl := place.stops c (by rw [after]; rfl)
        simp [stripComments, stripCommentsFrom]
  obtain ⟨other, sameName, sameContent, others, logical⟩ := line.exists_logicalLines
    (isEnded_stripCommentsFrom .code place.ended) place.uncontinued stops
  refine ⟨other, sameName, sameContent, ?_⟩
  have lines : sourceLines tree file =
      .ok (logicalLines (stripComments place.before) ++ other.text :: others) := by
    rw [sourceLines, read]
    exact congrArg Except.ok ((congrArg logicalLines stripped).trans logical)
  have processed : preprocessLines tree includeDirectory
      (some (preprocessFile tree includeDirectory (maxInclusionDepth - 1))) file 1 [] {}
      (logicalLines (stripComments place.before) ++ other.text :: others) =
        .ok (outputs, definitions) := by
    unfold preprocess preprocessFile maxInclusionDepth at preprocessed
    simp only [lines] at preprocessed
    exact preprocessed
  obtain ⟨front, between, middle, back, effect, following, rfl⟩ :=
    preprocessLines_append_eq_ok_iff.1 processed
  cases place.effect.symm.trans effect
  obtain ⟨own, _, _, later, itsEffect, -, rfl⟩ := preprocessLines_cons_eq_ok_iff.1 following
  have expanded : expand place.definitions.macros other.text = other.text :=
    expandPasses_of_not_hasReplaceable (other.hasReplaceable_text (sameName ▸ noMacro))
  have isOwn : own = [other.text] := by
    unfold lineEffect at itsEffect
    rw [other.read_text, place.active] at itsEffect
    simpa [expanded] using (Prod.mk.inj (Except.ok.inj itsEffect)).1.symm
  exact ⟨later, by rw [isOwn]; rfl⟩

/-- A string literal passes through all stages untouched. In a file that is read, a line of its own
that assigns a literal to a name, at a place where an item can stand and where the name is no macro,
is read as the assignment of the string to the name, whatever the string holds. -/
theorem holds_literal {line : LiteralLine} {config : ParsedConfig}
    (notClass : line.name ≠ classKeyword) (notDeletion : line.name ≠ deleteKeyword)
    (noMacro : place.definitions.macros.has line.name = false)
    (read : tree.readText file = .ok (place.before ++ (line.text ++ place.after)))
    (accepted : readConfig tree file includeDirectory = .ok config) :
    place.position.Holds
      { name := line.name, isArray := false, appends := false, value := .string line.content }
      { classes := config.file.classes, assignments := config.file.assignments } := by
  obtain ⟨⟨outputs, definitions⟩, preprocessed, rest⟩ := bind_eq_ok_iff.1 accepted
  obtain ⟨body, readIt, same⟩ := bind_eq_ok_iff.1 rest
  cases same
  obtain ⟨other, sameName, sameContent, later, rfl⟩ :=
    place.exists_outputs noMacro read preprocessed
  obtain ⟨lexemes, scanned, readAll⟩ := scan_of_readText readIt
  -- The tokens are those before the place, then those of the line, then the others.
  obtain ⟨own, next, ownTokens, goesOn⟩ :=
    ((scans_append place.scanned (isEnded_endLines place.outputs) _).trans
      (other.scans (endLines later))) 1
  rw [endLines_append, endLines_cons, scan, goesOn] at scanned
  obtain ⟨following, -, rfl⟩ := map_eq_ok_iff.1 scanned
  obtain ⟨items, ⟨tokens, fits⟩, rfl⟩ := exists_derives_of_readBody readAll
  rw [List.map_append, ownTokens, place.tokens_eq, sameName, sameContent] at tokens
  have literalFits : (ValueTree.run [.string line.content]).Fits false (some .semicolon) :=
    ⟨by simp, by simp [Token.StandsInRun], .inr (.inl rfl)⟩
  have whole : items.tokens ++ [] = place.position.tokens ++ .word line.name ::
      (Mark.plain.tokens ++ ((ValueTree.run [.string line.content]).tokens ++
        .semicolon :: following.map Lexeme.token)) := by
    simpa [Mark.tokens, ValueTree.tokens] using tokens
  exact Position.holds_of_tokens notClass notDeletion literalFits (place.complete line.name)
    (show items.Fits ([] : List Token).head? from fits) (.inl rfl) whole

end ItemPlace

/-- A string with the name of a macro, quotes, the beginnings of comments, and a backslash at its
end. -/
def quotedLine : LiteralLine where
  margin := ['\t']
  name := ['x']
  content := "NAME // \"NAME\" /* # \\".toList
  trail := [' ', '\r']
  isMargin := by decide
  isName := ⟨⟨'x', rfl, by decide⟩, List.all_eq_true.1 rfl⟩
  oneLine := by decide +kernel
  isTrail := by decide

/-- A macro, and a class that contains the line. -/
def quotedConfig : Text :=
  "#define NAME y\nclass Core \x7b\n".toList ++ (quotedLine.text ++ "\n\x7d;\n".toList)

/-- The place of the line: the first one in the class. -/
def quotedPlace : ItemPlace (aloneTree quotedConfig) ⟨[]⟩ aloneFile where
  before := "#define NAME y\nclass Core \x7b\n"
  after := "\n\x7d;\n"
  outputs := [[], "class Core \x7b".toList]
  opened := []
  definitions :=
    { macros := [("NAME".toList, ⟨none, ['y']⟩)], recorded := [("NAME".toList, ['y'])] }
  lexemes := [⟨.word "class".toList, 2⟩, ⟨.word "Core".toList, 2⟩, ⟨.openBrace, 2⟩]
  position := .inside .nil "Core".toList none (.outermost .nil)
  ended := .inr rfl
  stops := by rintro c ⟨⟩; rfl
  outside := rfl
  uncontinued := by rintro line ⟨⟩; rfl
  effect := rfl
  active := rfl
  scanned := by decide +kernel
  tokens_eq := rfl
  complete := fun _ => ⟨trivial, trivial⟩

/-- The string is read as it was meant, in the class. -/
theorem holds_quotedLine :
    ∃ config, readConfig (aloneTree quotedConfig) aloneFile ⟨[]⟩ = .ok config ∧
      quotedPlace.position.Holds
        { name := ['x'], isArray := false, appends := false, value := .string quotedLine.content }
        { classes := config.file.classes, assignments := config.file.assignments } := by
  have preprocessed : preprocess (aloneTree quotedConfig) aloneFile ⟨[]⟩ = .ok
      ([[], "class Core \x7b".toList,
        "\tx = \"NAME // \"\"NAME\"\" /* # \\\"; ".toList, "\x7d;".toList],
        quotedPlace.definitions) := by
    unfold preprocess preprocessFile maxInclusionDepth
    simp only
    rw [sourceLines_alone]
    rfl
  have scans : scan (endLines [[], "class Core \x7b".toList,
      "\tx = \"NAME // \"\"NAME\"\" /* # \\\"; ".toList, "\x7d;".toList]) = .ok
        (quotedPlace.lexemes ++ [⟨.word ['x'], 3⟩, ⟨.equals, 3⟩, ⟨.string quotedLine.content, 3⟩,
          ⟨.semicolon, 3⟩, ⟨.closeBrace, 4⟩, ⟨.semicolon, 4⟩]) := by
    decide +kernel
  have accepted : ∃ config, readConfig (aloneTree quotedConfig) aloneFile ⟨[]⟩ = .ok config := by
    unfold readConfig
    rw [preprocessed]
    simp only [bind, Except.bind]
    unfold readText
    rw [scans]
    exact ⟨{ file := { path := aloneFile
                       classes := [{ name := "Core".toList, base := none, classes := []
                                     assignments := [{ name := ['x'], isArray := false, appends := false
                                                       value := .string quotedLine.content }] }]
                       assignments := [] }
             definitions := [("NAME".toList, ['y'])] }, rfl⟩
  obtain ⟨config, accepted⟩ := accepted
  have read : (aloneTree quotedConfig).readText aloneFile =
      .ok (quotedPlace.before ++ (quotedLine.text ++ quotedPlace.after)) :=
    readText_alone quotedConfig
  exact ⟨config, accepted,
    quotedPlace.holds_literal (by decide) (by decide) (by decide) read accepted⟩

end AddonIndex.ClassConfig
