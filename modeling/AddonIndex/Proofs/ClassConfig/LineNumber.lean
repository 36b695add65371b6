import AddonIndex.Proofs.ClassConfig.Expression
import AddonIndex.Proofs.ClassConfig.OutputLine
import AddonIndex.Proofs.ClassConfig.PhysicalLine
import AddonIndex.Proofs.ClassConfig.Rejection
import AddonIndex.Proofs.ClassConfig.TokenLine

/-!
# The line of an error

A config that includes no file is preprocessed into as many lines as it has. The
scanner counts the lines of that output, so that the line of a rejected token is
the physical line on which its logical line starts.
-/

namespace AddonIndex.ClassConfig

open Text

/-! ## Places in the output -/

theorem endLines_cons (line : Text) (rest : List Text) :
    endLines (line :: rest) = line ++ '\n' :: endLines rest := by
  rw [endLines, List.flatMap_cons, List.append_assoc, List.singleton_append, ← endLines]

/-- A visible character of the output stands in the line that the line feeds before it count. -/
theorem exists_line_of_endLines {lines : List Text} (oneLine : ∀ line ∈ lines, OneLine line)
    {before after : Text} {c : Char} (ordinary : c ≠ '\n')
    (place : endLines lines = before ++ c :: after) :
    ∃ column tail, lines[before.count '\n']? = some (column ++ c :: tail) ∧
      before = endLines (lines.take (before.count '\n')) ++ column ∧
      after = tail ++ '\n' :: endLines (lines.drop (before.count '\n' + 1)) := by
  induction lines generalizing before with
  | nil => cases before <;> cases place
  | cons line rest ih =>
      have unbroken := oneLine line List.mem_cons_self
      rw [endLines_cons] at place
      rcases List.append_eq_append_iff.1 place with ⟨beyond, rfl, following⟩ | ⟨tail, rfl, same⟩
      · cases beyond with
        | nil => exact absurd (List.cons.inj following).1.symm ordinary
        | cons first beyond =>
            obtain ⟨rfl, others⟩ := List.cons.inj following
            obtain ⟨column, tail, there, begins, ends⟩ := ih
              (fun other member => oneLine other (List.mem_cons_of_mem _ member)) others
            have count : (line ++ '\n' :: beyond).count '\n' = beyond.count '\n' + 1 := by
              rw [List.count_append, List.count_eq_zero.2 unbroken, List.count_cons_self, Nat.zero_add]
            refine ⟨column, tail, by rw [count]; exact there, ?_, by rw [count]; exact ends⟩
            rw [count, List.take_succ_cons, endLines_cons, List.append_assoc]
            exact congrArg (line ++ '\n' :: ·) begins
      · cases tail with
        | nil => exact absurd (List.cons.inj same).1 ordinary
        | cons first tail =>
            obtain ⟨rfl, rfl⟩ := List.cons.inj same
            have none : before.count '\n' = 0 :=
              List.count_eq_zero.2 fun found => unbroken (List.mem_append_left _ found)
            rw [none]
            exact ⟨before, tail, rfl, rfl, rfl⟩

/-! ## Offending tokens -/

/-- Whether a text is rejected for a cause at a rest of it that begins on a line: there a string
literal begins that does not end, or the token at which reading the tokens fails, which is the last
one if they end too early. -/
inductive OffendsAt (text : Text) (line : Nat) (rest : Text) : GrammarError → Prop
  | literal {passed : List Lexeme} {after : Text} :
      Passes 1 text passed line rest → rest = '"' :: after → splitString? after = none →
      OffendsAt text line rest .unterminatedString
  | token {passed left : List Lexeme} {token : Token} {last : Nat} {failure : Failure} :
      Passes 1 text passed line rest → Passes line rest (⟨token, line⟩ :: left) last [] →
      readBody (passed ++ ⟨token, line⟩ :: left) = .error failure →
      (failure.rest = ⟨token, line⟩ :: left ∨ failure.rest = [] ∧ left = []) →
      OffendsAt text line rest failure.cause

theorem OffendsAt.passes {text rest : Text} {line : Nat} {cause : GrammarError}
    (offends : OffendsAt text line rest cause) : ∃ passed, Passes 1 text passed line rest := by
  cases offends with
  | literal passes => exact ⟨_, passes⟩
  | token passes => exact ⟨_, passes⟩

/-- A text is only rejected at an offending token, and for the line of that. -/
theorem offendsAt_of_readText_eq_error {path : Path} {text : Text} {e : ConfigError}
    (fails : readText path text = .error e) :
    ∃ line cause c after, e = .grammar path line cause ∧ isBlank c = false ∧
      OffendsAt text line (c :: after) cause := by
  unfold readText at fails
  cases scans : scan text with
  | error line =>
      rw [scans] at fails
      cases fails
      obtain ⟨passed, after, passes, unended⟩ := passes_of_scanFrom_eq_error scans
      exact ⟨line, _, '"', after, rfl, by decide, .literal passes rfl unended⟩
  | ok lexemes =>
      simp only [scans] at fails
      cases reads : readBody lexemes with
      | ok body =>
          rw [reads] at fails
          cases fails
      | error failure =>
          rw [reads] at fails
          cases fails
          obtain ⟨passed, ⟨token, line⟩, left, rfl, offending, reported⟩ :=
            exists_of_readBody_eq_error reads
          obtain ⟨last, passes⟩ := passes_of_scanFrom_eq_ok scans
          obtain ⟨c, after, visible, before, onward⟩ := passes.exists_of_append_cons
          exact ⟨line, _, c, after, by rw [reported], visible,
            .token before onward reads offending⟩

/-! ## Lines of the source -/

/-- The physical lines of a source without comments. -/
def strippedLines (source : Text) : List Text := physicalLines (stripComments source)

/-- The state in which the logical line in the place of a physical one is read. -/
def stateAt (tree : FileTree) (includeDirectory file : Path) (source : Text) (index : Nat) :
    Except ConfigError (List OpenConditional × Definitions) :=
  stateAfter tree includeDirectory file 1 [] {} ((logicalLines (stripComments source)).take index)

/-- Whether an active ordinary logical line starts with the physical line of an index, and gives a
line of output. -/
def Outputs (tree : FileTree) (includeDirectory file : Path) (source : Text) (index : Nat)
    (output : Text) : Prop :=
  isContinuation (strippedLines source) index = false ∧
    ∃ opened definitions, stateAt tree includeDirectory file source index = .ok (opened, definitions) ∧
      isActive opened ∧
      Line.read (joinedLine ((strippedLines source).drop index)) =
        .ordinary (joinedLine ((strippedLines source).drop index)) ∧
      output = expand definitions.macros (joinedLine ((strippedLines source).drop index))

variable {tree : FileTree} {includeDirectory file : Path} {source : Text} {outputs : List Text}
  {definitions : Definitions}

/-- The lines of output of a file that includes no other. -/
theorem inPlace_of_preprocess (read : tree.readText file = .ok source)
    (plain : inclusions tree includeDirectory maxInclusionDepth file {} = [])
    (preprocessed : preprocess tree file includeDirectory = .ok (outputs, definitions)) :
    InPlace tree includeDirectory file 1 [] {} (logicalLines (stripComments source)) outputs ∧
      ∀ output ∈ outputs, OneLine output := by
  have lines : sourceLines tree file = .ok (logicalLines (stripComments source)) := by
    rw [sourceLines, read]
  unfold preprocess preprocessFile maxInclusionDepth at preprocessed
  unfold inclusions maxInclusionDepth at plain
  simp only [lines] at preprocessed plain
  exact inPlace_of_preprocessLines preprocessed plain (List.forall_mem_nil _)
    fun line => lineFeed_not_mem_of_mem_logicalLines

/-- A config that is preprocessed can only fail for its text. -/
theorem readText_of_readConfig_eq_error {e : ConfigError}
    (preprocessed : preprocess tree file includeDirectory = .ok (outputs, definitions))
    (fails : readConfig tree file includeDirectory = .error e) :
    readText file (endLines outputs) = .error e := by
  unfold readConfig at fails
  rw [preprocessed] at fails
  change (readText file (endLines outputs) >>= _) = _ at fails
  cases reads : readText file (endLines outputs) with
  | ok body =>
      rw [reads] at fails
      cases fails
  | error found =>
      rw [reads] at fails
      cases fails
      rfl

/-- A visible character stands in no blank line: it is one of an active ordinary line. -/
theorem outputs_of_visible {index : Nat} {column tail : Text} {c : Char}
    (inPlace : InPlace tree includeDirectory file 1 [] {} (logicalLines (stripComments source)) outputs)
    (there : outputs[index]? = some (column ++ c :: tail)) :
    Outputs tree includeDirectory file source index (column ++ c :: tail) := by
  obtain ⟨length, each⟩ := inPlace
  have inside : index < (logicalLines (stripComments source)).length :=
    length ▸ (List.getElem?_eq_some_iff.1 there).1
  have bound : index < (physicalLines (stripComments source)).length := by
    rwa [logicalLines_eq, length_linesInPlace] at inside
  have logical := getElem?_logicalLines bound
  obtain ⟨opened, definitions, state, output⟩ := each index _ logical
  rw [there, Option.some.injEq] at output
  have nonempty : column ++ c :: tail ≠ [] := by simp
  cases continuation : isContinuation (physicalLines (stripComments source)) index with
  | true =>
      rw [continuation, if_pos rfl, lineOutput_nil] at output
      exact absurd output nonempty
  | false =>
      simp only [continuation, Bool.false_eq_true, if_false] at output
      unfold lineOutput at output
      split at output
      · rename_i text reads
        obtain rfl := (Line.read_subset _).1 text reads
        split at output
        · rename_i active
          exact ⟨continuation, opened, definitions, state, active, reads, output⟩
        · exact absurd output nonempty
      · exact absurd output nonempty

/-- Where no file is included, lines keep their numbers. A source whose last line is ended has one
line of output for each of its lines: none of what a comment leaves moves to another line, a
continuation of an earlier line is blank, and so is a directive and an inactive line, and any other
line is the logical line that starts there, with its macros expanded. An error of the text is
reported for the line of output with the offending token, which is the line on which the logical line
of that token starts. -/
theorem lines_keep_numbers (read : tree.readText file = .ok source) (ended : IsEnded source)
    (plain : inclusions tree includeDirectory maxInclusionDepth file {} = [])
    (preprocessed : preprocess tree file includeDirectory = .ok (outputs, definitions)) :
    (endLines outputs).feedLines = outputs ∧ outputs.length = source.feedLines.length ∧
    List.Forall₂ List.Sublist (stripComments source).feedLines source.feedLines ∧
    (∀ index < outputs.length, ∃ opened before,
      stateAt tree includeDirectory file source index = .ok (opened, before) ∧
      outputs[index]? = some (if isContinuation (strippedLines source) index then []
        else lineOutput opened before (joinedLine ((strippedLines source).drop index)))) ∧
    ∀ e, readConfig tree file includeDirectory = .error e → ∃ index cause column c tail,
      e = .grammar file (index + 1) cause ∧
      outputs[index]? = some (column ++ c :: tail) ∧
      Outputs tree includeDirectory file source index (column ++ c :: tail) ∧
      isBlank c = false ∧
      OffendsAt (endLines outputs) (index + 1)
        (c :: tail ++ '\n' :: endLines (outputs.drop (index + 1))) cause := by
  obtain ⟨inPlace, unbroken⟩ := inPlace_of_preprocess read plain preprocessed
  have comments := forall₂_stripComments ended
  have length : outputs.length = source.feedLines.length := by
    rw [inPlace.1, length_logicalLines, comments.length_eq]
  refine ⟨feedLines_flatMap_lineFeed unbroken, length, comments, fun index inside => ?_,
    fun e fails => ?_⟩
  · have bound : index < (physicalLines (stripComments source)).length := by
      rwa [inPlace.1, logicalLines_eq, length_linesInPlace] at inside
    obtain ⟨opened, before, state, output⟩ := inPlace.2 index _ (getElem?_logicalLines bound)
    refine ⟨opened, before, state, ?_⟩
    rw [output]
    unfold strippedLines
    split
    · rw [lineOutput_nil]
    · rfl
  · obtain ⟨line, cause, c, after, rfl, visible, offends⟩ :=
      offendsAt_of_readText_eq_error (readText_of_readConfig_eq_error preprocessed fails)
    obtain ⟨passed, passes⟩ := offends.passes
    obtain ⟨before, place, rfl⟩ := passes.eq_add_count
    obtain ⟨column, tail, there, -, rfl⟩ :=
      exists_line_of_endLines unbroken (ne_lineFeed_of_isBlank_eq_false visible) place
    rw [Nat.add_comm] at offends
    exact ⟨before.count '\n', cause, column, c, tail, by rw [Nat.add_comm], there,
      outputs_of_visible inPlace there, visible, offends⟩

/-- A name from a macro after a comment that goes over two lines, and a number on a continued line. -/
def continuedConfig : Text := "#define NAME x\n/* two\nlines */ NAME \\\n5;\n"

/-- The third of its lines without the comment, with the macro expanded and the next line joined. -/
def continuedLine : Text := [' ', 'x', ' ', '5', ';']

/-- The number on the continued line is rejected for the line on which its logical line starts. -/
theorem continuedConfig_keeps_numbers :
    ∃ definitions,
      preprocess (aloneTree continuedConfig) aloneFile ⟨[]⟩ =
        .ok ([[], [], continuedLine, []], definitions) ∧
      readConfig (aloneTree continuedConfig) aloneFile ⟨[]⟩ =
        .error (.grammar aloneFile 3 (.expectedEquals ['x'] (some (.number (.ofNat 5))))) ∧
      Outputs (aloneTree continuedConfig) ⟨[]⟩ aloneFile continuedConfig 2 continuedLine := by
  have lines := sourceLines_alone continuedConfig
  have preprocessed : preprocess (aloneTree continuedConfig) aloneFile ⟨[]⟩ = .ok
      ([[], [], continuedLine, []],
        { macros := [("NAME".toList, ⟨none, ['x']⟩)], recorded := [("NAME".toList, ['x'])] }) := by
    unfold preprocess preprocessFile maxInclusionDepth
    simp only
    rw [lines]
    rfl
  have plain : inclusions (aloneTree continuedConfig) ⟨[]⟩ maxInclusionDepth aloneFile {} = [] := by
    unfold inclusions maxInclusionDepth
    simp only
    rw [lines]
    rfl
  have scans : scan (endLines [[], [], continuedLine, []]) =
      .ok [⟨.word ['x'], 3⟩, ⟨.number (.ofNat 5), 3⟩, ⟨.semicolon, 3⟩] := by
    decide +kernel
  have fails : readConfig (aloneTree continuedConfig) aloneFile ⟨[]⟩ =
      .error (.grammar aloneFile 3 (.expectedEquals ['x'] (some (.number (.ofNat 5))))) := by
    unfold readConfig
    rw [preprocessed]
    change (readText aloneFile (endLines [[], [], continuedLine, []]) >>= _) = _
    unfold readText
    rw [scans]
    rfl
  obtain ⟨-, -, -, -, rejected⟩ :=
    lines_keep_numbers (readText_alone continuedConfig) (.inr rfl) plain preprocessed
  obtain ⟨index, cause, column, c, tail, same, there, outputs, -⟩ := rejected _ fails
  obtain ⟨-, number, -⟩ := ConfigError.grammar.inj same
  obtain rfl : index = 2 := (Nat.succ.inj number).symm
  exact ⟨_, preprocessed, fails, Option.some.inj there ▸ outputs⟩

end AddonIndex.ClassConfig
