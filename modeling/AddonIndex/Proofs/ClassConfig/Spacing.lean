import AddonIndex.Proofs.ClassConfig.LineRole
import AddonIndex.Proofs.ClassConfig.OutputLine
import AddonIndex.Proofs.ClassConfig.StringLiteral
import AddonIndex.Proofs.ClassConfig.TokenEnd

/-!
# Lines with a blank more

A blank in a gap of a logical line stays in a gap of its output. A directive is read as the same with
blanks before all that is visible of it and behind it; in between the body of a macro and the name of a
file are taken as they are written. So where every string literal ends on its line, files whose lines
have blanks more in such places are read as the same configs, with the same definitions and failures.
-/

namespace AddonIndex.ClassConfig

open Text

variable {front back line other text rest blanks before after start : Text}

/-! ## Reading a line -/

/-- Whether a text holds nothing but blanks. -/
def IsBlankText (text : Text) : Prop := ∀ c ∈ text, isBlank c = true

instance : DecidablePred IsBlankText := List.decidableBAll _

/-- Whether a logical line is a directive. -/
def IsDirective (line : Text) : Prop := (Text.trimStart line).head? = some '#'

instance (line : Text) : Decidable (IsDirective line) :=
  inferInstanceAs (Decidable ((Text.trimStart line).head? = some '#'))

theorem trimStart_append (text rest : Text) :
    Text.trimStart (text ++ rest) =
      if Text.trimStart text = [] then Text.trimStart rest else Text.trimStart text ++ rest := by
  have whole : Text.trimStart (text ++ rest) =
      if (Text.trimStart text).isEmpty then Text.trimStart rest else Text.trimStart text ++ rest :=
    List.dropWhile_append
  rw [whole]
  simp only [List.isEmpty_iff]

theorem IsBlankText.trimStart_eq (blank : IsBlankText blanks) : Text.trimStart blanks = [] := by
  have whole : Text.trimStart (blanks ++ []) = Text.trimStart [] := List.dropWhile_append_of_pos blank
  rwa [List.append_nil] at whole

theorem IsBlankText.trimStart_append_eq (blank : IsBlankText blanks) (text : Text) :
    Text.trimStart (blanks ++ text) = Text.trimStart text := by
  rw [trimStart_append, blank.trimStart_eq, if_pos rfl]

theorem IsBlankText.trim_append (blank : IsBlankText blanks) (text : Text) :
    Text.trim (text ++ blanks) = Text.trim text := by
  have atEnd (text : Text) : Text.trimEnd (text ++ blanks) = Text.trimEnd text := by
    simp only [Text.trimEnd, Text.dropEndWhile, List.reverse_append]
    rw [List.dropWhile_append_of_pos fun c member => blank c (List.mem_reverse.1 member)]
  rw [Text.trim, Text.trim, trimStart_append]
  split
  · rename_i nothing
    rw [nothing, blank.trimStart_eq]
  · exact atEnd _

/-- Visible characters are split off as before where blanks are put behind a text. -/
theorem IsBlankText.takeWhile_append (blank : IsBlankText blanks) (text : Text) :
    (text ++ blanks).takeWhile (!isBlank ·) = text.takeWhile (!isBlank ·) ∧
      (text ++ blanks).dropWhile (!isBlank ·) = text.dropWhile (!isBlank ·) ++ blanks := by
  have none : blanks.takeWhile (!isBlank ·) = [] ∧ blanks.dropWhile (!isBlank ·) = blanks := by
    cases blanks with
    | nil => exact ⟨rfl, rfl⟩
    | cons c blanks => simp [blank c List.mem_cons_self]
  induction text with
  | nil => exact none
  | cons c text ih =>
      cases visible : isBlank c <;> simp [visible, ih.1, ih.2]

/-- How a directive is read. -/
def Directive.ofBody (body : Text) : Directive :=
  .ofKeyword (body.takeWhile (!isBlank ·)) (Text.trim (body.dropWhile (!isBlank ·)))

theorem Line.read_of_trimStart (trimmed : Text.trimStart line = '#' :: rest) :
    Line.read line = .directive (.ofBody (Text.trimStart rest)) := by
  simp only [Line.read, trimmed, Directive.ofBody]

theorem IsDirective.exists_cons (directive : IsDirective line) :
    ∃ rest, Text.trimStart line = '#' :: rest :=
  List.head?_eq_some_iff.1 directive

theorem Line.read_of_not_isDirective (plain : ¬ IsDirective line) : Line.read line = .ordinary line := by
  unfold Line.read
  split
  · rename_i rest trimmed
    exact absurd (congrArg List.head? trimmed) plain
  · rfl

theorem Line.isDirective_of_read {directive : Directive} (reads : Line.read line = .directive directive) :
    IsDirective line := by
  by_contra plain
  rw [Line.read_of_not_isDirective plain] at reads
  cases reads

theorem Directive.ofBody_append_blanks (blank : IsBlankText blanks) (body : Text) :
    Directive.ofBody (body ++ blanks) = Directive.ofBody body := by
  obtain ⟨takes, drops⟩ := blank.takeWhile_append body
  rw [Directive.ofBody, Directive.ofBody, takes, drops, blank.trim_append]

/-- A directive is read as the same with blanks at its end. -/
theorem Line.read_append_blanks (directive : IsDirective line) (blank : IsBlankText blanks) :
    Line.read (line ++ blanks) = Line.read line := by
  obtain ⟨rest, trimmed⟩ := directive.exists_cons
  have trimmedMore : Text.trimStart (line ++ blanks) = '#' :: (rest ++ blanks) := by
    rw [trimStart_append, trimmed, if_neg (by simp), List.cons_append]
  rw [Line.read_of_trimStart trimmed, Line.read_of_trimStart trimmedMore, trimStart_append]
  split
  · rename_i nothing
    rw [nothing, blank.trimStart_eq]
  · rw [Directive.ofBody_append_blanks blank]

theorem isDirective_append_blank_iff :
    IsDirective (front ++ ' ' :: back) ↔ IsDirective (front ++ back) := by
  rw [IsDirective, IsDirective, trimStart_append, trimStart_append]
  cases Text.trimStart front with
  | nil => rfl
  | cons c rest => rfl

/-- Whether a blank between two parts of a logical line makes no difference: it is in a gap, and in a
directive before all that is visible or behind it. -/
structure SparesBlank (front back : Text) : Prop where
  gap : IsGap front back
  margin : IsDirective (front ++ back) → IsBlankText front ∨ IsBlankText back

/-- Whether a logical line is the same as another one up to a blank in a gap, and as a directive the
same. -/
structure ReadsAlike (line other : Text) : Prop where
  spaces : SpacesOut line other
  isDirective_iff : IsDirective other ↔ IsDirective line
  directive : IsDirective line → Line.read other = Line.read line

theorem readsAlike_self (closed : Even (line.count '"')) : ReadsAlike line line :=
  ⟨.refl closed, Iff.rfl, fun _ => rfl⟩

theorem SparesBlank.readsAlike (spares : SparesBlank front back)
    (closed : Even ((front ++ back).count '"')) : ReadsAlike (front ++ back) (front ++ ' ' :: back) where
  spaces := by
    rw [List.count_append, Nat.even_add] at closed
    exact .blank spares.gap (closed.1 spares.gap.closed)
  isDirective_iff := isDirective_append_blank_iff
  directive isDirective := by
    rcases spares.margin isDirective with blank | blank
    · have same : Text.trimStart (front ++ ' ' :: back) = Text.trimStart (front ++ back) := by
        rw [blank.trimStart_append_eq, blank.trimStart_append_eq]
        rfl
      obtain ⟨rest, trimmed⟩ := isDirective.exists_cons
      rw [Line.read_of_trimStart trimmed, Line.read_of_trimStart (same.trans trimmed)]
    · have isFront : IsDirective front := by
        rw [IsDirective, trimStart_append] at isDirective
        split at isDirective
        · rw [blank.trimStart_eq] at isDirective
          cases isDirective
        · rename_i visible
          rwa [List.head?_append_of_ne_nil _ visible] at isDirective
      have spaced : IsBlankText (' ' :: back) := List.forall_mem_cons.2 ⟨by decide, blank⟩
      rw [Line.read_append_blanks isFront spaced, Line.read_append_blanks isFront blank]

/-! ## Macros that are defined -/

theorem count_quote_dropWhile {p : Char → Bool} (noQuote : p '"' = false) (text : Text) :
    (text.dropWhile p).count '"' = text.count '"' := by
  induction text with
  | nil => rfl
  | cons c text ih =>
      by_cases dropped : p c = true
      · have other : c ≠ '"' := by
          rintro rfl
          rw [noQuote] at dropped
          cases dropped
        rw [List.dropWhile_cons_of_pos dropped, ih, List.count_cons_of_ne other]
      · rw [List.dropWhile_cons_of_neg dropped]

theorem count_quote_trimStart (text : Text) : (Text.trimStart text).count '"' = text.count '"' :=
  count_quote_dropWhile (by decide) text

theorem count_quote_trim (text : Text) : (Text.trim text).count '"' = text.count '"' := by
  rw [Text.trim, Text.trimEnd, Text.dropEndWhile, List.count_reverse, count_quote_dropWhile (by decide),
    List.count_reverse, count_quote_trimStart]

theorem Directive.eq_of_ofKeyword_eq_define {keyword given argument : Text}
    (same : Directive.ofKeyword keyword given = .define argument) :
    keyword = "define".toList ∧ given = argument := by
  unfold Directive.ofKeyword at same
  split_ifs at same with isDefine
  exact ⟨isDefine, Directive.define.inj same⟩

/-- The argument of a definition has all quotes of its line. -/
theorem count_quote_of_define {argument : Text} (reads : Line.read line = .directive (.define argument)) :
    argument.count '"' = line.count '"' := by
  obtain ⟨rest, trimmed⟩ := (Line.isDirective_of_read reads).exists_cons
  rw [Line.read_of_trimStart trimmed] at reads
  obtain ⟨keyword, rfl⟩ := Directive.eq_of_ofKeyword_eq_define (Line.directive.inj reads)
  have inLine : line.count '"' = rest.count '"' := by
    rw [← count_quote_trimStart line, trimmed, List.count_cons_of_ne (by decide)]
  have noQuote : "define".toList.count '"' = 0 := by decide
  have inBody := congrArg (List.count '"')
    (List.takeWhile_append_dropWhile (p := (!isBlank ·)) (l := Text.trimStart rest))
  rw [List.count_append, keyword, noQuote, Nat.zero_add, count_quote_trimStart] at inBody
  rw [count_quote_trim, inLine, inBody]

theorem eq_of_splitParameters {body : Text} (split : splitParameters text = (none, body)) :
    body = text := by
  unfold splitParameters at split
  repeat' split at split
  all_goals first | cases split; rfl | cases split

/-- The body of an object-like macro has all quotes of the argument. -/
theorem count_quote_of_read? {argument : Text} {definition : Definition}
    (defines : Definition.read? argument = some definition) (objectLike : definition.parameters = none) :
    definition.body.count '"' = argument.count '"' := by
  unfold Definition.read? at defines
  split at defines
  · split at defines
    · rename_i first rest _
      generalize parts : splitParameters ((first :: rest).dropWhile isIdentifierChar) = split at defines
      obtain ⟨parameters, body⟩ := split
      cases defines
      obtain rfl : parameters = none := objectLike
      rw [count_quote_trim, eq_of_splitParameters parts, count_quote_dropWhile (by decide)]
    · cases defines
  · cases defines

theorem ClosesBodies.define {definitions : Definitions} {definition : Definition}
    (closes : ClosesBodies definitions.macros)
    (closed : definition.parameters = none → Even (definition.body.count '"')) :
    ClosesBodies (definitions.define definition).macros := by
  intro item member
  rcases mem_of_mem_insert member with rfl | before
  · exact closed
  · exact closes item before

theorem ClosesBodies.undefine {definitions : Definitions} (closes : ClosesBodies definitions.macros)
    (name : Text) : ClosesBodies (definitions.undefine name).macros :=
  fun item member => closes item (List.mem_filter.1 member).1

/-! ## What lines do -/

/-- Whether two results are the same failure, or the same up to blanks in gaps of the output, with no
string literal open in the body of a macro afterwards. -/
inductive Resembles {σ : Type} (macrosOf : σ → MacroTable) :
    Except ConfigError (List Text × σ) → Except ConfigError (List Text × σ) → Prop
  | error (failure : ConfigError) : Resembles macrosOf (.error failure) (.error failure)
  | ok {outputs others : List Text} {after : σ} (spaces : List.Forall₂ SpacesOut outputs others)
      (closes : ClosesBodies (macrosOf after)) :
      Resembles macrosOf (.ok (outputs, after)) (.ok (others, after))

/-- Whether some files are included alike where no string literal is open in the body of a macro. -/
def IncludesAlike (sources : Path → Prop) (first second : Includer) : Prop :=
  ∀ target definitions, sources target → ClosesBodies definitions.macros →
    Resembles Definitions.macros (first target definitions) (second target definitions)

/-- Whether a line of a file includes none but some files, if it is an inclusion. -/
def LeadsTo (sources : Path → Prop) (tree : FileTree) (includeDirectory file : Path) (line : Text) : Prop :=
  ∀ argument name target, Line.read line = .directive (.inclusion argument) →
    readInclusion? argument = some name →
    resolveInclusion tree file includeDirectory name = some target → sources target

theorem exists_of_mem_forall₂ {α β : Type} {related : α → β → Prop} {firsts : List α} {seconds : List β}
    {second : β} (each : List.Forall₂ related firsts seconds) (member : second ∈ seconds) :
    ∃ first ∈ firsts, related first second := by
  induction each with
  | nil => cases member
  | cons here _ ih =>
      rcases List.mem_cons.1 member with rfl | later
      · exact ⟨_, List.mem_cons_self, here⟩
      · obtain ⟨first, inFirsts, there⟩ := ih later
        exact ⟨first, List.mem_cons_of_mem _ inFirsts, there⟩

theorem forall₂_blank : List.Forall₂ SpacesOut [[]] [[]] := .cons (.refl (by decide)) .nil

section Lines

variable {tree otherTree : FileTree} {includeDirectory file : Path} {sources : Path → Prop}
  {first second : Option Includer} {number : Nat} {opened : List OpenConditional} {definitions : Definitions}

/-- An inclusion does the same in both trees if files are included alike. -/
theorem resembles_inclusion {argument : Text}
    (sameFiles : ∀ path, otherTree.isFile path = tree.isFile path)
    (includes : Option.Rel (IncludesAlike sources) first second)
    (closes : ClosesBodies definitions.macros) (leads : LeadsTo sources tree includeDirectory file line)
    (reads : Line.read line = .directive (.inclusion argument))
    (sameReads : Line.read other = .directive (.inclusion argument)) :
    Resembles (fun after : List OpenConditional × Definitions => after.2.macros)
      (lineEffect tree includeDirectory first file number opened definitions line)
      (lineEffect otherTree includeDirectory second file number opened definitions other) := by
  have resolves (name : Text) : resolveInclusion otherTree file includeDirectory name =
      resolveInclusion tree file includeDirectory name := by
    rw [resolveInclusion, resolveInclusion, funext sameFiles]
  unfold lineEffect
  simp only [reads, sameReads, resolves]
  split
  · cases named : readInclusion? argument with
    | none => exact .error _
    | some name =>
        simp only
        cases includes with
        | none => exact .error _
        | @some first second alike =>
            simp only
            cases resolved : resolveInclusion tree file includeDirectory name with
            | none => exact .error _
            | some target =>
                have result := alike target definitions (leads _ _ _ reads named resolved) closes
                simp only
                generalize first target definitions = inner at result
                generalize second target definitions = otherInner at result
                cases result with
                | error failure => exact .error failure
                | @ok outputs others _ spaces closes =>
                    have whole : List.Forall₂ SpacesOut (outputs ++ [[]]) (others ++ [[]]) :=
                      List.rel_append spaces forall₂_blank
                    exact .ok whole closes
  · exact .ok forall₂_blank closes

/-- Logical lines that are read alike do the same up to blanks in gaps. -/
theorem ReadsAlike.resembles (alike : ReadsAlike line other)
    (sameFiles : ∀ path, otherTree.isFile path = tree.isFile path)
    (includes : Option.Rel (IncludesAlike sources) first second)
    (closes : ClosesBodies definitions.macros) (leads : LeadsTo sources tree includeDirectory file line) :
    Resembles (fun after : List OpenConditional × Definitions => after.2.macros)
      (lineEffect tree includeDirectory first file number opened definitions line)
      (lineEffect otherTree includeDirectory second file number opened definitions other) := by
  by_cases isDirective : IsDirective line
  · have sameReads := alike.directive isDirective
    obtain ⟨rest, trimmed⟩ := isDirective.exists_cons
    have reads := Line.read_of_trimStart trimmed
    generalize Directive.ofBody (Text.trimStart rest) = directive at reads
    rw [reads] at sameReads
    cases directive with
    | inclusion argument => exact resembles_inclusion sameFiles includes closes leads reads sameReads
    | define argument =>
        unfold lineEffect
        simp only [reads, sameReads]
        split
        · cases defines : Definition.read? argument with
          | none => exact .error _
          | some definition =>
              refine .ok forall₂_blank (closes.define fun objectLike => ?_)
              rw [count_quote_of_read? defines objectLike, count_quote_of_define reads]
              exact alike.spaces.closed
        · exact .ok forall₂_blank closes
    | undefine name =>
        unfold lineEffect
        simp only [reads, sameReads]
        refine .ok forall₂_blank ?_
        split
        · exact closes.undefine name
        · exact closes
    | otherwise =>
        unfold lineEffect
        simp only [reads, sameReads]
        cases opened with
        | nil => exact .error _
        | cons innermost outer =>
            simp only
            split
            · exact .error _
            · exact .ok forall₂_blank closes
    | endIf =>
        unfold lineEffect
        simp only [reads, sameReads]
        cases opened with
        | nil => exact .error _
        | cons innermost outer => exact .ok forall₂_blank closes
    | _ =>
        unfold lineEffect
        simp only [reads, sameReads]
        exact .ok forall₂_blank closes
  · unfold lineEffect
    simp only [Line.read_of_not_isDirective isDirective,
      Line.read_of_not_isDirective (mt alike.isDirective_iff.1 isDirective)]
    refine .ok (.cons ?_ .nil) closes
    split
    · exact alike.spaces.expandPasses closes _
    · exact .refl (by decide)

/-- Lines that are read alike are preprocessed alike. -/
theorem preprocessLines_resembles {lines others : List Text}
    (alike : List.Forall₂ ReadsAlike lines others)
    (sameFiles : ∀ path, otherTree.isFile path = tree.isFile path)
    (includes : Option.Rel (IncludesAlike sources) first second)
    (closes : ClosesBodies definitions.macros)
    (leads : ∀ line ∈ lines, LeadsTo sources tree includeDirectory file line) :
    Resembles Definitions.macros
      (preprocessLines tree includeDirectory first file number opened definitions lines)
      (preprocessLines otherTree includeDirectory second file number opened definitions others) := by
  induction alike generalizing number opened definitions with
  | nil =>
      unfold preprocessLines
      split
      · exact .ok .nil closes
      · exact .error _
  | @cons line other lines others lineAlike _ ih =>
      have effects : Resembles (fun after : List OpenConditional × Definitions => after.2.macros)
          (lineEffect tree includeDirectory first file number opened definitions line)
          (lineEffect otherTree includeDirectory second file number opened definitions other) :=
        lineAlike.resembles sameFiles includes closes (leads line List.mem_cons_self)
      rw [preprocessLines_cons, preprocessLines_cons]
      -- What the line does goes into the rest only as far as the results resemble each other.
      generalize lineEffect tree includeDirectory first file number opened definitions line = effect at effects
      generalize lineEffect otherTree includeDirectory second file number opened definitions other =
        otherEffect at effects
      cases effects with
      | error failure => exact .error failure
      | @ok output otherOutput after spaces closes =>
          obtain ⟨openedAfter, definitionsAfter⟩ := after
          have rested : Resembles Definitions.macros
              (preprocessLines tree includeDirectory first file (number + 1) openedAfter definitionsAfter lines)
              (preprocessLines otherTree includeDirectory second file (number + 1) openedAfter definitionsAfter
                others) :=
            ih closes fun later member => leads later (List.mem_cons_of_mem _ member)
          simp only [ok_bind]
          generalize preprocessLines tree includeDirectory first file (number + 1) openedAfter
            definitionsAfter lines = result at rested
          generalize preprocessLines otherTree includeDirectory second file (number + 1) openedAfter
            definitionsAfter others = otherResult at rested
          cases rested with
          | error failure => exact .error failure
          | @ok outputs otherOutputs _ otherSpaces closes =>
              have whole : List.Forall₂ SpacesOut (output ++ outputs) (otherOutput ++ otherOutputs) :=
                List.rel_append spaces otherSpaces
              exact .ok whole closes

end Lines

/-! ## Files whose lines are read alike -/

/-- The files that a config is read from: its own file, and those that inclusions in these lead to,
carried out or not. -/
inductive IsSource (tree : FileTree) (includeDirectory file : Path) : Path → Prop
  | self : IsSource tree includeDirectory file file
  | included {source target : Path} {lines : List Text} {line argument name : Text}
      (isSource : IsSource tree includeDirectory file source)
      (read : sourceLines tree source = .ok lines) (member : line ∈ lines)
      (reads : Line.read line = .directive (.inclusion argument))
      (named : readInclusion? argument = some name)
      (resolved : resolveInclusion tree source includeDirectory name = some target) :
      IsSource tree includeDirectory file target

/-- Whether the same paths lead to files in two trees, and the logical lines of those are read alike that
a config is read from. -/
structure AlikeSources (includeDirectory file : Path) (tree other : FileTree) : Prop where
  isFile : ∀ path, other.isFile path = tree.isFile path
  sourceLines : ∀ source, IsSource tree includeDirectory file source →
    (∃ failure, sourceLines tree source = .error failure ∧ sourceLines other source = .error failure) ∨
      ∃ lines others, sourceLines tree source = .ok lines ∧ sourceLines other source = .ok others ∧
        List.Forall₂ ReadsAlike lines others

namespace AlikeSources

variable {tree other : FileTree} {includeDirectory file source : Path} {definitions : Definitions}

theorem preprocessLines_resembles (alike : AlikeSources includeDirectory file tree other)
    {first second : Option Includer}
    (includes : Option.Rel (IncludesAlike (IsSource tree includeDirectory file)) first second)
    (isSource : IsSource tree includeDirectory file source) (closes : ClosesBodies definitions.macros) :
    Resembles Definitions.macros
      (ClassConfig.sourceLines tree source >>=
        preprocessLines tree includeDirectory first source 1 [] definitions)
      (ClassConfig.sourceLines other source >>=
        preprocessLines other includeDirectory second source 1 [] definitions) := by
  rcases alike.sourceLines source isSource with
    ⟨failure, there, otherThere⟩ | ⟨lines, others, there, otherThere, lineAlike⟩
  · rw [there, otherThere]
    exact .error failure
  · rw [there, otherThere]
    refine ClassConfig.preprocessLines_resembles lineAlike alike.isFile includes closes ?_
    exact fun line member argument name target reads named resolved =>
      .included isSource there member reads named resolved

/-- A file is preprocessed alike in both trees. -/
theorem preprocessFile_resembles (alike : AlikeSources includeDirectory file tree other) (depth : Nat) :
    IncludesAlike (IsSource tree includeDirectory file) (preprocessFile tree includeDirectory depth)
      (preprocessFile other includeDirectory depth) := by
  induction depth with
  | zero => exact fun source definitions => alike.preprocessLines_resembles .none
  | succ depth ih => exact fun source definitions => alike.preprocessLines_resembles (.some ih)

/-- A config is read as the same from both trees. -/
theorem readConfig_eq (alike : AlikeSources includeDirectory file tree other) :
    readConfig other file includeDirectory = readConfig tree file includeDirectory := by
  have result : Resembles Definitions.macros (preprocess tree file includeDirectory)
      (preprocess other file includeDirectory) :=
    alike.preprocessFile_resembles maxInclusionDepth file {} .self (List.forall_mem_nil _)
  rw [readConfig, readConfig]
  generalize preprocess tree file includeDirectory = preprocessed at result
  generalize preprocess other file includeDirectory = otherPreprocessed at result
  cases result with
  | error failure => rfl
  | ok spaces closes => simp only [ok_bind, readText_endLines_eq spaces]

/-- Each line of a file in the other tree is read as a line of the file. -/
theorem exists_readsAlike (alike : AlikeSources includeDirectory file tree other)
    (isSource : IsSource tree includeDirectory file source) {others : List Text}
    (read : ClassConfig.sourceLines other source = .ok others) (member : line ∈ others) :
    ∃ lines plain, ClassConfig.sourceLines tree source = .ok lines ∧ plain ∈ lines ∧
      ReadsAlike plain line := by
  rcases alike.sourceLines source isSource with
    ⟨failure, -, otherThere⟩ | ⟨lines, _, there, otherThere, lineAlike⟩
  · cases otherThere.symm.trans read
  · cases otherThere.symm.trans read
    obtain ⟨plain, inLines, readsAlike⟩ := exists_of_mem_forall₂ lineAlike member
    exact ⟨lines, plain, there, inLines, readsAlike⟩

/-- A config is read from the same files in both trees. -/
theorem isSource (alike : AlikeSources includeDirectory file tree other)
    (isSource : IsSource other includeDirectory file source) : IsSource tree includeDirectory file source := by
  induction isSource with
  | self => exact .self
  | @included source target lines line argument name _ read member reads named resolved ih =>
      obtain ⟨plainLines, plain, there, plainMember, lineAlike⟩ := alike.exists_readsAlike ih read member
      have sameReads := lineAlike.directive (lineAlike.isDirective_iff.1 (Line.isDirective_of_read reads))
      rw [resolveInclusion, funext alike.isFile] at resolved
      exact .included ih there plainMember (sameReads.symm.trans reads) named resolved

end AlikeSources

/-! ## The logical line at a place in a text -/

theorem dropEnding?_concat (text : Text) (c last : Char) :
    Text.dropEnding? [last] (text ++ [c]) = if c = last then some text else none := by
  by_cases same : c = last <;> simp [Text.dropEnding?, dropLead?, same, eq_comm]

/-- A text behind another one that does not end in a backslash is continued as it would be alone. -/
theorem dropEnding?_append (apart : start.getLast? ≠ some '\\') (text : Text) :
    Text.dropEnding? ['\\'] (start ++ text) = (Text.dropEnding? ['\\'] text).map (start ++ ·) := by
  rcases List.eq_nil_or_concat text with rfl | ⟨text, c, rfl⟩
  · rcases List.eq_nil_or_concat start with rfl | ⟨start, c, rfl⟩
    · rfl
    · have other : c ≠ '\\' := by simpa using apart
      rw [List.append_nil, List.concat_eq_append, dropEnding?_concat, if_neg other]
      rfl
  · rw [List.concat_eq_append, ← List.append_assoc, dropEnding?_concat, dropEnding?_concat]
    split <;> rfl

/-- Behind a text that does not end in a carriage return the same ones are dropped. -/
theorem dropEndWhile_append (apart : start.getLast? ≠ some '\r') (text : Text) :
    Text.dropEndWhile (· == '\r') (start ++ text) = start ++ Text.dropEndWhile (· == '\r') text := by
  rcases List.eq_nil_or_concat start with rfl | ⟨start, c, rfl⟩
  · rfl
  · have other : (c == '\r') = false := beq_false_of_ne (by simpa using apart)
    simpa using dropEndWhile_append_cons (p := (· == '\r')) other start text

/-- What is pending behind some physical lines, where something was pending before them. -/
def pendingAfter (pending : Text) : List Text → Text
  | [] => pending
  | line :: rest =>
      match Text.dropEnding? ['\\'] line with
      | some head => pendingAfter (pending ++ head) rest
      | none => pendingAfter [] rest

theorem exists_joinContinued_append (pending : Text) (joined : Nat) (lines : List Text) :
    ∃ done left, ∀ others, joinContinued pending joined (lines ++ others) =
      done ++ joinContinued (pendingAfter pending lines) left others := by
  induction lines generalizing pending joined with
  | nil => exact ⟨[], joined, fun others => rfl⟩
  | cons line lines ih =>
      cases continued : Text.dropEnding? ['\\'] line with
      | some head =>
          obtain ⟨done, left, later⟩ := ih (pending ++ head) (joined + 1)
          exact ⟨done, left, fun others => by simp [joinContinued, pendingAfter, continued, later]⟩
      | none =>
          obtain ⟨done, left, later⟩ := ih [] 0
          exact ⟨(pending ++ line) :: (List.replicate joined [] ++ done), left,
            fun others => by simp [joinContinued, pendingAfter, continued, later]⟩

/-- The logical line at the beginning of some physical lines goes on behind what is pending. -/
theorem exists_joinContinued_eq (pending : Text) (joined : Nat) (first : Text) (others : List Text) :
    ∃ more, ∀ start : Text, start.getLast? ≠ some '\\' →
      joinContinued pending joined ((start ++ first) :: others) =
        (pending ++ (start ++ joinedLine (first :: others))) :: more := by
  cases continued : Text.dropEnding? ['\\'] first with
  | some head =>
      refine ⟨List.replicate joined [] ++ linesInPlace true others, fun start apart => ?_⟩
      simp [joinContinued, joinedLine, dropEnding?_append apart, continued, (joinContinued_eq _ _ others).1]
  | none =>
      refine ⟨List.replicate joined [] ++ joinContinued [] 0 others, fun start apart => ?_⟩
      simp [joinContinued, joinedLine, dropEnding?_append apart, continued]

theorem feedLines_append_of_eq_cons {first : Text} {others : List Text}
    (lines : feedLines rest = first :: others) (oneLine : '\n' ∉ start) :
    feedLines (start ++ rest) = (start ++ first) :: others := by
  induction start with
  | nil => exact lines
  | cons c start ih =>
      rw [List.cons_append, feedLines_cons (List.ne_of_not_mem_cons oneLine).symm,
        ih (List.not_mem_of_not_mem_cons oneLine)]
      rfl

/-- A text without line feeds stands before the first line of the rest. -/
theorem exists_feedLines_append (rest : Text) :
    ∃ first others, joinedLine (physicalLines rest) =
        joinedLine ((first :: others).map (Text.dropEndWhile (· == '\r'))) ∧
      ∀ start : Text, '\n' ∉ start → (rest = [] → start ≠ []) →
        feedLines (start ++ rest) = (start ++ first) :: others := by
  cases lines : feedLines rest with
  | nil =>
      obtain rfl := feedLines_eq_nil_iff.1 lines
      refine ⟨[], [], by decide, fun start oneLine nonempty => ?_⟩
      simpa using feedLines_eq_singleton oneLine (nonempty rfl)
  | cons first others =>
      exact ⟨first, others, by rw [physicalLines, lines],
        fun start oneLine _ => feedLines_append_of_eq_cons lines oneLine⟩

/-- The logical line at a place between two parts of a text goes from what is pending there over the
beginning of its own line to the rest of it, and nothing else depends on the beginning. -/
theorem exists_logicalLines_place (ended : IsEnded before) (rest : Text) :
    ∃ lines more, ∀ start : Text, '\n' ∉ start → start.getLast? ≠ some '\\' → start.getLast? ≠ some '\r' →
      (rest = [] → start ≠ []) →
      logicalLines (before ++ (start ++ rest)) = lines ++
        (pendingAfter [] (physicalLines before) ++ (start ++ joinedLine (physicalLines rest))) :: more := by
  obtain ⟨first, others, joins, divides⟩ := exists_feedLines_append rest
  obtain ⟨lines, joined, joinsLater⟩ := exists_joinContinued_append [] 0 (physicalLines before)
  obtain ⟨more, joinsOn⟩ := exists_joinContinued_eq (pendingAfter [] (physicalLines before)) joined
    (Text.dropEndWhile (· == '\r') first) (others.map (Text.dropEndWhile (· == '\r')))
  refine ⟨lines, more, fun start oneLine noBackslash noReturn nonempty => ?_⟩
  have physical : physicalLines (start ++ rest) =
      (start ++ Text.dropEndWhile (· == '\r') first) :: others.map (Text.dropEndWhile (· == '\r')) := by
    rw [physicalLines, divides start oneLine nonempty, List.map_cons, dropEndWhile_append noReturn]
  rw [logicalLines, physicalLines_append ended, joinsLater, physical, joinsOn start noBackslash, joins,
    List.map_cons]

/-- What stands behind the last line feed of a text. -/
def lineStart (text : Text) : Text := (text.reverse.takeWhile (· ≠ '\n')).reverse

/-- What stands on the last logical line of a text. -/
def lineFront (text : Text) : Text :=
  pendingAfter [] (physicalLines (Text.dropEndWhile (· ≠ '\n') text)) ++ lineStart text

/-- What stands on the first logical line of a text. -/
def lineBack (text : Text) : Text := joinedLine (physicalLines text)

theorem dropEndWhile_append_lineStart (text : Text) :
    Text.dropEndWhile (· ≠ '\n') text ++ lineStart text = text := by
  rw [Text.dropEndWhile, lineStart, ← List.reverse_append, List.takeWhile_append_dropWhile,
    List.reverse_reverse]

theorem lineFeed_notMem_lineStart (text : Text) : '\n' ∉ lineStart text := by
  intro member
  have ordinary := List.all_eq_true.1 List.all_takeWhile _ (List.mem_reverse.1 member)
  simp at ordinary

theorem isEnded_dropEndWhile (text : Text) : IsEnded (Text.dropEndWhile (· ≠ '\n') text) := by
  rw [Text.dropEndWhile, IsEnded, List.getLast?_reverse, List.reverse_eq_nil_iff]
  have stops := List.head?_dropWhile_not (· ≠ '\n') text.reverse
  cases dropped : text.reverse.dropWhile (· ≠ '\n') with
  | nil => exact .inl rfl
  | cons c rest =>
      rw [dropped] at stops
      exact .inr (by simpa using stops)

/-- Whether a blank between two parts of a text is nothing but a blank more in a gap of one logical line:
it neither makes a new line nor follows a backslash that may be at the end of its line. -/
structure TakesBlank (before after : Text) : Prop where
  inLine : after = [] → lineStart before ≠ []
  noBackslash : before.getLast? ≠ some '\\'
  noReturn : before.getLast? ≠ some '\r'
  spares : SparesBlank (lineFront before) (lineBack after)

theorem TakesBlank.exists_logicalLines {before after : Text} (takes : TakesBlank before after) :
    ∃ lines more, logicalLines (before ++ after) = lines ++ (lineFront before ++ lineBack after) :: more ∧
      logicalLines (before ++ ' ' :: after) =
        lines ++ (lineFront before ++ ' ' :: lineBack after) :: more := by
  obtain ⟨lines, more, each⟩ :=
    exists_logicalLines_place (isEnded_dropEndWhile before) after
  have noLast {c : Char} (noLast : before.getLast? ≠ some c) : (lineStart before).getLast? ≠ some c := by
    intro last
    apply noLast
    rw [← dropEndWhile_append_lineStart before, List.getLast?_append, last]
    rfl
  have plain := each (lineStart before) (lineFeed_notMem_lineStart before) (noLast takes.noBackslash)
    (noLast takes.noReturn) takes.inLine
  have spaced := each (lineStart before ++ [' ']) (by simp [lineFeed_notMem_lineStart]) (by simp) (by simp)
    (by simp)
  refine ⟨lines, more, ?_, ?_⟩
  · rw [← List.append_assoc, dropEndWhile_append_lineStart] at plain
    rw [plain, lineFront, lineBack, List.append_assoc]
  · rw [← List.append_assoc, ← List.append_assoc, dropEndWhile_append_lineStart] at spaced
    simpa [lineFront, lineBack] using spaced

/-- Then the logical lines are read alike, if no string literal goes over the end of one. -/
theorem TakesBlank.forall₂_readsAlike {before after : Text} (takes : TakesBlank before after)
    (closed : ∀ line ∈ logicalLines (before ++ after), Even (line.count '"')) :
    List.Forall₂ ReadsAlike (logicalLines (before ++ after)) (logicalLines (before ++ ' ' :: after)) := by
  obtain ⟨lines, more, plain, spaced⟩ := takes.exists_logicalLines
  rw [plain] at closed
  rw [plain, spaced]
  have same {others : List Text} (closed : ∀ line ∈ others, Even (line.count '"')) :
      List.Forall₂ ReadsAlike others others :=
    List.forall₂_same.2 fun line member => readsAlike_self (closed line member)
  obtain ⟨closedLines, closed⟩ := List.forall_mem_append.1 closed
  rcases List.forall_mem_cons.1 closed with ⟨closedLine, closedMore⟩
  exact List.rel_append (same closedLines) (.cons (takes.spares.readsAlike closedLine) (same closedMore))

end AddonIndex.ClassConfig
