import AddonIndex.Proofs.ClassConfig.Inclusion
import Mathlib.Tactic.SplitIfs

/-!
# One line of output for each logical line

Where no file is included, each logical line gives one line of output, which the
open conditionals and the macros before it determine. Macros are defined and
expanded within single lines, so that no line of output is broken into several.
-/

namespace AddonIndex.ClassConfig

/-! ## Texts of one line -/

/-- Whether a text has no line feed in it. -/
abbrev OneLine (text : Text) : Prop := '\n' ∉ text

theorem OneLine.of_subset {text part : Text} (oneLine : OneLine text) (subset : part ⊆ text) :
    OneLine part :=
  fun found => oneLine (subset found)

theorem trim_subset (text : Text) : Text.trim text ⊆ text := by
  intro c found
  have inReversed := (List.dropWhile_sublist _).subset (List.mem_reverse.1 found)
  exact (List.dropWhile_sublist _).subset (List.mem_reverse.1 inReversed)

/-- The argument of a directive with an argument. -/
def Directive.argument? : Directive → Option Text
  | define argument => some argument
  | undefine name => some name
  | inclusion argument => some argument
  | ifDefined name => some name
  | ifNotDefined name => some name
  | ifValue condition => some condition
  | _ => none

theorem argument_ofKeyword {keyword argument text : Text}
    (given : (Directive.ofKeyword keyword argument).argument? = some text) : text = argument := by
  unfold Directive.ofKeyword at given
  split_ifs at given <;> simp [Directive.argument?] at given <;> exact given.symm

/-- What a logical line is read as stands in the line. -/
theorem Line.read_subset (line : Text) :
    (∀ text, Line.read line = .ordinary text → text = line) ∧
    ∀ directive argument, Line.read line = .directive directive →
      directive.argument? = some argument → argument ⊆ line := by
  unfold Line.read
  split
  · rename_i rest trimmed
    refine ⟨nofun, fun directive argument same given => ?_⟩
    rw [Line.directive.injEq] at same
    rw [← same] at given
    rw [argument_ofKeyword given]
    intro c found
    have inBody := (List.dropWhile_sublist _).subset (trim_subset _ found)
    have inRest : c ∈ rest := (List.dropWhile_sublist _).subset inBody
    refine (List.dropWhile_sublist isBlank).subset ?_
    rw [show line.dropWhile isBlank = '#' :: rest from trimmed]
    exact List.mem_cons_of_mem _ inRest
  · exact ⟨fun text same => (Line.ordinary.inj same).symm, nofun⟩

theorem splitParameters_subset (text : Text) : (splitParameters text).2 ⊆ text := by
  unfold splitParameters
  split
  · rename_i rest
    split
    · rename_i body after
      intro c found
      refine List.mem_cons_of_mem _ ((List.dropWhile_sublist (· ≠ ')')).subset ?_)
      rw [after]
      exact List.mem_cons_of_mem _ found
    · exact List.Subset.refl _
  · exact List.Subset.refl _

/-- The body of a macro stands in the argument of its definition. -/
theorem body_subset {argument : Text} {definition : Definition}
    (defines : Definition.read? argument = some definition) : definition.body ⊆ argument := by
  unfold Definition.read? at defines
  split at defines
  · rename_i first rest
    split at defines
    · cases defines
      intro c found
      exact (List.dropWhile_sublist isIdentifierChar).subset
        (splitParameters_subset _ (trim_subset _ found))
    · cases defines
  · cases defines

/-! ## Macros -/

/-- The text that is read but not given out yet in a mode. -/
def PieceMode.pending : PieceMode → Text
  | identifier start => start
  | _ => []

theorem flatMap_text_flush (mode : PieceMode) : mode.flush.flatMap Piece.text = mode.pending := by
  cases mode <;> simp [PieceMode.flush, PieceMode.pending, Piece.text]

/-- The pieces of a line make up the line. -/
theorem flatMap_text_piecesFrom (mode : PieceMode) (line : Text) :
    (piecesFrom mode line).flatMap Piece.text = mode.pending ++ line := by
  fun_induction piecesFrom mode line with
  | case1 mode => rw [flatMap_text_flush, List.append_nil]
  | case2 c rest ih =>
      rw [List.flatMap_cons, ih]
      split <;> rfl
  | case3 c rest inside start _ ih =>
      rw [ih]
      simp [PieceMode.pending]
  | case4 c rest inside _ ih =>
      rw [List.flatMap_cons, ih]
      rfl
  | case5 mode c rest _ _ digit notIdentifier notNumber ih =>
      have nothing : mode.pending = [] := by
        cases mode <;> simp_all [PieceMode.pending]
      rw [nothing, List.flatMap_cons, ih]
      rfl
  | case6 mode c rest _ _ digit notIdentifier notNumber ih =>
      have nothing : mode.pending = [] := by
        cases mode <;> simp_all [PieceMode.pending]
      rw [nothing, ih]
      rfl
  | case7 mode c rest _ outside ih =>
      rw [List.flatMap_append, flatMap_text_flush, List.flatMap_cons, ih]
      split <;> simp [PieceMode.pending, Piece.text]

/-- Whether the bodies of all macros stand on one line. -/
def Definitions.OneLine (definitions : Definitions) : Prop :=
  ∀ item ∈ definitions.macros, ClassConfig.OneLine item.2.body

theorem mem_of_value? {map : MacroTable} {name : Text} {value : Macro}
    (found : map.value? name = some value) : (name, value) ∈ map := by
  obtain ⟨before, after, rfl, -⟩ := List.lookup_eq_some_iff.1 found
  exact List.mem_append_right _ List.mem_cons_self

theorem mem_of_mem_insert {map : MacroTable} {name : Text} {value : Macro} {item : Text × Macro}
    (member : item ∈ map.insert name value) : item = (name, value) ∨ item ∈ map := by
  induction map with
  | nil => exact .inl (List.mem_singleton.1 member)
  | cons first rest ih =>
      unfold OrderedMap.insert at member
      split at member
      · rcases List.mem_cons.1 member with same | later
        · exact .inl same
        · exact .inr (List.mem_cons_of_mem _ later)
      · rcases List.mem_cons.1 member with rfl | later
        · exact .inr List.mem_cons_self
        · exact (ih later).imp_right (List.mem_cons_of_mem _)

theorem oneLine_expandOnce {definitions : Definitions} (bodies : definitions.OneLine) {line : Text}
    (oneLine : OneLine line) : OneLine (expandOnce definitions.macros line) := by
  intro found
  obtain ⟨piece, inLine, found⟩ := List.mem_flatMap.1 found
  have ordinary : OneLine piece.text := fun inPiece => by
    have inPieces : '\n' ∈ (pieces line).flatMap Piece.text :=
      List.mem_flatMap.2 ⟨piece, inLine, inPiece⟩
    rw [pieces, flatMap_text_piecesFrom] at inPieces
    exact oneLine inPieces
  cases piece with
  | verbatim c => exact ordinary found
  | identifier name =>
      simp only [Piece.replaced] at found
      split at found
      · rename_i body isMacro
        exact bodies _ (mem_of_value? isMacro) found
      · exact ordinary found

/-- A line stays one line when its macros are expanded. -/
theorem oneLine_expand {definitions : Definitions} (bodies : definitions.OneLine) {line : Text}
    (oneLine : OneLine line) : OneLine (expand definitions.macros line) := by
  unfold expand
  generalize maxExpansionPasses = passes
  induction passes generalizing line with
  | zero => exact oneLine
  | succ passes ih =>
      unfold expandPasses
      split
      · exact ih (oneLine_expandOnce bodies oneLine)
      · exact oneLine

/-! ## The output of one line -/

/-- The line of output in the place of a logical line that includes no file: an active ordinary line
with its macros expanded, and a blank line for anything else. -/
def lineOutput (opened : List OpenConditional) (definitions : Definitions) (line : Text) : Text :=
  match Line.read line with
  | .ordinary text => if isActive opened then expand definitions.macros text else []
  | .directive _ => []

variable {tree : FileTree} {includeDirectory file : Path} {includer : Option Includer}
  {inner : Path → Definitions → List Inclusion} {number : Nat} {opened : List OpenConditional}
  {definitions : Definitions}

/-- A blank line stays blank. -/
theorem lineOutput_nil (opened : List OpenConditional) (definitions : Definitions) :
    lineOutput opened definitions [] = [] := by
  have same : lineOutput opened definitions [] =
      if isActive opened then expand definitions.macros [] else [] := rfl
  rw [same]
  split <;> rfl

/-- A line that carries out no inclusion gives one line of output, whatever could be included. -/
theorem lineEffect_of_no_inclusion {line : Text} {output : List Text}
    {openedAfter : List OpenConditional} {definitionsAfter : Definitions}
    (effect : lineEffect tree includeDirectory includer file number opened definitions line =
      .ok (output, openedAfter, definitionsAfter))
    (plain : lineInclusions tree includeDirectory inner file opened definitions line = []) :
    output = [lineOutput opened definitions line] ∧
      lineEffect tree includeDirectory none file number opened definitions line =
        .ok (output, openedAfter, definitionsAfter) := by
  unfold lineEffect at effect ⊢
  unfold lineInclusions at plain
  unfold lineOutput
  cases reads : Line.read line with
  | ordinary text =>
      simp only [reads] at effect ⊢
      exact ⟨(Prod.mk.inj (Except.ok.inj effect)).1.symm, effect⟩
  | directive directive =>
      cases directive with
      | inclusion argument =>
          simp only [reads] at effect plain ⊢
          by_cases active : isActive opened = true
          · simp only [active, if_true] at effect plain
            cases named : readInclusion? argument with
            | none =>
                rw [named] at effect
                cases effect
            | some name =>
                rw [named] at plain
                cases plain
          · simp only [active] at effect ⊢
            exact ⟨(Prod.mk.inj (Except.ok.inj effect)).1.symm, effect⟩
      | define argument =>
          simp only [reads] at effect ⊢
          refine ⟨?_, effect⟩
          split at effect
          · split at effect
            · exact (Prod.mk.inj (Except.ok.inj effect)).1.symm
            · cases effect
          · exact (Prod.mk.inj (Except.ok.inj effect)).1.symm
      | otherwise =>
          simp only [reads] at effect ⊢
          refine ⟨?_, effect⟩
          split at effect
          · cases effect
          · split at effect
            · cases effect
            · exact (Prod.mk.inj (Except.ok.inj effect)).1.symm
      | endIf =>
          simp only [reads] at effect ⊢
          refine ⟨?_, effect⟩
          split at effect
          · cases effect
          · exact (Prod.mk.inj (Except.ok.inj effect)).1.symm
      | _ =>
          simp only [reads] at effect ⊢
          exact ⟨(Prod.mk.inj (Except.ok.inj effect)).1.symm, effect⟩

/-- A line that includes no file keeps the bodies of macros on one line. -/
theorem oneLine_lineEffect {line : Text} {output : List Text} {openedAfter : List OpenConditional}
    {definitionsAfter : Definitions}
    (effect : lineEffect tree includeDirectory none file number opened definitions line =
      .ok (output, openedAfter, definitionsAfter))
    (bodies : definitions.OneLine) (oneLine : OneLine line) : definitionsAfter.OneLine := by
  obtain ⟨-, arguments⟩ := Line.read_subset line
  -- All but `#define` and `#undef` leave the macros as they are.
  have kept : definitionsAfter = definitions → definitionsAfter.OneLine := fun same => same ▸ bodies
  unfold lineEffect at effect
  cases reads : Line.read line with
  | ordinary text =>
      simp only [reads] at effect
      exact kept (Prod.mk.inj (Prod.mk.inj (Except.ok.inj effect)).2).2.symm
  | directive directive =>
      cases directive with
      | define argument =>
          simp only [reads] at effect
          split at effect
          · split at effect
            · rename_i definition defines
              obtain ⟨-, -, rfl⟩ := Except.ok.inj effect
              intro item member
              rcases mem_of_mem_insert member with rfl | before
              · exact oneLine.of_subset (List.Subset.trans (body_subset defines)
                  (arguments _ argument reads rfl))
              · exact bodies item before
            · cases effect
          · exact kept (Prod.mk.inj (Prod.mk.inj (Except.ok.inj effect)).2).2.symm
      | undefine name =>
          simp only [reads] at effect
          obtain ⟨-, -, rfl⟩ := Except.ok.inj effect
          split
          · exact fun item member => bodies item (List.mem_filter.1 member).1
          · exact bodies
      | inclusion argument =>
          simp only [reads] at effect
          split at effect
          · split at effect <;> cases effect
          · exact kept (Prod.mk.inj (Prod.mk.inj (Except.ok.inj effect)).2).2.symm
      | otherwise =>
          simp only [reads] at effect
          split at effect
          · cases effect
          · split at effect
            · cases effect
            · exact kept (Prod.mk.inj (Prod.mk.inj (Except.ok.inj effect)).2).2.symm
      | endIf =>
          simp only [reads] at effect
          split at effect
          · cases effect
          · exact kept (Prod.mk.inj (Prod.mk.inj (Except.ok.inj effect)).2).2.symm
      | _ =>
          simp only [reads] at effect
          exact kept (Prod.mk.inj (Prod.mk.inj (Except.ok.inj effect)).2).2.symm

theorem oneLine_lineOutput (bodies : definitions.OneLine) {line : Text} (oneLine : OneLine line) :
    OneLine (lineOutput opened definitions line) := by
  unfold lineOutput
  split
  · rename_i text reads
    obtain rfl := (Line.read_subset line).1 text reads
    split
    · exact oneLine_expand bodies oneLine
    · exact List.not_mem_nil
  · exact List.not_mem_nil

/-! ## The output of all lines -/

/-- The open conditionals and the definitions after logical lines that include no file. -/
def stateAfter (tree : FileTree) (includeDirectory file : Path) :
    (number : Nat) → List OpenConditional → Definitions → List Text →
    Except ConfigError (List OpenConditional × Definitions)
  | _, opened, definitions, [] => .ok (opened, definitions)
  | number, opened, definitions, line :: rest =>
      match lineEffect tree includeDirectory none file number opened definitions line with
      | .error e => .error e
      | .ok (_, opened, definitions) =>
          stateAfter tree includeDirectory file (number + 1) opened definitions rest

/-- Whether lines of output are those of logical lines, one for each: the state before a line is that
after the lines before it. -/
def InPlace (tree : FileTree) (includeDirectory file : Path) (number : Nat)
    (opened : List OpenConditional) (definitions : Definitions) (lines outputs : List Text) : Prop :=
  outputs.length = lines.length ∧ ∀ (index : Nat) (line : Text), lines[index]? = some line →
    ∃ openedThere definitionsThere,
      stateAfter tree includeDirectory file number opened definitions (lines.take index) =
        .ok (openedThere, definitionsThere) ∧
      outputs[index]? = some (lineOutput openedThere definitionsThere line)

/-- Where no file is included, each logical line has its line of output, and none is broken. -/
theorem inPlace_of_preprocessLines {lines outputs : List Text} {after : Definitions}
    (preprocessed : preprocessLines tree includeDirectory includer file number opened definitions
      lines = .ok (outputs, after))
    (plain : linesInclusions tree includeDirectory includer inner file number opened definitions
      lines = [])
    (bodies : definitions.OneLine) (oneLine : ∀ line ∈ lines, OneLine line) :
    InPlace tree includeDirectory file number opened definitions lines outputs ∧
      ∀ output ∈ outputs, OneLine output := by
  induction lines generalizing number opened definitions outputs with
  | nil =>
      unfold preprocessLines at preprocessed
      split at preprocessed
      · cases preprocessed
        exact ⟨⟨rfl, fun _ _ there => by cases there⟩, List.forall_mem_nil _⟩
      · cases preprocessed
  | cons line rest ih =>
      unfold preprocessLines at preprocessed
      unfold linesInclusions at plain
      obtain ⟨plainLine, plainRest⟩ := List.append_eq_nil_iff.1 plain
      cases effect : lineEffect tree includeDirectory includer file number opened definitions line with
      | error e =>
          rw [effect] at preprocessed
          cases preprocessed
      | ok result =>
          obtain ⟨output, openedAfter, definitionsAfter⟩ := result
          simp only [effect] at preprocessed plainRest
          obtain ⟨rfl, same⟩ := lineEffect_of_no_inclusion effect plainLine
          cases outputsOf : preprocessLines tree includeDirectory includer file (number + 1)
              openedAfter definitionsAfter rest with
          | error e =>
              rw [outputsOf] at preprocessed
              cases preprocessed
          | ok found =>
              rw [outputsOf] at preprocessed
              cases preprocessed
              have ordinary := oneLine line List.mem_cons_self
              obtain ⟨⟨length, each⟩, unbroken⟩ := ih outputsOf plainRest
                (oneLine_lineEffect same bodies ordinary)
                fun other member => oneLine other (List.mem_cons_of_mem _ member)
              refine ⟨⟨by simp [length], fun index other there => ?_⟩, fun other member => ?_⟩
              · cases index with
                | zero =>
                    cases there
                    exact ⟨opened, definitions, rfl, rfl⟩
                | succ index =>
                    obtain ⟨openedThere, definitionsThere, state, out⟩ := each index other there
                    refine ⟨openedThere, definitionsThere, ?_, out⟩
                    rw [List.take_succ_cons, stateAfter, same]
                    exact state
              · rcases List.mem_cons.1 member with rfl | later
                · exact oneLine_lineOutput bodies ordinary
                · exact unbroken other later

end AddonIndex.ClassConfig
