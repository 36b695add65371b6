import AddonIndex.Proofs.ClassConfig.Moment
import AddonIndex.Proofs.FileTree.Location
import AddonIndex.Proofs.Text.Encoding

/-!
# What is recorded of definitions

The record of definitions is kept beside the macro table, and only a definition changes both. So at every
moment the record lists the names that were defined, each with its latest replacement text, and it agrees
with the macro table wherever that has a macro.
-/

namespace AddonIndex.ClassConfig

/-- The latest definition of a name. -/
def latest? (made : List Definition) (name : Text) : Option Definition :=
  made.reverse.find? (·.name = name)

/-- Whether the record lists the names of the definitions made, in order of their first definition and with
the text of the latest one, and holds every macro that is defined. -/
structure Recorded (made : List Definition) (definitions : Definitions) : Prop where
  names_eq : definitions.recorded.names = (made.map (·.name)).eraseDups
  body_eq : ∀ name, definitions.recorded.value? name = (latest? made name).map (·.body)
  holds : ∀ name held, definitions.macros.value? name = some held →
    definitions.recorded.value? name = some held.body

/-- What one step of preprocessing does to the definitions, given those that it makes. -/
inductive Change (definitions : Definitions) : List Definition → Definitions → Prop
  | kept : Change definitions [] definitions
  | defined (definition : Definition) : Change definitions [definition] (definitions.define definition)
  | undefined (name : Text) : Change definitions [] (definitions.undefine name)

variable {tree : FileTree} {includeDirectory file root : Path} {depth number : Nat}
  {opened later : List OpenConditional} {definitions after : Definitions} {line : Text} {output : List Text}
  {outer : List OpenFile} {current : OpenFile} {made more : List Definition} {start next last : Moment}

/-! ## Single steps -/

theorem latest?_concat (made : List Definition) (definition : Definition) (name : Text) :
    latest? (made ++ [definition]) name =
      if name = definition.name then some definition else latest? made name := by
  unfold latest?
  rw [List.reverse_append, List.reverse_singleton, List.singleton_append, List.find?_cons]
  by_cases same : name = definition.name
  · simp [same]
  · simp [same, Ne.symm same]

namespace Recorded

theorem nothing : Recorded [] {} where
  names_eq := rfl
  body_eq _ := rfl
  holds _ _ held := nomatch held

theorem define (recorded : Recorded made definitions) (definition : Definition) :
    Recorded (made ++ [definition]) (definitions.define definition) where
  names_eq := by
    rw [Definitions.define, OrderedMap.names_insert, recorded.names_eq, List.map_append, List.eraseDups_append,
      List.map_singleton]
    by_cases present : definition.name ∈ made.map (·.name)
    · have listed : [definition.name].removeAll (made.map (·.name)) = [] := by
        rw [List.removeAll, List.filter_cons_of_neg (by simpa using present), List.filter_nil]
      rw [if_pos (List.mem_eraseDups.2 present), listed, List.eraseDups_nil, List.append_nil]
    · have unlisted : [definition.name].removeAll (made.map (·.name)) = [definition.name] := by
        rw [List.removeAll, List.filter_cons_of_pos (by simpa using present), List.filter_nil]
      rw [if_neg (mt List.mem_eraseDups.1 present), unlisted]
      rfl
  body_eq name := by
    rw [Definitions.define, OrderedMap.value?_insert, recorded.body_eq, latest?_concat]
    split <;> rfl
  holds name held := by
    simp only [Definitions.define, OrderedMap.value?_insert]
    split
    · rintro ⟨⟩
      rfl
    · exact recorded.holds name held

theorem undefine (recorded : Recorded made definitions) (name : Text) :
    Recorded made (definitions.undefine name) where
  names_eq := recorded.names_eq
  body_eq := recorded.body_eq
  holds other held isHeld := by
    rw [Definitions.undefine, OrderedMap.value?_remove] at isHeld
    split at isHeld
    · cases isHeld
    · exact recorded.holds other held isHeld

theorem change (recorded : Recorded made definitions) (change : Change definitions more after) :
    Recorded (made ++ more) after := by
  cases change with
  | kept => rwa [List.append_nil]
  | defined definition => exact recorded.define definition
  | undefined name =>
      rw [List.append_nil]
      exact recorded.undefine name

end Recorded

theorem definitionsMade_of_inactive (inactive : isActive opened = false) : definitionsMade opened line = [] := by
  simp [definitionsMade, inactive]

theorem definitionsMade_of_role_ne_plain (kind : role line ≠ .plain) : definitionsMade opened line = [] := by
  unfold definitionsMade
  cases reads : Line.read line with
  | ordinary text => simp
  | directive directive =>
      cases directive with
      | define argument => simp [role, reads, Line.role] at kind
      | _ => simp

theorem unusedIncluder_reads {includer : Includer} {target : Path} (unused : unusedIncluder depth = some includer) :
    includer target definitions = .ok ([], definitions) := by
  cases depth with
  | zero => cases unused
  | succ inner =>
      cases unused
      rfl

/-- A line that is carried out and enters no file changes the definitions by what it makes. -/
theorem change_of_carryOut (active : isActive opened = true)
    (carries : carryOut tree includeDirectory (unusedIncluder depth) file number definitions line =
      .ok (output, after)) :
    Change definitions (definitionsMade opened line) after := by
  have outside : isActive [] = true := rfl
  obtain ⟨⟨_, later, _⟩, effect, result⟩ := map_eq_ok_iff.1 carries
  cases result
  unfold lineEffect at effect
  unfold definitionsMade
  rw [if_pos active]
  cases reads : Line.read line with
  | ordinary text =>
      simp only [reads] at effect
      cases effect
      exact .kept
  | directive directive =>
      simp only [reads, outside, if_true] at effect
      cases directive with
      | define argument =>
          cases read : Definition.read? argument with
          | none => simp [read] at effect
          | some definition =>
              simp only [read] at effect
              cases effect
              simp only [read]
              exact .defined definition
      | undefine name =>
          cases effect
          exact .undefined name
      | inclusion argument =>
          simp only at effect
          split at effect
          · cases effect
          · split at effect
            · cases effect
            · rename_i includer unused
              split at effect
              · cases effect
              · rw [unusedIncluder_reads unused] at effect
                cases effect
                exact .kept
      | otherwise => cases effect
      | endIf => cases effect
      | _ =>
          cases effect
          exact .kept

/-- A line that enters no file changes the definitions by what it makes. -/
theorem change_of_lineEffect
    (effect : lineEffect tree includeDirectory (unusedIncluder depth) file number opened definitions line =
      .ok (output, later, after)) :
    Change definitions (definitionsMade opened line) after := by
  have step := lineEffect_eq_ok_iff.1 effect
  generalize kind : role line = what at step
  cases step with
  | carried active carries => exact change_of_carryOut active carries
  | skipped inactive =>
      rw [definitionsMade_of_inactive inactive]
      exact .kept
  | opens | divides | ends =>
      rw [definitionsMade_of_role_ne_plain (by simp [kind])]
      exact .kept

theorem change_of_advance
    (advances : advance tree includeDirectory definitions outer current = .ok (made, next)) :
    Change definitions made next.definitions := by
  obtain ⟨file, depth, number, opened, lines⟩ := current
  cases lines with
  | nil =>
      cases opened with
      | nil =>
          cases advances
          exact .kept
      | cons innermost around => cases advances
  | cons line rest =>
      cases enters : enteredFile? tree includeDirectory file depth opened line with
      | none =>
          rw [advance_of_enteredFile?_eq_none enters] at advances
          obtain ⟨⟨output, later, after⟩, effect, result⟩ := bind_eq_ok_iff.1 advances
          cases result
          exact change_of_lineEffect effect
      | some target =>
          rw [advance_of_enteredFile?_eq_some enters] at advances
          obtain ⟨lines, -, result⟩ := bind_eq_ok_iff.1 advances
          cases result
          exact .kept

/-! ## Whole courses -/

theorem Recorded.course (course : Course tree includeDirectory start more last)
    (recorded : Recorded made start.definitions) : Recorded (made ++ more) last.definitions := by
  induction course generalizing made with
  | still => rwa [List.append_nil]
  | onwards advances _ ih =>
      rw [← List.append_assoc]
      exact ih (recorded.change (change_of_advance advances))

/-- Whether preprocessing of a file reaches a moment, having made some definitions. -/
def Reaches (tree : FileTree) (includeDirectory root : Path) (made : List Definition) (moment : Moment) : Prop :=
  ∃ lines, sourceLines tree root = .ok lines ∧
    Course tree includeDirectory ⟨[⟨root, maxInclusionDepth, 1, [], lines⟩], {}⟩ made moment

theorem Reaches.recorded (reaches : Reaches tree includeDirectory root made last) :
    Recorded made last.definitions := by
  obtain ⟨lines, -, course⟩ := reaches
  exact Recorded.nothing.course course

theorem reaches_iff_course {lines : List Text} (sources : sourceLines tree root = .ok lines) :
    Reaches tree includeDirectory root made last ↔
      Course tree includeDirectory ⟨[⟨root, maxInclusionDepth, 1, [], lines⟩], {}⟩ made last := by
  constructor
  · rintro ⟨_, alike, course⟩
    cases sources.symm.trans alike
    exact course
  · exact fun course => ⟨lines, sources, course⟩

theorem not_reaches {e : ConfigError} (unread : sourceLines tree root = .error e) :
    ¬ Reaches tree includeDirectory root made last := by
  rintro ⟨lines, sources, -⟩
  cases unread.symm.trans sources

theorem preprocess_eq_error {e : ConfigError} (unread : sourceLines tree root = .error e) :
    preprocess tree root includeDirectory = .error e := by
  rw [preprocess, preprocessFile_eq_bind, unread, error_bind]

/-- Preprocessing has the result to which its moments come. -/
theorem preprocess_eq_iff_comesTo {lines : List Text} (sources : sourceLines tree root = .ok lines)
    (result : Except ConfigError Definitions) :
    (preprocess tree root includeDirectory).map Prod.snd = result ↔
      ComesTo tree includeDirectory ⟨[⟨root, maxInclusionDepth, 1, [], lines⟩], {}⟩ [] result := by
  constructor
  · rintro rfl
    exact comesTo_preprocessFile sources
  · exact fun also => ComesTo.unique (comesTo_preprocessFile sources) also

/-- Preprocessing succeeds exactly if it reaches a moment at which nothing is left to be read. -/
theorem preprocess_eq_ok_iff_reaches :
    (∃ outputs, preprocess tree root includeDirectory = .ok (outputs, after)) ↔
      ∃ made, Reaches tree includeDirectory root made ⟨[], after⟩ := by
  cases sources : sourceLines tree root with
  | error e => simp [preprocess_eq_error sources, not_reaches sources]
  | ok lines =>
      simp only [reaches_iff_course sources]
      have succeeds : (∃ outputs, preprocess tree root includeDirectory = .ok (outputs, after)) ↔
          (preprocess tree root includeDirectory).map Prod.snd = .ok after := by
        simp [map_eq_ok_iff]
      rw [succeeds, preprocess_eq_iff_comesTo sources]
      simp [ComesTo, Stops]

/-- Preprocessing fails exactly if the file cannot be read or a moment is reached that has no next one. -/
theorem preprocess_eq_error_iff_reaches {e : ConfigError} :
    preprocess tree root includeDirectory = .error e ↔
      sourceLines tree root = .error e ∨
        ∃ made definitions outer current,
          Reaches tree includeDirectory root made ⟨current :: outer, definitions⟩ ∧
            advance tree includeDirectory definitions outer current = .error e := by
  cases sources : sourceLines tree root with
  | error cause => simp [preprocess_eq_error sources, not_reaches sources]
  | ok lines =>
      simp only [reaches_iff_course sources, reduceCtorEq, false_or]
      refine map_eq_error_iff.symm.trans ((preprocess_eq_iff_comesTo sources (.error e)).trans ?_)
      constructor
      · rintro ⟨made, _, course, definitions, outer, current, rfl, fails⟩
        exact ⟨made, definitions, outer, current, course, fails⟩
      · rintro ⟨made, definitions, outer, current, course, fails⟩
        exact ⟨made, _, course, definitions, outer, current, rfl, fails⟩

/-- At every moment of preprocessing, the record lists the definitions made and holds every macro that is
defined. Preprocessing succeeds with the definitions at the moment at which nothing is left to be read, and
fails at a moment that has no next one or because the file itself cannot be read. -/
theorem definitions_recorded (tree : FileTree) (root includeDirectory : Path) :
    (∀ made moment, Reaches tree includeDirectory root made moment → Recorded made moment.definitions) ∧
    (∀ after, (∃ outputs, preprocess tree root includeDirectory = .ok (outputs, after)) ↔
      ∃ made, Reaches tree includeDirectory root made ⟨[], after⟩) ∧
    ∀ e, preprocess tree root includeDirectory = .error e ↔
      sourceLines tree root = .error e ∨
        ∃ made definitions outer current,
          Reaches tree includeDirectory root made ⟨current :: outer, definitions⟩ ∧
            advance tree includeDirectory definitions outer current = .error e :=
  ⟨fun _ _ => Reaches.recorded, fun _ => preprocess_eq_ok_iff_reaches, fun _ => preprocess_eq_error_iff_reaches⟩

/-- A file that redefines a macro of the file that includes it, and does not define another one. -/
def redefiningConfig : Text := "#define B 2\n#define A 3\n#if 0\n#define C 4\n#endif\n"

/-- A file that undefines the macro after that. -/
def undefiningConfig : Text := "#define A 1\n#include \"inner.hpp\"\n#undef A\n"

/-- Their paths. -/
def redefiningFile : Path := ⟨"inner.hpp"⟩

def undefiningFile : Path := ⟨"config.cpp"⟩

/-- A tree with both files. -/
def undefiningTree : FileTree :=
  { entries := [(["config.cpp".toList], .file undefiningConfig.encode false),
      (["inner.hpp".toList], .file redefiningConfig.encode false)] }

theorem sourceLines_of_find (text : Text) {place : Location} {executable : Bool} {lines : List Text}
    (found : tree.find file = .ok (place, .file text.encode executable))
    (split : logicalLines (stripComments text) = lines) : sourceLines tree file = .ok lines := by
  rw [← split]
  unfold sourceLines
  rw [FileTree.readText_eq_ok_iff.2 ⟨_, _, _, found, Text.decode?_encode text⟩]

theorem undefiningTree_preprocessed :
    preprocess undefiningTree undefiningFile ⟨[]⟩ = .ok (List.replicate 8 [],
      { macros := [(['B'], ⟨none, ['2']⟩)], recorded := [(['A'], ['3']), (['B'], ['2'])] }) := by
  have source : sourceLines undefiningTree undefiningFile = .ok
      ["#define A 1".toList, "#include \"inner.hpp\"".toList, "#undef A".toList] :=
    sourceLines_of_find undefiningConfig rfl rfl
  have read : sourceLines undefiningTree redefiningFile = .ok
      ["#define B 2".toList, "#define A 3".toList, "#if 0".toList, "#define C 4".toList, "#endif".toList] :=
    sourceLines_of_find redefiningConfig rfl rfl
  have first : lineEffect undefiningTree ⟨[]⟩ (includerTo undefiningTree ⟨[]⟩ maxInclusionDepth) undefiningFile 1 []
      {} "#define A 1".toList =
      .ok ([[]], [], { macros := [(['A'], ⟨none, ['1']⟩)], recorded := [(['A'], ['1'])] }) := rfl
  have enters : enteredFile? undefiningTree ⟨[]⟩ undefiningFile maxInclusionDepth []
      "#include \"inner.hpp\"".toList = some redefiningFile := rfl
  obtain ⟨inner, _, included⟩ := lineEffect_of_enteredFile?_eq_some 2
    { macros := [(['A'], ⟨none, ['1']⟩)], recorded := [(['A'], ['1'])] } enters
  rw [preprocess, preprocessFile_eq_bind, source, ok_bind, preprocessLines_cons, first, ok_bind]
  dsimp only
  rw [preprocessLines_cons, included, preprocessFile_eq_bind, read]
  rfl

/-- The macro that is no longer defined is recorded with its latest text, and the skipped one is not. -/
theorem undefiningTree_recorded :
    ∃ made, Reaches undefiningTree ⟨[]⟩ undefiningFile made
        ⟨[], { macros := [(['B'], ⟨none, ['2']⟩)], recorded := [(['A'], ['3']), (['B'], ['2'])] }⟩ ∧
      (made.map (·.name)).eraseDups = [['A'], ['B']] ∧ (latest? made ['A']).map (·.body) = some ['3'] := by
  obtain ⟨during, succeeds, -⟩ := definitions_recorded undefiningTree undefiningFile ⟨[]⟩
  obtain ⟨made, reaches⟩ := (succeeds _).1 ⟨_, undefiningTree_preprocessed⟩
  have recorded := during made _ reaches
  exact ⟨made, reaches, recorded.names_eq.symm, (recorded.body_eq ['A']).symm⟩

end AddonIndex.ClassConfig
