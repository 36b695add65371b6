import AddonIndex.Proofs.ClassConfig.LineRole
import AddonIndex.Proofs.FileTree.Location
import AddonIndex.Proofs.Text.Encoding

/-!
# Inclusion as inlining

The lines of an included file do the same in its place as in the middle of the
including one, if their conditionals are balanced: above the conditionals that
are open around the directive they open and end their own. Only failures tell
where a line stands.
-/

namespace AddonIndex.ClassConfig

/-- How many conditionals are open after a line of some role that stands in so many. A line that
belongs to a conditional must stand in one. -/
def Role.depthAfter? : Nat → Role → Option Nat
  | depth, .plain => some depth
  | depth, .opening _ => some (depth + 1)
  | 0, _ => none
  | depth + 1, .otherwise => some (depth + 1)
  | depth + 1, .ending => some depth

/-- How many conditionals are open after lines that stand in so many. -/
def depthAfter? (depth : Nat) (lines : List Text) : Option Nat :=
  lines.foldlM (fun depth line => (role line).depthAfter? depth) depth

/-- Whether lines end the conditionals that they open and no others. -/
def IsBalanced (lines : List Text) : Prop := depthAfter? 0 lines = some 0

theorem IsBalanced.stays {lines : List Text} (balanced : IsBalanced lines) :
    depthAfter? ([] : List OpenConditional).length lines = some 0 :=
  balanced

theorem depthAfter?_cons_eq_some_iff {depth later : Nat} {line : Text} {rest : List Text} :
    depthAfter? depth (line :: rest) = some later ↔
      ∃ between, (role line).depthAfter? depth = some between ∧ depthAfter? between rest = some later := by
  rw [depthAfter?, List.foldlM_cons]
  exact Option.bind_eq_some_iff

/-- Whether a line is an inclusion. -/
def IsInclusion (line : Text) : Prop := ∃ argument, Line.read line = .directive (.inclusion argument)

variable {tree : FileTree} {includeDirectory file target : Path} {includer inner : Option Includer}
  {number place : Nat} {opened own : List OpenConditional} {definitions after : Definitions}
  {line : Text} {output : List Text}

/-! ## Where a line stands -/

/-- What a line does that is no inclusion does not depend on the file that it is in. -/
theorem carryOut_eq_ok {result : List Text × Definitions} (apart : ¬ IsInclusion line)
    (effect : carryOut tree includeDirectory includer file number definitions line = .ok result) :
    carryOut tree includeDirectory inner target place definitions line = .ok result := by
  unfold carryOut lineEffect at effect ⊢
  cases reads : Line.read line with
  | ordinary text => simpa [reads] using effect
  | directive directive =>
      cases directive with
      | define argument =>
          cases read : Definition.read? argument with
          | none => simp [reads, read, isActive, Except.map] at effect
          | some definition => simpa [reads, read, isActive, Except.map] using effect
      | inclusion argument => exact absurd ⟨argument, reads⟩ apart
      | otherwise => simp [reads, Except.map] at effect
      | endIf => simp [reads, Except.map] at effect
      | _ => simpa [reads] using effect

theorem isActive_append (active : isActive opened = true) : isActive (own ++ opened) = isActive own := by
  cases own with
  | nil => exact active
  | cons innermost outer => rfl

/-- A line opens and ends as many conditionals as its role says. -/
theorem LineStep.length_eq {carries : List Text → Definitions → Prop} {kind : Role} {depth : Nat}
    {later : List OpenConditional} (step : LineStep carries definitions kind own output later after)
    (stays : kind.depthAfter? own.length = some depth) : later.length = depth := by
  cases step with
  | carried => exact Option.some.inj stays
  | skipped => exact Option.some.inj stays
  | opens => exact Option.some.inj stays
  | divides => exact Option.some.inj stays
  | ends => exact Option.some.inj stays

/-- A line that stays above some open conditionals does the same there as without them. -/
theorem LineStep.above_iff {carries : List Text → Definitions → Prop} {kind : Role} {depth : Nat}
    {later : List OpenConditional} (active : isActive opened = true)
    (stays : kind.depthAfter? own.length = some depth) :
    LineStep carries definitions kind (own ++ opened) output later after ↔
      ∃ rest, later = rest ++ opened ∧ LineStep carries definitions kind own output rest after := by
  have same : isActive (own ++ opened) = isActive own := isActive_append active
  constructor
  · intro step
    cases kind with
    | plain =>
        cases step with
        | carried activity does => exact ⟨own, rfl, .carried (same ▸ activity) does⟩
        | skipped inactive => exact ⟨own, rfl, .skipped (same ▸ inactive)⟩
    | opening condition =>
        cases step
        exact ⟨_ :: own, by rw [same]; rfl, .opens condition⟩
    | otherwise =>
        cases own with
        | nil => cases stays
        | cons innermost outer =>
            cases step with
            | divides _ _ unseen => exact ⟨_ :: outer, rfl, .divides innermost outer unseen⟩
    | ending =>
        cases own with
        | nil => cases stays
        | cons innermost outer =>
            cases step
            exact ⟨outer, rfl, .ends innermost outer⟩
  · rintro ⟨rest, rfl, step⟩
    cases step with
    | carried activity does => exact .carried (same.trans activity) does
    | skipped inactive => exact .skipped (same.trans inactive)
    | opens condition => exact same ▸ .opens condition
    | divides innermost outer unseen => exact .divides innermost (outer ++ opened) unseen
    | ends innermost => exact .ends innermost (rest ++ opened)

/-- Lines that stay above some open conditionals do the same there as without them, and in another file
as well unless they include or fail. -/
theorem linesEffect_above_iff {later : List OpenConditional} {depth : Nat} {lines : List Text}
    (active : isActive opened = true) (apart : ∀ line ∈ lines, ¬ IsInclusion line)
    (stays : depthAfter? own.length lines = some depth) :
    linesEffect tree includeDirectory includer file number (own ++ opened) definitions lines =
        .ok (output, later, after) ↔
      ∃ rest, later = rest ++ opened ∧
        linesEffect tree includeDirectory inner target place own definitions lines =
          .ok (output, rest, after) := by
  induction lines generalizing number place own definitions output with
  | nil =>
      constructor
      · intro effect
        cases effect
        exact ⟨own, rfl, rfl⟩
      · rintro ⟨rest, rfl, effect⟩
        cases effect
        rfl
  | cons line rest ih =>
      obtain ⟨between, stays, restStays⟩ := depthAfter?_cons_eq_some_iff.1 stays
      have lineApart := apart line List.mem_cons_self
      have restApart := fun line member => apart line (List.mem_cons_of_mem _ member)
      simp only [linesEffect_cons_eq_ok_iff, lineEffect_eq_ok_iff, LineStep.above_iff active stays]
      constructor
      · rintro ⟨front, _, middle, back, ⟨inside, rfl, step⟩, effects, rfl⟩
        rw [← step.length_eq stays] at restStays
        obtain ⟨left, rfl, effects⟩ := (ih restApart restStays).1 effects
        exact ⟨left, rfl, front, inside, middle, back, step.imp fun _ _ => carryOut_eq_ok lineApart,
          effects, rfl⟩
      · rintro ⟨left, rfl, front, inside, middle, back, step, effects, rfl⟩
        rw [← step.length_eq stays] at restStays
        exact ⟨front, inside ++ opened, middle, back,
          ⟨inside, rfl, step.imp fun _ _ => carryOut_eq_ok lineApart⟩,
          (ih restApart restStays).2 ⟨left, rfl, effects⟩, rfl⟩

theorem length_of_linesEffect {later : List OpenConditional} {depth : Nat} {lines : List Text}
    (stays : depthAfter? own.length lines = some depth)
    (effect : linesEffect tree includeDirectory includer file number own definitions lines =
      .ok (output, later, after)) : later.length = depth := by
  induction lines generalizing number own definitions output with
  | nil =>
      cases stays
      cases effect
      rfl
  | cons line rest ih =>
      obtain ⟨between, stays, restStays⟩ := depthAfter?_cons_eq_some_iff.1 stays
      obtain ⟨front, inside, middle, back, effect, effects, -⟩ := linesEffect_cons_eq_ok_iff.1 effect
      rw [← (lineEffect_eq_ok_iff.1 effect).length_eq stays] at restStays
      exact ih restStays effects

/-- Balanced lines leave the conditionals that are open around them. -/
theorem linesEffect_balanced_iff {later : List OpenConditional} {lines : List Text}
    (active : isActive opened = true) (apart : ∀ line ∈ lines, ¬ IsInclusion line)
    (balanced : IsBalanced lines) :
    linesEffect tree includeDirectory includer file number opened definitions lines =
        .ok (output, later, after) ↔
      later = opened ∧
        linesEffect tree includeDirectory inner target place [] definitions lines =
          .ok (output, [], after) := by
  constructor
  · intro effect
    obtain ⟨rest, rfl, effect⟩ := (linesEffect_above_iff active apart balanced.stays).1 effect
    obtain rfl := List.eq_nil_of_length_eq_zero (length_of_linesEffect balanced.stays effect)
    exact ⟨rfl, effect⟩
  · rintro ⟨rfl, effect⟩
    exact (linesEffect_above_iff active apart balanced.stays).2 ⟨[], rfl, effect⟩

theorem opened_eq_of_balanced {later : List OpenConditional} {lines : List Text}
    (active : isActive opened = true) (apart : ∀ line ∈ lines, ¬ IsInclusion line)
    (balanced : IsBalanced lines)
    (effect : linesEffect tree includeDirectory includer file number opened definitions lines =
      .ok (output, later, after)) : later = opened := by
  have same : later = opened ∧
      linesEffect tree includeDirectory includer file number [] definitions lines = .ok (output, [], after) :=
    (linesEffect_balanced_iff active apart balanced).1 effect
  exact same.1

/-! ## The line that includes -/

/-- An active inclusion is carried out by preprocessing the file that it leads to. -/
theorem lineEffect_inclusion_eq_ok_iff {argument : Text}
    {result : List Text × List OpenConditional × Definitions}
    (reads : Line.read line = .directive (.inclusion argument)) (active : isActive opened = true) :
    lineEffect tree includeDirectory includer file number opened definitions line = .ok result ↔
      ∃ name readIncluded target inside left, readInclusion? argument = some name ∧
        includer = some readIncluded ∧ resolveInclusion tree file includeDirectory name = some target ∧
        readIncluded target definitions = .ok (inside, left) ∧ result = (inside ++ [[]], opened, left) := by
  unfold lineEffect
  simp only [reads, active, if_true]
  cases named : readInclusion? argument with
  | none => simp
  | some name =>
      cases includer with
      | none => simp
      | some readIncluded =>
          cases resolved : resolveInclusion tree file includeDirectory name with
          | none => simp [resolved]
          | some target =>
              cases included : readIncluded target definitions with
              | error e => simp [resolved, included]
              | ok effect =>
                  obtain ⟨inside, left⟩ := effect
                  simp [resolved, included, and_assoc, eq_comm]

/-- An active inclusion gives the output of the file that it leads to and a blank line. -/
theorem lineEffect_including_eq_ok_iff {depth : Nat} {argument name : Text} {later : List OpenConditional}
    (reads : Line.read line = .directive (.inclusion argument)) (active : isActive opened = true)
    (named : readInclusion? argument = some name)
    (resolved : resolveInclusion tree file includeDirectory name = some target) :
    lineEffect tree includeDirectory (some (preprocessFile tree includeDirectory depth)) file number opened
        definitions line = .ok (output, later, after) ↔
      ∃ inside, preprocessFile tree includeDirectory depth target definitions = .ok (inside, after) ∧
        later = opened ∧ output = inside ++ [[]] := by
  rw [lineEffect_inclusion_eq_ok_iff reads active]
  constructor
  · rintro ⟨_, _, _, inside, _, isName, isIncluder, isTarget, preprocessed, result⟩
    cases named.symm.trans isName
    cases isIncluder
    cases resolved.symm.trans isTarget
    cases result
    exact ⟨inside, preprocessed, rfl, rfl⟩
  · rintro ⟨inside, preprocessed, rfl, rfl⟩
    exact ⟨name, _, target, inside, after, named, rfl, resolved, preprocessed, rfl⟩

theorem carryOut_renumber {result : List Text × Definitions}
    (effect : carryOut tree includeDirectory includer file number definitions line = .ok result) :
    carryOut tree includeDirectory includer file place definitions line = .ok result := by
  by_cases includes : IsInclusion line
  · obtain ⟨argument, reads⟩ := includes
    have active : isActive [] = true := rfl
    obtain ⟨effected, does, same⟩ := map_eq_ok_iff.1 effect
    exact map_eq_ok_iff.2 ⟨effected, (lineEffect_inclusion_eq_ok_iff reads active).2
      ((lineEffect_inclusion_eq_ok_iff reads active).1 does), same⟩
  · exact carryOut_eq_ok includes effect

/-- Lines do the same with other numbers, failures aside. -/
theorem preprocessLines_renumber {lines : List Text}
    (preprocessed : preprocessLines tree includeDirectory includer file number opened definitions lines =
      .ok (output, after)) :
    preprocessLines tree includeDirectory includer file place opened definitions lines =
      .ok (output, after) := by
  induction lines generalizing number place opened definitions output with
  | nil =>
      unfold preprocessLines at preprocessed ⊢
      split at preprocessed
      · rw [if_pos ‹_›]
        exact preprocessed
      · cases preprocessed
  | cons line rest ih =>
      obtain ⟨front, between, middle, back, effect, rested, rfl⟩ :=
        preprocessLines_cons_eq_ok_iff.1 preprocessed
      exact preprocessLines_cons_eq_ok_iff.2
        ⟨front, between, middle, back,
          lineEffect_eq_ok_iff.2 ((lineEffect_eq_ok_iff.1 effect).imp fun _ _ => carryOut_renumber),
          ih rested, rfl⟩

/-- A blank line that is active stays blank. -/
theorem lineEffect_blank (active : isActive opened = true) :
    lineEffect tree includeDirectory includer file number opened definitions [] =
      .ok ([[]], opened, definitions) := by
  have reads : Line.read [] = .ordinary [] := rfl
  have expands : expand definitions.macros [] = [] := rfl
  unfold lineEffect
  simp only [reads, active, if_true, expands]

theorem exists_preprocessFile_eq {lines : List Text} (depth : Nat) (definitions : Definitions)
    (source : sourceLines tree target = .ok lines) :
    ∃ inner, preprocessFile tree includeDirectory depth target definitions =
      preprocessLines tree includeDirectory inner target 1 [] definitions lines := by
  cases depth <;> (unfold preprocessFile; rw [source]; exact ⟨_, rfl⟩)

/-- A file whose conditionals are balanced does the same as its lines do above open conditionals. -/
theorem preprocessFile_eq_ok_iff {depth : Nat} {included : List Text}
    (source : sourceLines tree target = .ok included) (active : isActive opened = true)
    (apart : ∀ line ∈ included, ¬ IsInclusion line) (balanced : IsBalanced included) :
    preprocessFile tree includeDirectory depth target definitions = .ok (output, after) ↔
      linesEffect tree includeDirectory includer file number opened definitions included =
        .ok (output, opened, after) := by
  obtain ⟨inner, same⟩ := exists_preprocessFile_eq depth definitions source
  rw [same, preprocessLines_eq, linesEffect_balanced_iff active apart balanced]
  constructor
  · intro preprocessed
    obtain ⟨⟨_, later, _⟩, effect, closed⟩ := bind_eq_ok_iff.1 preprocessed
    obtain rfl := List.eq_nil_of_length_eq_zero (length_of_linesEffect balanced.stays effect)
    cases closed
    exact ⟨rfl, effect⟩
  · rintro ⟨-, effect⟩
    rw [effect]
    rfl

/-- Including a file without inclusions whose conditionals are balanced gives the same as its lines and
a blank line in the place of the directive. Its lines follow the definitions before the directive, and
the lines after the directive follow those that it leaves. -/
theorem preprocessFile_inlines {depth : Nat} {before later included outputs : List Text}
    {argument name : Text} {live : Definitions}
    (source : sourceLines tree file = .ok (before ++ line :: later))
    (reached : linesEffect tree includeDirectory (some (preprocessFile tree includeDirectory depth)) file 1 []
      definitions before = .ok (outputs, opened, live))
    (active : isActive opened = true) (reads : Line.read line = .directive (.inclusion argument))
    (named : readInclusion? argument = some name)
    (resolved : resolveInclusion tree file includeDirectory name = some target)
    (read : sourceLines tree target = .ok included) (apart : ∀ line ∈ included, ¬ IsInclusion line)
    (balanced : IsBalanced included) :
    (∀ output after,
      preprocessFile tree includeDirectory (depth + 1) file definitions = .ok (output, after) ↔
        preprocessLines tree includeDirectory (some (preprocessFile tree includeDirectory depth)) file 1 []
          definitions (before ++ (included ++ [] :: later)) = .ok (output, after)) ∧
    ∀ output left,
      linesEffect tree includeDirectory (some (preprocessFile tree includeDirectory depth)) file 1 []
          definitions (before ++ [line]) = .ok (output, opened, left) ↔
        ∃ inside, preprocessFile tree includeDirectory depth target live = .ok (inside, left) ∧
          output = outputs ++ (inside ++ [[]]) := by
  constructor
  · intro output after
    rw [preprocessFile, source, ok_bind, preprocessLines_append_eq_ok_iff, preprocessLines_append_eq_ok_iff]
    constructor
    · rintro ⟨front, between, middle, back, effect, rested, rfl⟩
      cases reached.symm.trans effect
      obtain ⟨own, _, left, outside, includesOwn, ended, rfl⟩ := preprocessLines_cons_eq_ok_iff.1 rested
      obtain ⟨inside, preprocessed, rfl, rfl⟩ :=
        (lineEffect_including_eq_ok_iff reads active named resolved).1 includesOwn
      refine ⟨_, _, _, inside ++ ([[]] ++ outside), reached, ?_, by simp⟩
      exact preprocessLines_append_eq_ok_iff.2
        ⟨_, _, _, _, (preprocessFile_eq_ok_iff read active apart balanced).1 preprocessed,
          preprocessLines_cons_eq_ok_iff.2
            ⟨_, _, _, _, lineEffect_blank active, preprocessLines_renumber ended, rfl⟩, rfl⟩
    · rintro ⟨front, between, middle, back, effect, rested, rfl⟩
      cases reached.symm.trans effect
      obtain ⟨inside, _, left, _, carried, continued, rfl⟩ := preprocessLines_append_eq_ok_iff.1 rested
      obtain rfl := opened_eq_of_balanced active apart balanced carried
      obtain ⟨_, _, _, outside, blank, ended, rfl⟩ := preprocessLines_cons_eq_ok_iff.1 continued
      cases (lineEffect_blank active).symm.trans blank
      refine ⟨_, _, _, inside ++ [[]] ++ outside, reached, ?_, by simp⟩
      exact preprocessLines_cons_eq_ok_iff.2 ⟨_, _, _, _,
        (lineEffect_including_eq_ok_iff reads active named resolved).2
          ⟨inside, (preprocessFile_eq_ok_iff read active apart balanced).2 carried, rfl, rfl⟩,
        preprocessLines_renumber ended, rfl⟩
  · intro output left
    rw [linesEffect_append_eq_ok_iff]
    constructor
    · rintro ⟨front, between, middle, back, effect, included, rfl⟩
      cases reached.symm.trans effect
      obtain ⟨own, _, left, _, includesOwn, nothing, rfl⟩ := linesEffect_cons_eq_ok_iff.1 included
      obtain ⟨inside, preprocessed, -, rfl⟩ :=
        (lineEffect_including_eq_ok_iff reads active named resolved).1 includesOwn
      cases nothing
      exact ⟨inside, preprocessed, by simp⟩
    · rintro ⟨inside, preprocessed, rfl⟩
      exact ⟨_, _, _, _, reached, linesEffect_cons_eq_ok_iff.2
        ⟨_, _, _, [], (lineEffect_including_eq_ok_iff reads active named resolved).2
          ⟨inside, preprocessed, rfl, rfl⟩, rfl, rfl⟩, by simp⟩

/-- A config that includes another file. -/
def includingConfig : Text := "#define A 1\n#include \"inner.hpp\"\nx = B;\n"

/-- The included file, which uses a macro of the config and defines one for it. -/
def innerConfig : Text := "#ifdef A\n#define B A\n#endif\n"

/-- The paths of both. -/
def includingFile : Path := ⟨"config.cpp"⟩

def innerFile : Path := ⟨"inner.hpp"⟩

/-- A tree with both files. -/
def includingTree : FileTree :=
  { entries := [(["config.cpp".toList], .file includingConfig.encode false),
      (["inner.hpp".toList], .file innerConfig.encode false)] }

/-- The macro of the included file is expanded in the config, and the one of the config was seen
inside. -/
theorem includingTree_inlined :
    ∃ after, preprocessFile includingTree ⟨[]⟩ 1 includingFile {} =
      .ok ([[], [], [], [], [], ['x', ' ', '=', ' ', '1', ';']], after) := by
  have source : sourceLines includingTree includingFile = .ok
      (["#define A 1".toList] ++ "#include \"inner.hpp\"".toList :: ["x = B;".toList]) := by
    have found : includingTree.find includingFile =
        .ok (["config.cpp".toList], .file includingConfig.encode false) := rfl
    unfold sourceLines
    rw [FileTree.readText_eq_ok_iff.2 ⟨_, _, _, found, Text.decode?_encode includingConfig⟩]
    rfl
  have read : sourceLines includingTree innerFile = .ok
      ["#ifdef A".toList, "#define B A".toList, "#endif".toList] := by
    have found : includingTree.find innerFile =
        .ok (["inner.hpp".toList], .file innerConfig.encode false) := rfl
    unfold sourceLines
    rw [FileTree.readText_eq_ok_iff.2 ⟨_, _, _, found, Text.decode?_encode innerConfig⟩]
    rfl
  have apart : ∀ line ∈ ["#ifdef A".toList, "#define B A".toList, "#endif".toList], ¬ IsInclusion line := by
    rintro line member ⟨argument, reads⟩
    simp only [List.mem_cons, List.not_mem_nil, or_false] at member
    obtain rfl | rfl | rfl := member <;> cases reads
  obtain ⟨inlines, -⟩ := preprocessFile_inlines source rfl rfl rfl rfl rfl read apart rfl
  exact ⟨_, (inlines _ _).2 rfl⟩

end AddonIndex.ClassConfig
