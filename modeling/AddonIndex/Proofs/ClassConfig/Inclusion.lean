import AddonIndex.ClassConfig.Read
import AddonIndex.Proofs.Except

/-!
# The inclusions that are carried out

Which files a config includes depends on the definitions made on the way, so the
inclusions are listed along with preprocessing. If each of them leads to related
files in two trees, and related files have the same text, then a config is read
from the one tree as its relative is from the other.
-/

namespace AddonIndex.ClassConfig

/-- An inclusion: the including file, and the name of the included one. -/
abbrev Inclusion := Path × Text

/-- The inclusions that one logical line carries out, given those of an included file. -/
def lineInclusions (tree : FileTree) (includeDirectory : Path)
    (inner : Path → Definitions → List Inclusion) (file : Path) (opened : List OpenConditional)
    (definitions : Definitions) (line : Text) : List Inclusion :=
  match Line.read line with
  | .directive (.inclusion argument) =>
      if isActive opened then
        match readInclusion? argument with
        | none => []
        | some name =>
            (file, name) ::
              match resolveInclusion tree file includeDirectory name with
              | none => []
              | some target => inner target definitions
      else []
  | _ => []

/-- The inclusions that logical lines carry out. -/
def linesInclusions (tree : FileTree) (includeDirectory : Path) (includer : Option Includer)
    (inner : Path → Definitions → List Inclusion) (file : Path) :
    (number : Nat) → List OpenConditional → Definitions → List Text → List Inclusion
  | _, _, _, [] => []
  | number, opened, definitions, line :: rest =>
      lineInclusions tree includeDirectory inner file opened definitions line ++
        match lineEffect tree includeDirectory includer file number opened definitions line with
        | .error _ => []
        | .ok (_, opened, definitions) =>
            linesInclusions tree includeDirectory includer inner file (number + 1) opened
              definitions rest

/-- The inclusions that preprocessing a file carries out, to the given depth. -/
def inclusions (tree : FileTree) (includeDirectory : Path) :
    (depth : Nat) → Path → Definitions → List Inclusion
  | 0, file, definitions =>
      match sourceLines tree file with
      | .error _ => []
      | .ok lines =>
          linesInclusions tree includeDirectory none (fun _ _ => []) file 1 [] definitions lines
  | depth + 1, file, definitions =>
      match sourceLines tree file with
      | .error _ => []
      | .ok lines =>
          linesInclusions tree includeDirectory (some (preprocessFile tree includeDirectory depth))
            (inclusions tree includeDirectory depth) file 1 [] definitions lines

/-! ## Two trees -/

/-- Two trees, each with a directory for included files. -/
structure TreePair where
  tree : FileTree
  directory : Path
  other : FileTree
  otherDirectory : Path

/-- Whether each of some inclusions leads a relative of its file to a relative of what it leads
to itself. -/
def TreePair.Agree (pair : TreePair) (related : Path → Path → Prop) (carried : List Inclusion) : Prop :=
  ∀ inclusion ∈ carried, ∀ relative, related inclusion.1 relative → ∀ target,
    resolveInclusion pair.tree inclusion.1 pair.directory inclusion.2 = some target →
      ∃ otherTarget,
        resolveInclusion pair.other relative pair.otherDirectory inclusion.2 = some otherTarget ∧
          related target otherTarget

variable {pair : TreePair} {related : Path → Path → Prop}

/-- Whether related files are included alike if their inclusions agree. -/
def TreePair.Includes (pair : TreePair) (related : Path → Path → Prop)
    (inner : Path → Definitions → List Inclusion) : Option Includer → Option Includer → Prop
  | none, none => True
  | some first, some second =>
      ∀ target otherTarget definitions result, related target otherTarget →
        pair.Agree related (inner target definitions) →
        first target definitions = .ok result → second otherTarget definitions = .ok result
  | _, _ => False

theorem TreePair.agree_append_iff {first second : List Inclusion} :
    pair.Agree related (first ++ second) ↔ pair.Agree related first ∧ pair.Agree related second :=
  List.forall_mem_append

variable {inner : Path → Definitions → List Inclusion} {file relative : Path}
  {first second : Option Includer} {number : Nat} {opened : List OpenConditional}
  {definitions : Definitions}

/-- An inclusion has the same effect in both trees. -/
theorem inclusion_eq_ok {argument : Text} {result : List Text × List OpenConditional × Definitions}
    {line : Text} (reads : Line.read line = .directive (.inclusion argument))
    (includes : pair.Includes related inner first second) (same : related file relative)
    (agree : pair.Agree related
      (lineInclusions pair.tree pair.directory inner file opened definitions line))
    (effect : lineEffect pair.tree pair.directory first file number opened definitions line =
      .ok result) :
    lineEffect pair.other pair.otherDirectory second relative number opened definitions line =
      .ok result := by
  unfold lineEffect at effect ⊢
  unfold lineInclusions at agree
  simp only [reads] at effect agree ⊢
  by_cases active : isActive opened = true
  · simp only [active, if_true] at effect agree ⊢
    cases named : readInclusion? argument with
    | none =>
        rw [named] at effect
        cases effect
    | some name =>
        simp only [named] at effect agree ⊢
        cases first with
        | none => cases effect
        | some first =>
            cases second with
            | none => exact includes.elim
            | some second =>
                simp only at effect ⊢
                cases resolved : resolveInclusion pair.tree file pair.directory name with
                | none =>
                    rw [resolved] at effect
                    cases effect
                | some target =>
                    simp only [resolved] at effect agree
                    obtain ⟨otherTarget, otherResolved, sameTarget⟩ :=
                      agree (file, name) List.mem_cons_self relative same target resolved
                    simp only [otherResolved]
                    cases included : first target definitions with
                    | error e =>
                        rw [included] at effect
                        cases effect
                    | ok inside =>
                        rw [included] at effect
                        rw [includes target otherTarget definitions inside sameTarget
                          (fun inclusion member =>
                            agree inclusion (List.mem_cons_of_mem _ member)) included]
                        exact effect
  · simp only [active] at effect ⊢
    exact effect

/-- A logical line has the same effect in both trees. -/
theorem lineEffect_eq_ok {line : Text} {result : List Text × List OpenConditional × Definitions}
    (includes : pair.Includes related inner first second) (same : related file relative)
    (agree : pair.Agree related
      (lineInclusions pair.tree pair.directory inner file opened definitions line))
    (effect : lineEffect pair.tree pair.directory first file number opened definitions line =
      .ok result) :
    lineEffect pair.other pair.otherDirectory second relative number opened definitions line =
      .ok result := by
  cases reads : Line.read line with
  | ordinary text =>
      unfold lineEffect at effect ⊢
      simp only [reads] at effect ⊢
      exact effect
  | directive directive =>
      cases directive with
      | inclusion argument => exact inclusion_eq_ok reads includes same agree effect
      | define argument =>
          unfold lineEffect at effect ⊢
          simp only [reads] at effect ⊢
          by_cases active : isActive opened = true
          · cases definition : Definition.read? argument with
            | none => simp [active, definition] at effect
            | some definition' => simpa [active, definition] using effect
          · simpa [active] using effect
      | otherwise =>
          unfold lineEffect at effect ⊢
          simp only [reads] at effect ⊢
          cases opened with
          | nil => cases effect
          | cons innermost outer =>
              by_cases seen : innermost.elseSeen = true
              · simp [seen] at effect
              · simpa [seen] using effect
      | endIf =>
          unfold lineEffect at effect ⊢
          simp only [reads] at effect ⊢
          cases opened with
          | nil => cases effect
          | cons innermost outer => exact effect
      | _ =>
          unfold lineEffect at effect ⊢
          simp only [reads] at effect ⊢
          exact effect

/-- Logical lines are preprocessed alike in both trees. -/
theorem preprocessLines_eq_ok {lines : List Text} {result : List Text × Definitions}
    (includes : pair.Includes related inner first second) (same : related file relative)
    (agree : pair.Agree related
      (linesInclusions pair.tree pair.directory first inner file number opened definitions lines))
    (preprocessed : preprocessLines pair.tree pair.directory first file number opened definitions
      lines = .ok result) :
    preprocessLines pair.other pair.otherDirectory second relative number opened definitions lines =
      .ok result := by
  induction lines generalizing number opened definitions result with
  | nil =>
      unfold preprocessLines at preprocessed ⊢
      split at preprocessed
      · rename_i closed
        rw [if_pos closed]
        exact preprocessed
      · cases preprocessed
  | cons line rest ih =>
      unfold preprocessLines at preprocessed ⊢
      unfold linesInclusions at agree
      obtain ⟨lineAgree, restAgree⟩ := TreePair.agree_append_iff.1 agree
      cases effect : lineEffect pair.tree pair.directory first file number opened definitions line with
      | error e =>
          rw [effect] at preprocessed
          cases preprocessed
      | ok after =>
          obtain ⟨output, openedAfter, definitionsAfter⟩ := after
          rw [effect] at preprocessed
          simp only [effect] at restAgree
          rw [lineEffect_eq_ok includes same lineAgree effect]
          simp only at preprocessed ⊢
          cases outputs : preprocessLines pair.tree pair.directory first file (number + 1)
              openedAfter definitionsAfter rest with
          | error e =>
              rw [outputs] at preprocessed
              cases preprocessed
          | ok rested =>
              rw [outputs] at preprocessed
              rw [ih restAgree outputs]
              exact preprocessed

theorem sourceLines_eq_ok {lines : List Text}
    (texts : ∀ file relative, related file relative → ∀ text,
      pair.tree.readText file = .ok text → pair.other.readText relative = .ok text)
    (same : related file relative) (source : sourceLines pair.tree file = .ok lines) :
    sourceLines pair.other relative = .ok lines := by
  unfold sourceLines at source ⊢
  cases read : pair.tree.readText file with
  | error cause =>
      rw [read] at source
      cases source
  | ok text =>
      rw [read] at source
      rw [texts file relative same text read]
      exact source

/-- A file is preprocessed in one tree as its relative in the other one, if related files have
the same text. -/
theorem preprocessFile_eq_ok {depth : Nat} {result : List Text × Definitions}
    (texts : ∀ file relative, related file relative → ∀ text,
      pair.tree.readText file = .ok text → pair.other.readText relative = .ok text)
    (same : related file relative)
    (agree : pair.Agree related (inclusions pair.tree pair.directory depth file definitions))
    (preprocessed : preprocessFile pair.tree pair.directory depth file definitions = .ok result) :
    preprocessFile pair.other pair.otherDirectory depth relative definitions = .ok result := by
  induction depth generalizing file relative definitions result with
  | zero =>
      unfold preprocessFile at preprocessed ⊢
      unfold inclusions at agree
      obtain ⟨lines, source, preprocessed⟩ := bind_eq_ok_iff.1 preprocessed
      rw [source] at agree
      rw [sourceLines_eq_ok texts same source]
      have includes : pair.Includes related (fun _ _ => []) none none := trivial
      exact preprocessLines_eq_ok includes same agree preprocessed
  | succ depth ih =>
      unfold preprocessFile at preprocessed ⊢
      unfold inclusions at agree
      obtain ⟨lines, source, preprocessed⟩ := bind_eq_ok_iff.1 preprocessed
      rw [source] at agree
      rw [sourceLines_eq_ok texts same source]
      have includes : pair.Includes related (inclusions pair.tree pair.directory depth)
          (some (preprocessFile pair.tree pair.directory depth))
          (some (preprocessFile pair.other pair.otherDirectory depth)) :=
        fun target otherTarget definitions result sameTarget innerAgree included =>
          ih sameTarget innerAgree included
      exact preprocessLines_eq_ok includes same agree preprocessed

/-- A parsed config with another path. -/
def ParsedConfig.withPath (config : ParsedConfig) (path : Path) : ParsedConfig :=
  { config with file := { config.file with path } }

/-- Which path failures would be reported for does not matter to a text without failures. -/
theorem readText_eq_ok {text : Text} {body : Body} (read : readText file text = .ok body) :
    readText relative text = .ok body := by
  unfold readText at read ⊢
  cases scanned : scan text with
  | error line =>
      rw [scanned] at read
      cases read
  | ok lexemes =>
      simp only [scanned] at read ⊢
      cases parsed : readBody lexemes with
      | error failure =>
          rw [parsed] at read
          cases read
      | ok found =>
          rw [parsed] at read
          exact read

/-- A config is read from one tree as its relative from the other one, path aside. -/
theorem readConfig_eq_ok {config : ParsedConfig}
    (texts : ∀ file relative, related file relative → ∀ text,
      pair.tree.readText file = .ok text → pair.other.readText relative = .ok text)
    (same : related file relative)
    (agree : pair.Agree related (inclusions pair.tree pair.directory maxInclusionDepth file {}))
    (read : readConfig pair.tree file pair.directory = .ok config) :
    config.file.path = file ∧
      readConfig pair.other relative pair.otherDirectory = .ok (config.withPath relative) := by
  obtain ⟨⟨lines, definitions⟩, preprocessed, rest⟩ := bind_eq_ok_iff.1 read
  obtain ⟨body, parsed, result⟩ := bind_eq_ok_iff.1 rest
  cases result
  refine ⟨rfl, bind_eq_ok_iff.2 ⟨(lines, definitions), ?_, ?_⟩⟩
  · exact preprocessFile_eq_ok texts same agree preprocessed
  · exact bind_eq_ok_iff.2 ⟨body, readText_eq_ok parsed, rfl⟩

/-!
## Trees that agree on what is included

What is read of a config depends on the files only by where its inclusions lead, and by the logical lines of the files
that they lead to. So it is read alike from trees that agree on these, also if it cannot be read.
-/

section Agreement

variable {first second : FileTree} {includeDirectory : Path} {inner : Path → Definitions → List Inclusion}
  {includer otherIncluder : Option Includer} {file : Path} {number : Nat} {opened : List OpenConditional}
  {definitions : Definitions}

/-- Whether inclusions lead to the same files in two trees, and these have the same logical lines. -/
def LeadAlike (first second : FileTree) (includeDirectory : Path) (carried : List Inclusion) : Prop :=
  ∀ inclusion ∈ carried,
    resolveInclusion second inclusion.1 includeDirectory inclusion.2 =
        resolveInclusion first inclusion.1 includeDirectory inclusion.2 ∧
      ∀ target, resolveInclusion first inclusion.1 includeDirectory inclusion.2 = some target →
        sourceLines second target = sourceLines first target

/-- Whether files with the same logical lines are included alike if their inclusions lead alike. -/
def IncludesEqually (first second : FileTree) (includeDirectory : Path) (inner : Path → Definitions → List Inclusion) :
    Option Includer → Option Includer → Prop
  | none, none => True
  | some includer, some other =>
      ∀ target definitions, sourceLines second target = sourceLines first target →
        LeadAlike first second includeDirectory (inner target definitions) →
        other target definitions = includer target definitions
  | _, _ => False

theorem leadAlike_append_iff {carried more : List Inclusion} :
    LeadAlike first second includeDirectory (carried ++ more) ↔
      LeadAlike first second includeDirectory carried ∧ LeadAlike first second includeDirectory more :=
  List.forall_mem_append

/-- A logical line has the same effect in both trees, be it an error. -/
theorem lineEffect_congr {line : Text}
    (includes : IncludesEqually first second includeDirectory inner includer otherIncluder)
    (lead : LeadAlike first second includeDirectory
      (lineInclusions first includeDirectory inner file opened definitions line)) :
    lineEffect second includeDirectory otherIncluder file number opened definitions line =
      lineEffect first includeDirectory includer file number opened definitions line := by
  unfold lineInclusions at lead
  unfold lineEffect
  split
  · rfl
  · rfl
  · rfl
  · rename_i argument reads
    simp only [reads] at lead
    by_cases active : isActive opened = true
    · simp only [active, if_true] at lead ⊢
      cases named : readInclusion? argument with
      | none => rfl
      | some name =>
          simp only [named] at lead
          rcases List.forall_mem_cons.1 lead with ⟨⟨resolves, lines⟩, lead⟩
          cases includer with
          | none =>
              cases otherIncluder with
              | none => rfl
              | some other => exact includes.elim
          | some includer =>
              cases otherIncluder with
              | none => exact includes.elim
              | some other =>
                  simp only [resolves]
                  cases resolved : resolveInclusion first file includeDirectory name with
                  | none => rfl
                  | some target =>
                      rw [resolved] at lead
                      simp only [includes target definitions (lines target resolved) lead]
    · simp only [active]
      rfl
  all_goals rfl

theorem preprocessLines_congr {lines : List Text}
    (includes : IncludesEqually first second includeDirectory inner includer otherIncluder)
    (lead : LeadAlike first second includeDirectory
      (linesInclusions first includeDirectory includer inner file number opened definitions lines)) :
    preprocessLines second includeDirectory otherIncluder file number opened definitions lines =
      preprocessLines first includeDirectory includer file number opened definitions lines := by
  induction lines generalizing number opened definitions with
  | nil => rfl
  | cons line rest ih =>
      unfold linesInclusions at lead
      rcases leadAlike_append_iff.1 lead with ⟨lineLead, restLead⟩
      unfold preprocessLines
      rw [lineEffect_congr includes lineLead]
      cases effect : lineEffect first includeDirectory includer file number opened definitions line with
      | error e => rfl
      | ok after =>
          rcases after with ⟨output, openedAfter, definitionsAfter⟩
          rw [effect] at restLead
          simp only [ih restLead]

theorem preprocessFile_congr {depth : Nat} (source : sourceLines second file = sourceLines first file)
    (lead : LeadAlike first second includeDirectory (inclusions first includeDirectory depth file definitions)) :
    preprocessFile second includeDirectory depth file definitions =
      preprocessFile first includeDirectory depth file definitions := by
  induction depth generalizing file definitions with
  | zero =>
      unfold inclusions at lead
      unfold preprocessFile
      rw [source]
      cases read : sourceLines first file with
      | error e => rfl
      | ok lines =>
          rw [read] at lead
          have includes : IncludesEqually first second includeDirectory (fun _ _ => []) none none := trivial
          exact preprocessLines_congr includes lead
  | succ depth ih =>
      unfold inclusions at lead
      unfold preprocessFile
      rw [source]
      cases read : sourceLines first file with
      | error e => rfl
      | ok lines =>
          rw [read] at lead
          have includes : IncludesEqually first second includeDirectory (inclusions first includeDirectory depth)
              (some (preprocessFile first includeDirectory depth)) (some (preprocessFile second includeDirectory depth)) :=
            fun target definitions source lead => ih source lead
          exact preprocessLines_congr includes lead

/-- A config is read alike from trees that agree on it and on what it includes. -/
theorem readConfig_congr (source : sourceLines second file = sourceLines first file)
    (lead : LeadAlike first second includeDirectory (inclusions first includeDirectory maxInclusionDepth file {})) :
    readConfig second file includeDirectory = readConfig first file includeDirectory := by
  simp only [readConfig, preprocess, preprocessFile_congr source lead]

end Agreement

/-- Whether the same paths lead to files in two trees, and these have the same logical lines. -/
structure SameSources (first second : FileTree) : Prop where
  isFile : ∀ path, second.isFile path = first.isFile path
  sourceLines : ∀ file, ClassConfig.sourceLines second file = ClassConfig.sourceLines first file

/-- A config is read alike from trees with the same sources. -/
theorem SameSources.readConfig_eq {first second : FileTree} (same : SameSources first second)
    (file includeDirectory : Path) : readConfig second file includeDirectory = readConfig first file includeDirectory := by
  apply readConfig_congr (same.sourceLines file)
  intro inclusion _
  refine ⟨?_, fun target _ => same.sourceLines target⟩
  rw [resolveInclusion, resolveInclusion, funext same.isFile]

end AddonIndex.ClassConfig
