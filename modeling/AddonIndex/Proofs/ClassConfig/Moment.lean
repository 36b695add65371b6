import AddonIndex.Proofs.ClassConfig.LineRole

/-!
# Preprocessing moment by moment

Preprocessing goes on line by line, and into an included file where an inclusion is carried out. A
moment of it is what is left to be read, of the innermost file first, with the definitions at that
point. Preprocessing a file comes to the definitions at which the last moment is reached, and fails as a
moment does that has no next one.
-/

namespace AddonIndex.ClassConfig

/-- A file that is being preprocessed: the number of its next line, the open conditionals and the lines
that are left. Files may be included in one another to the given depth. -/
structure OpenFile where
  file : Path
  depth : Nat
  number : Nat
  opened : List OpenConditional
  lines : List Text

/-- A moment of preprocessing: the files that are being preprocessed, the innermost one first, and the
definitions. -/
structure Moment where
  files : List OpenFile
  definitions : Definitions

/-- The definitions that a line makes: one, if the line is active and defines a macro. -/
def definitionsMade (opened : List OpenConditional) (line : Text) : List Definition :=
  if isActive opened then
    match Line.read line with
    | .directive (.define argument) => (Definition.read? argument).toList
    | _ => []
  else []

/-- The file that is entered at a line: the one that an active inclusion names, if there is such a file
and the depth allows it. -/
def enteredFile? (tree : FileTree) (includeDirectory file : Path) (depth : Nat) (opened : List OpenConditional)
    (line : Text) : Option Path :=
  if isActive opened ∧ 0 < depth then
    match Line.read line with
    | .directive (.inclusion argument) =>
        (readInclusion? argument).bind (resolveInclusion tree file includeDirectory)
    | _ => none
  else none

/-- What stands for the includer at a line that enters no file. Only whether there is one makes a
difference. -/
def unusedIncluder (depth : Nat) : Option Includer :=
  if depth = 0 then none else some fun _ definitions => .ok ([], definitions)

/-- The next moment after one in which a file is being preprocessed, with the definitions made. The file
is left at its end, another one is entered at its inclusion, and any other line is carried out. -/
def advance (tree : FileTree) (includeDirectory : Path) (definitions : Definitions) (outer : List OpenFile) :
    OpenFile → Except ConfigError (List Definition × Moment)
  | ⟨file, _, number, opened, []⟩ =>
      if opened.isEmpty then .ok ([], ⟨outer, definitions⟩)
      else .error (.directive file (number - 1) .unterminatedConditional)
  | ⟨file, depth, number, opened, line :: rest⟩ =>
      match enteredFile? tree includeDirectory file depth opened line with
      | some target => do
          let lines ← sourceLines tree target
          return ([], ⟨⟨target, depth - 1, 1, [], lines⟩ :: ⟨file, depth, number + 1, opened, rest⟩ :: outer,
            definitions⟩)
      | none => do
          let (_, later, after) ←
            lineEffect tree includeDirectory (unusedIncluder depth) file number opened definitions line
          return (definitionsMade opened line, ⟨⟨file, depth, number + 1, later, rest⟩ :: outer, after⟩)

/-- Whether preprocessing goes from one moment to another one, making some definitions. -/
inductive Course (tree : FileTree) (includeDirectory : Path) : Moment → List Definition → Moment → Prop
  | still (moment : Moment) : Course tree includeDirectory moment [] moment
  | onwards {definitions : Definitions} {outer : List OpenFile} {current : OpenFile} {made later : List Definition}
      {next last : Moment}
      (advances : advance tree includeDirectory definitions outer current = .ok (made, next))
      (course : Course tree includeDirectory next later last) :
      Course tree includeDirectory ⟨current :: outer, definitions⟩ (made ++ later) last

variable {tree : FileTree} {includeDirectory file target : Path} {depth number : Nat}
  {opened : List OpenConditional} {definitions : Definitions} {line : Text} {outer : List OpenFile}
  {start middle last : Moment} {made later : List Definition}

namespace Course

theorem trans (first : Course tree includeDirectory start made middle)
    (second : Course tree includeDirectory middle later last) :
    Course tree includeDirectory start (made ++ later) last := by
  induction first with
  | still => exact second
  | onwards advances _ ih =>
      rw [List.append_assoc]
      exact .onwards advances (ih second)

/-- There is one way on: of two moments that are reached, one is reached from the other one. -/
theorem linear {other : Moment} {also : List Definition} (first : Course tree includeDirectory start made middle)
    (second : Course tree includeDirectory start also other) :
    (∃ rest, Course tree includeDirectory middle rest other) ∨
      ∃ rest, Course tree includeDirectory other rest middle := by
  induction first generalizing also with
  | still => exact .inl ⟨also, second⟩
  | onwards advances course ih =>
      cases second with
      | still => exact .inr ⟨_, .onwards advances course⟩
      | onwards alike further =>
          cases advances.symm.trans alike
          exact ih further

end Course

/-! ## Included files -/

/-- How files are included that another one includes to some depth. -/
def includerTo (tree : FileTree) (includeDirectory : Path) : Nat → Option Includer
  | 0 => none
  | depth + 1 => some (preprocessFile tree includeDirectory depth)

theorem preprocessFile_eq_bind (depth : Nat) (file : Path) (definitions : Definitions) :
    preprocessFile tree includeDirectory depth file definitions =
      sourceLines tree file >>=
        preprocessLines tree includeDirectory (includerTo tree includeDirectory depth) file 1 [] definitions := by
  cases depth <;> rfl

/-- A line that enters no file does the same whatever the includer does. -/
theorem lineEffect_of_enteredFile?_eq_none (first second : Includer)
    (entersNone : enteredFile? tree includeDirectory file (depth + 1) opened line = none) :
    lineEffect tree includeDirectory (some first) file number opened definitions line =
      lineEffect tree includeDirectory (some second) file number opened definitions line := by
  unfold enteredFile? at entersNone
  unfold lineEffect
  cases reads : Line.read line with
  | ordinary text => rfl
  | directive directive =>
      cases directive with
      | inclusion argument =>
          simp only
          split
          · rename_i active
            cases named : readInclusion? argument with
            | none => rfl
            | some name =>
                simp only [reads, active, Nat.zero_lt_succ, named, and_self, if_true, Option.bind_some] at entersNone
                simp only [entersNone]
          · rfl
      | _ => rfl

theorem lineEffect_includerTo (entersNone : enteredFile? tree includeDirectory file depth opened line = none) :
    lineEffect tree includeDirectory (includerTo tree includeDirectory depth) file number opened definitions line =
      lineEffect tree includeDirectory (unusedIncluder depth) file number opened definitions line := by
  cases depth with
  | zero => rfl
  | succ inner => exact lineEffect_of_enteredFile?_eq_none _ _ entersNone

/-- A line that enters a file does what that file does, and leaves a blank line. -/
theorem lineEffect_of_enteredFile?_eq_some (number : Nat) (definitions : Definitions)
    (enters : enteredFile? tree includeDirectory file depth opened line = some target) :
    ∃ inner, depth = inner + 1 ∧
      lineEffect tree includeDirectory (includerTo tree includeDirectory depth) file number opened definitions line =
        (preprocessFile tree includeDirectory inner target definitions).map
          fun (output, after) => (output ++ [[]], opened, after) := by
  unfold enteredFile? at enters
  split at enters
  · rename_i allowed
    obtain ⟨active, deep⟩ := allowed
    obtain ⟨inner, rfl⟩ : ∃ inner, depth = inner + 1 := Nat.exists_eq_add_one.2 deep
    refine ⟨inner, rfl, ?_⟩
    split at enters
    · rename_i argument reads
      obtain ⟨name, named, resolved⟩ := Option.bind_eq_some_iff.1 enters
      unfold lineEffect
      simp only [reads, active, if_true, named, includerTo, resolved]
      cases preprocessFile tree includeDirectory inner target definitions <;> rfl
    · cases enters
  · cases enters

theorem advance_of_enteredFile?_eq_none {rest : List Text}
    (entersNone : enteredFile? tree includeDirectory file depth opened line = none) :
    advance tree includeDirectory definitions outer ⟨file, depth, number, opened, line :: rest⟩ =
      lineEffect tree includeDirectory (unusedIncluder depth) file number opened definitions line >>=
        fun (_, later, after) =>
          .ok (definitionsMade opened line, ⟨⟨file, depth, number + 1, later, rest⟩ :: outer, after⟩) := by
  simp only [advance, entersNone]
  rfl

theorem advance_of_enteredFile?_eq_some {rest : List Text}
    (enters : enteredFile? tree includeDirectory file depth opened line = some target) :
    advance tree includeDirectory definitions outer ⟨file, depth, number, opened, line :: rest⟩ =
      sourceLines tree target >>= fun lines =>
        .ok ([], ⟨⟨target, depth - 1, 1, [], lines⟩ :: ⟨file, depth, number + 1, opened, rest⟩ :: outer,
          definitions⟩) := by
  simp only [advance, enters]
  rfl

/-! ## From the first moment to the last one -/

/-- Whether a moment is one with only the outer files left and the definitions of a result, or one that
fails with its error. -/
def Stops (tree : FileTree) (includeDirectory : Path) (outer : List OpenFile) (last : Moment) :
    Except ConfigError Definitions → Prop
  | .ok after => last = ⟨outer, after⟩
  | .error e => ∃ definitions others current, last = ⟨current :: others, definitions⟩ ∧
      advance tree includeDirectory definitions others current = .error e

/-- Whether preprocessing goes from a moment to one at which it stops, or is through with the inner files,
with a result. -/
def ComesTo (tree : FileTree) (includeDirectory : Path) (start : Moment) (outer : List OpenFile)
    (result : Except ConfigError Definitions) : Prop :=
  ∃ made last, Course tree includeDirectory start made last ∧ Stops tree includeDirectory outer last result

variable {result other : Except ConfigError Definitions} {others : List OpenFile} {current : OpenFile}

theorem ComesTo.after (course : Course tree includeDirectory start made middle)
    (comes : ComesTo tree includeDirectory middle outer result) : ComesTo tree includeDirectory start outer result := by
  obtain ⟨later, last, further, stops⟩ := comes
  exact ⟨_, last, course.trans further, stops⟩

theorem comesTo_of_advance {next : Moment}
    (advances : advance tree includeDirectory definitions outer current = .ok (made, next))
    (comes : ComesTo tree includeDirectory next others result) :
    ComesTo tree includeDirectory ⟨current :: outer, definitions⟩ others result :=
  .after (.onwards advances (.still next)) comes

theorem comesTo_of_advance_eq_error {e : ConfigError}
    (fails : advance tree includeDirectory definitions outer current = .error e) :
    ComesTo tree includeDirectory ⟨current :: outer, definitions⟩ others (.error e) :=
  ⟨[], _, .still _, definitions, outer, current, rfl, fails⟩

/-- What preprocessing a file comes to after some lines is what preprocessing the others comes to. -/
theorem map_snd_prepend (first : List Text) (rest : Except ConfigError (List Text × Definitions)) :
    (rest >>= fun (outputs, after) => pure (first ++ outputs, after)).map Prod.snd = rest.map Prod.snd := by
  cases rest <;> rfl

/-- Preprocessing lines comes to their result, if preprocessing each included file does. -/
theorem comesTo_preprocessLines
    (included : ∀ inner target lines definitions outer, depth = inner + 1 → sourceLines tree target = .ok lines →
      ComesTo tree includeDirectory ⟨⟨target, inner, 1, [], lines⟩ :: outer, definitions⟩ outer
        ((preprocessFile tree includeDirectory inner target definitions).map Prod.snd))
    (lines : List Text) :
    ComesTo tree includeDirectory ⟨⟨file, depth, number, opened, lines⟩ :: outer, definitions⟩ outer
      ((preprocessLines tree includeDirectory (includerTo tree includeDirectory depth) file number opened definitions
        lines).map Prod.snd) := by
  induction lines generalizing number opened definitions with
  | nil =>
      cases opened with
      | nil => exact ⟨_, _, .onwards rfl (.still _), rfl⟩
      | cons innermost around => exact comesTo_of_advance_eq_error rfl
  | cons line rest ih =>
      rw [preprocessLines_cons]
      cases enters : enteredFile? tree includeDirectory file depth opened line with
      | none =>
          rw [lineEffect_includerTo enters]
          cases effect : lineEffect tree includeDirectory (unusedIncluder depth) file number opened definitions line with
          | error e => exact comesTo_of_advance_eq_error (by rw [advance_of_enteredFile?_eq_none enters, effect]; rfl)
          | ok result =>
              obtain ⟨output, later, after⟩ := result
              rw [ok_bind, map_snd_prepend]
              exact comesTo_of_advance (by rw [advance_of_enteredFile?_eq_none enters, effect]; rfl) ih
      | some target =>
          obtain ⟨inner, rfl, effect⟩ := lineEffect_of_enteredFile?_eq_some number definitions enters
          rw [effect]
          cases sources : sourceLines tree target with
          | error e =>
              rw [preprocessFile_eq_bind, sources]
              exact comesTo_of_advance_eq_error (by rw [advance_of_enteredFile?_eq_some enters, sources]; rfl)
          | ok targetLines =>
              suffices inside : ComesTo tree includeDirectory
                  ⟨⟨target, inner, 1, [], targetLines⟩ :: ⟨file, inner + 1, number + 1, opened, rest⟩ :: outer,
                    definitions⟩ outer _ from
                comesTo_of_advance (by rw [advance_of_enteredFile?_eq_some enters, sources]; rfl) inside
              have comes := included inner target targetLines definitions
                (⟨file, inner + 1, number + 1, opened, rest⟩ :: outer) rfl sources
              cases result : preprocessFile tree includeDirectory inner target definitions with
              | error e =>
                  rw [result] at comes
                  exact comes
              | ok written =>
                  obtain ⟨output, after⟩ := written
                  rw [result] at comes
                  obtain ⟨made, _, course, rfl⟩ := comes
                  refine .after course ?_
                  rw [Except.map, ok_bind, map_snd_prepend]
                  exact ih

/-- Preprocessing a file comes to its result. -/
theorem comesTo_preprocessFile {lines : List Text} (sources : sourceLines tree file = .ok lines) :
    ComesTo tree includeDirectory ⟨⟨file, depth, 1, [], lines⟩ :: outer, definitions⟩ outer
      ((preprocessFile tree includeDirectory depth file definitions).map Prod.snd) := by
  induction depth generalizing file definitions outer lines with
  | zero =>
      rw [preprocessFile_eq_bind, sources]
      exact comesTo_preprocessLines (fun inner _ _ _ _ deeper => absurd deeper.symm inner.succ_ne_zero) lines
  | succ depth ih =>
      rw [preprocessFile_eq_bind, sources]
      refine comesTo_preprocessLines (fun inner target targetLines definitions outer deeper sources => ?_) lines
      cases deeper
      exact ih sources

/-! ## One result -/

/-- Nothing follows a moment at which preprocessing stops. -/
theorem Stops.eq_of_course (stops : Stops tree includeDirectory [] start result)
    (course : Course tree includeDirectory start made last) : last = start := by
  cases course with
  | still => rfl
  | onwards advances =>
      cases result with
      | ok after => cases stops
      | error e =>
          obtain ⟨_, _, _, same, fails⟩ := stops
          cases same
          cases advances.symm.trans fails

theorem Stops.unique (stops : Stops tree includeDirectory [] last result)
    (also : Stops tree includeDirectory [] last other) : result = other := by
  cases result with
  | ok after =>
      cases stops
      cases other with
      | ok others =>
          cases also
          rfl
      | error e =>
          obtain ⟨_, _, _, same, -⟩ := also
          cases same
  | error e =>
      obtain ⟨_, _, _, rfl, fails⟩ := stops
      cases other with
      | ok others => cases also
      | error others =>
          obtain ⟨_, _, _, same, alsoFails⟩ := also
          cases same
          cases fails.symm.trans alsoFails
          rfl

theorem ComesTo.unique (comes : ComesTo tree includeDirectory start [] result)
    (also : ComesTo tree includeDirectory start [] other) : result = other := by
  obtain ⟨_, last, course, stops⟩ := comes
  obtain ⟨_, final, further, alsoStops⟩ := also
  have same : final = last := by
    rcases course.linear further with ⟨_, rest⟩ | ⟨_, rest⟩
    · exact stops.eq_of_course rest
    · exact (alsoStops.eq_of_course rest).symm
  exact stops.unique (same ▸ alsoStops)

end AddonIndex.ClassConfig
