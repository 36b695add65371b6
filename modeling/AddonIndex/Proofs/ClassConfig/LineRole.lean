import AddonIndex.ClassConfig.Preprocess
import AddonIndex.Proofs.Except

/-!
# What lines do to conditionals

To the open conditionals a logical line is one of four things: it opens one,
turns to its second branch, ends it, or leaves them as they are. Lines of the
first three kinds do nothing else, and they do it whether they are active or
not; a line of the last kind does nothing at all unless it is active.
-/

namespace AddonIndex.ClassConfig

/-- What a conditional depends on. -/
inductive Condition
  | defined (name : Text)
  | notDefined (name : Text)
  | value (text : Text)
deriving DecidableEq, Repr

/-- Whether a condition holds when some macros are defined. -/
def Condition.holds (macros : MacroTable) : Condition → Bool
  | defined name => macros.has name
  | notDefined name => !macros.has name
  | value text => text ≠ ['0']

/-- What a logical line is to the conditionals around it. -/
inductive Role
  | plain
  | opening (condition : Condition)
  | otherwise
  | ending
deriving DecidableEq, Repr

/-- The role of a line as it is read. -/
def Line.role : Line → Role
  | .directive (.ifDefined name) => .opening (.defined name)
  | .directive (.ifNotDefined name) => .opening (.notDefined name)
  | .directive (.ifValue text) => .opening (.value text)
  | .directive .otherwise => .otherwise
  | .directive .endIf => .ending
  | _ => .plain

/-- The role of a logical line. -/
def role (line : Text) : Role := (Line.read line).role

theorem Line.role_eq_otherwise_iff {line : Line} : line.role = .otherwise ↔ line = .directive .otherwise := by
  cases line with
  | ordinary text => simp [Line.role]
  | directive directive => cases directive <;> simp [Line.role]

theorem Line.role_eq_ending_iff {line : Line} : line.role = .ending ↔ line = .directive .endIf := by
  cases line with
  | ordinary text => simp [Line.role]
  | directive directive => cases directive <;> simp [Line.role]

theorem isActive_cons (innermost : OpenConditional) (outer : List OpenConditional) :
    isActive (innermost :: outer) = (innermost.outerActive && innermost.branchActive) := rfl

variable {tree : FileTree} {includeDirectory file : Path} {includer : Option Includer} {number : Nat}
  {opened : List OpenConditional} {definitions : Definitions} {line : Text}

/-- What carrying out a line does that is in no conditional: its output and the definitions after it. -/
def carryOut (tree : FileTree) (includeDirectory : Path) (includer : Option Includer) (file : Path)
    (number : Nat) (definitions : Definitions) (line : Text) :
    Except ConfigError (List Text × Definitions) :=
  (lineEffect tree includeDirectory includer file number [] definitions line).map
    fun (output, _, after) => (output, after)

/-! ## Single lines -/

/-- A line that opens a conditional chooses its first branch if its condition holds at that point. -/
theorem lineEffect_opening {condition : Condition} (opens : role line = .opening condition) :
    lineEffect tree includeDirectory includer file number opened definitions line =
      .ok ([[]], ⟨isActive opened, condition.holds definitions.macros, false⟩ :: opened, definitions) := by
  unfold lineEffect
  cases reads : Line.read line with
  | ordinary text =>
      rw [role, reads] at opens
      cases opens
  | directive directive =>
      rw [role, reads] at opens
      cases directive <;> cases opens <;> rfl

/-- The second branch of a conditional is active where the first one is not. -/
theorem lineEffect_otherwise (divides : role line = .otherwise) (innermost : OpenConditional)
    (unseen : innermost.elseSeen = false) (outer : List OpenConditional) :
    lineEffect tree includeDirectory includer file number (innermost :: outer) definitions line =
      .ok ([[]], ⟨innermost.outerActive, !innermost.branchActive, true⟩ :: outer, definitions) := by
  unfold lineEffect
  rw [Line.role_eq_otherwise_iff.1 divides]
  simp [unseen]

/-- A conditional has no third branch. -/
theorem lineEffect_otherwise_seen (divides : role line = .otherwise) (innermost : OpenConditional)
    (seen : innermost.elseSeen = true) (outer : List OpenConditional) :
    lineEffect tree includeDirectory includer file number (innermost :: outer) definitions line =
      .error (.directive file number .duplicateElse) := by
  unfold lineEffect
  rw [Line.role_eq_otherwise_iff.1 divides]
  simp [seen]

theorem lineEffect_otherwise_nil (divides : role line = .otherwise) :
    lineEffect tree includeDirectory includer file number [] definitions line =
      .error (.directive file number .elseWithoutIf) := by
  unfold lineEffect
  rw [Line.role_eq_otherwise_iff.1 divides]

theorem lineEffect_ending (ends : role line = .ending) (innermost : OpenConditional)
    (outer : List OpenConditional) :
    lineEffect tree includeDirectory includer file number (innermost :: outer) definitions line =
      .ok ([[]], outer, definitions) := by
  unfold lineEffect
  rw [Line.role_eq_ending_iff.1 ends]

theorem lineEffect_ending_nil (ends : role line = .ending) :
    lineEffect tree includeDirectory includer file number [] definitions line =
      .error (.directive file number .endWithoutIf) := by
  unfold lineEffect
  rw [Line.role_eq_ending_iff.1 ends]

/-- An active line of no other role is carried out and leaves the open conditionals. -/
theorem lineEffect_active (plain : role line = .plain) (active : isActive opened = true) :
    lineEffect tree includeDirectory includer file number opened definitions line =
      (carryOut tree includeDirectory includer file number definitions line).map
        fun (output, after) => (output, opened, after) := by
  have outside : isActive [] = true := rfl
  unfold carryOut lineEffect
  cases reads : Line.read line with
  | ordinary text => simp [active, outside, Except.map]
  | directive directive =>
      rw [role, reads] at plain
      cases directive with
      | define argument =>
          simp only [active, outside, if_true]
          cases Definition.read? argument <;> rfl
      | undefine name => simp [active, outside, Except.map]
      | inclusion argument =>
          simp only [active, outside, if_true]
          cases readInclusion? argument with
          | none => rfl
          | some name =>
              cases includer with
              | none => rfl
              | some readIncluded =>
                  cases resolves : resolveInclusion tree file includeDirectory name with
                  | none => simp [resolves, Except.map]
                  | some target =>
                      cases includes : readIncluded target definitions <;>
                        simp [resolves, includes, Except.map]
      | other => rfl
      | _ => cases plain

/-- An inactive line of no other role is as good as blank. -/
theorem lineEffect_inactive (plain : role line = .plain) (inactive : isActive opened = false) :
    lineEffect tree includeDirectory includer file number opened definitions line =
      .ok ([[]], opened, definitions) := by
  unfold lineEffect
  cases reads : Line.read line with
  | ordinary text => simp [inactive]
  | directive directive =>
      rw [role, reads] at plain
      cases directive with
      | define argument => simp [inactive]
      | undefine name => simp [inactive]
      | inclusion argument => simp [inactive]
      | other => rfl
      | _ => cases plain

/-- What a line of some role does without failing, given what it does where it is carried out. -/
inductive LineStep (carries : List Text → Definitions → Prop) (definitions : Definitions) :
    Role → List OpenConditional → List Text → List OpenConditional → Definitions → Prop
  | carried {opened : List OpenConditional} {output : List Text} {after : Definitions}
      (active : isActive opened = true) (does : carries output after) :
      LineStep carries definitions .plain opened output opened after
  | skipped {opened : List OpenConditional} (inactive : isActive opened = false) :
      LineStep carries definitions .plain opened [[]] opened definitions
  | opens {opened : List OpenConditional} (condition : Condition) :
      LineStep carries definitions (.opening condition) opened [[]]
        (⟨isActive opened, condition.holds definitions.macros, false⟩ :: opened) definitions
  | divides (innermost : OpenConditional) (outer : List OpenConditional)
      (unseen : innermost.elseSeen = false) :
      LineStep carries definitions .otherwise (innermost :: outer) [[]]
        (⟨innermost.outerActive, !innermost.branchActive, true⟩ :: outer) definitions
  | ends (innermost : OpenConditional) (outer : List OpenConditional) :
      LineStep carries definitions .ending (innermost :: outer) [[]] outer definitions

theorem lineEffect_eq_ok_iff {output : List Text} {later : List OpenConditional} {after : Definitions} :
    lineEffect tree includeDirectory includer file number opened definitions line =
        .ok (output, later, after) ↔
      LineStep
        (fun output after =>
          carryOut tree includeDirectory includer file number definitions line = .ok (output, after))
        definitions (role line) opened output later after := by
  constructor
  · intro effect
    cases kind : role line with
    | plain =>
        cases active : isActive opened with
        | true =>
            rw [lineEffect_active kind active] at effect
            obtain ⟨_, does, result⟩ := map_eq_ok_iff.1 effect
            cases result
            exact .carried active does
        | false =>
            cases (lineEffect_inactive kind active).symm.trans effect
            exact .skipped active
    | opening condition =>
        cases (lineEffect_opening kind).symm.trans effect
        exact .opens condition
    | otherwise =>
        cases opened with
        | nil => cases (lineEffect_otherwise_nil kind).symm.trans effect
        | cons innermost outer =>
            cases seen : innermost.elseSeen with
            | true => cases (lineEffect_otherwise_seen kind _ seen _).symm.trans effect
            | false =>
                cases (lineEffect_otherwise kind _ seen _).symm.trans effect
                exact .divides innermost outer seen
    | ending =>
        cases opened with
        | nil => cases (lineEffect_ending_nil kind).symm.trans effect
        | cons innermost outer =>
            cases (lineEffect_ending kind innermost outer).symm.trans effect
            exact .ends innermost _
  · intro step
    cases kind : role line <;> rw [kind] at step <;> cases step
    case plain.carried active does =>
      rw [lineEffect_active kind active]
      exact map_eq_ok_iff.2 ⟨_, does, rfl⟩
    case plain.skipped inactive => exact lineEffect_inactive kind inactive
    case opening.opens => exact lineEffect_opening kind
    case otherwise.divides innermost outer unseen => exact lineEffect_otherwise kind innermost unseen outer
    case ending.ends innermost => exact lineEffect_ending kind innermost _

/-- What a line does where it is carried out decides what it does at all. -/
theorem LineStep.imp {carries others : List Text → Definitions → Prop} {kind : Role} {output : List Text}
    {later : List OpenConditional} {after : Definitions}
    (implies : ∀ output after, carries output after → others output after)
    (step : LineStep carries definitions kind opened output later after) :
    LineStep others definitions kind opened output later after := by
  cases step with
  | carried active does => exact .carried active (implies _ _ does)
  | skipped inactive => exact .skipped inactive
  | opens condition => exact .opens condition
  | divides innermost outer unseen => exact .divides innermost outer unseen
  | ends innermost => exact .ends innermost _

/-! ## Several lines -/

/-- What logical lines do, one after another: their output, the open conditionals and the definitions
after them. The first one has the given number. -/
def linesEffect (tree : FileTree) (includeDirectory : Path) (includer : Option Includer) (file : Path) :
    (number : Nat) → List OpenConditional → Definitions → List Text →
    Except ConfigError (List Text × List OpenConditional × Definitions)
  | _, opened, definitions, [] => .ok ([], opened, definitions)
  | number, opened, definitions, line :: rest => do
      let (output, opened, definitions) ←
        lineEffect tree includeDirectory includer file number opened definitions line
      let (outputs, opened, definitions) ←
        linesEffect tree includeDirectory includer file (number + 1) opened definitions rest
      return (output ++ outputs, opened, definitions)

/-- Lines do what the first of them do and then what the others do. -/
theorem linesEffect_append (first second : List Text) :
    linesEffect tree includeDirectory includer file number opened definitions (first ++ second) = do
      let (output, opened, definitions) ←
        linesEffect tree includeDirectory includer file number opened definitions first
      let (outputs, opened, definitions) ←
        linesEffect tree includeDirectory includer file (number + first.length) opened definitions second
      return (output ++ outputs, opened, definitions) := by
  induction first generalizing number opened definitions with
  | nil =>
      cases effects : linesEffect tree includeDirectory includer file number opened definitions second <;>
        simp [linesEffect, effects, bind, Except.bind, pure, Except.pure]
  | cons line rest ih =>
      simp only [List.cons_append, linesEffect, ih, bind_assoc, pure_bind, List.append_assoc,
        List.length_cons]
      refine bind_congr fun effect => bind_congr fun effects => ?_
      rw [Nat.add_assoc, Nat.add_comm 1]

theorem linesEffect_cons_eq_ok_iff {rest output : List Text} {later : List OpenConditional}
    {after : Definitions} :
    linesEffect tree includeDirectory includer file number opened definitions (line :: rest) =
        .ok (output, later, after) ↔
      ∃ front between middle back,
        lineEffect tree includeDirectory includer file number opened definitions line =
          .ok (front, between, middle) ∧
        linesEffect tree includeDirectory includer file (number + 1) between middle rest =
          .ok (back, later, after) ∧ output = front ++ back := by
  simp only [linesEffect, bind_eq_ok_iff, Prod.exists]
  constructor
  · rintro ⟨front, between, middle, effect, back, _, _, effects, result⟩
    cases result
    exact ⟨front, between, middle, back, effect, effects, rfl⟩
  · rintro ⟨front, between, middle, back, effect, effects, rfl⟩
    exact ⟨front, between, middle, effect, back, later, after, effects, rfl⟩

theorem linesEffect_append_eq_ok_iff {first second output : List Text} {later : List OpenConditional}
    {after : Definitions} :
    linesEffect tree includeDirectory includer file number opened definitions (first ++ second) =
        .ok (output, later, after) ↔
      ∃ front between middle back,
        linesEffect tree includeDirectory includer file number opened definitions first =
          .ok (front, between, middle) ∧
        linesEffect tree includeDirectory includer file (number + first.length) between middle second =
          .ok (back, later, after) ∧ output = front ++ back := by
  simp only [linesEffect_append, bind_eq_ok_iff, Prod.exists]
  constructor
  · rintro ⟨front, between, middle, effect, back, _, _, effects, result⟩
    cases result
    exact ⟨front, between, middle, back, effect, effects, rfl⟩
  · rintro ⟨front, between, middle, back, effect, effects, rfl⟩
    exact ⟨front, between, middle, effect, back, later, after, effects, rfl⟩

theorem preprocessLines_cons (line : Text) (rest : List Text) :
    preprocessLines tree includeDirectory includer file number opened definitions (line :: rest) = do
      let (output, opened, definitions) ←
        lineEffect tree includeDirectory includer file number opened definitions line
      let (outputs, definitions) ←
        preprocessLines tree includeDirectory includer file (number + 1) opened definitions rest
      return (output ++ outputs, definitions) := by
  rw [preprocessLines]
  cases lineEffect tree includeDirectory includer file number opened definitions line with
  | error e => rfl
  | ok effect =>
      obtain ⟨output, opened, definitions⟩ := effect
      simp only [ok_bind]
      cases preprocessLines tree includeDirectory includer file (number + 1) opened definitions rest <;> rfl

theorem preprocessLines_append (first second : List Text) :
    preprocessLines tree includeDirectory includer file number opened definitions (first ++ second) = do
      let (output, opened, definitions) ←
        linesEffect tree includeDirectory includer file number opened definitions first
      let (outputs, definitions) ←
        preprocessLines tree includeDirectory includer file (number + first.length) opened definitions second
      return (output ++ outputs, definitions) := by
  induction first generalizing number opened definitions with
  | nil => simp [linesEffect, ok_bind]
  | cons line rest ih =>
      have next : number + 1 + rest.length = number + (rest.length + 1) := by omega
      simp [preprocessLines_cons, linesEffect, ih, next]

theorem preprocessLines_cons_eq_ok_iff {rest output : List Text} {after : Definitions} :
    preprocessLines tree includeDirectory includer file number opened definitions (line :: rest) =
        .ok (output, after) ↔
      ∃ front between middle back,
        lineEffect tree includeDirectory includer file number opened definitions line =
          .ok (front, between, middle) ∧
        preprocessLines tree includeDirectory includer file (number + 1) between middle rest =
          .ok (back, after) ∧ output = front ++ back := by
  simp only [preprocessLines_cons, bind_eq_ok_iff, Prod.exists]
  constructor
  · rintro ⟨front, between, middle, effect, back, _, effects, result⟩
    cases result
    exact ⟨front, between, middle, back, effect, effects, rfl⟩
  · rintro ⟨front, between, middle, back, effect, effects, rfl⟩
    exact ⟨front, between, middle, effect, back, after, effects, rfl⟩

theorem preprocessLines_append_eq_ok_iff {first second output : List Text} {after : Definitions} :
    preprocessLines tree includeDirectory includer file number opened definitions (first ++ second) =
        .ok (output, after) ↔
      ∃ front between middle back,
        linesEffect tree includeDirectory includer file number opened definitions first =
          .ok (front, between, middle) ∧
        preprocessLines tree includeDirectory includer file (number + first.length) between middle second =
          .ok (back, after) ∧ output = front ++ back := by
  simp only [preprocessLines_append, bind_eq_ok_iff, Prod.exists]
  constructor
  · rintro ⟨front, between, middle, effect, back, _, effects, result⟩
    cases result
    exact ⟨front, between, middle, back, effect, effects, rfl⟩
  · rintro ⟨front, between, middle, back, effect, effects, rfl⟩
    exact ⟨front, between, middle, effect, back, after, effects, rfl⟩

/-- Preprocessing carries out all lines and then looks whether every conditional is ended. -/
theorem preprocessLines_eq (lines : List Text) :
    preprocessLines tree includeDirectory includer file number opened definitions lines =
      linesEffect tree includeDirectory includer file number opened definitions lines >>=
        fun (outputs, opened, definitions) =>
          if opened.isEmpty then .ok (outputs, definitions)
          else .error (.directive file (number + lines.length - 1) .unterminatedConditional) := by
  induction lines generalizing number opened definitions with
  | nil => rfl
  | cons line rest ih =>
      have last : number + 1 + rest.length - 1 = number + (rest.length + 1) - 1 := by omega
      unfold preprocessLines
      simp only [linesEffect, ih, bind_assoc, pure_bind, List.length_cons, last]
      cases lineEffect tree includeDirectory includer file number opened definitions line with
      | error e => rfl
      | ok effect =>
          obtain ⟨output, opened, definitions⟩ := effect
          simp only [bind, Except.bind]
          cases linesEffect tree includeDirectory includer file (number + 1) opened definitions rest with
          | error e => rfl
          | ok effects =>
              obtain ⟨outputs, opened, definitions⟩ := effects
              cases opened <;> rfl

end AddonIndex.ClassConfig
