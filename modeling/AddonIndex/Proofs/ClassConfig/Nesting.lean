import AddonIndex.Proofs.ClassConfig.Block

/-!
# Conditionals by a stack

Preprocessing knows of conditionals only those that are open. It agrees with the
structured run all the same, since blocks leave the open conditionals as they
found them, and since the innermost one tells what lines at a place can do.
-/

namespace AddonIndex.ClassConfig

variable {tree : FileTree} {includeDirectory file : Path} {includer : Option Includer} {number : Nat}
  {opened : List OpenConditional} {definitions : Definitions} {line : Text} {place : Place}

/-! ## Blocks -/

/-- Skipped blocks give blank lines and change nothing. -/
theorem linesEffect_skipped (inactive : isActive opened = false) (blocks : Blocks) :
    linesEffect tree includeDirectory includer file number opened definitions blocks.lines =
      .ok (blocks.blank, opened, definitions) := by
  induction blocks generalizing number opened with
  | nothing => rfl
  | plain line following ih =>
      simp [Blocks.lines, Blocks.blank, linesEffect, lineEffect_inactive line.2 inactive, ih inactive,
        ok_bind, pure, Except.pure]
  | block condition opening first closing following firstSkipped followingSkipped =>
      simp [Blocks.lines, Blocks.blank, linesEffect, linesEffect_append, lineEffect_opening opening.2,
        lineEffect_ending closing.2, firstSkipped, followingSkipped, inactive, isActive_cons, ok_bind, pure,
        Except.pure]
  | choice condition opening first middle second closing following firstSkipped secondSkipped
      followingSkipped =>
      simp [Blocks.lines, Blocks.blank, linesEffect, linesEffect_append, lineEffect_opening opening.2,
        lineEffect_otherwise middle.2, lineEffect_ending closing.2, firstSkipped, secondSkipped,
        followingSkipped, inactive, isActive_cons, ok_bind, pure, Except.pure]

/-- Active blocks are run and leave the open conditionals. -/
theorem linesEffect_run (active : isActive opened = true) (blocks : Blocks) :
    linesEffect tree includeDirectory includer file number opened definitions blocks.lines = do
      let (output, after) ← blocks.run (carryOut tree includeDirectory includer file) number definitions
      return (output, opened, after) := by
  induction blocks generalizing number opened definitions with
  | nothing => rfl
  | plain line following ih =>
      simp [Blocks.lines, Blocks.run, linesEffect, lineEffect_active line.2 active, ih active, map_eq_bind]
  | block condition opening first closing following firstRun followingRun =>
      cases picks : condition.holds definitions.macros with
      | true =>
          have inFirst : isActive (⟨true, true, false⟩ :: opened) = true := rfl
          simp [Blocks.lines, Blocks.run, linesEffect, linesEffect_append, lineEffect_opening opening.2,
            lineEffect_ending closing.2, active, picks, ok_bind, firstRun inFirst, followingRun active]
      | false =>
          have inFirst : isActive (⟨true, false, false⟩ :: opened) = false := rfl
          simp [Blocks.lines, Blocks.run, linesEffect, linesEffect_append, lineEffect_opening opening.2,
            lineEffect_ending closing.2, active, picks, ok_bind, linesEffect_skipped inFirst,
            followingRun active]
  | choice condition opening first middle second closing following firstRun secondRun followingRun =>
      cases picks : condition.holds definitions.macros with
      | true =>
          have inFirst : isActive (⟨true, true, false⟩ :: opened) = true := rfl
          have inSecond : isActive (⟨true, false, true⟩ :: opened) = false := rfl
          simp [Blocks.lines, Blocks.run, linesEffect, linesEffect_append, lineEffect_opening opening.2,
            lineEffect_otherwise middle.2, lineEffect_ending closing.2, active, picks, ok_bind,
            firstRun inFirst, linesEffect_skipped inSecond, followingRun active]
      | false =>
          have inFirst : isActive (⟨true, false, false⟩ :: opened) = false := rfl
          have inSecond : isActive (⟨true, true, true⟩ :: opened) = true := rfl
          simp [Blocks.lines, Blocks.run, linesEffect, linesEffect_append, lineEffect_opening opening.2,
            lineEffect_otherwise middle.2, lineEffect_ending closing.2, active, picks, ok_bind,
            linesEffect_skipped inFirst, secondRun inSecond, followingRun active]

/-! ## Broken lines -/

/-- Whether open conditionals are those of lines at a place. -/
def Place.Fits : Place → List OpenConditional → Prop
  | outside, opened => opened = []
  | firstBranch, [] => False
  | firstBranch, innermost :: _ => innermost.elseSeen = false
  | secondBranch, [] => False
  | secondBranch, innermost :: _ => innermost.elseSeen = true

theorem Place.Fits.ne_nil (fits : place.Fits opened) (entered : place ≠ .outside) : opened ≠ [] := by
  rintro rfl
  cases place with
  | outside => exact entered rfl
  | firstBranch => exact fits
  | secondBranch => exact fits

/-- A line fails that cannot be at its place. -/
theorem lineEffect_refused {cause : DirectiveError} (fits : place.Fits opened)
    (refused : place.refusal (role line) = some cause) :
    lineEffect tree includeDirectory includer file number opened definitions line =
      .error (.directive file number cause) := by
  cases place with
  | outside =>
      cases fits
      cases kind : role line <;> rw [kind] at refused <;> cases refused
      · exact lineEffect_otherwise_nil kind
      · exact lineEffect_ending_nil kind
  | firstBranch => cases kind : role line <;> rw [kind] at refused <;> cases refused
  | secondBranch =>
      cases kind : role line <;> rw [kind] at refused <;> cases refused
      cases opened with
      | nil => exact fits.elim
      | cons innermost outer => exact lineEffect_otherwise_seen kind innermost fits outer

/-- Of broken lines that are skipped only the defect is noticed. -/
theorem preprocessLines_skipped (fits : place.Fits opened) (inactive : isActive opened = false)
    (broken : Broken place) :
    preprocessLines tree includeDirectory includer file number opened definitions broken.lines =
      .error (broken.defect file number) := by
  induction broken generalizing number opened with
  | unended sound entered =>
      simp [Broken.lines, Broken.defect, preprocessLines_eq, linesEffect_skipped inactive, ok_bind,
        fits.ne_nil entered]
  | misplaced sound cause line unread =>
      simp [Broken.lines, Broken.defect, preprocessLines_append, preprocessLines_cons,
        linesEffect_skipped inactive, lineEffect_refused fits line.2, ok_bind, error_bind]
  | inFirst sound condition opening inside ih =>
      have inFirst chosen : Place.firstBranch.Fits (⟨false, chosen, false⟩ :: opened) := rfl
      simp [-bind_pure_comp, Broken.lines, Broken.defect, preprocessLines_append, preprocessLines_cons,
        linesEffect_skipped inactive, lineEffect_opening opening.2, ok_bind, error_bind, inactive,
        ih (inFirst _) rfl]
  | inSecond sound condition opening first middle inside ih =>
      have inFirst chosen : isActive (⟨false, chosen, false⟩ :: opened) = false := rfl
      have inSecond chosen : Place.secondBranch.Fits (⟨false, chosen, true⟩ :: opened) := rfl
      simp [-bind_pure_comp, Broken.lines, Broken.defect, preprocessLines_append, preprocessLines_cons,
        linesEffect_skipped inactive, linesEffect_skipped (inFirst _), lineEffect_opening opening.2,
        lineEffect_otherwise middle.2, ok_bind, error_bind, inactive, ih (inSecond _) rfl]

/-- Nothing can follow a run of broken lines. -/
theorem Broken.run_bind {act : Action} (broken : Broken place)
    (next : List Text × Definitions → Except ConfigError (List Text × Definitions)) :
    broken.run file act number definitions >>= next = broken.run file act number definitions := by
  induction broken generalizing number definitions with
  | unended sound entered => simp [run, error_bind]
  | misplaced sound cause line unread => simp [run, error_bind]
  | inFirst sound condition opening inside ih =>
      simp only [run, bind_assoc]
      refine bind_congr fun (_, after) => ?_
      cases condition.holds after.macros with
      | true => exact ih
      | false => rfl
  | inSecond sound condition opening first middle inside ih =>
      simp only [run, bind_assoc]
      refine bind_congr fun (_, after) => ?_
      cases condition.holds after.macros with
      | true => exact bind_assoc ..
      | false => exact ih

/-- Broken lines that are active are run up to their defect. -/
theorem preprocessLines_run (fits : place.Fits opened) (active : isActive opened = true)
    (broken : Broken place) :
    preprocessLines tree includeDirectory includer file number opened definitions broken.lines =
      broken.run file (carryOut tree includeDirectory includer file) number definitions := by
  induction broken generalizing number opened definitions with
  | unended sound entered =>
      simp [Broken.lines, Broken.run, Broken.defect, preprocessLines_eq, linesEffect_run active,
        fits.ne_nil entered]
  | misplaced sound cause line unread =>
      simp [Broken.lines, Broken.run, Broken.defect, preprocessLines_append, preprocessLines_cons,
        linesEffect_run active, lineEffect_refused fits line.2, error_bind]
  | inFirst sound condition opening inside ih =>
      simp only [Broken.lines, Broken.run, preprocessLines_append, preprocessLines_cons,
        linesEffect_run active, lineEffect_opening opening.2, ok_bind, active, bind_assoc, pure_bind]
      refine bind_congr ?_
      rintro ⟨_, after⟩
      have inFirst chosen : Place.firstBranch.Fits (⟨true, chosen, false⟩ :: opened) := rfl
      cases condition.holds after.macros with
      | true => simp [-bind_pure_comp, ih (inFirst true) rfl, Broken.run_bind]
      | false => simp [-bind_pure_comp, preprocessLines_skipped (inFirst false) rfl, error_bind]
  | inSecond sound condition opening first middle inside ih =>
      simp only [Broken.lines, Broken.run, preprocessLines_append, preprocessLines_cons,
        linesEffect_run active, lineEffect_opening opening.2, ok_bind, active, bind_assoc, pure_bind]
      refine bind_congr ?_
      rintro ⟨_, after⟩
      have inSecond chosen : Place.secondBranch.Fits (⟨true, chosen, true⟩ :: opened) := rfl
      cases condition.holds after.macros with
      | true =>
          have inFirst : isActive (⟨true, true, false⟩ :: opened) = true := rfl
          simp [-bind_pure_comp, linesEffect_run inFirst, lineEffect_otherwise middle.2, ok_bind, error_bind,
            preprocessLines_skipped (inSecond false) rfl]
      | false =>
          have inFirst : isActive (⟨true, false, false⟩ :: opened) = false := rfl
          simp [-bind_pure_comp, linesEffect_skipped inFirst, lineEffect_otherwise middle.2, ok_bind,
            ih (inSecond true) rfl, Broken.run_bind]

/-- Blocks leave the open conditionals, whether they are skipped or not. -/
theorem opened_eq_of_linesEffect {output : List Text} {later : List OpenConditional} {after : Definitions}
    (blocks : Blocks)
    (effect : linesEffect tree includeDirectory includer file number opened definitions blocks.lines =
      .ok (output, later, after)) : later = opened := by
  cases active : isActive opened with
  | true =>
      rw [linesEffect_run active] at effect
      obtain ⟨ran, -, result⟩ := bind_eq_ok_iff.1 effect
      cases result
      rfl
  | false =>
      rw [linesEffect_skipped active] at effect
      cases effect
      rfl

/-- What follows a line fails where it would fail by itself. -/
theorem preprocessLines_cons_eq_error {output : List Text} {later : List OpenConditional}
    {after : Definitions} {rest before : List Text} {e : ConfigError}
    (effect : lineEffect tree includeDirectory includer file number opened definitions line =
      .ok (output, later, after))
    (fails : preprocessLines tree includeDirectory includer file (number + 1) later after rest =
      linesEffect tree includeDirectory includer file (number + 1) later after before >>= fun _ => .error e) :
    preprocessLines tree includeDirectory includer file number opened definitions (line :: rest) =
      linesEffect tree includeDirectory includer file number opened definitions (line :: before) >>=
        fun _ => .error e := by
  simp [-bind_pure_comp, preprocessLines_cons, linesEffect, effect, ok_bind, fails, error_bind]

/-- What follows blocks fails where it would fail by itself. -/
theorem preprocessLines_append_eq_error (blocks : Blocks) {rest before : List Text} {e : ConfigError}
    (fails : ∀ after,
      preprocessLines tree includeDirectory includer file (number + blocks.lines.length) opened after rest =
        linesEffect tree includeDirectory includer file (number + blocks.lines.length) opened after before >>=
          fun _ => .error e) :
    preprocessLines tree includeDirectory includer file number opened definitions (blocks.lines ++ rest) =
      linesEffect tree includeDirectory includer file number opened definitions (blocks.lines ++ before) >>=
        fun _ => .error e := by
  rw [preprocessLines_append, linesEffect_append]
  cases effect : linesEffect tree includeDirectory includer file number opened definitions blocks.lines with
  | error e => rfl
  | ok effected =>
      obtain ⟨output, later, after⟩ := effected
      obtain rfl := opened_eq_of_linesEffect blocks effect
      simp [-bind_pure_comp, ok_bind, fails, error_bind]

/-- The defect of broken lines is reported unless the lines before it fail. -/
theorem preprocessLines_defect (fits : place.Fits opened) (broken : Broken place) :
    preprocessLines tree includeDirectory includer file number opened definitions broken.lines =
      linesEffect tree includeDirectory includer file number opened definitions broken.before >>= fun _ =>
        .error (broken.defect file number) := by
  induction broken generalizing number opened definitions with
  | unended sound entered =>
      simp only [Broken.lines, Broken.before, Broken.defect, preprocessLines_eq]
      cases effect : linesEffect tree includeDirectory includer file number opened definitions sound.lines with
      | error e => rfl
      | ok effected =>
          obtain ⟨output, later, after⟩ := effected
          obtain rfl := opened_eq_of_linesEffect sound effect
          simp [ok_bind, fits.ne_nil entered]
  | misplaced sound cause line unread =>
      rw [Broken.before, ← sound.lines.append_nil]
      refine preprocessLines_append_eq_error sound fun after => ?_
      rw [preprocessLines_cons, lineEffect_refused fits line.2]
      rfl
  | inFirst sound condition opening inside ih =>
      refine preprocessLines_append_eq_error sound fun after => ?_
      exact preprocessLines_cons_eq_error (lineEffect_opening opening.2) (ih rfl)
  | inSecond sound condition opening first middle inside ih =>
      refine preprocessLines_append_eq_error sound fun after => ?_
      refine preprocessLines_cons_eq_error (lineEffect_opening opening.2) ?_
      refine preprocessLines_append_eq_error first fun after => ?_
      exact preprocessLines_cons_eq_error (lineEffect_otherwise middle.2 _ rfl _) (ih rfl)

/-! ## Skipped lines -/

/-- The lines from the opening of a conditional to a point in one of its branches, namely the one
that is picked if the condition has the given outcome. -/
inductive Branch (condition : Condition) : (outcome : Bool) → Type
  | first (opening : LineOf (.opening condition)) (sound : Blocks) : Branch condition true
  | second (opening : LineOf (.opening condition)) (first : Blocks) (middle : LineOf .otherwise)
      (sound : Blocks) : Branch condition false

def Branch.lines {condition : Condition} : {outcome : Bool} → Branch condition outcome → List Text
  | _, .first opening sound => opening.1 :: sound.lines
  | _, .second opening skipped middle sound => opening.1 :: (skipped.lines ++ middle.1 :: sound.lines)

section Skipping

variable (tree : FileTree) (includeDirectory : Path) (includer : Option Includer) (file : Path)
  (definitions : Definitions)

/-- Whether the line after some others is skipped: it is in a branch that was not picked, or in a
conditional that is skipped itself. -/
inductive Skipped : List Text → Prop
  | unpicked {earlier output : List Text} {opened : List OpenConditional} {after : Definitions}
      {condition : Condition} {outcome : Bool}
      (reached : linesEffect tree includeDirectory includer file 1 [] definitions earlier =
        .ok (output, opened, after))
      (branch : Branch condition outcome) (other : condition.holds after.macros ≠ outcome) :
      Skipped (earlier ++ branch.lines)
  | nested {earlier : List Text} (skipped : Skipped earlier) {condition : Condition} {outcome : Bool}
      (branch : Branch condition outcome) : Skipped (earlier ++ branch.lines)

/-- Whether the lines after some others differ only where they are skipped, and there only in lines
that do not belong to conditionals. Lines after a failure do not count. -/
inductive Alike : (before first second : List Text) → Prop
  | nil {before : List Text} : Alike before [] []
  | unread {before first second : List Text} {e : ConfigError}
      (fails : linesEffect tree includeDirectory includer file 1 [] definitions before = .error e) :
      Alike before first second
  | same {before first second : List Text} (line : Text) (alike : Alike (before ++ [line]) first second) :
      Alike before (line :: first) (line :: second)
  | skipped {before first second : List Text}
      (skipped : Skipped tree includeDirectory includer file definitions before) (line other : LineOf .plain)
      (alike : Alike (before ++ [line.1]) first second) : Alike before (line.1 :: first) (other.1 :: second)

end Skipping

/-- Lines are inactive in a branch that is not picked or that is skipped as a whole. -/
theorem Branch.isActive_eq_false {condition : Condition} {outcome : Bool} {output : List Text}
    {later : List OpenConditional} {after : Definitions} (branch : Branch condition outcome)
    (skipped : isActive opened = false ∨ condition.holds definitions.macros ≠ outcome)
    (effect : linesEffect tree includeDirectory includer file number opened definitions branch.lines =
      .ok (output, later, after)) : isActive later = false := by
  cases branch with
  | first opening sound =>
      obtain ⟨_, _, _, _, opens, ran, rfl⟩ := linesEffect_cons_eq_ok_iff.1 effect
      cases (lineEffect_opening opening.2).symm.trans opens
      rw [opened_eq_of_linesEffect sound ran, isActive_cons, Bool.and_eq_false_iff]
      simpa using skipped
  | second opening first middle sound =>
      obtain ⟨_, _, _, _, opens, effects, rfl⟩ := linesEffect_cons_eq_ok_iff.1 effect
      cases (lineEffect_opening opening.2).symm.trans opens
      obtain ⟨_, _, _, _, ranFirst, effects, rfl⟩ := linesEffect_append_eq_ok_iff.1 effects
      cases opened_eq_of_linesEffect first ranFirst
      obtain ⟨_, _, _, _, divides, ranSecond, rfl⟩ := linesEffect_cons_eq_ok_iff.1 effects
      cases (lineEffect_otherwise middle.2 _ rfl _).symm.trans divides
      rw [opened_eq_of_linesEffect sound ranSecond, isActive_cons, Bool.and_eq_false_iff]
      simpa using skipped

theorem Skipped.isActive_eq_false {before output : List Text} {later : List OpenConditional}
    {after : Definitions} (skipped : Skipped tree includeDirectory includer file definitions before)
    (effect : linesEffect tree includeDirectory includer file 1 [] definitions before =
      .ok (output, later, after)) : isActive later = false := by
  induction skipped generalizing output later after with
  | unpicked reached branch other =>
      obtain ⟨_, _, _, _, ran, inside, rfl⟩ := linesEffect_append_eq_ok_iff.1 effect
      cases reached.symm.trans ran
      exact branch.isActive_eq_false (.inr other) inside
  | nested around branch ih =>
      obtain ⟨_, _, _, _, reached, inside, rfl⟩ := linesEffect_append_eq_ok_iff.1 effect
      exact branch.isActive_eq_false (.inl (ih reached)) inside

/-- Lines that are alike after others give the same result after them. -/
theorem Alike.preprocessLines_eq {before first second output : List Text} {later : List OpenConditional}
    {after : Definitions} (alike : Alike tree includeDirectory includer file definitions before first second)
    (effect : linesEffect tree includeDirectory includer file 1 [] definitions before =
      .ok (output, later, after)) :
    preprocessLines tree includeDirectory includer file (1 + before.length) later after first =
      preprocessLines tree includeDirectory includer file (1 + before.length) later after second := by
  induction alike generalizing output later after with
  | nil => rfl
  | unread fails => cases fails.symm.trans effect
  | @same before first second line alike ih =>
      rw [preprocessLines_cons, preprocessLines_cons]
      cases next : lineEffect tree includeDirectory includer file (1 + before.length) later after line with
      | error e => rfl
      | ok effected =>
          obtain ⟨inside, opened, definitions⟩ := effected
          have same := ih (linesEffect_append_eq_ok_iff.2 ⟨_, _, _, _, effect,
            linesEffect_cons_eq_ok_iff.2 ⟨_, _, _, _, next, rfl, rfl⟩, rfl⟩)
          rw [List.length_append, List.length_singleton, ← Nat.add_assoc] at same
          simp only [ok_bind, same]
  | @skipped before first second skipped line other alike ih =>
      have inactive := skipped.isActive_eq_false effect
      have same := ih (linesEffect_append_eq_ok_iff.2 ⟨_, _, _, _, effect,
        linesEffect_cons_eq_ok_iff.2 ⟨_, _, _, _, lineEffect_inactive line.2 inactive, rfl, rfl⟩, rfl⟩)
      rw [List.length_append, List.length_singleton, ← Nat.add_assoc] at same
      simp only [preprocessLines_cons, lineEffect_inactive line.2 inactive,
        lineEffect_inactive other.2 inactive, ok_bind, same]

/-- Every list of lines is a document. Preprocessing it does what a structured run does that carries
out the picked branch of each conditional and skips the other one. Broken lines fail with the error for
their defect unless the lines before it fail, and what is skipped makes no difference unless it belongs
to a conditional. -/
theorem preprocessLines_nested (tree : FileTree) (includeDirectory : Path) (includer : Option Includer)
    (file : Path) (definitions : Definitions) :
    (∀ lines, ∃ document : Document, document.lines = lines) ∧
    (∀ document : Document,
      preprocessLines tree includeDirectory includer file 1 [] definitions document.lines =
        document.run file (carryOut tree includeDirectory includer file) definitions) ∧
    (∀ broken : Broken .outside,
      preprocessLines tree includeDirectory includer file 1 [] definitions broken.lines =
        linesEffect tree includeDirectory includer file 1 [] definitions broken.before >>= fun _ =>
          .error (broken.defect file 1)) ∧
    ∀ first second, Alike tree includeDirectory includer file definitions [] first second →
      preprocessLines tree includeDirectory includer file 1 [] definitions first =
        preprocessLines tree includeDirectory includer file 1 [] definitions second := by
  have outside : Place.outside.Fits [] := rfl
  refine ⟨Document.exists_lines_eq, ?_, fun broken => preprocessLines_defect outside broken, ?_⟩
  · rintro (blocks | broken)
    · have active : isActive [] = true := rfl
      simp only [Document.lines, Document.run, preprocessLines_eq, linesEffect_run active, bind_assoc,
        pure_bind]
      exact bind_pure _
    · exact preprocessLines_run outside rfl broken
  · intro first second alike
    exact alike.preprocessLines_eq rfl

/-- A second `#else` is noticed in a conditional that is skipped. -/
example :
    preprocessLines tree includeDirectory includer file 1 [] definitions
        ["#if 0".toList, "#if 1".toList, "#else".toList, "#else".toList] =
      .error (.directive file 4 .duplicateElse) := by
  rfl

end AddonIndex.ClassConfig
