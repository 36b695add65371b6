import AddonIndex.Proofs.FileTree.Confluence
import AddonIndex.Proofs.Indexing.Extraction

/-!
# What becomes of each file

A tool that never aborts a worker either succeeds with a file or fails. Workers that are not aborted call it for each
of their files, and their deeds are those of the files, according to what became of them. The files change as the
calls change them, one after another in the order in which they are made.
-/

namespace AddonIndex.Indexing

open Activity FileTree

variable {α : Type} {addon : Handle} {duty : Duty} {habit : Habit} {files : List Path} {before after : Scene}
  {deeds : List Deed} {answers : List (Path × Bool)}

/-- Whether a call of a tool never aborts the worker. -/
def NeverAborts (call : FileTree → ToolEffect) : Prop := ∀ tree, (call tree).reply ≠ .abort

/-- What a call for a file makes of the files, and whether it succeeds. -/
def Duty.action (duty : Duty) (file : Path) (tree : FileTree) : FileTree × Bool :=
  ((duty.call file tree).tree, (duty.call file tree).reply = .outcome .success)

/-- The deeds for a file of which it is known whether the call succeeds. -/
def Habit.deedsOf (habit : Habit) (answer : Path × Bool) : List Deed :=
  if answer.2 then habit.succeeded answer.1 else habit.failed answer.1

/-- The file for which a tool is called, and whether the call succeeds. -/
def Deed.answer? : Deed → Option (Path × Bool)
  | called file succeeded => some (file, succeeded)
  | _ => none

/-- Whether a deed is a complaint. -/
def Deed.isComplaint : Deed → Bool
  | complained => true
  | _ => false

/-- Whether a habit is to call the tool once for each file, and to complain of what fails. -/
structure Habit.Diligent (habit : Habit) : Prop where
  once : ∀ answer, (habit.deedsOf answer).filterMap Deed.answer? = [answer]
  complaints : ∀ answer : Path × Bool, (habit.deedsOf answer).countP Deed.isComplaint = if answer.2 then 0 else 1

/-- Whether noting a file changes neither the files nor the errors. -/
structure Duty.Plain (duty : Duty) : Prop where
  tree : ∀ file scene, (duty.note file scene).tree = scene.tree
  errors : ∀ file scene, (duty.note file scene).errors = scene.errors

/-- Whether files are all done, with what becomes of each, in the order of the calls. -/
structure CallsAll (duty : Duty) (habit : Habit) (files : List Path) (before : Scene)
    (answers : List (Path × Bool)) (deeds : List Deed) (after : Scene) : Prop where
  dealt : (answers.map Prod.fst).Perm files
  inOrder : deeds.filterMap Deed.answer? = answers
  perm : deeds.Perm (answers.flatMap habit.deedsOf)
  along : Along duty deeds before after

/-- Whether the deeds of a worker follow a habit, and the worker is not aborted. -/
def Habit.Completes (habit : Habit) (files : List Path) (result : Option Unit) (deeds : List Deed) : Prop :=
  (∃ answer, result = some answer) ∧ habit.Follows files result deeds

/-! ## Workers that are not aborted -/

/-- The deeds of an activity that comes to a result fit its result. -/
theorem Performs.returns {activity : Run α} {fits : Option α → List Deed → Prop}
    (performs : Performs duty addon activity fits) (returns : Returns activity) :
    Performs duty addon activity fun result deeds => (∃ answer, result = some answer) ∧ fits result deeds := by
  intro moves result traced undisturbed
  rcases performs moves result traced undisturbed with ⟨labels, labelled, fit⟩
  exact ⟨labels, labelled, returns.of_traces traced, fit⟩

theorem returns_callTool {call : FileTree → ToolEffect} (never : NeverAborts call) : Returns (callTool call) := by
  intro world
  change Returns (takeReply (call world.tree).reply)
  cases replied : (call world.tree).reply with
  | outcome outcome => exact returns_pure _
  | error e => exact returns_pure _
  | abort => exact absurd replied (never world.tree)

namespace AddonWork

variable {work : AddonWork}

theorem returns_isCancelled_bind {next : Run Unit} (returns : Returns next) :
    Returns (do
      if ← isCancelled addon then return ()
      next : Run Unit) := by
  apply (returns_inspect _).bind
  intro cancelled
  cases cancelled with
  | true => exact returns_pure _
  | false => exact returns

theorem returns_extractEach (never : ∀ archive directory limit,
      NeverAborts (work.environment.tools.extract archive directory limit)) (destination : Path)
    (archives : List SizedFile) : Returns (work.extractEach destination archives) := by
  induction archives with
  | nil => exact returns_pure _
  | cons archive rest ih =>
      apply returns_isCancelled_bind
      apply (returns_modify _).bind
      intro _
      apply (returns_callTool (never _ _ _)).bind
      intro result
      apply (concerns_reportTool _ _ _ _ result).returns.bind
      intro _
      exact concerns_unitDone.returns.bind fun _ => ih

theorem returns_convertEach (never : ∀ binary text limit,
      NeverAborts (work.environment.tools.convert binary text limit)) (binaries : List SizedFile) :
    Returns (work.convertEach binaries) := by
  induction binaries with
  | nil => exact returns_pure _
  | cons binary rest ih =>
      have next : Returns (do
          unitDone work.addon
          work.convertEach rest) := concerns_unitDone.returns.bind fun _ => ih
      apply returns_isCancelled_bind
      apply (returns_callTool (never _ _ _)).bind
      intro result
      apply (concerns_reportTool _ _ _ _ result).returns.bind
      intro succeeded
      cases succeeded with
      | true => exact (returns_modify _).bind fun _ => next
      | false => exact next

end AddonWork

/-! ## The deeds of all workers -/

/-- A worker that is not aborted does the deeds for each of its files. -/
theorem Habit.Follows.exists_answers {result : Option Unit} (follows : habit.Follows files result deeds)
    (ended : result ≠ none) :
    ∃ answers : List (Path × Bool), answers.map Prod.fst = files ∧ deeds = answers.flatMap habit.deedsOf := by
  induction follows with
  | done => exact ⟨[], rfl, rfl⟩
  | @succeeded file rest result deeds _ ih =>
      rcases ih ended with ⟨answers, rfl, rfl⟩
      exact ⟨(file, true) :: answers, rfl, rfl⟩
  | @failed file rest result deeds _ ih =>
      rcases ih ended with ⟨answers, rfl, rfl⟩
      exact ⟨(file, false) :: answers, rfl, rfl⟩
  | aborted => exact absurd rfl ended

/-- Files that are shared out among workers of which none is aborted are all done. -/
theorem Shared.exists_callsAll (shared : Shared duty habit.Completes files before after) (diligent : habit.Diligent) :
    ∃ answers deeds, CallsAll duty habit files before answers deeds after := by
  rcases shared with ⟨records, deeds, ended, jobs, complete, perm, along, rfl⟩
  have unaborted : records.countP (fun record => record.result.isNone) = 0 := by
    apply List.countP_eq_zero.2
    intro record member
    rcases (complete record member).1 with ⟨answer, result⟩
    simp [result]
  rw [unaborted]
  have exists_given : ∃ given : List (Path × Bool), given.map Prod.fst = records.flatMap Marked.job ∧
      records.flatMap Marked.marks = given.flatMap habit.deedsOf := by
    clear jobs perm along unaborted
    induction records with
    | nil => exact ⟨[], rfl, rfl⟩
    | cons record rest ih =>
        rcases List.forall_mem_cons.1 complete with ⟨⟨⟨answer, result⟩, follows⟩, complete⟩
        rcases follows.exists_answers (by simp [result]) with ⟨first, isJob, areMarks⟩
        rcases ih complete with ⟨later, jobs, marks⟩
        refine ⟨first ++ later, ?_, ?_⟩
        · rw [List.map_append, List.flatMap_cons, isJob, jobs]
        · rw [List.flatMap_append, List.flatMap_cons, ← areMarks, marks]
  rcases exists_given with ⟨given, isJob, areMarks⟩
  rw [areMarks] at perm
  have called : (deeds.filterMap Deed.answer?).Perm given := by
    refine (perm.filterMap Deed.answer?).trans (List.Perm.of_eq ?_)
    rw [List.filterMap_flatMap, List.flatMap_congr fun answer _ => diligent.once answer]
    exact List.flatMap_singleton' given
  refine ⟨deeds.filterMap Deed.answer?, deeds, ?_, rfl, perm.trans (called.symm.flatMap_right _), along⟩
  exact (called.map Prod.fst).trans ((List.Perm.of_eq isJob).trans jobs)

/-- Calls of a tool change the files one after another and answer whether they succeed. -/
theorem doEach_of_along (plain : duty.Plain) (along : Along duty deeds before after) :
    doEach duty.action ((deeds.filterMap Deed.answer?).map Prod.fst) before.tree =
      (after.tree, deeds.filterMap Deed.answer?) := by
  induction deeds generalizing before with
  | nil =>
      cases along
      rfl
  | cons deed rest ih =>
      rcases along with ⟨middle, acts, later⟩
      have last := ih later
      cases deed with
      | called file succeeded =>
          rcases acts with ⟨isSuccess, rfl⟩
          have answer : (duty.action file before.tree).2 = succeeded := by
            rw [Duty.action, Bool.eq_iff_iff, decide_eq_true_iff]
            exact isSuccess
          rw [List.filterMap_cons_some (show Deed.answer? (.called file succeeded) = some (file, succeeded) from rfl),
            List.map_cons, doEach_cons, answer]
          have next : (duty.action file before.tree).1 = (duty.call file before.tree).tree := rfl
          rw [next, last]
      | noted file =>
          cases acts
          rw [plain.tree] at last
          exact last
      | complained =>
          cases acts
          exact last

theorem CallsAll.doEach_eq (calls : CallsAll duty habit files before answers deeds after) (plain : duty.Plain) :
    doEach duty.action (answers.map Prod.fst) before.tree = (after.tree, answers) := by
  have called := doEach_of_along plain calls.along
  rwa [calls.inOrder] at called

/-- Only the files that are shared out are called for. -/
theorem CallsAll.mem_of_called (calls : CallsAll duty habit files before answers deeds after) {file : Path}
    {succeeded : Bool} (called : .called file succeeded ∈ deeds) : file ∈ files := by
  apply calls.dealt.mem_iff.1
  apply List.mem_map.2
  refine ⟨(file, succeeded), ?_, rfl⟩
  rw [← calls.inOrder]
  exact List.mem_filterMap.2 ⟨_, called, rfl⟩

theorem errors_of_deeds (plain : duty.Plain) (along : Along duty deeds before after) :
    after.errors = before.errors + deeds.countP Deed.isComplaint := by
  induction deeds generalizing before with
  | nil =>
      cases along
      rfl
  | cons deed rest ih =>
      rcases along with ⟨middle, acts, later⟩
      rw [ih later, List.countP_cons]
      cases deed with
      | called file succeeded =>
          rcases acts with ⟨-, rfl⟩
          rfl
      | noted file =>
          cases acts
          rw [plain.errors]
          rfl
      | complained =>
          cases acts
          simp only [Deed.isComplaint, if_true]
          omega

/-- Each call that fails is an error. -/
theorem CallsAll.errors (calls : CallsAll duty habit files before answers deeds after) (plain : duty.Plain)
    (diligent : habit.Diligent) : after.errors = before.errors + answers.countP fun answer => !answer.2 := by
  rw [errors_of_deeds plain calls.along, calls.perm.countP_eq]
  congr 1
  clear calls
  induction answers with
  | nil => rfl
  | cons answer rest ih =>
      rw [List.flatMap_cons, List.countP_append, ih, diligent.complaints, List.countP_cons]
      cases answer.2 <;> simp [Nat.add_comm]

variable {work : AddonWork} {destination : Path}

namespace AddonWork

theorem diligent_extractionHabit : extractionHabit.Diligent where
  once answer := by
    rcases answer with ⟨file, succeeded⟩
    cases succeeded <;> rfl
  complaints answer := by
    rcases answer with ⟨file, succeeded⟩
    cases succeeded <;> rfl

theorem diligent_conversionHabit : conversionHabit.Diligent where
  once answer := by
    rcases answer with ⟨file, succeeded⟩
    cases succeeded <;> rfl
  complaints answer := by
    rcases answer with ⟨file, succeeded⟩
    cases succeeded <;> rfl

theorem plain_extractionDuty : (work.extractionDuty destination).Plain :=
  ⟨fun _ _ => rfl, fun _ _ => rfl⟩

theorem plain_conversionDuty : work.conversionDuty.Plain :=
  ⟨fun _ _ => rfl, fun _ _ => rfl⟩

end AddonWork

/-- The directories of all archives are noted. -/
theorem CallsAll.extracted
    (calls : CallsAll (work.extractionDuty destination) AddonWork.extractionHabit files before answers deeds after) :
    after.extracted.Perm (before.extracted ++ files.map (AddonWork.extractionDirectory destination)) := by
  rw [(AddonWork.scene_of_extractions calls.along).2]
  apply List.Perm.append_left
  apply List.Perm.map
  refine (calls.perm.filterMap Deed.noted?).trans (List.Perm.trans (List.Perm.of_eq ?_) calls.dealt)
  rw [List.filterMap_flatMap, List.map_eq_flatMap]
  apply List.flatMap_congr
  rintro ⟨file, succeeded⟩ -
  cases succeeded <;> rfl

/-- The texts of all binary configs that are converted with success are noted. -/
theorem CallsAll.converted
    (calls : CallsAll work.conversionDuty AddonWork.conversionHabit files before answers deeds after) :
    after.converted.Perm
      (before.converted ++ ((answers.filter Prod.snd).map Prod.fst).map AddonWork.convertedConfig) := by
  rw [(AddonWork.scene_of_along calls.along).2.2]
  apply List.Perm.append_left
  apply List.Perm.map
  refine (calls.perm.filterMap Deed.noted?).trans (List.Perm.of_eq ?_)
  rw [List.filterMap_flatMap]
  clear calls
  induction answers with
  | nil => rfl
  | cons answer rest ih =>
      rcases answer with ⟨file, succeeded⟩
      rw [List.flatMap_cons, ih]
      cases succeeded <;> rfl

end AddonIndex.Indexing
