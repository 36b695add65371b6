import AddonIndex.Proofs.Indexing.Uncancelled

/-!
# Units of work between looks

Configs are parsed and files are saved one after another, and before each it is
looked whether the addon is cancelled. Such a stage stops only at a look that
finds it cancelled, and it completes only if every look does not. After the last
unit of work there is no look any more, and where there is no work there is none
at all.
-/

namespace AddonIndex.Indexing

open Activity

variable {γ : Type} {addon : Handle} {unit : γ → Run Unit} {items : List γ} {world after : World}
  {moves : List (Move World)} {status : StageStatus}

/-- Whoever is not cancelled at some move was not so before. -/
theorem uncancelled_before {before rest : List (Move World)} {move : Move World}
    (chain : Chain Interference world (before ++ move :: rest) after)
    (follow : ∀ move ∈ before, Follows move.1 move.2) (uncancelled : Uncancelled addon move.1) :
    Uncancelled addon world ∧ ∀ earlier ∈ before, Uncancelled addon earlier.1 := by
  induction before generalizing world with
  | nil => exact ⟨uncancelled.of_follows (follows_of_gap chain.1), List.forall_mem_nil _⟩
  | cons first before ih =>
      obtain ⟨gap, chain⟩ := chain
      obtain ⟨afterFirst, later⟩ := ih chain fun move member => follow move (List.mem_cons_of_mem _ member)
      have beforeFirst := afterFirst.of_follows (follow first List.mem_cons_self)
      exact ⟨beforeFirst.of_follows (follows_of_gap gap), List.forall_mem_cons.2 ⟨beforeFirst, later⟩⟩

/-- Do units of work one after another, unless the addon is cancelled. -/
def eachUnit (addon : Handle) (unit : γ → Run Unit) : List γ → Run StageStatus
  | [] => return .completed
  | item :: rest => do
      if ← isCancelled addon then return .stopped
      unit item
      eachUnit addon unit rest

/-- Executions of units of work one after another: one look and one unit at a time. -/
inductive Polls (addon : Handle) (unit : γ → Run Unit) :
    List γ → World → List (Move World) → World → StageStatus → Prop
  /-- Nothing is left to do, and there is no look. -/
  | done {world after : World} (gap : Relation.ReflTransGen Interference world after) :
      Polls addon unit [] world [] after .completed
  /-- A look finds that the addon is cancelled. -/
  | stopped {item : γ} {rest : List γ} {world seen after : World}
      (gap : Relation.ReflTransGen Interference world seen) (cancelled : ¬ Uncancelled addon seen)
      (last : Relation.ReflTransGen Interference seen after) :
      Polls addon unit (item :: rest) world [(seen, seen)] after .stopped
  /-- A look does not, and one unit of work is done. -/
  | worked {item : γ} {rest : List γ} {world seen middle after : World}
      {during later : List (Move World)} {status : StageStatus}
      (gap : Relation.ReflTransGen Interference world seen) (uncancelled : Uncancelled addon seen)
      (works : Executes Interference (unit item) seen during middle (some ()))
      (goesOn : Polls addon unit rest middle later after status) :
      Polls addon unit (item :: rest) world ((seen, seen) :: (during ++ later)) after status

/-- Units of work that come to their end are done one look and one unit at a time. -/
theorem polls_of_executes
    (execution : Executes Interference (eachUnit addon unit items) world moves after (some status)) :
    Polls addon unit items world moves after status := by
  induction items generalizing world moves with
  | nil =>
      obtain ⟨rfl, same, gap⟩ := executes_pure_iff.1 execution
      cases same
      exact .done gap
  | cons item rest ih =>
      obtain ⟨seen, later, rfl, gap, execution⟩ := executes_inspect_bind_iff.1 execution
      split at execution
      · rename_i cancelled
        obtain ⟨rfl, same, last⟩ := executes_pure_iff.1 execution
        cases same
        exact .stopped gap (fun uncancelled => by
          rw [uncancelled] at cancelled
          cases cancelled) last
      · rename_i uncancelled
        obtain ⟨during, after, middle, ⟨⟩, rfl, works, goesOn⟩ := execution.bind_some
        exact .worked gap (Bool.eq_false_iff.2 uncancelled) works (ih goesOn)

namespace Polls

/-- Units of work that stop end with a look that finds the addon cancelled. -/
theorem cancelled_of_stopped (polls : Polls addon unit items world moves after .stopped) :
    ∃ before seen, moves = before ++ [(seen, seen)] ∧ ¬ Uncancelled addon seen ∧
      Relation.ReflTransGen Interference seen after := by
  generalize stops : StageStatus.stopped = status at polls
  induction polls with
  | done => cases stops
  | @stopped _ _ _ seen _ gap cancelled last => exact ⟨[], seen, rfl, cancelled, last⟩
  | @worked _ _ _ first _ _ during _ _ _ _ _ _ ih =>
      obtain ⟨before, seen, rfl, cancelled, last⟩ := ih stops
      exact ⟨(first, first) :: (during ++ before), seen, by simp, cancelled, last⟩

/-- Units of work that complete end with the last one, and a look before it does not find the addon
cancelled. -/
theorem last_of_completed {front : List γ} {last : γ}
    (polls : Polls addon unit (front ++ [last]) world moves after .completed) :
    ∃ before seen during middle, moves = before ++ (seen, seen) :: during ∧ Uncancelled addon seen ∧
      Executes Interference (unit last) seen during middle (some ()) ∧
      Relation.ReflTransGen Interference middle after := by
  induction front generalizing world moves with
  | nil =>
      cases polls with
      | @worked _ _ _ seen middle _ during _ _ gap uncancelled works goesOn =>
          cases goesOn with
          | done rest =>
              exact ⟨[], seen, during, middle, by simp, uncancelled, works, rest⟩
  | cons item front ih =>
      cases polls with
      | @worked _ _ _ first _ _ earlier _ _ _ _ _ goesOn =>
          obtain ⟨before, seen, during, middle, rfl, rest⟩ := ih goesOn
          exact ⟨(first, first) :: (earlier ++ before), seen, during, middle, by simp, rest⟩

/-- Nothing is done where there is nothing to do. -/
theorem of_nil (polls : Polls addon unit [] world moves after status) :
    moves = [] ∧ status = .completed := by
  cases polls
  exact ⟨rfl, rfl⟩

end Polls

/-- Whether an addon is not cancelled in a world and at all moves up to the look before the last unit
of work, which so many other moves follow. -/
def LastLook (addon : Handle) (last : Run Unit) (others : Nat) (world : World) (moves : List (Move World)) :
    Prop :=
  ∃ before seen during middle rest, moves = before ++ (seen, seen) :: (during ++ rest) ∧
    rest.length = others ∧ Uncancelled addon world ∧ Uncancelled addon seen ∧
    (∀ move ∈ before, Uncancelled addon move.1) ∧
    Executes Interference last seen during middle (some ())

/-- In an activity that completes units of work between other moves, there is a look before the last
one. -/
theorem Polls.lastLook {begun ended : World} {opening rest : List (Move World)}
    {front : List γ} {last : γ}
    (polls : Polls addon unit (front ++ [last]) begun moves ended .completed)
    (chain : Chain Interference world (opening ++ (moves ++ rest)) after)
    (follow : ∀ move ∈ opening ++ (moves ++ rest), Follows move.1 move.2) :
    LastLook addon (unit last) rest.length world (opening ++ (moves ++ rest)) := by
  obtain ⟨before, seen, during, middle, rfl, uncancelled, works, -⟩ := polls.last_of_completed
  have split : opening ++ ((before ++ (seen, seen) :: during) ++ rest) =
      (opening ++ before) ++ (seen, seen) :: (during ++ rest) := by simp
  rw [split] at chain follow ⊢
  obtain ⟨uncancelledFirst, uncancelledBefore⟩ := uncancelled_before chain
    (fun move member => follow move (List.mem_append_left _ member)) uncancelled
  exact ⟨opening ++ before, seen, during, middle, rest, rfl, rfl, uncancelledFirst, uncancelled,
    uncancelledBefore, works⟩

namespace AddonWork

variable {work : AddonWork}

/-! ## Parsing and saving -/

/-- Keep a config that was read, or report why it was not. -/
def keepParsed (work : AddonWork) (config : Path) :
    Except ClassConfig.ConfigError ClassConfig.ParsedConfig → Run Unit
  | .ok parsed => do
      count (·.countParse true)
      Activity.modify (·.updateProgress work.addon (·.addConfig parsed))
      message work.addon ("Parsed config ".toList ++ config.text)
  | .error e => do
      count (·.countParse false)
      error (some work.addon) ("Failed to parse config ".toList ++ config.text) (some e.fullMessage)

/-- Parse one config. -/
def parseUnit (work : AddonWork) (config : Path) : Run Unit := do
  let result ← Activity.act fun world =>
    let effect := work.environment.reader config (config.parent?.getD config) world.tree
    (effect.result, world.cancelNamed effect.cancelled)
  work.keepParsed config result
  unitDone work.addon

theorem parseEach_eq (configs : List Path) :
    work.parseEach configs = eachUnit work.addon work.parseUnit configs := by
  induction configs with
  | nil => rfl
  | cons config rest ih =>
      unfold parseEach eachUnit
      rw [ih]
      refine congrArg (Activity.bind _) (funext fun cancelled => ?_)
      cases cancelled with
      | true => rfl
      | false =>
          generalize eachUnit work.addon work.parseUnit rest = later
          change _ = work.parseUnit config >>= fun _ => later
          unfold parseUnit
          rw [bind_assoc]
          refine congrArg (Activity.bind _) (funext fun result => ?_)
          cases result <;> rfl

/-- The event that reports that a file was not copied. -/
def copyFailure (work : AddonWork) (entry : Path) (file : Reference.SourceFile) (cause : FileError) : Event :=
  .error (some work.addon) ("Couldn't copy ".toList ++ file.source.text ++ " into ".toList ++ entry.text)
    (some cause.message)

/-- Report a copy that was made, or why it was not. -/
def reportCopy (work : AddonWork) (entry : Path) (file : Reference.SourceFile) :
    Except FileError Path → Run Unit
  | .ok target => do
      count (·.countCopy true)
      message work.addon ("Copied ".toList ++ file.source.text ++ " to ".toList ++ target.text)
  | .error cause => do
      count (·.countCopy false)
      error (some work.addon) ("Couldn't copy ".toList ++ file.source.text ++ " into ".toList ++
        entry.text) (some cause.message)

/-- Save one file. -/
def saveUnit (work : AddonWork) (entry : Path) (item : Text × Reference.SourceFile) : Run Unit := do
  let result ← perform (ReferenceCache.copy entry item.1 item.2)
  work.reportCopy entry item.2 result
  unitDone work.addon

theorem saveEach_eq (entry : Path) (plan : List (Text × Reference.SourceFile)) :
    work.saveEach entry plan = eachUnit work.addon (work.saveUnit entry) plan := by
  induction plan with
  | nil => rfl
  | cons item rest ih =>
      obtain ⟨name, file⟩ := item
      unfold saveEach eachUnit
      rw [ih]
      refine congrArg (Activity.bind _) (funext fun cancelled => ?_)
      cases cancelled with
      | true => rfl
      | false =>
          generalize eachUnit work.addon (work.saveUnit entry) rest = later
          change _ = work.saveUnit entry (name, file) >>= fun _ => later
          unfold saveUnit
          rw [bind_assoc]
          refine congrArg (Activity.bind _) (funext fun result => ?_)
          cases result <;> rfl

end AddonWork

end AddonIndex.Indexing
