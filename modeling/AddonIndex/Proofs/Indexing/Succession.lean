import AddonIndex.Proofs.Indexing.Agreement
import AddonIndex.Proofs.Indexing.Polling

/-!
# When one stage goes on to the next

The stages of an addon follow one another as long as each completes. Extraction
and conversion look once more whether the addon is cancelled after all their work
is done. Parsing looks only before each config; whoever cancels the addon while
the last config is read is not heard, and saving begins.
-/

namespace AddonIndex.Indexing

open Activity

variable {α β : Type} {addon : Handle}

/-! ## A look at the end -/

/-- Whether an activity that comes to one of certain answers has ended with a look that did not find
an addon cancelled. -/
def LooksAtEnd (addon : Handle) (goesOn : α → Prop) (activity : Run α) : Prop :=
  ∀ world moves after answer, Executes Interference activity world moves after (some answer) → goesOn answer →
    ∃ before seen, moves = before ++ [(seen, seen)] ∧ Uncancelled addon seen

theorem looksAtEnd_pure {goesOn : α → Prop} {answer : α} (stops : ¬ goesOn answer) :
    LooksAtEnd addon goesOn (pure answer : Run α) := by
  intro world moves after found execution goes
  obtain ⟨-, same, -⟩ := executes_pure_iff.1 execution
  cases same
  exact absurd goes stops

theorem LooksAtEnd.bind {goesOn : β → Prop} {next : α → Run β} (looks : ∀ a, LooksAtEnd addon goesOn (next a))
    (first : Run α) : LooksAtEnd addon goesOn (first >>= next) := by
  intro world moves after answer execution goes
  obtain ⟨earlier, later, middle, found, rfl, -, execution⟩ := execution.bind_some
  obtain ⟨before, seen, rfl, uncancelled⟩ := looks found middle later after answer execution goes
  exact ⟨earlier ++ before, seen, (List.append_assoc _ _ _).symm, uncancelled⟩

/-- Whether the last thing before the end of a stage is a look that does not find the addon
cancelled, nor was it at any move before. -/
def LookAtEnd (addon : Handle) (world : World) (moves : List (Move World)) : Prop :=
  ∃ before seen ending, moves = before ++ [(seen, seen), ending] ∧ Uncancelled addon world ∧
    Uncancelled addon seen ∧ ∀ move ∈ before, Uncancelled addon move.1

namespace AddonWork

variable {work : AddonWork} {tempRoot : Path}

/-- An answer with the status of the addon goes on only after a look. -/
theorem looksAtEnd_status {goesOn : α → Prop} {answer : StageStatus → α}
    (stops : ¬ goesOn (answer .stopped)) :
    LooksAtEnd work.addon goesOn (work.status >>= fun status => pure (answer status)) := by
  intro world moves after found execution goes
  obtain ⟨looked, _, middle, status, rfl, looks, answering⟩ := execution.bind_some
  obtain ⟨rfl, same, -⟩ := executes_pure_iff.1 answering
  cases same
  obtain ⟨seen, later, rfl, gap, looks⟩ := executes_inspect_bind_iff.1 looks
  split at looks
  · obtain ⟨-, same, -⟩ := executes_pure_iff.1 looks
    cases same
    exact absurd goes stops
  · rename_i uncancelled
    obtain ⟨rfl, -, -⟩ := executes_pure_iff.1 looks
    exact ⟨[], seen, rfl, Bool.eq_false_iff.2 uncancelled⟩

/-- A stage whose work has ended with a look ends with that look. -/
theorem lookAtEnd_of_stage {stage : Stage} {goesOn : α → Prop} {inner : Run α} {world begun after : World}
    {moves : List (Move World)} {answer : α} (earlier : List (Move World))
    (looks : LooksAtEnd work.addon goesOn inner)
    (execution : Executes Interference (withStage work.addon stage inner) begun moves after (some answer))
    (goes : goesOn answer) (chain : Chain Interference world (earlier ++ moves) after)
    (follow : ∀ move ∈ earlier ++ moves, Follows move.1 move.2) :
    LookAtEnd work.addon world (earlier ++ moves) := by
  obtain ⟨starting, middle, ending, inside, inStage⟩ := exists_inStage execution
  obtain ⟨before, seen, rfl, uncancelled⟩ := looks _ _ _ _ inStage.executes goes
  obtain rfl := inStage.moves
  have split : ∀ first last : Move World, earlier ++ first :: ((before ++ [(seen, seen)]) ++ [last]) =
      (earlier ++ first :: before) ++ (seen, seen) :: [last] := by simp
  rw [split] at chain follow ⊢
  obtain ⟨uncancelledFirst, uncancelledBefore⟩ := uncancelled_before chain
    (fun move member => follow move (List.mem_append_left _ member)) uncancelled
  exact ⟨_, seen, _, rfl, uncancelledFirst, uncancelled, uncancelledBefore⟩

theorem exists_looksAtEnd_extract (work : AddonWork) (tempRoot : Path) : ∃ inner,
    work.extract tempRoot = withStage work.addon .extraction inner ∧
      LooksAtEnd work.addon (· = .ok .completed) inner := by
  refine ⟨_, rfl, LooksAtEnd.bind (fun container => ?_) _⟩
  split
  · exact looksAtEnd_pure nofun
  · exact LooksAtEnd.bind (fun _ => looksAtEnd_pure nofun) _
  · refine LooksAtEnd.bind (fun files => ?_) _
    split
    · exact looksAtEnd_pure nofun
    · refine LooksAtEnd.bind (fun _ => LooksAtEnd.bind (fun _ => LooksAtEnd.bind (fun shared => ?_) _) _) _
      split
      · exact looksAtEnd_pure nofun
      · exact looksAtEnd_status nofun

theorem exists_looksAtEnd_convert (work : AddonWork) : ∃ inner,
    work.convert = withStage work.addon .conversion inner ∧
      LooksAtEnd work.addon (fun answer => ∃ configs, answer = .ok (.completed, configs)) inner := by
  refine ⟨_, rfl, LooksAtEnd.bind (fun directories => LooksAtEnd.bind (fun found => ?_) _) _⟩
  split
  · exact looksAtEnd_pure nofun
  · refine LooksAtEnd.bind (fun _ => LooksAtEnd.bind (fun _ => LooksAtEnd.bind (fun _ =>
      LooksAtEnd.bind (fun shared => ?_) _) _) _) _
    split
    · exact looksAtEnd_pure nofun
    · exact LooksAtEnd.bind (fun configs => looksAtEnd_status nofun) _

/-! ## The stages of an addon -/

/-- The stage that the work on an addon has come to, with its answer. -/
inductive Reached
  | extraction (answer : Except RunFailure StageStatus)
  | conversion (answer : Except RunFailure (StageStatus × List Path))
  | parsing (configs : List Path) (status : StageStatus)
  | saving (status : StageStatus)

/-- The answer of the whole work if it ends with a stage. -/
def Reached.answer? : Reached → Option (Except RunFailure StageStatus)
  | extraction (.ok .completed) => none
  | extraction answer => some answer
  | conversion (.ok (.completed, _)) => none
  | conversion (.ok (.stopped, _)) => some (.ok .stopped)
  | conversion (.error failure) => some (.error failure)
  | parsing _ .completed => none
  | parsing _ .stopped => some (.ok .stopped)
  | saving status => some (.ok status)

/-- Which stages an addon that is indexed has gone through, by which moves. The next stage begins only
after a look that did not find the addon cancelled: after extraction and conversion it is the last
thing that they do, after parsing it comes before the last config, if there is one. -/
inductive GoesThrough (work : AddonWork) (tempRoot : Path) (world : World) :
    List Stage → List (Move World) → World → Reached → Prop
  | extraction {moves : List (Move World)} {after : World} {answer : Except RunFailure StageStatus}
      (extracts : Executes Interference (work.extract tempRoot) world moves after (some answer)) :
      GoesThrough work tempRoot world [.extraction] moves after (.extraction answer)
  | conversion {earlier moves : List (Move World)} {middle after : World}
      {answer : Except RunFailure (StageStatus × List Path)}
      (extracted : GoesThrough work tempRoot world [.extraction] earlier middle (.extraction (.ok .completed)))
      (look : LookAtEnd work.addon world earlier)
      (converts : Executes Interference work.convert middle moves after (some answer)) :
      GoesThrough work tempRoot world [.extraction, .conversion] (earlier ++ moves) after
        (.conversion answer)
  | parsing {earlier moves : List (Move World)} {middle after : World} {configs : List Path}
      {status : StageStatus}
      (converted : GoesThrough work tempRoot world [.extraction, .conversion] earlier middle
        (.conversion (.ok (.completed, configs))))
      (look : LookAtEnd work.addon world earlier)
      (parses : Executes Interference (work.parse configs) middle moves after (some status)) :
      GoesThrough work tempRoot world [.extraction, .conversion, .parsing] (earlier ++ moves) after
        (.parsing configs status)
  | saving {earlier moves : List (Move World)} {middle after : World} {configs : List Path}
      {status : StageStatus}
      (parsed : GoesThrough work tempRoot world [.extraction, .conversion, .parsing] earlier middle
        (.parsing configs .completed))
      (look : ∀ front last, configs = front ++ [last] →
        LastLook work.addon (work.parseUnit last) 1 world earlier)
      (saves : Executes Interference work.save middle moves after (some status)) :
      GoesThrough work tempRoot world [.extraction, .conversion, .parsing, .saving] (earlier ++ moves) after
        (.saving status)

namespace GoesThrough

variable {world after : World} {moves : List (Move World)} {stages : List Stage} {reached : Reached}

/-- The moves of the stages lead from the first world to the last one. -/
theorem chain (goes : GoesThrough work tempRoot world stages moves after reached) :
    Chain Interference world moves after ∧ ∀ move ∈ moves, Follows move.1 move.2 := by
  have append : ∀ {earlier later : List (Move World)} {middle after : World},
      (Chain Interference world earlier middle ∧ ∀ move ∈ earlier, Follows move.1 move.2) →
      Chain Interference middle later after → (∀ move ∈ later, Follows move.1 move.2) →
      Chain Interference world (earlier ++ later) after ∧ ∀ move ∈ earlier ++ later, Follows move.1 move.2 := by
    intro earlier later middle after before chain follow
    refine ⟨chain_append_iff.2 ⟨middle, before.1, chain⟩, fun move member => ?_⟩
    rcases List.mem_append.1 member with first | second
    · exact before.2 move first
    · exact follow move second
  induction goes with
  | extraction extracts => exact ⟨extracts.2, (stages_extract _).follow.of_traces extracts.1⟩
  | conversion _ _ converts ih => exact append ih converts.2 (stages_convert.follow.of_traces converts.1)
  | parsing _ _ parses ih => exact append ih parses.2 ((stages_parse _).follow.of_traces parses.1)
  | saving _ _ saves ih => exact append ih saves.2 (stages_save.follow.of_traces saves.1)

/-- The stages report their events one after another. -/
theorem reported (goes : GoesThrough work tempRoot world stages moves after reached)
    (live : world.channel.Live) :
    after.channel.Live ∧ ∃ word, after.channel.reported = world.channel.reported ++ word ∧
      IsStages work.addon stages word := by
  have next : ∀ {α : Type} {stages : List Stage} {stage : Stage} {activity : Run α} {middle after : World}
      {later : List (Move World)} {answer : α},
      (middle.channel.Live ∧ ∃ word, middle.channel.reported = world.channel.reported ++ word ∧
        IsStages work.addon stages word) →
      Stages work.addon stage activity → Executes Interference activity middle later after (some answer) →
      after.channel.Live ∧ ∃ word, after.channel.reported = world.channel.reported ++ word ∧
        IsStages work.addon (stages ++ [stage]) word := by
    rintro α stages stage activity middle after later answer ⟨middleLive, word, told, isStages⟩ isStage execution
    obtain ⟨_, more, -, afterLive, toldMore, fits⟩ := isStage.reports.tells _ _ _ _ execution middleLive
    exact ⟨afterLive, word ++ more, by rw [toldMore, told, List.append_assoc], isStages.append fits.stages⟩
  induction goes with
  | extraction extracts =>
      exact next ⟨live, [], (List.append_nil _).symm, .nil⟩ (stages_extract tempRoot) extracts
  | conversion _ _ converts ih => exact next ih stages_convert converts
  | parsing _ _ parses ih => exact next ih (stages_parse _) parses
  | saving _ _ saves ih => exact next ih stages_save saves

theorem gap_right (goes : GoesThrough work tempRoot world stages moves after reached) {last : World}
    (gap : Relation.ReflTransGen Interference after last) :
    GoesThrough work tempRoot world stages moves last reached := by
  cases goes with
  | extraction extracts => exact .extraction (executes_gap_right extracts gap)
  | conversion extracted look converts => exact .conversion extracted look (executes_gap_right converts gap)
  | parsing converted look parses => exact .parsing converted look (executes_gap_right parses gap)
  | saving parsed look saves => exact .saving parsed look (executes_gap_right saves gap)

/-- An extraction that goes on has ended with a look. -/
theorem lookAtEnd_extraction
    (goes : GoesThrough work tempRoot world stages moves after (.extraction (.ok .completed))) :
    LookAtEnd work.addon world moves := by
  obtain ⟨chain, follow⟩ := goes.chain
  obtain ⟨inner, same, looks⟩ := exists_looksAtEnd_extract work tempRoot
  cases goes with
  | extraction extracts =>
      rw [same] at extracts
      exact lookAtEnd_of_stage [] looks extracts rfl chain follow

/-- A conversion that goes on has ended with a look. -/
theorem lookAtEnd_conversion {configs : List Path}
    (goes : GoesThrough work tempRoot world stages moves after (.conversion (.ok (.completed, configs)))) :
    LookAtEnd work.addon world moves := by
  obtain ⟨chain, follow⟩ := goes.chain
  obtain ⟨inner, same, looks⟩ := exists_looksAtEnd_convert work
  cases goes with
  | conversion extracted look converts =>
      rw [same] at converts
      exact lookAtEnd_of_stage _ looks converts ⟨configs, rfl⟩ chain follow

/-- Parsing that goes on has looked before the last config. -/
theorem lastLook_parsing {front : List Path} {last : Path}
    (goes : GoesThrough work tempRoot world stages moves after (.parsing (front ++ [last]) .completed)) :
    LastLook work.addon (work.parseUnit last) 1 world moves := by
  obtain ⟨chain, follow⟩ := goes.chain
  cases goes with
  | @parsing earlier _ _ _ _ _ converted look parses =>
      obtain ⟨starting, middle, ending, inside, inStage⟩ := exists_inStage parses
      obtain ⟨opening, polled, begun, ⟨⟩, rfl, -, polls⟩ := inStage.executes.bind_some
      rw [parseEach_eq] at polls
      obtain rfl := inStage.moves
      have split : ∀ first second : Move World, earlier ++ first :: ((opening ++ polled) ++ [second]) =
          (earlier ++ first :: opening) ++ (polled ++ [second]) := by simp
      rw [split] at chain follow ⊢
      exact (polls_of_executes polls).lastLook chain follow

end GoesThrough

/-- An addon that is indexed goes through its stages, and each of them reports its start and its
finish. A later stage begins only if the addon was not cancelled at the last look of the stage before
it. -/
theorem goesThrough_of_index {world after : World} {moves : List (Move World)}
    {result : Option (Except RunFailure StageStatus)} (live : world.channel.Live)
    (execution : Executes Interference (work.index tempRoot) world moves after result) :
    ∃ answer stages reached word, result = some answer ∧
      GoesThrough work tempRoot world stages moves after reached ∧ reached.answer? = some answer ∧
      after.channel.reported = world.channel.reported ++ word ∧ IsStages work.addon stages word := by
  obtain ⟨answer, _, rfl, -⟩ := (work.goesOn_index tempRoot).tells _ _ _ _ execution live
  suffices goes : ∃ stages reached, GoesThrough work tempRoot world stages moves after reached ∧
      reached.answer? = some answer by
    obtain ⟨stages, reached, goes, ended⟩ := goes
    obtain ⟨-, word, told, isStages⟩ := goes.reported live
    exact ⟨answer, stages, reached, word, rfl, goes, ended, told, isStages⟩
  obtain ⟨first, _, _, extracted, rfl, extracts, execution⟩ := execution.bind_some
  have goes : GoesThrough work tempRoot world [.extraction] first _ _ := .extraction extracts
  -- Where the work is given up the stage is the last one.
  have ends : ∀ {stages earlier later middle reached given},
      GoesThrough work tempRoot world stages earlier middle reached → reached.answer? = some given →
      Executes Interference (pure given : Run (Except RunFailure StageStatus)) middle later after (some answer) →
      ∃ stages reached, GoesThrough work tempRoot world stages (earlier ++ later) after reached ∧
        reached.answer? = some answer := by
    intro stages earlier later middle reached given goes answers execution
    obtain ⟨rfl, same, gap⟩ := executes_pure_iff.1 execution
    cases same
    rw [List.append_nil]
    exact ⟨stages, reached, goes.gap_right gap, answers⟩
  match extracted with
  | .error failure => exact ends goes rfl execution
  | .ok .stopped => exact ends goes rfl execution
  | .ok .completed =>
  obtain ⟨second, _, _, converted, rfl, converts, execution⟩ := execution.bind_some
  have goes := goes.conversion goes.lookAtEnd_extraction converts
  rw [← List.append_assoc]
  match converted with
  | .error failure => exact ends goes rfl execution
  | .ok (.stopped, configs) => exact ends goes rfl execution
  | .ok (.completed, configs) =>
  obtain ⟨third, _, _, parsed, rfl, parses, execution⟩ := execution.bind_some
  have goes := goes.parsing goes.lookAtEnd_conversion parses
  rw [← List.append_assoc]
  match parsed with
  | .stopped => exact ends goes rfl execution
  | .completed =>
  obtain ⟨fourth, _, _, saved, rfl, saves, execution⟩ := execution.bind_some
  have looks : ∀ front last, configs = front ++ [last] →
      LastLook work.addon (work.parseUnit last) 1 world (first ++ second ++ third) := by
    rintro front last rfl
    exact goes.lastLook_parsing
  rw [← List.append_assoc]
  exact ends (.saving goes looks saves) rfl execution

end AddonWork

/-- The addon with one archive goes through all stages, and at the last look before its one config it
was not cancelled. -/
theorem packed_goesThrough :
    ∃ moves after configs first, Executes Interference (unpackingWork.index "ref/temp") packed moves
        ((unpackingWork.index "ref/temp").run packed).1 (some (.ok .completed)) ∧
      unpackingWork.GoesThrough "ref/temp" packed [.extraction, .conversion, .parsing] first after
        (.parsing configs .completed) ∧
      ∀ front last, configs = front ++ [last] →
        LastLook unpackingWork.addon (unpackingWork.parseUnit last) 1 packed first := by
  obtain ⟨moves, execution⟩ : ∃ moves, Executes Interference (unpackingWork.index "ref/temp") packed moves _ _ :=
    executes_run (unpackingWork.index "ref/temp") packed
  have ended : ((unpackingWork.index "ref/temp").run packed).2 = some (.ok .completed) := by decide +kernel
  rw [ended] at execution
  obtain ⟨answer, stages, reached, word, same, goes, answers, -⟩ :=
    AddonWork.goesThrough_of_index EventChannel.live_new execution
  cases same
  cases goes with
  | @extraction _ _ answer =>
      cases answer with
      | error failure => cases answers
      | ok status => cases status <;> cases answers
  | @conversion _ _ _ _ answer =>
      cases answer with
      | error failure => cases answers
      | ok found =>
          obtain ⟨status, configs⟩ := found
          cases status <;> cases answers
  | @parsing _ _ _ _ _ status => cases status <;> cases answers
  | saving parsed look saves => exact ⟨_, _, _, _, execution, parsed, look⟩

/-- A reader by which the addon is cancelled while its config is read. -/
def cancellingReader : ConfigReader := fun config includeDirectory tree =>
  { cancelled := ["@A"], result := ClassConfig.readConfig tree config includeDirectory }

/-- The work on the addon with this reader. -/
def cancellingWork : AddonWork :=
  { unpackingWork with environment := { unpackingWork.environment with reader := cancellingReader } }

/-- The addon is cancelled while its last config is read, and still its files are saved. -/
theorem cancelled_in_last_parse_saves :
    Uncancelled cancellingWork.addon unpackedConverted ∧
      ((cancellingWork.parse [unpackedConfig]).run unpackedConverted).2 = some .completed ∧
      ¬ Uncancelled cancellingWork.addon ((cancellingWork.parse [unpackedConfig]).run unpackedConverted).1 ∧
      .stageStarted cancellingWork.addon .saving ∈
        ((cancellingWork.index "ref/temp").run packed).1.channel.reported :=
  ⟨by decide +kernel, by decide +kernel, by decide +kernel, by decide +kernel⟩

end AddonIndex.Indexing
