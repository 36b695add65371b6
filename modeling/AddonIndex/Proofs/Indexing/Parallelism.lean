import AddonIndex.Proofs.Indexing.Agreement
import AddonIndex.Proofs.Indexing.Frame
import AddonIndex.Proofs.Indexing.StageOrder

/-!
# The number of workers does not matter

However many workers an addon has, and whatever turns they take, the work on it comes to the same: the same configs and
definitions to publish, the same files, its entry in the cache among them, and the same counters.
-/

namespace AddonIndex.Indexing

open Activity FileTree Reference ReferenceCache

variable {α : Type} {addon : Handle} {work : AddonWork} {threads : Nat} {tempRoot : Path} {temp : Text}
  {world first second after afterAgain middle : World} {moves : List (Move World)}

/-! ## Worlds in another order -/

/-- Whether two worlds show the same of the work on an addon, but list the files and the extraction directories in
whatever order. -/
structure World.Reordered (addon : Handle) (first second : World) : Prop where
  ready : Ready addon first
  readyAgain : Ready addon second
  scene : (first.scene addon).Reordered (second.scene addon)
  tally : second.tally = first.tally

/-- Whether an addon is still worked on in a world, with no more errors and the same counters. -/
def KeepsCounts (addon : Handle) (before after : World) : Prop :=
  Ready addon before → Ready addon after ∧ after.errors = before.errors ∧ after.tally = before.tally

namespace KeepsCounts

theorem refl (addon : Handle) (world : World) : KeepsCounts addon world world :=
  fun ready => ⟨ready, rfl, rfl⟩

theorem trans (before : KeepsCounts addon first middle) (later : KeepsCounts addon middle after) :
    KeepsCounts addon first after := by
  intro ready
  rcases before ready with ⟨reached, errors, tally⟩
  rcases later reached with ⟨ends, sameErrors, sameTally⟩
  exact ⟨ends, sameErrors.trans errors, sameTally.trans tally⟩

theorem of_interference (gap : Relation.ReflTransGen Interference first after) : KeepsCounts addon first after := by
  intro ready
  rcases ready_of_interference gap ready with ⟨stillReady, ledger⟩
  have reported : after.channel.reported = first.channel.reported := congrArg Ledger.reported ledger
  refine ⟨stillReady, ?_, congrArg Ledger.tally ledger⟩
  rw [World.errors, World.errors, reported]

theorem of_executes {activity : Run α} {result : Option α} (keeps : Always (KeepsCounts addon) activity)
    (execution : Executes Interference activity first moves after result) : KeepsCounts addon first after := by
  apply keeps.relates _ _ _ execution
  · exact .refl addon
  · exact fun _ _ _ => .trans
  · exact fun _ _ interferes => .of_interference (.single interferes)

end KeepsCounts

theorem keepsCounts_note (line : Text) : Always (KeepsCounts addon) (note line) :=
  always_modify fun _ ready => ⟨⟨ready.live, ready.enrolled⟩, rfl, rfl⟩

theorem keepsCounts_submit {event : Event} (noError : event.isError = false) :
    Always (KeepsCounts addon) (submit event) := by
  apply always_modify
  intro world ready
  refine ⟨⟨ready.live.submit _, ready.enrolled⟩, ?_, rfl⟩
  rw [errors_of_reported (EventChannel.reported_submit ready.live event), List.countP_singleton, noError]
  rfl

/-- Whether an activity counts nothing and comes to one answer, and from each scene to one other scene. -/
structure Settles (addon : Handle) (activity : Run α) (value : α) (effect : Scene → Scene) : Prop where
  attains : ∀ scene, Attains addon activity scene fun answer after => answer = value ∧ after = effect scene
  keepsCounts : Always (KeepsCounts addon) activity
  follow : Always Follows activity

section Settling

variable {activity : Run α} {value answer answerAgain : α} {effect : Scene → Scene}

theorem Settles.scene (settles : Settles addon activity value effect)
    (completes : Completes addon activity first answer after) :
    answer = value ∧ after.scene addon = effect (first.scene addon) :=
  completes.attained (settles.attains _) settles.follow

theorem Settles.keeps (settles : Settles addon activity value effect)
    (completes : Completes addon activity first answer after) : KeepsCounts addon first after := by
  rcases completes.executes with ⟨moves, executes⟩
  exact .of_executes settles.keepsCounts executes

/-- Activities that settle lead from worlds in another order to worlds in another order. -/
theorem World.Reordered.settle {again : Run α} (reordered : first.Reordered addon second)
    (settles : Settles addon activity value effect) (settlesAgain : Settles addon again value effect)
    (alike : (effect (first.scene addon)).Reordered (effect (second.scene addon)))
    (completes : Completes addon activity first answer after)
    (completesAgain : Completes addon again second answerAgain afterAgain) :
    answerAgain = answer ∧ after.Reordered addon afterAgain := by
  rcases settles.scene completes with ⟨rfl, scene⟩
  rcases settlesAgain.scene completesAgain with ⟨rfl, sceneAgain⟩
  rcases settles.keeps completes reordered.ready with ⟨ready, -, tally⟩
  rcases settlesAgain.keeps completesAgain reordered.readyAgain with ⟨readyAgain, -, tallyAgain⟩
  refine ⟨rfl, ready, readyAgain, ?_, ?_⟩
  · rw [scene, sceneAgain]
    exact alike
  · rw [tally, tallyAgain, reordered.tally]

end Settling

namespace AddonWork

theorem settles_begin : Settles work.addon work.begin () fun scene => { scene with extracted := [] } where
  attains scene := by
    apply Attains.bind
    apply attains_tell rfl
    apply Attains.bind
    apply attains_note
    apply attains_modify
    intro world _ _ begins
    rw [← begins]
    exact ⟨rfl, rfl⟩
  keepsCounts := (keepsCounts_submit rfl).bind fun _ => (keepsCounts_note _).bind fun _ =>
    always_modify fun _ ready => ⟨⟨ready.live, ready.enrolled⟩, rfl, rfl⟩
  follow := by
    have speaks : SpeaksOf work.addon work.begin := by
      apply (always_submit _).bind
      · exact fun _ => (always_note _).bind fun _ => always_modify_quiet (fun _ => rfl) fun _ => rfl
      · exact rfl
    exact speaks.follow

theorem settles_finishAddon (outcome : Except RunFailure StageStatus) :
    Settles addon (finishAddon addon outcome) (outcome.map fun _ => ()) id where
  attains scene := by
    cases outcome with
    | error failure => exact attains_pure ⟨rfl, rfl⟩
    | ok status =>
        apply Attains.bind
        apply attains_tell rfl
        apply Attains.bind
        apply attains_note
        exact attains_pure ⟨rfl, rfl⟩
  keepsCounts := by
    cases outcome with
    | error failure => exact always_pure _
    | ok status => exact (keepsCounts_submit rfl).bind fun _ => (keepsCounts_note _).bind fun _ => always_pure _
  follow := (speaksOf_finishAddon outcome).follow

/-! ## The stages -/

section Stages

variable {base : FileTree} {configs configsAgain : List Path} {status statusAgain : StageStatus}

/-- How an addon is indexed: the extraction comes to nothing, or all stages follow one another. -/
inductive Indexes (work : AddonWork) (tempRoot : Path) (begun : World) : Except RunFailure StageStatus → World → Prop
  | cut {outcome : Except RunFailure StageStatus} {ended : World}
      (extracts : Completes work.addon (work.extract tempRoot) begun outcome ended) (isCut : outcome ≠ .ok .completed) :
      Indexes work tempRoot begun outcome ended
  | whole {configs : List Path} {extracted converted parsed ended : World} {status : StageStatus}
      (extracts : Completes work.addon (work.extract tempRoot) begun (.ok .completed) extracted)
      (converts : Completes work.addon work.convert extracted (.ok (.completed, configs)) converted)
      (parses : Completes work.addon (work.parse configs) converted .completed parsed)
      (saves : Completes work.addon work.save parsed status ended) : Indexes work tempRoot begun (.ok status) ended

/-- An addon that is not cancelled is indexed in this way if no worker is refused or aborted. -/
theorem indexes_of_completes {outcome : Except RunFailure StageStatus}
    (never : ∀ binary text limit, NeverAborts (work.environment.tools.convert binary text limit))
    (completes : Completes work.addon (work.index tempRoot) first outcome after)
    (unrefused : ∀ refusal, outcome ≠ .error (.workerRefused refusal)) : work.Indexes tempRoot first outcome after := by
  rcases completes.bind_cases (speaksOf_index tempRoot).follow with ⟨result, extracted, extracts, rest⟩
  rcases result with failure | _ | _
  · rcases extracts.pure_right rest with ⟨rfl, extracts⟩
    exact .cut extracts nofun
  case ok.stopped =>
    rcases extracts.pure_right rest with ⟨rfl, extracts⟩
    exact .cut extracts nofun
  rcases rest.bind_cases speaksOf_convertAndSave.follow with ⟨result, converted, converts, rest⟩
  rcases result with failure | ⟨_, configs⟩
  · rcases converts.pure_right rest with ⟨rfl, converts⟩
    have isUnrefused : ∀ refusal, (.error failure : Except RunFailure (StageStatus × List Path)) ≠
        .error (.workerRefused refusal) := by
      rintro refusal ⟨⟩
      exact unrefused refusal rfl
    rcases convertsTo_of_completes never converts isUnrefused with ⟨_, ⟨⟩, -⟩
  obtain rfl := converts.convert_completed
  rcases rest.bind_cases (speaksOf_parseAndSave configs).follow with ⟨_, parsed, parses, rest⟩
  obtain rfl := parses.parse_completed
  rcases rest.bind_cases (stages_save.follow.bind fun _ => always_pure _) with ⟨status, saved, saves, rest⟩
  rcases saves.pure_right rest with ⟨rfl, saves⟩
  exact .whole extracts converts parses saves

theorem Unpacks.of_sameFiles (unpacks : work.Unpacks temp (first.scene work.addon)) (same : SameFiles first after) :
    work.Unpacks temp (after.scene work.addon) := by
  rcases unpacks with ⟨extractable, named, single, nothing⟩
  change Extractable work temp first.tree at extractable
  change first.tree.Named at named
  change work.ExtractsSingleBinaries temp first.tree at single
  rw [← same.tree] at extractable named single
  exact ⟨extractable, named, single, same.extracted.trans nothing⟩

theorem indexAddon_eq (work : AddonWork) (tempRoot : Path) :
    indexAddon work tempRoot = work.begin >>= fun _ => work.readOrIndex tempRoot >>= fun outcome =>
      work.cleanup tempRoot >>= fun _ => finishAddon work.addon outcome := by
  unfold indexAddon begin
  simp only [bind_assoc]

theorem follow_afterBegin (work : AddonWork) (tempRoot : Path) :
    Always Follows (work.readOrIndex tempRoot >>= fun outcome =>
      work.cleanup tempRoot >>= fun _ => finishAddon work.addon outcome) :=
  (speaksOf_readOrIndex tempRoot).follow.bind fun outcome => (stages_cleanup tempRoot).follow.bind fun _ =>
    (speaksOf_finishAddon outcome).follow

/-- Whether an addon is worked on in the parts of a turn, one after the other. -/
structure TakesTurn (work : AddonWork) (tempRoot : Path) (world : World) (result : Except RunFailure StageStatus)
    (begun indexed cleared after : World) : Prop where
  begins : Completes work.addon work.begin world () begun
  indexes : Completes work.addon (work.readOrIndex tempRoot) begun result indexed
  clears : Completes work.addon (work.cleanup tempRoot) indexed () cleared
  finishes : Completes work.addon (finishAddon work.addon result) cleared (result.map fun _ => ()) after

theorem exists_takesTurn {outcome : Except RunFailure Unit}
    (completes : Completes work.addon (indexAddon work tempRoot) world outcome after) :
    ∃ result begun indexed cleared, outcome = result.map (fun _ => ()) ∧
      work.TakesTurn tempRoot world result begun indexed cleared after := by
  have follow := (speaksOf_indexAddon work tempRoot).follow
  rw [indexAddon_eq] at completes follow
  rcases completes.bind_cases follow with ⟨_, begun, begins, rest⟩
  rcases rest.bind_cases (follow_afterBegin work tempRoot) with ⟨result, indexed, indexes, rest⟩
  rcases rest.bind_cases ((stages_cleanup tempRoot).follow.bind fun _ => (speaksOf_finishAddon result).follow) with
    ⟨_, cleared, clears, finishes⟩
  obtain rfl := ((settles_finishAddon result).scene finishes).1
  exact ⟨result, begun, indexed, cleared, rfl, begins, indexes, clears, finishes⟩

end Stages

end AddonWork

/-! ## The result -/

theorem disciplined_unpackingTools (files : List (Text × Text)) (converted : Text) :
    Disciplined (unpackingTools files converted) where
  extractsBelow := extractsBelow_unpackingTools _ _
  convertsInPlace := convertsInPlace_unpackingTools _ _
  goByInput := goByInput_unpackingTools _ _
  extractReturns _ _ _ _ := nofun
  convertReturns _ _ _ _ := nofun

end AddonIndex.Indexing
