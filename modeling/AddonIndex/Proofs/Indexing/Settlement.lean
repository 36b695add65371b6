import AddonIndex.Proofs.Indexing.Publication

/-!
# What becomes of the catalog

A run that is given up leaves the catalog as it was, whatever it is given up for and however many addons were
indexed by then: the list is not replaced and nothing is announced. A run that comes to a list of addons publishes
it before it reports its end, so whoever is told of the end finds this list in the catalog.
-/

namespace AddonIndex.Indexing

open Activity

variable {environment : Environment} {selection : Selection} {world after : World} {moves : List (Move World)}
  {published : List Addon}

/-- Whether a move reports an event. -/
def Signals (event : Event) (move : Move World) : Prop :=
  move.1.channel.Live ∧ move.2.channel.reported = move.1.channel.reported ++ [event]

/-- A step that leaves the channel reports nothing. -/
theorem not_signals_of_channel {event : Event} {move : Move World} (same : move.2.channel = move.1.channel) :
    ¬ Signals event move := by
  rintro ⟨-, reported⟩
  rw [same] at reported
  exact List.cons_ne_nil _ _ (List.append_right_eq_self.1 reported.symm)

/-! ## Before the end is reported -/

/-- Whether a step keeps the channel live and does not report the end of the run. -/
def Ongoing (before after : World) : Prop :=
  (before.channel.Live → after.channel.Live) ∧ ¬ Signals .finished (before, after)

theorem Proceeds.ongoing {allowed : Event → Prop} {before after : World} (proceeds : Proceeds allowed before after)
    (excluded : ¬ allowed .finished) : Ongoing before after := by
  constructor
  · exact proceeds.live
  · rintro ⟨live, reported⟩
    rcases proceeds.reports live with ⟨events, isReported, kinds⟩
    have single : [Event.finished] = events := List.append_cancel_left (reported.symm.trans isReported)
    exact excluded (kinds .finished (single ▸ List.mem_singleton_self _))

theorem Quiet.ongoing {α : Type} {activity : Run α} (quiet : Quiet activity) : Always Ongoing activity :=
  quiet.steps.mono fun _ _ proceeds => proceeds.ongoing id

theorem ongoing_enroll (directories : List Path) : Always Ongoing (enroll directories) :=
  always_act fun _ => ⟨id, not_signals_of_channel rfl⟩

theorem ongoing_indexAll (root : Path) (addons : List Handle) :
    Always Ongoing (indexAll environment root addons) := by
  apply (quiet_createTempRoot root).ongoing.bind
  intro created
  split
  · trivial
  · rename_i tempRoot
    refine (quiet_modify ?_ ?_).ongoing.bind fun _ => (quiet_note _).ongoing.bind fun _ => ?_
    · exact fun _ => rfl
    · exact fun _ => rfl
    · apply (proceeds_indexEach.mono fun _ _ proceeds => proceeds.ongoing Bool.false_ne_true).bind
      intro indexed
      cases indexed with
      | error failure => trivial
      | ok _ =>
          exact (quiet_deleteTempRoot tempRoot).ongoing.bind fun _ =>
            (quiet_collect addons).ongoing.bind fun _ => always_pure _

/-- The end of a run is not reported before its outcome is known. -/
theorem ongoing_attempt (logPath : Option Path) :
    Always Ongoing (attempt environment selection logPath) := by
  refine (quiet_openLog logPath).ongoing.bind fun _ => (quiet_note _).ongoing.bind fun _ =>
    (quiet_ensureReferenceRoot _).ongoing.bind fun ensured => ?_
  split
  · trivial
  · have checks : Always (Proceeds fun _ => False) (callTool environment.tools.check) := always_callTool _
    apply (checks.mono fun _ _ proceeds => proceeds.ongoing id).bind
    intro checked
    split
    · trivial
    · have starts : ∀ addons, Always (Proceeds (· ≠ .finished)) (submit (.started selection addons)) :=
        fun addons => always_submit nofun
      exact (quiet_discover _).ongoing.bind fun directories => (ongoing_enroll directories).bind fun addons =>
        ((starts addons).mono fun _ _ proceeds => proceeds.ongoing fun differs => differs rfl).bind fun _ =>
          ongoing_indexAll _ addons

theorem live_of_ongoing {α : Type} {activity : Run α} {result : Option α} (ongoing : Always Ongoing activity)
    (execution : Executes Interference activity world moves after result) (live : world.channel.Live) :
    after.channel.Live := by
  have keeps : Always (fun before after : World => before.channel.Live → after.channel.Live) activity :=
    ongoing.mono fun _ _ => And.left
  apply keeps.relates _ _ _ execution live
  · exact fun _ live => live
  · exact fun _ _ _ first second live => second (first live)
  · exact fun _ _ last => live_of_interference (.single last)

/-! ## The settlement -/

/-- The catalog is found as it is by every move of an execution that does not publish. -/
theorem catalog_of_mem {α : Type} {activity : Run α} {result : Option α} (keeps : Always KeepsCatalog activity)
    (execution : Executes Interference activity world moves after result) :
    ∀ move ∈ moves, move.1.catalog = world.catalog ∧ move.2.catalog = world.catalog := by
  change ∀ move ∈ moves, KeepsCatalog world move.1 ∧ KeepsCatalog world move.2
  apply execution.2.relates_moves
  · exact fun _ => rfl
  · exact fun _ _ _ first second => second.trans first
  · exact fun _ _ => keepsCatalog_of_interference
  · exact keeps.of_traces execution.1

/-- How a run ends whose attempt has an outcome; there is none if the attempt is aborted. -/
def Settled (world : World) (moves : List (Move World)) (after : World) :
    Option (Except RunFailure (List Addon)) → Prop
  | some (.ok published) =>
      after.catalog = world.catalog.publish published ∧ (∃ move ∈ moves, Signals .finished move) ∧
        ∀ move ∈ moves, Signals .finished move → move.1.catalog = world.catalog.publish published
  | some (.error _) =>
      after.catalog = world.catalog ∧ (∃ move ∈ moves, Signals .finished move) ∧
        ∀ move ∈ moves, move.1.catalog = world.catalog ∧ move.2.catalog = world.catalog
  | none =>
      after.catalog = world.catalog ∧
        ∀ move ∈ moves, move.1.catalog = world.catalog ∧ move.2.catalog = world.catalog

/-- The end of a run begins by reporting it. -/
theorem exists_signal_of_wrapUp {result : Option Unit}
    (execution : Executes Interference wrapUp world moves after result) (live : world.channel.Live) :
    ∃ move ∈ moves, Signals .finished move := by
  obtain ⟨finishing, rest, rfl, gap, -⟩ := executes_modify_bind_iff.1 execution
  have finishingLive := live_of_interference gap live
  exact ⟨_, List.mem_cons_self, finishingLive, EventChannel.reported_submit finishingLive .finished⟩

theorem keepsCatalog_giveUp (failure : RunFailure) :
    Always KeepsCatalog (settle (.error failure) >>= fun _ => wrapUp) :=
  (works_error none _ _).keepsCatalog.bind fun _ => keepsCatalog_wrapUp

theorem returns_wrapUp : Returns wrapUp := by
  have returns_reportLeft : ∀ tempRoot deleted, Returns (reportLeft tempRoot deleted) := by
    intro tempRoot deleted
    cases deleted with
    | ok _ => trivial
    | error cause => exact (returns_modify _).bind fun _ => returns_modify _
  apply (returns_modify _).bind
  intro _
  refine Returns.bind ((returns_inspect _).bind fun tempRoot => ?_) fun _ =>
    (returns_modify _).bind fun _ => returns_modify _
  cases tempRoot with
  | none => trivial
  | some tempRoot =>
      apply (returns_inspect _).bind
      intro there
      split
      · exact (returns_act _).bind fun deleted => returns_reportLeft tempRoot deleted
      · trivial

/-- However an attempt comes out, the run goes on to its end. -/
theorem returns_settle (outcome : Except RunFailure (List Addon)) :
    Returns (settle outcome >>= fun _ => wrapUp) := by
  refine Returns.bind ?_ fun _ => returns_wrapUp
  cases outcome <;> exact (returns_modify _).bind fun _ => returns_modify _

/-- What is published is in the catalog when the end is reported. -/
theorem settles_publish {result : Option Unit} (live : world.channel.Live)
    (execution : Executes Interference (publish published >>= fun _ => wrapUp) world moves after result) :
    Settled world moves after (some (.ok published)) := by
  constructor
  · exact catalog_of_publish execution
  unfold publish at execution
  rw [bind_assoc] at execution
  obtain ⟨replacing, _, rfl, toReplace, execution⟩ := executes_modify_bind_iff.1 execution
  obtain ⟨announcing, ending, rfl, toAnnounce, execution⟩ := executes_modify_bind_iff.1 execution
  have holds : (announcing.catalog.announce published.length) = world.catalog.publish published := by
    have replaced : announcing.catalog = replacing.catalog.replace published := keepsCatalog_of_gap toAnnounce
    rw [replaced, show replacing.catalog = world.catalog from keepsCatalog_of_gap toReplace]
    rfl
  constructor
  · have replacingLive := live_of_interference toReplace live
    have announcingLive : announcing.channel.Live := live_of_interference toAnnounce replacingLive
    obtain ⟨move, member, signals⟩ := exists_signal_of_wrapUp execution announcingLive
    exact ⟨move, List.mem_cons_of_mem _ (List.mem_cons_of_mem _ member), signals⟩
  · intro move member signals
    rcases List.mem_cons.1 member with rfl | member
    · exact absurd signals (not_signals_of_channel rfl)
    rcases List.mem_cons.1 member with rfl | member
    · exact absurd signals (not_signals_of_channel rfl)
    · exact (catalog_of_mem keepsCatalog_wrapUp execution move member).1.trans holds

/-- A run that is given up, or that is aborted, leaves the catalog as it was throughout. One that comes to a list
of addons has published exactly this list when it reports its end. Only an aborted attempt keeps a run from its
end. -/
theorem settled_of_run {logPath : Option Path} {result : Option Unit} (live : world.channel.Live)
    (execution : Executes Interference (run environment selection logPath) world moves after result) :
    ∃ trying ending tried outcome, moves = trying ++ ending ∧
      Executes Interference (attempt environment selection logPath) world trying tried outcome ∧
      Settled world moves after outcome ∧ result = outcome.map fun _ => () := by
  rw [run_eq] at execution
  rcases executes_bind_cases execution with
    ⟨trying, ending, tried, outcome, rfl, tries, ends⟩ | ⟨aborted, noResult⟩
  · have same : tried.catalog = world.catalog := catalog_of_executes (keepsCatalog_attempt logPath) tries
    have before := catalog_of_mem (keepsCatalog_attempt logPath) tries
    have triedLive := live_of_ongoing (ongoing_attempt logPath) tries live
    rcases (returns_settle outcome).of_traces ends.1 with ⟨⟨⟩, rfl⟩
    refine ⟨trying, ending, tried, some outcome, rfl, tries, ?_, rfl⟩
    cases outcome with
    | error failure =>
        have later := catalog_of_mem (keepsCatalog_giveUp failure) ends
        rw [same] at later
        refine ⟨(catalog_of_executes (keepsCatalog_giveUp failure) ends).trans same, ?_, fun move member =>
          (List.mem_append.1 member).elim (before move) (later move)⟩
        obtain ⟨_, last, reported, ⟨⟩, rfl, reports, wraps⟩ := ends.bind_some
        obtain ⟨move, member, signals⟩ := exists_signal_of_wrapUp wraps
          ((works_error none _ _).live reports triedLive)
        exact ⟨move, List.mem_append_right _ (List.mem_append_right _ member), signals⟩
    | ok published =>
        obtain ⟨holds, ⟨move, member, signals⟩, finds⟩ := settles_publish triedLive ends
        rw [same] at holds finds
        refine ⟨holds, ⟨move, List.mem_append_right _ member, signals⟩, fun move member signals => ?_⟩
        rcases List.mem_append.1 member with early | late
        · exact absurd signals ((ongoing_attempt logPath).of_traces tries.1 move early).2
        · exact finds move late signals
  · exact ⟨moves, [], after, none, (List.append_nil _).symm, aborted,
      ⟨catalog_of_executes (keepsCatalog_attempt logPath) aborted,
        catalog_of_mem (keepsCatalog_attempt logPath) aborted⟩, noResult⟩

/-- Tools of which the extractor deletes the second addon. -/
def deletingTools : ArchiveTools where
  check tree := { tree, reply := .outcome .success }
  extract _ _ _ tree :=
    { tree := ((FileOp.removeTree ⟨"more/@B".toList⟩).run tree).1, reply := .outcome .success }
  convert _ _ _ tree := { tree, reply := .outcome .success }

/-- A run over two addons of which the second one is gone when its turn comes. -/
def deletingRun : Run Unit := run { tools := deletingTools } twoRoots none

/-- The first addon is indexed, but nothing is published. -/
theorem settled_of_deletingRun :
    ((deletingRun.run twoAddons).1.tally.archivesExtracted = 1) ∧
    ∃ moves trying ending tried failure,
      Executes Interference deletingRun twoAddons moves (deletingRun.run twoAddons).1 (some ()) ∧
      moves = trying ++ ending ∧
      Executes Interference (attempt { tools := deletingTools } twoRoots none) twoAddons trying tried
        (some (.error failure)) ∧
      Settled twoAddons moves (deletingRun.run twoAddons).1 (some (.error failure)) := by
  have ended : (deletingRun.run twoAddons).2 = some () := by decide +kernel
  have announced : (deletingRun.run twoAddons).1.catalog.announced = [] := by decide +kernel
  obtain ⟨moves, execution⟩ : ∃ moves, Executes Interference deletingRun twoAddons moves _ _ :=
    executes_run deletingRun twoAddons
  rw [ended] at execution
  obtain ⟨trying, ending, tried, outcome, split, tries, settled, same⟩ :=
    settled_of_run EventChannel.live_new execution
  constructor
  · decide +kernel
  rcases outcome with _ | failure | published
  · cases same
  · exact ⟨moves, trying, ending, tried, failure, execution, split, tries, settled⟩
  · rw [settled.1] at announced
    cases announced

end AddonIndex.Indexing
