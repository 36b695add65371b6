import AddonIndex.Proofs.Activity.Marking
import AddonIndex.Proofs.Indexing.Uncancelled

/-!
# The ledger of a stage

What is told, what is counted, how much of a stage is done and which extraction directories are noted make up a
ledger. Each step of the work makes at
most one entry in it, and nothing that happens outside makes one. So the ledger after a stage follows from the
entries of its steps, whatever the order in which workers make them. A step that changes files or cancels an addon
has an entry, so what a stage does to files can be read off its entries as well.
-/

namespace AddonIndex.Indexing

open Activity

variable {α β γ : Type} {addon : Handle} {world after : World}

/-- What account is kept of during the work on an addon. -/
structure Ledger where
  reported : List Event
  tally : Tally
  current : Nat
  total : Nat
  extracted : List Path

/-- The ledger of an addon. -/
def World.ledger (addon : Handle) (world : World) : Ledger where
  reported := world.channel.reported
  tally := world.tally
  current := (world.progressOf addon).current
  total := (world.progressOf addon).total
  extracted := world.extracted

/-- Whether the ledger of an addon is kept: events are taken, and the addon has a progress. -/
structure Ready (addon : Handle) (world : World) : Prop where
  live : world.channel.Live
  enrolled : addon.index < world.progress.length

/-- What a stage does with units of work: the extraction directories that are noted before a unit is worked on, the
step in which it is, whether that succeeds (it has no answer if it aborts the worker), what is told of the unit, and
where it is counted. -/
structure Job (γ : Type) where
  notes : γ → List Path
  step : γ → World → World
  result : γ → World → Option Bool
  tells : γ → Bool → Event → Prop
  record : Tally → Bool → Tally
  /-- Units may be counted in any order. -/
  record_comm : ∀ tally first second, record (record tally first) second = record (record tally second) first

/-- An entry in the ledger. -/
inductive Posting (γ : Type)
  /-- The stage begins with so many units. -/
  | begun (units : Nat)
  /-- A unit is worked on. -/
  | worked (unit : γ) (result : Option Bool)
  /-- An extraction directory is noted. -/
  | noted (directory : Path)
  | counted (succeeded : Bool)
  | told (event : Event)
  /-- One more unit is done. -/
  | advanced (current : Nat)
  /-- The addon is found cancelled. -/
  | stopped
  /-- The world is looked at. -/
  | looked (world : World)
  /-- The files are changed, but not for a unit. -/
  | arranged (before after : FileTree)

/-- Whether a move leaves the files and cancels no addon. -/
structure Still (move : Move World) : Prop where
  cancelled : ∀ other, (move.2.progressOf other).cancelled = (move.1.progressOf other).cancelled
  tree : move.2.tree = move.1.tree

namespace Posting

variable {job : Job γ}

/-- The ledger after an entry. -/
def post (job : Job γ) : Posting γ → Ledger → Ledger
  | begun units, ledger => { ledger with current := 0, total := units }
  | worked _ _, ledger => ledger
  | noted directory, ledger => { ledger with extracted := ledger.extracted ++ [directory] }
  | counted succeeded, ledger => { ledger with tally := job.record ledger.tally succeeded }
  | told event, ledger => { ledger with reported := ledger.reported ++ [event] }
  | advanced _, ledger => { ledger with current := ledger.current + 1 }
  | stopped, ledger => ledger
  | looked _, ledger => ledger
  | arranged _ _, ledger => ledger

/-- The ledger after entries, one after the other. -/
def postAll (job : Job γ) (entries : List (Posting γ)) (ledger : Ledger) : Ledger :=
  entries.foldl (fun ledger entry => entry.post job ledger) ledger

@[simp]
theorem postAll_nil (ledger : Ledger) : postAll job [] ledger = ledger :=
  rfl

@[simp]
theorem postAll_cons (entry : Posting γ) (rest : List (Posting γ)) (ledger : Ledger) :
    postAll job (entry :: rest) ledger = postAll job rest (entry.post job ledger) :=
  rfl

/-- What a move shows that makes an entry. -/
def Shows (job : Job γ) (addon : Handle) : Posting γ → Move World → Prop
  | worked unit result, move => move.2 = job.step unit move.1 ∧ job.result unit move.1 = result
  | arranged before after, move => move.1.tree = before ∧ move.2.tree = after
  | looked world, move => move.1 = world ∧ Still move
  | advanced current, move => current = (move.2.progressOf addon).current ∧ Still move
  | stopped, move => ¬ Uncancelled addon move.1 ∧ Still move
  | _, move => Still move

end Posting

/-- Whether a move makes an entry in the ledger, or none. -/
def Enters (job : Job γ) (addon : Handle) : Option (Posting γ) → Move World → Prop
  | none, move => Still move ∧
      (Ready addon move.1 → Ready addon move.2 ∧ move.2.ledger addon = move.1.ledger addon)
  | some entry, move => entry.Shows job addon move ∧
      (Ready addon move.1 → Ready addon move.2 ∧ move.2.ledger addon = entry.post job (move.1.ledger addon))

variable {job : Job γ}

/-! ## Along a chain of moves -/

theorem ready_of_interference (gap : Relation.ReflTransGen Interference world after) (ready : Ready addon world) :
    Ready addon after ∧ after.ledger addon = world.ledger addon := by
  induction gap with
  | refl => exact ⟨ready, rfl⟩
  | tail _ last ih =>
      rcases ih with ⟨still, same⟩
      cases last with
      | deliver =>
          refine ⟨⟨still.live.deliverNext, still.enrolled⟩, Eq.trans ?_ same⟩
          unfold World.ledger
          rw [EventChannel.reported_deliverNext]
          rfl
      | cancel other =>
          refine ⟨⟨still.live, ?_⟩, Eq.trans ?_ same⟩
          · unfold World.updateProgress
            rw [List.length_modify]
            exact still.enrolled
          · unfold World.ledger
            rw [progressOf_updateProgress]
            split <;> rfl

/-- The numbers that entries give for the progress. -/
def Numbered : Nat → List (Posting γ) → Prop
  | _, [] => True
  | _, .begun _ :: rest => Numbered 0 rest
  | current, .advanced next :: rest => next = current + 1 ∧ Numbered next rest
  | current, _ :: rest => Numbered current rest

/-- The ledger after moves is the one that their entries lead to, one after the other. -/
theorem ledger_of_chain {labels : List (Option (Posting γ))} {moves : List (Move World)}
    (enters : List.Forall₂ (Enters job addon) labels moves) (chain : Chain Interference world moves after)
    (ready : Ready addon world) :
    Ready addon after ∧
      after.ledger addon = Posting.postAll job labels.reduceOption (world.ledger addon) ∧
      Numbered (world.ledger addon).current labels.reduceOption := by
  induction enters generalizing world with
  | nil =>
      rcases ready_of_interference chain ready with ⟨still, same⟩
      exact ⟨still, same, trivial⟩
  | @cons label move labels moves made _ ih =>
      rcases chain with ⟨gap, chain⟩
      rcases ready_of_interference gap ready with ⟨readyBefore, same⟩
      cases label with
      | none =>
          rcases made.2 readyBefore with ⟨readyAfter, kept⟩
          rcases ih chain readyAfter with ⟨still, posted, numbered⟩
          rw [kept, same] at posted numbered
          rw [List.reduceOption_cons_of_none]
          exact ⟨still, posted, numbered⟩
      | some entry =>
          rcases made with ⟨shows, makes⟩
          rcases makes readyBefore with ⟨readyAfter, posts⟩
          rcases ih chain readyAfter with ⟨still, posted, numbered⟩
          rw [posts, same] at posted numbered
          rw [List.reduceOption_cons_of_some]
          refine ⟨still, posted, ?_⟩
          cases entry with
          | advanced next =>
              have value : next = (world.ledger addon).current + 1 := by
                rw [show next = (move.2.ledger addon).current from shows.1, posts, same]
                rfl
              rw [value]
              exact ⟨rfl, numbered⟩
          | _ => exact numbered

/-! ## What entries come to -/

/-- The event that an entry tells. -/
def Posting.told? : Posting γ → Option Event
  | told event => some event
  | _ => none

/-- The success or failure that an entry counts. -/
def Posting.counted? : Posting γ → Option Bool
  | counted succeeded => some succeeded
  | _ => none

/-- The number of units that are done after an entry that counts one. -/
def Posting.advanced? : Posting γ → Option Nat
  | advanced current => some current
  | _ => none

theorem reported_postAll (entries : List (Posting γ)) (ledger : Ledger) :
    (Posting.postAll job entries ledger).reported =
      ledger.reported ++ entries.filterMap Posting.told? := by
  induction entries generalizing ledger with
  | nil => exact (List.append_nil _).symm
  | cons entry rest ih =>
      rw [Posting.postAll_cons, ih]
      cases entry <;> simp [Posting.post, Posting.told?, List.filterMap_cons]

theorem tally_postAll (entries : List (Posting γ)) (ledger : Ledger) :
    (Posting.postAll job entries ledger).tally =
      (entries.filterMap Posting.counted?).foldl job.record ledger.tally := by
  induction entries generalizing ledger with
  | nil => rfl
  | cons entry rest ih =>
      rw [Posting.postAll_cons, ih]
      cases entry <;> simp [Posting.post, Posting.counted?, List.filterMap_cons]

/-- The extraction directory that an entry notes. -/
def Posting.noted? : Posting γ → Option Path
  | noted directory => some directory
  | _ => none

theorem extracted_postAll (entries : List (Posting γ)) (ledger : Ledger) :
    (Posting.postAll job entries ledger).extracted = ledger.extracted ++ entries.filterMap Posting.noted? := by
  induction entries generalizing ledger with
  | nil => exact (List.append_nil _).symm
  | cons entry rest ih =>
      rw [Posting.postAll_cons, ih]
      cases entry <;> simp [Posting.post, Posting.noted?, List.filterMap_cons]

/-- Whether an entry is not the beginning of a stage. -/
def Posting.IsLater (entry : Posting γ) : Prop := ∀ units, entry ≠ begun units

theorem progress_postAll {entries : List (Posting γ)} (later : ∀ entry ∈ entries, entry.IsLater) (ledger : Ledger) :
    (Posting.postAll job entries ledger).current =
        ledger.current + (entries.filterMap Posting.advanced?).length ∧
      (Posting.postAll job entries ledger).total = ledger.total := by
  induction entries generalizing ledger with
  | nil => exact ⟨rfl, rfl⟩
  | cons entry rest ih =>
      rcases List.forall_mem_cons.1 later with ⟨isLater, later⟩
      rcases ih later (entry.post job ledger) with ⟨current, total⟩
      rw [Posting.postAll_cons, current, total]
      cases entry with
      | begun units => exact absurd rfl (isLater units)
      | advanced next =>
          simp [Posting.post, Posting.advanced?]
          omega
      | _ => exact ⟨rfl, rfl⟩

/-- The units that are done are numbered consecutively. -/
theorem advanced_of_numbered {entries : List (Posting γ)} (later : ∀ entry ∈ entries, entry.IsLater) {current : Nat}
    (numbered : Numbered current entries) :
    entries.filterMap Posting.advanced? =
      List.range' (current + 1) (entries.filterMap Posting.advanced?).length := by
  induction entries generalizing current with
  | nil => rfl
  | cons entry rest ih =>
      rcases List.forall_mem_cons.1 later with ⟨isLater, laterRest⟩
      cases entry with
      | begun units => exact absurd rfl (isLater units)
      | advanced next =>
          rcases numbered with ⟨rfl, numbered⟩
          have rest := ih laterRest numbered
          simp only [List.filterMap_cons, Posting.advanced?, List.length_cons, List.range'_succ]
          rw [← rest]
      | _ => exact ih laterRest numbered

/-! ## The entries of single steps -/

/-- Whether the entries that the steps of an activity make reach a goal with its result. -/
abbrev Books (job : Job γ) (addon : Handle) (activity : Run α) (goal : Option α → List (Posting γ) → Prop) : Prop :=
  Marks (fun _ => True) (Enters job addon) activity goal

/-- Whether an activity comes to a result without an entry. -/
abbrev Skips (job : Job γ) (addon : Handle) (activity : Run α) : Prop :=
  Books job addon activity fun result entries => result.isSome ∧ entries = []

variable {goal : Option α → List (Posting γ) → Prop}

theorem books_act {action : World → α × World} (entry : World → Option (Posting γ))
    (enters : ∀ world, Enters job addon (entry world) (world, (action world).2))
    (reached : ∀ world, goal (some (action world).1) (entry world).toList) :
    Books job addon (act action) goal :=
  marks_act entry fun world _ => ⟨enters world, reached world⟩

theorem still_refl (world : World) : Still (world, world) :=
  ⟨fun _ => rfl, rfl⟩

theorem skips_act {action : World → α × World} (still : ∀ world, Still (world, (action world).2))
    (keeps : ∀ world, Ready addon world →
      Ready addon (action world).2 ∧ (action world).2.ledger addon = world.ledger addon) :
    Skips job addon (act action) :=
  books_act (fun _ => none) (fun world => ⟨still world, keeps world⟩) fun _ => ⟨rfl, rfl⟩

theorem skips_pure (answer : α) : Skips job addon (pure answer : Run α) :=
  marks_pure ⟨rfl, rfl⟩

theorem Skips.bind {first : Run α} {next : α → Run β} (skips : Skips job addon first)
    (later : ∀ answer, Skips job addon (next answer)) : Skips job addon (first >>= next) :=
  Marks.skip_bind skips later

theorem Skips.books_bind {first : Run α} {next : α → Run β} {goal : Option β → List (Posting γ) → Prop}
    (skips : Skips job addon first) (books : ∀ answer, Books job addon (next answer) goal) :
    Books job addon (first >>= next) goal :=
  Marks.skip_bind skips books

theorem skips_inspect (look : World → α) : Skips job addon (inspect look) :=
  @skips_act _ _ _ job (fun world => (look world, world)) still_refl fun _ ready => ⟨ready, rfl⟩

/-- A change that concerns neither the files nor the ledger is no entry. -/
theorem skips_modify {change : World → World} (tree : ∀ world, (change world).tree = world.tree)
    (progress : ∀ world, (change world).progress = world.progress)
    (channel : ∀ world, (change world).channel = world.channel)
    (tally : ∀ world, (change world).tally = world.tally)
    (extracted : ∀ world, (change world).extracted = world.extracted) : Skips job addon (modify change) := by
  apply @skips_act _ _ _ job fun world => ((), change world)
  · intro world
    refine ⟨fun other => ?_, tree world⟩
    dsimp only [World.progressOf]
    rw [progress]
  · intro world ready
    refine ⟨⟨(channel world).symm ▸ ready.live, (progress world).symm ▸ ready.enrolled⟩, ?_⟩
    dsimp only [World.ledger, World.progressOf]
    rw [progress, channel, tally, extracted]

theorem skips_note (line : Text) : Skips job addon (note line) :=
  skips_modify (fun _ => rfl) (fun _ => rfl) (fun _ => rfl) (fun _ => rfl) fun _ => rfl

/-- To note an extraction directory is an entry. -/
theorem books_noteDirectory {goal : Option Unit → List (Posting γ) → Prop} {directory : Path}
    (reached : goal (some ()) [.noted directory]) : Books job addon
      (modify fun world : World => { world with extracted := world.extracted ++ [directory] }) goal := by
  apply @books_act _ _ _ job _ (fun world => ((), { world with extracted := world.extracted ++ [directory] }))
    fun _ => some (.noted directory)
  · exact fun world => ⟨⟨fun _ => rfl, rfl⟩, fun ready => ⟨⟨ready.live, ready.enrolled⟩, rfl⟩⟩
  · exact fun _ => reached

/-- A look at the world may be entered. -/
theorem books_inspect {look : World → α} (reached : ∀ world, goal (some (look world)) [.looked world]) :
    Books job addon (inspect look) goal := by
  apply @books_act _ _ _ job _ (fun world => (look world, world)) fun world => some (.looked world)
  · exact fun world => ⟨⟨rfl, still_refl world⟩, fun ready => ⟨ready, rfl⟩⟩
  · exact reached

/-- An operation on the files is an entry. -/
theorem books_perform {operation : FileOp α} {goal : Option (Except FileError α) → List (Posting γ) → Prop}
    (reached : ∀ tree, goal (some (operation.run tree).2) [.arranged tree (operation.run tree).1]) :
    Books job addon (perform operation) goal := by
  apply books_act fun world => some (.arranged world.tree (operation.run world.tree).1)
  · exact fun world => ⟨⟨rfl, rfl⟩, fun ready => ⟨⟨ready.live, ready.enrolled⟩, rfl⟩⟩
  · exact fun world => reached world.tree

theorem ready_updateProgress {change : Progress → Progress} (other : Handle) (ready : Ready addon world) :
    Ready addon (world.updateProgress other change) := by
  refine ⟨ready.live, ?_⟩
  unfold World.updateProgress
  rw [List.length_modify]
  exact ready.enrolled

/-- A change of progress that concerns neither what is done nor what there is to do is no entry. -/
theorem ledger_updateProgress {change : Progress → Progress} (other : Handle)
    (current : ∀ progress, (change progress).current = progress.current)
    (total : ∀ progress, (change progress).total = progress.total) :
    (world.updateProgress other change).ledger addon = world.ledger addon := by
  unfold World.ledger
  rw [progressOf_updateProgress]
  split
  · rw [current, total]
    rfl
  · rfl

/-- A change of progress that concerns no cancellation is still. -/
theorem still_updateProgress {change : Progress → Progress} (other : Handle)
    (cancelled : ∀ progress, (change progress).cancelled = progress.cancelled) :
    Still (world, world.updateProgress other change) := by
  refine ⟨fun one => ?_, rfl⟩
  dsimp only
  rw [progressOf_updateProgress]
  split
  · exact cancelled _
  · rfl

theorem skips_updateProgress {change : Progress → Progress} (other : Handle)
    (cancelled : ∀ progress, (change progress).cancelled = progress.cancelled)
    (current : ∀ progress, (change progress).current = progress.current)
    (total : ∀ progress, (change progress).total = progress.total) :
    Skips job addon (modify (·.updateProgress other change)) := by
  apply @skips_act _ _ _ job fun world => ((), world.updateProgress other change)
  · exact fun _ => still_updateProgress other cancelled
  · exact fun _ ready => ⟨ready_updateProgress other ready, ledger_updateProgress other current total⟩

/-- Cancelling addons is no entry. -/
theorem ready_cancelNamed (names : List Text) (ready : Ready addon world) :
    Ready addon (world.cancelNamed names) ∧ (world.cancelNamed names).ledger addon = world.ledger addon := by
  apply @holds_cancelNamed world
    (fun other => Ready addon other ∧ other.ledger addon = world.ledger addon) names ⟨ready, rfl⟩
  rintro middle other ⟨still, same⟩
  refine ⟨ready_updateProgress other still, Eq.trans (ledger_updateProgress other ?_ ?_) same⟩
  · exact fun _ => rfl
  · exact fun _ => rfl

theorem books_submit {goal : Option Unit → List (Posting γ) → Prop} {event : Event}
    (reached : goal (some ()) [.told event]) : Books job addon (submit event) goal := by
  apply @books_act _ _ _ job _ (fun world => ((), { world with channel := world.channel.submit event }))
    fun _ => some (.told event)
  · refine fun world => ⟨⟨fun _ => rfl, rfl⟩, fun ready => ⟨⟨ready.live.submit event, ready.enrolled⟩, ?_⟩⟩
    unfold World.ledger
    rw [EventChannel.reported_submit ready.live]
    rfl
  · exact fun _ => reached

theorem books_count {goal : Option Unit → List (Posting γ) → Prop} {change : Tally → Tally} (succeeded : Bool)
    (counts : ∀ tally, change tally = job.record tally succeeded) (reached : goal (some ()) [.counted succeeded]) :
    Books job addon (count change) goal := by
  apply @books_act _ _ _ job _ (fun world => ((), { world with tally := change world.tally }))
    fun _ => some (.counted succeeded)
  · refine fun world => ⟨⟨fun _ => rfl, rfl⟩, fun ready => ⟨⟨ready.live, ready.enrolled⟩, ?_⟩⟩
    rw [counts]
    rfl
  · exact fun _ => reached

theorem books_message {goal : Option Unit → List (Posting γ) → Prop} {other : Handle} {text : Text}
    (reached : goal (some ()) [.told (.message other text)]) : Books job addon (message other text) goal :=
  (skips_note _).books_bind fun _ => books_submit reached

theorem books_error {goal : Option Unit → List (Posting γ) → Prop} {about : Option Handle} {text : Text}
    {detail : Option Text} (reached : goal (some ()) [.told (.error about text detail)]) :
    Books job addon (error about text detail) goal := by
  apply Skips.books_bind
  · apply skips_modify <;> exact fun _ => rfl
  · exact fun _ => books_submit reached

theorem books_warning {goal : Option Unit → List (Posting γ) → Prop} {other : Handle} {text : Text}
    {detail : Option Text} (reached : goal (some ()) [.told (.warning other text detail)]) :
    Books job addon (warning other text detail) goal := by
  apply Skips.books_bind
  · apply skips_modify <;> exact fun _ => rfl
  · exact fun _ => books_submit reached

theorem books_beginWork {goal : Option Unit → List (Posting γ) → Prop} {units : Nat}
    (reached : goal (some ())
      [.begun units, .told (.totalProgress addon units), .told (.currentProgress addon 0)]) :
    Books job addon (beginWork addon units) goal := by
  refine .bind (@books_act _ _ _ job _ (fun world => ((), world.updateProgress addon (·.beginWork units)))
    (fun _ => some (.begun units))
    (fun world => ⟨still_updateProgress addon fun _ => rfl, fun ready => ⟨ready_updateProgress addon ready, ?_⟩⟩)
    fun _ => .bind (books_submit (books_submit reached)))
  unfold World.ledger
  rw [progressOf_updateProgress, if_pos ⟨rfl, ready.enrolled⟩]
  rfl

theorem books_unitDone {goal : Option Unit → List (Posting γ) → Prop}
    (reached : ∀ current, goal (some ()) [.advanced current, .told (.currentProgress addon current)]) :
    Books job addon (unitDone addon) goal := by
  refine .bind (books_act
    (fun world => some (.advanced ((world.updateProgress addon Progress.advance).progressOf addon).current))
    (fun world => ⟨⟨rfl, still_updateProgress addon fun _ => rfl⟩,
      fun ready => ⟨ready_updateProgress addon ready, ?_⟩⟩)
    fun _ => books_submit (reached _))
  unfold World.ledger
  rw [progressOf_updateProgress, if_pos ⟨rfl, ready.enrolled⟩]
  rfl

/-- A look that finds the addon cancelled is an entry. -/
theorem books_isCancelled {goal : Option Bool → List (Posting γ) → Prop} (stops : goal (some true) [.stopped])
    (goesOn : goal (some false) []) : Books job addon (isCancelled addon) goal := by
  apply @books_act _ _ _ job _ (fun world => ((world.progressOf addon).cancelled, world))
    fun world => if (world.progressOf addon).cancelled then some .stopped else none
  · intro world
    cases cancelled : (world.progressOf addon).cancelled with
    | true =>
        refine ⟨⟨fun uncancelled => ?_, still_refl world⟩, fun ready => ⟨ready, rfl⟩⟩
        rw [Uncancelled, cancelled] at uncancelled
        cases uncancelled
    | false => exact ⟨still_refl world, fun ready => ⟨ready, rfl⟩⟩
  · intro world
    cases (world.progressOf addon).cancelled with
    | true => exact stops
    | false => exact goesOn

end AddonIndex.Indexing
