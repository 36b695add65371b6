import AddonIndex.Proofs.Indexing.Word

/-!
# The addons of a run, one after another

Every addon has a turn. What matters is whether it is cancelled when its turn
comes: if it is, it is passed over without an event. Otherwise its block follows
the blocks of the earlier addons, and the next turn comes when it is over.
-/

namespace AddonIndex.Indexing

open Activity

variable {α β : Type}

/-- The turn of an addon: the world when it comes, and what is reported in it. -/
structure Turn where
  addon : Handle
  world : World
  block : List Event

/-- What is reported in the turns of addons. -/
def blocks (turns : List Turn) : List Event := turns.flatMap Turn.block

/-- The turns of addons in order, and whether the run fails in the last one. An addon that is
cancelled when its turn comes is passed over. -/
inductive TakeTurns : List Handle → Bool → List Turn → Prop
  | done : TakeTurns [] false []
  | passedOver {addon : Handle} {rest : List Handle} {failed : Bool} {world : World}
      {turns : List Turn} (cancelled : (world.progressOf addon).cancelled = true)
      (later : TakeTurns rest failed turns) :
      TakeTurns (addon :: rest) failed (⟨addon, world, []⟩ :: turns)
  | worked {addon : Handle} {rest : List Handle} {failed : Bool} {world : World}
      {block : List Event} {turns : List Turn}
      (wanted : (world.progressOf addon).cancelled = false) (isBlock : IsBlock addon true block)
      (later : TakeTurns rest failed turns) :
      TakeTurns (addon :: rest) failed (⟨addon, world, block⟩ :: turns)
  | failed {addon : Handle} {rest : List Handle} {world : World} {block : List Event}
      (wanted : (world.progressOf addon).cancelled = false) (isBlock : IsBlock addon false block) :
      TakeTurns (addon :: rest) true [⟨addon, world, block⟩]

/-- The turns are those of the addons in their order, up to the one in which the run fails. -/
theorem TakeTurns.addons_prefix {addons : List Handle} {failed : Bool} {turns : List Turn}
    (taken : TakeTurns addons failed turns) : turns.map Turn.addon <+: addons := by
  induction taken with
  | done => exact List.prefix_rfl
  | passedOver _ _ ih => exact (List.prefix_cons_inj _).2 ih
  | worked _ _ _ ih => exact (List.prefix_cons_inj _).2 ih
  | failed => exact (List.prefix_cons_inj _).2 (List.nil_prefix)

theorem TakeTurns.finished_not_mem {addons : List Handle} {failed : Bool} {turns : List Turn}
    (taken : TakeTurns addons failed turns) : Event.finished ∉ blocks turns := by
  induction taken with
  | done => exact List.not_mem_nil
  | passedOver _ _ ih => exact ih
  | worked _ isBlock _ ih =>
      exact fun member => (List.mem_append.1 member).elim isBlock.finished_not_mem ih
  | failed _ isBlock =>
      exact fun member => (List.mem_append.1 member).elim isBlock.finished_not_mem List.not_mem_nil

/-- Whether turns come in the course of moves: the world of each is one that a move finds, after
the moves of the earlier turns, and what was reported by then is given, with the blocks of the
earlier turns. -/
inductive ComeIn : List Event → List (Move World) → List Turn → Prop
  | none (reported : List Event) (moves : List (Move World)) : ComeIn reported moves []
  | next {reported : List Event} {before after : List (Move World)} {turn : Turn}
      {turns : List Turn} (soFar : turn.world.channel.reported = reported)
      (later : ComeIn (reported ++ turn.block) after turns) :
      ComeIn reported (before ++ (turn.world, turn.world) :: after) (turn :: turns)

/-- The next turn may come at once. -/
theorem ComeIn.first {reported : List Event} {addon : Handle} {world : World} {block : List Event}
    {after : List (Move World)} {turns : List Turn} (soFar : world.channel.reported = reported)
    (later : ComeIn (reported ++ block) after turns) :
    ComeIn reported ((world, world) :: after) (⟨addon, world, block⟩ :: turns) :=
  @ComeIn.next reported [] after ⟨addon, world, block⟩ turns soFar later

theorem ComeIn.append_left {reported : List Event} {moves : List (Move World)} {turns : List Turn}
    (come : ComeIn reported moves turns) (before : List (Move World)) :
    ComeIn reported (before ++ moves) turns := by
  cases come with
  | none => exact .none _ _
  | next soFar later =>
      rw [← List.append_assoc]
      exact .next soFar later

theorem ComeIn.append_right {reported : List Event} {moves : List (Move World)} {turns : List Turn}
    (come : ComeIn reported moves turns) (after : List (Move World)) :
    ComeIn reported (moves ++ after) turns := by
  induction come with
  | none => exact .none _ _
  | next soFar _ ih =>
      rw [List.append_assoc]
      exact .next soFar ih

/-- Whether every execution of an activity comes to a result, reports an opening and then the
blocks of turns, and takes those turns. -/
def Conducts (activity : Run α) (course : α → List Event → List Turn → Prop) : Prop :=
  ∀ world moves after result, Executes Interference activity world moves after result →
    world.channel.Live → ∃ answer opening turns, result = some answer ∧ after.channel.Live ∧
      after.channel.reported = world.channel.reported ++ (opening ++ blocks turns) ∧
      course answer opening turns ∧ ComeIn (world.channel.reported ++ opening) moves turns

theorem Conducts.mono {activity : Run α} {course other : α → List Event → List Turn → Prop}
    (conducts : Conducts activity course)
    (weaker : ∀ answer opening turns, course answer opening turns → other answer opening turns) :
    Conducts activity other := by
  intro world moves after result execution live
  obtain ⟨answer, opening, turns, rfl, stillLive, reported, fits, come⟩ :=
    conducts world moves after result execution live
  exact ⟨answer, opening, turns, rfl, stillLive, reported, weaker answer opening turns fits, come⟩

/-- What takes no turns only has an opening. -/
theorem Tells.conducts {activity : Run α} {words : α → List Event → Prop}
    (tells : Tells activity words) :
    Conducts activity fun answer opening turns => words answer opening ∧ turns = [] := by
  intro world moves after result execution live
  obtain ⟨answer, word, rfl, stillLive, reported, fits⟩ :=
    tells world moves after result execution live
  exact ⟨answer, word, [], rfl, stillLive, by simpa [blocks] using reported, ⟨fits, rfl⟩, .none _ _⟩

/-- What is reported before the turns belongs to the opening. -/
theorem Tells.conducts_bind {first : Run α} {next : α → Run β} {words : α → List Event → Prop}
    {course : α → β → List Event → List Turn → Prop} (tells : Tells first words)
    (conducts : ∀ a, Conducts (next a) (course a)) :
    Conducts (first >>= next) fun answer opening turns =>
      ∃ found left right, opening = left ++ right ∧ words found left ∧
        course found answer right turns := by
  intro world moves after result execution live
  rcases executes_bind_cases execution with
    ⟨before, later, middle, found, rfl, left, right⟩ | ⟨aborted, -⟩
  · obtain ⟨_, word, same, stillLive, reported, fits⟩ := tells world before middle _ left live
    cases same
    obtain ⟨answer, opening, turns, rfl, liveLater, reportedLater, laterFits, come⟩ :=
      conducts found middle later after result right stillLive
    refine ⟨answer, word ++ opening, turns, rfl, liveLater, ?_,
      ⟨found, word, opening, rfl, fits, laterFits⟩, ?_⟩
    · rw [reportedLater, reported]
      simp
    · rw [← List.append_assoc, ← reported]
      exact come.append_left before
  · obtain ⟨_, _, none, -⟩ := tells world moves after none aborted live
    cases none

theorem Quiet.conducts_bind {first : Run α} {next : α → Run β}
    {course : β → List Event → List Turn → Prop} (quiet : Quiet first)
    (conducts : ∀ a, Conducts (next a) course) : Conducts (first >>= next) course := by
  refine (quiet.reports.tells.conducts_bind conducts).mono ?_
  rintro answer _ turns ⟨_, _, opening, rfl, rfl, fits⟩
  exact fits

/-- Nothing is reported after the turns. -/
theorem Conducts.bind_quiet {first : Run α} {next : α → Run β}
    {course : α → List Event → List Turn → Prop} {related : α → β → Prop}
    (conducts : Conducts first course)
    (quiet : ∀ a, Tells (next a) fun b word => word = [] ∧ related a b) :
    Conducts (first >>= next) fun answer opening turns =>
      ∃ found, course found opening turns ∧ related found answer := by
  intro world moves after result execution live
  rcases executes_bind_cases execution with
    ⟨before, later, middle, found, rfl, left, right⟩ | ⟨aborted, -⟩
  · obtain ⟨_, opening, turns, same, stillLive, reported, fits, come⟩ :=
      conducts world before middle _ left live
    cases same
    obtain ⟨answer, word, rfl, liveLater, reportedLater, rfl, isRelated⟩ :=
      quiet found middle later after result right stillLive
    exact ⟨answer, opening, turns, rfl, liveLater, by rw [reportedLater, reported, List.append_nil],
      ⟨found, fits, isRelated⟩, come.append_right later⟩
  · obtain ⟨_, _, _, none, -⟩ := conducts world moves after none aborted live
    cases none

/-! ## Turn after turn -/

/-- The turns of the addons are taken in order, until one fails. -/
theorem conducts_indexEach (environment : Environment) (cache : ReferenceCache) (tempRoot : Path)
    (addons : List Handle) :
    Conducts (indexEach environment cache tempRoot addons) fun answer opening turns =>
      opening = [] ∧ TakeTurns addons (!answer.isOk) turns := by
  induction addons with
  | nil =>
      refine (reports_answer (Except.ok ())).tells.conducts.mono ?_
      rintro _ _ _ ⟨⟨rfl, rfl⟩, rfl⟩
      exact ⟨rfl, .done⟩
  | cons addon rest ih =>
      intro world moves after result execution live
      rcases executes_bind_cases execution with
        ⟨_, later, middle, cancelled, rfl, looked, right⟩ | ⟨looked, -⟩
      · obtain ⟨seen, rfl, same, before, gap⟩ := executes_inspect_iff.1 looked
        obtain ⟨seenLive, seenReported⟩ := reported_of_interference before live
        obtain ⟨middleLive, middleReported⟩ := reported_of_interference gap seenLive
        rw [seenReported] at middleReported
        cases cancelled with
        | true =>
            obtain ⟨answer, _, turns, rfl, liveLater, reported, ⟨rfl, taken⟩, come⟩ :=
              ih middle later after result right middleLive
            rw [middleReported] at reported come
            refine ⟨answer, [], ⟨addon, seen, []⟩ :: turns, rfl, liveLater, ?_,
              ⟨rfl, .passedOver (Option.some.inj same).symm taken⟩, ?_⟩
            · simpa [blocks] using reported
            · rw [List.append_nil] at come ⊢
              exact .first seenReported (by rwa [List.append_nil])
        | false =>
            have wanted : (seen.progressOf addon).cancelled = false := (Option.some.inj same).symm
            rcases executes_bind_cases right with
              ⟨worked, last, finished, answer, rfl, left, right⟩ | ⟨aborted, -⟩
            · obtain ⟨_, block, same, finishedLive, blockReported, isBlock⟩ :=
                (reports_indexAddon _ _).tells middle worked finished _ left middleLive
              cases same
              rw [middleReported] at blockReported
              cases answer with
              | error failure =>
                  obtain ⟨rfl, rfl, gap⟩ := executes_pure_iff.1 right
                  obtain ⟨afterLive, afterReported⟩ := reported_of_interference gap finishedLive
                  refine ⟨.error failure, [], [⟨addon, seen, block⟩], rfl, afterLive, ?_,
                    ⟨rfl, .failed wanted isBlock⟩, ?_⟩
                  · simpa [blocks, afterReported] using blockReported
                  · rw [List.append_nil]
                    exact .first seenReported (.none _ _)
              | ok _ =>
                  obtain ⟨answer, _, turns, rfl, liveLater, reported, ⟨rfl, taken⟩, come⟩ :=
                    ih finished last after result right finishedLive
                  rw [blockReported] at reported come
                  refine ⟨answer, [], ⟨addon, seen, block⟩ :: turns, rfl, liveLater, ?_,
                    ⟨rfl, .worked wanted isBlock taken⟩, ?_⟩
                  · simpa [blocks] using reported
                  · rw [List.append_nil] at come ⊢
                    exact .first seenReported (come.append_left worked)
            · obtain ⟨_, _, none, -⟩ := (reports_indexAddon _ _).tells middle _ after none aborted middleLive
              cases none
      · obtain ⟨_, _, same, -⟩ := executes_inspect_iff.1 looked
        cases same

end AddonIndex.Indexing
