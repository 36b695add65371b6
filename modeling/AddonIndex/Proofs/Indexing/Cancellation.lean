import AddonIndex.Proofs.Indexing.Word

/-!
# Cancelled addons stay cancelled

Only the enrolment of addons, with which their progress begins, can take a
cancellation back. It comes before anything is reported, so that nobody knows of
an addon before it. From the announcement of the addons on whoever is cancelled
stays so to the end of the run.
-/

namespace AddonIndex.Indexing

open Activity

variable {α β : Type}

/-- Whether whoever is cancelled at a move that comes after something was reported is so at
every later move. -/
def StaysCancelled (reported : List Event) (moves : List (Move World)) : Prop :=
  ∀ before first middle second later, moves = before ++ first :: (middle ++ second :: later) →
    first.1.channel.reported ≠ reported → KeepsCancelled first.1 second.1

/-- Whether the moves of every execution of an activity fall into those before anything is
reported and those that take no cancellation back. -/
def Enrolls (activity : Run α) : Prop :=
  ∀ world moves after result, Executes Interference activity world moves after result →
    world.channel.Live → ∃ front back, moves = front ++ back ∧
      (∀ move ∈ front, move.1.channel.reported = world.channel.reported) ∧
      ∀ move ∈ back, KeepsCancelled move.1 move.2

theorem keepsCancelled_of_interference {world after : World}
    (interferes : Interference world after) : KeepsCancelled world after := by
  have proceeds : Proceeds (fun _ => False) world after := .of_interference interferes
  exact proceeds.cancelled

/-- Along a chain of moves that take no cancellation back none is taken back. -/
theorem keepsCancelled_of_chain {world after : World} {moves : List (Move World)}
    (chain : Chain Interference world moves after)
    (keeps : ∀ move ∈ moves, KeepsCancelled move.1 move.2) : KeepsCancelled world after :=
  chain.relates (fun _ _ cancelled => cancelled)
    (fun _ _ _ first second addon cancelled => second addon (first addon cancelled))
    (fun _ _ => keepsCancelled_of_interference) keeps

theorem Enrolls.of_keeps {activity : Run α} (keeps : Always KeepsCancelled activity) :
    Enrolls activity := by
  intro world moves after result execution live
  exact ⟨[], moves, rfl, List.forall_mem_nil _, keeps.of_traces execution.1⟩

/-- What follows and takes no cancellation back belongs to the later moves. -/
theorem Enrolls.bind_keeps {first : Run α} {next : α → Run β} (enrolls : Enrolls first)
    (keeps : ∀ a, Always KeepsCancelled (next a)) : Enrolls (first >>= next) := by
  intro world moves after result execution live
  rcases executes_bind_cases execution with
    ⟨before, later, middle, found, rfl, left, right⟩ | ⟨aborted, -⟩
  · obtain ⟨front, back, rfl, unreported, kept⟩ := enrolls world before middle _ left live
    refine ⟨front, back ++ later, List.append_assoc _ _ _, unreported, fun move member => ?_⟩
    rcases List.mem_append.1 member with inBack | inLater
    · exact kept move inBack
    · exact (keeps found).of_traces right.1 move inLater
  · exact enrolls world moves after none aborted live

/-- Whether nothing is reported between two worlds. -/
def Silent (before after : World) : Prop :=
  before.channel.Live → after.channel.Live ∧ after.channel.reported = before.channel.reported

theorem Silent.trans {first second third : World} (before : Silent first second)
    (after : Silent second third) : Silent first third := by
  intro live
  obtain ⟨secondLive, secondReported⟩ := before live
  obtain ⟨thirdLive, thirdReported⟩ := after secondLive
  exact ⟨thirdLive, thirdReported.trans secondReported⟩

theorem Proceeds.silent {before after : World} (proceeds : Proceeds (fun _ => False) before after) :
    Silent before after := by
  intro live
  obtain ⟨events, reported, none⟩ := proceeds.reports live
  rw [List.eq_nil_iff_forall_not_mem.2 none, List.append_nil] at reported
  exact ⟨proceeds.live live, reported⟩

/-- Moves that report nothing find what was reported before the first of them. -/
theorem silent_of_chain {world after : World} {moves : List (Move World)}
    (chain : Chain Interference world moves after) (silent : ∀ move ∈ moves, Silent move.1 move.2) :
    Silent world after ∧ ∀ move ∈ moves, Silent world move.1 := by
  induction moves generalizing world with
  | nil => exact ⟨reported_of_interference chain, List.forall_mem_nil _⟩
  | cons first rest ih =>
      obtain ⟨gap, chain⟩ := chain
      have reached : Silent world first.1 := reported_of_interference gap
      have passed : Silent world first.2 := reached.trans (silent first List.mem_cons_self)
      obtain ⟨whole, each⟩ := ih chain fun move member =>
        silent move (List.mem_cons_of_mem _ member)
      refine ⟨passed.trans whole, fun move member => ?_⟩
      rcases List.mem_cons.1 member with rfl | later
      · exact reached
      · exact passed.trans (each move later)

/-- What comes before anything is reported belongs to the earlier moves. -/
theorem Enrolls.silent_bind {first : Run α} {next : α → Run β} (silent : Always Silent first)
    (enrolls : ∀ a, Enrolls (next a)) : Enrolls (first >>= next) := by
  intro world moves after result execution live
  rcases executes_bind_cases execution with
    ⟨before, later, middle, found, rfl, left, right⟩ | ⟨aborted, -⟩
  · obtain ⟨reached, each⟩ := silent_of_chain left.2 (silent.of_traces left.1)
    obtain ⟨middleLive, middleReported⟩ := reached live
    obtain ⟨front, back, rfl, unreported, kept⟩ :=
      enrolls found middle later after result right middleLive
    refine ⟨before ++ front, back, (List.append_assoc _ _ _).symm, fun move member => ?_, kept⟩
    rcases List.mem_append.1 member with inBefore | inFront
    · exact (each move inBefore live).2
    · exact (unreported move inFront).trans middleReported
  · obtain ⟨-, each⟩ := silent_of_chain aborted.2 (silent.of_traces aborted.1)
    exact ⟨moves, [], (List.append_nil _).symm, fun move member => (each move member live).2,
      List.forall_mem_nil _⟩

theorem Quiet.enrolls_bind {first : Run α} {next : α → Run β} (quiet : Quiet first)
    (enrolls : ∀ a, Enrolls (next a)) : Enrolls (first >>= next) :=
  .silent_bind (quiet.steps.mono fun _ _ => Proceeds.silent) enrolls

theorem Quiet.keeps {activity : Run α} (quiet : Quiet activity) : Always KeepsCancelled activity :=
  quiet.reports.keeps

/-- Whoever is cancelled once something was reported stays so. -/
theorem Enrolls.staysCancelled {activity : Run α} (enrolls : Enrolls activity)
    {world after : World} {moves : List (Move World)} {result : Option α}
    (execution : Executes Interference activity world moves after result)
    (live : world.channel.Live) : StaysCancelled world.channel.reported moves := by
  obtain ⟨front, back, split, unreported, kept⟩ :=
    enrolls world moves after result execution live
  intro before first middle second later same reported
  have chain := execution.2
  rw [same] at split chain
  obtain ⟨reached, -, -, chain⟩ := chain_append_iff.1 chain
  obtain ⟨_, toSecond, gap, -⟩ := chain_append_iff.1 chain
  -- The first of the two moves comes after something was reported, so both are later ones.
  have inBack : ∀ move ∈ first :: middle, move ∈ back := by
    have inSuffix : ∀ move ∈ first :: middle, move ∈ first :: (middle ++ second :: later) := by
      intro move member
      rw [← List.cons_append]
      exact List.mem_append_left _ member
    rcases List.append_eq_append_iff.1 split with ⟨rest, inFront, tail⟩ | ⟨rest, -, tail⟩
    · cases rest with
      | nil =>
          obtain rfl : _ = back := tail
          exact inSuffix
      | cons found rest =>
          obtain ⟨rfl, -⟩ := List.cons_eq_cons.1 tail
          have inFront : first ∈ front := inFront ▸ List.mem_append_right _ List.mem_cons_self
          exact absurd (unreported first inFront) reported
    · exact fun move member => tail ▸ List.mem_append_right _ (inSuffix move member)
  have reach : Chain Interference first.2 (middle ++ []) second.1 :=
    chain_append_iff.2 ⟨_, toSecond, gap⟩
  rw [List.append_nil] at reach
  have between : KeepsCancelled first.2 second.1 :=
    keepsCancelled_of_chain reach fun move member =>
      kept move (inBack move (List.mem_cons_of_mem _ member))
  exact fun addon cancelled =>
    between addon (kept first (inBack first List.mem_cons_self) addon cancelled)

end AddonIndex.Indexing
