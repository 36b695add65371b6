import AddonIndex.Proofs.Activity.Trace

/-!
# Activities that resemble each other

Two states may be alike for what an activity makes of them. Two activities resemble each other if they take like steps
from like states, and go on to resemble each other. Whatever one of them does can then be answered by the other one
move by move, also by threads that take turns, and also if what happens outside is not the same: each execution of one
is matched by an execution of the other from a like state, which ends in a like state.
-/

namespace AddonIndex

namespace Activity

variable {σ α β γ δ : Type} {like : σ → σ → Prop} {guard : σ → Prop} {goal other : List (Move σ) → Prop}
  {moves rest : List (Move σ)}

/-! ## Answers to moves -/

/-- Whether moves can be answered one after another: whatever like state is found instead of the one before a move, the
answer leaves one like that after the move. In the end the answers reach a goal. -/
def Answered (like : σ → σ → Prop) : List (Move σ) → (List (Move σ) → Prop) → Prop
  | [], goal => goal []
  | (before, after) :: rest, goal =>
      ∀ s, like before s → ∃ s', like after s' ∧ Answered like rest fun answers => goal ((s, s') :: answers)

theorem Answered.mono (answered : Answered like moves goal) (weaker : ∀ answers, goal answers → other answers) :
    Answered like moves other := by
  induction moves generalizing goal other with
  | nil => exact weaker _ answered
  | cons move moves ih =>
      intro s isLike
      rcases answered s isLike with ⟨s', left, later⟩
      exact ⟨s', left, ih later fun answers => weaker _⟩

/-- First the one half is answered, and then the other. -/
theorem Answered.append (answered : Answered like moves fun first =>
    Answered like rest fun second => goal (first ++ second)) : Answered like (moves ++ rest) goal := by
  induction moves generalizing goal with
  | nil => exact answered
  | cons move moves ih =>
      intro s isLike
      rcases answered s isLike with ⟨s', left, later⟩
      exact ⟨s', left, ih later⟩

/-- Where the moves of each of several threads are answered, so are they in any order that keeps the order of each. -/
theorem Answered.interleaves {count : Nat} {parts : Fin count → List (Move σ)}
    {goals : Fin count → List (Move σ) → Prop} {whole : List (Move σ)} (mixed : Interleaves parts whole)
    (each : ∀ i, Answered like (parts i) (goals i)) :
    Answered like whole fun answers => ∃ others, Interleaves others answers ∧ ∀ i, goals i (others i) := by
  rcases mixed with ⟨tagged, rfl, split⟩
  induction tagged generalizing parts goals with
  | nil =>
      refine ⟨fun _ => [], ⟨[], rfl, fun _ => rfl⟩, fun i => ?_⟩
      have answered := each i
      rw [← split i] at answered
      exact answered
  | cons item tagged ih =>
      rcases item with ⟨i, before, after⟩
      intro s isLike
      -- The thread of the first move has to answer it; the others wait.
      have first : parts i = (before, after) :: (tagged.filter (·.1 = i)).map Prod.snd := by
        rw [← split i]
        simp
      have answered := each i
      rw [first] at answered
      rcases answered s isLike with ⟨s', left, later⟩
      refine ⟨s', left, ?_⟩
      have following := @ih (fun j => (tagged.filter (·.1 = j)).map Prod.snd)
        (fun j => if j = i then fun answers => goals i ((s, s') :: answers) else goals j) ?_ fun _ => rfl
      · apply following.mono
        rintro answers ⟨others, ⟨tags, rfl, tagsSplit⟩, reached⟩
        refine ⟨_, ⟨(i, s, s') :: tags, rfl, fun _ => rfl⟩, fun j => ?_⟩
        have goal := reached j
        by_cases same : j = i
        · subst same
          rw [if_pos rfl, ← tagsSplit j] at goal
          simpa using goal
        · rw [if_neg same, ← tagsSplit j] at goal
          simpa [Ne.symm same] using goal
      · intro j
        by_cases same : j = i
        · subst same
          rw [if_pos rfl]
          exact later
        · have waits := each j
          rw [← split j, List.filter_cons_of_neg (by simpa using Ne.symm same)] at waits
          rw [if_neg same]
          exact waits

/-- What happens outside over a while is matched if every part of it is. -/
theorem exists_gap {outside elsewhere : σ → σ → Prop} {a a' b : σ}
    (matched : ∀ a a' b, like a b → outside a a' → ∃ b', Relation.ReflTransGen elsewhere b b' ∧ like a' b')
    (isLike : like a b) (gap : Relation.ReflTransGen outside a a') :
    ∃ b', Relation.ReflTransGen elsewhere b b' ∧ like a' b' := by
  induction gap with
  | refl => exact ⟨b, .refl, isLike⟩
  | tail _ last ih =>
      rcases ih with ⟨middle, earlier, isLike⟩
      rcases matched _ _ _ isLike last with ⟨b', later, isLike⟩
      exact ⟨b', earlier.trans later, isLike⟩

/-- Along a chain the answers hang together too, if what happens outside of the one can be matched outside of the other.
Before each answer the other may get ready. -/
theorem Answered.of_chain {outside elsewhere : σ → σ → Prop} {ready : σ → Prop} {s s' t : σ}
    (answered : Answered like moves goal) (chain : Chain outside s moves s') (isLike : like s t)
    (matched : ∀ a a' b, like a b → outside a a' → ∃ b', Relation.ReflTransGen elsewhere b b' ∧ like a' b')
    (readies : ∀ a b, like a b → ∃ b', Relation.ReflTransGen elsewhere b b' ∧ like a b' ∧ ready b') :
    ∃ answers t', goal answers ∧ Chain elsewhere t answers t' ∧ like s' t' ∧ ∀ move ∈ answers, ready move.1 := by
  induction moves generalizing s t goal with
  | nil =>
      rcases exists_gap matched isLike chain with ⟨t', gap, isLike⟩
      exact ⟨[], t', answered, gap, isLike, List.forall_mem_nil _⟩
  | cons move moves ih =>
      rcases chain with ⟨gap, chain⟩
      rcases exists_gap matched isLike gap with ⟨waiting, toWait, isLike⟩
      rcases readies _ _ isLike with ⟨found, toFind, isLike, isReady⟩
      rcases answered found isLike with ⟨left, isLike, later⟩
      rcases ih later chain isLike with ⟨answers, t', reached, chain, isLike, each⟩
      exact ⟨(found, left) :: answers, t', reached, ⟨toWait.trans toFind, chain⟩, isLike,
        List.forall_mem_cons.2 ⟨isReady, each⟩⟩

/-! ## Resemblance -/

/-- Whether two activities take like steps from like states, if the first one takes each of its steps where a guard
admits it, and come to answers that agree. -/
inductive Resembles (like : σ → σ → Prop) (guard : σ → Prop) :
    {α β : Type} → (agree : α → β → Prop) → Activity σ α → Activity σ β → Prop
  | done {α β : Type} {agree : α → β → Prop} {answer : α} {same : β} (agrees : agree answer same) :
      Resembles like guard agree (done answer) (done same)
  | abort {α β : Type} {agree : α → β → Prop} : Resembles like guard agree abort abort
  | step {α β : Type} {agree : α → β → Prop} {change alteration : σ → σ} {next : σ → Activity σ α}
      {following : σ → Activity σ β} (changes : ∀ s t, like s t → guard s → like (change s) (alteration t))
      (follows : ∀ s t, like s t → guard s → Resembles like guard agree (next s) (following t)) :
      Resembles like guard agree (step change next) (step alteration following)
  | parallel {α β : Type} {agree : α → β → Prop} {count : Nat} {threads others : Fin count → Activity σ Unit}
      {next : List Bool → Activity σ α} {following : List Bool → Activity σ β}
      (each : ∀ i, Resembles like guard (fun _ _ => True) (threads i) (others i))
      (follows : ∀ flags, Resembles like guard agree (next flags) (following flags)) :
      Resembles like guard agree (parallel count threads next) (parallel count others following)

theorem resembles_pure {agree : α → β → Prop} {answer : α} {same : β} (agrees : agree answer same) :
    Resembles like guard agree (pure answer) (pure same) :=
  .done agrees

theorem Resembles.mono {agree weaker : α → β → Prop} {first : Activity σ α} {second : Activity σ β}
    (resembles : Resembles like guard agree first second) (weakens : ∀ a b, agree a b → weaker a b) :
    Resembles like guard weaker first second := by
  induction resembles with
  | done agrees => exact .done (weakens _ _ agrees)
  | abort => exact .abort
  | step changes _ ih => exact .step changes fun s t isLike guarded => ih s t isLike guarded weakens
  | parallel each _ _ ih => exact .parallel each fun flags => ih flags weakens

theorem Resembles.bind {agree : α → β → Prop} {agreeLater : γ → δ → Prop} {first : Activity σ α}
    {second : Activity σ β} {next : α → Activity σ γ} {following : β → Activity σ δ}
    (resembles : Resembles like guard agree first second)
    (later : ∀ a b, agree a b → Resembles like guard agreeLater (next a) (following b)) :
    Resembles like guard agreeLater (first >>= next) (second >>= following) := by
  change Resembles like guard agreeLater (first.bind next) (second.bind following)
  induction resembles with
  | done agrees => exact later _ _ agrees
  | abort => exact .abort
  | step changes _ ih => exact .step changes fun s t isLike guarded => ih s t isLike guarded later
  | parallel each _ _ ih => exact .parallel each fun flags => ih flags later

theorem resembles_act {action alteration : σ → α × σ}
    (does : ∀ s t, like s t → guard s → (action s).1 = (alteration t).1 ∧ like (action s).2 (alteration t).2) :
    Resembles like guard Eq (act action) (act alteration) :=
  .step (fun s t isLike guarded => (does s t isLike guarded).2) fun s t isLike guarded =>
    .done (does s t isLike guarded).1

theorem resembles_modify {change alteration : σ → σ}
    (changes : ∀ s t, like s t → like (change s) (alteration t)) :
    Resembles like guard Eq (modify change) (modify alteration) :=
  .step (fun s t isLike _ => changes s t isLike) fun _ _ _ _ => .done rfl

/-- What is seen in like states need not be the same. -/
theorem resembles_inspect {agree : α → β → Prop} {look : σ → α} {view : σ → β}
    (agrees : ∀ s t, like s t → guard s → agree (look s) (view t)) :
    Resembles like guard agree (inspect look) (inspect view) :=
  .step (fun _ _ isLike _ => isLike) fun s t isLike guarded => .done (agrees s t isLike guarded)

theorem resembles_together {threads : List γ} {others : List δ} {thread : γ → Activity σ Unit}
    {other : δ → Activity σ Unit}
    (each : List.Forall₂ (fun one same => Resembles like guard (fun _ _ => True) (thread one) (other same)) threads
      others) :
    Resembles like guard Eq (together (threads.map thread)) (together (others.map other)) := by
  have sized : (threads.map thread).length = (others.map other).length := by
    rw [List.length_map, List.length_map, each.length_eq]
  have resembles : ∀ {count countOther : Nat} (same : count = countOther) {first : Fin count → Activity σ Unit}
      {second : Fin countOther → Activity σ Unit},
      (∀ i, Resembles like guard (fun _ _ => True) (first i) (second (i.cast same))) →
      Resembles like guard Eq (parallel count first done) (parallel countOther second done) := by
    rintro count _ rfl first second each
    exact .parallel each fun flags => .done rfl
  apply resembles sized
  intro i
  simp only [Fin.getElem_fin, List.getElem_map, Fin.val_cast]
  exact each.get _ _

theorem isSome_of_rel {agree : α → β → Prop} {first : Option α} {second : Option β}
    (agrees : Option.Rel agree first second) : first.isSome = second.isSome := by
  cases agrees <;> rfl

theorem eq_of_rel {first second : Option α} (agrees : Option.Rel Eq first second) : first = second := by
  cases agrees with
  | some same => exact congrArg some same
  | none => rfl

/-- The moves of an activity can be answered by the moves of one that resembles it. -/
theorem Resembles.answered {agree : α → β → Prop} {first : Activity σ α} {second : Activity σ β} {result : Option α}
    (resembles : Resembles like guard agree first second) (traced : Traces first moves result)
    (guarded : ∀ move ∈ moves, guard move.1) :
    Answered like moves fun answers => ∃ same, Traces second answers same ∧ Option.Rel agree result same := by
  induction resembles generalizing moves with
  | done agrees =>
      rcases traced with ⟨rfl, rfl⟩
      exact ⟨_, ⟨rfl, rfl⟩, .some agrees⟩
  | abort =>
      rcases traced with ⟨rfl, rfl⟩
      exact ⟨_, ⟨rfl, rfl⟩, .none⟩
  | @step _ _ _ change alteration next following changes _ ih =>
      rcases traced with ⟨s, rest, rfl, traced⟩
      rcases List.forall_mem_cons.1 guarded with ⟨here, guarded⟩
      intro t isLike
      refine ⟨alteration t, changes s t isLike here, (ih s t isLike here traced guarded).mono ?_⟩
      rintro answers ⟨same, traced, agrees⟩
      exact ⟨same, ⟨t, answers, rfl, traced⟩, agrees⟩
  | parallel each _ eachIh ih =>
      rcases traced with ⟨parts, results, before, after, rfl, mixed, eachTraced, traced⟩
      apply Answered.append
      have turns := Answered.interleaves mixed fun i => eachIh i (eachTraced i) fun move member =>
        guarded move (List.mem_append_left _ (mixed.mem_whole member))
      apply turns.mono
      rintro first ⟨others, mixedOthers, reached⟩
      choose same othersTraced agrees using reached
      apply (ih _ traced fun move member => guarded move (List.mem_append_right _ member)).mono
      rintro second ⟨answer, traced, agree⟩
      refine ⟨answer, ⟨others, same, first, second, rfl, mixedOthers, othersTraced, ?_⟩, agree⟩
      have flags : (List.ofFn fun i => (same i).isSome) = List.ofFn fun i => (results i).isSome := by
        apply congrArg List.ofFn
        funext i
        exact (isSome_of_rel (agrees i)).symm
      rw [flags]
      exact traced

/-- An execution is matched by one of an activity that resembles it, from any like state to a like state. -/
theorem Resembles.exists_execution {agree : α → β → Prop} {first : Activity σ α} {second : Activity σ β}
    {outside elsewhere : σ → σ → Prop} {ready : σ → Prop} {s s' t : σ} {result : Option α}
    (resembles : Resembles like guard agree first second) (execution : Executes outside first s moves s' result)
    (guarded : ∀ move ∈ moves, guard move.1) (isLike : like s t)
    (matched : ∀ a a' b, like a b → outside a a' → ∃ b', Relation.ReflTransGen elsewhere b b' ∧ like a' b')
    (readies : ∀ a b, like a b → ∃ b', Relation.ReflTransGen elsewhere b b' ∧ like a b' ∧ ready b') :
    ∃ answers t' same, Executes elsewhere second t answers t' same ∧ like s' t' ∧ Option.Rel agree result same ∧
      ∀ move ∈ answers, ready move.1 := by
  rcases (resembles.answered execution.1 guarded).of_chain execution.2 isLike matched readies with
    ⟨answers, t', ⟨same, traced, agrees⟩, chain, isLike, each⟩
  exact ⟨answers, t', same, ⟨traced, chain⟩, isLike, agrees, each⟩

end Activity

end AddonIndex
