import AddonIndex.Proofs.Activity.Trace
import Mathlib.Data.List.ReduceOption

/-!
# Marks on the steps of activities

What the steps of an activity come to can be told by marks: a step has a mark or none, and the marks of a
trace reach a goal with its result. Threads that take turns carry the marks of each of them, in some order.
-/

namespace AddonIndex

namespace Activity

variable {σ α β γ Λ : Type} {guard : Move σ → Prop} {fits : Option Λ → Move σ → Prop}
  {goal : Option α → List Λ → Prop}

/-- Whether the steps of an activity, if each of them is of a kind, can be marked so that the marks reach a
goal with the result. -/
def Marks (guard : Move σ → Prop) (fits : Option Λ → Move σ → Prop) (activity : Activity σ α)
    (goal : Option α → List Λ → Prop) : Prop :=
  ∀ moves result, Traces activity moves result → (∀ move ∈ moves, guard move) →
    ∃ labels, List.Forall₂ fits labels moves ∧ goal result labels.reduceOption

theorem Marks.mono {activity : Activity σ α} {other : Option α → List Λ → Prop}
    (marks : Marks guard fits activity goal) (weaker : ∀ result entries, goal result entries → other result entries) :
    Marks guard fits activity other := by
  intro moves result traced guarded
  rcases marks moves result traced guarded with ⟨labels, fit, reached⟩
  exact ⟨labels, fit, weaker _ _ reached⟩

theorem marks_pure {answer : α} (reached : goal (some answer) []) :
    Marks guard fits (pure answer : Activity σ α) goal := by
  intro moves result traced _
  rcases traces_pure_iff.1 traced with ⟨rfl, rfl⟩
  exact ⟨[], .nil, reached⟩

theorem marks_abort (reached : goal none []) : Marks guard fits (abort : Activity σ α) goal := by
  rintro moves result ⟨rfl, rfl⟩ _
  exact ⟨[], .nil, reached⟩

/-- The marks of a sequence are those of the first activity and then those of the second. -/
theorem Marks.bind {first : Activity σ α} {next : α → Activity σ β} {goal : Option β → List Λ → Prop}
    (marks : Marks guard fits first fun result entries =>
      match result with
      | some answer => Marks guard fits (next answer) fun result more => goal result (entries ++ more)
      | none => goal none entries) :
    Marks guard fits (first >>= next) goal := by
  intro moves result traced guarded
  rcases traces_bind_iff.1 traced with ⟨before, after, answer, rfl, left, right⟩ | ⟨left, rfl⟩
  · rcases marks before _ left fun move member => guarded move (List.mem_append_left _ member) with
      ⟨labels, fit, later⟩
    rcases later after result right fun move member => guarded move (List.mem_append_right _ member) with
      ⟨more, fitMore, reached⟩
    refine ⟨labels ++ more, List.rel_append fit fitMore, ?_⟩
    rw [List.reduceOption_append]
    exact reached
  · exact marks moves _ left guarded

/-- One step has its mark. -/
theorem marks_act {action : σ → α × σ} (mark : σ → Option Λ)
    (does : ∀ s, guard (s, (action s).2) →
      fits (mark s) (s, (action s).2) ∧ goal (some (action s).1) (mark s).toList) :
    Marks guard fits (act action) goal := by
  intro moves result traced guarded
  rcases traced with ⟨s, rest, rfl, traced⟩
  rcases traces_pure_iff.1 traced with ⟨rfl, rfl⟩
  rcases does s (guarded _ List.mem_cons_self) with ⟨fit, reached⟩
  refine ⟨[mark s], .cons fit .nil, ?_⟩
  cases same : mark s with
  | none =>
      rw [same] at reached
      exact reached
  | some entry =>
      rw [same] at reached
      exact reached

/-- What comes to a result without marks leaves those of what follows. -/
theorem Marks.skip_bind {first : Activity σ α} {next : α → Activity σ β} {goal : Option β → List Λ → Prop}
    (skips : Marks guard fits first fun result entries => result.isSome ∧ entries = [])
    (marks : ∀ answer, Marks guard fits (next answer) goal) : Marks guard fits (first >>= next) goal := by
  apply Marks.bind
  apply skips.mono
  rintro (_ | answer) _ ⟨some, rfl⟩
  · cases some
  · exact marks answer

/-! ## Threads -/

/-- What became of a thread: what it was for, its result, and its marks. -/
structure Marked (γ Λ : Type) where
  job : γ
  result : Option Unit
  marks : List Λ

/-- Threads side by side carry the marks of each of them, in some order. -/
theorem marks_together {jobs : List γ} {thread : γ → Activity σ Unit} {goals : γ → Option Unit → List Λ → Prop}
    {goal : Option (List Bool) → List Λ → Prop}
    (each : ∀ job ∈ jobs, Marks guard fits (thread job) (goals job))
    (reached : ∀ (threads : List (Marked γ Λ)) (entries : List Λ), threads.map Marked.job = jobs →
      (∀ one ∈ threads, goals one.job one.result one.marks) → entries.Perm (threads.flatMap Marked.marks) →
      goal (some (threads.map fun one => one.result.isSome)) entries) :
    Marks guard fits (together (jobs.map thread)) goal := by
  rintro moves result ⟨parts, results, before, rest, rfl, mixed, traced, rfl, rfl⟩ guarded
  rw [List.append_nil] at guarded ⊢
  have sized : (jobs.map thread).length = jobs.length := List.length_map _
  let job : Fin (jobs.map thread).length → γ := fun i => jobs[i.cast sized]
  have marked : ∀ i, ∃ labels, List.Forall₂ fits labels (parts i) ∧
      goals (job i) (results i) labels.reduceOption := by
    intro i
    apply each (job i) (List.getElem_mem _) (parts i) (results i)
    · have one := traced i
      simp only [Fin.getElem_fin, List.getElem_map] at one
      exact one
    · exact fun move member => guarded move (mixed.mem_whole member)
  choose labels fit fitGoals using marked
  rcases mixed.exists_labels fit with ⟨all, fitAll, perm⟩
  refine ⟨all, fitAll, ?_⟩
  let threads := List.ofFn fun i => Marked.mk (job i) (results i) (labels i).reduceOption
  have flags : (List.ofFn fun i => (results i).isSome) = threads.map fun one => one.result.isSome := by
    simp [threads, List.map_ofFn, Function.comp_def]
  rw [flags]
  apply reached threads
  · refine List.ext_getElem (by simp [threads]) fun i _ _ => ?_
    simp [threads, job]
  · intro one member
    rcases (List.mem_ofFn' _ _).1 member with ⟨i, rfl⟩
    exact fitGoals i
  · apply (perm.filterMap id).trans (List.Perm.of_eq _)
    rw [List.filterMap_flatten, List.flatMap_def, List.map_ofFn, List.map_ofFn]
    rfl

end Activity

end AddonIndex
