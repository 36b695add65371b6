import AddonIndex.Proofs.Activity.Trace

/-!
# Activities on a part of the state

An activity can be a part of something larger: it sees and changes only its part of the state. Several activities with
parts of their own, of which some is common to all, run side by side in this way. What each of them does is what it
would do alone, with everything that the others do to the common part coming from outside.
-/

namespace AddonIndex

namespace Activity

variable {σ τ α : Type} {outside : τ → τ → Prop} {beside : σ → σ → Prop} {view : τ → σ} {update : σ → τ → τ} {t t' : τ}
  {moves : List (Move τ)}

/-- An activity on the part of a state that is seen by a view and put back by an update. -/
def within (view : τ → σ) (update : σ → τ → τ) : {α : Type} → Activity σ α → Activity τ α
  | _, done answer => done answer
  | _, abort => abort
  | _, step change next => step (fun t => update (change (view t)) t) fun t => within view update (next (view t))
  | _, parallel count threads next =>
      parallel count (fun i => within view update (threads i)) fun flags => within view update (next flags)

/-- What is seen of a move. -/
def seen (view : τ → σ) (move : Move τ) : Move σ := (view move.1, view move.2)

theorem Interleaves.map {count : Nat} {parts : Fin count → List (Move τ)} {whole : List (Move τ)}
    (mixed : Interleaves parts whole) (f : Move τ → Move σ) :
    Interleaves (fun i => (parts i).map f) (whole.map f) := by
  rcases mixed with ⟨tagged, rfl, split⟩
  refine ⟨tagged.map fun item => (item.1, f item.2), ?_, fun i => ?_⟩
  · simp only [List.map_map, Function.comp_def]
  · simp only [← split i, List.filter_map, List.map_map, Function.comp_def]

/-- What is seen of the steps of an activity on a part are steps that it takes alone. -/
theorem traces_seen (putBack : ∀ s t, view (update s t) = s) {activity : Activity σ α} {result : Option α}
    (traced : Traces (activity.within view update) moves result) :
    Traces activity (moves.map (seen view)) result := by
  induction activity generalizing moves with
  | done answer =>
      rcases traced with ⟨rfl, rfl⟩
      exact ⟨rfl, rfl⟩
  | abort =>
      rcases traced with ⟨rfl, rfl⟩
      exact ⟨rfl, rfl⟩
  | step change next ih =>
      rcases traced with ⟨t, rest, rfl, traced⟩
      refine ⟨view t, rest.map (seen view), ?_, ih _ traced⟩
      rw [List.map_cons, seen, putBack]
  | parallel count threads next threadsIh ih =>
      rcases traced with ⟨parts, results, before, after, rfl, mixed, traced, rest⟩
      exact ⟨_, results, before.map (seen view), after.map (seen view), List.map_append, mixed.map _,
        fun i => threadsIh i (traced i), ih _ rest⟩

/-- A step of an activity on a part leaves everything else. -/
theorem always_within {activity : Activity σ α} :
    Always (fun before after => ∃ s, after = update s before) (activity.within view update) := by
  induction activity with
  | done answer => trivial
  | abort => trivial
  | step change next ih => exact fun t => ⟨⟨_, rfl⟩, ih (view t)⟩
  | parallel count threads next threadsIh ih => exact ⟨threadsIh, ih⟩

/-- What is seen of careful moves is careful, so they are careful with what is seen. -/
theorem careful_of_seen {rely : σ → Prop} {guarantee : σ → σ → Prop}
    (careful : Careful rely guarantee (moves.map (seen view))) :
    Careful (fun t => rely (view t)) (fun t t' => guarantee (view t) (view t')) moves := by
  rintro before move after rfl found here
  apply careful (before.map (seen view)) (seen view move) (after.map (seen view)) (by simp) _ here
  intro earlier member
  rcases List.mem_map.1 member with ⟨other, inBefore, rfl⟩
  exact found other inBefore

/-!
## Side by side

Where each move is that of one of several activities, what one of them sees hangs together, if what it sees of the
moves of the others and of what happens outside is taken for something that happens outside of it.
-/

/-- What one of several activities sees hangs together. -/
theorem Chain.seen {count : Nat} {tagged : List (Fin count × Move τ)} {i : Fin count}
    (chain : Chain outside t (tagged.map Prod.snd) t') (others : ∀ item ∈ tagged, item.1 ≠ i →
      beside (view item.2.1) (view item.2.2)) (elsewhere : ∀ a b, outside a b → beside (view a) (view b)) :
    Chain beside (view t) ((tagged.filter (·.1 = i)).map fun item => Activity.seen view item.2) (view t') := by
  have gaps : ∀ a b, Relation.ReflTransGen outside a b → Relation.ReflTransGen beside (view a) (view b) :=
    fun a b gap => gap.lift view elsewhere
  induction tagged generalizing t with
  | nil => exact gaps _ _ chain
  | cons item tagged ih =>
      rcases item with ⟨j, before, after⟩
      rcases chain with ⟨gap, chain⟩
      rcases List.forall_mem_cons.1 others with ⟨first, others⟩
      have later := ih chain others
      by_cases same : j = i
      · rw [List.filter_cons_of_pos (by simpa using same)]
        exact ⟨gaps _ _ gap, later⟩
      · rw [List.filter_cons_of_neg (by simpa using same)]
        exact later.outside_left ((gaps _ _ gap).tail (first same))

/-!
## Schedules

A schedule tells whose turn it is. Activities that take steps when it is their turn come to one of the executions in
which they run side by side, if all of them have ended after it.
-/

variable {count : Nat}

/-- The steps that activities take by a schedule, what is left of them then, and the state that they come to. An activity
that has no step to take, or would have to wait for others, passes. -/
def takeTurns : List (Fin count) → (Fin count → Activity τ Unit) → τ →
    List (Fin count × Move τ) × (Fin count → Activity τ Unit) × τ
  | [], threads, t => ([], threads, t)
  | i :: rest, threads, t =>
      match threads i with
      | .step change next =>
          let (tagged, left, t') := takeTurns rest (Function.update threads i (next t)) (change t)
          ((i, t, change t) :: tagged, left, t')
      | _ => takeTurns rest threads t

/-- Whether an activity has ended. -/
def hasEnded : Activity τ Unit → Bool
  | .done _ => true
  | _ => false

/-- What is left of an activity after a schedule goes on where its steps end. -/
theorem traces_takeTurns {schedule : List (Fin count)} {threads : Fin count → Activity τ Unit} {i : Fin count}
    {rest : List (Move τ)} {result : Option Unit}
    (traced : Traces ((takeTurns schedule threads t).2.1 i) rest result) :
    Traces (threads i) (((takeTurns schedule threads t).1.filter (·.1 = i)).map Prod.snd ++ rest) result := by
  induction schedule generalizing threads t with
  | nil => exact traced
  | cons j schedule ih =>
      unfold takeTurns at traced ⊢
      split at traced
      · rename_i change next isStep
        have later := ih traced
        by_cases same : j = i
        · subst same
          rw [Function.update_self] at later
          rw [isStep]
          simpa using ⟨t, _, rfl, later⟩
        · rw [Function.update_of_ne (Ne.symm same)] at later
          simpa [same] using later
      · exact ih traced

theorem chain_takeTurns (schedule : List (Fin count)) (threads : Fin count → Activity τ Unit) (t : τ) :
    Chain outside t ((takeTurns schedule threads t).1.map Prod.snd) (takeTurns schedule threads t).2.2 := by
  induction schedule generalizing threads t with
  | nil => exact .refl
  | cons j schedule ih =>
      unfold takeTurns
      split
      · exact ⟨.refl, ih _ _⟩
      · exact ih _ _

/-- Activities that have ended after a schedule have taken their steps side by side. -/
theorem traces_of_hasEnded {schedule : List (Fin count)} {threads : Fin count → Activity τ Unit} {i : Fin count}
    (ended : hasEnded ((takeTurns schedule threads t).2.1 i) = true) :
    Traces (threads i) (((takeTurns schedule threads t).1.filter (·.1 = i)).map Prod.snd) (some ()) := by
  have traced : Traces ((takeTurns schedule threads t).2.1 i) [] (some ()) := by
    unfold hasEnded at ended
    split at ended
    · rename_i isDone
      rw [isDone]
      exact ⟨rfl, rfl⟩
    · cases ended
  simpa using traces_takeTurns traced

end Activity

end AddonIndex
