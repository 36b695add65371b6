/-!
# Activities on a shared state

An activity is a program whose atomic steps act on a shared state. Several
activities can run side by side and are then waited for. What an activity does in
one step is fixed; how the steps of activities that run side by side follow one
another is not. `Activity.run` runs them one after another, which is one of the
possible orders.
-/

namespace AddonIndex

/-- An activity on a state of type `σ` with a result of type `α`. -/
inductive Activity (σ : Type) : Type → Type 1
  /-- The activity has ended. -/
  | done {α : Type} (result : α) : Activity σ α
  /-- The activity has been aborted. -/
  | abort {α : Type} : Activity σ α
  /-- One atomic step: the state is changed, and the activity goes on in a way that
  depends on the state before the change. -/
  | step {α : Type} (change : σ → σ) (next : σ → Activity σ α) : Activity σ α
  /-- Activities that run side by side until each has ended or was aborted; the
  flags tell which ones ended. -/
  | parallel {α : Type} (count : Nat) (threads : Fin count → Activity σ Unit)
      (next : List Bool → Activity σ α) : Activity σ α

namespace Activity

variable {σ α β : Type}

/-- One activity after another. An aborted activity has no successor. -/
protected def bind : Activity σ α → (α → Activity σ β) → Activity σ β
  | done result, continuation => continuation result
  | abort, _ => abort
  | step change next, continuation => step change fun s => (next s).bind continuation
  | parallel count threads next, continuation =>
      parallel count threads fun flags => (next flags).bind continuation

instance : Monad (Activity σ) where
  pure := done
  bind := Activity.bind

/-- Change the state in one step. -/
def modify (change : σ → σ) : Activity σ Unit := step change fun _ => done ()

/-- Look at the state in one step. -/
def inspect (look : σ → α) : Activity σ α := step id fun s => done (look s)

/-- Look at the state and change it in one step. -/
def act (action : σ → α × σ) : Activity σ α :=
  step (fun s => (action s).2) fun s => done (action s).1

/-- Run activities side by side. The flags tell which ones ended. -/
def together (threads : List (Activity σ Unit)) : Activity σ (List Bool) :=
  parallel threads.length (fun i => threads[i]) done

/-- Run an activity. Activities side by side run one after another. There is no
result if the activity is aborted. -/
def run {α : Type} : Activity σ α → σ → σ × Option α
  | done result, s => (s, some result)
  | abort, s => (s, none)
  | step change next, s => (next s).run (change s)
  | parallel count threads next, s =>
      let (after, flags) := Fin.foldl count
        (fun (state : σ × List Bool) i =>
          let (after, result) := (threads i).run state.1
          (after, state.2 ++ [result.isSome]))
        (s, [])
      (next flags).run after

@[simp]
theorem run_done (result : α) (s : σ) : (done result).run s = (s, some result) :=
  rfl

@[simp]
theorem run_abort (s : σ) : (abort : Activity σ α).run s = (s, none) :=
  rfl

@[simp]
theorem run_step (change : σ → σ) (next : σ → Activity σ α) (s : σ) :
    (step change next).run s = (next s).run (change s) :=
  rfl

/-- A sequence of activities runs as the first one and then the second one. -/
theorem run_bind (first : Activity σ α) (continuation : α → Activity σ β) (s : σ) :
    (first >>= continuation).run s =
      match first.run s with
      | (after, some result) => (continuation result).run after
      | (after, none) => (after, none) := by
  show (first.bind continuation).run s = _
  induction first generalizing s with
  | done result => rfl
  | abort => rfl
  | step change next ih => exact ih s continuation (change s)
  | parallel count threads next _ ih =>
      simp only [Activity.bind, run]
      exact ih _ continuation _

end Activity

end AddonIndex
