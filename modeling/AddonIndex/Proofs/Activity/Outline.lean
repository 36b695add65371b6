import AddonIndex.Proofs.Activity.Trace
import Mathlib.Data.List.Induction

/-!
# Outlines of activities

An outline is an activity of which some parts carry a label. Its traces are those of the activity, each move with the
thread that takes it and with the label of the part that it belongs to. What is labelled is guarded if each thread
looks at the state before every labelled move, after the one before. Once no look can succeed any more, each thread
has at most one labelled move left.
-/

namespace AddonIndex

open Activity

/-- An activity of which some parts are labelled. -/
inductive Outline (σ Λ : Type) : Type → Type 1
  /-- A part without a label. -/
  | plain {α : Type} (activity : Activity σ α) : Outline σ Λ α
  /-- A part with a label. -/
  | labelled {α : Type} (label : Λ) (activity : Activity σ α) : Outline σ Λ α
  /-- One outline after another. -/
  | bind {α β : Type} (first : Outline σ Λ α) (next : α → Outline σ Λ β) : Outline σ Λ β
  /-- Threads that run side by side. -/
  | sideBySide (count : Nat) (threads : Fin count → Outline σ Λ Unit) : Outline σ Λ (List Bool)

/-- A move with the thread that takes it, which is none for the one that waits for the others, and with its label. -/
structure LabelledMove (σ Λ : Type) where
  thread : Option Nat
  label : Option Λ
  move : Move σ

namespace Outline

variable {σ Λ α β : Type} {moves : List (LabelledMove σ Λ)}

instance : Monad (Outline σ Λ) where
  pure answer := plain (pure answer)
  bind := Outline.bind

/-- The activity that an outline is one of. -/
def activity : {α : Type} → Outline σ Λ α → Activity σ α
  | _, plain activity => activity
  | _, labelled _ activity => activity
  | _, bind first next => first.activity >>= fun answer => (next answer).activity
  | _, sideBySide count threads => Activity.parallel count (fun i => (threads i).activity) pure

/-- The move of a thread. -/
def LabelledMove.of (thread : Nat) (one : LabelledMove σ Λ) : LabelledMove σ Λ := { one with thread := some thread }

/-- Whether an outline can take the given steps and come to the given result. -/
def Traces : {α : Type} → Outline σ Λ α → List (LabelledMove σ Λ) → Option α → Prop
  | _, plain activity, moves, result =>
      ∃ taken, Activity.Traces activity taken result ∧ moves = taken.map fun move => ⟨none, none, move⟩
  | _, labelled label activity, moves, result =>
      ∃ taken, Activity.Traces activity taken result ∧ moves = taken.map fun move => ⟨none, some label, move⟩
  | _, bind first next, moves, result =>
      (∃ before after answer, moves = before ++ after ∧ Traces first before (some answer) ∧
        Traces (next answer) after result) ∨
      (Traces first moves none ∧ result = none)
  | _, sideBySide count threads, moves, result =>
      ∃ (tagged : List (Fin count × LabelledMove σ Λ)) (results : Fin count → Option Unit),
        moves = tagged.map (fun item => LabelledMove.of item.1 item.2) ∧
        (∀ i, Traces (threads i) ((tagged.filter (·.1 = i)).map Prod.snd) (results i)) ∧
        result = some (List.ofFn fun i => (results i).isSome)

/-! ## Every trace of the activity is one of the outline -/

/-- What the threads of a mix are more exactly can be mixed in the same way. -/
theorem exists_tagged {A B : Type} {count : Nat} (read : B → A) (tagged : List (Fin count × A))
    (parts : Fin count → List B) (same : ∀ i, (parts i).map read = (tagged.filter (·.1 = i)).map Prod.snd) :
    ∃ finer : List (Fin count × B), finer.map (Prod.map id read) = tagged ∧
      ∀ i, (finer.filter (·.1 = i)).map Prod.snd = parts i := by
  induction tagged generalizing parts with
  | nil => exact ⟨[], rfl, fun i => (List.map_eq_nil_iff.1 (same i)).symm⟩
  | cons first rest ih =>
      obtain ⟨i, item⟩ := first
      obtain ⟨one, more, isPart, rfl, isMore⟩ : ∃ one more, parts i = one :: more ∧ read one = item ∧
          more.map read = (rest.filter (·.1 = i)).map Prod.snd := by
        have here := same i
        simp only [List.filter_cons, decide_true, if_true, List.map_cons] at here
        exact List.map_eq_cons_iff.1 here
      -- The thread of the first item goes on with the rest of its part.
      obtain ⟨finer, whole, split⟩ := ih (Function.update parts i more) fun j => by
        by_cases isThread : j = i
        · rw [isThread, Function.update_self]
          exact isMore
        · rw [Function.update_of_ne isThread, same j]
          simp [Ne.symm isThread]
      refine ⟨(i, one) :: finer, by simp [whole], fun j => ?_⟩
      by_cases isThread : j = i
      · subst isThread
        have later := split j
        rw [Function.update_self] at later
        simp [later, isPart]
      · have later := split j
        rw [Function.update_of_ne isThread] at later
        simpa [Ne.symm isThread] using later

/-- The traces of an outline are those of its activity, with labels. -/
theorem exists_traces {outline : Outline σ Λ α} {taken : List (Move σ)} {result : Option α}
    (traced : Activity.Traces outline.activity taken result) :
    ∃ moves, moves.map LabelledMove.move = taken ∧ outline.Traces moves result := by
  induction outline generalizing taken with
  | plain activity => exact ⟨_, by simp [Function.comp_def], taken, traced, rfl⟩
  | labelled label activity => exact ⟨_, by simp [Function.comp_def], taken, traced, rfl⟩
  | bind first next firstIh nextIh =>
      rcases traces_bind_iff.1 traced with ⟨before, after, answer, rfl, left, right⟩ | ⟨left, rfl⟩
      · obtain ⟨moves, rfl, leftMoves⟩ := firstIh left
        obtain ⟨more, rfl, rightMoves⟩ := nextIh answer right
        exact ⟨moves ++ more, List.map_append, .inl ⟨moves, more, answer, rfl, leftMoves, rightMoves⟩⟩
      · obtain ⟨moves, rfl, leftMoves⟩ := firstIh left
        exact ⟨moves, rfl, .inr ⟨leftMoves, rfl⟩⟩
  | sideBySide count threads ih =>
      obtain ⟨parts, results, before, after, rfl, ⟨tagged, rfl, split⟩, each, rfl, rfl⟩ := traced
      choose labels same labelled using fun i => ih i (each i)
      obtain ⟨finer, rfl, splitFiner⟩ := exists_tagged LabelledMove.move tagged labels fun i =>
        (same i).trans (split i).symm
      refine ⟨_, ?_, finer, results, rfl, fun i => ?_, rfl⟩
      · simp [LabelledMove.of, Function.comp_def]
      · rw [splitFiner i]
        exact labelled i

/-! ## Guarded moves -/

/-- Whether before each labelled move, and after the labelled move of the same thread before it, the state is found to
be of a kind. -/
def Guarded (open? : σ → Prop) (moves : List (LabelledMove σ Λ)) : Prop :=
  ∀ before one after, moves = before ++ one :: after → one.label.isSome →
    ∃ front look between, before = front ++ look :: between ∧ open? look.move.1 ∧
      ∀ other ∈ between, other.thread = one.thread → other.label = none

/-- Whether at most one of some moves is labelled. -/
def Once (moves : List (LabelledMove σ Λ)) : Prop := moves.countP (·.label.isSome) ≤ 1

variable {open? : σ → Prop}

theorem guarded_of_unlabelled (none : ∀ one ∈ moves, one.label = none) : Guarded open? moves := by
  rintro before one after rfl isLabelled
  rw [none one (by simp)] at isLabelled
  cases isLabelled

theorem Guarded.append {more : List (LabelledMove σ Λ)} (guarded : Guarded open? moves)
    (moreGuarded : Guarded open? more) : Guarded open? (moves ++ more) := by
  intro before one after split isLabelled
  rcases List.append_eq_append_iff.1 split with ⟨rest, rfl, inMore⟩ | ⟨rest, inMoves, tail⟩
  · obtain ⟨front, look, between, rfl, isOpen, quiet⟩ := moreGuarded rest one after inMore isLabelled
    exact ⟨moves ++ front, look, between, by simp, isOpen, quiet⟩
  · cases rest with
    | nil =>
        rw [List.append_nil] at inMoves
        obtain ⟨front, look, between, empty, -⟩ := moreGuarded [] one after tail.symm isLabelled
        cases front <;> cases empty
    | cons first rest =>
        obtain ⟨rfl, -⟩ := List.cons_eq_cons.1 tail
        exact guarded before one rest inMoves isLabelled

theorem countP_eq_zero_of_unlabelled (none : ∀ one ∈ moves, one.label = none) :
    moves.countP (·.label.isSome) = 0 := by
  apply List.countP_eq_zero.2
  intro one member isSome
  rw [none one member] at isSome
  cases isSome

/-- One labelled move after a look is guarded by it. -/
theorem Once.guarded {look : LabelledMove σ Λ} (once : Once moves) (isOpen : open? look.move.1)
    (unlabelled : look.label = none) : Guarded open? (look :: moves) := by
  rintro (_ | ⟨_, before⟩) one after split isLabelled
  · obtain ⟨rfl, -⟩ := List.cons_eq_cons.1 split
    rw [unlabelled] at isLabelled
    cases isLabelled
  · obtain ⟨rfl, rfl⟩ := List.cons_eq_cons.1 split
    refine ⟨[], look, before, rfl, isOpen, fun other member _ => ?_⟩
    have counted : (before ++ one :: after).countP (·.label.isSome) ≤ 1 := once
    rw [List.countP_append, List.countP_cons, if_pos isLabelled] at counted
    have none : before.countP (·.label.isSome) = 0 := by omega
    exact Option.not_isSome_iff_eq_none.1 (List.countP_eq_zero.1 none other member)

theorem Guarded.of_append {more : List (LabelledMove σ Λ)} (guarded : Guarded open? (moves ++ more)) :
    Guarded open? moves := by
  rintro before one after rfl isLabelled
  exact guarded before one (after ++ more) (by simp) isLabelled

/-- A part of guarded moves in which the state is never of that kind holds at most one labelled move of each thread. -/
theorem Guarded.countP_le_one {earlier later : List (LabelledMove σ Λ)} (guarded : Guarded open? (earlier ++ later))
    (closed : ∀ one ∈ later, ¬ open? one.move.1) (thread : Option Nat) :
    later.countP (fun one => one.thread = thread ∧ one.label.isSome) ≤ 1 := by
  induction later using List.reverseRecOn with
  | nil => simp
  | append_singleton later last ih =>
      rw [← List.append_assoc] at guarded
      have closedBefore : ∀ one ∈ later, ¬ open? one.move.1 := fun one member =>
        closed one (List.mem_append_left _ member)
      rw [List.countP_append, List.countP_singleton]
      split
      case isFalse => exact ih guarded.of_append closedBefore
      case isTrue isLast =>
        obtain ⟨rfl, isLabelled⟩ := of_decide_eq_true isLast
        obtain ⟨front, look, between, split, isOpen, quiet⟩ := guarded _ last [] rfl isLabelled
        -- The look comes before the part, so all of the part lies after it.
        have inBetween : ∀ one ∈ later, one ∈ between := by
          intro one member
          rcases List.append_eq_append_iff.1 split with ⟨rest, -, inLater⟩ | ⟨rest, -, tail⟩
          · exact absurd isOpen (closedBefore look (by simp [inLater]))
          · cases rest with
            | nil =>
                obtain rfl : look :: between = later := tail
                exact absurd isOpen (closedBefore look List.mem_cons_self)
            | cons first rest =>
                obtain ⟨-, rfl⟩ := List.cons_eq_cons.1 tail
                exact List.mem_append_right _ member
        have none : later.countP (fun one => one.thread = last.thread ∧ one.label.isSome) = 0 := by
          apply List.countP_eq_zero.2
          intro one member same
          obtain ⟨same, isSome⟩ := of_decide_eq_true same
          rw [quiet one (inBetween one member) same] at isSome
          cases isSome
        rw [none]

/-- Threads whose moves are guarded have guarded moves also side by side. -/
theorem guarded_of_parts {count : Nat} {tagged : List (Fin count × LabelledMove σ Λ)}
    (each : ∀ i, Guarded open? ((tagged.filter (·.1 = i)).map Prod.snd))
    (alone : ∀ item ∈ tagged, item.2.thread = none) :
    Guarded open? (tagged.map fun item => LabelledMove.of item.1 item.2) := by
  intro before one after split isLabelled
  obtain ⟨front, rest, rfl, rfl, inRest⟩ := List.map_eq_append_iff.1 split
  obtain ⟨⟨i, one⟩, back, rfl, rfl, -⟩ := List.map_eq_cons_iff.1 inRest
  obtain ⟨opening, look, between, isPart, isOpen, quiet⟩ :=
    each i ((front.filter (·.1 = i)).map Prod.snd) one ((back.filter (·.1 = i)).map Prod.snd) (by simp) isLabelled
  obtain ⟨first, second, inFront, -, inSecond⟩ := List.map_eq_append_iff.1 isPart
  obtain ⟨⟨j, found⟩, others, rfl, rfl, rfl⟩ := List.map_eq_cons_iff.1 inSecond
  obtain ⟨opening, closing, rfl, -, inClosing⟩ := List.filter_eq_append_iff.1 inFront
  obtain ⟨skipped, between, rfl, skips, -, isBetween⟩ := List.filter_eq_cons_iff.1 inClosing
  refine ⟨(opening ++ skipped).map fun item => LabelledMove.of item.1 item.2, LabelledMove.of j found,
    between.map fun item => LabelledMove.of item.1 item.2, by simp, isOpen, ?_⟩
  rintro _ member same
  obtain ⟨⟨k, other⟩, inBetween, rfl⟩ := List.mem_map.1 member
  obtain rfl : k = i := Fin.ext (Option.some.inj same)
  refine quiet other ?_ ((alone (k, other) (by simp [inBetween])).trans (alone (k, one) (by simp)).symm)
  rw [← isBetween]
  exact List.mem_map.2 ⟨(k, other), List.mem_filter.2 ⟨inBetween, by simp⟩, rfl⟩

/-! ## Guarded outlines -/

/-- Whether each label of an outline is one that its thread may have. -/
def Places (may : Option Nat → Λ → Prop) (outline : Outline σ Λ α) : Prop :=
  ∀ moves result, outline.Traces moves result → ∀ one ∈ moves, ∀ label, one.label = some label → may one.thread label

/-- Whether an outline has no threads of its own. -/
def Solo (outline : Outline σ Λ α) : Prop :=
  ∀ moves result, outline.Traces moves result → ∀ one ∈ moves, one.thread = none

/-- Whether all labelled moves of an outline are guarded, and each label is one that its thread may have. -/
structure Guards (open? : σ → Prop) (may : Option Nat → Λ → Prop) (outline : Outline σ Λ α) : Prop where
  guarded : ∀ moves result, outline.Traces moves result → Guarded open? moves
  places : Places may outline

/-- Whether an outline has at most one labelled move, and its label is one that its thread may have. -/
structure Singles (may : Option Nat → Λ → Prop) (outline : Outline σ Λ α) : Prop where
  once : ∀ moves result, outline.Traces moves result → Once moves
  places : Places may outline

variable {may : Option Nat → Λ → Prop}

theorem forall_mem_of_bind {holds : LabelledMove σ Λ → Prop} {first : Outline σ Λ α} {next : α → Outline σ Λ β}
    {result : Option β} (traced : (first >>= next).Traces moves result)
    (firstHolds : ∀ moves result, first.Traces moves result → ∀ one ∈ moves, holds one)
    (nextHolds : ∀ answer moves result, (next answer).Traces moves result → ∀ one ∈ moves, holds one) :
    ∀ one ∈ moves, holds one := by
  intro one member
  rcases traced with ⟨before, after, answer, rfl, left, right⟩ | ⟨left, rfl⟩
  · rcases List.mem_append.1 member with inBefore | inAfter
    · exact firstHolds before _ left one inBefore
    · exact nextHolds answer after _ right one inAfter
  · exact firstHolds moves _ left one member

theorem Places.bind {first : Outline σ Λ α} {next : α → Outline σ Λ β} (places : Places may first)
    (later : ∀ answer, Places may (next answer)) : Places may (first >>= next) :=
  fun _ _ traced => forall_mem_of_bind traced places later

theorem Solo.bind {first : Outline σ Λ α} {next : α → Outline σ Λ β} (solo : Solo first)
    (later : ∀ answer, Solo (next answer)) : Solo (first >>= next) :=
  fun _ _ traced => forall_mem_of_bind traced solo later

theorem unlabelled_of_plain {activity : Activity σ α} {result : Option α}
    (traced : (plain activity : Outline σ Λ α).Traces moves result) : ∀ one ∈ moves, one.label = none := by
  obtain ⟨taken, -, rfl⟩ := traced
  exact List.forall_mem_map.2 fun _ _ => rfl

theorem places_plain (activity : Activity σ α) : Places may (plain activity : Outline σ Λ α) := by
  intro moves result traced one member label isLabel
  rw [unlabelled_of_plain traced one member] at isLabel
  cases isLabel

theorem places_labelled {label : Λ} (allowed : may none label) (activity : Activity σ α) :
    Places may (labelled label activity) := by
  rintro moves result ⟨taken, -, rfl⟩ one member given isLabel
  obtain ⟨move, -, rfl⟩ := List.mem_map.1 member
  cases isLabel
  exact allowed

theorem solo_plain (activity : Activity σ α) : Solo (plain activity : Outline σ Λ α) := by
  rintro moves result ⟨taken, -, rfl⟩
  exact List.forall_mem_map.2 fun _ _ => rfl

theorem solo_pure (answer : α) : Solo (pure answer : Outline σ Λ α) := solo_plain _

theorem solo_labelled (label : Λ) (activity : Activity σ α) : Solo (labelled label activity) := by
  rintro moves result ⟨taken, -, rfl⟩
  exact List.forall_mem_map.2 fun _ _ => rfl

theorem guards_plain (activity : Activity σ α) : Guards open? may (plain activity : Outline σ Λ α) where
  guarded _ _ traced := guarded_of_unlabelled (unlabelled_of_plain traced)
  places := places_plain activity

theorem guards_pure (answer : α) : Guards open? may (pure answer : Outline σ Λ α) := guards_plain _

theorem Guards.bind {first : Outline σ Λ α} {next : α → Outline σ Λ β} (guards : Guards open? may first)
    (later : ∀ answer, Guards open? may (next answer)) : Guards open? may (first >>= next) where
  guarded := by
    rintro moves result (⟨before, after, answer, rfl, left, right⟩ | ⟨left, rfl⟩)
    · exact (guards.guarded before _ left).append ((later answer).guarded after _ right)
    · exact guards.guarded moves _ left
  places := guards.places.bind fun answer => (later answer).places

/-- Threads that are guarded are so side by side. -/
theorem guards_sideBySide {count : Nat} {threads : Fin count → Outline σ Λ Unit} {mayInside : Option Nat → Λ → Prop}
    (each : ∀ i, Guards open? mayInside (threads i)) (solo : ∀ i, Solo (threads i))
    (allowed : ∀ (i : Nat) label, mayInside none label → may (some i) label) :
    Guards open? may (sideBySide count threads) where
  guarded := by
    rintro _ result ⟨tagged, results, rfl, traced, -⟩
    refine guarded_of_parts (fun i => (each i).guarded _ _ (traced i)) ?_
    rintro ⟨i, one⟩ member
    exact solo i _ _ (traced i) one (List.mem_map.2 ⟨(i, one), List.mem_filter.2 ⟨member, by simp⟩, rfl⟩)
  places := by
    rintro _ result ⟨tagged, results, rfl, traced, -⟩ _ isMember label isLabel
    obtain ⟨⟨i, one⟩, member, rfl⟩ := List.mem_map.1 isMember
    have inPart : one ∈ (tagged.filter (·.1 = i)).map Prod.snd :=
      List.mem_map.2 ⟨(i, one), List.mem_filter.2 ⟨member, by simp⟩, rfl⟩
    have inside := (each i).places _ _ (traced i) one inPart label isLabel
    rw [solo i _ _ (traced i) one inPart] at inside
    exact allowed i label inside

theorem singles_labelled {label : Λ} {activity : Activity σ α} (allowed : may none label)
    (single : ∀ taken result, Activity.Traces activity taken result → taken.length ≤ 1) :
    Singles may (labelled label activity) where
  once := by
    rintro _ result ⟨taken, traced, rfl⟩
    exact List.countP_le_length.trans (by simpa using single taken result traced)
  places := places_labelled allowed activity

/-- Moves without labels may come before. -/
theorem singles_plain_bind {activity : Activity σ α} {next : α → Outline σ Λ β}
    (later : ∀ answer, Singles may (next answer)) : Singles may (plain activity >>= next) where
  once := by
    rintro moves result (⟨before, after, answer, rfl, left, right⟩ | ⟨left, rfl⟩)
    · unfold Once
      rw [List.countP_append, countP_eq_zero_of_unlabelled (unlabelled_of_plain left), Nat.zero_add]
      exact (later answer).once after _ right
    · exact (countP_eq_zero_of_unlabelled (unlabelled_of_plain left)).trans_le (Nat.zero_le 1)
  places := (places_plain activity).bind fun answer => (later answer).places

/-- Moves without labels may come after. -/
theorem Singles.bind_plain {first : Outline σ Λ α} {next : α → Activity σ β} (singles : Singles may first) :
    Singles may (first >>= fun answer => plain (next answer)) where
  once := by
    rintro moves result (⟨before, after, answer, rfl, left, right⟩ | ⟨left, rfl⟩)
    · unfold Once
      rw [List.countP_append, countP_eq_zero_of_unlabelled (unlabelled_of_plain right), Nat.add_zero]
      exact singles.once before _ left
    · exact singles.once moves _ left
  places := singles.places.bind fun _ => places_plain _

end Outline

end AddonIndex
