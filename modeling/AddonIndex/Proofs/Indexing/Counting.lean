import AddonIndex.Proofs.Indexing.Audit
import Mathlib.Algebra.BigOperators.Fin
import Mathlib.Tactic.FinCases

/-!
# Progress that several workers count

To count a finished unit takes two steps: the progress is advanced, and then the number of units that are done is
reported. Workers that take turns advance it without gaps, so that no unit is lost. Each number is reported once, and
the numbers of one worker come in increasing order. Those of different workers come in the order in which they were
counted unless two units cross: one is counted and reported between the two steps of another one.
-/

namespace AddonIndex

namespace Activity

variable {σ Λ : Type} {count : Nat} {fits : Λ → Move σ → Prop} {parts : Fin count → List (Move σ)}
  {whole : List (Move σ)}

/-- What labels the moves of threads labels their mix, and the labels of each thread stay in their order. -/
theorem Interleaves.exists_tagged {labels : Fin count → List Λ} (mixed : Interleaves parts whole)
    (each : ∀ i, List.Forall₂ fits (labels i) (parts i)) :
    ∃ tagged : List (Fin count × Λ), List.Forall₂ fits (tagged.map Prod.snd) whole ∧
      ∀ i, (tagged.filter (·.1 = i)).map Prod.snd = labels i := by
  rcases mixed with ⟨taken, rfl, split⟩
  induction taken generalizing parts labels with
  | nil =>
      refine ⟨[], .nil, fun i => ?_⟩
      have empty := each i
      rw [← split i] at empty
      exact (List.forall₂_nil_right_iff.1 empty).symm
  | cons first rest ih =>
      rcases first with ⟨i, move⟩
      have here := each i
      rw [← split i, List.filter_cons_of_pos (by simp), List.map_cons] at here
      rcases List.forall₂_cons_right_iff.1 here with ⟨label, more, fit, fitMore, isLabels⟩
      -- The thread of the first move goes on with the rest of its labels.
      have later : ∀ j, List.Forall₂ fits (Function.update labels i more j)
          ((rest.filter (·.1 = j)).map Prod.snd) := by
        intro j
        by_cases same : j = i
        · rw [same, Function.update_self]
          exact fitMore
        · have unchanged := each j
          rw [← split j, List.filter_cons_of_neg (by simpa using Ne.symm same)] at unchanged
          rw [Function.update_of_ne same]
          exact unchanged
      rcases ih later fun _ => rfl with ⟨tagged, fitTagged, ofThread⟩
      refine ⟨(i, label) :: tagged, .cons fit fitTagged, fun j => ?_⟩
      by_cases same : j = i
      · rw [same, List.filter_cons_of_pos (by simp), List.map_cons, ofThread i, Function.update_self, isLabels]
      · rw [List.filter_cons_of_neg (by simpa using Ne.symm same), ofThread j, Function.update_of_ne same]

/-- What a part of tagged items is, each with its tag. -/
def taggedParts {μ : Type} (part : Λ → Option μ) (tagged : List (Fin count × Λ)) : List (Fin count × μ) :=
  tagged.filterMap fun item => (part item.2).map (item.1, ·)

theorem map_taggedParts {μ : Type} (part : Λ → Option μ) (tagged : List (Fin count × Λ)) :
    (taggedParts part tagged).map Prod.snd = (tagged.map Prod.snd).filterMap part := by
  unfold taggedParts
  rw [List.map_filterMap, List.filterMap_map]
  apply List.filterMap_congr
  intro item _
  rw [Option.map_map]
  exact Option.map_id'

/-- The parts with one tag are those of the items with that tag. -/
theorem filter_taggedParts {μ : Type} (part : Λ → Option μ) (tagged : List (Fin count × Λ)) (i : Fin count) :
    ((taggedParts part tagged).filter (·.1 = i)).map Prod.snd =
      ((tagged.filter (·.1 = i)).map Prod.snd).filterMap part := by
  rw [← map_taggedParts]
  congr 1
  induction tagged with
  | nil => rfl
  | cons item rest ih =>
      unfold taggedParts at ih ⊢
      by_cases same : item.1 = i <;> cases given : part item.2 <;> simp [same, given, ih]

/-- Tagged numbers are the same, in some order, if those with each tag are the same. -/
theorem perm_of_filters {first second : List (Fin count × Nat)}
    (same : ∀ i, (first.filter (·.1 = i)).map Prod.snd = (second.filter (·.1 = i)).map Prod.snd) :
    first.Perm second := by
  have counts : ∀ (list : List (Fin count × Nat)) i number,
      list.count (i, number) = ((list.filter (·.1 = i)).map Prod.snd).count number := by
    intro list i number
    rw [List.count, List.count, List.countP_map, List.countP_filter]
    apply List.countP_congr
    rintro ⟨j, other⟩ _
    simp [and_comm]
  apply List.perm_iff_count.2
  rintro ⟨i, number⟩
  rw [counts, counts, same]

/-- All tagged items are those with each tag. -/
theorem length_eq_sum_filters {μ : Type} (tagged : List (Fin count × μ)) :
    tagged.length = ∑ i, ((tagged.filter (·.1 = i)).map Prod.snd).length := by
  induction tagged with
  | nil => simp
  | cons item rest ih =>
      have one : ∀ i, (((item :: rest).filter (·.1 = i)).map Prod.snd).length =
          (if item.1 = i then 1 else 0) + ((rest.filter (·.1 = i)).map Prod.snd).length := by
        intro i
        by_cases same : item.1 = i
        · simp [same, Nat.add_comm]
        · simp [same]
      rw [Finset.sum_congr rfl fun i _ => one i, Finset.sum_add_distrib, ← ih]
      simp [Nat.add_comm]

end Activity

namespace Indexing

open Activity

variable {addon : Handle} {world after : World} {moves : List (Move World)} {shares : List Nat}

/-! ## The steps of one worker -/

/-- Count so many finished units. -/
def countUnits (addon : Handle) : Nat → Run Unit
  | 0 => return ()
  | units + 1 => do
      unitDone addon
      countUnits addon units

/-- Count the units of a stage that are shared out to workers, so many to each. -/
def countTogether (addon : Handle) (shares : List Nat) : Run (List Bool) := do
  beginWork addon shares.sum
  together (shares.map (countUnits addon))

/-- A job of which only the progress is of interest. -/
def bareJob : Job Empty where
  notes := nofun
  step := nofun
  result := nofun
  tells := nofun
  record tally _ := tally
  record_comm _ _ _ := rfl

/-- The entries of units that are counted one after another. -/
def ticks (addon : Handle) (numbers : List Nat) : List (Posting Empty) :=
  numbers.flatMap fun number => [.advanced number, .told (.currentProgress addon number)]

theorem books_countUnits (units : Nat) : Books bareJob addon (countUnits addon units) fun result entries =>
    result = some () ∧ ∃ numbers : List Nat, numbers.length = units ∧ entries = ticks addon numbers := by
  induction units with
  | zero => exact marks_pure ⟨rfl, [], rfl, rfl⟩
  | succ units ih =>
      apply Marks.bind
      apply books_unitDone
      intro number
      apply ih.mono
      rintro _ _ ⟨rfl, numbers, rfl, rfl⟩
      exact ⟨rfl, number :: numbers, rfl, rfl⟩

/-- The number that an entry reports. -/
def Posting.reports? : Posting Empty → Option Nat
  | .told (.currentProgress _ number) => some number
  | _ => none

theorem advanced_ticks (numbers : List Nat) : (ticks addon numbers).filterMap Posting.advanced? = numbers := by
  induction numbers with
  | nil => rfl
  | cons number rest ih => exact congrArg (number :: ·) ih

theorem reports_ticks (numbers : List Nat) : (ticks addon numbers).filterMap Posting.reports? = numbers := by
  induction numbers with
  | nil => rfl
  | cons number rest ih => exact congrArg (number :: ·) ih

/-- A number is counted before it is reported. -/
theorem advanced_mem_of_ticks {numbers : List Nat} {before later : List (Posting Empty)} {number : Nat}
    (split : ticks addon numbers = before ++ .told (.currentProgress addon number) :: later) :
    .advanced number ∈ before := by
  induction numbers generalizing before with
  | nil =>
      have absurdity : ([] : List (Posting Empty)) ≠ before ++ .told (.currentProgress addon number) :: later := by simp
      exact absurd split absurdity
  | cons first rest ih =>
      change Posting.advanced first :: .told (.currentProgress addon first) :: ticks addon rest = _ at split
      rcases before with _ | ⟨_, _ | ⟨_, before⟩⟩
      · cases split
      · rcases List.cons_eq_cons.1 split with ⟨rfl, reported⟩
        cases (List.cons_eq_cons.1 reported).1
        exact List.mem_cons_self
      · rcases List.cons_eq_cons.1 split with ⟨-, reported⟩
        rcases List.cons_eq_cons.1 reported with ⟨-, further⟩
        exact List.mem_cons_of_mem _ (List.mem_cons_of_mem _ (ih further))

theorem mem_ticks {numbers : List Nat} {entry : Posting Empty} (member : entry ∈ ticks addon numbers) :
    ∃ number, entry = .advanced number ∨ entry = .told (.currentProgress addon number) := by
  rcases List.mem_flatMap.1 member with ⟨number, -, isTick⟩
  exact ⟨number, by simpa using isTick⟩

/-! ## Workers that take turns -/

section Turns

variable {count : Nat} {numbers : Fin count → List Nat} {tagged : List (Fin count × Posting Empty)}
  (turns : ∀ i, (tagged.filter (·.1 = i)).map Prod.snd = ticks addon (numbers i))

include turns

theorem taggedParts_reports (i : Fin count) :
    ((taggedParts Posting.reports? tagged).filter (·.1 = i)).map Prod.snd = numbers i := by
  rw [filter_taggedParts, turns, reports_ticks]

theorem taggedParts_advanced (i : Fin count) :
    ((taggedParts Posting.advanced? tagged).filter (·.1 = i)).map Prod.snd = numbers i := by
  rw [filter_taggedParts, turns, advanced_ticks]

/-- The numbers that are reported are those that are counted, in some order. -/
theorem reports_perm_advanced :
    ((tagged.map Prod.snd).filterMap Posting.reports?).Perm ((tagged.map Prod.snd).filterMap Posting.advanced?) := by
  rw [← map_taggedParts, ← map_taggedParts]
  apply List.Perm.map
  exact perm_of_filters fun i => (taggedParts_reports turns i).trans (taggedParts_advanced turns i).symm

/-- The numbers of a worker are counted in their order. -/
theorem numbers_sublist (i : Fin count) :
    (numbers i).Sublist ((tagged.map Prod.snd).filterMap Posting.advanced?) := by
  rw [← taggedParts_advanced turns i, ← map_taggedParts]
  exact List.filter_sublist.map _

theorem mem_turns {entry : Posting Empty} (member : entry ∈ tagged.map Prod.snd) :
    ∃ number, entry = .advanced number ∨ entry = .told (.currentProgress addon number) := by
  rcases List.mem_map.1 member with ⟨item, inTagged, rfl⟩
  apply mem_ticks
  rw [← turns item.1]
  exact List.mem_map_of_mem (List.mem_filter.2 ⟨inTagged, decide_eq_true rfl⟩)

/-- What is told are the numbers that are reported. -/
theorem told_turns : (tagged.map Prod.snd).filterMap Posting.told? =
    ((tagged.map Prod.snd).filterMap Posting.reports?).map (Event.currentProgress addon) := by
  rw [List.map_filterMap]
  apply List.filterMap_congr
  intro entry member
  rcases mem_turns turns member with ⟨number, rfl | rfl⟩ <;> rfl

/-- Whoever reports a number has counted it before. -/
theorem advanced_mem_of_turns {before later : List (Posting Empty)} {number : Nat}
    (split : tagged.map Prod.snd = before ++ .told (.currentProgress addon number) :: later) :
    .advanced number ∈ before := by
  rcases List.map_eq_append_iff.1 split with ⟨taken, _, rfl, rfl, rest⟩
  rcases List.map_eq_cons_iff.1 rest with ⟨⟨i, _⟩, rest, rfl, rfl, rfl⟩
  have mine := turns i
  rw [List.filter_append, List.filter_cons_of_pos (by simp), List.map_append, List.map_cons] at mine
  have counted := advanced_mem_of_ticks mine.symm
  exact List.map_subset Prod.snd (List.filter_subset_self _) counted

theorem told_mem_of_reports {entries : List (Posting Empty)} {number : Nat} (within : entries ⊆ tagged.map Prod.snd)
    (member : number ∈ entries.filterMap Posting.reports?) : .told (.currentProgress addon number) ∈ entries := by
  rcases List.mem_filterMap.1 member with ⟨entry, inEntries, reports⟩
  rcases mem_turns turns (within inEntries) with ⟨other, rfl | rfl⟩
  · cases reports
  · cases reports
    exact inEntries

end Turns

/-- The entries of two units that cross: the second one is counted and reported between the two steps of the first. -/
def crossedTicks (addon : Handle) (first second : Nat) : List (Posting Empty) :=
  [.advanced first, .advanced second, .told (.currentProgress addon second), .told (.currentProgress addon first)]

/-- Two numbers that are reported in the wrong order are those of units that cross. -/
theorem crossedTicks_sublist {count : Nat} {numbers : Fin count → List Nat}
    {tagged : List (Fin count × Posting Empty)} {first second : Nat}
    (turns : ∀ i, (tagged.filter (·.1 = i)).map Prod.snd = ticks addon (numbers i))
    (counted : ((tagged.map Prod.snd).filterMap Posting.advanced?).Pairwise (· < ·))
    (reported : [second, first].Sublist ((tagged.map Prod.snd).filterMap Posting.reports?)) (less : first < second) :
    (crossedTicks addon first second).Sublist (tagged.map Prod.snd) := by
  rcases List.cons_sublist_iff.1 reported with ⟨_, _, halves, inFront, inBack⟩
  rcases List.filterMap_eq_append_iff.1 halves with ⟨front, back, split, rfl, rfl⟩
  have toldSecond : .told (.currentProgress addon second) ∈ front := by
    apply told_mem_of_reports turns _ inFront
    rw [split]
    exact List.subset_append_left _ _
  have toldFirst : .told (.currentProgress addon first) ∈ back := by
    apply told_mem_of_reports turns _ (List.singleton_sublist.1 inBack)
    rw [split]
    exact List.subset_append_right _ _
  rcases List.append_of_mem toldSecond with ⟨before, amid, rfl⟩
  rcases List.append_of_mem toldFirst with ⟨amid', later, rfl⟩
  have countedSecond : .advanced second ∈ before :=
    advanced_mem_of_turns turns (split.trans (List.append_assoc _ _ _))
  have countedFirst : .advanced first ∈ before ++ .told (.currentProgress addon second) :: amid ++ amid' :=
    advanced_mem_of_turns turns (split.trans (List.append_assoc _ _ _).symm)
  rcases List.append_of_mem countedSecond with ⟨early, late, rfl⟩
  -- The first number is counted before the second one, since it is less.
  have isEarly : .advanced first ∈ early := by
    rw [List.append_assoc, List.append_assoc, List.mem_append, List.cons_append, List.mem_cons] at countedFirst
    rcases countedFirst with inEarly | same | inLate
    · exact inEarly
    · cases same
      exact absurd less (Nat.lt_irrefl _)
    · have isLater : .advanced first ∈ late ++ .told (.currentProgress addon second) ::
          (amid ++ (amid' ++ .told (.currentProgress addon first) :: later)) := by
        simp only [List.mem_append, List.mem_cons, List.cons_append] at inLate ⊢
        tauto
      have whole : tagged.map Prod.snd = early ++ .advanced second :: (late ++
          .told (.currentProgress addon second) ::
            (amid ++ (amid' ++ .told (.currentProgress addon first) :: later))) := by
        simp [split]
      have wrong : [.advanced second, .advanced first].Sublist (tagged.map Prod.snd) := by
        rw [whole]
        exact ((List.singleton_sublist.2 isLater).cons_cons _).trans (List.sublist_append_right _ _)
      have isLess := counted.sublist (wrong.filterMap Posting.advanced?)
      exact absurd (List.rel_of_pairwise_cons isLess List.mem_cons_self) (Nat.lt_asymm less)
  have secondInOrder : [.advanced second, .told (.currentProgress addon second)].Sublist
      (.advanced second :: late ++ .told (.currentProgress addon second) :: amid) :=
    (List.singleton_sublist.2 List.mem_cons_self).append (List.singleton_sublist.2 List.mem_cons_self)
  rw [split, List.append_assoc early]
  exact ((List.singleton_sublist.2 isEarly).append secondInOrder).append (List.singleton_sublist.2 toldFirst)

/-! ## What a stage reports -/

/-- How the progress of a stage is counted and reported that several workers count: all units are counted, without
gaps. Each number is reported once; the numbers of one worker come in increasing order. All of them do precisely if no
two units cross. -/
structure CountedInTurns (addon : Handle) (shares : List Nat) (world : World) (moves : List (Move World))
    (after : World) (result : Option (List Bool)) (entries : List (Posting Empty)) (numbers : List Nat) : Prop where
  returned : result = some (shares.map fun _ => true)
  entered : ∃ labels, List.Forall₂ (Enters bareJob addon) labels moves ∧
    labels.reduceOption = opening addon shares.sum ++ entries
  counted : entries.filterMap Posting.advanced? = List.range' 1 shares.sum
  current : (after.progressOf addon).current = shares.sum
  total : (after.progressOf addon).total = shares.sum
  reported : after.channel.reported = world.channel.reported ++
    (openingReport addon shares.sum ++ numbers.map (Event.currentProgress addon))
  perm : numbers.Perm (List.range' 1 shares.sum)
  workers : ∃ turns : List (Fin shares.length × Nat), turns.map Prod.snd = numbers ∧ ∀ i : Fin shares.length,
    ((turns.filter (·.1 = i)).map Prod.snd).length = shares[i] ∧
      ((turns.filter (·.1 = i)).map Prod.snd).Pairwise (· < ·)
  inOrder_iff : numbers = List.range' 1 shares.sum ↔
    ∀ first second, first < second → ¬ (crossedTicks addon first second).Sublist entries

/-- Workers side by side count their units, each in its order. -/
theorem books_together : Books bareJob addon (together (shares.map (countUnits addon))) fun result entries =>
    result = some (shares.map fun _ => true) ∧
      ∃ (count : Nat) (tagged : List (Fin count × Posting Empty)) (numbers : Fin count → List Nat),
        tagged.map Prod.snd = entries ∧ (List.ofFn fun i => (numbers i).length) = shares ∧
          ∀ i, (tagged.filter (·.1 = i)).map Prod.snd = ticks addon (numbers i) := by
  rintro moves result ⟨parts, results, before, rest, rfl, mixed, traced, rfl, rfl⟩ guarded
  rw [List.append_nil]
  have sized : (shares.map (countUnits addon)).length = shares.length := List.length_map _
  have counts : ∀ i, ∃ labels, List.Forall₂ (Enters bareJob addon) labels (parts i) ∧ results i = some () ∧
      ∃ numbers : List Nat, numbers.length = shares[i.cast sized] ∧ labels.reduceOption = ticks addon numbers := by
    intro i
    have one := traced i
    simp only [Fin.getElem_fin, List.getElem_map] at one
    exact books_countUnits _ (parts i) (results i) one fun _ _ => trivial
  choose labels enters returned numbers isShare areTicks using counts
  rcases mixed.exists_tagged enters with ⟨tagged, entered, ofWorker⟩
  refine ⟨_, entered, ?_, _, taggedParts id tagged, numbers, map_taggedParts id tagged, ?_, fun i => ?_⟩
  · simp only [returned]
    simp [List.ofFn_const, List.map_const']
  · refine List.ext_getElem (by simp) fun i _ _ => ?_
    simp [isShare]
  · rw [filter_taggedParts, ofWorker, ← areTicks]
    rfl

/-- The entries of workers that count the units of a stage in turns. -/
theorem books_countTogether : Books bareJob addon (countTogether addon shares) fun result entries =>
    result = some (shares.map fun _ => true) ∧
      ∃ (count : Nat) (tagged : List (Fin count × Posting Empty)) (numbers : Fin count → List Nat),
        entries = opening addon shares.sum ++ tagged.map Prod.snd ∧
        (List.ofFn fun i => (numbers i).length) = shares ∧
          ∀ i, (tagged.filter (·.1 = i)).map Prod.snd = ticks addon (numbers i) := by
  apply Marks.bind
  apply books_beginWork
  apply books_together.mono
  rintro _ _ ⟨rfl, count, tagged, numbers, rfl, isShare, turns⟩
  exact ⟨rfl, count, tagged, numbers, rfl, isShare, turns⟩

theorem exists_countedInTurns {result : Option (List Bool)} (ready : Ready addon world)
    (execution : Executes Interference (countTogether addon shares) world moves after result) :
    ∃ entries numbers, CountedInTurns addon shares world moves after result entries numbers := by
  rcases books_countTogether moves result execution.1 fun _ _ => trivial with
    ⟨labels, enters, rfl, count, tagged, numbers, entered, isShare, turns⟩
  have isCount : count = shares.length := by
    rw [← isShare, List.length_ofFn]
  subst isCount
  rcases ledger_of_chain enters execution.2 ready with ⟨-, posted, numbered⟩
  rw [entered] at posted numbered
  have later : ∀ entry ∈ tagged.map Prod.snd, entry.IsLater := by
    intro entry member units
    rcases mem_turns turns member with ⟨number, rfl | rfl⟩ <;> nofun
  have sized : ((tagged.map Prod.snd).filterMap Posting.advanced?).length = shares.sum := by
    rw [← map_taggedParts, List.length_map, length_eq_sum_filters]
    conv_rhs => rw [← isShare, List.sum_ofFn]
    exact Finset.sum_congr rfl fun i _ => congrArg List.length (taggedParts_advanced turns i)
  have counted : (tagged.map Prod.snd).filterMap Posting.advanced? = List.range' 1 shares.sum := by
    rw [← sized]
    exact advanced_of_numbered later (show Numbered 0 (tagged.map Prod.snd) from numbered)
  have increasing : (List.range' 1 shares.sum).Pairwise (· < ·) := List.pairwise_lt_range'
  have perm := reports_perm_advanced turns
  rw [counted] at perm
  rw [postAll_opening] at posted
  have progress := @progress_postAll _ bareJob _ later ((world.ledger addon).opened addon shares.sum)
  have told := @reported_postAll _ bareJob (tagged.map Prod.snd) ((world.ledger addon).opened addon shares.sum)
  rw [← posted] at progress told
  refine ⟨tagged.map Prod.snd, (tagged.map Prod.snd).filterMap Posting.reports?, ?_⟩
  constructor
  · rfl
  · exact ⟨labels, enters, entered⟩
  · exact counted
  · rw [sized] at progress
    exact progress.1.trans (Nat.zero_add _)
  · exact progress.2
  · rw [told_turns turns] at told
    exact told.trans (List.append_assoc _ _ _)
  · exact perm
  · refine ⟨taggedParts Posting.reports? tagged, map_taggedParts _ _, fun i => ?_⟩
    rw [taggedParts_reports turns]
    constructor
    · have one := List.getElem_of_eq isShare (by rw [List.length_ofFn]; exact i.isLt)
      rw [List.getElem_ofFn] at one
      exact one
    · exact increasing.sublist (counted ▸ numbers_sublist turns i)
  · constructor
    · intro inOrder first second less crossed
      have wrong := crossed.filterMap Posting.reports?
      rw [inOrder] at wrong
      exact absurd (List.rel_of_pairwise_cons (increasing.sublist wrong) List.mem_cons_self) (Nat.lt_asymm less)
    · intro uncrossed
      apply List.Perm.eq_of_pairwise _ _ increasing perm
      · exact fun _ _ _ _ less greater => absurd less (Nat.lt_asymm greater)
      · apply List.pairwise_iff_forall_sublist.2
        intro first second reported
        by_contra notLess
        have differ : first ≠ second := by
          have distinct := (perm.nodup_iff.2 (increasing.imp Nat.ne_of_lt)).sublist reported
          simpa using distinct
        have less : second < first := by omega
        exact uncrossed second first less (crossedTicks_sublist turns (counted ▸ increasing) reported less)

/-! ## Units that cross -/

/-- The steps of two workers with a unit each: the second one counts and reports its unit between the two steps of the
first one. -/
def crossedSteps (addon : Handle) (world : World) : List (Move World) :=
  let first := world.updateProgress addon Progress.advance
  let second := first.updateProgress addon Progress.advance
  let third := { second with
    channel := second.channel.submit (.currentProgress addon (second.progressOf addon).current) }
  let fourth := { third with
    channel := third.channel.submit (.currentProgress addon (first.progressOf addon).current) }
  [(world, first), (first, second), (second, third), (third, fourth)]

theorem executes_crossedSteps (addon : Handle) (world : World) : ∃ after,
    Executes Interference (together ([1, 1].map (countUnits addon))) world (crossedSteps addon world) after
      (some [true, true]) ∧ ((crossedSteps addon world).map Prod.snd).getLast? = some after := by
  refine ⟨_, ⟨?_, .refl, .refl, .refl, .refl, .refl⟩, rfl⟩
  let turns : List (Fin 2 × Move World) := [0, 1, 1, 0].zip (crossedSteps addon world)
  refine ⟨fun i => (turns.filter (·.1 = i)).map Prod.snd, fun _ => some (), _, [], (List.append_nil _).symm,
    ⟨turns, rfl, fun _ => rfl⟩, ?_, rfl, rfl⟩
  rintro (i : Fin 2)
  fin_cases i
  · exact ⟨_, _, rfl, _, _, rfl, rfl, rfl⟩
  · exact ⟨_, _, rfl, _, _, rfl, rfl, rfl⟩

/-- An addon of which two units are to be counted. -/
def countedAddon : Handle := ⟨0, "mods/@A"⟩

/-- The addon is enrolled. -/
def countedWorld : World := { handles := [countedAddon], progress := [{}] }

/-- Two units that cross: the second one is reported first. -/
theorem exists_countedInTurns_crossed : Ready countedAddon countedWorld ∧ ∃ moves after,
    Executes Interference (countTogether countedAddon [1, 1]) countedWorld moves after (some [true, true]) ∧
    after.channel.reported = [.totalProgress countedAddon 2, .currentProgress countedAddon 0,
      .currentProgress countedAddon 2, .currentProgress countedAddon 1] ∧
    ∃ entries numbers, CountedInTurns countedAddon [1, 1] countedWorld moves after (some [true, true]) entries
      numbers := by
  have ready : Ready countedAddon countedWorld := ⟨EventChannel.live_new, by decide⟩
  have begins : Executes Interference (beginWork countedAddon 2) countedWorld _ _ _ := executes_trail _ _
  rcases executes_crossedSteps countedAddon ((beginWork countedAddon 2).run countedWorld).1 with ⟨after, crosses, isLast⟩
  have execution : Executes Interference (countTogether countedAddon [1, 1]) countedWorld _ after _ :=
    begins.bind crosses
  refine ⟨ready, _, after, execution, ?_, exists_countedInTurns ready execution⟩
  cases isLast
  decide

end Indexing

end AddonIndex
