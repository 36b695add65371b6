import AddonIndex.Activity
import Mathlib.Data.Fin.Tuple.Basic
import Mathlib.Data.List.Forall2
import Mathlib.Data.List.OfFn
import Mathlib.Logic.Relation

/-!
# Executions of activities

An activity has traces: the steps that it takes, each with the state before and
after it. Between two steps of an activity others may change the state, so a
trace need not hang together. The traces of activities side by side are taken in
any order that keeps the order of each. An execution is a trace whose gaps are
filled by what is allowed to happen outside.
-/

namespace AddonIndex

namespace Activity

variable {σ α β : Type}

/-- A step that is taken: the state before it and the state after it. -/
abbrev Move (σ : Type) := σ × σ

/-- Whether a list of moves consists of the moves of several threads, those of each in
their order. -/
def Interleaves {count : Nat} (parts : Fin count → List (Move σ)) (whole : List (Move σ)) : Prop :=
  ∃ tagged : List (Fin count × Move σ), tagged.map Prod.snd = whole ∧
    ∀ i, (tagged.filter (·.1 = i)).map Prod.snd = parts i

/-- Whether an activity can take the given steps and come to the given result; there is
none if it is aborted. -/
def Traces : {α : Type} → Activity σ α → List (Move σ) → Option α → Prop
  | _, done answer, moves, result => moves = [] ∧ result = some answer
  | _, abort, moves, result => moves = [] ∧ result = none
  | _, step change next, moves, result =>
      ∃ s rest, moves = (s, change s) :: rest ∧ Traces (next s) rest result
  | _, parallel count threads next, moves, result =>
      ∃ (parts : Fin count → List (Move σ)) (results : Fin count → Option Unit)
        (before after : List (Move σ)),
        moves = before ++ after ∧ Interleaves parts before ∧
        (∀ i, Traces (threads i) (parts i) (results i)) ∧
        Traces (next (List.ofFn fun i => (results i).isSome)) after result

/-- Whether moves lead from a state to another one, if others act in between. -/
def Chain (outside : σ → σ → Prop) : σ → List (Move σ) → σ → Prop
  | s, [], s' => Relation.ReflTransGen outside s s'
  | s, (before, after) :: rest, s' =>
      Relation.ReflTransGen outside s before ∧ Chain outside after rest s'

/-- Whether an activity can lead from a state to another one by the given steps. -/
def Executes (outside : σ → σ → Prop) (activity : Activity σ α) (s : σ) (moves : List (Move σ))
    (s' : σ) (result : Option α) : Prop :=
  Traces activity moves result ∧ Chain outside s moves s'

variable {outside : σ → σ → Prop} {s s' : σ} {moves : List (Move σ)}

/-! ## Chains -/

theorem Chain.outside_left {first : σ} (gap : Relation.ReflTransGen outside first s)
    (chain : Chain outside s moves s') : Chain outside first moves s' := by
  cases moves with
  | nil => exact gap.trans chain
  | cons move rest => exact ⟨gap.trans chain.1, chain.2⟩

theorem chain_append_iff {first second : List (Move σ)} :
    Chain outside s (first ++ second) s' ↔
      ∃ middle, Chain outside s first middle ∧ Chain outside middle second s' := by
  induction first generalizing s with
  | nil =>
      constructor
      · intro chain
        exact ⟨s, .refl, chain⟩
      · rintro ⟨middle, gap, chain⟩
        exact chain.outside_left gap
  | cons move rest ih =>
      simp only [List.cons_append, Chain, ih]
      constructor
      · rintro ⟨gap, middle, before, after⟩
        exact ⟨middle, ⟨gap, before⟩, after⟩
      · rintro ⟨middle, ⟨gap, before⟩, after⟩
        exact ⟨gap, middle, before, after⟩

/-- A reflexive and transitive relation that holds over every move and over whatever
happens outside holds over the whole. -/
theorem Chain.relates {related : σ → σ → Prop} (refl : ∀ s, related s s)
    (trans : ∀ a b c, related a b → related b c → related a c)
    (outsideRelated : ∀ a b, outside a b → related a b)
    (movesRelated : ∀ move ∈ moves, related move.1 move.2) (chain : Chain outside s moves s') :
    related s s' := by
  have gaps : ∀ a b, Relation.ReflTransGen outside a b → related a b := by
    intro a b gap
    induction gap with
    | refl => exact refl a
    | tail _ last ih => exact trans _ _ _ ih (outsideRelated _ _ last)
  induction moves generalizing s with
  | nil => exact gaps s s' chain
  | cons move rest ih =>
      have later := ih (fun other member => movesRelated other (List.mem_cons_of_mem move member))
        chain.2
      exact trans _ _ _ (gaps _ _ chain.1)
        (trans _ _ _ (movesRelated move List.mem_cons_self) later)

/-- Such a relation also holds between the first state and the states before and after each move. -/
theorem Chain.relates_moves {related : σ → σ → Prop} (refl : ∀ s, related s s)
    (trans : ∀ a b c, related a b → related b c → related a c)
    (outsideRelated : ∀ a b, outside a b → related a b)
    (movesRelated : ∀ move ∈ moves, related move.1 move.2) (chain : Chain outside s moves s') :
    ∀ move ∈ moves, related s move.1 ∧ related s move.2 := by
  intro move member
  obtain ⟨before, later, rfl⟩ := List.append_of_mem member
  obtain ⟨middle, first, gap, -⟩ := chain_append_iff.1 chain
  have atMove : related s move.1 := by
    apply trans s middle move.1
    · exact first.relates refl trans outsideRelated fun other earlier =>
        movesRelated other (List.mem_append_left _ earlier)
    · have waits : Chain outside middle [] move.1 := gap
      exact waits.relates refl trans outsideRelated (List.forall_mem_nil _)
  exact ⟨atMove, trans _ _ _ atMove (movesRelated move member)⟩

/-! ## Traces of sequences -/

theorem bind_assoc {γ : Type} (first : Activity σ α) (second : α → Activity σ β)
    (third : β → Activity σ γ) :
    (first >>= second) >>= third = first >>= fun answer => second answer >>= third := by
  change (first.bind second).bind third = first.bind fun answer => (second answer).bind third
  induction first with
  | done answer => rfl
  | abort => rfl
  | step change following ih => exact congrArg _ (funext fun s => ih s second)
  | parallel count threads following _ ih => exact congrArg _ (funext fun flags => ih flags second)

@[simp]
theorem traces_pure_iff {answer : α} {result : Option α} :
    Traces (pure answer : Activity σ α) moves result ↔ moves = [] ∧ result = some answer :=
  Iff.rfl

/-- A sequence takes the steps of the first activity and then those of the second. -/
theorem traces_bind_iff {first : Activity σ α} {next : α → Activity σ β} {result : Option β} :
    Traces (first >>= next) moves result ↔
      (∃ before after answer, moves = before ++ after ∧ Traces first before (some answer) ∧
        Traces (next answer) after result) ∨
      (Traces first moves none ∧ result = none) := by
  change Traces (first.bind next) moves result ↔ _
  induction first generalizing moves with
  | done answer =>
      simp only [Activity.bind, Traces]
      constructor
      · intro traced
        exact .inl ⟨[], moves, answer, rfl, ⟨rfl, rfl⟩, traced⟩
      · rintro (⟨_, after, _, rfl, ⟨rfl, same⟩, traced⟩ | ⟨⟨_, none⟩, _⟩)
        · cases same
          exact traced
        · cases none
  | abort =>
      simp only [Activity.bind, Traces]
      constructor
      · rintro ⟨rfl, rfl⟩
        exact .inr ⟨⟨rfl, trivial⟩, rfl⟩
      · rintro (⟨_, _, _, _, ⟨_, none⟩, _⟩ | ⟨⟨rfl, _⟩, rfl⟩)
        · cases none
        · exact ⟨rfl, rfl⟩
  | step change following ih =>
      simp only [Activity.bind, Traces, ih]
      constructor
      · rintro ⟨s, _, rfl, ⟨before, after, answer, rfl, first, second⟩ | ⟨first, rfl⟩⟩
        · exact .inl ⟨_ :: before, after, answer, rfl, ⟨s, before, rfl, first⟩, second⟩
        · exact .inr ⟨⟨s, _, rfl, first⟩, rfl⟩
      · rintro (⟨_, after, answer, rfl, ⟨s, before, rfl, first⟩, second⟩ | ⟨⟨s, rest, rfl, first⟩, rfl⟩)
        · exact ⟨s, before ++ after, rfl, .inl ⟨before, after, answer, rfl, first, second⟩⟩
        · exact ⟨s, rest, rfl, .inr ⟨first, rfl⟩⟩
  | parallel count threads following _ ih =>
      simp only [Activity.bind, Traces, ih]
      constructor
      · rintro ⟨parts, results, before, _, rfl, mixed, traced,
          ⟨first, second, answer, rfl, left, right⟩ | ⟨left, rfl⟩⟩
        · exact .inl ⟨before ++ first, second, answer, (List.append_assoc _ _ _).symm,
            ⟨parts, results, before, first, rfl, mixed, traced, left⟩, right⟩
        · exact .inr ⟨⟨parts, results, before, _, rfl, mixed, traced, left⟩, rfl⟩
      · rintro (⟨_, second, answer, rfl, ⟨parts, results, before, first, rfl, mixed, traced, left⟩,
          right⟩ | ⟨⟨parts, results, before, after, rfl, mixed, traced, left⟩, rfl⟩)
        · exact ⟨parts, results, before, first ++ second, List.append_assoc _ _ _, mixed, traced,
            .inl ⟨first, second, answer, rfl, left, right⟩⟩
        · exact ⟨parts, results, before, after, rfl, mixed, traced, .inr ⟨left, rfl⟩⟩

/-! ## What holds of every step -/

/-- Whether every step that an activity can take, in whatever state, is of a kind. -/
def Always (kind : σ → σ → Prop) : {α : Type} → Activity σ α → Prop
  | _, done _ => True
  | _, abort => True
  | _, step change next => ∀ s, kind s (change s) ∧ Always kind (next s)
  | _, parallel _ threads next => (∀ i, Always kind (threads i)) ∧ ∀ flags, Always kind (next flags)

/-- Whether an activity always has a result. Threads that it waits for may be aborted. -/
def Returns : {α : Type} → Activity σ α → Prop
  | _, done _ => True
  | _, abort => False
  | _, step _ next => ∀ s, Returns (next s)
  | _, parallel _ _ next => ∀ flags, Returns (next flags)

variable {kind : σ → σ → Prop}

@[simp]
theorem always_pure (answer : α) : Always kind (pure answer : Activity σ α) :=
  trivial

@[simp]
theorem always_abort : Always kind (abort : Activity σ α) :=
  trivial

@[simp]
theorem returns_pure (answer : α) : Returns (pure answer : Activity σ α) :=
  trivial

theorem always_modify {change : σ → σ} (isKind : ∀ s, kind s (change s)) :
    Always kind (modify change) :=
  fun s => ⟨isKind s, trivial⟩

theorem always_inspect {look : σ → α} (refl : ∀ s, kind s s) : Always kind (inspect look) :=
  fun s => ⟨refl s, trivial⟩

theorem always_act {action : σ → α × σ} (isKind : ∀ s, kind s (action s).2) :
    Always kind (act action) :=
  fun s => ⟨isKind s, trivial⟩

theorem returns_modify (change : σ → σ) : Returns (modify change) :=
  fun _ => trivial

theorem returns_inspect (look : σ → α) : Returns (inspect look) :=
  fun _ => trivial

theorem returns_act (action : σ → α × σ) : Returns (act action) :=
  fun _ => trivial

theorem returns_together (threads : List (Activity σ Unit)) : Returns (together threads) :=
  fun _ => trivial

theorem always_together {threads : List (Activity σ Unit)}
    (each : ∀ thread ∈ threads, Always kind thread) : Always kind (together threads) :=
  ⟨fun i => each _ (List.getElem_mem i.isLt), fun _ => trivial⟩

theorem Always.bind {first : Activity σ α} {next : α → Activity σ β} (always : Always kind first)
    (later : ∀ a, Always kind (next a)) : Always kind (first >>= next) := by
  change Always kind (first.bind next)
  induction first with
  | done answer => exact later answer
  | abort => trivial
  | step change following ih => exact fun s => ⟨(always s).1, ih s (always s).2 later⟩
  | parallel count threads following _ ih =>
      exact ⟨always.1, fun flags => ih flags (always.2 flags) later⟩

/-- What follows a look need be of the kind only for what can be seen. -/
theorem always_inspect_bind {look : σ → α} {next : α → Activity σ β} (refl : ∀ s, kind s s)
    (later : ∀ s, Always kind (next (look s))) : Always kind (inspect look >>= next) :=
  fun s => ⟨refl s, later s⟩

theorem Returns.bind {first : Activity σ α} {next : α → Activity σ β} (returns : Returns first)
    (later : ∀ a, Returns (next a)) : Returns (first >>= next) := by
  change Returns (first.bind next)
  induction first with
  | done answer => exact later answer
  | abort => exact returns.elim
  | step change following ih => exact fun s => ih s (returns s) later
  | parallel count threads following _ ih => exact fun flags => ih flags (returns flags) later

theorem Always.mono {other : σ → σ → Prop} {activity : Activity σ α}
    (always : Always kind activity) (weaker : ∀ s s', kind s s' → other s s') :
    Always other activity := by
  induction activity with
  | done answer => trivial
  | abort => trivial
  | step change next ih => exact fun s => ⟨weaker _ _ (always s).1, ih s (always s).2⟩
  | parallel count threads next threadsIh ih =>
      exact ⟨fun i => threadsIh i (always.1 i), fun flags => ih flags (always.2 flags)⟩

/-- Every move of a mix is a move of one of its threads. -/
theorem Interleaves.mem_part {count : Nat} {parts : Fin count → List (Move σ)}
    {whole : List (Move σ)} (mixed : Interleaves parts whole) {move : Move σ}
    (member : move ∈ whole) : ∃ i, move ∈ parts i := by
  obtain ⟨tagged, rfl, split⟩ := mixed
  obtain ⟨⟨i, found⟩, inTagged, rfl⟩ := List.mem_map.1 member
  refine ⟨i, ?_⟩
  rw [← split i]
  exact List.mem_map.2 ⟨(i, found), List.mem_filter.2 ⟨inTagged, by simp⟩, rfl⟩

theorem Interleaves.mem_whole {count : Nat} {parts : Fin count → List (Move σ)}
    {whole : List (Move σ)} (mixed : Interleaves parts whole) {i : Fin count} {move : Move σ}
    (member : move ∈ parts i) : move ∈ whole := by
  obtain ⟨tagged, rfl, split⟩ := mixed
  rw [← split i] at member
  obtain ⟨item, inTagged, rfl⟩ := List.mem_map.1 member
  exact List.mem_map.2 ⟨item, (List.mem_filter.1 inTagged).1, rfl⟩

/-- Every step that is taken is one of those that can be taken. -/
theorem Always.of_traces {activity : Activity σ α} {result : Option α}
    (always : Always kind activity) (traced : Traces activity moves result) :
    ∀ move ∈ moves, kind move.1 move.2 := by
  induction activity generalizing moves with
  | done answer =>
      obtain ⟨rfl, -⟩ := traced
      exact nofun
  | abort =>
      obtain ⟨rfl, -⟩ := traced
      exact nofun
  | step change next ih =>
      obtain ⟨s, rest, rfl, traced⟩ := traced
      intro move member
      rcases List.mem_cons.1 member with rfl | later
      · exact (always s).1
      · exact ih s (always s).2 traced move later
  | parallel count threads next threadsIh ih =>
      obtain ⟨parts, results, before, after, rfl, mixed, traced, rest⟩ := traced
      intro move member
      rcases List.mem_append.1 member with inThreads | later
      · obtain ⟨i, inThread⟩ := mixed.mem_part inThreads
        exact threadsIh i (always.1 i) (traced i) move inThread
      · exact ih _ (always.2 _) rest move later

theorem Returns.of_traces {activity : Activity σ α} {result : Option α}
    (returns : Returns activity) (traced : Traces activity moves result) :
    ∃ answer, result = some answer := by
  induction activity generalizing moves with
  | done answer => exact ⟨answer, traced.2⟩
  | abort => exact returns.elim
  | step change next ih =>
      obtain ⟨s, rest, rfl, traced⟩ := traced
      exact ih s (returns s) traced
  | parallel count threads next _ ih =>
      obtain ⟨parts, results, before, after, rfl, mixed, traced, rest⟩ := traced
      exact ih _ (returns _) rest

/-! ## Executions -/

theorem executes_pure_iff {answer : α} {result : Option α} :
    Executes outside (pure answer) s moves s' result ↔
      moves = [] ∧ result = some answer ∧ Relation.ReflTransGen outside s s' := by
  constructor
  · rintro ⟨⟨rfl, rfl⟩, gap⟩
    exact ⟨rfl, rfl, gap⟩
  · rintro ⟨rfl, rfl, gap⟩
    exact ⟨⟨rfl, rfl⟩, gap⟩

theorem executes_modify_iff {change : σ → σ} {result : Option Unit} :
    Executes outside (modify change) s moves s' result ↔
      ∃ taken, moves = [(taken, change taken)] ∧ result = some () ∧
        Relation.ReflTransGen outside s taken ∧ Relation.ReflTransGen outside (change taken) s' := by
  constructor
  · rintro ⟨⟨taken, _, rfl, rfl, rfl⟩, gap, rest⟩
    exact ⟨taken, rfl, rfl, gap, rest⟩
  · rintro ⟨taken, rfl, rfl, gap, rest⟩
    exact ⟨⟨taken, [], rfl, rfl, rfl⟩, gap, rest⟩

theorem executes_inspect_iff {look : σ → α} {result : Option α} :
    Executes outside (inspect look) s moves s' result ↔
      ∃ seen, moves = [(seen, seen)] ∧ result = some (look seen) ∧
        Relation.ReflTransGen outside s seen ∧ Relation.ReflTransGen outside seen s' := by
  constructor
  · rintro ⟨⟨seen, _, rfl, rfl, rfl⟩, gap, rest⟩
    exact ⟨seen, rfl, rfl, gap, rest⟩
  · rintro ⟨seen, rfl, rfl, gap, rest⟩
    exact ⟨⟨seen, [], rfl, rfl, rfl⟩, gap, rest⟩

theorem executes_act_iff {action : σ → α × σ} {result : Option α} :
    Executes outside (act action) s moves s' result ↔
      ∃ seen, moves = [(seen, (action seen).2)] ∧ result = some (action seen).1 ∧
        Relation.ReflTransGen outside s seen ∧
        Relation.ReflTransGen outside (action seen).2 s' := by
  constructor
  · rintro ⟨⟨seen, _, rfl, rfl, rfl⟩, gap, rest⟩
    exact ⟨seen, rfl, rfl, gap, rest⟩
  · rintro ⟨seen, rfl, rfl, gap, rest⟩
    exact ⟨⟨seen, [], rfl, rfl, rfl⟩, gap, rest⟩

/-- After a look at the state the rest goes on from the state that was seen. -/
theorem executes_inspect_bind_iff {look : σ → α} {next : α → Activity σ β} {result : Option β} :
    Executes outside (inspect look >>= next) s moves s' result ↔
      ∃ seen rest, moves = (seen, seen) :: rest ∧ Relation.ReflTransGen outside s seen ∧
        Executes outside (next (look seen)) seen rest s' result := by
  constructor
  · rintro ⟨⟨seen, rest, rfl, traced⟩, gap, chain⟩
    exact ⟨seen, rest, rfl, gap, traced, chain⟩
  · rintro ⟨seen, rest, rfl, gap, traced, chain⟩
    exact ⟨⟨seen, rest, rfl, traced⟩, gap, chain⟩

/-- After a step the rest goes on from the state that it leaves. -/
theorem executes_act_bind_iff {action : σ → α × σ} {next : α → Activity σ β} {result : Option β} :
    Executes outside (act action >>= next) s moves s' result ↔
      ∃ seen rest, moves = (seen, (action seen).2) :: rest ∧ Relation.ReflTransGen outside s seen ∧
        Executes outside (next (action seen).1) (action seen).2 rest s' result := by
  constructor
  · rintro ⟨⟨seen, rest, rfl, traced⟩, gap, chain⟩
    exact ⟨seen, rest, rfl, gap, traced, chain⟩
  · rintro ⟨seen, rest, rfl, gap, traced, chain⟩
    exact ⟨⟨seen, rest, rfl, traced⟩, gap, chain⟩

/-- After a change the rest goes on from the changed state. -/
theorem executes_modify_bind_iff {change : σ → σ} {next : Unit → Activity σ β}
    {result : Option β} :
    Executes outside (modify change >>= next) s moves s' result ↔
      ∃ taken rest, moves = (taken, change taken) :: rest ∧
        Relation.ReflTransGen outside s taken ∧
        Executes outside (next ()) (change taken) rest s' result := by
  constructor
  · rintro ⟨⟨taken, rest, rfl, traced⟩, gap, chain⟩
    exact ⟨taken, rest, rfl, gap, traced, chain⟩
  · rintro ⟨taken, rest, rfl, gap, traced, chain⟩
    exact ⟨⟨taken, rest, rfl, traced⟩, gap, chain⟩

/-- A sequence that has a result leads over a state in which the first activity has one. -/
theorem Executes.bind_some {first : Activity σ α} {next : α → Activity σ β} {answer : β}
    (execution : Executes outside (first >>= next) s moves s' (some answer)) :
    ∃ before after middle found, moves = before ++ after ∧
      Executes outside first s before middle (some found) ∧
      Executes outside (next found) middle after s' (some answer) := by
  obtain ⟨traced, chain⟩ := execution
  rcases traces_bind_iff.1 traced with ⟨before, after, found, rfl, left, right⟩ | ⟨-, none⟩
  · obtain ⟨middle, leftChain, rightChain⟩ := chain_append_iff.1 chain
    exact ⟨before, after, middle, found, rfl, ⟨left, leftChain⟩, right, rightChain⟩
  · cases none

theorem Executes.bind {first : Activity σ α} {next : α → Activity σ β} {middle : σ} {found : α}
    {before after : List (Move σ)} {result : Option β}
    (left : Executes outside first s before middle (some found))
    (right : Executes outside (next found) middle after s' result) :
    Executes outside (first >>= next) s (before ++ after) s' result :=
  ⟨traces_bind_iff.2 (.inl ⟨before, after, found, rfl, left.1, right.1⟩),
    chain_append_iff.2 ⟨middle, left.2, right.2⟩⟩

/-- A reflexive and transitive relation of which all steps of an activity and all that
happens outside are holds over every execution. -/
theorem Always.relates {related : σ → σ → Prop} {activity : Activity σ α} {result : Option α}
    (always : Always related activity) (refl : ∀ s, related s s)
    (trans : ∀ a b c, related a b → related b c → related a c)
    (outsideRelated : ∀ a b, outside a b → related a b)
    (execution : Executes outside activity s moves s' result) : related s s' :=
  execution.2.relates refl trans outsideRelated (always.of_traces execution.1)

/-! ## Running -/

/-- The moves of one more thread may come last. -/
theorem Interleaves.snoc {count : Nat} {parts : Fin count → List (Move σ)}
    {whole : List (Move σ)} (mixed : Interleaves parts whole) (last : List (Move σ)) :
    Interleaves (@Fin.snoc count (fun _ => List (Move σ)) parts last) (whole ++ last) := by
  obtain ⟨tagged, rfl, split⟩ := mixed
  let earlier : Fin count × Move σ → Fin (count + 1) × Move σ := fun item => (item.1.castSucc, item.2)
  let later : Move σ → Fin (count + 1) × Move σ := fun move => (Fin.last count, move)
  refine ⟨tagged.map earlier ++ last.map later, by simp [earlier, later], fun i => ?_⟩
  rw [List.filter_append, List.map_append]
  refine i.lastCases ?_ fun i => ?_
  · have none : (tagged.map earlier).filter (·.1 = Fin.last count) = [] := by
      refine List.filter_eq_nil_iff.2 fun item member => ?_
      obtain ⟨⟨thread, move⟩, -, rfl⟩ := List.mem_map.1 member
      simp [earlier, Fin.castSucc_ne_last]
    have all : (last.map later).filter (·.1 = Fin.last count) = last.map later := by
      refine List.filter_eq_self.2 fun item member => ?_
      obtain ⟨move, -, rfl⟩ := List.mem_map.1 member
      simp [later]
    rw [none, all]
    simp [later]
  · have none : (last.map later).filter (·.1 = i.castSucc) = [] := by
      refine List.filter_eq_nil_iff.2 fun item member => ?_
      obtain ⟨move, -, rfl⟩ := List.mem_map.1 member
      simp [later, (Fin.castSucc_ne_last i).symm]
    rw [none, Fin.snoc_castSucc, ← split i]
    simp [earlier, List.filter_map, Function.comp_def, Fin.castSucc_inj]

/-- The moves of running an activity. Threads run one after another. -/
def trail {α : Type} : Activity σ α → σ → List (Move σ)
  | done _, _ => []
  | abort, _ => []
  | step change next, s => (s, change s) :: (next s).trail (change s)
  | parallel count threads next, s =>
      let (after, flags, moves) := Fin.foldl count
        (fun (state : σ × List Bool × List (Move σ)) i =>
          let (after, result) := (threads i).run state.1
          (after, state.2.1 ++ [result.isSome], state.2.2 ++ (threads i).trail state.1))
        (s, [], [])
      moves ++ (next flags).trail after

/-- The state after running threads one after another, the flags of those that ended, and the moves. -/
def runEach {count : Nat} (threads : Fin count → Activity σ Unit) (s : σ) : σ × List Bool × List (Move σ) :=
  Fin.foldl count
    (fun (state : σ × List Bool × List (Move σ)) i =>
      let (after, result) := (threads i).run state.1
      (after, state.2.1 ++ [result.isSome], state.2.2 ++ (threads i).trail state.1)) (s, [], [])

theorem runEach_succ {count : Nat} (threads : Fin (count + 1) → Activity σ Unit) (s : σ) :
    runEach threads s =
      let (after, flags, moves) := runEach (fun i => threads i.castSucc) s
      (((threads (Fin.last count)).run after).1, flags ++ [((threads (Fin.last count)).run after).2.isSome],
        moves ++ (threads (Fin.last count)).trail after) := by
  unfold runEach
  rw [Fin.foldl_succ_last]

/-- Threads that run one after another are interleaved. -/
theorem exists_interleaved {count : Nat} (threads : Fin count → Activity σ Unit)
    (each : ∀ i s, Executes outside (threads i) s ((threads i).trail s) ((threads i).run s).1
      ((threads i).run s).2) (s : σ) :
    ∃ (parts : Fin count → List (Move σ)) (results : Fin count → Option Unit),
      Interleaves parts (runEach threads s).2.2 ∧ (∀ i, Traces (threads i) (parts i) (results i)) ∧
        Chain outside s (runEach threads s).2.2 (runEach threads s).1 ∧
        (runEach threads s).2.1 = List.ofFn fun i => (results i).isSome := by
  induction count with
  | zero => exact ⟨nofun, nofun, ⟨[], rfl, nofun⟩, nofun, .refl, rfl⟩
  | succ count ih =>
      obtain ⟨parts, results, mixed, traced, chain, flags⟩ :=
        ih (fun i => threads i.castSucc) fun i => each i.castSucc
      obtain ⟨lastTraced, lastChain⟩ :=
        each (Fin.last count) (runEach (fun i => threads i.castSucc) s).1
      rw [runEach_succ]
      refine ⟨@Fin.snoc count (fun _ => List (Move σ)) parts _,
        @Fin.snoc count (fun _ => Option Unit) results
          ((threads (Fin.last count)).run (runEach (fun i => threads i.castSucc) s).1).2,
        mixed.snoc _, fun i => ?_, ?_, ?_⟩
      · refine i.lastCases ?_ fun i => ?_
        · simpa using lastTraced
        · simpa using traced i
      · exact chain_append_iff.2 ⟨_, chain, lastChain⟩
      · rw [List.ofFn_succ_last]
        simp [flags]

/-- What running threads one after another comes to does not depend on whether their moves are kept. -/
theorem runEach_eq {count : Nat} (threads : Fin count → Activity σ Unit) (s : σ) :
    Fin.foldl count (fun (state : σ × List Bool) i =>
      let (after, result) := (threads i).run state.1
      (after, state.2 ++ [result.isSome])) (s, []) = ((runEach threads s).1, (runEach threads s).2.1) := by
  induction count with
  | zero => rfl
  | succ count ih =>
      rw [Fin.foldl_succ_last, ih, runEach_succ]

/-- The run of an activity is one of its executions. -/
theorem executes_trail (activity : Activity σ α) (s : σ) :
    Executes outside activity s (activity.trail s) (activity.run s).1 (activity.run s).2 := by
  induction activity generalizing s with
  | done answer => exact ⟨⟨rfl, rfl⟩, .refl⟩
  | abort => exact ⟨⟨rfl, rfl⟩, .refl⟩
  | step change next ih =>
      obtain ⟨traced, chain⟩ := ih s (change s)
      exact ⟨⟨s, _, rfl, traced⟩, .refl, chain⟩
  | parallel count threads next threadsIh ih =>
      obtain ⟨parts, results, mixed, traced, chain, flags⟩ := exists_interleaved threads threadsIh s
      obtain ⟨restTraced, restChain⟩ := ih (runEach threads s).2.1 (runEach threads s).1
      have runs : (parallel count threads next).run s = (next (runEach threads s).2.1).run (runEach threads s).1 := by
        rw [run, runEach_eq]
      rw [runs]
      exact ⟨⟨parts, results, _, _, rfl, mixed, traced, flags ▸ restTraced⟩,
        chain_append_iff.2 ⟨_, chain, restChain⟩⟩

theorem executes_run (activity : Activity σ α) (s : σ) :
    ∃ moves, Executes outside activity s moves (activity.run s).1 (activity.run s).2 :=
  ⟨_, executes_trail activity s⟩

/-! ## Labels of moves -/

/-- What labels the moves of threads labels their mix: each label as often as in all threads. -/
theorem Interleaves.exists_labels {Λ : Type} {count : Nat} {fits : Λ → Move σ → Prop}
    {parts : Fin count → List (Move σ)} {whole : List (Move σ)} (mixed : Interleaves parts whole)
    {labels : Fin count → List Λ} (each : ∀ i, List.Forall₂ fits (labels i) (parts i)) :
    ∃ all, List.Forall₂ fits all whole ∧ all.Perm (List.ofFn labels).flatten := by
  obtain ⟨tagged, rfl, split⟩ := mixed
  induction tagged generalizing parts labels with
  | nil =>
      have none : ∀ i, labels i = [] := by
        intro i
        have empty := each i
        rw [← split i] at empty
        exact List.forall₂_nil_right_iff.1 empty
      refine ⟨[], .nil, ?_⟩
      rw [List.flatten_eq_nil_iff.2 fun part member => ?_]
      obtain ⟨i, rfl⟩ := (List.mem_ofFn' _ _).1 member
      exact none i
  | cons first rest ih =>
      obtain ⟨i, move⟩ := first
      have here : parts i = move :: ((rest.filter (·.1 = i)).map Prod.snd) := by
        rw [← split i]
        simp
      have labelled := each i
      rw [here] at labelled
      obtain ⟨label, more, fit, fitMore, isLabels⟩ := List.forall₂_cons_right_iff.1 labelled
      -- The thread of the first move goes on with the rest of its labels.
      obtain ⟨all, fitAll, perm⟩ := @ih (Function.update parts i ((rest.filter (·.1 = i)).map Prod.snd))
        (Function.update labels i more)
        (by
          intro j
          by_cases same : j = i
          · rw [same, Function.update_self, Function.update_self]
            exact fitMore
          · rw [Function.update_of_ne same, Function.update_of_ne same]
            exact each j)
        (by
          intro j
          by_cases same : j = i
          · rw [same, Function.update_self]
          · rw [Function.update_of_ne same, ← split j]
            simp [Ne.symm same])
      refine ⟨label :: all, .cons fit fitAll, (perm.cons label).trans ?_⟩
      have inside : (i : Nat) < (List.ofFn labels).length := by simp
      have updated : List.ofFn (Function.update labels i more) = (List.ofFn labels).set i more := by
        refine List.ext_getElem (by simp) fun j _ _ => ?_
        rw [List.getElem_set, List.getElem_ofFn, List.getElem_ofFn, Function.update_apply]
        simp only [Fin.ext_iff, eq_comm]
      have whole : (List.ofFn labels) = (List.ofFn labels).set i (label :: more) := by
        conv_rhs => rw [← isLabels]
        refine List.ext_getElem (by simp) fun j _ _ => ?_
        rw [List.getElem_set]
        split
        · rename_i same
          subst same
          simp
        · rfl
      rw [updated, whole, List.set_set, List.set_eq_take_append_cons_drop, if_pos inside,
        List.set_eq_take_append_cons_drop, if_pos inside]
      simp only [List.flatten_append, List.flatten_cons, List.cons_append]
      exact List.perm_middle.symm

/-!
## What steps rely on and what they guarantee

A step may do as it should only because of what an earlier look found: what was listed then is what is worked on now.
An activity upholds a guarantee if each of its steps gives it whenever all of its steps so far have found what they rely
on. This passes on to executions, also of activities that run side by side, if whatever happens outside leaves what is
relied on. An invariant is relied on and guaranteed at once.
-/

section Upholding

variable {γ : Type} {rely : σ → Prop} {guarantee : σ → σ → Prop} {inv : σ → Prop}

/-- Whether each of some moves gives a guarantee if it and all moves before it have found what they rely on. -/
def Careful (rely : σ → Prop) (guarantee : σ → σ → Prop) (moves : List (Move σ)) : Prop :=
  ∀ before move after, moves = before ++ move :: after → (∀ earlier ∈ before, rely earlier.1) → rely move.1 →
    guarantee move.1 move.2

theorem careful_nil : Careful rely guarantee [] := by
  intro before move after split
  cases before <;> cases split

theorem careful_singleton {move : Move σ} (guarantees : rely move.1 → guarantee move.1 move.2) :
    Careful rely guarantee [move] := by
  rintro (_ | ⟨_, before⟩) other after split
  · cases split
    exact fun _ => guarantees
  · cases before <;> cases split

/-- What comes later may rely on what was found earlier. -/
theorem Careful.append {first second : List (Move σ)} (careful : Careful rely guarantee first)
    (later : (∀ move ∈ first, rely move.1) → Careful rely guarantee second) :
    Careful rely guarantee (first ++ second) := by
  intro before move after split found
  rcases List.append_eq_append_iff.1 split with ⟨rest, rfl, inSecond⟩ | ⟨rest, inFirst, tail⟩
  · apply later _ rest move after inSecond
    · exact fun earlier member => found earlier (List.mem_append_right _ member)
    · exact fun earlier member => found earlier (List.mem_append_left _ member)
  · cases rest with
    | nil =>
        rw [List.append_nil] at inFirst
        apply later _ [] move after tail.symm (List.forall_mem_nil _)
        exact inFirst ▸ found
    | cons next rest =>
        rcases List.cons_eq_cons.1 tail with ⟨rfl, -⟩
        exact careful before move rest inFirst found

theorem Careful.tail {move : Move σ} (careful : Careful rely guarantee (move :: moves)) (found : rely move.1) :
    Careful rely guarantee moves := by
  intro before other after split earlier
  apply careful (move :: before) other after (congrArg (List.cons move) split)
  exact List.forall_mem_cons.2 ⟨found, earlier⟩

/-- Along a chain every move finds what it relies on and gives its guarantee, if this leaves what is relied on. -/
theorem Careful.of_chain (careful : Careful rely guarantee moves) (outsideKeeps : ∀ a b, outside a b → rely a → rely b)
    (leaves : ∀ a b, rely a → guarantee a b → rely b) (chain : Chain outside s moves s') (begins : rely s) :
    (∀ move ∈ moves, rely move.1 ∧ guarantee move.1 move.2) ∧ rely s' := by
  have gaps : ∀ a b, Relation.ReflTransGen outside a b → rely a → rely b := by
    intro a b gap found
    induction gap with
    | refl => exact found
    | tail _ last ih => exact outsideKeeps _ _ last ih
  induction moves generalizing s with
  | nil => exact ⟨List.forall_mem_nil _, gaps _ _ chain begins⟩
  | cons move rest ih =>
      rcases chain with ⟨gap, chain⟩
      have found := gaps _ _ gap begins
      have given := careful [] move rest rfl (List.forall_mem_nil _) found
      rcases ih (careful.tail found) chain (leaves _ _ found given) with ⟨each, ends⟩
      exact ⟨List.forall_mem_cons.2 ⟨⟨found, given⟩, each⟩, ends⟩

/-- The moves of careful threads are careful in whatever order they come. -/
theorem Interleaves.careful {count : Nat} {parts : Fin count → List (Move σ)} {whole : List (Move σ)}
    (mixed : Interleaves parts whole) (each : ∀ i, Careful rely guarantee (parts i)) :
    Careful rely guarantee whole := by
  rcases mixed with ⟨tagged, rfl, split⟩
  intro before move after here found
  rcases List.map_eq_append_iff.1 here with ⟨front, rest, rfl, rfl, restHere⟩
  rcases List.map_eq_cons_iff.1 restHere with ⟨⟨i, moved⟩, back, rfl, rfl, -⟩
  -- The earlier moves of the same thread are among all earlier moves.
  apply each i ((front.filter (·.1 = i)).map Prod.snd) moved ((back.filter (·.1 = i)).map Prod.snd)
  · rw [← split i]
    simp
  · intro earlier member
    rcases List.mem_map.1 member with ⟨item, inFront, rfl⟩
    exact found _ (List.mem_map_of_mem (List.mem_filter.1 inFront).1)

/-- Whether the steps of an activity give a guarantee as far as they find what they rely on, and the activity then comes
to results of a kind only. -/
def Upholds (rely : σ → Prop) (guarantee : σ → σ → Prop) (activity : Activity σ α) (kind : α → Prop) : Prop :=
  ∀ moves result, Traces activity moves result → Careful rely guarantee moves ∧
    ((∀ move ∈ moves, rely move.1) → ∀ answer, result = some answer → kind answer)

/-- Whether the steps of an activity keep an invariant as far as they find it, and the activity then comes to results
of a kind only. -/
abbrev Keeps (inv : σ → Prop) (activity : Activity σ α) (kind : α → Prop) : Prop :=
  Upholds inv (fun _ => inv) activity kind

variable {kind : α → Prop}

/-- A guarantee that leaves what is relied on is given throughout every execution. -/
theorem Upholds.reached {activity : Activity σ α} {result : Option α} (upholds : Upholds rely guarantee activity kind)
    (outsideKeeps : ∀ a b, outside a b → rely a → rely b) (leaves : ∀ a b, rely a → guarantee a b → rely b)
    (execution : Executes outside activity s moves s' result) (begins : rely s) :
    (∀ move ∈ moves, rely move.1 ∧ guarantee move.1 move.2) ∧ rely s' ∧
      ∀ answer, result = some answer → kind answer := by
  rcases upholds moves result execution.1 with ⟨careful, kinds⟩
  rcases careful.of_chain outsideKeeps leaves execution.2 begins with ⟨each, ends⟩
  exact ⟨each, ends, kinds fun move member => (each move member).1⟩

/-- An invariant holds throughout every execution of an activity that keeps it. -/
theorem Keeps.reached {activity : Activity σ α} {result : Option α} (keeps : Keeps inv activity kind)
    (outsideKeeps : ∀ a b, outside a b → inv a → inv b)
    (execution : Executes outside activity s moves s' result) (begins : inv s) :
    (∀ move ∈ moves, inv move.1 ∧ inv move.2) ∧ inv s' ∧ ∀ answer, result = some answer → kind answer :=
  Upholds.reached keeps outsideKeeps (fun _ _ _ => id) execution begins

theorem Upholds.mono {activity : Activity σ α} {other : α → Prop} (upholds : Upholds rely guarantee activity kind)
    (weaker : ∀ answer, kind answer → other answer) : Upholds rely guarantee activity other := by
  intro moves result traced
  rcases upholds moves result traced with ⟨careful, kinds⟩
  exact ⟨careful, fun found answer same => weaker answer (kinds found answer same)⟩

/-- More may be relied on, and less guaranteed. -/
theorem Upholds.imp {activity : Activity σ α} {stronger : σ → Prop} {weaker : σ → σ → Prop}
    (upholds : Upholds rely guarantee activity kind) (relies : ∀ s, stronger s → rely s)
    (gives : ∀ s s', stronger s → guarantee s s' → weaker s s') : Upholds stronger weaker activity kind := by
  intro moves result traced
  rcases upholds moves result traced with ⟨careful, kinds⟩
  constructor
  · intro before move after split found here
    apply gives _ _ here
    exact careful before move after split (fun earlier member => relies _ (found earlier member)) (relies _ here)
  · exact fun found => kinds fun move member => relies _ (found move member)

theorem upholds_pure {answer : α} (isKind : kind answer) :
    Upholds rely guarantee (pure answer : Activity σ α) kind := by
  rintro moves result ⟨rfl, rfl⟩
  constructor
  · exact careful_nil
  · rintro - _ ⟨⟩
    exact isKind

theorem upholds_abort : Upholds rely guarantee (abort : Activity σ α) kind := by
  rintro moves result ⟨rfl, rfl⟩
  exact ⟨careful_nil, fun _ _ => nofun⟩

theorem upholds_act {action : σ → α × σ} (guarantees : ∀ s, rely s → guarantee s (action s).2)
    (kinds : ∀ s, rely s → kind (action s).1) : Upholds rely guarantee (act action) kind := by
  rintro moves result ⟨s, _, rfl, rfl, rfl⟩
  constructor
  · exact careful_singleton (guarantees s)
  · rintro found _ ⟨⟩
    exact kinds s (found _ (List.mem_singleton_self _))

theorem upholds_modify {change : σ → σ} (guarantees : ∀ s, rely s → guarantee s (change s)) :
    Upholds rely guarantee (modify change) fun _ => True :=
  @upholds_act σ Unit rely guarantee _ (fun s => ((), change s)) guarantees fun _ _ => trivial

/-- What a look finds is found where what is relied on holds. -/
theorem upholds_inspect (rests : ∀ s, rely s → guarantee s s) (look : σ → α) :
    Upholds rely guarantee (inspect look) fun answer => ∃ s, rely s ∧ look s = answer :=
  @upholds_act σ α rely guarantee _ (fun s => (look s, s)) rests fun s found => ⟨s, found, rfl⟩

theorem Upholds.bind {first : Activity σ α} {next : α → Activity σ β} {kinds : β → Prop}
    (upholds : Upholds rely guarantee first kind)
    (later : ∀ answer, kind answer → Upholds rely guarantee (next answer) kinds) :
    Upholds rely guarantee (first >>= next) kinds := by
  intro moves result traced
  rcases traces_bind_iff.1 traced with ⟨before, after, answer, rfl, left, right⟩ | ⟨left, rfl⟩
  · rcases upholds before _ left with ⟨careful, isKind⟩
    constructor
    · exact careful.append fun found => (later answer (isKind found answer rfl) after result right).1
    · intro found
      have here : kind answer := isKind (fun move member => found move (List.mem_append_left _ member)) answer rfl
      apply (later answer here after result right).2
      exact fun move member => found move (List.mem_append_right _ member)
  · exact ⟨(upholds moves _ left).1, fun _ _ => nofun⟩

/-- What follows a look need give the guarantee only for what can be seen where what is relied on holds. -/
theorem upholds_inspect_bind (rests : ∀ s, rely s → guarantee s s) {look : σ → α} {next : α → Activity σ β}
    {kinds : β → Prop} (later : ∀ s, rely s → Upholds rely guarantee (next (look s)) kinds) :
    Upholds rely guarantee (inspect look >>= next) kinds := by
  apply (upholds_inspect rests look).bind
  rintro _ ⟨s, found, rfl⟩
  exact later s found

theorem upholds_together {threads : List (Activity σ Unit)} {kinds : Unit → Prop}
    (each : ∀ thread ∈ threads, Upholds rely guarantee thread kinds) :
    Upholds rely guarantee (together threads) fun _ => True := by
  rintro moves result ⟨parts, results, before, _, rfl, mixed, traced, rfl, rfl⟩
  rw [List.append_nil]
  constructor
  · exact mixed.careful fun i => (each _ (List.getElem_mem i.isLt) _ _ (traced i)).1
  · exact fun _ _ _ => trivial

end Upholding

end Activity

end AddonIndex
