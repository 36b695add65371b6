import AddonIndex.Proofs.Activity.Marking
import AddonIndex.Proofs.Indexing.WorkStep
import Mathlib.Data.Fintype.Basic
import Mathlib.Tactic.FinCases

/-!
# Announcements of publications that take turns

A publication takes two steps: it replaces the list, and then it announces the length of its own list. When several
take turns, the list that stays is that of the last replacement, and the count that is announced last belongs to the
last announcement. By then the list is the one that stays. The two belong together unless the publication that replaces
last lies entirely between the two steps of the one that announces last.
-/

namespace AddonIndex.Indexing

open Activity

variable {list inner outer : List Addon} {lists : List (List Addon)} {world after : World} {moves : List (Move World)}
  {count : Nat} {tagged front back : List (Fin count × Move World)} {i : Fin count} {move : Move World}

/-! ## The two steps of a publication -/

/-- Whether a move replaces the published list by the given one. -/
inductive IsReplacement (list : List Addon) : Move World → Prop
  | intro (world : World) : IsReplacement list (world, { world with catalog := world.catalog.replace list })

/-- Whether a move announces the given list. -/
inductive IsAnnouncement (list : List Addon) : Move World → Prop
  | intro (world : World) : IsAnnouncement list (world, { world with catalog := world.catalog.announce list.length })

/-- A publication replaces the list, announces it, and returns. -/
theorem exists_moves_of_publish {result : Option Unit} (traced : Traces (publish list) moves result) :
    result = some () ∧ ∃ first second, moves = [first, second] ∧ IsReplacement list first ∧
      IsAnnouncement list second := by
  rcases traced with ⟨replacing, _, rfl, announcing, _, rfl, rfl, rfl⟩
  exact ⟨rfl, _, _, rfl, .intro replacing, .intro announcing⟩

/-- While lists are only announced, the list that is published stays. -/
theorem addons_of_announcements (announces : ∀ move ∈ moves, ∃ list, IsAnnouncement list move)
    (chain : Chain Interference world moves after) : after.catalog.addons = world.catalog.addons := by
  have keeps : (fun first second : World => second.catalog.addons = first.catalog.addons) world after := by
    apply chain.relates
    · exact fun _ => rfl
    · exact fun _ _ _ first second => second.trans first
    · exact fun _ _ interferes => congrArg Catalog.addons (keepsCatalog_of_interference interferes)
    · intro move member
      rcases announces move member with ⟨_, ⟨_⟩⟩
      rfl
  exact keeps

/-- Whether moves end with a replacement, announcements only, and a last announcement: the list that stays, the one that
is announced last, and the announcements between. -/
def EndsWith (inner outer : List Addon) (between moves : List (Move World)) : Prop :=
  ∃ before replacement last, moves = before ++ replacement :: (between ++ [last]) ∧ IsReplacement inner replacement ∧
    (∀ move ∈ between, ∃ list, IsAnnouncement list move) ∧ IsAnnouncement outer last

theorem EndsWith.append {between : List (Move World)} (earlier : List (Move World))
    (ends : EndsWith inner outer between moves) : EndsWith inner outer between (earlier ++ moves) := by
  rcases ends with ⟨before, replacement, last, rfl, parts⟩
  exact ⟨earlier ++ before, replacement, last, (List.append_assoc _ _ _).symm, parts⟩

/-- Where a chain leads that ends so. At the last announcement the list that stays is published already. -/
theorem EndsWith.of_chain {between : List (Move World)} (ends : EndsWith inner outer between moves)
    (chain : Chain Interference world moves after) :
    after.catalog.addons = inner ∧ after.catalog.announced.getLast? = some outer.length ∧
      ∃ last, moves.getLast? = some last ∧ last.1.catalog.addons = inner := by
  rcases ends with ⟨before, _, _, rfl, ⟨replacing⟩, announces, ⟨announcing⟩⟩
  rcases chain_append_iff.1 chain with ⟨_, -, -, chain⟩
  rcases chain_append_iff.1 chain with ⟨_, chain, toLast, gap⟩
  have stays : announcing.catalog.addons = inner := by
    calc announcing.catalog.addons = _ := congrArg Catalog.addons (keepsCatalog_of_gap toLast)
      _ = inner := addons_of_announcements announces chain
  have ended : after.catalog = announcing.catalog.announce outer.length := keepsCatalog_of_gap gap
  rw [ended]
  constructor
  · exact stays
  constructor
  · exact List.getLast?_concat
  · refine ⟨(announcing, { announcing with catalog := announcing.catalog.announce outer.length }), ?_, stays⟩
    rw [List.getLast?_append_of_ne_nil _ (List.cons_ne_nil _ _), ← List.cons_append]
    exact List.getLast?_concat

/-! ## Publications that take turns -/

/-- Whether moves, each tagged with a publication, are those of the publications in turns. -/
def IsShuffle (published : Fin count → List Addon) (tagged : List (Fin count × Move World)) : Prop :=
  ∀ i, ∃ first second, (tagged.filter (·.1 = i)).map Prod.snd = [first, second] ∧ IsReplacement (published i) first ∧
    IsAnnouncement (published i) second

theorem isShuffle_of_interleaves {published : Fin count → List Addon} {parts : Fin count → List (Move World)}
    (mixed : Interleaves parts moves)
    (each : ∀ i, ∃ first second, parts i = [first, second] ∧ IsReplacement (published i) first ∧
      IsAnnouncement (published i) second) :
    ∃ tagged : List (Fin count × Move World), tagged.map Prod.snd = moves ∧ IsShuffle published tagged := by
  rcases mixed with ⟨tagged, isMoves, split⟩
  refine ⟨tagged, isMoves, fun i => ?_⟩
  rw [split i]
  exact each i

theorem filter_cons_tag : ((i, move) :: back).filter (·.1 = i) = (i, move) :: back.filter (·.1 = i) :=
  List.filter_cons_of_pos (decide_eq_true rfl)

theorem exists_filter_eq_cons (member : i ∈ tagged.map Prod.fst) :
    ∃ item rest, tagged.filter (·.1 = i) = item :: rest := by
  rcases List.mem_map.1 member with ⟨item, inTagged, here⟩
  apply List.exists_cons_of_ne_nil
  exact List.ne_nil_of_mem (List.mem_filter.2 ⟨inTagged, decide_eq_true here⟩)

section Shuffle

variable {published : Fin count → List Addon} (shuffle : IsShuffle published tagged)

include shuffle

/-- The first move of a publication is its replacement of the list. -/
theorem IsShuffle.isReplacement (split : tagged = front ++ (i, move) :: back) (isFirst : i ∉ front.map Prod.fst) :
    IsReplacement (published i) move ∧ i ∈ back.map Prod.fst := by
  rcases shuffle i with ⟨first, second, same, isReplacement, -⟩
  have none : front.filter (·.1 = i) = [] := by
    apply List.filter_eq_nil_iff.2
    intro item member here
    exact isFirst (List.mem_map.2 ⟨item, member, of_decide_eq_true here⟩)
  rw [split, List.filter_append, none, List.nil_append, filter_cons_tag, List.map_cons] at same
  rcases List.cons_eq_cons.1 same with ⟨rfl, rest⟩
  constructor
  · exact isReplacement
  · rcases List.map_eq_cons_iff.1 rest with ⟨item, _, isItem, -⟩
    have member : item ∈ back.filter (·.1 = i) := by
      rw [isItem]
      exact List.mem_cons_self
    rcases List.mem_filter.1 member with ⟨inBack, here⟩
    exact List.mem_map.2 ⟨item, inBack, of_decide_eq_true here⟩

/-- The second move of a publication is its announcement, and there is no third one. -/
theorem IsShuffle.isAnnouncement (split : tagged = front ++ (i, move) :: back) (isSecond : i ∈ front.map Prod.fst) :
    IsAnnouncement (published i) move ∧ i ∉ back.map Prod.fst := by
  rcases shuffle i with ⟨first, second, same, -, isAnnouncement⟩
  rcases exists_filter_eq_cons isSecond with ⟨item, rest, inFront⟩
  rw [split, List.filter_append, inFront, filter_cons_tag, List.map_append, List.map_cons, List.cons_append,
    List.map_cons] at same
  rcases List.cons_eq_cons.1 same with ⟨-, same⟩
  rcases List.append_eq_singleton_iff.1 same with ⟨-, same⟩ | ⟨-, none⟩
  · rcases List.cons_eq_cons.1 same with ⟨rfl, none⟩
    refine ⟨isAnnouncement, fun isThird => ?_⟩
    rcases exists_filter_eq_cons isThird with ⟨_, _, inBack⟩
    rw [inBack] at none
    cases none
  · cases none

/-- A move of a publication that is not its last one is its replacement of the list. -/
theorem IsShuffle.isReplacement_of_mem (split : tagged = front ++ (i, move) :: back) (later : i ∈ back.map Prod.fst) :
    IsReplacement (published i) move := by
  by_cases isFirst : i ∈ front.map Prod.fst
  · exact absurd later (shuffle.isAnnouncement split isFirst).2
  · exact (shuffle.isReplacement split isFirst).1

end Shuffle

/-- Where a tag is met first for the last time: only tags that were met follow. -/
theorem exists_last_new (some : tagged ≠ []) :
    ∃ front i move back, tagged = front ++ (i, move) :: back ∧ i ∉ front.map Prod.fst ∧
      ∀ item ∈ back, item.1 = i ∨ item.1 ∈ front.map Prod.fst := by
  induction tagged using List.reverseRecOn with
  | nil => exact absurd rfl some
  | append_singleton tagged last ih =>
      by_cases old : last.1 ∈ tagged.map Prod.fst
      · have earlier : tagged ≠ [] := by
          rintro rfl
          exact List.not_mem_nil old
        rcases ih earlier with ⟨front, i, move, back, rfl, isNew, follow⟩
        refine ⟨front, i, move, back ++ [last], by simp, isNew, ?_⟩
        rw [List.forall_mem_append, List.forall_mem_singleton]
        constructor
        · exact follow
        · -- A tag that was met is the one that is split at, comes before it, or after it.
          rw [List.map_append, List.map_cons, List.mem_append, List.mem_cons] at old
          rcases old with inFront | isHere | inBack
          · exact .inr inFront
          · exact .inl isHere
          · rcases List.mem_map.1 inBack with ⟨item, member, same⟩
            exact same ▸ follow item member
      · exact ⟨tagged, last.1, last.2, [], rfl, old, List.forall_mem_nil _⟩

/-- Whether the publication that replaces the list last lies entirely between the two steps of the one that announces
last. -/
def LiesWithin (inner outer : List Addon) (moves : List (Move World)) : Prop :=
  ∃ before first rest between, moves = before ++ first :: rest ∧ IsReplacement outer first ∧
    EndsWith inner outer between rest ∧ ∃ announcement ∈ between, IsAnnouncement inner announcement

theorem LiesWithin.exists_endsWith (within : LiesWithin inner outer moves) :
    ∃ between, EndsWith inner outer between moves := by
  rcases within with ⟨before, first, rest, between, rfl, -, ends, -⟩
  exact ⟨between, (ends.append [first]).append before⟩

/-- How publications that take turns end: one publication replaces the list last and one announces last. If they are
not the same, the first lies within the second. -/
theorem IsShuffle.exists_endsWith {published : Fin count → List Addon} (shuffle : IsShuffle published tagged)
    (some : tagged ≠ []) :
    ∃ i j between, EndsWith (published i) (published j) between (tagged.map Prod.snd) ∧
      (i ≠ j → LiesWithin (published i) (published j) (tagged.map Prod.snd)) := by
  rcases exists_last_new some with ⟨front, i, replacement, back, rfl, isNew, follow⟩
  rcases shuffle.isReplacement rfl isNew with ⟨replaces, announcedLater⟩
  rcases List.eq_nil_or_concat' back with rfl | ⟨between, ⟨j, last⟩, rfl⟩
  · exact absurd announcedLater List.not_mem_nil
  -- What follows the last replacement are second moves.
  have announces : ∀ amid k move rest, between ++ [(j, last)] = amid ++ (k, move) :: rest →
      IsAnnouncement (published k) move := by
    intro amid k move rest split
    have member : (k, move) ∈ between ++ [(j, last)] := by
      rw [split]
      exact List.mem_append_right _ List.mem_cons_self
    have earlier : k ∈ (front ++ (i, replacement) :: amid).map Prod.fst := by
      rw [List.map_append, List.map_cons, List.mem_append, List.mem_cons]
      rcases follow _ member with isHere | inFront
      · exact .inr (.inl isHere)
      · exact .inl inFront
    have isLater : front ++ (i, replacement) :: (between ++ [(j, last)]) =
        (front ++ (i, replacement) :: amid) ++ (k, move) :: rest := by
      rw [split, List.append_assoc, List.cons_append]
    exact (shuffle.isAnnouncement isLater earlier).1
  have announcesLast : IsAnnouncement (published j) last := announces between j last [] rfl
  have ends : EndsWith (published i) (published j) (between.map Prod.snd)
      (((i, replacement) :: (between ++ [(j, last)])).map Prod.snd) := by
    refine ⟨[], replacement, last, by simp, replaces, ?_, announcesLast⟩
    intro move member
    rcases List.mem_map.1 member with ⟨⟨k, move⟩, inBetween, rfl⟩
    rcases List.append_of_mem inBetween with ⟨amid, rest, rfl⟩
    exact ⟨_, announces amid k move (rest ++ [(j, last)]) (by simp)⟩
  refine ⟨i, j, between.map Prod.snd, ?_, fun differ => ?_⟩
  · rw [List.map_append]
    exact ends.append _
  -- The last announcement is of a publication that replaced the list before, and of another one than the last
  -- replacement, which is announced between.
  have replacedBefore : j ∈ front.map Prod.fst := by
    rcases follow (j, last) (List.mem_append_right _ List.mem_cons_self) with isHere | inFront
    · exact absurd isHere.symm differ
    · exact inFront
  rcases List.mem_map.1 replacedBefore with ⟨⟨k, first⟩, inFront, isLast : k = j⟩
  rcases List.append_of_mem inFront with ⟨before, amid, rfl⟩
  have replacesFirst : IsReplacement (published j) first := by
    rw [isLast] at shuffle
    apply shuffle.isReplacement_of_mem (List.append_assoc _ _ _)
    simp
  have announcedBetween : i ∈ between.map Prod.fst := by
    rw [List.map_append, List.mem_append] at announcedLater
    exact announcedLater.resolve_right fun isHere => differ (List.mem_singleton.1 isHere)
  rcases List.mem_map.1 announcedBetween with ⟨⟨k', announcement⟩, inBetween, isInner : k' = i⟩
  refine ⟨before.map Prod.snd, first, (amid ++ (i, replacement) :: (between ++ [(j, last)])).map Prod.snd,
    between.map Prod.snd, by simp, replacesFirst, ?_, announcement, List.mem_map_of_mem inBetween, ?_⟩
  · rw [List.map_append]
    exact ends.append _
  · rcases List.append_of_mem inBetween with ⟨earlier, rest, rfl⟩
    rw [← isInner]
    exact announces earlier k' announcement (rest ++ [(j, last)]) (by simp)

/-! ## How publications that take turns end -/

/-- Whether a step adds the given count, if any, to what is announced. -/
def Counts (count : Option Nat) (move : Move World) : Prop :=
  move.2.catalog.announced = move.1.catalog.announced ++ count.toList

theorem announced_of_counts {counts : List (Option Nat)} (fits : List.Forall₂ Counts counts moves)
    (chain : Chain Interference world moves after) :
    after.catalog.announced = world.catalog.announced ++ counts.reduceOption := by
  induction fits generalizing world with
  | nil => rw [List.reduceOption_nil, List.append_nil, show after.catalog = _ from keepsCatalog_of_gap chain]
  | @cons count move counts moves counted _ ih =>
      rcases chain with ⟨gap, chain⟩
      calc after.catalog.announced = move.2.catalog.announced ++ counts.reduceOption := ih chain
        _ = move.1.catalog.announced ++ (count.toList ++ counts.reduceOption) := by
            rw [show move.2.catalog.announced = _ from counted, List.append_assoc]
        _ = world.catalog.announced ++ (count :: counts).reduceOption := by
            rw [show move.1.catalog = _ from keepsCatalog_of_gap gap]
            cases count <;> rfl

theorem marks_publish :
    Marks (fun _ => True) Counts (publish list) fun result counts => result = some () ∧ counts = [list.length] := by
  intro moves result traced _
  rcases exists_moves_of_publish traced with ⟨rfl, _, _, rfl, ⟨replacing⟩, ⟨announcing⟩⟩
  refine ⟨[none, some list.length], .cons ?_ (.cons rfl .nil), rfl, rfl⟩
  exact (List.append_nil _).symm

/-- Publications that take turns all return, and each of them has announced the length of its list. -/
theorem counts_of_publications {result : Option (List Bool)}
    (execution : Executes Interference (together (lists.map publish)) world moves after result) :
    result = some (lists.map fun _ => true) ∧ ∃ counts, counts.Perm (lists.map List.length) ∧
      after.catalog.announced = world.catalog.announced ++ counts := by
  have marks : Marks (fun _ => True) Counts (together (lists.map publish)) fun result counts =>
      result = some (lists.map fun _ => true) ∧ counts.Perm (lists.map List.length) := by
    apply marks_together fun _ _ => marks_publish
    rintro threads entries rfl each perm
    constructor
    · rw [List.map_map]
      apply congrArg
      apply List.map_congr_left
      intro one member
      simp [(each one member).1]
    · have flat : threads.flatMap Marked.marks = threads.flatMap fun one => [one.job.length] :=
        List.flatMap_congr fun one member => (each one member).2
      rw [List.map_map, List.map_eq_flatMap]
      exact perm.trans (.of_eq flat)
  rcases marks moves result execution.1 fun _ _ => trivial with ⟨counts, fits, returned, perm⟩
  exact ⟨returned, _, perm, announced_of_counts fits execution.2⟩

/-- How publications that take turns end: all of them return, and each has announced the length of its list. One of the
lists stays, and at the last announcement it is published already. Its length is the one that is announced last
precisely if the publication that replaces last does not lie within one of another length that announces last. -/
structure PublishedInTurns (lists : List (List Addon)) (world : World) (moves : List (Move World)) (after : World)
    (result : Option (List Bool)) : Prop where
  returned : result = some (lists.map fun _ => true)
  counted : ∃ counts, counts.Perm (lists.map List.length) ∧
    after.catalog.announced = world.catalog.announced ++ counts
  stays : after.catalog.addons ∈ lists
  published : ∃ last, moves.getLast? = some last ∧ last.1.catalog.addons = after.catalog.addons
  agrees_iff : after.catalog.announced.getLast? = some after.catalog.addons.length ↔
    ∀ inner outer, LiesWithin inner outer moves → inner.length = outer.length

theorem publishedInTurns_of_together {result : Option (List Bool)} (some : lists ≠ [])
    (execution : Executes Interference (together (lists.map publish)) world moves after result) :
    PublishedInTurns lists world moves after result := by
  rcases counts_of_publications execution with ⟨returned, counted⟩
  rcases execution with ⟨⟨parts, results, shuffled, _, rfl, mixed, traced, rfl, -⟩, chain⟩
  rw [List.append_nil] at chain
  rw [List.append_nil]
  have sized : (lists.map publish).length = lists.length := List.length_map _
  let published : Fin (lists.map publish).length → List Addon := fun i => lists[i.cast sized]
  have each : ∀ i, ∃ first second, parts i = [first, second] ∧ IsReplacement (published i) first ∧
      IsAnnouncement (published i) second := by
    intro i
    have one := traced i
    simp only [Fin.getElem_fin, List.getElem_map] at one
    exact (exists_moves_of_publish one).2
  rcases isShuffle_of_interleaves mixed each with ⟨tagged, rfl, shuffle⟩
  have tags : tagged ≠ [] := by
    rintro rfl
    rcases shuffle ⟨0, sized.symm ▸ List.length_pos_of_ne_nil some⟩ with ⟨_, _, none, -⟩
    cases none
  rcases shuffle.exists_endsWith tags with ⟨i, j, between, ends, within⟩
  rcases ends.of_chain chain with ⟨stays, announced, isLast⟩
  refine ⟨returned, counted, ?_, ?_, ?_⟩
  · rw [stays]
    exact List.getElem_mem _
  · rw [stays]
    exact isLast
  · constructor
    · intro agrees inner outer lies
      rcases lies.exists_endsWith with ⟨_, same⟩
      rcases same.of_chain chain with ⟨rfl, last, -⟩
      rw [agrees] at last
      exact Option.some.inj last
    · intro agree
      rw [announced, stays]
      by_cases same : i = j
      · rw [same]
      · rw [agree _ _ (within same)]

/-! ## Publications that cross -/

/-- The steps of two publications, each with its number: the second one replaces the list and announces it between the
two steps of the first one. -/
def crossing (outer inner : List Addon) (world : World) : List (Fin 2 × Move World) :=
  let first := { world with catalog := world.catalog.replace outer }
  let second := { first with catalog := first.catalog.replace inner }
  let third := { second with catalog := second.catalog.announce inner.length }
  let fourth := { third with catalog := third.catalog.announce outer.length }
  [(0, world, first), (1, first, second), (1, second, third), (0, third, fourth)]

theorem executes_crossing (outer inner : List Addon) (world : World) :
    Executes Interference (together ([outer, inner].map publish)) world ((crossing outer inner world).map Prod.snd)
      { world with catalog := (world.catalog.publish inner).announce outer.length } (some [true, true]) := by
  constructor
  · refine ⟨fun i => ((crossing outer inner world).filter (·.1 = i)).map Prod.snd, fun _ => some (), _, [],
      (List.append_nil _).symm, ⟨crossing outer inner world, rfl, fun _ => rfl⟩, ?_, rfl, rfl⟩
    rintro (i : Fin 2)
    fin_cases i
    · exact ⟨_, _, rfl, _, _, rfl, rfl, rfl⟩
    · exact ⟨_, _, rfl, _, _, rfl, rfl, rfl⟩
  · exact ⟨.refl, .refl, .refl, .refl, .refl⟩

/-- Two publications that cross: one addon is announced last, and two addons stay. -/
theorem publishedInTurns_crossing :
    [[default], [default, default]] ≠ ([] : List (List Addon)) ∧
    PublishedInTurns [[default], [default, default]] default
      ((crossing [default] [default, default] default).map Prod.snd)
      { (default : World) with catalog := { addons := [default, default], announced := [2, 1] } }
      (some [true, true]) :=
  ⟨List.cons_ne_nil _ _, publishedInTurns_of_together (List.cons_ne_nil _ _) (executes_crossing _ _ _)⟩

end AddonIndex.Indexing
