import AddonIndex.Proofs.WorkerPool
import Mathlib.Algebra.Order.BigOperators.Group.List
import Mathlib.Algebra.Order.Ring.Nat
import Mathlib.Tactic.Linarith
import Mathlib.Tactic.Ring

/-!
# Even buckets

An item goes to a bucket that is no heavier than any other, so without its last
item no bucket is heavier than another one, and two totals differ by no more
than the largest item. All of this is about exact totals: they are, as long as
the sizes add up to no more than the largest total that is kept.

No way to deal the same items out to as many groups has a heaviest group that is
much lighter than the heaviest bucket. When an item is placed, either it fits beside
the lightest bucket within what the other way needs, or it is so small that it matters
little. For if it is large, a group of the other way has places for two items that are
no smaller, and an item takes both of them if the one that is placed would not fit
beside it. All these places are taken by the items in the buckets already.
-/

namespace AddonIndex

variable {α : Type} {size : α → Nat} {item : α}

/-- The size of items together. -/
def load (size : α → Nat) (items : List α) : Nat := (items.map size).sum

/-- The size of the largest item, if there is one. -/
def largest (size : α → Nat) (items : List α) : Nat := (items.map size).max?.getD 0

theorem load_append (first second : List α) :
    load size (first ++ second) = load size first + load size second := by
  rw [load, List.map_append, List.sum_append, ← load, ← load]

theorem load_cons (item : α) (items : List α) : load size (item :: items) = size item + load size items := by
  rw [load, List.map_cons, List.sum_cons, ← load]

theorem load_eq_of_perm {first second : List α} (perm : first.Perm second) :
    load size first = load size second :=
  (perm.map size).sum_eq

theorem load_le_of_sublist {part items : List α} (sublist : part.Sublist items) :
    load size part ≤ load size items :=
  (sublist.map size).sum_le_sum fun _ _ => Nat.zero_le _

theorem le_largest {items : List α} (member : item ∈ items) : size item ≤ largest size items :=
  List.le_max?_getD_of_mem (List.mem_map_of_mem member)

/-- The last of some items adds no more than a bound on all of them. -/
theorem load_le_dropLast_add {items : List α} {bound : Nat} (bounded : ∀ item ∈ items, size item ≤ bound) :
    load size items ≤ load size items.dropLast + bound := by
  rcases List.eq_nil_or_concat items with rfl | ⟨front, last, rfl⟩
  · exact Nat.zero_le _
  · rw [List.concat_eq_append] at bounded ⊢
    have small := bounded last (List.mem_append_right _ (List.mem_singleton_self _))
    rw [List.dropLast_concat, load_append, load_cons]
    exact Nat.add_le_add_left small _

namespace Bucket

variable {buckets : List (Bucket α)}

/-- Deal items out to buckets, one after another. -/
def deal (size : α → Nat) (items : List α) (buckets : List (Bucket α)) : List (Bucket α) :=
  items.foldl (fun buckets item => place item (size item) buckets) buckets

/-- An item is put into one of the buckets, and into one that is no heavier than any of them. -/
theorem exists_place_eq (item : α) (weight : Nat) (nonempty : buckets ≠ []) :
    ∃ before lightest after, buckets = before ++ lightest :: after ∧
      (∀ other ∈ buckets, lightest.total ≤ other.total) ∧
      place item weight buckets = before ++ lightest.add item weight :: after := by
  induction buckets with
  | nil => exact absurd rfl nonempty
  | cons bucket others ih =>
      by_cases light : bucket.isLightest others = true
      · refine ⟨[], bucket, others, rfl, List.forall_mem_cons.2 ⟨le_rfl, ?_⟩, ?_⟩
        · simpa [isLightest] using light
        · rw [place, if_pos light, List.nil_append]
      · obtain ⟨lighter, member, less⟩ : ∃ other ∈ others, other.total < bucket.total := by
          simpa [isLightest] using light
        obtain ⟨before, lightest, after, rfl, least, placed⟩ := ih (List.ne_nil_of_mem member)
        refine ⟨bucket :: before, lightest, after, rfl, List.forall_mem_cons.2 ⟨?_, least⟩, ?_⟩
        · exact (least lighter member).trans less.le
        · rw [place, if_neg light, placed, List.cons_append]

theorem length_place (item : α) (weight : Nat) (nonempty : buckets ≠ []) :
    (place item weight buckets).length = buckets.length := by
  obtain ⟨before, lightest, after, rfl, -, placed⟩ := exists_place_eq item weight nonempty
  rw [placed, List.length_append, List.length_append, List.length_cons, List.length_cons]

/-- Whether each bucket holds its items from the largest to the smallest. -/
def Descending (size : α → Nat) (buckets : List (Bucket α)) : Prop :=
  ∀ bucket ∈ buckets, bucket.items.Pairwise fun first second => size second ≤ size first

/-- Whether totals are exact, and without its last item no bucket is heavier than another one. -/
structure Even (size : α → Nat) (buckets : List (Bucket α)) : Prop where
  exact : ∀ bucket ∈ buckets, bucket.total = load size bucket.items
  level : ∀ bucket ∈ buckets, ∀ other ∈ buckets, load size bucket.items.dropLast ≤ other.total

theorem descending_replicate (size : α → Nat) (number : Nat) : Descending size (List.replicate number {}) := by
  intro bucket member
  rw [List.eq_of_mem_replicate member]
  exact List.Pairwise.nil

theorem even_replicate (size : α → Nat) (number : Nat) : Even size (List.replicate number {}) where
  exact bucket member := by
    rw [List.eq_of_mem_replicate member]
    rfl
  level bucket member other _ := by
    rw [List.eq_of_mem_replicate member]
    exact Nat.zero_le _

/-- An item that is no larger than those before it comes last in its bucket. -/
theorem Descending.place (descending : Descending size buckets) (nonempty : buckets ≠ [])
    (smallest : ∀ bucket ∈ buckets, ∀ placed ∈ bucket.items, size item ≤ size placed) :
    Descending size (place item (size item) buckets) := by
  obtain ⟨before, lightest, after, rfl, -, placed⟩ := exists_place_eq item (size item) nonempty
  rw [placed]
  have inside : lightest ∈ before ++ lightest :: after :=
    List.mem_append_right _ List.mem_cons_self
  intro bucket member
  rcases List.mem_append.1 member with earlier | later
  · exact descending bucket (List.mem_append_left _ earlier)
  rcases List.mem_cons.1 later with rfl | later
  · refine List.pairwise_append.2 ⟨descending lightest inside, List.pairwise_singleton _ _, ?_⟩
    intro larger isLarger last isLast
    rw [List.mem_singleton.1 isLast]
    exact smallest lightest inside larger isLarger
  · exact descending bucket (List.mem_append_right _ (List.mem_cons_of_mem _ later))

/-- Buckets stay even if the total of the lightest one is not cut off. -/
theorem Even.place (even : Even size buckets) (nonempty : buckets ≠ [])
    (fits : ∀ bucket ∈ buckets, bucket.total + size item ≤ maxTotal) :
    Even size (place item (size item) buckets) := by
  obtain ⟨before, lightest, after, same, least, placed⟩ := exists_place_eq item (size item) nonempty
  have inside : lightest ∈ buckets := by
    rw [same]
    exact List.mem_append_right _ List.mem_cons_self
  have filled : (lightest.add item (size item)).total = lightest.total + size item :=
    min_eq_right (fits lightest inside)
  have cases : ∀ bucket ∈ Bucket.place item (size item) buckets,
      bucket ∈ buckets ∨ bucket = lightest.add item (size item) := by
    intro bucket member
    rw [placed] at member
    rw [same]
    simp only [List.mem_append, List.mem_cons] at member ⊢
    tauto
  -- No total becomes smaller.
  have grown : ∀ bound, (∀ other ∈ buckets, bound ≤ other.total) →
      ∀ other ∈ Bucket.place item (size item) buckets, bound ≤ other.total := by
    intro bound below other member
    rcases cases other member with old | rfl
    · exact below other old
    · rw [filled]
      exact (below lightest inside).trans (Nat.le_add_right _ _)
  refine ⟨fun bucket member => ?_, fun bucket member => grown _ ?_⟩
  · rcases cases bucket member with old | rfl
    · exact even.exact bucket old
    · rw [filled, even.exact lightest inside, add, load_append]
      rfl
  · rcases cases bucket member with old | rfl
    · exact even.level bucket old
    · rw [add, List.dropLast_concat, ← even.exact lightest inside]
      exact least

/-- Dealing out keeps the number of buckets. -/
theorem length_deal {items : List α} (nonempty : buckets ≠ []) :
    (deal size items buckets).length = buckets.length := by
  induction items generalizing buckets with
  | nil => rfl
  | cons item rest ih =>
      rw [deal, List.foldl_cons, ← deal, ih (place_ne_nil item _ nonempty), length_place item _ nonempty]

/-- Items that come from the largest to the smallest are in that order in each bucket. -/
theorem Descending.deal {items : List α} (descending : Descending size buckets) (nonempty : buckets ≠ [])
    (sorted : items.Pairwise fun first second => size second ≤ size first)
    (smaller : ∀ bucket ∈ buckets, ∀ placed ∈ bucket.items, ∀ item ∈ items, size item ≤ size placed) :
    Descending size (deal size items buckets) := by
  induction items generalizing buckets with
  | nil => exact descending
  | cons item rest ih =>
      obtain ⟨least, sorted⟩ := List.pairwise_cons.1 sorted
      rw [Bucket.deal, List.foldl_cons, ← Bucket.deal]
      refine ih (descending.place nonempty fun bucket member placed inBucket =>
        smaller bucket member placed inBucket item List.mem_cons_self) (place_ne_nil item _ nonempty) sorted ?_
      intro bucket member placed inBucket other later
      -- What is in a bucket now was there before or is the item just placed.
      have now : placed ∈ ((Bucket.place item (size item) buckets).map items).flatten :=
        List.mem_flatten_of_mem (List.mem_map_of_mem member) inBucket
      rcases List.mem_cons.1 ((flatten_place_perm item _ nonempty).mem_iff.1 now) with rfl | before
      · exact least other later
      · obtain ⟨placedItems, isBucket, inItems⟩ := List.mem_flatten.1 before
        obtain ⟨earlier, isEarlier, rfl⟩ := List.mem_map.1 isBucket
        exact smaller earlier isEarlier placed inItems other (List.mem_cons_of_mem _ later)

/-- Buckets stay even while items are dealt out whose sizes do not add up to too much. -/
theorem Even.deal {items : List α} (even : Even size buckets) (nonempty : buckets ≠ [])
    (fits : load size (buckets.map Bucket.items).flatten + load size items ≤ maxTotal) :
    Even size (deal size items buckets) := by
  induction items generalizing buckets with
  | nil => exact even
  | cons item rest ih =>
      rw [load_cons] at fits
      rw [Bucket.deal, List.foldl_cons, ← Bucket.deal]
      refine ih (even.place nonempty fun bucket member => ?_) (place_ne_nil item _ nonempty) ?_
      · have part : load size bucket.items ≤ load size (buckets.map Bucket.items).flatten :=
          load_le_of_sublist (List.sublist_flatten_of_mem (List.mem_map_of_mem member))
        rw [even.exact bucket member]
        omega
      · rw [load_eq_of_perm (flatten_place_perm item _ nonempty), load_cons]
        omega

end Bucket

theorem balance_eq_deal (size : α → Nat) (buckets : Nat) (items : List α) :
    balance size buckets items =
      (Bucket.deal size (largestFirst size items) (List.replicate (max buckets 1) {})).map Bucket.items :=
  rfl

theorem pairwise_largestFirst (size : α → Nat) (items : List α) :
    (largestFirst size items).Pairwise fun first second => size second ≤ size first := by
  rw [largestFirst, List.pairwise_reverse]
  have sorted := @List.pairwise_mergeSort _ (fun first second => decide (size first ≤ size second))
    (fun first second third => by simpa using Nat.le_trans)
    (fun first second => by simpa using Nat.le_total _ _) items
  exact sorted.imp of_decide_eq_true

/-- Items are dealt out to as many buckets as were asked for, but at least one. Each item is in one
bucket, and the larger ones come first in it. If the sizes add up to no more than the largest total,
no bucket without its last item is heavier than another one, so that the sizes of two buckets differ
by no more than the largest item. -/
theorem balance_even (size : α → Nat) (buckets : Nat) (items : List α) :
    (balance size buckets items).length = max buckets 1 ∧
    (balance size buckets items).flatten.Perm items ∧
    (∀ bucket ∈ balance size buckets items, bucket.Pairwise fun first second => size second ≤ size first) ∧
    (load size items ≤ maxTotal →
      ∀ bucket ∈ balance size buckets items, ∀ other ∈ balance size buckets items,
        load size bucket.dropLast ≤ load size other ∧
        load size bucket ≤ load size other + largest size items) := by
  have nonempty : List.replicate (max buckets 1) ({} : Bucket α) ≠ [] := by
    simp
  have perm := flatten_balance_perm size buckets items
  refine ⟨?_, perm, ?_, fun fits => ?_⟩
  · rw [balance_eq_deal, List.length_map, Bucket.length_deal nonempty, List.length_replicate]
  · have dealt := (Bucket.descending_replicate size _).deal nonempty (pairwise_largestFirst size items) (by
      intro bucket member placed inBucket
      rw [List.eq_of_mem_replicate member] at inBucket
      cases inBucket)
    rw [balance_eq_deal]
    exact List.forall_mem_map.2 dealt
  · have fitting : load size ((List.replicate (max buckets 1) ({} : Bucket α)).map Bucket.items).flatten +
        load size (largestFirst size items) ≤ maxTotal := by
      rw [load_eq_of_perm (largestFirst_perm size items)]
      simpa [load] using fits
    have dealt := (Bucket.even_replicate size _).deal nonempty fitting
    rw [balance_eq_deal]
    refine List.forall_mem_map.2 fun bucket member => List.forall_mem_map.2 fun other isOther => ?_
    have level := dealt.level bucket member other isOther
    rw [dealt.exact other isOther] at level
    refine ⟨level, (load_le_dropLast_add fun item inBucket => ?_).trans (Nat.add_le_add_right level _)⟩
    exact le_largest (perm.mem_iff.1 (List.mem_flatten_of_mem (List.mem_map_of_mem member) inBucket))

/-- Of four items the first of two buckets gets the largest and the smallest one. -/
theorem balance_even_four :
    balance id 2 [1, 3, 5, 7] = [[7, 1], [5, 3]] ∧ load id [1, 3, 5, 7] ≤ maxTotal ∧
      load id [5] ≤ load id [7, 1] ∧ load id [5, 3] ≤ load id [7, 1] + largest id [1, 3, 5, 7] := by
  have sorted : largestFirst id [1, 3, 5, 7] = [7, 5, 3, 1] := by
    rw [largestFirst, List.mergeSort_of_pairwise (by decide)]
    rfl
  have dealt : balance id 2 [1, 3, 5, 7] = [[7, 1], [5, 3]] := by
    rw [balance_eq_deal, sorted]
    decide
  have fits : load id [1, 3, 5, 7] ≤ maxTotal := by decide
  obtain ⟨-, -, -, even⟩ := balance_even id 2 [1, 3, 5, 7]
  rw [dealt] at even
  exact ⟨dealt, fits, even fits [5, 3] (by decide) [7, 1] (by decide)⟩

/-! ## Other ways to deal -/

variable {limit least bound : Nat} {items all : List α} {groups : List (List α)}

theorem largest_eq (size : α → Nat) (items : List α) :
    largest size items = 0 ∨ ∃ item ∈ items, largest size items = size item := by
  rw [largest]
  cases found : (items.map size).max? with
  | none => exact .inl rfl
  | some greatest =>
      rcases List.mem_map.1 (List.max?_mem found) with ⟨item, member, same⟩
      exact .inr ⟨item, member, same.symm⟩

theorem load_flatten (size : α → Nat) (groups : List (List α)) :
    load size groups.flatten = load (load size) groups := by
  induction groups with
  | nil => rfl
  | cons group rest ih => rw [List.flatten_cons, load_append, ih, load_cons]

theorem load_le_mul (bounded : ∀ item ∈ items, size item ≤ bound) : load size items ≤ items.length * bound := by
  have sum := List.sum_le_card_nsmul (items.map size) bound (List.forall_mem_map.2 bounded)
  rwa [List.length_map] at sum

theorem mul_le_load (bounded : ∀ item ∈ items, bound ≤ size item) : items.length * bound ≤ load size items := by
  have sum := List.card_nsmul_le_sum (items.map size) bound (List.forall_mem_map.2 bounded)
  rwa [List.length_map] at sum

theorem load_le_of_mem (member : item ∈ items) : size item ≤ load size items :=
  List.single_le_sum (fun _ _ => Nat.zero_le _) _ (List.mem_map_of_mem member)

/-! ## Places for large items -/

/-- How many of the two places of a group an item takes. Items below the least size take none, and one that leaves no
room for an item of that size within the limit takes both. -/
def places (size : α → Nat) (limit least : Nat) (item : α) : Nat :=
  if size item < least then 0 else if limit < size item + least then 2 else 1

theorem one_le_places (large : least ≤ size item) : 1 ≤ places size limit least item := by
  rw [places, if_neg (Nat.not_lt.2 large)]
  split <;> omega

/-- Items that take places are heavy together. -/
theorem load_of_places (large : limit < 3 * least) (items : List α) :
    (load (places size limit least) items = 0 ∨ least ≤ load size items) ∧
    (load (places size limit least) items ≤ 1 ∨ limit < load size items + least) ∧
    (load (places size limit least) items ≤ 2 ∨ limit < load size items) := by
  induction items with
  | nil => exact ⟨.inl rfl, .inl (Nat.zero_le _), .inl (Nat.zero_le _)⟩
  | cons item rest ih =>
      rw [load_cons, load_cons]
      have one : places size limit least item = 0 ∨
          places size limit least item = 1 ∧ least ≤ size item ∨
          places size limit least item = 2 ∧ least ≤ size item ∧ limit < size item + least := by
        unfold places
        split
        · exact .inl rfl
        · split <;> omega
      omega

/-- The items of groups within the limit take no more than two places of each. -/
theorem load_places_le (large : limit < 3 * least) (within : ∀ group ∈ groups, load size group ≤ limit)
    (same : groups.flatten.Perm all) : load (places size limit least) all ≤ groups.length * 2 := by
  rw [← load_eq_of_perm same, load_flatten]
  apply load_le_mul
  intro group member
  exact (load_of_places large group).2.2.resolve_right (Nat.not_lt.2 (within group member))

namespace Bucket

variable {buckets : List (Bucket α)} {lightest : Bucket α}

/-- A bucket beside whose items there is no room for one more that is no larger has no place left. -/
theorem two_le_load_places {placed : List α} (larger : ∀ other ∈ placed, least ≤ size other)
    (least_le : least ≤ limit) (full : limit < load size placed + least) :
    2 ≤ load (places size limit least) placed := by
  match placed with
  | [] => exact absurd full (by simpa [load] using least_le)
  | [only] =>
      have large := larger only List.mem_cons_self
      rw [load_cons] at full ⊢
      rw [places, if_neg (Nat.not_lt.2 large), if_pos (by simpa [load] using full)]
      exact Nat.le_add_right _ _
  | first :: second :: rest =>
      have ofFirst : 1 ≤ places size limit least first := one_le_places (larger first List.mem_cons_self)
      have ofSecond : 1 ≤ places size limit least second :=
        one_le_places (larger second (List.mem_cons_of_mem _ List.mem_cons_self))
      rw [load_cons, load_cons]
      omega

/-- Whether items are being dealt out: some are in the buckets, and others wait that are no larger. -/
structure Deals (size : α → Nat) (all : List α) (buckets : List (Bucket α)) (waiting : List α) : Prop where
  nonempty : buckets ≠ []
  whole : ((buckets.map Bucket.items).flatten ++ waiting).Perm all
  even : Even size buckets
  sorted : waiting.Pairwise fun first second => size second ≤ size first
  smaller : ∀ placed ∈ (buckets.map Bucket.items).flatten, ∀ item ∈ waiting, size item ≤ size placed

variable {waiting : List α}

theorem Deals.load_eq (deals : Deals size all buckets waiting) (weight : α → Nat) :
    load (load weight) (buckets.map Bucket.items) + load weight waiting = load weight all := by
  rw [← load_flatten, ← load_append, load_eq_of_perm deals.whole]

theorem Deals.total_le (deals : Deals size all buckets waiting) (member : lightest ∈ buckets) :
    lightest.total + load size waiting ≤ load size all := by
  have inside : load size lightest.items ≤ load (load size) (buckets.map Bucket.items) :=
    load_le_of_mem (List.mem_map_of_mem member)
  rw [← deals.load_eq size, deals.even.exact lightest member]
  exact Nat.add_le_add_right inside _

/-- The next of the items is placed, and the others wait. -/
theorem Deals.place (deals : Deals size all buckets (item :: waiting)) (fits : load size all ≤ maxTotal) :
    Deals size all (place item (size item) buckets) waiting := by
  have placed := flatten_place_perm item (size item) deals.nonempty
  rcases List.pairwise_cons.1 deals.sorted with ⟨largest, sorted⟩
  refine ⟨place_ne_nil item _ deals.nonempty, ?_, ?_, sorted, ?_⟩
  · exact (placed.append_right waiting).trans (List.perm_middle.symm.trans deals.whole)
  · apply deals.even.place deals.nonempty
    intro bucket member
    have total := deals.total_le member
    rw [load_cons] at total
    omega
  · intro earlier member other later
    rcases List.mem_cons.1 (placed.mem_iff.1 member) with rfl | before
    · exact largest other later
    · exact deals.smaller earlier before other (List.mem_cons_of_mem _ later)

/-- The lightest bucket has room for the next item within the limit, or the item is small. -/
theorem Deals.fits_or_small (deals : Deals size all buckets (item :: waiting))
    (least : ∀ other ∈ buckets, lightest.total ≤ other.total) (length : groups.length = buckets.length)
    (same : groups.flatten.Perm all) (within : ∀ group ∈ groups, load size group ≤ limit) :
    lightest.total + size item ≤ limit ∨ 3 * size item ≤ limit := by
  by_contra neither
  push Not at neither
  rcases neither with ⟨full, large⟩
  have room := load_places_le large within same
  have taken : buckets.length * 2 ≤ load (load (places size limit (size item))) (buckets.map Bucket.items) := by
    rw [← List.length_map (f := Bucket.items)]
    apply mul_le_load
    rintro _ isMapped
    rcases List.mem_map.1 isMapped with ⟨bucket, member, rfl⟩
    apply two_le_load_places
    · intro placed inBucket
      exact deals.smaller placed (List.mem_flatten_of_mem (List.mem_map_of_mem member) inBucket) item List.mem_cons_self
    · -- The item is in one of the groups itself.
      have inAll : item ∈ all := deals.whole.mem_iff.1 (List.mem_append_right _ List.mem_cons_self)
      rcases List.mem_flatten.1 (same.mem_iff.2 inAll) with ⟨group, isGroup, inGroup⟩
      exact (load_le_of_mem inGroup).trans (within group isGroup)
    · have heavy := least bucket member
      rw [deals.even.exact bucket member] at heavy
      omega
  have whole := deals.load_eq (places size limit (size item))
  have itself : 1 ≤ places size limit (size item) item := one_le_places (le_refl (size item))
  rw [load_cons] at whole
  omega

/-- All buckets together are no lighter than as many times the lightest one. -/
theorem Deals.mul_total_le (deals : Deals size all buckets (item :: waiting))
    (least : ∀ other ∈ buckets, lightest.total ≤ other.total) :
    buckets.length * lightest.total + size item ≤ load size all := by
  have each : buckets.length * lightest.total ≤ load (load size) (buckets.map Bucket.items) := by
    rw [← List.length_map (f := Bucket.items)]
    apply mul_le_load
    rintro _ isMapped
    rcases List.mem_map.1 isMapped with ⟨bucket, member, rfl⟩
    exact (least bucket member).trans_eq (deals.even.exact bucket member)
  have whole := deals.load_eq size
  rw [load_cons] at whole
  omega

/-- Whether no bucket is heavier than groups within a limit allow. -/
def WithinFactor (limit : Nat) (buckets : List (Bucket α)) : Prop :=
  ∀ bucket ∈ buckets, 3 * buckets.length * bucket.total ≤ (4 * buckets.length - 1) * limit

/-- One more item that fits within the limit, or is small while the average is within it, leaves a bucket within the
factor of the limit. -/
theorem mul_add_le_of_fits_or_small {number lightest added : Nat} (some : number ≠ 0)
    (fits : lightest + added ≤ limit ∨ 3 * added ≤ limit)
    (average : number * lightest + added ≤ number * limit) :
    3 * number * (lightest + added) ≤ (4 * number - 1) * limit := by
  obtain ⟨others, rfl⟩ := Nat.exists_eq_succ_of_ne_zero some
  rw [show 4 * (others + 1) - 1 = 3 * (others + 1) + others by omega]
  rcases fits with fits | small
  · calc 3 * (others + 1) * (lightest + added)
      _ ≤ 3 * (others + 1) * limit := Nat.mul_le_mul_left _ fits
      _ ≤ (3 * (others + 1) + others) * limit := Nat.mul_le_mul_right _ (Nat.le_add_right _ _)
  · calc 3 * (others + 1) * (lightest + added)
      _ = 3 * ((others + 1) * lightest + added) + others * (3 * added) := by ring
      _ ≤ 3 * ((others + 1) * limit) + others * limit := by gcongr
      _ = (3 * (others + 1) + others) * limit := by ring

/-- Buckets stay within the factor of other groups when the next item is placed. -/
theorem WithinFactor.place (factor : WithinFactor limit buckets) (deals : Deals size all buckets (item :: waiting))
    (length : groups.length = buckets.length) (same : groups.flatten.Perm all)
    (within : ∀ group ∈ groups, load size group ≤ limit) :
    WithinFactor limit (Bucket.place item (size item) buckets) := by
  obtain ⟨before, lightest, after, split, least, placed⟩ := exists_place_eq item (size item) deals.nonempty
  have together : load size all ≤ buckets.length * limit := by
    rw [← length, ← load_eq_of_perm same, load_flatten]
    exact load_le_mul within
  have bounded := mul_add_le_of_fits_or_small (List.length_pos_of_ne_nil deals.nonempty).ne'
    (deals.fits_or_small least length same within) ((deals.mul_total_le least).trans together)
  intro bucket member
  rw [length_place item _ deals.nonempty]
  rw [placed] at member
  rcases List.mem_append.1 member with earlier | later
  · exact factor bucket (split ▸ List.mem_append_left _ earlier)
  rcases List.mem_cons.1 later with rfl | later
  · exact (Nat.mul_le_mul_left _ (Nat.min_le_right _ _)).trans bounded
  · exact factor bucket (split ▸ List.mem_append_right _ (List.mem_cons_of_mem _ later))

/-- Buckets stay within the factor of other groups while all items are dealt out. -/
theorem WithinFactor.deal (factor : WithinFactor limit buckets) (deals : Deals size all buckets waiting)
    (fits : load size all ≤ maxTotal) (length : groups.length = buckets.length) (same : groups.flatten.Perm all)
    (within : ∀ group ∈ groups, load size group ≤ limit) :
    WithinFactor limit (Bucket.deal size waiting buckets) ∧ Deals size all (Bucket.deal size waiting buckets) [] := by
  induction waiting generalizing buckets with
  | nil => exact ⟨factor, deals⟩
  | cons item rest ih =>
      rw [Bucket.deal, List.foldl_cons, ← Bucket.deal]
      apply ih (factor.place deals length same within) (deals.place fits)
      rw [length, length_place item _ deals.nonempty]

/-- At first all buckets are empty. -/
theorem deals_replicate (size : α → Nat) (number : Nat) (some : number ≠ 0) (items : List α) :
    Deals size items (List.replicate number {}) (largestFirst size items) where
  nonempty := by simpa using some
  whole := by simpa using largestFirst_perm size items
  even := even_replicate size number
  sorted := pairwise_largestFirst size items
  smaller := by simp

end Bucket

/-- No way to deal the same items out to as many groups has a heaviest group that is much lighter than the heaviest
bucket, if the sizes add up to no more than the largest total: with `m` buckets the factor is `(4 * m - 1) / (3 * m)`. -/
theorem largest_balance_le (size : α → Nat) (buckets : Nat) (items : List α) (fits : load size items ≤ maxTotal)
    (groups : List (List α)) (length : groups.length = max buckets 1) (same : groups.flatten.Perm items) :
    3 * max buckets 1 * largest (load size) (balance size buckets items) ≤
      (4 * max buckets 1 - 1) * largest (load size) groups := by
  have some : max buckets 1 ≠ 0 := by omega
  have start := Bucket.deals_replicate size (max buckets 1) some items
  have empty : Bucket.WithinFactor (largest (load size) groups) (List.replicate (max buckets 1) ({} : Bucket α)) := by
    intro bucket member
    rw [List.eq_of_mem_replicate member]
    exact Nat.zero_le _
  obtain ⟨factor, dealt⟩ := empty.deal start fits (by rw [length, List.length_replicate]) same fun _ => le_largest
  rcases largest_eq (load size) (balance size buckets items) with none | ⟨group, member, heaviest⟩
  · rw [none, Nat.mul_zero]
    exact Nat.zero_le _
  rw [balance_eq_deal] at member
  rcases List.mem_map.1 member with ⟨bucket, isBucket, rfl⟩
  have bounded := factor bucket isBucket
  rwa [Bucket.length_deal start.nonempty, List.length_replicate, dealt.even.exact bucket isBucket, ← heaviest]
    at bounded

/-- Five items make two buckets of seven and five, while two groups of six are possible: the factor is reached. -/
theorem largest_balance_le_five :
    load id [2, 2, 2, 3, 3] ≤ maxTotal ∧ largest (load id) (balance id 2 [2, 2, 2, 3, 3]) = 7 ∧
      largest (load id) [[3, 3], [2, 2, 2]] = 6 ∧ 3 * 2 * 7 ≤ (4 * 2 - 1) * 6 := by
  have fits : load id [2, 2, 2, 3, 3] ≤ maxTotal := by decide
  have sorted : largestFirst id [2, 2, 2, 3, 3] = [3, 3, 2, 2, 2] := by
    rw [largestFirst, List.mergeSort_of_pairwise (by decide)]
    rfl
  have heaviest : largest (load id) (balance id 2 [2, 2, 2, 3, 3]) = 7 := by
    rw [balance_eq_deal, sorted]
    decide
  have bounded := largest_balance_le id 2 [2, 2, 2, 3, 3] fits [[3, 3], [2, 2, 2]] rfl (by decide)
  rw [heaviest] at bounded
  exact ⟨fits, heaviest, rfl, bounded⟩

end AddonIndex
