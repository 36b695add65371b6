import AddonIndex.Balance
import AddonIndex.WorkerPool

/-!
# What workers are given

Dealing items out to buckets neither loses nor doubles one, and unless a worker
is refused every bucket with items is given to a worker.
-/

namespace AddonIndex

variable {α : Type}

namespace Bucket

theorem flatten_place_perm (item : α) (size : Nat) {buckets : List (Bucket α)} (nonempty : buckets ≠ []) :
    ((place item size buckets).map items).flatten.Perm (item :: (buckets.map items).flatten) := by
  induction buckets with
  | nil => exact absurd rfl nonempty
  | cons bucket others ih =>
      unfold place
      split
      · simp only [List.map_cons, List.flatten_cons, add, List.append_assoc, List.singleton_append]
        exact List.perm_middle
      · rename_i heavier
        have more : others ≠ [] := by
          rintro rfl
          exact heavier rfl
        rw [List.map_cons, List.flatten_cons, List.map_cons, List.flatten_cons]
        exact ((ih more).append_left _).trans List.perm_middle

theorem place_ne_nil (item : α) (size : Nat) {buckets : List (Bucket α)} (nonempty : buckets ≠ []) :
    place item size buckets ≠ [] := by
  cases buckets with
  | nil => exact absurd rfl nonempty
  | cons bucket others =>
      unfold place
      split <;> simp

end Bucket

theorem largestFirst_perm (size : α → Nat) (items : List α) : (largestFirst size items).Perm items :=
  (List.reverse_perm _).trans (List.mergeSort_perm _ _)

/-- The buckets hold the items, each once. -/
theorem flatten_balance_perm (size : α → Nat) (buckets : Nat) (items : List α) :
    (balance size buckets items).flatten.Perm items := by
  have filled : ∀ (items : List α) (buckets : List (Bucket α)), buckets ≠ [] →
      ((items.foldl (fun buckets item => Bucket.place item (size item) buckets) buckets).map
        Bucket.items).flatten.Perm (items ++ (buckets.map Bucket.items).flatten) := by
    intro items
    induction items with
    | nil => exact fun _ _ => .refl _
    | cons item rest ih =>
        intro buckets nonempty
        rw [List.foldl_cons]
        refine (ih _ (Bucket.place_ne_nil item _ nonempty)).trans ?_
        refine ((Bucket.flatten_place_perm item _ nonempty).append_left rest).trans ?_
        exact List.perm_middle
  unfold balance
  refine (filled _ _ ?_).trans ?_
  · have positive : 0 < max buckets 1 := by omega
    exact List.ne_nil_of_length_pos (by rwa [List.length_replicate])
  · have empty : ((List.replicate (max buckets 1) ({} : Bucket α)).map Bucket.items).flatten = [] := by
      simp
    rw [empty, List.append_nil]
    exact largestFirst_perm size items

namespace WorkerPool

/-- Every item of a bucket is assigned to a worker. -/
theorem flatMap_assignments (pool : WorkerPool) (bucket : Nat) (buckets : List (List α)) :
    (pool.assignments bucket buckets).flatMap Prod.snd = buckets.flatten := by
  induction buckets generalizing bucket with
  | nil => rfl
  | cons items rest ih =>
      unfold assignments
      split
      · rename_i empty
        rw [ih, List.flatten_cons, List.isEmpty_iff.1 empty, List.nil_append]
      · rw [List.flatMap_cons, ih, List.flatten_cons]

theorem workerName_injective (pool : WorkerPool) : Function.Injective pool.workerName := by
  intro first second same
  have digits : Nat.toDigits 10 first = Nat.toDigits 10 second :=
    (List.cons.inj (List.append_cancel_left same)).2
  rw [← @Nat.ofDigitChars_ten_toDigits first, digits, Nat.ofDigitChars_ten_toDigits]

theorem number_of_mem_assignments {pool : WorkerPool} {bucket : Nat} {buckets : List (List α)}
    {assignment : Text × List α} (member : assignment ∈ pool.assignments bucket buckets) :
    ∃ number, bucket ≤ number ∧ assignment.1 = pool.workerName number := by
  induction buckets generalizing bucket with
  | nil => cases member
  | cons items rest ih =>
      unfold assignments at member
      split at member
      · rcases ih member with ⟨number, later, name⟩
        exact ⟨number, Nat.le_of_succ_le later, name⟩
      · rcases List.mem_cons.1 member with rfl | member
        · exact ⟨bucket, Nat.le_refl bucket, rfl⟩
        · rcases ih member with ⟨number, later, name⟩
          exact ⟨number, Nat.le_of_succ_le later, name⟩

/-- The workers of different buckets have different names. -/
theorem nodup_assignments (pool : WorkerPool) (bucket : Nat) (buckets : List (List α)) :
    ((pool.assignments bucket buckets).map Prod.fst).Nodup := by
  induction buckets generalizing bucket with
  | nil => exact List.nodup_nil
  | cons items rest ih =>
      unfold assignments
      split
      · exact ih (bucket + 1)
      · apply List.nodup_cons.2
        constructor
        · intro member
          rcases List.mem_map.1 member with ⟨assignment, later, same⟩
          rcases number_of_mem_assignments later with ⟨number, above, name⟩
          have equal : number = bucket := pool.workerName_injective (name.symm.trans same)
          omega
        · exact ih (bucket + 1)

/-- No workers are started but those that are assigned something. -/
theorem prefix_of_start (refusals : Refusals) (assigned : List (Text × List α)) :
    (start refusals assigned).1 <+: assigned := by
  induction assigned with
  | nil => exact List.nil_prefix
  | cons first rest ih =>
      obtain ⟨worker, items⟩ := first
      unfold start
      split
      · exact List.nil_prefix
      · exact List.cons_prefix_cons.2 ⟨rfl, ih⟩

/-- A worker is given nothing but items that are dealt out. -/
theorem mem_of_started {pool : WorkerPool} {refusals : Refusals} {size : α → Nat} {count : Nat}
    {items bucket : List α} {worker : Text} {item : α}
    (started : (worker, bucket) ∈ (start refusals (pool.assignments 1 (balance size count items))).1)
    (inBucket : item ∈ bucket) : item ∈ items := by
  have assigned := (prefix_of_start refusals _).subset started
  have dealt : item ∈ (balance size count items).flatten := by
    rw [← flatMap_assignments pool 1]
    exact List.mem_flatMap.2 ⟨_, assigned, inBucket⟩
  exact (flatten_balance_perm size count items).mem_iff.1 dealt

/-- If no worker is refused all are started. -/
theorem start_eq_of_none {refusals : Refusals} {assigned started : List (Text × List α)}
    (starts : start refusals assigned = (started, none)) : started = assigned := by
  induction assigned generalizing started with
  | nil =>
      cases starts
      rfl
  | cons first rest ih =>
      obtain ⟨worker, items⟩ := first
      unfold start at starts
      split at starts
      · cases starts
      · generalize others : start refusals rest = startedRest at starts
        obtain ⟨startedRest, refused⟩ := startedRest
        obtain ⟨rfl, rfl⟩ := Prod.mk.inj starts
        rw [ih others]

end WorkerPool

end AddonIndex
