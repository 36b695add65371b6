import AddonIndex.FileTree.Operation

/-!
# What a history of changes leaves

An entry is what the last change of its location made it, or what it was if no
change was about it. Which operation stops where does not matter for this.
-/

namespace AddonIndex

namespace FileTree

variable {tree : FileTree}

namespace Change

/-- The location that a change is about. -/
def location : Change → Location
  | makeDirectory place => place
  | putFile place _ _ => place
  | erase place => place

/-- Whether a change makes a directory. -/
def MakesDirectory (change : Change) : Prop := ∃ location, change = makeDirectory location

/-- Whether a change removes an entry. -/
def Erases (change : Change) : Prop := ∃ location, change = erase location

/-- The entry that a change leaves at its location. -/
def leaves? : Change → Option Entry
  | makeDirectory _ => some .directory
  | putFile _ content executable => some (.file content executable)
  | erase _ => none

end Change

/-! ## Looking up after one change -/

theorem lookup_cons_eq_ite (entries : List (Location × Entry)) (location other : Location)
    (entry : Entry) :
    ((location, entry) :: entries).lookup other =
      if other = location then some entry else entries.lookup other := by
  rw [List.lookup_cons]
  by_cases same : other = location
  · simp [same]
  · simp [same, beq_false_of_ne same]

theorem lookup_replace (entries : List (Location × Entry)) (location other : Location)
    (entry : Entry) :
    (entries.map fun item => if item.1 = location then (location, entry) else item).lookup other =
      if other = location ∧ (entries.lookup location).isSome then some entry
      else entries.lookup other := by
  induction entries with
  | nil => simp
  | cons item entries ih =>
      obtain ⟨first, old⟩ := item
      rw [List.map_cons]
      by_cases isLocation : first = location
      · subst isLocation
        rw [if_pos rfl, lookup_cons_eq_ite, lookup_cons_eq_ite, lookup_cons_eq_ite, ih]
        by_cases isOther : other = first
        · simp [isOther]
        · simp [isOther]
      · rw [if_neg isLocation, lookup_cons_eq_ite, lookup_cons_eq_ite, lookup_cons_eq_ite, ih,
          if_neg (Ne.symm isLocation)]
        by_cases isOther : other = first
        · simp [isOther, isLocation]
        · simp [isOther]

theorem lookup_erase (entries : List (Location × Entry)) (location other : Location) :
    (entries.filter fun item => item.1 ≠ location).lookup other =
      if other = location then none else entries.lookup other := by
  induction entries with
  | nil => simp
  | cons item entries ih =>
      obtain ⟨first, old⟩ := item
      rw [lookup_cons_eq_ite]
      by_cases isLocation : first = location
      · subst isLocation
        rw [List.filter_cons_of_neg (by simp), ih]
        by_cases isOther : other = first
        · simp [isOther]
        · simp [isOther]
      · rw [List.filter_cons_of_pos (by simp [isLocation]), lookup_cons_eq_ite, ih]
        by_cases isOther : other = first
        · simp [isOther, isLocation]
        · simp [isOther]

@[simp]
theorem workingDirectory_put (location : Location) (entry : Entry) :
    (tree.put location entry).workingDirectory = tree.workingDirectory := by
  by_cases present : (tree.entries.lookup location).isSome <;> simp [put, present]

@[simp]
theorem entryAt?_put (location other : Location) (entry : Entry) :
    (tree.put location entry).entryAt? other =
      if other ≠ [] ∧ other = location then some entry else tree.entryAt? other := by
  by_cases atRoot : other = []
  · simp [entryAt?, atRoot]
  · by_cases present : (tree.entries.lookup location).isSome
    · simp [put, entryAt?, atRoot, lookup_replace, present]
    · by_cases isLocation : other = location
      · subst isLocation
        rw [Option.not_isSome_iff_eq_none] at present
        simp [put, entryAt?, atRoot, present, List.lookup_append]
      · simp [put, entryAt?, atRoot, present, isLocation, List.lookup_append, lookup_cons_eq_ite]

/-! ## Listing -/

theorem mem_entries_of_entryAt? {location : Location} {entry : Entry} (below : location ≠ [])
    (there : tree.entryAt? location = some entry) : (location, entry) ∈ tree.entries := by
  rw [entryAt?, if_neg below] at there
  obtain ⟨before, after, split, -⟩ := List.lookup_eq_some_iff.1 there
  rw [split]
  exact List.mem_append_right before List.mem_cons_self

/-- What is listed below a location are the entries there, by their way from it. -/
theorem mem_below_iff {location relative : Location} {entry : Entry} :
    (relative, entry) ∈ tree.below location ↔
      relative ≠ [] ∧ (location ++ relative, entry) ∈ tree.entries := by
  rw [below, List.mem_filterMap]
  constructor
  · rintro ⟨⟨place, other⟩, member, found⟩
    simp only at found
    split at found
    · rename_i name rest lead
      cases found
      exact ⟨List.cons_ne_nil name rest, dropLead?_eq_some_iff.1 lead ▸ member⟩
    · cases found
  · rintro ⟨nonempty, member⟩
    refine ⟨_, member, ?_⟩
    cases relative with
    | nil => exact absurd rfl nonempty
    | cons name rest => simp

/-! ## Histories -/

/-- One change decides what is at its location and leaves all else as it was. -/
theorem entryAt?_apply (change : Change) (other : Location) :
    (tree.apply change).entryAt? other =
      if other ≠ [] ∧ other = change.location then change.leaves? else tree.entryAt? other := by
  cases change with
  | makeDirectory place => exact entryAt?_put place other .directory
  | putFile place content executable => exact entryAt?_put place other (.file content executable)
  | erase place =>
      by_cases atRoot : other = []
      · simp [entryAt?, atRoot]
      · simp only [apply, entryAt?, atRoot, lookup_erase, if_false, ne_eq, not_false_eq_true, true_and]
        rfl

@[simp]
theorem workingDirectory_apply (change : Change) :
    (tree.apply change).workingDirectory = tree.workingDirectory := by
  cases change with
  | makeDirectory place => exact workingDirectory_put place .directory
  | putFile place content executable => exact workingDirectory_put place (.file content executable)
  | erase place => rfl

@[simp]
theorem workingDirectory_applyAll (tree : FileTree) (changes : List Change) :
    (tree.applyAll changes).workingDirectory = tree.workingDirectory := by
  induction changes generalizing tree with
  | nil => rfl
  | cons change changes ih => exact (ih (tree.apply change)).trans (workingDirectory_apply change)

theorem applyAll_cons (change : Change) (changes : List Change) :
    tree.applyAll (change :: changes) = (tree.apply change).applyAll changes :=
  rfl

/-- An entry that no change is about is what it was. -/
theorem entryAt?_applyAll_of_untouched {changes : List Change} {other : Location}
    (untouched : ∀ change ∈ changes, change.location ≠ other) :
    (tree.applyAll changes).entryAt? other = tree.entryAt? other := by
  induction changes generalizing tree with
  | nil => rfl
  | cons change changes ih =>
      rw [applyAll_cons, ih fun later member => untouched later (List.mem_cons_of_mem change member),
        entryAt?_apply, if_neg]
      rintro ⟨-, same⟩
      exact untouched change List.mem_cons_self same.symm

/-- An entry that some change is about is what the last such change left. -/
theorem exists_entryAt?_applyAll (tree : FileTree) {changes : List Change} {other : Location} (below : other ≠ [])
    {touching : Change} (member : touching ∈ changes) (touches : touching.location = other) :
    ∃ last ∈ changes, last.location = other ∧ (tree.applyAll changes).entryAt? other = last.leaves? := by
  induction changes generalizing tree touching with
  | nil => cases member
  | cons change changes ih =>
      by_cases later : ∃ next ∈ changes, next.location = other
      · obtain ⟨next, nextMember, nextTouches⟩ := later
        obtain ⟨last, lastMember, lastTouches, result⟩ :=
          ih (tree.apply change) nextMember nextTouches
        exact ⟨last, List.mem_cons_of_mem change lastMember, lastTouches, result⟩
      · have untouched : ∀ next ∈ changes, next.location ≠ other :=
          fun next nextMember same => later ⟨next, nextMember, same⟩
        rcases List.mem_cons.1 member with rfl | inRest
        · refine ⟨touching, List.mem_cons_self, touches, ?_⟩
          rw [applyAll_cons, entryAt?_applyAll_of_untouched untouched, entryAt?_apply,
            if_pos ⟨below, touches.symm⟩]
        · exact absurd touches (untouched touching inRest)

end FileTree

end AddonIndex
