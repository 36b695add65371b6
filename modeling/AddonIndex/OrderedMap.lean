import AddonIndex.Text.Basic

/-!
# Maps in order of first insertion

A map from names to values that keeps its names in the order in which they were
first inserted. A later insertion under the same name replaces the value and
keeps the position.
-/

namespace AddonIndex

/-- Names with values, in order of first insertion. -/
abbrev OrderedMap (α : Type) := List (Text × α)

namespace OrderedMap

variable {α : Type}

/-- The value under a name. -/
def value? (map : OrderedMap α) (name : Text) : Option α := map.lookup name

/-- Whether a name is present. -/
def has (map : OrderedMap α) (name : Text) : Bool := (map.value? name).isSome

/-- The map with a value under a name. -/
def insert : OrderedMap α → Text → α → OrderedMap α
  | [], name, value => [(name, value)]
  | item :: rest, name, value =>
      if item.1 = name then (name, value) :: rest else item :: insert rest name value

/-- The map without a name. -/
def remove (map : OrderedMap α) (name : Text) : OrderedMap α := map.filter (·.1 ≠ name)

/-- The first map after insertion of all items of the second one. -/
def insertAll (map later : OrderedMap α) : OrderedMap α :=
  later.foldl (fun map item => map.insert item.1 item.2) map

/-- The names, in order of first insertion. -/
def names (map : OrderedMap α) : List Text := map.map (·.1)

theorem value?_insert (map : OrderedMap α) (name other : Text) (value : α) :
    (map.insert name value).value? other =
      if other = name then some value else map.value? other := by
  induction map with
  | nil =>
      by_cases same : other = name <;> simp [insert, value?, List.lookup_cons, same]
      rw [beq_false_of_ne same]
  | cons item rest ih =>
      obtain ⟨key, held⟩ := item
      unfold value? at ih ⊢
      by_cases here : key = name
      · subst here
        by_cases same : other = key
        · simp [insert, same]
        · simp [insert, List.lookup_cons, same, beq_false_of_ne same]
      · by_cases same : other = key
        · subst same
          simp [insert, here]
        · simp [insert, List.lookup_cons, here, beq_false_of_ne same, ih]

theorem value?_remove (map : OrderedMap α) (name other : Text) :
    (map.remove name).value? other = if other = name then none else map.value? other := by
  induction map with
  | nil => simp [remove, value?]
  | cons item rest ih =>
      obtain ⟨key, held⟩ := item
      unfold value? remove at ih ⊢
      by_cases here : key = name
      · subst here
        rw [List.filter_cons_of_neg (by simp), ih]
        by_cases same : other = key
        · simp [same]
        · simp [same, List.lookup_cons, beq_false_of_ne same]
      · rw [List.filter_cons_of_pos (by simpa using here)]
        by_cases same : other = key
        · simp [same, here]
        · rw [List.lookup_cons, List.lookup_cons, beq_false_of_ne same, ih]

theorem names_insert (map : OrderedMap α) (name : Text) (value : α) :
    (map.insert name value).names = if name ∈ map.names then map.names else map.names ++ [name] := by
  unfold names
  induction map with
  | nil => simp [insert]
  | cons item rest ih =>
      by_cases here : item.1 = name
      · simp [insert, here]
      · rw [insert, if_neg here, List.map_cons, ih, List.map_cons]
        by_cases later : name ∈ rest.map (·.1)
        · rw [if_pos later, if_pos (List.mem_cons_of_mem _ later)]
        · rw [if_neg later, if_neg (List.not_mem_cons_of_ne_of_not_mem (Ne.symm here) later), List.cons_append]

end OrderedMap

end AddonIndex
