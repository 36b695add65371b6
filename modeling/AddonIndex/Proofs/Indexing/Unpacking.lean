import AddonIndex.Proofs.Indexing.Extraction

/-!
# Tools that put files where nothing is

Tools that do no more than put new files where they are to write. They write
below their directories, whatever the files are.
-/

namespace AddonIndex.Indexing

open FileTree

variable {tree first second : FileTree} {place : Location} {name : Text} {planted : Entry}

/-- A tree with something new in a directory. It is put only where nothing is. -/
def plant (tree : FileTree) (place : Location) (name : Text) (entry : Entry) : FileTree :=
  if (tree.entryAt? place).any Entry.isDirectory ∧ (tree.entryAt? (place ++ [name])).isNone ∧
      Path.IsName name then tree.put (place ++ [name]) entry
  else tree

theorem workingDirectory_plant :
    (plant tree place name planted).workingDirectory = tree.workingDirectory := by
  unfold plant
  split
  · exact workingDirectory_put _ _
  · rfl

/-- What is planted is found if the directory is there, and nothing was in its place. -/
theorem entryAt?_plant (tree : FileTree) (place : Location) (name : Text) (planted : Entry) (other : Location) :
    (plant tree place name planted).entryAt? other =
      if ((tree.entryAt? place).any Entry.isDirectory ∧ (tree.entryAt? (place ++ [name])).isNone ∧ Path.IsName name) ∧
          other = place ++ [name] then some planted
      else tree.entryAt? other := by
  unfold plant
  split
  · rename_i guard
    rw [entryAt?_put]
    by_cases here : other = place ++ [name]
    · rw [if_pos ⟨by simp [here], here⟩, if_pos ⟨guard, here⟩]
    · rw [if_neg fun both => here both.2, if_neg fun both => here both.2]
  · rename_i guard
    rw [if_neg fun both => guard both.1]

/-- Where the same is in two trees, the same is planted. -/
theorem entryAt?_plant_congr {other : Location} (parent : second.entryAt? place = first.entryAt? place)
    (target : second.entryAt? (place ++ [name]) = first.entryAt? (place ++ [name]))
    (same : second.entryAt? other = first.entryAt? other) :
    (plant second place name planted).entryAt? other = (plant first place name planted).entryAt? other := by
  rw [entryAt?_plant, entryAt?_plant, parent, target, same]

theorem plant_cases : plant tree place name planted = tree ∨
    tree.entryAt? place = some .directory ∧ tree.entryAt? (place ++ [name]) = none ∧ Path.IsName name ∧
      ∀ other, (plant tree place name planted).entryAt? other =
        if other = place ++ [name] then some planted else tree.entryAt? other := by
  unfold plant
  split
  · rename_i guard
    obtain ⟨isDirectory, isNone, isName⟩ := guard
    refine .inr ⟨?_, Option.isNone_iff_eq_none.1 isNone, isName, fun other => ?_⟩
    · cases there : tree.entryAt? place with
      | none => simp [there] at isDirectory
      | some entry =>
          cases entry with
          | directory => rfl
          | file content executable => simp [there, Entry.isDirectory] at isDirectory
    · rw [entryAt?_put]
      by_cases here : other = place ++ [name]
      · rw [if_pos ⟨by simp [here], here⟩, if_pos here]
      · rw [if_neg fun both => here both.2, if_neg here]
  · exact .inl rfl

theorem wellFormed_plant (formed : tree.WellFormed) : (plant tree place name planted).WellFormed := by
  have distinct : (plant tree place name planted).Distinct := by
    unfold plant
    split
    · cases planted with
      | directory => exact formed.distinct.apply (.makeDirectory _)
      | file content executable => exact formed.distinct.apply (.putFile _ content executable)
    · exact formed.distinct
  rcases plant_cases with same | ⟨parent, missing, isName, entryAt?⟩
  · rw [same]
    exact formed
  refine ⟨distinct, fun item member => ?_, fun other last entry there => ?_⟩
  · by_cases top : item.1 = []
    · rw [top]
      exact List.forall_mem_nil _
    · have there := (distinct.mem_entries_iff top).1 member
      rw [entryAt?] at there
      split at there
      · rename_i here
        rw [here]
        intro part inWay
        rcases List.mem_append.1 inWay with inPlace | isLast
        · exact formed.names parent part inPlace
        · rwa [List.mem_singleton.1 isLast]
      · exact formed.names there
  · have above : tree.entryAt? other = some .directory := by
      rw [entryAt?] at there
      split at there
      · rename_i here
        rwa [(List.append_inj' here rfl).1]
      · exact formed.grounded other last entry there
    rw [entryAt?, if_neg, above]
    rintro rfl
    rw [missing] at above
    cases above

theorem extendsBelow_plant {target : Location} (formed : tree.WellFormed)
    (onWay : place ++ [name] <+: target ∧ planted = .directory ∨ place = target) :
    ExtendsBelow target tree (plant tree place name planted) := by
  refine ⟨wellFormed_plant formed, workingDirectory_plant, fun other => ?_⟩
  rcases plant_cases with same | ⟨-, missing, -, entryAt?⟩
  · exact .inl (by rw [same])
  · rw [entryAt?]
    split
    · rename_i here
      subst here
      rcases onWay with ⟨above, rfl⟩ | rfl
      · exact .inr (.inr ⟨above, missing, rfl⟩)
      · exact .inr (.inl ⟨List.prefix_append _ _, fun same => by simpa using congrArg List.length same⟩)
    · exact .inl rfl

/-- A tree with the directories on the way down from a place by names. -/
def plantWay : FileTree → Location → List Text → FileTree
  | tree, _, [] => tree
  | tree, place, name :: rest => plantWay (plant tree place name .directory) (place ++ [name]) rest

theorem extendsBelow_plantWay (formed : tree.WellFormed) (place : Location) (names : List Text) :
    ExtendsBelow (place ++ names) tree (plantWay tree place names) := by
  induction names generalizing tree place with
  | nil => exact .refl formed _
  | cons name rest ih =>
      have first : ExtendsBelow (place ++ [name] ++ rest) tree (plant tree place name .directory) :=
        extendsBelow_plant formed (.inl ⟨List.prefix_append _ _, rfl⟩)
      rw [List.append_cons]
      exact first.trans (ih first.formed _)

/-- A way that is there in part is completed alike. -/
theorem entryAt?_plantWay_congr {names : List Text} (formed : second.WellFormed)
    (parent : second.entryAt? place = first.entryAt? place)
    (onWay : ∀ passed, passed <+: place ++ names → second.entryAt? passed = first.entryAt? passed ∨
      first.entryAt? passed = none ∧ second.entryAt? passed = some .directory) {other : Location}
    (same : second.entryAt? other = first.entryAt? other ∨ place <+: other ∧ other <+: place ++ names) :
    (plantWay second place names).entryAt? other = (plantWay first place names).entryAt? other := by
  induction names generalizing first second place with
  | nil =>
      rcases same with same | ⟨below, above⟩
      · exact same
      · rw [List.append_nil] at above
        rw [above.eq_of_length_le below.length_le]
        exact parent
  | cons name rest ih =>
      -- Afterwards the directory is there in both trees, or in neither.
      have next : (plant second place name .directory).entryAt? (place ++ [name]) =
          (plant first place name .directory).entryAt? (place ++ [name]) := by
        rcases onWay (place ++ [name]) ⟨rest, by simp⟩ with agree | ⟨missing, there⟩
        · exact entryAt?_plant_congr parent agree agree
        · have isName := formed.names there name (List.mem_append_right _ (List.mem_singleton_self _))
          have above : first.entryAt? place = some .directory :=
            parent.symm.trans (formed.above there (List.cons_ne_nil _ _))
          rw [entryAt?_plant, entryAt?_plant, parent, above, missing, there]
          simp [Entry.isDirectory, isName]
      have others : ∀ passed, second.entryAt? passed = first.entryAt? passed →
          (plant second place name .directory).entryAt? passed =
            (plant first place name .directory).entryAt? passed := by
        intro passed agree
        by_cases here : passed = place ++ [name]
        · rw [here, next]
        · rw [entryAt?_plant, entryAt?_plant, if_neg fun both => here both.2, if_neg fun both => here both.2, agree]
      apply ih (wellFormed_plant formed) next
      · intro passed isPrefix
        rcases onWay passed (by simpa using isPrefix) with agree | ⟨missing, there⟩
        · exact .inl (others passed agree)
        · by_cases here : passed = place ++ [name]
          · exact .inl (here ▸ next)
          · rw [entryAt?_plant, entryAt?_plant, if_neg fun both => here both.2, if_neg fun both => here both.2]
            exact .inr ⟨missing, there⟩
      · rcases same with agree | ⟨below, above⟩
        · exact .inl (others other agree)
        · by_cases here : other = place
          · exact .inl (here ▸ others place parent)
          · refine .inr ⟨?_, by simpa using above⟩
            rcases below with ⟨more, rfl⟩
            cases more with
            | nil => exact absurd (List.append_nil _) here
            | cons part more =>
                rw [List.prefix_append_right_inj, List.cons_prefix_cons] at above
                rw [above.1]
                exact ⟨more, by simp⟩

/-- A tree with files of some names and texts in a directory. -/
def plantFiles (place : Location) (files : List (Text × Text)) (tree : FileTree) : FileTree :=
  files.foldl (fun tree file => plant tree place file.1 (.file file.2.encode false)) tree

theorem extendsBelow_plantFiles (formed : tree.WellFormed) (place : Location) (files : List (Text × Text)) :
    ExtendsBelow place tree (plantFiles place files tree) := by
  induction files generalizing tree with
  | nil => exact .refl formed _
  | cons file rest ih =>
      have first : ExtendsBelow place tree (plant tree place file.1 (.file file.2.encode false)) :=
        extendsBelow_plant formed (.inr rfl)
      exact first.trans (ih first.formed)

/-- Files are put alike into directories that hold the same. -/
theorem entryAt?_plantFiles_congr {files : List (Text × Text)}
    (below : ∀ passed, place <+: passed → second.entryAt? passed = first.entryAt? passed) {other : Location}
    (same : second.entryAt? other = first.entryAt? other) :
    (plantFiles place files second).entryAt? other = (plantFiles place files first).entryAt? other := by
  induction files generalizing first second with
  | nil => exact same
  | cons file rest ih =>
      have parent := below place List.prefix_rfl
      have target := below (place ++ [file.1]) (List.prefix_append _ _)
      apply ih
      · exact fun passed isBelow => entryAt?_plant_congr parent target (below passed isBelow)
      · exact entryAt?_plant_congr parent target same

/-- Tools that always succeed: the extractor writes some files, and the converter a text, each where
nothing is yet. -/
def unpackingTools (files : List (Text × Text)) (converted : Text) : ArchiveTools where
  check tree := { tree, reply := .outcome .success }
  extract _ directory _ tree :=
    let place := tree.location directory
    { tree := plantFiles place files (plantWay tree [] place), reply := .outcome .success }
  convert _ text _ tree :=
    let place := tree.location text
    { tree := plant tree place.dropLast (place.getLast?.getD []) (.file converted.encode false)
      reply := .outcome .success }

theorem extractsBelow_unpackingTools (files : List (Text × Text)) (converted : Text) :
    ExtractsBelow (unpackingTools files converted) := by
  intro archive directory limit tree formed
  have way := extendsBelow_plantWay formed [] (tree.location directory)
  exact way.trans (extendsBelow_plantFiles way.formed _ files)

theorem convertsInPlace_unpackingTools (files : List (Text × Text)) (converted : Text) :
    ConvertsInPlace (unpackingTools files converted) := by
  intro binary text limit tree formed
  refine ⟨wellFormed_plant formed, workingDirectory_plant, fun place elsewhere => ?_⟩
  change (plant tree (tree.location text).dropLast ((tree.location text).getLast?.getD []) _).entryAt? place = _
  generalize tree.location text = target at elsewhere ⊢
  rcases plant_cases with same | ⟨-, -, isName, entryAt?⟩
  · rw [same]
  -- Something was planted under a name, so the target is the place that ends with it.
  · rw [entryAt?, if_neg]
    cases last : target.getLast? with
    | none =>
        rw [last] at isName
        exact absurd rfl isName.nonempty
    | some name =>
        obtain ⟨front, rfl⟩ := List.getLast?_eq_some_iff.1 last
        simpa using elsewhere

end AddonIndex.Indexing
