import AddonIndex.Proofs.ClassConfig.Expression

/-!
# Looking up classes

A path of names is followed from the top level to the first class of each name. So a class is found
exactly if it is the first of its name at every level of its path. A class that is not hidden by an
earlier one of the same name, at its own level or at one above, cannot be missed.
-/

namespace AddonIndex.ClassConfig

variable {classes : List ConfigClass} {name : Text} {names : List Text} {found outer : ConfigClass}

/-- Whether a class is one of some classes and has a name, up to the case of ASCII letters. -/
structure IsNamed (classes : List ConfigClass) (name : Text) (found : ConfigClass) : Prop where
  member : found ∈ classes
  named : Text.sameIgnoringCase found.name name

/-- Whether a class is the first one of some classes that has a name. -/
structure IsFirstNamed (classes : List ConfigClass) (name : Text) (found : ConfigClass) : Prop where
  named : Text.sameIgnoringCase found.name name
  first : ∃ before after, classes = before ++ found :: after ∧
    ∀ earlier ∈ before, ¬ Text.sameIgnoringCase earlier.name name

/-- Whether a path of names, of which there is at least one, leads to a class: each name picks one of
the classes that are in the class before. -/
inductive ReachedBy (picks : List ConfigClass → Text → ConfigClass → Prop) :
    List ConfigClass → List Text → ConfigClass → Prop
  | last {classes : List ConfigClass} {name : Text} {found : ConfigClass} (picked : picks classes name found) :
      ReachedBy picks classes [name] found
  | inner {classes : List ConfigClass} {name : Text} {outer : ConfigClass} {names : List Text}
      {found : ConfigClass} (picked : picks classes name outer)
      (inside : ReachedBy picks outer.classes names found) : ReachedBy picks classes (name :: names) found

/-- Whether one of the names of a path is the name of two classes at its level, where the names before
lead to the first classes that have them. -/
inductive MeetsRepeated : List ConfigClass → List Text → Prop
  | here {classes : List ConfigClass} {name : Text} {names : List Text} {earlier later : ConfigClass}
      (order : [earlier, later].Sublist classes) (earlierNamed : Text.sameIgnoringCase earlier.name name)
      (laterNamed : Text.sameIgnoringCase later.name name) : MeetsRepeated classes (name :: names)
  | inside {classes : List ConfigClass} {name : Text} {outer : ConfigClass} {names : List Text}
      (picked : IsFirstNamed classes name outer) (meets : MeetsRepeated outer.classes names) :
      MeetsRepeated classes (name :: names)

/-- The names between the slashes of a path, apart from empty ones. -/
def pathNames (path : Text) : List Text := (path.split (· == '/')).filter (· ≠ [])

/-! ## One level -/

theorem IsFirstNamed.isNamed (picked : IsFirstNamed classes name found) : IsNamed classes name found := by
  obtain ⟨before, after, rfl, -⟩ := picked.first
  exact ⟨List.mem_append_right before List.mem_cons_self, picked.named⟩

theorem classNamed?_eq_some_iff : classNamed? classes name = some found ↔ IsFirstNamed classes name found := by
  rw [classNamed?, List.find?_eq_some_iff_append]
  constructor
  · rintro ⟨named, before, after, split, none⟩
    exact ⟨named, before, after, split, by simpa using none⟩
  · rintro ⟨named, before, after, split, none⟩
    exact ⟨named, before, after, split, by simpa using none⟩

theorem IsNamed.classNamed?_ne_none (picked : IsNamed classes name found) : classNamed? classes name ≠ none := by
  intro missed
  exact List.find?_eq_none.1 missed found picked.member picked.named

/-- A class of some name is the first one, or comes after it. -/
theorem IsNamed.eq_or_sublist (picked : IsNamed classes name found) (isFirst : IsFirstNamed classes name outer) :
    found = outer ∨ [outer, found].Sublist classes := by
  obtain ⟨before, after, rfl, none⟩ := isFirst.first
  rcases List.mem_append.1 picked.member with inBefore | inRest
  · exact absurd picked.named (none found inBefore)
  · rcases List.mem_cons.1 inRest with rfl | inAfter
    · exact .inl rfl
    · exact .inr (((List.singleton_sublist.2 inAfter).cons_cons outer).trans (List.sublist_append_right _ _))

/-! ## Paths -/

theorem ReachedBy.mono {picks others : List ConfigClass → Text → ConfigClass → Prop}
    (weaker : ∀ classes name found, picks classes name found → others classes name found)
    (leads : ReachedBy picks classes names found) : ReachedBy others classes names found := by
  induction leads with
  | last picked => exact .last (weaker _ _ _ picked)
  | inner picked _ ih => exact .inner (weaker _ _ _ picked) ih

theorem ReachedBy.ne_nil {picks : List ConfigClass → Text → ConfigClass → Prop}
    (leads : ReachedBy picks classes names found) : names ≠ [] := by
  cases leads <;> exact List.cons_ne_nil _ _

/-- After the first name a path is followed in the class of that name. -/
theorem classAt?_cons (nonempty : names ≠ []) :
    classAt? classes (name :: names) =
      (classNamed? classes name).bind fun outer => classAt? outer.classes names := by
  obtain ⟨next, rest, rfl⟩ := List.exists_cons_of_ne_nil nonempty
  rw [classAt?]
  cases classNamed? classes name <;> rfl

/-- The class at a path is the one to which the first classes of its names lead. -/
theorem classAt?_eq_some_iff : classAt? classes names = some found ↔ ReachedBy IsFirstNamed classes names found := by
  induction names generalizing classes with
  | nil => exact ⟨nofun, nofun⟩
  | cons name rest ih =>
      by_cases single : rest = []
      · subst single
        rw [classAt?, classNamed?_eq_some_iff]
        constructor
        · exact .last
        · intro leads
          cases leads with
          | last picked => exact picked
          | inner _ inside => exact absurd rfl inside.ne_nil
      · rw [classAt?_cons single, Option.bind_eq_some_iff]
        constructor
        · rintro ⟨outer, picked, inside⟩
          exact .inner (classNamed?_eq_some_iff.1 picked) (ih.1 inside)
        · intro leads
          cases leads with
          | last => exact absurd rfl single
          | inner picked inside => exact ⟨_, classNamed?_eq_some_iff.2 picked, ih.2 inside⟩

/-- A path that leads to a class without finding one meets a name of two classes. -/
theorem ReachedBy.meetsRepeated (leads : ReachedBy IsNamed classes names found)
    (missed : classAt? classes names = none) : MeetsRepeated classes names := by
  induction leads with
  | last picked => exact absurd missed picked.classNamed?_ne_none
  | @inner classes name outer names found picked inside ih =>
      rw [classAt?_cons inside.ne_nil] at missed
      obtain ⟨chosen, isChosen⟩ := Option.ne_none_iff_exists'.1 picked.classNamed?_ne_none
      have isFirst := classNamed?_eq_some_iff.1 isChosen
      rw [isChosen, Option.bind_some] at missed
      rcases picked.eq_or_sublist isFirst with rfl | order
      · exact .inside isFirst (ih missed)
      · exact .here order isFirst.named picked.named

/-- A class that is found is one to which the names of the path lead, namely through the first classes
that have them, and a class to which these lead is found. None is found although the names lead to some
class only where one of them is the name of two classes at its level. -/
theorem findClass?_follows_first (file : ConfigFile) (path : Text) :
    (∀ found, file.findClass? path = some found → ReachedBy IsNamed file.classes (pathNames path) found) ∧
    (∀ found, file.findClass? path = some found ↔ ReachedBy IsFirstNamed file.classes (pathNames path) found) ∧
    ∀ found, ReachedBy IsNamed file.classes (pathNames path) found → file.findClass? path = none →
      MeetsRepeated file.classes (pathNames path) :=
  ⟨fun _ isFound => (classAt?_eq_some_iff.1 isFound).mono fun _ _ _ => IsFirstNamed.isNamed,
    fun _ => classAt?_eq_some_iff, fun _ leads missed => leads.meetsRepeated missed⟩

/-- A forward declaration of a class, and its definition with a class inside. -/
def declaredConfig : Text := "class A;\nclass A \x7b class B \x7b\x7d; \x7d;\n"

/-- The class inside. -/
def innerClass : ConfigClass := { name := ['B'], base := none, classes := [], assignments := [] }

/-- The file as it is read. -/
def declaredFile : ConfigFile :=
  { path := aloneFile
    classes :=
      [{ name := ['A'], base := none, classes := [], assignments := [] },
        { name := ['A'], base := none, classes := [innerClass], assignments := [] }]
    assignments := [] }

theorem innerClass_reached : ReachedBy IsNamed declaredFile.classes (pathNames "A/B") innerClass :=
  @ReachedBy.inner _ _ _ declaredFile.classes[1] _ _ ⟨List.mem_cons_of_mem _ List.mem_cons_self, by decide⟩
    (.last ⟨List.mem_cons_self, by decide⟩)

/-- The declaration is found, the class inside the definition is not, and the reason is the name that
both have. -/
theorem declaredFile_follows_first :
    declaredFile.findClass? "/a/" = some { name := ['A'], base := none, classes := [], assignments := [] } ∧
      declaredFile.findClass? "A/B" = none ∧ MeetsRepeated declaredFile.classes (pathNames "A/B") := by
  have missed : declaredFile.findClass? "A/B" = none := rfl
  refine ⟨((findClass?_follows_first declaredFile "/a/").2.1 _).2 ?_, missed,
    (findClass?_follows_first declaredFile "A/B").2.2 innerClass innerClass_reached missed⟩
  exact .last ⟨by decide, [], _, rfl, nofun⟩

/-- A class inside a definition is not found where a declaration of the same name comes first. -/
theorem definition_hidden_by_declaration :
    readConfig (aloneTree declaredConfig) aloneFile ⟨[]⟩ = .ok { file := declaredFile, definitions := [] } ∧
      ReachedBy IsNamed declaredFile.classes (pathNames "A/B") innerClass ∧
      declaredFile.findClass? "A/B" = none := by
  have preprocessed : preprocess (aloneTree declaredConfig) aloneFile ⟨[]⟩ =
      .ok (["class A;".toList, "class A \x7b class B \x7b\x7d; \x7d;".toList], {}) := by
    unfold preprocess preprocessFile maxInclusionDepth
    simp only
    rw [sourceLines_alone]
    rfl
  have scanned : scan (endLines ["class A;".toList, "class A \x7b class B \x7b\x7d; \x7d;".toList]) = .ok
      [⟨.word classKeyword, 1⟩, ⟨.word ['A'], 1⟩, ⟨.semicolon, 1⟩, ⟨.word classKeyword, 2⟩, ⟨.word ['A'], 2⟩,
        ⟨.openBrace, 2⟩, ⟨.word classKeyword, 2⟩, ⟨.word ['B'], 2⟩, ⟨.openBrace, 2⟩, ⟨.closeBrace, 2⟩,
        ⟨.semicolon, 2⟩, ⟨.closeBrace, 2⟩, ⟨.semicolon, 2⟩] := by
    decide +kernel
  refine ⟨?_, innerClass_reached, rfl⟩
  rw [readConfig, preprocessed, ok_bind]
  simp only [readText, scanned]
  rfl

end AddonIndex.ClassConfig
