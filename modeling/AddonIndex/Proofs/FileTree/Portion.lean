import AddonIndex.Proofs.FileTree.Confluence
import AddonIndex.Proofs.FileTree.Way

/-!
# Portions of a file tree

What paths lead to, and what is found below, is decided by a portion of the places: those that their ways pass, those
above and those below. Two trees that are alike there look alike along these paths, whatever they hold elsewhere. So
they can be compared by what is left of them if everything else is taken away.
-/

namespace AddonIndex

namespace FileTree

open Location

variable {portion : Location → Prop} {tree first second third : FileTree} {path : Path} {place : Location}

/-! ## What a path needs -/

/-- Whether a portion of the places holds all that the way along a path passes, and all that is above or below the place
to which it leads. -/
structure Covers (tree : FileTree) (portion : Location → Prop) (path : Path) : Prop where
  passed : ∀ passed ∈ visited (tree.start path) path.written, portion passed
  above : ∀ place, place <+: tree.location path → portion place
  below : ∀ place, tree.location path <+: place → portion place

/-- On the way to what is below a path one passes what is on the way along the path. -/
theorem mem_visited_join {passed : Location} {name : Text} (isName : Path.IsName name)
    (member : passed ∈ visited (tree.start path) path.written) :
    passed ∈ visited (tree.start (path.join name)) (path.join name).written := by
  have relative := isName.head?_ne_slash
  rw [start_join relative, Path.written_join relative, visited_append]
  exact List.mem_append_left _ member

namespace Covers

theorem congr (covers : tree.Covers portion path) (workingDirectory : second.workingDirectory = tree.workingDirectory) :
    second.Covers portion path := by
  have start : second.start path = tree.start path := by
    rw [FileTree.start, FileTree.start, workingDirectory]
  have leads := location_congr workingDirectory path
  rcases covers with ⟨passed, above, below⟩
  exact ⟨start ▸ passed, leads ▸ above, leads ▸ below⟩

theorem join {name : Text} (covers : tree.Covers portion path) (isName : Path.IsName name) :
    tree.Covers portion (path.join name) := by
  have leads : tree.location (path.join name) = tree.location path ++ [name] := location_join_name path isName
  constructor
  · intro passed member
    rw [start_join isName.head?_ne_slash, Path.written_join isName.head?_ne_slash, Path.written_name isName,
      visited_append] at member
    rcases List.mem_append.1 member with way | last
    · exact covers.passed passed way
    · rw [← FileTree.location.eq_1, visited, visited, step_name isName, List.mem_singleton] at last
      exact covers.below passed (last ▸ List.prefix_append _ _)
  · intro place isPrefix
    rw [leads, List.prefix_concat_iff] at isPrefix
    rcases isPrefix with rfl | above
    · exact covers.below _ (List.prefix_append _ _)
    · exact covers.above place above
  · intro place isBelow
    rw [leads] at isBelow
    exact covers.below place ((List.prefix_append _ _).trans isBelow)

theorem descend {names : List Text} (covers : tree.Covers portion path) (areNames : ∀ name ∈ names, Path.IsName name) :
    tree.Covers portion (path.descend names) := by
  induction names generalizing path with
  | nil => exact covers
  | cons name names ih =>
      rcases List.forall_mem_cons.1 areNames with ⟨isName, areNames⟩
      exact ih (covers.join isName) areNames

theorem mono {larger : Location → Prop} (covers : tree.Covers portion path)
    (mono : ∀ place, portion place → larger place) :
    tree.Covers larger path :=
  ⟨fun passed member => mono passed (covers.passed passed member),
    fun place above => mono place (covers.above place above),
    fun place below => mono place (covers.below place below)⟩

end Covers

/-- Whether a place is passed on the way along a path, or is above or below what the path leads to. -/
def IsOn (tree : FileTree) (path : Path) (place : Location) : Prop :=
  place ∈ visited (tree.start path) path.written ∨ place <+: tree.location path ∨ tree.location path <+: place

instance (tree : FileTree) (path : Path) (place : Location) : Decidable (tree.IsOn path place) :=
  inferInstanceAs (Decidable (_ ∨ _))

theorem covers_isOn (tree : FileTree) (path : Path) : tree.Covers (tree.IsOn path) path :=
  ⟨fun _ => .inl, fun _ above => .inr (.inl above), fun _ below => .inr (.inr below)⟩

theorem IsOn.congr (workingDirectory : second.workingDirectory = first.workingDirectory)
    (isOn : second.IsOn path place) :
    first.IsOn path place := by
  unfold IsOn at isOn ⊢
  rwa [FileTree.start, location_congr workingDirectory, workingDirectory, ← FileTree.start] at isOn

/-- Along names below a path one comes to no other names below it. -/
theorem prefix_or_prefix_of_isOn {base : Path} {names more : List Text} (areNames : ∀ name ∈ names, Path.IsName name)
    (avoids : tree.Avoids base (tree.location base ++ more)) (isOn : tree.IsOn (base.descend names) place)
    (within : tree.location base ++ more <+: place) : more <+: names ∨ names <+: more := by
  have leads := location_descend tree base areNames
  rcases isOn with passed | above | below
  · rw [start_descend tree base areNames, Path.written_descend base areNames, visited_append] at passed
    rcases List.mem_append.1 passed with way | last
    · exact absurd within (avoids place way)
    · have isPrefix : tree.location base ++ more <+: tree.location base ++ names :=
        within.trans (prefix_of_mem_visited areNames last)
      exact .inl ((List.prefix_append_right_inj _).1 isPrefix)
  · rw [leads] at above
    exact .inl ((List.prefix_append_right_inj _).1 (within.trans above))
  · rw [leads] at below
    rcases List.prefix_or_prefix_of_prefix within below with isPrefix | isPrefix
    · exact .inl ((List.prefix_append_right_inj _).1 isPrefix)
    · exact .inr ((List.prefix_append_right_inj _).1 isPrefix)

/-- What is on the way along names below a path is on the way along the path, or beyond it. -/
theorem IsOn.of_descend {base : Path} {names : List Text} (areNames : ∀ name ∈ names, Path.IsName name)
    (isOn : tree.IsOn (base.descend names) place) : tree.IsOn base place := by
  have comparable : place <+: tree.location base ++ names → tree.IsOn base place := fun isPrefix =>
    .inr (List.prefix_or_prefix_of_prefix isPrefix (List.prefix_append _ _))
  have leads := location_descend tree base areNames
  rcases isOn with passed | above | below
  · rw [start_descend tree base areNames, Path.written_descend base areNames, visited_append] at passed
    rcases List.mem_append.1 passed with way | last
    · exact .inl way
    · exact comparable (prefix_of_mem_visited areNames last)
  · exact comparable (leads ▸ above)
  · exact .inr (.inr ((List.prefix_append _ _).trans (leads ▸ below)))

/-! ## A tree without the rest -/

open Classical in
/-- What is left of a tree if everything outside a portion of the places is taken away. -/
noncomputable def restrict (portion : Location → Prop) (tree : FileTree) : FileTree :=
  { tree with entries := tree.entries.filter fun item => portion item.1 }

theorem mem_entries_restrict {item : Location × Entry} :
    item ∈ (tree.restrict portion).entries ↔ item ∈ tree.entries ∧ portion item.1 := by
  simp only [restrict, List.mem_filter, decide_eq_true_eq]

theorem Distinct.restrict (distinct : tree.Distinct) : (tree.restrict portion).Distinct :=
  (List.filter_sublist.map Prod.fst).nodup distinct

theorem Named.restrict (named : tree.Named) : (tree.restrict portion).Named where
  entries item member := named.entries item (mem_entries_restrict.1 member).1
  start := named.start

open Classical in
theorem entryAt?_restrict (distinct : tree.Distinct) (place : Location) :
    (tree.restrict portion).entryAt? place = if place = [] ∨ portion place then tree.entryAt? place else none := by
  by_cases root : place = []
  · rw [entryAt?, entryAt?, if_pos root, if_pos root, if_pos (.inl root)]
  apply Option.ext
  intro entry
  have left : (tree.restrict portion).Distinct := distinct.restrict
  rw [← left.mem_entries_iff root, mem_entries_restrict, distinct.mem_entries_iff root]
  by_cases inside : portion place
  · rw [if_pos (.inr inside)]
    exact and_iff_left inside
  · rw [if_neg (not_or.2 ⟨root, inside⟩)]
    exact iff_of_false (fun both => inside both.2) (Option.some_ne_none entry).symm

theorem entryAt?_restrict_of_mem (distinct : tree.Distinct) (inside : portion place) :
    (tree.restrict portion).entryAt? place = tree.entryAt? place := by
  rw [entryAt?_restrict distinct, if_pos (.inr inside)]

/-- Nothing that is listed below a place is taken away if everything below it is in the portion. -/
theorem below_restrict (inside : ∀ below, place <+: below → portion below) :
    (tree.restrict portion).below place = tree.below place := by
  unfold below restrict
  rw [List.filterMap_filter]
  apply List.filterMap_congr
  rintro ⟨location, entry⟩ -
  by_cases kept : portion location
  · simp only [kept, decide_true, if_true]
  · simp only [kept, decide_false, Bool.false_eq_true, if_false]
    cases lead : dropLead? place location with
    | none => rfl
    | some rest => exact absurd (inside location ⟨rest, (dropLead?_eq_some_iff.1 lead).symm⟩) kept

section Looking

variable (distinct : tree.Distinct) (covers : tree.Covers portion path)

include distinct covers

theorem find_restrict : (tree.restrict portion).find path = tree.find path :=
  find_eq_of_agree rfl fun passed member => entryAt?_restrict_of_mem distinct (covers.passed passed member)

theorem isDirectory_restrict : (tree.restrict portion).isDirectory path = tree.isDirectory path := by
  rw [isDirectory, isDirectory, find_restrict distinct covers]

theorem list_restrict : (tree.restrict portion).list path = tree.list path := by
  rw [list, list, find_restrict distinct covers]
  cases found : tree.find path with
  | error cause => rfl
  | ok there =>
      rcases there with ⟨place, _ | ⟨content, executable⟩⟩
      · have leads := find_location found
        simp only [bind, Except.bind, children, below_restrict (leads ▸ covers.below)]
      · rfl

theorem filesBelow_restrict : (tree.restrict portion).filesBelow path = tree.filesBelow path := by
  rw [filesBelow, filesBelow, find_restrict distinct covers]
  cases found : tree.find path with
  | error cause => rfl
  | ok there =>
      rcases there with ⟨place, _ | ⟨content, executable⟩⟩
      · have leads := find_location found
        simp only [below_restrict (leads ▸ covers.below)]
      · rfl

end Looking

/-! ## Trees that are alike there -/

/-- Whether two trees are alike in a portion of the places, and relative paths begin at the same place. -/
structure AlikeOn (portion : Location → Prop) (first second : FileTree) : Prop where
  formed : first.WellFormed
  formed_right : second.WellFormed
  workingDirectory : second.workingDirectory = first.workingDirectory
  entryAt? : ∀ place, portion place → second.entryAt? place = first.entryAt? place

namespace AlikeOn

theorem refl (formed : tree.WellFormed) : AlikeOn portion tree tree :=
  ⟨formed, formed, rfl, fun _ _ => rfl⟩

theorem symm (alike : AlikeOn portion first second) : AlikeOn portion second first where
  formed := alike.formed_right
  formed_right := alike.formed
  workingDirectory := alike.workingDirectory.symm
  entryAt? place inside := (alike.entryAt? place inside).symm

theorem trans (alike : AlikeOn portion first second) (other : AlikeOn portion second third) :
    AlikeOn portion first third where
  formed := alike.formed
  formed_right := other.formed_right
  workingDirectory := other.workingDirectory.trans alike.workingDirectory
  entryAt? place inside := (other.entryAt? place inside).trans (alike.entryAt? place inside)

theorem mono {smaller : Location → Prop} (alike : AlikeOn portion first second)
    (mono : ∀ place, smaller place → portion place) : AlikeOn smaller first second where
  formed := alike.formed
  formed_right := alike.formed_right
  workingDirectory := alike.workingDirectory
  entryAt? place inside := alike.entryAt? place (mono place inside)

theorem of_sameEntries (same : first.SameEntries second) (formed : first.WellFormed) : AlikeOn portion first second where
  formed := formed
  formed_right := same.wellFormed formed
  workingDirectory := same.workingDirectory
  entryAt? place _ := same.entryAt? place

/-- Without the rest the trees hold the same entries. -/
theorem restrict (alike : AlikeOn portion first second) :
    (first.restrict portion).SameEntries (second.restrict portion) where
  distinct := alike.formed.distinct.restrict
  distinct_right := alike.formed_right.distinct.restrict
  workingDirectory := alike.workingDirectory
  entryAt? place := by
    rw [entryAt?_restrict alike.formed.distinct, entryAt?_restrict alike.formed_right.distinct]
    by_cases inside : portion place
    · rw [alike.entryAt? place inside]
    · by_cases root : place = []
      · rw [root]
        rfl
      · rw [if_neg (not_or.2 ⟨root, inside⟩), if_neg (not_or.2 ⟨root, inside⟩)]

theorem find (alike : AlikeOn portion first second)
    (within : ∀ passed ∈ visited (first.start path) path.written, portion passed) :
    second.find path = first.find path :=
  find_eq_of_agree alike.workingDirectory fun passed member => alike.entryAt? passed (within passed member)

end AlikeOn

/-- Whether an action answers the same in two trees and leaves them alike. -/
structure KeepsAlike {ρ : Type} (portion : Location → Prop) (action : FileTree → FileTree × ρ)
    (first second : FileTree) :
    Prop where
  answer : (action second).2 = (action first).2
  alike : AlikeOn portion (action first).1 (action second).1
  workingDirectory : (action first).1.workingDirectory = first.workingDirectory

/-- Actions that keep trees alike keep them alike one after another. -/
theorem AlikeOn.doEach {ι ρ : Type} {act : ι → FileTree → FileTree × ρ} {items : List ι}
    (alike : AlikeOn portion first second)
    (each : ∀ item ∈ items, ∀ tree other, AlikeOn portion tree other → tree.workingDirectory = first.workingDirectory →
      KeepsAlike portion (act item) tree other) : KeepsAlike portion (FileTree.doEach act items) first second := by
  induction items generalizing first second with
  | nil => exact ⟨rfl, alike, rfl⟩
  | cons item rest ih =>
      rcases List.forall_mem_cons.1 each with ⟨acts, each⟩
      rcases acts first second alike rfl with ⟨answer, next, start⟩
      rcases ih next (fun item member tree other alike same => each item member tree other alike (same.trans start)) with
        ⟨answers, last, startStill⟩
      exact ⟨by rw [doEach_cons, doEach_cons, answer, answers], last, startStill.trans start⟩

end FileTree

end AddonIndex
