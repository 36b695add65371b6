import AddonIndex.Proofs.FileTree.Listing
import AddonIndex.Proofs.FileTree.Operation
import AddonIndex.Proofs.FileTree.Way

/-!
# Growing trees

Directories are made only where nothing is, so that everything else stays where
it was and paths lead where they led. Below a directory that is there nothing is
made but the directories on the way down from it.
-/

namespace AddonIndex

namespace FileTree

variable {allowed : Location → Prop} {before after : FileTree} {path : Path} {place : Location}

/-- Whether a tree differs from an earlier one only in new directories at certain locations. -/
structure Grows (allowed : Location → Prop) (before after : FileTree) : Prop where
  workingDirectory : after.workingDirectory = before.workingDirectory
  entryAt? : ∀ place, after.entryAt? place = before.entryAt? place ∨
    before.entryAt? place = none ∧ after.entryAt? place = some .directory ∧ allowed place

namespace Grows

theorem refl (tree : FileTree) : Grows allowed tree tree := ⟨rfl, fun _ => .inl rfl⟩

theorem trans {middle : FileTree} (first : Grows allowed before middle)
    (second : Grows allowed middle after) : Grows allowed before after where
  workingDirectory := second.workingDirectory.trans first.workingDirectory
  entryAt? place := by
    rcases second.entryAt? place with same | ⟨absent, made, isAllowed⟩
    · rw [same]
      exact first.entryAt? place
    · rcases first.entryAt? place with same | ⟨-, there, -⟩
      · exact .inr ⟨same ▸ absent, made, isAllowed⟩
      · rw [there] at absent
        cases absent

theorem mono {other : Location → Prop} (grows : Grows allowed before after)
    (weaker : ∀ place, allowed place → other place) : Grows other before after :=
  ⟨grows.workingDirectory, fun place => (grows.entryAt? place).imp_right
    fun ⟨absent, made, isAllowed⟩ => ⟨absent, made, weaker place isAllowed⟩⟩

/-- What was there is still there. -/
theorem entryAt?_of_some (grows : Grows allowed before after) {entry : Entry}
    (there : before.entryAt? place = some entry) : after.entryAt? place = some entry := by
  rcases grows.entryAt? place with same | ⟨absent, -⟩
  · rw [same, there]
  · rw [there] at absent
    cases absent

theorem location (grows : Grows allowed before after) (path : Path) :
    after.location path = before.location path :=
  location_congr grows.workingDirectory path

end Grows

/-! ## Paths in trees that keep their directories -/

/-- A way stays open as long as the directories on it stay. -/
theorem walk_of_directories
    (kept : ∀ place, before.entryAt? place = some .directory → after.entryAt? place = some .directory)
    {directory reached : Location} {parts : List Text}
    (walked : before.walk directory parts = .ok reached) :
    after.walk directory parts = .ok reached := by
  induction parts generalizing directory with
  | nil => exact walked
  | cons part parts ih =>
      obtain ⟨stepped, walked⟩ := walk_cons_eq_ok_iff.1 walked
      obtain ⟨-, way⟩ := stepInto_eq_ok_iff.1 stepped
      refine walk_cons_eq_ok_iff.2 ⟨stepInto_eq_ok_iff.2 ⟨rfl, ?_⟩, ih walked⟩
      exact way.imp_right fun way => way.imp_right fun ⟨short, there⟩ => ⟨short, kept _ there⟩

/-- A path leads where it led as long as the directories on its way stay. -/
theorem find_of_directories (workingDirectory : after.workingDirectory = before.workingDirectory)
    (kept : ∀ place, before.entryAt? place = some .directory → after.entryAt? place = some .directory)
    {entry : Entry} (found : before.find path = .ok (place, entry))
    (there : after.entryAt? place = before.entryAt? place) : after.find path = .ok (place, entry) := by
  have start : after.start path = before.start path := by
    rw [FileTree.start, FileTree.start, workingDirectory]
  cases entry with
  | directory =>
      obtain ⟨passable, walked⟩ := find_eq_directory_iff.1 found
      exact find_eq_directory_iff.2 ⟨passable, start ▸ walk_of_directories kept walked⟩
  | file content executable =>
      obtain ⟨passable, noSlash, front, name, written, notHere, notUp, short, parent, walked, rfl, file⟩ :=
        find_eq_file_iff.1 found
      exact find_eq_file_iff.2 ⟨passable, noSlash, front, name, written, notHere, notUp, short, parent,
        start ▸ walk_of_directories kept walked, rfl, there ▸ file⟩

theorem Grows.find (grows : Grows allowed before after) {entry : Entry}
    (found : before.find path = .ok (place, entry)) (file : entry ≠ .directory) :
    after.find path = .ok (place, entry) := by
  refine find_of_directories grows.workingDirectory (fun _ => grows.entryAt?_of_some) found ?_
  cases entry with
  | directory => exact absurd rfl file
  | file content executable =>
      obtain ⟨-, -, -, -, -, -, -, -, -, -, -, there⟩ := find_eq_file_iff.1 found
      rw [there, grows.entryAt?_of_some there]

theorem Grows.findDirectory (grows : Grows allowed before after)
    (found : before.find path = .ok (place, .directory)) :
    after.find path = .ok (place, .directory) := by
  obtain ⟨passable, walked⟩ := find_eq_directory_iff.1 found
  refine find_eq_directory_iff.2 ⟨passable, ?_⟩
  rw [FileTree.start, grows.workingDirectory, ← FileTree.start]
  exact walk_of_directories (fun _ => grows.entryAt?_of_some) walked

end FileTree

namespace FileOp

open FileTree

variable {α β : Type} {tree : FileTree} {path base : Path} {place : Location}

/-- Whether an operation always leaves a tree that is related to the one before. -/
def Leads (related : FileTree → FileTree → Prop) (operation : FileOp α) : Prop :=
  ∀ tree, related tree (tree.applyAll (operation tree).1)

theorem Leads.bind {related : FileTree → FileTree → Prop} {first : FileOp α} {next : α → FileOp β}
    (trans : ∀ a b c, related a b → related b c → related a c) (leads : Leads related first)
    (later : ∀ a, Leads related (next a)) : Leads related (first >>= next) := by
  intro tree
  cases result : (first tree).2 with
  | error e =>
      rw [bind_of_error result]
      exact leads tree
  | ok a =>
      rw [bind_of_ok result, applyAll_append]
      exact trans _ _ _ (leads tree) (later a _)

theorem run_eq (operation : FileOp α) (tree : FileTree) :
    operation.run tree = (tree.applyAll (operation tree).1, (operation tree).2) :=
  rfl

theorem distinct_run {operation : FileOp α} {after : FileTree} {result : Except FileError α}
    (distinct : tree.Distinct) (ran : operation.run tree = (after, result)) : after.Distinct := by
  rw [run_eq] at ran
  obtain ⟨rfl, -⟩ := Prod.mk.inj ran
  exact distinct.applyAll _

/-- A sequence succeeds if both of its operations do, the second one after the first one. -/
theorem run_bind_eq_ok_iff {first : FileOp α} {next : α → FileOp β} {after : FileTree} {b : β} :
    (first >>= next).run tree = (after, .ok b) ↔
      ∃ a middle, first.run tree = (middle, .ok a) ∧ (next a).run middle = (after, .ok b) := by
  simp only [run_eq]
  cases result : (first tree).2 with
  | error e =>
      rw [bind_of_error result]
      simp
  | ok a =>
      rw [bind_of_ok result, applyAll_append]
      simp

theorem run_pure (a : α) (tree : FileTree) : (pure a : FileOp α).run tree = (tree, .ok a) :=
  rfl

theorem run_inspect_bind_eq_ok_iff {look : FileTree → Except FileError α} {next : α → FileOp β}
    {after : FileTree} {b : β} :
    (inspect look >>= next).run tree = (after, .ok b) ↔
      ∃ a, look tree = .ok a ∧ (next a).run tree = (after, .ok b) := by
  rw [run_bind_eq_ok_iff]
  refine exists_congr fun a => ⟨?_, ?_⟩
  · rintro ⟨middle, looked, ended⟩
    obtain ⟨rfl, same⟩ := Prod.mk.inj looked
    exact ⟨same, ended⟩
  · rintro ⟨same, ended⟩
    exact ⟨tree, congrArg (Prod.mk tree) same, ended⟩

theorem run_change_bind_eq_ok_iff {made : Change} {next : Unit → FileOp β} {after : FileTree} {b : β} :
    (change made >>= next).run tree = (after, .ok b) ↔
      (next ()).run (tree.apply made) = (after, .ok b) := by
  rw [run_bind_eq_ok_iff]
  constructor
  · rintro ⟨_, middle, done, ended⟩
    obtain ⟨rfl, -⟩ := Prod.mk.inj done
    exact ended
  · exact fun ended => ⟨(), tree.apply made, rfl, ended⟩

/-! ## Making directories -/

/-- A directory is made where nothing is. -/
theorem makeDirectory_of_resolve {parent : Location} {name : Text} {slash : Bool}
    (resolved : tree.resolve path = .ok (.name parent name slash)) :
    makeDirectory path tree =
      if (tree.entryAt? (parent ++ [name])).isSome then ([], .error .alreadyExists)
      else ([.makeDirectory (parent ++ [name])], .ok ()) := by
  have looked : (inspect (fun tree : FileTree => tree.resolve path) tree).2 =
      .ok (.name parent name slash) := resolved
  have seen : (inspect (fun tree : FileTree => .ok (tree.entryAt? (parent ++ [name]))) tree).2 =
      .ok (tree.entryAt? (parent ++ [name])) := rfl
  unfold makeDirectory
  rw [bind_of_ok looked]
  simp only [inspect, applyAll_nil]
  rw [bind_of_ok seen]
  cases tree.entryAt? (parent ++ [name]) with
  | none => rfl
  | some entry => rfl

/-- A directory is made where nothing is, or nothing is done. -/
theorem makeDirectory_cases (path : Path) (tree : FileTree) :
    (∃ e, makeDirectory path tree = ([], .error e)) ∨
      ∃ parent name slash, tree.resolve path = .ok (.name parent name slash) ∧
        tree.entryAt? (parent ++ [name]) = none ∧
        makeDirectory path tree = ([.makeDirectory (parent ++ [name])], .ok ()) := by
  cases resolved : tree.resolve path with
  | error e =>
      have looked : (inspect (fun tree : FileTree => tree.resolve path) tree).2 = .error e := resolved
      exact .inl ⟨e, bind_of_error looked⟩
  | ok found =>
      cases found with
      | dots directory last =>
          have looked : (inspect (fun tree : FileTree => tree.resolve path) tree).2 =
              .ok (.dots directory last) := resolved
          unfold makeDirectory
          rw [bind_of_ok looked]
          exact .inl ⟨_, rfl⟩
      | name parent name slash =>
          rw [makeDirectory_of_resolve resolved]
          cases there : tree.entryAt? (parent ++ [name]) with
          | none => exact .inr ⟨parent, name, slash, rfl, there, rfl⟩
          | some entry => exact .inl ⟨_, rfl⟩

/-- A path to a name is a path to the location of that name. -/
theorem location_of_resolve {parent : Location} {name : Text} {slash : Bool}
    (resolved : tree.resolve path = .ok (.name parent name slash)) :
    parent ++ [name] = tree.location path := by
  obtain ⟨-, front, written, notHere, notUp, -, walked, -⟩ := resolve_eq_name_iff.1 resolved
  rw [location, written, List.foldl_append, ← walk_eq_ok walked, List.foldl_cons, List.foldl_nil,
    Location.step, if_neg notHere, if_neg notUp]

theorem grows_makeDirectory (path : Path) (tree : FileTree) :
    Grows (· = tree.location path) tree (tree.applyAll (makeDirectory path tree).1) := by
  rcases makeDirectory_cases path tree with ⟨e, failed⟩ | ⟨parent, name, slash, resolved, absent, made⟩
  · rw [failed]
    exact Grows.refl tree
  · rw [made]
    refine ⟨workingDirectory_applyAll tree _, fun place => ?_⟩
    rw [applyAll_cons, applyAll_nil, entryAt?_apply]
    split
    · rename_i here
      obtain ⟨-, rfl⟩ := here
      exact .inr ⟨absent, rfl, location_of_resolve resolved⟩
    · exact .inl rfl

/-- A directory that was made is there. -/
theorem isDirectory_of_makeDirectory (made : (makeDirectory path tree).2 = .ok ()) :
    (tree.applyAll (makeDirectory path tree).1).isDirectory path = true := by
  rcases makeDirectory_cases path tree with ⟨e, failed⟩ | ⟨parent, name, slash, resolved, absent, done⟩
  · rw [failed] at made
    cases made
  · have grows := grows_makeDirectory path tree
    rw [done] at grows ⊢
    obtain ⟨passable, front, written, notHere, notUp, short, walked, -⟩ := resolve_eq_name_iff.1 resolved
    refine isDirectory_iff.2 ⟨parent ++ [name], find_eq_directory_iff.2 ⟨passable, ?_⟩⟩
    rw [written, walk_append_singleton_iff]
    refine ⟨parent, ?_, stepInto_eq_ok_iff.2 ⟨?_, .inr (.inr ⟨short, ?_⟩)⟩⟩
    · rw [start, grows.workingDirectory, ← start]
      exact walk_of_directories (fun _ => grows.entryAt?_of_some) walked
    · rw [Location.step, if_neg notHere, if_neg notUp]
    · rw [applyAll_cons, applyAll_nil, entryAt?_apply, if_pos ⟨by simp, rfl⟩]
      rfl

/-- Whether only directories at the locations of certain paths are new. -/
def GrowsAt (paths : List Path) (before after : FileTree) : Prop :=
  Grows (fun place => ∃ path ∈ paths, place = before.location path) before after

theorem GrowsAt.trans {paths : List Path} {first second third : FileTree}
    (before : GrowsAt paths first second) (after : GrowsAt paths second third) :
    GrowsAt paths first third := by
  refine Grows.trans before (Grows.mono after ?_)
  rintro place ⟨path, member, rfl⟩
  exact ⟨path, member, before.location path⟩

/-- What is done when a directory could not be made changes nothing. -/
theorem orElse_eq (path : Path) (e : FileError) (tree : FileTree) :
    (inspect (fun tree => .ok (tree.isDirectory path)) >>= fun there =>
        if there then (pure () : FileOp Unit) else fail e) tree =
      ([], if tree.isDirectory path then .ok () else .error e) := by
  have looked : (inspect (fun tree : FileTree => Except.ok (tree.isDirectory path)) tree).2 =
      .ok (tree.isDirectory path) := rfl
  rw [bind_of_ok looked]
  cases tree.isDirectory path <;> rfl

theorem makeDirectory_of_find (found : tree.find path = .ok (place, .directory)) :
    makeDirectory path tree = ([], .error .alreadyExists) := by
  rcases find_eq_ok_iff.1 found with ⟨last, resolved, -⟩ | ⟨parent, name, slash, resolved, rfl, there, -⟩
  · have looked : (inspect (fun tree : FileTree => tree.resolve path) tree).2 = .ok (.dots place last) := resolved
    unfold makeDirectory
    rw [bind_of_ok looked]
    rfl
  · rw [makeDirectory_of_resolve resolved, there]
    rfl

/-- Nothing is made where the first directory of a list is there. -/
theorem makeDirectoriesAlong_of_find (found : tree.find path = .ok (place, .directory))
    (ancestors : List Path) : makeDirectoriesAlong (path :: ancestors) tree = ([], .ok ()) := by
  obtain ⟨⟨nonempty, -⟩, -⟩ := find_eq_directory_iff.1 found
  have tried : (attempt (makeDirectory path) tree) = ([], .ok (.error .alreadyExists)) := by
    unfold attempt
    rw [makeDirectory_of_find found]
  have result : (attempt (makeDirectory path) tree).2 = .ok (.error .alreadyExists) := by rw [tried]
  unfold makeDirectoriesAlong
  rw [if_neg (by simpa using nonempty), bind_of_ok result, tried]
  simp only [applyAll_nil, orElse_eq]
  rw [if_pos (isDirectory_iff.2 ⟨place, found⟩)]
  rfl

/-- Above a directory that is there nothing is made. -/
theorem leads_makeDirectoriesAlong {paths made : List Path} (amongPaths : ∀ path ∈ made, path ∈ paths)
    (ancestors : List Path) :
    Leads (fun before after => before.isDirectory base = true → GrowsAt paths before after)
      (makeDirectoriesAlong (made ++ base :: ancestors)) := by
  have trans : ∀ a b c : FileTree, (a.isDirectory base = true → GrowsAt paths a b) →
      (b.isDirectory base = true → GrowsAt paths b c) → a.isDirectory base = true → GrowsAt paths a c := by
    intro a b c first second there
    obtain ⟨place, found⟩ := isDirectory_iff.1 there
    have grows := first there
    exact grows.trans (second (isDirectory_iff.2 ⟨place, Grows.findDirectory grows found⟩))
  induction made with
  | nil =>
      intro tree there
      obtain ⟨place, found⟩ := isDirectory_iff.1 there
      rw [List.nil_append, makeDirectoriesAlong_of_find found]
      exact Grows.refl tree
  | cons path made ih =>
      have one : Leads (fun before after => before.isDirectory base = true → GrowsAt paths before after)
          (attempt (makeDirectory path)) := by
        intro tree _
        refine (grows_makeDirectory path tree).mono ?_
        rintro place rfl
        exact ⟨path, amongPaths path List.mem_cons_self, rfl⟩
      have orElse : ∀ e, Leads (fun before after => before.isDirectory base = true → GrowsAt paths before after)
          (inspect (fun tree => .ok (tree.isDirectory path)) >>= fun there =>
            if there then (pure () : FileOp Unit) else fail e) := by
        intro e tree _
        rw [orElse_eq]
        exact Grows.refl tree
      rw [List.cons_append]
      unfold makeDirectoriesAlong
      split
      · exact fun tree _ => Grows.refl tree
      · refine one.bind trans fun tried => ?_
        split
        · exact fun tree _ => Grows.refl tree
        · refine (ih fun other member => amongPaths other (List.mem_cons_of_mem _ member)).bind trans
            fun _ => one.bind trans fun again => ?_
          split
          · exact fun tree _ => Grows.refl tree
          · exact orElse _
        · exact orElse _

theorem exists_ancestors_eq (path : Path) : ∃ ancestors, path.ancestors = path :: ancestors := by
  rw [Path.ancestors]
  split
  · exact ⟨[], rfl⟩
  · exact ⟨_, rfl⟩

/-- A path is one to a directory after directories were made up to it. -/
theorem isDirectory_of_makeDirectories (nonempty : path.text ≠ []) {after : FileTree}
    (made : (makeDirectories path).run tree = (after, .ok ())) : after.isDirectory path = true := by
  obtain ⟨ancestors, along⟩ := exists_ancestors_eq path
  rw [makeDirectories, along] at made
  unfold makeDirectoriesAlong at made
  rw [if_neg (by simpa using nonempty)] at made
  have tries : ∀ {before after : FileTree} {result}, (attempt (makeDirectory path)).run before =
      (after, .ok result) → result = .ok () → after.isDirectory path = true := by
    intro before after result tried same
    cases tried
    exact isDirectory_of_makeDirectory same
  have orElse : ∀ {before : FileTree} {e},
      (inspect (fun tree => .ok (tree.isDirectory path)) >>= fun there =>
        if there then (pure () : FileOp Unit) else fail e).run before = (after, .ok ()) →
      after.isDirectory path = true := by
    intro before e ended
    obtain ⟨there, same, ended⟩ := run_inspect_bind_eq_ok_iff.1 ended
    cases same
    cases known : before.isDirectory path with
    | true =>
        rw [known] at ended
        cases ended
        exact known
    | false =>
        rw [known] at ended
        cases ended
  obtain ⟨result, middle, tried, ended⟩ := run_bind_eq_ok_iff.1 made
  split at ended
  · cases ended
    exact tries tried rfl
  · obtain ⟨_, middle, -, ended⟩ := run_bind_eq_ok_iff.1 ended
    obtain ⟨result, last, again, ended⟩ := run_bind_eq_ok_iff.1 ended
    split at ended
    · cases ended
      exact tries again rfl
    · exact orElse ended
  · exact orElse ended

/-! ## Making directories below a directory -/

/-- The ancestors of a path that goes down from another one are those on the way and then
those of the other one. -/
theorem ancestors_descend (ends : Path.EndsInName base) {names : List Text}
    (areNames : ∀ name ∈ names, Path.IsName name) :
    ∃ made ancestors, (base.descend names).ancestors = made ++ base :: ancestors ∧
      ∀ path ∈ made, ∃ front, front ≠ [] ∧ front <+: names ∧ path = base.descend front := by
  induction names using List.reverseRecOn with
  | nil =>
      obtain ⟨ancestors, along⟩ := exists_ancestors_eq base
      exact ⟨[], ancestors, along, List.forall_mem_nil _⟩
  | append_singleton names name ih =>
      have isName := areNames name (by simp)
      have front : ∀ other ∈ names, Path.IsName other :=
        fun other member => areNames other (List.mem_append_left _ member)
      obtain ⟨made, ancestors, along, onWay⟩ := ih front
      have parent := Path.parent?_join (ends.descend front) isName
      refine ⟨base.descend (names ++ [name]) :: made, ancestors, ?_, fun path member => ?_⟩
      · rw [Path.descend_append, Path.descend_singleton, Path.ancestors]
        split
        · rename_i none
          rw [parent] at none
          cases none
        · rename_i found
          rw [parent] at found
          cases found
          rw [along]
          rfl
      · rcases List.mem_cons.1 member with rfl | above
        · exact ⟨names ++ [name], by simp, List.prefix_refl _, rfl⟩
        · obtain ⟨front, nonempty, isPrefix, rfl⟩ := onWay path above
          exact ⟨front, nonempty, isPrefix.trans (List.prefix_append _ _), rfl⟩

/-- Below a directory only directories on the way down from it are made. -/
theorem grows_makeDirectories (ends : Path.EndsInName base) {names : List Text}
    (areNames : ∀ name ∈ names, Path.IsName name) (found : tree.find base = .ok (place, .directory)) :
    Grows (fun other => ∃ front, front ≠ [] ∧ front <+: names ∧ other = place ++ front) tree
      ((makeDirectories (base.descend names)).run tree).1 := by
  obtain ⟨made, ancestors, along, onWay⟩ := ancestors_descend ends areNames
  have leads := @leads_makeDirectoriesAlong base made made (fun _ member => member) ancestors tree
    (isDirectory_iff.2 ⟨place, found⟩)
  rw [run_eq, makeDirectories, along]
  refine Grows.mono leads ?_
  rintro other ⟨path, member, rfl⟩
  obtain ⟨front, nonempty, isPrefix, rfl⟩ := onWay path member
  refine ⟨front, nonempty, isPrefix, ?_⟩
  rw [location_descend tree base fun name inFront => areNames name (isPrefix.subset inFront),
    find_location found]

/-- A name below a directory becomes a directory by itself, or is one already. -/
theorem grows_makeDirectories_join {name : Text} (isName : Path.IsName name)
    (found : tree.find base = .ok (place, .directory)) {after : FileTree}
    (made : (makeDirectories (base.join name)).run tree = (after, .ok ())) :
    Grows (· = place ++ [name]) tree after ∧
      after.find (base.join name) = .ok (place ++ [name], .directory) := by
  have nonempty : (base.join name).text ≠ [] := (Path.endsInName_join base isName).text_ne_nil
  obtain ⟨reached, there⟩ := isDirectory_iff.1 (isDirectory_of_makeDirectories nonempty made)
  obtain ⟨passable, short, directory, walkedAfter, rfl, -⟩ := (find_join_name_iff isName).1 there
  obtain ⟨-, walked⟩ := find_eq_directory_iff.1 found
  have resolved := (@resolve_join_name_iff tree base name name place false isName).2
    ⟨passable, short, walked, rfl, rfl⟩
  have grows : Grows (· = place ++ [name]) tree after := by
    obtain ⟨ancestors, along⟩ := exists_ancestors_eq (base.join name)
    rw [makeDirectories, along] at made
    unfold makeDirectoriesAlong at made
    rw [if_neg (by simpa using nonempty)] at made
    obtain ⟨result, middle, tried, ended⟩ := run_bind_eq_ok_iff.1 made
    rw [run_eq, attempt, makeDirectory_of_resolve resolved] at tried
    cases known : tree.entryAt? (place ++ [name]) with
    | none =>
        rw [known] at tried
        cases tried
        cases ended
        have made := grows_makeDirectory (base.join name) tree
        rw [makeDirectory_of_resolve resolved, known, ← location_of_resolve resolved] at made
        exact made
    | some entry =>
        rw [known] at tried
        cases tried
        obtain ⟨isDirectory, -, ended⟩ := run_inspect_bind_eq_ok_iff.1 ended
        cases isDirectory with
        | true =>
            cases ended
            exact Grows.refl tree
        | false => cases ended
  refine ⟨grows, ?_⟩
  have same := walk_of_directories (fun _ => grows.entryAt?_of_some) walked
  rw [FileTree.start, ← grows.workingDirectory, ← FileTree.start, walkedAfter] at same
  cases same
  exact there

end FileOp

end AddonIndex
