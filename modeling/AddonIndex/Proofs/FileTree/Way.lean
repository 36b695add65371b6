import AddonIndex.Proofs.FileTree.Listing

/-!
# Ways below a directory

A path that continues another one is followed from the directory to which that
one leads. If its way never leaves this directory, then it can be followed in
any other directory in which the directories on the way are there too.
-/

namespace AddonIndex

namespace Location

/-- Whether a way, which begins at a place below some directory, never leaves that directory. -/
def Stays : Location → List Text → Prop
  | _, [] => True
  | place, part :: parts => (part = ['.', '.'] → place ≠ []) ∧ Stays (place.step part) parts

/-- The places after each part of a way. -/
def visited : Location → List Text → List Location
  | _, [] => []
  | place, part :: parts => place.step part :: visited (place.step part) parts

variable {place : Location} {part : Text} {parts : List Text}

/-- A step that does not leave a directory is the same wherever the directory is. -/
theorem step_append (stays : part = ['.', '.'] → place ≠ []) (base : Location) :
    step (base ++ place) part = base ++ place.step part := by
  unfold step
  split
  · rfl
  · split
    · rename_i up
      exact List.dropLast_append_of_ne_nil (stays up)
    · exact List.append_assoc _ _ _

theorem foldl_step_append (stays : Stays place parts) (base : Location) :
    parts.foldl step (base ++ place) = base ++ parts.foldl step place := by
  induction parts generalizing place with
  | nil => rfl
  | cons part parts ih =>
      rw [List.foldl_cons, List.foldl_cons, step_append stays.1, ih stays.2]

theorem stays_append_iff {more : List Text} :
    Stays place (parts ++ more) ↔ Stays place parts ∧ Stays (parts.foldl step place) more := by
  induction parts generalizing place with
  | nil => simp [Stays]
  | cons part parts ih => simp only [List.cons_append, Stays, List.foldl_cons, ih, and_assoc]

theorem visited_append (place : Location) (parts more : List Text) :
    visited place (parts ++ more) = visited place parts ++ visited (parts.foldl step place) more := by
  induction parts generalizing place with
  | nil => rfl
  | cons part parts ih => rw [List.cons_append, visited, visited, ih]; rfl

theorem step_name {name : Text} (isName : Path.IsName name) (place : Location) :
    place.step name = place ++ [name] := by
  rw [step, if_neg isName.notHere, if_neg isName.notUp]

/-- Names lead down. -/
theorem foldl_step_names {names : List Text} (areNames : ∀ name ∈ names, Path.IsName name)
    (place : Location) : names.foldl step place = place ++ names := by
  induction names generalizing place with
  | nil => simp
  | cons name names ih =>
      rw [List.foldl_cons, step_name (areNames name List.mem_cons_self),
        ih (fun other member => areNames other (List.mem_cons_of_mem name member))]
      simp

/-- Names lead down to nothing but what is on the way. -/
theorem prefix_of_mem_visited {names : List Text} (areNames : ∀ name ∈ names, Path.IsName name)
    {passed : Location} (member : passed ∈ visited place names) : passed <+: place ++ names := by
  induction names generalizing place with
  | nil => cases member
  | cons name names ih =>
      obtain ⟨isName, restAreNames⟩ := List.forall_mem_cons.1 areNames
      rw [visited, step_name isName] at member
      rw [List.append_cons]
      rcases List.mem_cons.1 member with rfl | later
      · exact List.prefix_append _ _
      · exact ih restAreNames later

theorem stays_names {names : List Text} (areNames : ∀ name ∈ names, Path.IsName name)
    (place : Location) : Stays place names := by
  induction names generalizing place with
  | nil => trivial
  | cons name names ih =>
      exact ⟨fun up => absurd up (areNames name List.mem_cons_self).notUp,
        ih (fun other member => areNames other (List.mem_cons_of_mem name member)) _⟩

end Location

namespace FileTree

variable {tree other : FileTree} {origin target : Location}

open Location

/-- A way can be followed in another directory too, if the directories on it are there. -/
theorem walk_transfer {place : Location} {parts : List Text} (stays : Stays place parts)
    (there : ∀ below ∈ visited place parts, below ≠ [] →
      tree.entryAt? (origin ++ below) = some .directory → other.entryAt? (target ++ below) = some .directory)
    {reached : Location} (walked : tree.walk (origin ++ place) parts = .ok reached) :
    other.walk (target ++ place) parts = .ok (target ++ parts.foldl step place) := by
  induction parts generalizing place with
  | nil => rfl
  | cons part parts ih =>
      obtain ⟨stepped, walked⟩ := walk_cons_eq_ok_iff.1 walked
      obtain ⟨-, way⟩ := stepInto_eq_ok_iff.1 stepped
      rw [step_append stays.1] at walked way
      refine walk_cons_eq_ok_iff.2 ⟨stepInto_eq_ok_iff.2 ⟨rfl, ?_⟩, ?_⟩
      · rw [step_append stays.1]
        rcases way with here | up | ⟨short, isDirectory⟩
        · exact .inl here
        · exact .inr (.inl up)
        · by_cases dots : part = ['.'] ∨ part = ['.', '.']
          · exact dots.elim .inl fun up => .inr (.inl up)
          · rw [not_or] at dots
            have below : place.step part ≠ [] := by
              rw [step, if_neg dots.1, if_neg dots.2]
              simp
            exact .inr (.inr ⟨short, there _ List.mem_cons_self below isDirectory⟩)
      · rw [step_append stays.1]
        exact ih stays.2 (fun below member => there below (List.mem_cons_of_mem _ member)) walked

/-- A path leads to a file if it ends with the name of one in a directory that the rest of it
leads to. -/
theorem find_eq_file_iff {path : Path} {place : Location} {content : ByteArray} {executable : Bool} :
    tree.find path = .ok (place, .file content executable) ↔
      Passable path ∧ path.text.getLast? ≠ some '/' ∧ ∃ front name, path.written = front ++ [name] ∧
        name ≠ ['.'] ∧ name ≠ ['.', '.'] ∧ Text.utf8Size name ≤ maxNameSize ∧
        ∃ parent, tree.walk (tree.start path) front = .ok parent ∧ place = parent ++ [name] ∧
          tree.entryAt? place = some (.file content executable) := by
  rw [find_eq_ok_iff]
  constructor
  · rintro (⟨last, -, none⟩ | ⟨parent, name, slash, resolved, rfl, found, ends⟩)
    · cases none
    · obtain ⟨passable, front, written, notHere, notUp, short, walked, rfl⟩ :=
        resolve_eq_name_iff.1 resolved
      refine ⟨passable, fun slash => ?_, front, name, written, notHere, notUp, short, parent, walked,
        rfl, found⟩
      cases ends (by rw [slash]; rfl)
  · rintro ⟨passable, noSlash, front, name, written, notHere, notUp, short, parent, walked, rfl, found⟩
    refine .inr ⟨parent, name, false, resolve_eq_name_iff.2
      ⟨passable, front, written, notHere, notUp, short, walked, ?_⟩, rfl, found, nofun⟩
    exact (beq_false_of_ne noSlash).symm

/-- What is below a directory is found on the way from it. -/
theorem find_below_eq_file_iff {base : Path} {rest : Text} {place : Location} {content : ByteArray}
    {executable : Bool} (leads : tree.find base = .ok (origin, .directory)) :
    tree.find ⟨base.text ++ '/' :: rest⟩ = .ok (place, .file content executable) ↔
      Passable ⟨base.text ++ '/' :: rest⟩ ∧ (base.text ++ '/' :: rest).getLast? ≠ some '/' ∧
        ∃ front name, Path.written ⟨rest⟩ = front ++ [name] ∧
          name ≠ ['.'] ∧ name ≠ ['.', '.'] ∧ Text.utf8Size name ≤ maxNameSize ∧
          ∃ parent, tree.walk origin front = .ok parent ∧ place = parent ++ [name] ∧
            tree.entryAt? place = some (.file content executable) := by
  obtain ⟨⟨nonempty, -⟩, walked⟩ := find_eq_directory_iff.1 leads
  have written : Path.written ⟨base.text ++ '/' :: rest⟩ = base.written ++ Path.written ⟨rest⟩ :=
    Path.written_append_slash base.text rest
  have start : tree.start ⟨base.text ++ '/' :: rest⟩ = tree.start base := by
    obtain ⟨c, more, text⟩ := List.exists_cons_of_ne_nil nonempty
    unfold FileTree.start Path.isAbsolute
    rw [text]
    rfl
  have follow : ∀ front, tree.walk (tree.start base) (base.written ++ front) = tree.walk origin front := by
    intro front
    rw [walk_append, walked]
    rfl
  rw [find_eq_file_iff, written, start]
  refine and_congr_right fun passable => and_congr_right fun noSlash => ?_
  constructor
  · rintro ⟨front, name, split, notHere, notUp, short, parent, walkedParent, rfl, found⟩
    rcases List.eq_nil_or_concat (Path.written ⟨rest⟩) with none | ⟨front', last, ends⟩
    · -- Nothing is written after the directory, so the path would lead to the directory itself.
      rw [none, List.append_nil] at split
      have directory : tree.find ⟨base.text ++ '/' :: rest⟩ = .ok (origin, .directory) := by
        rw [find_eq_directory_iff, written, start, none, List.append_nil]
        exact ⟨passable, walked⟩
      have file := find_eq_file_iff.2 ⟨passable, noSlash, front, name,
        by rw [written, none, List.append_nil, split], notHere, notUp, short, parent,
        by rw [start]; exact walkedParent, rfl, found⟩
      rw [directory] at file
      cases file
    · rw [List.concat_eq_append] at ends
      rw [ends, ← List.append_assoc] at split
      obtain ⟨rfl, same⟩ := List.append_inj' split rfl
      obtain rfl : last = name := by simpa using same
      rw [follow] at walkedParent
      exact ⟨front', last, ends, notHere, notUp, short, parent, walkedParent, rfl, found⟩
  · rintro ⟨front, name, ends, notHere, notUp, short, parent, walkedParent, rfl, found⟩
    refine ⟨base.written ++ front, name, by rw [ends, List.append_assoc], notHere, notUp, short, parent,
      ?_, rfl, found⟩
    rw [follow]
    exact walkedParent

/-- A way along names is open if a directory is at each place on it. -/
theorem entryAt?_of_walk_names {place reached : Location} {names front : List Text}
    (areNames : ∀ name ∈ names, Path.IsName name) (walked : tree.walk place names = .ok reached)
    (nonempty : front ≠ []) (isPrefix : front <+: names) :
    tree.entryAt? (place ++ front) = some .directory := by
  induction names generalizing place front with
  | nil => exact absurd (List.prefix_nil.1 isPrefix) nonempty
  | cons name names ih =>
      have isName := areNames name List.mem_cons_self
      obtain ⟨stepped, walked⟩ := walk_cons_eq_ok_iff.1 walked
      rw [step_name isName] at stepped walked
      rcases List.prefix_cons_iff.1 isPrefix with rfl | ⟨rest, rfl, later⟩
      · exact absurd rfl nonempty
      · cases rest with
        | nil =>
            obtain ⟨-, here | up | ⟨-, there⟩⟩ := stepInto_eq_ok_iff.1 stepped
            · exact absurd here isName.notHere
            · exact absurd up isName.notUp
            · exact there
        | cons second rest =>
            have deeper := ih (fun other member => areNames other (List.mem_cons_of_mem _ member)) walked
              (List.cons_ne_nil second rest) later
            rwa [List.append_assoc] at deeper

/-! ## Ways past a place -/

theorem start_descend (tree : FileTree) (base : Path) {names : List Text}
    (areNames : ∀ name ∈ names, Path.IsName name) : tree.start (base.descend names) = tree.start base := by
  induction names generalizing base with
  | nil => rfl
  | cons name names ih =>
      rw [show base.descend (name :: names) = (base.join name).descend names from rfl,
        ih (base.join name) fun other member => areNames other (List.mem_cons_of_mem _ member),
        start_join (areNames name List.mem_cons_self).head?_ne_slash]

theorem location_descend (tree : FileTree) (base : Path) {names : List Text}
    (areNames : ∀ name ∈ names, Path.IsName name) :
    tree.location (base.descend names) = tree.location base ++ names := by
  induction names generalizing base with
  | nil => simp
  | cons name names ih =>
      rw [show base.descend (name :: names) = (base.join name).descend names from rfl,
        ih (base.join name) fun other member => areNames other (List.mem_cons_of_mem _ member),
        location_join_name base (areNames name List.mem_cons_self)]
      simp

/-- What is found at or below a path is at or below its location. -/
theorem location_prefix_of_mem_filesBelow (formed : tree.WellFormed) {path file : Path}
    (member : file ∈ tree.filesBelow path) : tree.location path <+: tree.location file := by
  cases found : tree.find path with
  | error cause =>
      rw [filesBelow, found] at member
      cases member
  | ok there =>
      obtain ⟨place, entry⟩ := there
      cases entry with
      | file content executable =>
          rw [filesBelow, found] at member
          obtain rfl : file = path := List.mem_singleton.1 member
          exact List.prefix_refl _
      | directory =>
          rw [filesBelow_eq found] at member
          obtain ⟨relative, listed, rfl⟩ := List.mem_map.1 member
          rw [location_descend tree path (formed.names_of_mem_filesAt listed).2]
          exact List.prefix_append _ _

/-- Whether nothing on the way along a path is at or below a place. -/
def Avoids (tree : FileTree) (path : Path) (place : Location) : Prop :=
  ∀ passed ∈ visited (tree.start path) path.written, ¬ place <+: passed

instance (tree : FileTree) (path : Path) (place : Location) : Decidable (tree.Avoids path place) :=
  inferInstanceAs (Decidable (∀ passed ∈ visited (tree.start path) path.written, ¬ place <+: passed))

theorem Avoids.start_congr {path : Path} {place : Location} (avoids : tree.Avoids path place)
    (workingDirectory : other.workingDirectory = tree.workingDirectory) : other.Avoids path place := by
  unfold Avoids
  rw [start, workingDirectory, ← start]
  exact avoids

/-- Where two trees agree along a way, it leads to the same. -/
theorem walk_congr {directory : Location} {parts : List Text}
    (agree : ∀ passed ∈ visited directory parts, other.entryAt? passed = tree.entryAt? passed) :
    other.walk directory parts = tree.walk directory parts := by
  induction parts generalizing directory with
  | nil => rfl
  | cons part parts ih =>
      have first : other.stepInto directory part = tree.stepInto directory part := by
        unfold stepInto
        by_cases here : part = ['.']
        · rw [if_pos here, if_pos here]
        · by_cases up : part = ['.', '.']
          · rw [if_neg here, if_pos up, if_neg here, if_pos up]
          · have same := agree (directory.step part) List.mem_cons_self
            rw [Location.step, if_neg here, if_neg up] at same
            rw [same]
      have cons : ∀ tree : FileTree, tree.walk directory (part :: parts) =
          tree.stepInto directory part >>= fun place => tree.walk place parts := fun _ => rfl
      rw [cons, cons, first]
      cases stepped : tree.stepInto directory part with
      | error e => rfl
      | ok place =>
          obtain ⟨rfl, -⟩ := stepInto_eq_ok_iff.1 stepped
          exact ih fun passed member => agree passed (List.mem_cons_of_mem _ member)

/-- A path is resolved to the same, or in vain for the same reason, where its way leads to the same. -/
theorem resolve_congr {path : Path} (workingDirectory : other.workingDirectory = tree.workingDirectory)
    (walks : other.walk (tree.start path) path.written.dropLast = tree.walk (tree.start path) path.written.dropLast) :
    other.resolve path = tree.resolve path := by
  have start : other.start path = tree.start path := by
    rw [FileTree.start, FileTree.start, workingDirectory]
  rw [resolve, resolve, start, walks]

theorem find_congr {path : Path} (workingDirectory : other.workingDirectory = tree.workingDirectory)
    (walks : other.walk (tree.start path) path.written.dropLast = tree.walk (tree.start path) path.written.dropLast)
    (last : ∀ parent name slash, tree.resolve path = .ok (.name parent name slash) →
      other.entryAt? (parent ++ [name]) = tree.entryAt? (parent ++ [name])) :
    other.find path = tree.find path := by
  rw [find, find, resolve_congr workingDirectory walks]
  cases resolved : tree.resolve path with
  | error cause => rfl
  | ok found =>
      cases found with
      | dots directory last => rfl
      | name parent name slash =>
          simp only [bind, Except.bind, last parent name slash resolved]

theorem visited_dropLast_subset (directory : Location) (parts : List Text) :
    visited directory parts.dropLast ⊆ visited directory parts := by
  rcases List.eq_nil_or_concat parts with rfl | ⟨front, last, rfl⟩
  · exact List.Subset.refl _
  · rw [List.concat_eq_append, List.dropLast_concat, visited_append]
    exact List.subset_append_left _ _

/-- The name at the end of a path is passed last. -/
theorem mem_visited_of_resolve {path : Path} {parent : Location} {name : Text} {slash : Bool}
    (resolved : tree.resolve path = .ok (.name parent name slash)) :
    parent ++ [name] ∈ visited (tree.start path) path.written := by
  rcases resolve_eq_name_iff.1 resolved with ⟨-, front, written, notHere, notUp, -, walked, -⟩
  rw [written, visited_append, ← walk_eq_ok walked, visited, visited, step, if_neg notHere, if_neg notUp]
  exact List.mem_append_right _ List.mem_cons_self

/-- Where a tree agrees with another one along the way of a path, the path leads to the same, or in vain for the same
reason. -/
theorem find_eq_of_agree {path : Path} (workingDirectory : other.workingDirectory = tree.workingDirectory)
    (agree : ∀ passed ∈ visited (tree.start path) path.written, other.entryAt? passed = tree.entryAt? passed) :
    other.find path = tree.find path := by
  apply find_congr workingDirectory
  · apply walk_congr
    exact fun passed member => agree passed (visited_dropLast_subset _ _ member)
  · exact fun parent name slash resolved => agree _ (mem_visited_of_resolve resolved)

theorem find_eq_ok_iff_of_agree {path : Path}
    (workingDirectory : other.workingDirectory = tree.workingDirectory)
    (agree : ∀ passed ∈ visited (tree.start path) path.written,
      other.entryAt? passed = tree.entryAt? passed) {place : Location} {entry : Entry} :
    other.find path = .ok (place, entry) ↔ tree.find path = .ok (place, entry) := by
  rw [find_eq_of_agree workingDirectory agree]

theorem Avoids.find_iff {path : Path} {place : Location} (avoids : tree.Avoids path place)
    (workingDirectory : other.workingDirectory = tree.workingDirectory)
    (agree : ∀ passed, ¬ place <+: passed → other.entryAt? passed = tree.entryAt? passed)
    {found : Location} {entry : Entry} :
    other.find path = .ok (found, entry) ↔ tree.find path = .ok (found, entry) :=
  find_eq_ok_iff_of_agree workingDirectory fun passed member => agree passed (avoids passed member)

/-- Names below a path lead past a place if they do not come to it. -/
theorem Avoids.descend {base : Path} {place : Location} {names : List Text}
    (avoids : tree.Avoids base place) (areNames : ∀ name ∈ names, Path.IsName name)
    (past : ∀ front, front ≠ [] → front <+: names → ¬ place <+: tree.location base ++ front) :
    tree.Avoids (base.descend names) place := by
  induction names using List.reverseRecOn with
  | nil => exact avoids
  | append_singleton names name ih =>
      have inFront : ∀ other ∈ names, Path.IsName other :=
        fun other member => areNames other (List.mem_append_left _ member)
      have isName := areNames name (by simp)
      have before := ih inFront fun front nonempty isPrefix =>
        past front nonempty (isPrefix.trans (List.prefix_append _ _))
      intro passed member
      rw [Path.descend_append, Path.descend_singleton, start_join isName.head?_ne_slash,
        Path.written_join isName.head?_ne_slash, Path.written_name isName, visited_append] at member
      rcases List.mem_append.1 member with way | last
      · exact before passed way
      · rw [← FileTree.location.eq_1, visited, visited, step_name isName] at last
        obtain rfl := List.mem_singleton.1 last
        rw [location_descend tree base inFront, List.append_assoc]
        exact past (names ++ [name]) (by simp) (List.prefix_refl _)

end FileTree

end AddonIndex
