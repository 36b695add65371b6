import AddonIndex.FileTree.Resolve
import AddonIndex.Proofs.Except
import AddonIndex.Proofs.Path.Written

/-!
# Where paths lead

What a path leads to has a location that the path alone tells, as there are no
links: dots stay, double dots go up and names go down. The tree decides only
whether the way exists.
-/

namespace AddonIndex

/-- The location after one part of a path. -/
def Location.step (place : Location) (part : Text) : Location :=
  if part = ['.'] then place
  else if part = ['.', '.'] then place.dropLast
  else place ++ [part]

namespace FileTree

variable {tree : FileTree} {path : Path}

/-- The location that a path names. -/
def location (tree : FileTree) (path : Path) : Location :=
  path.written.foldl Location.step (tree.start path)

/-- Nothing but the working directory of a tree decides which location a path names. -/
theorem location_congr {other : FileTree} (same : other.workingDirectory = tree.workingDirectory)
    (path : Path) : other.location path = tree.location path := by
  rw [location, location, start, start, same]

/-- Whether a path can be given to the system at all. -/
def Passable (path : Path) : Prop :=
  path.text ≠ [] ∧ '\x00' ∉ path.text ∧ path.text.utf8Size < maxPathSize

@[simp]
theorem walk_nil (directory : Location) : tree.walk directory [] = .ok directory :=
  rfl

theorem walk_append (directory : Location) (before after : List Text) :
    tree.walk directory (before ++ after) =
      tree.walk directory before >>= fun place => tree.walk place after :=
  List.foldlM_append

/-- One part leads to the directory that it names, if there is one. -/
theorem stepInto_eq_ok_iff {directory place : Location} {part : Text} :
    tree.stepInto directory part = .ok place ↔
      place = directory.step part ∧
        (part = ['.'] ∨ part = ['.', '.'] ∨
          (Text.utf8Size part ≤ maxNameSize ∧ tree.entryAt? place = some .directory)) := by
  unfold stepInto Location.step
  split
  · rename_i here
    simp [here, eq_comm]
  · rename_i notHere
    split
    · rename_i up
      simp [up, eq_comm]
    · rename_i notUp
      split
      · rename_i long
        simp only [reduceCtorEq, notHere, notUp, false_or, false_iff]
        rintro ⟨-, short, -⟩
        exact absurd long (Nat.not_lt.2 short)
      · rename_i short
        have bounded := Nat.le_of_not_lt short
        constructor
        · intro stepped
          split at stepped
          · cases stepped
          · rename_i found
            cases stepped
            exact ⟨rfl, .inr (.inr ⟨bounded, found⟩)⟩
          · cases stepped
        · rintro ⟨rfl, here | up | ⟨-, found⟩⟩
          · exact absurd here notHere
          · exact absurd up notUp
          · rw [found]

theorem walk_cons_eq_ok_iff {directory place : Location} {part : Text} {parts : List Text} :
    tree.walk directory (part :: parts) = .ok place ↔
      tree.stepInto directory part = .ok (directory.step part) ∧
        tree.walk (directory.step part) parts = .ok place := by
  rw [walk, List.foldlM_cons, bind_eq_ok_iff]
  constructor
  · rintro ⟨middle, stepped, walked⟩
    obtain ⟨rfl, -⟩ := stepInto_eq_ok_iff.1 stepped
    exact ⟨stepped, walked⟩
  · rintro ⟨stepped, walked⟩
    exact ⟨_, stepped, walked⟩

/-- A way that exists leads to the location that its parts name. -/
theorem walk_eq_ok {directory place : Location} {parts : List Text}
    (walked : tree.walk directory parts = .ok place) : place = parts.foldl Location.step directory := by
  induction parts generalizing directory with
  | nil =>
      cases walked
      rfl
  | cons part parts ih => exact ih (walk_cons_eq_ok_iff.1 walked).2

/-! ## Resolving -/

/-- A path is resolved along all parts but the last. -/
theorem resolve_eq_ok_iff {place : Place} :
    tree.resolve path = .ok place ↔
      Passable path ∧
        match path.written.getLast? with
        | none => place = .dots (tree.start path) ['/']
        | some last =>
            ∃ directory, tree.walk (tree.start path) path.written.dropLast = .ok directory ∧
              if last = ['.'] then place = .dots directory last
              else if last = ['.', '.'] then place = .dots directory.dropLast last
              else Text.utf8Size last ≤ maxNameSize ∧
                place = .name directory last (path.text.getLast? == some '/') := by
  unfold resolve Passable
  split
  · rename_i empty
    simp [empty]
  · rename_i nonempty
    split
    · rename_i zero
      simp_all
    · rename_i noZero
      split
      · rename_i long
        simp [Nat.not_lt.2 long]
      · rename_i short
        have passable : '\x00' ∉ path.text := by simpa using noZero
        simp only [ne_eq, nonempty, not_false_eq_true, passable, Nat.lt_of_not_le short, true_and]
        cases path.written.getLast? with
        | none => simp [eq_comm]
        | some last =>
            simp only [bind_eq_ok_iff]
            refine exists_congr fun directory => and_congr_right fun _ => ?_
            split
            · simp [eq_comm]
            · split
              · simp [eq_comm]
              · split
                · rename_i long
                  simp [Nat.not_le.2 long]
                · rename_i short
                  simp [Nat.le_of_not_lt short, eq_comm]

theorem walk_append_singleton_iff {start place : Location} {front : List Text} {last : Text} :
    tree.walk start (front ++ [last]) = .ok place ↔
      ∃ directory, tree.walk start front = .ok directory ∧ tree.stepInto directory last = .ok place := by
  rw [walk_append, bind_eq_ok_iff]
  refine exists_congr fun directory => and_congr_right fun _ => ?_
  simp [walk]

/-- A path that ends with a name is resolved to it if the way before it exists. -/
theorem resolve_eq_name_iff {parent : Location} {name : Text} {slash : Bool} :
    tree.resolve path = .ok (.name parent name slash) ↔
      Passable path ∧ ∃ front, path.written = front ++ [name] ∧ name ≠ ['.'] ∧ name ≠ ['.', '.'] ∧
        Text.utf8Size name ≤ maxNameSize ∧ tree.walk (tree.start path) front = .ok parent ∧
        slash = (path.text.getLast? == some '/') := by
  rw [resolve_eq_ok_iff]
  refine and_congr_right fun _ => ?_
  constructor
  · intro way
    split at way
    · cases way
    · rename_i last ends
      obtain ⟨front, written⟩ := List.getLast?_eq_some_iff.1 ends
      obtain ⟨directory, walked, way⟩ := way
      rw [written, List.dropLast_concat] at walked
      split at way
      · cases way
      · rename_i notHere
        split at way
        · cases way
        · rename_i notUp
          obtain ⟨short, result⟩ := way
          cases result
          exact ⟨front, written, notHere, notUp, short, walked, rfl⟩
  · rintro ⟨front, written, notHere, notUp, short, walked, rfl⟩
    rw [written, List.getLast?_concat, List.dropLast_concat]
    refine ⟨parent, walked, ?_⟩
    rw [if_neg notHere, if_neg notUp]
    exact ⟨short, rfl⟩

/-- A path that is resolved to no name is empty or ends with dots, and leads to a
directory that all of it can be followed to. -/
theorem resolve_eq_dots_iff {directory : Location} :
    (∃ last, tree.resolve path = .ok (.dots directory last)) ↔
      Passable path ∧ tree.walk (tree.start path) path.written = .ok directory ∧
        ∀ last, path.written.getLast? = some last → last = ['.'] ∨ last = ['.', '.'] := by
  simp only [resolve_eq_ok_iff, exists_and_left]
  refine and_congr_right fun _ => ?_
  cases ends : path.written.getLast? with
  | none =>
      rw [List.getLast?_eq_none_iff.1 ends]
      simp [eq_comm]
  | some last =>
      obtain ⟨front, written⟩ := List.getLast?_eq_some_iff.1 ends
      simp only [written, List.dropLast_concat, walk_append_singleton_iff, Option.some.injEq,
        forall_eq']
      constructor
      · rintro ⟨_, middle, walked, way⟩
        split at way
        · rename_i here
          cases way
          exact ⟨⟨directory, walked, by simp [here, stepInto]⟩, .inl here⟩
        · split at way
          · rename_i up
            cases way
            exact ⟨⟨middle, walked, by simp [up, stepInto]⟩, .inr up⟩
          · cases way.2
      · rintro ⟨⟨middle, walked, stepped⟩, dots⟩
        obtain ⟨rfl, -⟩ := stepInto_eq_ok_iff.1 stepped
        refine ⟨last, middle, walked, ?_⟩
        rcases dots with rfl | rfl
        · rfl
        · rfl

/-! ## Finding -/

/-- What a path leads to is there, and a slash after its name asks for a directory. -/
theorem find_eq_ok_iff {place : Location} {entry : Entry} :
    tree.find path = .ok (place, entry) ↔
      (∃ last, tree.resolve path = .ok (.dots place last) ∧ entry = .directory) ∨
        ∃ parent name slash, tree.resolve path = .ok (.name parent name slash) ∧
          place = parent ++ [name] ∧ tree.entryAt? place = some entry ∧
          (slash = true → entry = .directory) := by
  rw [find, bind_eq_ok_iff]
  constructor
  · rintro ⟨found, resolved, result⟩
    cases found with
    | dots directory last =>
        cases result
        exact .inl ⟨last, resolved, rfl⟩
    | name parent name slash =>
        refine .inr ⟨parent, name, slash, resolved, ?_⟩
        simp only at result
        split at result
        · cases result
        · rename_i found
          cases result
          exact ⟨rfl, found, fun _ => rfl⟩
        · split at result
          · cases result
          · rename_i _ found noSlash
            cases result
            exact ⟨rfl, found, fun slash => absurd slash noSlash⟩
  · rintro (⟨last, resolved, rfl⟩ | ⟨parent, name, slash, resolved, rfl, found, ends⟩)
    · exact ⟨_, resolved, rfl⟩
    · refine ⟨_, resolved, ?_⟩
      simp only [found]
      cases entry with
      | directory => rfl
      | file content executable =>
          cases slash with
          | false => rfl
          | true => cases ends rfl

/-- A path leads to a directory exactly if all of it can be followed. -/
theorem find_eq_directory_iff {place : Location} :
    tree.find path = .ok (place, .directory) ↔
      Passable path ∧ tree.walk (tree.start path) path.written = .ok place := by
  constructor
  · intro found
    rcases find_eq_ok_iff.1 found with
      ⟨last, resolved, -⟩ | ⟨parent, name, slash, resolved, rfl, entry, -⟩
    · obtain ⟨passable, walked, -⟩ := resolve_eq_dots_iff.1 ⟨last, resolved⟩
      exact ⟨passable, walked⟩
    · obtain ⟨passable, front, written, notHere, notUp, short, walked, -⟩ :=
        resolve_eq_name_iff.1 resolved
      refine ⟨passable, ?_⟩
      rw [written, walk_append_singleton_iff]
      refine ⟨parent, walked, stepInto_eq_ok_iff.2 ⟨?_, .inr (.inr ⟨short, entry⟩)⟩⟩
      rw [Location.step, if_neg notHere, if_neg notUp]
  · rintro ⟨passable, walked⟩
    refine find_eq_ok_iff.2 ?_
    rcases List.eq_nil_or_concat path.written with empty | ⟨front, name, written⟩
    · refine .inl ?_
      simp only [and_true]
      refine resolve_eq_dots_iff.2 ⟨passable, walked, fun last ends => ?_⟩
      rw [empty] at ends
      cases ends
    · rw [List.concat_eq_append] at written
      by_cases dots : name = ['.'] ∨ name = ['.', '.']
      · refine .inl ?_
        simp only [and_true]
        refine resolve_eq_dots_iff.2 ⟨passable, walked, fun last ends => ?_⟩
        rw [written, List.getLast?_concat] at ends
        exact Option.some.inj ends ▸ dots
      · rw [not_or] at dots
        rw [written, walk_append_singleton_iff] at walked
        obtain ⟨parent, walked, stepped⟩ := walked
        obtain ⟨rfl, here | up | ⟨short, entry⟩⟩ := stepInto_eq_ok_iff.1 stepped
        · exact absurd here dots.1
        · exact absurd up dots.2
        · rw [Location.step, if_neg dots.1, if_neg dots.2] at entry ⊢
          exact .inr ⟨parent, name, _, resolve_eq_name_iff.2
            ⟨passable, front, written, dots.1, dots.2, short, walked, rfl⟩, rfl, entry, fun _ => rfl⟩

/-- What a path leads to is at the location that the path names. -/
theorem find_location {place : Location} {entry : Entry} (found : tree.find path = .ok (place, entry)) :
    place = tree.location path := by
  rcases find_eq_ok_iff.1 found with ⟨last, resolved, -⟩ | ⟨parent, name, slash, resolved, rfl, -⟩
  · exact walk_eq_ok (resolve_eq_dots_iff.1 ⟨last, resolved⟩).2.1
  · obtain ⟨-, front, written, notHere, notUp, -, walked, -⟩ := resolve_eq_name_iff.1 resolved
    rw [location, written, List.foldl_append, ← walk_eq_ok walked, List.foldl_cons, List.foldl_nil,
      Location.step, if_neg notHere, if_neg notUp]

/-! ## Names below a path -/

theorem start_join {base : Path} {below : Text} (relative : below.head? ≠ some '/') :
    tree.start (base.join below) = tree.start base := by
  rw [start, start, Path.isAbsolute_join relative]

/-- What is written below a path without a slash, be it a name or dots, is one more step. -/
theorem location_join_part (base : Path) {part : Text} (nonempty : part ≠ []) (noSlash : '/' ∉ part) :
    tree.location (base.join part) = (tree.location base).step part := by
  have relative : part.head? ≠ some '/' := fun slash => noSlash (List.mem_of_mem_head? slash)
  rw [location, location, Path.written_join relative, Path.written_part nonempty noSlash,
    start_join relative, List.foldl_append, List.foldl_cons, List.foldl_nil]

theorem location_join_name (base : Path) {name : Text} (isName : Path.IsName name) :
    tree.location (base.join name) = tree.location base ++ [name] := by
  rw [location_join_part base isName.nonempty isName.noSlash, Location.step, if_neg isName.notHere,
    if_neg isName.notUp]

/-- A name below a path is resolved in the directory to which the path leads. -/
theorem resolve_join_name_iff {base : Path} {name last : Text} {parent : Location} {slash : Bool}
    (isName : Path.IsName name) :
    tree.resolve (base.join name) = .ok (.name parent last slash) ↔
      Passable (base.join name) ∧ Text.utf8Size name ≤ maxNameSize ∧
        tree.walk (tree.start base) base.written = .ok parent ∧ last = name ∧ slash = false := by
  have noSlash : ((base.join name).text.getLast? == some '/') = false := by
    rw [Path.getLast?_join_name isName]
    exact beq_false_of_ne isName.getLast?_ne_slash
  rw [resolve_eq_name_iff, Path.written_join isName.head?_ne_slash, Path.written_name isName,
    start_join isName.head?_ne_slash, noSlash]
  refine and_congr_right fun _ => ?_
  constructor
  · rintro ⟨front, written, -, -, short, walked, rfl⟩
    obtain ⟨rfl, same⟩ := List.append_inj' written rfl
    obtain rfl : name = last := by simpa using same
    exact ⟨short, walked, rfl, rfl⟩
  · rintro ⟨short, walked, rfl, rfl⟩
    exact ⟨base.written, rfl, isName.notHere, isName.notUp, short, walked, rfl⟩

/-- What a name below a path leads to is the entry of that name, if the path leads to a
directory and the whole can be given to the system. -/
theorem find_join_name_iff {base : Path} {name : Text} {place : Location} {entry : Entry}
    (isName : Path.IsName name) :
    tree.find (base.join name) = .ok (place, entry) ↔
      Passable (base.join name) ∧ Text.utf8Size name ≤ maxNameSize ∧
        ∃ directory, tree.walk (tree.start base) base.written = .ok directory ∧
          place = directory ++ [name] ∧ tree.entryAt? place = some entry := by
  rw [find_eq_ok_iff]
  constructor
  · rintro (⟨last, resolved, -⟩ | ⟨parent, last, slash, resolved, rfl, found, -⟩)
    · obtain ⟨-, -, dots⟩ := resolve_eq_dots_iff.1 ⟨last, resolved⟩
      have ends : (base.join name).written.getLast? = some name := by
        rw [Path.written_join isName.head?_ne_slash, Path.written_name isName, List.getLast?_concat]
      rcases dots name ends with here | up
      · exact absurd here isName.notHere
      · exact absurd up isName.notUp
    · obtain ⟨passable, short, walked, rfl, rfl⟩ := (resolve_join_name_iff isName).1 resolved
      exact ⟨passable, short, parent, walked, rfl, found⟩
  · rintro ⟨passable, short, directory, walked, rfl, found⟩
    exact .inr ⟨directory, name, false,
      (resolve_join_name_iff isName).2 ⟨passable, short, walked, rfl, rfl⟩, rfl, found, nofun⟩

theorem isDirectory_iff :
    tree.isDirectory path = true ↔ ∃ place, tree.find path = .ok (place, .directory) := by
  unfold isDirectory
  split
  · rename_i place found
    exact ⟨fun _ => ⟨place, found⟩, fun _ => rfl⟩
  · rename_i other
    simp only [Bool.false_eq_true, false_iff]
    rintro ⟨place, found⟩
    exact other place found

theorem isFile_iff :
    tree.isFile path = true ↔
      ∃ place content executable, tree.find path = .ok (place, .file content executable) := by
  unfold isFile
  split
  · rename_i place content executable found
    exact ⟨fun _ => ⟨place, content, executable, found⟩, fun _ => rfl⟩
  · rename_i other
    simp only [Bool.false_eq_true, false_iff]
    rintro ⟨place, content, executable, found⟩
    exact other place content executable found

theorem pathExists_iff :
    tree.pathExists path = true ↔ ∃ place entry, tree.find path = .ok (place, entry) := by
  unfold pathExists
  split
  · rename_i found there
    exact ⟨fun _ => ⟨found.1, found.2, there⟩, fun _ => rfl⟩
  · rename_i e fails
    simp [fails]

/-- The text of a file is that of its bytes. -/
theorem readText_eq_ok_iff {text : Text} :
    tree.readText path = .ok text ↔
      ∃ place content executable, tree.find path = .ok (place, .file content executable) ∧
        Text.decode? content = some text := by
  rw [readText, bind_eq_ok_iff]
  constructor
  · rintro ⟨content, read, decoded⟩
    rw [readBytes, bind_eq_ok_iff] at read
    obtain ⟨⟨place, entry⟩, found, result⟩ := read
    cases entry with
    | directory => cases result
    | file bytes executable =>
        cases result
        split at decoded
        · rename_i found' same
          cases decoded
          exact ⟨place, content, executable, found, same⟩
        · cases decoded
  · rintro ⟨place, content, executable, found, decoded⟩
    refine ⟨content, ?_, by rw [decoded]; rfl⟩
    rw [readBytes, found]
    rfl

end FileTree

/-!
## Files with other bytes

Where only the bytes of files are changed, every path leads to where it led before. So what differs
between the trees is what is read of the files that are changed.
-/

/-- Whether an entry is the same as another one, or a file with the same flag and bytes changed in some
way. -/
inductive RewritesEntry (rewrites : ByteArray → ByteArray → Prop) : Entry → Entry → Prop
  | same (entry : Entry) : RewritesEntry rewrites entry entry
  | file {content other : ByteArray} (executable : Bool) (rewritten : rewrites content other) :
      RewritesEntry rewrites (.file content executable) (.file other executable)

/-- Whether two trees have the same entries at the same locations, apart from bytes of files that are
changed in some way. -/
structure Rewrites (rewrites : ByteArray → ByteArray → Prop) (tree other : FileTree) : Prop where
  workingDirectory : other.workingDirectory = tree.workingDirectory
  entries : ∀ place, Option.Rel (RewritesEntry rewrites) (tree.entryAt? place) (other.entryAt? place)

namespace Rewrites

variable {rewrites : ByteArray → ByteArray → Prop} {tree other : FileTree}

theorem resolve_eq (rewritten : Rewrites rewrites tree other) (path : Path) :
    other.resolve path = tree.resolve path := by
  have stepInto : other.stepInto = tree.stepInto := by
    funext directory part
    have related := rewritten.entries (directory ++ [part])
    rw [FileTree.stepInto, FileTree.stepInto]
    revert related
    generalize tree.entryAt? (directory ++ [part]) = entry
    generalize other.entryAt? (directory ++ [part]) = otherEntry
    rintro (⟨⟨entry⟩ | ⟨executable, here⟩⟩ | _) <;> rfl
  have start : other.start path = tree.start path := by
    rw [FileTree.start, FileTree.start, rewritten.workingDirectory]
  simp only [FileTree.resolve, FileTree.walk, stepInto, start]

/-- A path leads to the same in both trees, or to a file of which the bytes are changed. -/
theorem find_eq_or (rewritten : Rewrites rewrites tree other) (path : Path) :
    other.find path = tree.find path ∨
      ∃ place content otherContent executable, rewrites content otherContent ∧
        tree.find path = .ok (place, .file content executable) ∧
        other.find path = .ok (place, .file otherContent executable) := by
  rw [FileTree.find, FileTree.find, rewritten.resolve_eq]
  cases tree.resolve path with
  | error cause => exact .inl rfl
  | ok place =>
      cases place with
      | dots directory last => exact .inl rfl
      | name parent name slash =>
          simp only [ok_bind]
          have related := rewritten.entries (parent ++ [name])
          revert related
          generalize tree.entryAt? (parent ++ [name]) = entry
          generalize other.entryAt? (parent ++ [name]) = otherEntry
          rintro (⟨⟨entry⟩ | ⟨executable, here⟩⟩ | _)
          · exact .inl rfl
          · cases slash with
            | true => exact .inl rfl
            | false => exact .inr ⟨_, _, _, executable, here, rfl, rfl⟩
          · exact .inl rfl

theorem isFile_eq (rewritten : Rewrites rewrites tree other) (path : Path) :
    other.isFile path = tree.isFile path := by
  rcases rewritten.find_eq_or path with same | ⟨_, _, _, _, -, there, otherThere⟩
  · rw [FileTree.isFile, FileTree.isFile, same]
  · rw [FileTree.isFile, FileTree.isFile, there, otherThere]

/-- The same is read at a path in both trees, or a file of which the bytes are changed. -/
theorem readBytes_eq_or (rewritten : Rewrites rewrites tree other) (path : Path) :
    other.readBytes path = tree.readBytes path ∨
      ∃ content otherContent, rewrites content otherContent ∧ tree.readBytes path = .ok content ∧
        other.readBytes path = .ok otherContent := by
  rcases rewritten.find_eq_or path with same | ⟨_, content, otherContent, _, here, there, otherThere⟩
  · exact .inl (by rw [FileTree.readBytes, FileTree.readBytes, same])
  · refine .inr ⟨content, otherContent, here, ?_, ?_⟩
    · rw [FileTree.readBytes, there]
      rfl
    · rw [FileTree.readBytes, otherThere]
      rfl

end Rewrites

/-! ### Rewriting the files of a tree -/

/-- An entry with the bytes of a file changed. -/
def Entry.rewrite (change : ByteArray → ByteArray) : Entry → Entry
  | directory => directory
  | file content executable => file (change content) executable

namespace FileTree

variable {tree : FileTree} {change : Location → ByteArray → ByteArray}

/-- The tree with the bytes of each file changed, in a way that may depend on its location. -/
def rewriteFiles (tree : FileTree) (change : Location → ByteArray → ByteArray) : FileTree :=
  { tree with entries := tree.entries.map fun item => (item.1, item.2.rewrite (change item.1)) }

theorem lookup_rewriteFiles (entries : List (Location × Entry)) (place : Location) :
    (entries.map fun item => (item.1, item.2.rewrite (change item.1))).lookup place =
      (entries.lookup place).map (Entry.rewrite (change place)) := by
  induction entries with
  | nil => rfl
  | cons item entries ih =>
      obtain ⟨location, entry⟩ := item
      rw [List.map_cons, List.lookup_cons, List.lookup_cons, ih]
      by_cases here : place = location
      · simp [here]
      · simp [beq_false_of_ne here]

theorem rewrites_rewriteFiles {rewrites : ByteArray → ByteArray → Prop}
    (keepsOrRewrites : ∀ place content, change place content = content ∨ rewrites content (change place content)) :
    Rewrites rewrites tree (tree.rewriteFiles change) where
  workingDirectory := rfl
  entries place := by
    rw [entryAt?, entryAt?]
    split
    · exact .some (.same .directory)
    · rw [rewriteFiles, lookup_rewriteFiles]
      cases tree.entries.lookup place with
      | none => exact .none
      | some entry =>
          cases entry with
          | directory => exact .some (.same .directory)
          | file content executable =>
              rcases keepsOrRewrites place content with kept | rewritten
              · rw [Option.map_some, Entry.rewrite, kept]
                exact .some (.same _)
              · exact .some (.file executable rewritten)

end FileTree

end AddonIndex
