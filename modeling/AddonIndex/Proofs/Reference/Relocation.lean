import AddonIndex.Proofs.ClassConfig.Inclusion
import AddonIndex.Proofs.Reference.Mirror

/-!
# Reading from an entry

A path below the directory of the extracted archives has a counterpart below the
entry. It leads to the same file there if the way never leaves the directory and
passes only what was kept. A config whose inclusions are all of that kind is read
from the entry as it was read from the extracted archives.
-/

namespace AddonIndex.Reference

open ClassConfig FileTree

/-- Two directories, each in a tree, of which the second one holds the files that were kept
from the first one. -/
structure Mirrored (tree next : FileTree) (origin entry : Path)
    (kept : Location → ByteArray → Prop) : Prop where
  formed : tree.WellFormed
  found : tree.find origin = .ok (tree.location origin, .directory)
  foundEntry : next.find entry = .ok (next.location entry, .directory)
  holds : Holds (next.location entry) kept next
  isKept : ∀ below content, kept below content →
    ∃ executable, tree.entryAt? (tree.location origin ++ below) = some (.file content executable)
  /-- The path of the entry is not the longer one. -/
  shorter : entry.text.utf8Size ≤ origin.text.utf8Size

/-- A path below another one. -/
def under (base : Path) (rest : Text) : Path := ⟨base.text ++ '/' :: rest⟩

/-- Whether a path below a directory leads to the same file in another directory that holds what
was kept: the way stays in the directory, does not come to the marker, and where it leads to a
file, everything on the way is, or holds, something that was kept. -/
structure Steady (tree : FileTree) (origin : Path) (kept : Location → ByteArray → Prop)
    (rest : Text) : Prop where
  passable : Passable (under origin rest)
  stays : Location.Stays [] (Path.written ⟨rest⟩)
  notMarker : (Path.written ⟨rest⟩).foldl Location.step [] ≠ [markerName]
  passes : tree.isFile (under origin rest) = true →
    ∀ passed ∈ Location.visited [] (Path.written ⟨rest⟩), passed ≠ [] →
      ∃ more content, kept (passed ++ more) content

variable {tree next : FileTree} {origin entry : Path} {kept : Location → ByteArray → Prop} {rest : Text}

theorem Mirrored.passable (mirrored : Mirrored tree next origin entry kept)
    (passable : Passable (under origin rest)) : Passable (under entry rest) := by
  obtain ⟨-, noZero, short⟩ := passable
  obtain ⟨⟨-, entryNoZero, -⟩, -⟩ := find_eq_directory_iff.1 mirrored.foundEntry
  have shorter := mirrored.shorter
  simp only [under, List.mem_append, not_or] at noZero
  refine ⟨by simp [under], ?_, ?_⟩
  · simp only [under, List.mem_append, not_or]
    exact ⟨entryNoZero, noZero.2⟩
  · simp only [under, Text.utf8Size_append] at short ⊢
    omega

theorem getLast?_append_slash (base rest : Text) :
    (base ++ '/' :: rest).getLast? = ('/' :: rest).getLast? := by
  rw [List.getLast?_append, List.getLast?_cons, Option.some_or]

/-- A file that a steady path leads to has its counterpart in the other directory. -/
theorem Mirrored.find_of_find (mirrored : Mirrored tree next origin entry kept)
    (steady : Steady tree origin kept rest) {place : Location} {content : ByteArray} {executable : Bool}
    (found : tree.find (under origin rest) = .ok (place, .file content executable)) :
    ∃ place executable, next.find (under entry rest) = .ok (place, .file content executable) := by
  obtain ⟨-, noSlash, front, name, written, notHere, notUp, short, parent, walked, rfl, there⟩ :=
    (find_below_eq_file_iff mirrored.found).1 found
  have stays := steady.stays
  have passes := steady.passes (isFile_iff.2 ⟨_, _, _, found⟩)
  rw [written] at stays passes
  rw [Location.visited_append] at passes
  obtain ⟨frontStays, -⟩ := Location.stays_append_iff.1 stays
  have origins := walk_eq_ok walked
  have transferred := @walk_transfer tree next (tree.location origin) (next.location entry) [] front
    frontStays (by
      intro below member nonempty isDirectory
      obtain ⟨more, bytes, isKept⟩ := passes below (List.mem_append_left _ member) nonempty
      by_cases atFile : more = []
      · rw [atFile, List.append_nil] at isKept
        obtain ⟨flag, isFile⟩ := mirrored.isKept below bytes isKept
        rw [isDirectory] at isFile
        cases isFile
      · exact mirrored.holds.above below more bytes atFile isKept)
    parent (by rwa [List.append_nil])
  rw [List.append_nil] at transferred
  have relative : parent = tree.location origin ++ front.foldl Location.step [] := by
    have moved := Location.foldl_step_append frontStays (tree.location origin)
    rw [List.append_nil] at moved
    rw [origins, moved]
  have reached : Location.visited (front.foldl Location.step []) [name] =
      [front.foldl Location.step [] ++ [name]] := by
    rw [Location.visited, Location.visited, Location.step, if_neg notHere, if_neg notUp]
  obtain ⟨more, bytes, isKept⟩ := passes (front.foldl Location.step [] ++ [name])
    (List.mem_append_right _ (reached ▸ List.mem_singleton_self _)) (by simp)
  rw [relative, List.append_assoc] at there
  -- What is kept is the file itself, as nothing is below a file.
  obtain rfl : more = [] := by
    by_contra nonempty
    obtain ⟨flag, below⟩ := mirrored.isKept _ bytes isKept
    rw [← List.append_assoc, ← List.append_assoc] at below
    have isDirectory := mirrored.formed.above below nonempty
    rw [List.append_assoc, there] at isDirectory
    cases isDirectory
  rw [List.append_nil] at isKept
  obtain ⟨flag, same⟩ := mirrored.isKept _ bytes isKept
  rw [there] at same
  cases same
  obtain ⟨executable, isFile⟩ := mirrored.holds.holds _ content isKept
  rw [← List.append_assoc] at isFile
  refine ⟨_, executable, (find_below_eq_file_iff mirrored.foundEntry).2 ⟨mirrored.passable steady.passable,
    ?_, front, name, written, notHere, notUp, short, _, transferred, rfl, isFile⟩⟩
  rwa [getLast?_append_slash] at noSlash ⊢

/-- Where a steady path leads to no file its counterpart leads to none. -/
theorem Mirrored.isFile_eq_false (mirrored : Mirrored tree next origin entry kept)
    (steady : Steady tree origin kept rest) (missing : tree.isFile (under origin rest) = false) :
    next.isFile (under entry rest) = false := by
  rw [Bool.eq_false_iff]
  intro isFile
  obtain ⟨place, content, executable, found⟩ := isFile_iff.1 isFile
  obtain ⟨-, noSlash, front, name, written, notHere, notUp, short, parent, walked, rfl, there⟩ :=
    (find_below_eq_file_iff mirrored.foundEntry).1 found
  have stays := steady.stays
  have notMarker := steady.notMarker
  rw [written] at stays notMarker
  obtain ⟨frontStays, -⟩ := Location.stays_append_iff.1 stays
  have transferred := @walk_transfer next tree (next.location entry) (tree.location origin) [] front
    frontStays (by
      intro below _ nonempty isDirectory
      obtain ⟨more, bytes, atFile, isKept⟩ := mirrored.holds.isAbove below nonempty isDirectory
      obtain ⟨flag, isFile⟩ := mirrored.isKept _ bytes isKept
      rw [← List.append_assoc] at isFile
      exact mirrored.formed.above isFile atFile)
    parent (by rwa [List.append_nil])
  rw [List.append_nil] at transferred
  have relative : parent = next.location entry ++ front.foldl Location.step [] := by
    have moved := Location.foldl_step_append frontStays (next.location entry)
    rw [List.append_nil] at moved
    rw [walk_eq_ok walked, moved]
  rw [List.foldl_append, List.foldl_cons, List.foldl_nil, Location.step, if_neg notHere, if_neg notUp]
    at notMarker
  rw [relative, List.append_assoc] at there
  rcases mirrored.holds.isSaved _ content executable there with isMarker | isKept
  · exact notMarker isMarker
  · obtain ⟨flag, isFile⟩ := mirrored.isKept _ content isKept
    rw [← List.append_assoc] at isFile
    have wasFile := isFile_iff.2 ⟨_, _, _, (find_below_eq_file_iff mirrored.found).2 ⟨steady.passable,
      by rwa [getLast?_append_slash] at noSlash ⊢, front, name, written, notHere, notUp, short, _,
      transferred, rfl, isFile⟩⟩
    rw [under, wasFile] at missing
    cases missing

/-! ## Counterparts -/

/-- Whether a path below a directory that is steady and leads to a file has another path as its
counterpart. It begins with a name, and something follows. -/
def Counterpart (tree : FileTree) (origin entry : Path) (kept : Location → ByteArray → Prop)
    (file relative : Path) : Prop :=
  ∃ stem more, Path.IsName stem ∧ file = under origin (stem ++ '/' :: more) ∧
    relative = under entry (stem ++ '/' :: more) ∧ Steady tree origin kept (stem ++ '/' :: more) ∧
    tree.isFile file = true

theorem Mirrored.readText_eq_ok (mirrored : Mirrored tree next origin entry kept) {file relative : Path}
    (same : Counterpart tree origin entry kept file relative) {text : Text}
    (read : tree.readText file = .ok text) : next.readText relative = .ok text := by
  obtain ⟨stem, more, -, rfl, rfl, steady, -⟩ := same
  obtain ⟨place, content, executable, found, decoded⟩ := readText_eq_ok_iff.1 read
  obtain ⟨place, executable, found⟩ := mirrored.find_of_find steady found
  exact readText_eq_ok_iff.2 ⟨place, content, executable, found, decoded⟩

/-- A path to a file does not end with idle parts. -/
theorem dropIdleParts_ne_nil {stem more : Text} (isName : Path.IsName stem)
    (mirrored : Mirrored tree next origin entry kept)
    (isFile : tree.isFile (under origin (stem ++ '/' :: more)) = true) :
    Path.dropIdleParts more.reverse ≠ [] := by
  intro idle
  obtain ⟨place, content, executable, found⟩ := isFile_iff.1 isFile
  obtain ⟨-, noSlash, front, name, written, notHere, -⟩ := (find_below_eq_file_iff mirrored.found).1 found
  have dots := Path.eq_here_of_dropIdleParts idle
  rw [List.reverse_reverse] at dots
  rw [Path.written_append_slash, Path.written_name isName] at written
  rcases List.eq_nil_or_concat (Path.written ⟨more⟩) with none | ⟨before, last, ends⟩
  · -- Such a path ends with a slash.
    have slashes := Path.eq_slash_of_written none
    rw [getLast?_append_slash, ← List.cons_append, getLast?_append_slash] at noSlash
    cases last : ('/' :: more).getLast? with
    | none => simp at last
    | some c =>
        rw [last] at noSlash
        rcases List.mem_cons.1 (List.mem_of_getLast? last) with rfl | member
        · exact noSlash rfl
        · exact noSlash (congrArg some (slashes c member))
  · rw [ends, List.concat_eq_append, ← List.append_assoc] at written
    obtain ⟨-, same⟩ := List.append_inj' written rfl
    obtain rfl : last = name := by simpa using same
    exact notHere (dots last (by rw [ends]; simp))

/-! ## Inclusions -/

theorem under_injective (base : Path) : Function.Injective (under base) := by
  intro first second same
  have texts := congrArg Path.text same
  simp only [under, List.append_cancel_left_eq, List.cons.injEq, true_and] at texts
  exact texts

/-- What is joined to a path below another one is below that one too. -/
theorem exists_join_under {stem parent below : Text} (isName : Path.IsName stem)
    (begins : Path.BeginsWith stem parent) (relative : below.head? ≠ some '/') :
    ∃ more, ∀ base : Path, (under base parent).join below = under base (stem ++ '/' :: more) := by
  have joined : ∀ base : Path, (under base parent).join below =
      if ('/' :: parent).getLast? = some '/' then under base (parent ++ below)
      else under base (parent ++ '/' :: below) := by
    intro base
    have last := getLast?_append_slash base.text parent
    unfold Path.join
    rw [if_neg relative]
    simp [under, last]
  rcases begins with rfl | ⟨rest, rfl⟩
  · refine ⟨below, fun base => ?_⟩
    rw [joined, if_neg]
    obtain ⟨c, rest, rfl⟩ := List.exists_cons_of_ne_nil isName.nonempty
    rw [List.getLast?_cons_cons]
    exact isName.getLast?_ne_slash
  · by_cases slash : ('/' :: (stem ++ '/' :: rest)).getLast? = some '/'
    · exact ⟨rest ++ below, fun base => by rw [joined, if_pos slash]; simp⟩
    · exact ⟨rest ++ '/' :: below, fun base => by rw [joined, if_neg slash]; simp⟩

/-- Whether the candidates of an inclusion are steady, up to the first one that is a file. -/
def LooksSteady (tree : FileTree) (origin : Path) (kept : Location → ByteArray → Prop) :
    List Path → Prop
  | [] => True
  | candidate :: others =>
      (∃ rest, candidate = under origin rest ∧ Steady tree origin kept rest) ∧
        (tree.isFile candidate = false → LooksSteady tree origin kept others)

/-- An inclusion is looked for in the same places below both directories. -/
theorem exists_candidates_eq (mirrored : Mirrored tree next origin entry kept) {file relative : Path}
    (same : Counterpart tree origin entry kept file relative) {stem includeDirectory : Text}
    (isName : Path.IsName stem) (begins : Path.BeginsWith stem includeDirectory) (name : Text) :
    ∃ rests : List Text, (∀ rest ∈ rests, ∃ stem more, Path.IsName stem ∧ rest = stem ++ '/' :: more) ∧
      inclusionCandidates file (under origin includeDirectory) name = rests.map (under origin) ∧
      inclusionCandidates relative (under entry includeDirectory) name = rests.map (under entry) := by
  obtain ⟨first, more, firstIsName, rfl, rfl, -, isFile⟩ := same
  obtain ⟨⟨originNonempty, -⟩, -⟩ := find_eq_directory_iff.1 mirrored.found
  obtain ⟨⟨entryNonempty, -⟩, -⟩ := find_eq_directory_iff.1 mirrored.foundEntry
  obtain ⟨parent, parentBegins, isParent⟩ :=
    Path.exists_parent?_eq firstIsName (dropIdleParts_ne_nil firstIsName mirrored isFile)
  have relative : ((name.map fun c => if c = '\\' then '/' else c).dropWhile (· == '/')).head? ≠ some '/' := by
    intro slash
    have first := List.head?_dropWhile_not (· == '/') (name.map fun c => if c = '\\' then '/' else c)
    rw [slash] at first
    cases first
  obtain ⟨besides, besidesEq⟩ := exists_join_under firstIsName parentBegins relative
  obtain ⟨inside, insideEq⟩ := exists_join_under isName begins relative
  refine ⟨[first ++ '/' :: besides, stem ++ '/' :: inside], ?_, ?_, ?_⟩
  · simp only [List.mem_cons, List.not_mem_nil, or_false]
    rintro rest (rfl | rfl)
    · exact ⟨first, besides, firstIsName, rfl⟩
    · exact ⟨stem, inside, isName, rfl⟩
  · unfold inclusionCandidates
    rw [under, isParent _ originNonempty, ← under]
    simp [besidesEq, insideEq]
  · unfold inclusionCandidates
    rw [under, isParent _ entryNonempty, ← under]
    simp [besidesEq, insideEq]

/-- Candidates that look steady are decided alike in both directories. -/
theorem find?_candidates_eq (mirrored : Mirrored tree next origin entry kept) {rests : List Text}
    (looks : LooksSteady tree origin kept (rests.map (under origin))) {target : Path}
    (found : (rests.map (under origin)).find? tree.isFile = some target) :
    ∃ rest ∈ rests, target = under origin rest ∧ Steady tree origin kept rest ∧
      tree.isFile target = true ∧ (rests.map (under entry)).find? next.isFile = some (under entry rest) := by
  induction rests with
  | nil => cases found
  | cons rest rests ih =>
      obtain ⟨⟨other, same, steady⟩, later⟩ := looks
      obtain rfl := under_injective origin same
      rw [List.map_cons, List.find?_cons] at found
      rw [List.map_cons, List.find?_cons]
      cases isFile : tree.isFile (under origin rest) with
      | true =>
          rw [isFile] at found
          cases found
          obtain ⟨place, content, executable, leads⟩ := isFile_iff.1 isFile
          obtain ⟨place, executable, leads⟩ := mirrored.find_of_find steady leads
          rw [isFile_iff.2 ⟨place, content, executable, leads⟩]
          exact ⟨rest, List.mem_cons_self, rfl, steady, isFile, rfl⟩
      | false =>
          rw [isFile] at found
          rw [mirrored.isFile_eq_false steady isFile]
          obtain ⟨rest', member, result⟩ := ih (later isFile) found
          exact ⟨rest', List.mem_cons_of_mem _ member, result⟩

/-- Whether every inclusion that reading a config carries out looks steady. -/
def IncludesSteadily (tree : FileTree) (origin : Path) (kept : Location → ByteArray → Prop)
    (config : Path) : Prop :=
  ∀ inclusion ∈ inclusions tree (config.parent?.getD config) maxInclusionDepth config {},
    LooksSteady tree origin kept
      (inclusionCandidates inclusion.1 (config.parent?.getD config) inclusion.2)

/-- A config that includes steadily is read from the entry as from the extracted archives. -/
theorem Mirrored.readConfig_eq_ok (mirrored : Mirrored tree next origin entry kept) {config relative : Path}
    (same : Counterpart tree origin entry kept config relative)
    (steadily : IncludesSteadily tree origin kept config) {parsed : ParsedConfig}
    (read : readConfig tree config (config.parent?.getD config) = .ok parsed) :
    parsed.file.path = config ∧
      readConfig next relative (relative.parent?.getD relative) = .ok (parsed.withPath relative) := by
  obtain ⟨stem, more, isName, rfl, rfl, steady, isFile⟩ := same
  have same : Counterpart tree origin entry kept _ _ := ⟨stem, more, isName, rfl, rfl, steady, isFile⟩
  obtain ⟨⟨originNonempty, -⟩, -⟩ := find_eq_directory_iff.1 mirrored.found
  obtain ⟨⟨entryNonempty, -⟩, -⟩ := find_eq_directory_iff.1 mirrored.foundEntry
  obtain ⟨parent, begins, isParent⟩ :=
    Path.exists_parent?_eq isName (dropIdleParts_ne_nil isName mirrored isFile)
  have originParent : (under origin (stem ++ '/' :: more)).parent? = some (under origin parent) :=
    isParent _ originNonempty
  have entryParent : (under entry (stem ++ '/' :: more)).parent? = some (under entry parent) :=
    isParent _ entryNonempty
  unfold IncludesSteadily at steadily
  rw [originParent, Option.getD_some] at steadily read
  rw [entryParent, Option.getD_some]
  let pair : TreePair :=
    { tree, directory := under origin parent, other := next, otherDirectory := under entry parent }
  have agree : pair.Agree (Counterpart tree origin entry kept)
      (inclusions tree (under origin parent) maxInclusionDepth (under origin (stem ++ '/' :: more)) {}) := by
    intro inclusion member relative same target resolved
    obtain ⟨rests, begin, candidates, counterparts⟩ :=
      exists_candidates_eq mirrored same isName begins inclusion.2
    have looks := steadily inclusion member
    unfold resolveInclusion at resolved ⊢
    rw [candidates] at resolved looks
    obtain ⟨rest, inRests, rfl, steady, isFile, found⟩ := find?_candidates_eq mirrored looks resolved
    obtain ⟨first, more, firstIsName, rfl⟩ := begin rest inRests
    exact ⟨_, by rw [counterparts, found], first, more, firstIsName, rfl, rfl, steady, isFile⟩
  exact @ClassConfig.readConfig_eq_ok pair _ _ _ parsed
    (fun file relative same text => mirrored.readText_eq_ok same) same agree read

end AddonIndex.Reference
