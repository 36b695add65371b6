import AddonIndex.Proofs.FileTree.Outcome
import AddonIndex.Proofs.Reference.Interruption

/-!
# What an entry holds

A prepared entry holds its marker and nothing else. Each copy adds one file and
the directories above it, so that in the end the entry holds the files that were
saved, the directories above these, and the marker.
-/

namespace AddonIndex

namespace Reference

open FileTree

variable {place : Location} {before after tree : FileTree} {saved : Location → ByteArray → Prop}

/-- Whether a tree differs from an earlier one only at and below a place. -/
structure ChangesWithin (place : Location) (before after : FileTree) : Prop where
  workingDirectory : after.workingDirectory = before.workingDirectory
  elsewhere : ∀ other, ¬ place <+: other → after.entryAt? other = before.entryAt? other

theorem ChangesWithin.refl (place : Location) (tree : FileTree) : ChangesWithin place tree tree :=
  ⟨rfl, fun _ _ => rfl⟩

theorem ChangesWithin.trans {middle : FileTree} (first : ChangesWithin place before middle)
    (second : ChangesWithin place middle after) : ChangesWithin place before after where
  workingDirectory := second.workingDirectory.trans first.workingDirectory
  elsewhere other outside := (second.elsewhere other outside).trans (first.elsewhere other outside)

theorem ChangesWithin.location (within : ChangesWithin place before after) (path : Path) :
    after.location path = before.location path :=
  location_congr within.workingDirectory path

theorem changesWithin_of_grows {allowed : Location → Prop} (grows : Grows allowed before after)
    (below : ∀ other, allowed other → place <+: other) : ChangesWithin place before after where
  workingDirectory := grows.workingDirectory
  elsewhere other outside := by
    rcases grows.entryAt? other with same | ⟨-, -, isAllowed⟩
    · exact same
    · exact absurd (below other isAllowed) outside

theorem changesWithin_of_puts {other : Location} {entry : Entry} (puts : Puts other entry before after)
    (below : place <+: other) : ChangesWithin place before after where
  workingDirectory := puts.workingDirectory
  elsewhere place outside := by
    rw [puts.entryAt?, if_neg]
    rintro rfl
    exact outside below

/-- Whether the entry at a place holds certain files, given by their locations below it, the
directories above them, the marker, and nothing else. -/
structure Holds (place : Location) (saved : Location → ByteArray → Prop) (tree : FileTree) : Prop where
  here : tree.entryAt? place = some .directory
  marker : ∃ content executable,
    tree.entryAt? (place ++ [markerName]) = some (.file content executable)
  isSaved : ∀ below content executable,
    tree.entryAt? (place ++ below) = some (.file content executable) →
      below = [markerName] ∨ saved below content
  holds : ∀ below content, saved below content →
    ∃ executable, tree.entryAt? (place ++ below) = some (.file content executable)
  above : ∀ front rest content, rest ≠ [] → saved (front ++ rest) content →
    tree.entryAt? (place ++ front) = some .directory
  isAbove : ∀ below, below ≠ [] → tree.entryAt? (place ++ below) = some .directory →
    ∃ rest content, rest ≠ [] ∧ saved (below ++ rest) content

/-- An entry with nothing but a marker holds no files. -/
theorem holds_of_empty (here : tree.entryAt? place = some .directory) {content : ByteArray}
    {executable : Bool}
    (isMarker : tree.entryAt? (place ++ [markerName]) = some (.file content executable))
    (nothing : ∀ below, below ≠ [] → below ≠ [markerName] → tree.entryAt? (place ++ below) = none) :
    Holds place (fun _ _ => False) tree where
  here := here
  marker := ⟨content, executable, isMarker⟩
  isSaved below content executable there := by
    by_cases nonempty : below = []
    · rw [nonempty, List.append_nil, here] at there
      cases there
    · by_cases notMarker : below = [markerName]
      · exact .inl notMarker
      · rw [nothing below nonempty notMarker] at there
        cases there
  holds _ _ impossible := impossible.elim
  above _ _ _ _ impossible := impossible.elim
  isAbove below nonempty there := by
    by_cases notMarker : below = [markerName]
    · rw [notMarker, isMarker] at there
      cases there
    · rw [nothing below nonempty notMarker] at there
      cases there

/-- A file that is put below directories that were made for it is held from then on. -/
theorem Holds.add {made : FileTree} {front : List Text} {last : Text} {content : ByteArray}
    {executable : Bool} (holds : Holds place saved tree) (below : front ≠ [])
    (grows : Grows (fun other => ∃ above, above ≠ [] ∧ above <+: front ∧ other = place ++ above) tree made)
    (directories : ∀ above, above ≠ [] → above <+: front →
      made.entryAt? (place ++ above) = some .directory)
    (puts : Puts (place ++ (front ++ [last])) (.file content executable) made after)
    (noDirectory : made.entryAt? (place ++ (front ++ [last])) ≠ some .directory)
    (function : ∀ bytes, saved (front ++ [last]) bytes → bytes = content) :
    Holds place (fun below bytes => saved below bytes ∨ below = front ++ [last] ∧ bytes = content)
      after := by
  have elsewhere : ∀ below, below ≠ front ++ [last] →
      after.entryAt? (place ++ below) = made.entryAt? (place ++ below) := by
    intro below other
    rw [puts.entryAt?, if_neg fun same => other (List.append_cancel_left same)]
  have stays : ∀ below entry, below ≠ front ++ [last] → tree.entryAt? (place ++ below) = some entry →
      after.entryAt? (place ++ below) = some entry := by
    intro below entry other there
    rw [elsewhere below other]
    exact grows.entryAt?_of_some there
  have directoryStays : ∀ below, made.entryAt? (place ++ below) = some .directory →
      after.entryAt? (place ++ below) = some .directory := by
    intro below there
    rw [elsewhere below, there]
    rintro rfl
    exact noDirectory there
  have isLast := puts.entryAt? (place ++ (front ++ [last]))
  rw [if_pos rfl] at isLast
  have here : made.entryAt? place = some .directory := grows.entryAt?_of_some holds.here
  exact
    { here := by
        have stays := directoryStays [] (by rwa [List.append_nil])
        rwa [List.append_nil] at stays
      marker := by
        obtain ⟨content, executable, isMarker⟩ := holds.marker
        refine ⟨content, executable, stays _ _ (fun same => ?_) isMarker⟩
        have length := congrArg List.length same
        exact below (by simpa using length)
      isSaved := by
        intro below bytes flag there
        by_cases isNew : below = front ++ [last]
        · rw [isNew, isLast] at there
          cases there
          exact .inr (.inr ⟨isNew, rfl⟩)
        · rw [elsewhere below isNew] at there
          rcases grows.entryAt? (place ++ below) with same | ⟨-, isDirectory, -⟩
          · exact (holds.isSaved below bytes flag (same ▸ there)).imp_right .inl
          · rw [isDirectory] at there
            cases there
      holds := by
        rintro below bytes (old | ⟨rfl, rfl⟩)
        · by_cases isNew : below = front ++ [last]
          · rw [function bytes (isNew ▸ old), isNew]
            exact ⟨executable, isLast⟩
          · obtain ⟨flag, there⟩ := holds.holds below bytes old
            exact ⟨flag, stays below _ isNew there⟩
        · exact ⟨executable, isLast⟩
      above := by
        rintro above rest bytes nonempty (old | ⟨new, -⟩)
        · exact directoryStays above (grows.entryAt?_of_some (holds.above above rest bytes nonempty old))
        · refine directoryStays above ?_
          by_cases top : above = []
          · rwa [top, List.append_nil]
          · refine directories above top ?_
            rcases List.eq_nil_or_concat rest with rfl | ⟨before, _, rfl⟩
            · exact absurd rfl nonempty
            · rw [List.concat_eq_append, ← List.append_assoc] at new
              exact ⟨before, (List.append_inj' new rfl).1⟩
      isAbove := by
        intro below nonempty there
        have notNew : below ≠ front ++ [last] := by
          rintro rfl
          rw [isLast] at there
          cases there
        rw [elsewhere below notNew] at there
        rcases grows.entryAt? (place ++ below) with same | ⟨-, -, above, -, ⟨rest, isPrefix⟩, isAbove⟩
        · obtain ⟨rest, bytes, more, old⟩ := holds.isAbove below nonempty (same ▸ there)
          exact ⟨rest, bytes, more, .inl old⟩
        · obtain rfl := List.append_cancel_left isAbove
          exact ⟨rest ++ [last], content, by simp, .inr ⟨by rw [← isPrefix, List.append_assoc], rfl⟩⟩ }

/-- A tree stays well-formed if all that changes is an entry in a directory, and that holds files
under names. -/
theorem Holds.wellFormed {front : Location} {name : Text} (formed : before.WellFormed)
    (distinct : after.Distinct) (isName : Path.IsName name)
    (parent : before.entryAt? front = some .directory)
    (within : ChangesWithin (front ++ [name]) before after) (holds : Holds (front ++ [name]) saved after)
    (areNames : ∀ below content, saved below content → ∀ name ∈ below, Path.IsName name) :
    after.WellFormed := by
  have notAbove : ¬ front ++ [name] <+: front := by
    intro isPrefix
    have length := isPrefix.length_le
    rw [List.length_append, List.length_singleton] at length
    omega
  have parentAfter : after.entryAt? front = some .directory := by rw [within.elsewhere front notAbove, parent]
  -- Every location in the entry is made of names, and what is above it is a directory.
  have belowEntry : ∀ below entry, after.entryAt? (front ++ [name] ++ below) = some entry →
      (∀ name ∈ below, Path.IsName name) ∧ ∀ above last, below = above ++ [last] →
        after.entryAt? (front ++ [name] ++ above) = some .directory := by
    intro below entry there
    cases entry with
    | file content executable =>
        rcases holds.isSaved below content executable there with rfl | isSaved
        · refine ⟨?_, fun above last split => ?_⟩
          · simpa using ReferenceCache.isName_markerName
          · obtain ⟨rfl, -⟩ := List.append_inj' (split.symm.trans (List.nil_append _).symm) rfl
            rw [List.append_nil]
            exact holds.here
        · refine ⟨areNames below content isSaved, fun above last split => ?_⟩
          exact holds.above above [last] content (List.cons_ne_nil _ _) (split ▸ isSaved)
    | directory =>
        by_cases nonempty : below = []
        · rw [nonempty]
          exact ⟨List.forall_mem_nil _, fun above last split => by simp at split⟩
        · obtain ⟨rest, content, -, isSaved⟩ := holds.isAbove below nonempty there
          refine ⟨fun other member => areNames _ content isSaved other (List.mem_append_left _ member),
            fun above last split => ?_⟩
          rw [split, List.append_assoc] at isSaved
          exact holds.above above _ content (by simp) isSaved
  refine ⟨distinct, fun item member => ?_, fun place last entry there => ?_⟩
  · by_cases top : item.1 = []
    · rw [top]
      exact List.forall_mem_nil _
    · have there := (distinct.mem_entries_iff top).1 member
      by_cases inEntry : front ++ [name] <+: item.1
      · obtain ⟨below, split⟩ := inEntry
        rw [← split] at there ⊢
        have frontNames := formed.names parent
        have belowNames := (belowEntry below _ there).1
        intro other inWay
        rcases List.mem_append.1 inWay with inPlace | inBelow
        · rcases List.mem_append.1 inPlace with inFront | isLast
          · exact frontNames other inFront
          · rwa [List.mem_singleton.1 isLast]
        · exact belowNames other inBelow
      · rw [within.elsewhere _ inEntry] at there
        exact formed.names there
  · by_cases inEntry : front ++ [name] <+: place ++ [last]
    · obtain ⟨below, split⟩ := inEntry
      rw [← split] at there
      rcases List.eq_nil_or_concat below with rfl | ⟨above, other, rfl⟩
      · rw [List.append_nil] at split
        obtain ⟨rfl, -⟩ := List.append_inj' split rfl
        exact parentAfter
      · rw [List.concat_eq_append] at there split
        rw [← List.append_assoc] at split
        obtain ⟨rfl, -⟩ := List.append_inj' split rfl
        exact (belowEntry _ _ there).2 above other rfl
    · rw [within.elsewhere _ inEntry] at there
      rw [within.elsewhere place fun isPrefix => inEntry (isPrefix.trans (List.prefix_append _ _))]
      exact formed.grounded place last entry there

end Reference

namespace ReferenceCache

open FileOp FileTree Reference

variable {cache : ReferenceCache} {addon : Text} {tree after : FileTree}

theorem entry_eq (cache : ReferenceCache) (addon : Text) : cache.entry addon = cache.root.join addon :=
  rfl

theorem changesWithin_clear {entry : Path} (cleared : (clear entry).run tree = (after, .ok ())) :
    ChangesWithin (tree.location entry) tree after := by
  rw [run_eq, clear] at cleared
  split at cleared
  · obtain ⟨rfl, -⟩ := Prod.mk.inj cleared
    refine ⟨workingDirectory_applyAll _ _, fun other outside => ?_⟩
    exact entryAt?_removeTree entry tree outside
  · cases cleared
    exact ⟨rfl, fun _ _ => rfl⟩

/-- Nothing is below an entry that was cleared and can be made again. -/
theorem entryAt?_of_clear (formed : tree.WellFormed) (isName : Path.IsName addon) {place : Location}
    (rooted : tree.find cache.root = .ok (place, .directory))
    (cleared : (clear (cache.entry addon)).run tree = (after, .ok ()))
    (passable : Passable (cache.entry addon)) (short : Text.utf8Size addon ≤ maxNameSize)
    {below : Location} (nonempty : below ≠ []) :
    after.entryAt? (cache.entryPlace addon tree ++ below) = none := by
  rw [run_eq, clear] at cleared
  split at cleared
  · exact entryAt?_of_removeTree cleared nonempty
  · rename_i missing
    cases cleared
    by_contra there
    obtain ⟨entry, there⟩ := Option.ne_none_iff_exists'.1 there
    rw [entryPlace, entry_eq, location_join_name _ isName, ← find_location rooted] at there
    have above := formed.above there nonempty
    have found := (find_join_name_iff isName).2 ⟨passable, short, place, (find_eq_directory_iff.1 rooted).2,
      rfl, above⟩
    exact missing (pathExists_iff.2 ⟨_, _, found⟩)

/-- What a successful preparation leaves. -/
theorem holds_of_prepare (formed : tree.WellFormed) (isName : Path.IsName addon)
    (rooted : tree.isDirectory cache.root = true)
    (avoids : tree.Avoids cache.root (cache.entryPlace addon tree)) {entry : Path}
    (prepared : (cache.prepare addon).run tree = (after, .ok entry)) :
    entry = cache.entry addon ∧ ChangesWithin (cache.entryPlace addon tree) tree after ∧
      after.find entry = .ok (cache.entryPlace addon tree, .directory) ∧
      Holds (cache.entryPlace addon tree) (fun _ _ => False) after := by
  unfold prepare at prepared
  obtain ⟨⟨⟩, cleared, clearing, prepared⟩ := run_bind_eq_ok_iff.1 prepared
  obtain ⟨⟨⟩, made, making, prepared⟩ := run_bind_eq_ok_iff.1 prepared
  obtain ⟨⟨⟩, _, writing, prepared⟩ := run_bind_eq_ok_iff.1 prepared
  rw [run_pure] at prepared
  cases prepared
  obtain ⟨root, rooted⟩ := isDirectory_iff.1 rooted
  have placed : cache.entryPlace addon tree = root ++ [addon] := by
    rw [entryPlace, entry_eq, location_join_name _ isName, ← find_location rooted]
  have emptied := changesWithin_clear clearing
  have stillRooted := (avoids.find_iff emptied.workingDirectory emptied.elsewhere).2 rooted
  obtain ⟨grows, found⟩ := grows_makeDirectories_join isName stillRooted making
  obtain ⟨passable, short, -⟩ := (find_join_name_iff isName).1 found
  have nothing : ∀ below, below ≠ [] → cleared.entryAt? (cache.entryPlace addon tree ++ below) = none :=
    fun below => entryAt?_of_clear formed isName rooted clearing passable short
  rw [← placed] at grows found
  obtain ⟨executable, canWrite, puts⟩ := puts_of_writeBytes writing
  obtain ⟨-, -, noDirectory⟩ := location_of_writable canWrite
  have markerPlaced : made.location ((cache.entry addon).join markerName) =
      cache.entryPlace addon tree ++ [markerName] := by
    rw [location_join_name _ isName_markerName, grows.location, emptied.location, entryPlace]
  rw [markerPlaced] at puts noDirectory
  have within := (emptied.trans (changesWithin_of_grows grows fun _ same => same ▸ List.prefix_refl _)).trans
    (changesWithin_of_puts puts (List.prefix_append _ _))
  refine ⟨rfl, within, puts.findDirectory noDirectory found, ?_⟩
  -- Nothing but the marker is below the entry.
  have none : ∀ below, below ≠ [] → below ≠ [markerName] →
      after.entryAt? (cache.entryPlace addon tree ++ below) = none := by
    intro below nonempty notMarker
    rw [puts.entryAt?, if_neg fun same => notMarker (List.append_cancel_left same)]
    rcases grows.entryAt? (cache.entryPlace addon tree ++ below) with same | ⟨-, -, here⟩
    · rw [same, nothing below nonempty]
    · exact absurd (List.append_right_eq_self.1 here) nonempty
  have isMarker := puts.entryAt? (cache.entryPlace addon tree ++ [markerName])
  rw [if_pos rfl] at isMarker
  have here : after.entryAt? (cache.entryPlace addon tree) = some .directory := by
    rw [puts.entryAt?, if_neg (by simp)]
    obtain ⟨-, -, _, -, same, there⟩ := (find_join_name_iff isName).1 found
    exact there
  exact holds_of_empty here isMarker none

/-- Where a file is kept, given the names that lead to it. -/
theorem target_eq {entry source : Path} {directory name : Text} {names : List Text}
    (isDirectory : Path.IsName directory) (isName : Path.IsName name)
    (areNames : ∀ name ∈ names, Path.IsName name) :
    target entry directory { source, relative := Text.joinWith ['/'] (name :: names) } =
      entry.descend (directory :: name :: names) :=
  Path.join_joinWith (Path.endsInName_join entry isDirectory) isName areNames

/-- A file is copied after the directories above its target were made. -/
theorem exists_of_copy {entry : Path} {directory : Text} {file : SourceFile} {front : List Text}
    {last : Text} (ends : Path.EndsInName entry) (areNames : ∀ name ∈ front ++ [last], Path.IsName name)
    (isTarget : target entry directory file = entry.descend (front ++ [last])) {reached : Path}
    (copied : (copy entry directory file).run tree = (after, .ok reached)) :
    reached = entry.descend (front ++ [last]) ∧
      ∃ made, (makeDirectories (entry.descend front)).run tree = (made, .ok ()) ∧
        (copyFile file.source (entry.descend (front ++ [last]))).run made = (after, .ok ()) := by
  have frontNames : ∀ name ∈ front, Path.IsName name :=
    fun name member => areNames name (List.mem_append_left _ member)
  have parent : (entry.descend (front ++ [last])).parent? = some (entry.descend front) := by
    rw [Path.descend_append, Path.descend_singleton]
    exact Path.parent?_join (ends.descend frontNames) (areNames last (by simp))
  unfold copy at copied
  simp only [isTarget, parent] at copied
  obtain ⟨⟨⟩, made, making, copied⟩ := run_bind_eq_ok_iff.1 copied
  obtain ⟨⟨⟩, _, copying, copied⟩ := run_bind_eq_ok_iff.1 copied
  rw [run_pure] at copied
  cases copied
  exact ⟨rfl, made, making, copying⟩

/-- An entry that holds some files holds one more after it was copied. -/
theorem holds_of_copy {entry : Path} {place : Location} {saved : Location → ByteArray → Prop}
    {directory : Text} {file : SourceFile} {front : List Text} {last : Text}
    (ends : Path.EndsInName entry) (areNames : ∀ name ∈ front ++ [last], Path.IsName name)
    (isTarget : target entry directory file = entry.descend (front ++ [last])) (below : front ≠ [])
    (holds : Holds place saved tree) (found : tree.find entry = .ok (place, .directory))
    (avoids : tree.Avoids file.source place)
    (sourceElsewhere : ¬ place <+: tree.location file.source)
    (function : ∀ content other executable, saved (front ++ [last]) content →
      tree.entryAt? (tree.location file.source) = some (.file other executable) → content = other)
    {reached : Path} (copied : (copy entry directory file).run tree = (after, .ok reached)) :
    ∃ content executable,
      tree.find file.source = .ok (tree.location file.source, .file content executable) ∧
      reached = entry.descend (front ++ [last]) ∧ ChangesWithin place tree after ∧
      after.find entry = .ok (place, .directory) ∧
      Holds place (fun below bytes => saved below bytes ∨
        below = front ++ [last] ∧ bytes = content) after := by
  have frontNames : ∀ name ∈ front, Path.IsName name :=
    fun name member => areNames name (List.mem_append_left _ member)
  obtain ⟨rfl, made, making, copying⟩ := exists_of_copy ends areNames isTarget copied
  have grows := grows_makeDirectories ends frontNames found
  rw [making] at grows
  simp only at grows
  have madeWithin : ChangesWithin place tree made := by
    refine changesWithin_of_grows grows ?_
    rintro other ⟨front, -, -, rfl⟩
    exact List.prefix_append _ _
  obtain ⟨source, content, executable, flag, leads, canWrite, puts⟩ := puts_of_copyFile copying
  obtain ⟨-, -, noDirectory⟩ := location_of_writable canWrite
  have placed : made.location (entry.descend (front ++ [last])) = place ++ (front ++ [last]) := by
    rw [location_descend made entry areNames, grows.location, ← find_location found]
  rw [placed] at puts noDirectory
  obtain rfl : source = tree.location file.source := by rw [find_location leads, grows.location]
  have leads := (avoids.find_iff madeWithin.workingDirectory madeWithin.elsewhere).1 leads
  obtain ⟨-, -, -, -, -, -, -, -, -, -, -, isSource⟩ := find_eq_file_iff.1 leads
  have puts := puts fun same => sourceElsewhere (same ▸ List.prefix_append _ _)
  have directories : ∀ above, above ≠ [] → above <+: front →
      made.entryAt? (place ++ above) = some .directory := by
    obtain ⟨reached, there⟩ := isDirectory_iff.1 (isDirectory_of_makeDirectories
      (ends.descend frontNames).text_ne_nil making)
    obtain ⟨-, walked⟩ := find_eq_directory_iff.1 (grows.findDirectory found)
    obtain ⟨-, whole⟩ := find_eq_directory_iff.1 there
    rw [Path.written_descend entry frontNames, walk_append, start_descend made entry frontNames, walked]
      at whole
    exact fun above nonempty isPrefix => entryAt?_of_walk_names frontNames whole nonempty isPrefix
  refine ⟨content, executable, leads, rfl, madeWithin.trans
    (changesWithin_of_puts puts (List.prefix_append _ _)),
    puts.findDirectory noDirectory (grows.findDirectory found), ?_⟩
  exact holds.add below grows directories puts noDirectory fun bytes old =>
    function bytes content executable old isSource

/-! ## The complete marker -/

/-- An entry that is marked as complete holds what it held. -/
theorem holds_of_markValid {entry : Path} {place : Location} {saved : Location → ByteArray → Prop}
    (holds : Holds place saved tree) (notMarker : ∀ content, ¬ saved [markerName] content)
    (found : tree.find entry = .ok (place, .directory))
    (marked : (markValid entry).run tree = (after, .ok ())) :
    ChangesWithin place tree after ∧ after.find entry = .ok (place, .directory) ∧
      (∃ executable, after.entryAt? (place ++ [markerName]) =
        some (.file (markerText true).encode executable)) ∧ Holds place saved after := by
  obtain ⟨executable, canWrite, puts⟩ := puts_of_writeBytes marked
  obtain ⟨-, -, noDirectory⟩ := location_of_writable canWrite
  have placed : tree.location (entry.join markerName) = place ++ [markerName] := by
    rw [location_join_name entry isName_markerName, ← find_location found]
  rw [placed] at puts noDirectory
  have isMarker := puts.entryAt? (place ++ [markerName])
  rw [if_pos rfl] at isMarker
  have elsewhere : ∀ below, below ≠ [markerName] →
      after.entryAt? (place ++ below) = tree.entryAt? (place ++ below) := by
    intro below other
    rw [puts.entryAt?, if_neg fun same => other (List.append_cancel_left same)]
  refine ⟨changesWithin_of_puts puts (List.prefix_append _ _), puts.findDirectory noDirectory found,
    ⟨executable, isMarker⟩, ?_⟩
  exact
    { here := by
        rw [puts.entryAt?, if_neg (by simp)]
        exact holds.here
      marker := ⟨_, executable, isMarker⟩
      isSaved := by
        intro below content flag there
        by_cases other : below = [markerName]
        · exact .inl other
        · exact holds.isSaved below content flag (elsewhere below other ▸ there)
      holds := by
        intro below content isSaved
        rw [elsewhere below fun same => notMarker content (same ▸ isSaved)]
        exact holds.holds below content isSaved
      above := by
        intro front rest content nonempty isSaved
        have there := holds.above front rest content nonempty isSaved
        rw [elsewhere front, there]
        rintro rfl
        exact noDirectory there
      isAbove := by
        intro below nonempty there
        have other : below ≠ [markerName] := by
          rintro rfl
          rw [isMarker] at there
          cases there
        exact holds.isAbove below nonempty (elsewhere below other ▸ there) }

/-- An entry with a complete marker is trusted. -/
theorem state_eq_valid (found : tree.find (cache.entry addon) = .ok (cache.entryPlace addon tree, .directory))
    {executable : Bool} (isMarker : tree.entryAt? (cache.markerPlace addon tree) =
      some (.file (markerText true).encode executable)) : cache.state addon tree = .valid := by
  have there : tree.isDirectory (cache.entry addon) = true := isDirectory_iff.2 ⟨_, found⟩
  refine state_eq_valid_iff.2 ⟨there, fun marked => ?_⟩
  obtain ⟨-, content, flag, text, marker, decoded, isInvalid⟩ := (markedInvalid_iff there).1 marked
  rw [isMarker] at marker
  cases marker
  rw [Text.decode?_encode] at decoded
  cases decoded
  exact absurd isInvalid (by decide)

end ReferenceCache

end AddonIndex
