import AddonIndex.Proofs.FileTree.Operation
import AddonIndex.Proofs.Text.Encoding
import AddonIndex.Reference.Cache

/-!
# Entries whose preparation is interrupted

An entry is prepared in three phases: what was there is erased, the directory is
made, and the marker is emptied and filled. Whoever stops on the way leaves the
tree after a first part of these changes. The marker that tells that the entry is
not complete is missing between the phases, and an entry without a marker is
trusted.
-/

namespace AddonIndex

namespace ReferenceCache

open FileOp FileTree Reference

variable {cache : ReferenceCache} {addon : Text} {tree : FileTree} {made : List Change}

theorem isName_markerName : Path.IsName markerName where
  nonempty := by decide
  noSlash := by decide
  notHere := by decide
  notUp := by decide

/-- The location of the entry of an addon. -/
def entryPlace (cache : ReferenceCache) (addon : Text) (tree : FileTree) : Location :=
  tree.location (cache.entry addon)

/-- The location of the marker in the entry of an addon. -/
def markerPlace (cache : ReferenceCache) (addon : Text) (tree : FileTree) : Location :=
  cache.entryPlace addon tree ++ [markerName]

/-- Whether the entry of an addon is not there, and no marker where it would be. -/
def Absent (cache : ReferenceCache) (addon : Text) (tree : FileTree) : Prop :=
  tree.pathExists (cache.entry addon) = false ∧
    tree.entryAt? (cache.markerPlace addon tree) = none

/-- The change that completes the marker of an entry that is not complete. -/
def fillsMarker (cache : ReferenceCache) (addon : Text) (tree : FileTree) (change : Change) : Prop :=
  ∃ executable,
    change = .putFile (cache.markerPlace addon tree) (markerText false).encode executable

/-! ## What the marker tells -/

/-- Whether the marker of an entry can be read and tells that the entry is not complete. -/
def MarkedInvalid (cache : ReferenceCache) (addon : Text) (tree : FileTree) : Prop :=
  ∃ text, tree.readText ((cache.entry addon).join markerName) = .ok text ∧
    validFlag? text = some false

theorem state_eq_valid_iff :
    cache.state addon tree = .valid ↔
      tree.isDirectory (cache.entry addon) = true ∧ ¬ cache.MarkedInvalid addon tree := by
  unfold state MarkedInvalid
  cases there : tree.isDirectory (cache.entry addon) with
  | false => simp [there]
  | true =>
      cases read : tree.readText ((cache.entry addon).join markerName) with
      | error e => simp [there, read]
      | ok text => by_cases flag : validFlag? text = some false <;> simp [there, read, flag]

theorem state_eq_invalid_iff :
    cache.state addon tree = .invalid ↔
      tree.isDirectory (cache.entry addon) = true ∧ cache.MarkedInvalid addon tree := by
  unfold state MarkedInvalid
  cases there : tree.isDirectory (cache.entry addon) with
  | false => simp [there]
  | true =>
      cases read : tree.readText ((cache.entry addon).join markerName) with
      | error e => simp [there, read]
      | ok text => by_cases flag : validFlag? text = some false <;> simp [there, read, flag]

/-- In an entry that is there the marker is a file at its place. -/
theorem markedInvalid_iff (there : tree.isDirectory (cache.entry addon) = true) :
    cache.MarkedInvalid addon tree ↔
      Passable ((cache.entry addon).join markerName) ∧
        ∃ content executable text,
          tree.entryAt? (cache.markerPlace addon tree) = some (.file content executable) ∧
            Text.decode? content = some text ∧ validFlag? text = some false := by
  obtain ⟨place, found⟩ := isDirectory_iff.1 there
  have walked := (find_eq_directory_iff.1 found).2
  have isEntry : place = cache.entryPlace addon tree := walk_eq_ok walked
  constructor
  · rintro ⟨text, read, flag⟩
    obtain ⟨_, content, executable, opened, decoded⟩ := readText_eq_ok_iff.1 read
    obtain ⟨passable, -, directory, same, rfl, marker⟩ :=
      (find_join_name_iff isName_markerName).1 opened
    cases walked.symm.trans same
    rw [isEntry] at marker
    exact ⟨passable, content, executable, text, marker, decoded, flag⟩
  · rintro ⟨passable, content, executable, text, marker, decoded, flag⟩
    refine ⟨text, readText_eq_ok_iff.2 ⟨place ++ [markerName], content, executable, ?_, decoded⟩, flag⟩
    refine (find_join_name_iff isName_markerName).2 ⟨passable, by decide, place, walked, rfl, ?_⟩
    rw [isEntry]
    exact marker

/-! ## The phases -/

/-- A preparation that stops somewhere has erased a part, or erased all and made some
directories, or made all directories and begun to write the marker. -/
theorem stopsAfter_prepare (stops : StopsAfter (cache.prepare addon) tree made) :
    ∃ erased created filled, made = erased ++ (created ++ filled) ∧
      erased <+: (clear (cache.entry addon) tree).1 ∧
      (∀ change ∈ created, change.MakesDirectory) ∧
      (filled = [] ∨ Passable ((cache.entry addon).join markerName) ∧ ∃ executable, filled <+:
        [.putFile (cache.markerPlace addon tree) ByteArray.empty executable,
          .putFile (cache.markerPlace addon tree) (markerText false).encode executable]) ∧
      (created ++ filled ≠ [] → erased = (clear (cache.entry addon) tree).1) := by
  rcases stopsAfter_bind stops with erasing | ⟨_, more, -, rfl, later⟩
  · exact ⟨made, [], [], by simp, erasing, nofun, .inl rfl, nofun⟩
  · rcases stopsAfter_bind later with making | ⟨_, rest, -, rfl, writing⟩
    · exact ⟨_, more, [], by simp, List.prefix_refl _,
        (only_makeDirectories _).of_stopsAfter making, .inl rfl, fun _ => rfl⟩
    · refine ⟨_, _, rest, rfl, List.prefix_refl _, fun change => only_makeDirectories _ _ change,
        ?_, fun _ => rfl⟩
      rcases stopsAfter_writeBytes (stopsAfter_bind_pure writing) with
        none | ⟨place, executable, written, begun⟩
      · exact .inl none
      · obtain ⟨parent, name, resolved, rfl, -⟩ := writable_eq_ok_iff.1 written
        obtain ⟨passable, -, walked, rfl, -⟩ := (resolve_join_name_iff isName_markerName).1 resolved
        refine .inr ⟨passable, executable, ?_⟩
        have isEntry : parent = cache.entryPlace addon tree := by
          rw [walk_eq_ok walked]
          simp only [← FileTree.location.eq_1, location_applyAll, entryPlace]
        rw [isEntry] at begun
        exact begun

/-- The marker of an entry that is marked is among what is erased. -/
theorem erase_marker_mem_clear (marked : cache.state addon tree = .invalid) :
    .erase (cache.markerPlace addon tree) ∈ (clear (cache.entry addon) tree).1 := by
  obtain ⟨there, tells⟩ := state_eq_invalid_iff.1 marked
  obtain ⟨-, content, executable, -, marker, -⟩ := (markedInvalid_iff there).1 tells
  obtain ⟨place, found⟩ := isDirectory_iff.1 there
  obtain rfl : place = cache.entryPlace addon tree := find_location found
  have member : ([markerName], .file content executable) ∈ tree.below (cache.entryPlace addon tree) :=
    mem_below_iff.2 ⟨List.cons_ne_nil _ _, mem_entries_of_entryAt? (by simp) marker⟩
  rw [clear, if_pos (pathExists_iff.2 ⟨_, _, found⟩)]
  exact erase_mem_removeTree found member

theorem only_clear (entry : Path) : Only Change.Erases (clear entry) := by
  intro tree change member
  rw [clear] at member
  split at member
  · exact only_removeTree entry tree change member
  · cases member

/-! ## What an interrupted preparation leaves -/

@[simp]
theorem markerPlace_applyAll (changes : List Change) :
    cache.markerPlace addon (tree.applyAll changes) = cache.markerPlace addon tree := by
  rw [markerPlace, markerPlace, entryPlace, entryPlace, location_applyAll]

/-- No change of a preparation but the completion of the marker leaves a marker that tells
that the entry is not complete. -/
theorem not_marked_of_mem_prepare (stops : StopsAfter (cache.prepare addon) tree made)
    {change : Change} (member : change ∈ made) (unfilled : ¬ cache.fillsMarker addon tree change)
    {content : ByteArray} {executable : Bool} {text : Text}
    (leaves : change.leaves? = some (.file content executable))
    (decoded : Text.decode? content = some text) : validFlag? text ≠ some false := by
  obtain ⟨erased, created, filled, rfl, erases, creates, fills, -⟩ := stopsAfter_prepare stops
  rcases List.mem_append.1 member with inErased | later
  · obtain ⟨location, rfl⟩ := only_clear _ tree change (erases.subset inErased)
    cases leaves
  · rcases List.mem_append.1 later with inCreated | inFilled
    · obtain ⟨location, rfl⟩ := creates change inCreated
      cases leaves
    · rcases fills with rfl | ⟨-, flag, fills⟩
      · cases inFilled
      · rcases List.mem_cons.1 (fills.subset inFilled) with rfl | last
        · cases leaves
          rw [Text.decode?_empty] at decoded
          cases decoded
          decide
        · obtain rfl := List.mem_singleton.1 last
          exact absurd ⟨flag, rfl⟩ unfilled

/-- The marker is completed last. -/
theorem exists_append_of_mem_filled {place : Location} {flag executable : Bool}
    {filled : List Change}
    (first : filled <+: [.putFile place ByteArray.empty executable,
      .putFile place (markerText false).encode executable])
    (member : .putFile place (markerText false).encode flag ∈ filled) :
    ∃ before, filled = before ++ [.putFile place (markerText false).encode flag] := by
  have notEmpty : ByteArray.empty ≠ (markerText false).encode := by
    intro same
    have decoded := Text.decode?_encode (markerText false)
    rw [← same, Text.decode?_empty] at decoded
    exact absurd decoded (by decide)
  rcases List.prefix_cons_iff.1 first with rfl | ⟨rest, rfl, second⟩
  · cases member
  · rcases List.mem_cons.1 member with same | inRest
    · exact absurd (Change.putFile.inj same).2.1.symm notEmpty
    · rcases List.prefix_cons_iff.1 second with rfl | ⟨more, rfl, ended⟩
      · cases inRest
      · obtain rfl := List.prefix_nil.1 ended
        rw [List.mem_singleton.1 inRest]
        exact ⟨[_], rfl⟩

/-- Once the marker is completed it tells that the entry is not complete. -/
theorem markedInvalid_of_fillsMarker (stops : StopsAfter (cache.prepare addon) tree made)
    {change : Change} (member : change ∈ made) (fills : cache.fillsMarker addon tree change)
    (there : (tree.applyAll made).isDirectory (cache.entry addon) = true) :
    cache.MarkedInvalid addon (tree.applyAll made) := by
  obtain ⟨erased, created, filled, rfl, erases, creates, fillings, -⟩ := stopsAfter_prepare stops
  obtain ⟨flag, rfl⟩ := fills
  rcases List.mem_append.1 member with inErased | later
  · obtain ⟨location, erasing⟩ := only_clear _ tree _ (erases.subset inErased)
    cases erasing
  · rcases List.mem_append.1 later with inCreated | inFilled
    · obtain ⟨location, creating⟩ := creates _ inCreated
      cases creating
    · rcases fillings with rfl | ⟨passable, executable, first⟩
      · cases inFilled
      · obtain ⟨before, rfl⟩ := exists_append_of_mem_filled first inFilled
        refine (markedInvalid_iff there).2 ⟨passable, (markerText false).encode, flag,
          markerText false, ?_, Text.decode?_encode _, by decide⟩
        rw [markerPlace_applyAll, ← List.append_assoc, ← List.append_assoc, applyAll_append,
          applyAll_cons, applyAll_nil, entryAt?_apply, if_pos ⟨by simp [markerPlace], rfl⟩]
        rfl

/-- Whoever stops a preparation leaves an entry that is trusted exactly if its directory is
there, its old marker is erased if it had one, and its new marker is not complete. -/
theorem state_eq_valid_iff_of_stopsAfter_prepare
    (prior : cache.Absent addon tree ∨ cache.state addon tree = .invalid)
    (stops : StopsAfter (cache.prepare addon) tree made) :
    cache.state addon (tree.applyAll made) = .valid ↔
      (tree.applyAll made).isDirectory (cache.entry addon) = true ∧
        (cache.state addon tree = .invalid → .erase (cache.markerPlace addon tree) ∈ made) ∧
        ∀ change ∈ made, ¬ cache.fillsMarker addon tree change := by
  have below : cache.markerPlace addon tree ≠ [] := by simp [markerPlace]
  -- Where some change is about the marker, the last one leaves it unmarked.
  have unmarked : (∀ change ∈ made, ¬ cache.fillsMarker addon tree change) →
      ∀ touching ∈ made, touching.location = cache.markerPlace addon tree →
        (tree.applyAll made).isDirectory (cache.entry addon) = true →
        ¬ cache.MarkedInvalid addon (tree.applyAll made) := by
    intro unfilled touching member touches there tells
    obtain ⟨-, content, executable, text, marker, decoded, flag⟩ := (markedInvalid_iff there).1 tells
    obtain ⟨last, lastMember, -, result⟩ := exists_entryAt?_applyAll tree below member touches
    rw [markerPlace_applyAll, result] at marker
    exact not_marked_of_mem_prepare stops lastMember (unfilled last lastMember) marker decoded flag
  rw [state_eq_valid_iff]
  refine and_congr_right fun there => ?_
  constructor
  · intro trusted
    have unfilled : ∀ change ∈ made, ¬ cache.fillsMarker addon tree change :=
      fun change member fills => trusted (markedInvalid_of_fillsMarker stops member fills there)
    refine ⟨fun marked => ?_, unfilled⟩
    obtain ⟨erased, created, filled, rfl, erases, -, -, complete⟩ := stopsAfter_prepare stops
    by_cases later : created ++ filled = []
    · -- Nothing but erasures was made; had none been about the marker, it would still be there.
      rw [later, List.append_nil] at trusted there ⊢
      rcases Classical.em (.erase (cache.markerPlace addon tree) ∈ erased) with erasing | kept
      · exact erasing
      · refine absurd ((markedInvalid_iff there).2 ?_) trusted
        obtain ⟨wasThere, tells⟩ := state_eq_invalid_iff.1 marked
        obtain ⟨passable, content, executable, text, marker, decoded⟩ :=
          (markedInvalid_iff wasThere).1 tells
        refine ⟨passable, content, executable, text, ?_, decoded⟩
        rw [markerPlace_applyAll, entryAt?_applyAll_of_untouched, marker]
        intro change member touches
        obtain ⟨location, rfl⟩ := only_clear _ tree change (erases.subset member)
        exact kept (touches ▸ member)
    · rw [complete later]
      exact List.mem_append_left _ (erase_marker_mem_clear marked)
  · rintro ⟨erased, unfilled⟩ tells
    rcases prior with ⟨-, noMarker⟩ | marked
    · rcases Classical.em (∃ change ∈ made, change.location = cache.markerPlace addon tree) with
        ⟨touching, member, touches⟩ | untouched
      · exact unmarked unfilled touching member touches there tells
      · obtain ⟨-, content, executable, text, marker, -⟩ := (markedInvalid_iff there).1 tells
        rw [markerPlace_applyAll, entryAt?_applyAll_of_untouched, noMarker] at marker
        · cases marker
        · exact fun change member touches => untouched ⟨change, member, touches⟩
    · exact unmarked unfilled _ (erased marked) rfl there tells

/-! ## A preparation that stops early -/

/-- A cache whose root is a directory without entries. -/
def emptyCache : ReferenceCache := ⟨"ref"⟩

/-- The tree of an empty cache. -/
def emptyCacheTree : FileTree := { entries := [(["ref".toList], .directory)] }

/-- The first change of the preparation of an entry in an empty cache. -/
def firstChange : Change := .makeDirectory ["ref".toList, "@A".toList]

theorem absent_emptyCache : emptyCache.Absent "@A" emptyCacheTree := ⟨by decide, by decide⟩

theorem stopsAfter_firstChange :
    StopsAfter (emptyCache.prepare "@A") emptyCacheTree [firstChange] := by
  have along : (emptyCache.entry "@A").ancestors = [⟨"ref/@A"⟩, ⟨"ref"⟩, ⟨[]⟩] := by decide +kernel
  unfold StopsAfter prepare makeDirectories
  rw [along]
  exact ⟨_, rfl⟩

/-- The entry is trusted before there is anything in it. -/
theorem trusted_after_firstChange :
    emptyCache.Absent "@A" emptyCacheTree ∧
      StopsAfter (emptyCache.prepare "@A") emptyCacheTree [firstChange] ∧
      emptyCache.state "@A" (emptyCacheTree.applyAll [firstChange]) = .valid :=
  ⟨absent_emptyCache, stopsAfter_firstChange, by decide⟩

/-- The general condition holds there. -/
theorem directory_without_marker_after_firstChange :
    (emptyCacheTree.applyAll [firstChange]).isDirectory (emptyCache.entry "@A") = true ∧
      (emptyCache.state "@A" emptyCacheTree = .invalid →
        .erase (emptyCache.markerPlace "@A" emptyCacheTree) ∈ [firstChange]) ∧
      ∀ change ∈ [firstChange], ¬ emptyCache.fillsMarker "@A" emptyCacheTree change :=
  (state_eq_valid_iff_of_stopsAfter_prepare (.inl absent_emptyCache) stopsAfter_firstChange).1
    (by decide)

end ReferenceCache

end AddonIndex
