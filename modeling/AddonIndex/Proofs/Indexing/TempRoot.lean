import AddonIndex.Proofs.FileTree.Outcome
import AddonIndex.Proofs.Indexing.ListingOrder
import AddonIndex.Proofs.Indexing.Residue

/-!
# The directory for extracted archives is new

The name of the directory gets underscores until nothing has it. That comes to an end, since there are finitely many
entries; the directory is made under the first free name, and all else stays as it was. No addon that is discovered has
its entry of the reference cache there.
-/

namespace AddonIndex

namespace FileOp

open FileTree

/-- A directory that was made is where nothing was, with all else as it was. -/
theorem puts_of_makeDirectory {tree after : FileTree} {path : Path}
    (made : (makeDirectory path).run tree = (after, .ok ())) :
    tree.entryAt? (tree.location path) = none ∧ Puts (tree.location path) .directory tree after := by
  rw [run_eq] at made
  rcases makeDirectory_cases path tree with ⟨e, failed⟩ | ⟨parent, name, slash, resolved, nothing, done⟩
  · rw [failed] at made
    cases made
  · rw [location_of_resolve resolved] at nothing done
    have below : tree.location path ≠ [] := by
      rw [← location_of_resolve resolved]
      exact List.append_ne_nil_of_right_ne_nil _ (List.cons_ne_nil _ _)
    rw [done] at made
    cases made
    refine ⟨nothing, workingDirectory_applyAll tree _, fun other => ?_⟩
    rw [applyAll_cons, applyAll_nil, entryAt?_apply]
    by_cases here : other = tree.location path
    · rw [if_pos ⟨here ▸ below, here⟩, if_pos here]
      rfl
    · rw [if_neg fun both => here both.2, if_neg here]

end FileOp

namespace Indexing

open Activity FileTree FileOp

variable {root found : Path} {tree : FileTree} {world after : World} {moves : List (Move World)} {count : Nat}

/-! ## The search for a name -/

/-- Whether the search for a free name finds a candidate, from a number of underscores on. There is no bound to it: as
long as there is something of the name, one more underscore is tried. -/
inductive Searches (root : Path) (tree : FileTree) : (underscores : Nat) → (found : Path) → Prop
  | free {underscores : Nat} (nothing : tree.pathExists (tempRootCandidate root underscores) = false) :
      Searches root tree underscores (tempRootCandidate root underscores)
  | taken {underscores : Nat} {found : Path}
      (there : tree.pathExists (tempRootCandidate root underscores) = true)
      (later : Searches root tree (underscores + 1) found) : Searches root tree underscores found

/-- A search passes over what is taken. -/
theorem searches_of_taken (free : tree.pathExists (tempRootCandidate root count) = false) {underscores : Nat}
    (begins : underscores ≤ count)
    (taken : ∀ fewer, underscores ≤ fewer → fewer < count → tree.pathExists (tempRootCandidate root fewer) = true) :
    Searches root tree underscores (tempRootCandidate root count) := by
  induction begins using Nat.decreasingInduction with
  | self => exact .free free
  | of_succ fewer before ih =>
      exact .taken (taken fewer le_rfl before) (ih fun other after => taken other (Nat.le_of_succ_le after))

/-- A search finds nothing else. -/
theorem Searches.unique {underscores : Nat} {other : Path} (first : Searches root tree underscores found)
    (second : Searches root tree underscores other) : found = other := by
  induction first with
  | free nothing =>
      cases second with
      | free _ => rfl
      | taken there _ => rw [nothing] at there; cases there
  | taken there _ ih =>
      cases second with
      | free nothing => rw [nothing] at there; cases there
      | taken _ later => exact ih later

/-- The search comes to an end, with the path that is chosen. -/
theorem searches_iff : Searches root tree 0 found ↔ found = chooseTempRoot root tree := by
  rcases exists_chooseTempRoot_eq root tree with ⟨count, chosen, free, taken⟩
  rw [chosen]
  have searches := searches_of_taken free (Nat.zero_le count) fun fewer _ => taken fewer
  constructor
  · exact fun finds => finds.unique searches
  · rintro rfl
    exact searches

theorem tempRootCandidate_inj {other : Nat} (same : tempRootCandidate root count = tempRootCandidate root other) :
    count = other := by
  have places := congrArg (FileTree.location {}) same
  rw [location_candidate, location_candidate] at places
  simpa using congrArg (List.map List.length) (List.append_cancel_left places)

/-- Where there is something of the name of a candidate there is an entry. -/
theorem isSome_of_pathExists_candidate (there : tree.pathExists (tempRootCandidate root count) = true) :
    (tree.entryAt? (tree.location (tempRootCandidate root count))).isSome := by
  rcases pathExists_iff.1 there with ⟨place, entry, isFound⟩
  rcases (find_join_name_iff (isName_candidate count)).1 isFound with ⟨-, -, -, -, -, isEntry⟩
  rw [← find_location isFound, isEntry]
  rfl

/-! ## The directory and the entries of addons -/

/-- A candidate is nowhere near the entry of an addon. -/
theorem location_candidate_ne_entry {name : Text} (isAddon : IsAddonName name) (tree : FileTree) (root : Path)
    (count : Nat) :
    tree.location (tempRootCandidate root count) ≠ tree.location (ReferenceCache.entry ⟨root⟩ name) := by
  rw [location_candidate, ReferenceCache.entry, location_join_name root isAddon.isName]
  intro same
  have marked := isAddon.marked
  rw [← List.singleton_inj.1 (List.append_cancel_left same)] at marked
  cases marked

/-- What is discovered in a world is called like addons. -/
theorem areAddons_of_discover {selection : Selection} {roots : List Text} {directories : List Path}
    (named : world.tree.Named)
    (discovers : Executes Interference (discover selection roots) world moves after (some directories)) :
    ∀ directory ∈ directories, IsAddonName (addonName directory) := by
  have about : IsAboutPlaces fun world => world.tree.Named := by
    intro before after same isNamed
    rwa [same.tree]
  exact (about.reached (upholds_discover about.allows (fun _ isNamed => isNamed) roots) discovers named).2.2 directories rfl

/-! ## The directory that is made -/

/-- What comes of the creation of the directory for extracted archives: it is under the first name that was free, where
nothing was, and all else is as it was; or it could not be made and nothing has changed. -/
inductive MakesTempRoot (root : Path) (count : Nat) (before after : FileTree) :
    Option (Except RunFailure Path) → Prop
  | made
      (taken : ∀ fewer < count, (before.entryAt? (before.location (tempRootCandidate root fewer))).isSome)
      (nothing : before.entryAt? (before.location (tempRootCandidate root count)) = none)
      (puts : Puts (before.location (tempRootCandidate root count)) .directory before after) :
      MakesTempRoot root count before after (some (.ok (tempRootCandidate root count)))
  | failed {cause : FileError} (same : after = before) :
      MakesTempRoot root count before after (some (.error (.tempRootNotCreated (tempRootCandidate root count) cause)))

/-- The search for a directory for extracted archives ends with the first free name, under which the directory is made
unless that fails. It is not the entry of an addon that is discovered, then or at any other time. -/
theorem makesTempRoot_of_createTempRoot {result : Option (Except RunFailure Path)}
    (execution : Executes Interference (createTempRoot root) world moves after result) :
    ∃ count, (∀ found, Searches root world.tree 0 found ↔ found = tempRootCandidate root count) ∧
      MakesTempRoot root count world.tree after.tree result ∧
      ∀ (selection : Selection) (roots : List Text) (earlier discovered : World) (looks : List (Move World))
        (directories : List Path), earlier.tree.Named →
        Executes Interference (discover selection roots) earlier looks discovered (some directories) →
        ∀ directory ∈ directories, world.tree.location (tempRootCandidate root count) ≠
          world.tree.location (ReferenceCache.entry ⟨root⟩ (addonName directory)) := by
  rcases exists_chooseTempRoot_eq root world.tree with ⟨count, chosen, free, taken⟩
  refine ⟨count, fun found => chosen ▸ searches_iff, ?_, fun _ _ _ _ _ _ named discovers directory member =>
    location_candidate_ne_entry (areAddons_of_discover named discovers directory member) _ _ _⟩
  rcases executes_inspect_bind_iff.1 execution with ⟨seen, _, rfl, toSee, execution⟩
  rw [(SameFiles.of_gap toSee).tree, chosen] at execution
  rcases executes_perform_bind_iff.1 execution with ⟨making, _, rfl, toMake, execution⟩
  have same : making.tree = world.tree := (SameFiles.of_gap (toSee.trans toMake)).tree
  cases ran : (makeDirectory (tempRootCandidate root count)).run making.tree with
  | mk made answer =>
      rw [ran] at execution
      cases answer with
      | ok _ =>
          rcases executes_pure_iff.1 execution with ⟨-, rfl, gap⟩
          have kept : after.tree = made := (SameFiles.of_gap gap).tree
          rw [same] at ran
          rcases puts_of_makeDirectory ran with ⟨nothing, puts⟩
          rw [kept]
          exact .made (fun fewer before => isSome_of_pathExists_candidate (taken fewer before)) nothing puts
      | error cause =>
          rcases executes_pure_iff.1 execution with ⟨-, rfl, gap⟩
          have kept : after.tree = made := (SameFiles.of_gap gap).tree
          apply MakesTempRoot.failed
          rw [kept, ← same]
          rw [FileOp.run_eq] at ran
          rcases makeDirectory_cases (tempRootCandidate root count) making.tree with
            ⟨e, failed⟩ | ⟨parent, name, slash, resolved, nothing, done⟩
          · rw [failed] at ran
            cases ran
            rfl
          · rw [done] at ran
            cases ran

/-- Files before a run that finds a directory and a file under the first two names. -/
def crowded : World :=
  { littered with
    tree := littered.tree.put ["ref".toList, "_addonIndexerTemp_".toList] (.file ByteArray.empty false) }

/-- The third name is chosen, which is not that of the entry of the addon. -/
theorem makesTempRoot_crowded :
    ∃ moves looks, Executes Interference (createTempRoot "ref") crowded moves
        ((createTempRoot "ref").run crowded).1 (some (.ok ⟨"ref/_addonIndexerTemp__".toList⟩)) ∧
      Executes Interference (discover modsOnly ["mods"]) crowded looks ((discover modsOnly ["mods"]).run crowded).1
        (some [⟨"mods/@A".toList⟩]) ∧
      MakesTempRoot "ref" 2 crowded.tree ((createTempRoot "ref").run crowded).1.tree
        (some (.ok ⟨"ref/_addonIndexerTemp__".toList⟩)) ∧
      crowded.tree.location (tempRootCandidate "ref" 2) ≠
        crowded.tree.location (ReferenceCache.entry ⟨"ref"⟩ (addonName ⟨"mods/@A".toList⟩)) := by
  have named : crowded.tree.Named := ⟨by decide +kernel, by decide +kernel⟩
  have answer : ((createTempRoot "ref").run crowded).2 = some (.ok ⟨"ref/_addonIndexerTemp__".toList⟩) := by
    decide +kernel
  have found : ((discover modsOnly ["mods"]).run crowded).2 = some [⟨"mods/@A".toList⟩] := by decide +kernel
  obtain ⟨moves, execution⟩ : ∃ moves, Executes Interference (createTempRoot "ref") crowded moves _ _ :=
    executes_run (createTempRoot "ref") crowded
  obtain ⟨looks, discovers⟩ : ∃ looks, Executes Interference (discover modsOnly ["mods"]) crowded looks _ _ :=
    executes_run (discover modsOnly ["mods"]) crowded
  rw [answer] at execution
  rw [found] at discovers
  rcases makesTempRoot_of_createTempRoot execution with ⟨count, searches, makes, apart⟩
  have two : count = 2 := by
    have chosen : chooseTempRoot "ref" crowded.tree = tempRootCandidate "ref" 2 := by decide +kernel
    exact tempRootCandidate_inj ((searches _).1 (searches_iff.2 chosen.symm)).symm
  rw [two] at makes apart
  exact ⟨moves, looks, execution, discovers, makes,
    apart modsOnly ["mods"] crowded _ looks _ named discovers _ (List.mem_singleton_self _)⟩

end Indexing

end AddonIndex
