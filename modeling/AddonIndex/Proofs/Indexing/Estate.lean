import AddonIndex.Proofs.FileTree.Preservation
import AddonIndex.Proofs.Indexing.Reserve

/-!
# What a run owns

A run owns the file of its log, its directory for extracted archives, and the entries of addons that it writes anew. On
the way to the reference root it may make directories. The work on an addon stays within that, as long as its tools
write only where they are asked to.
-/

namespace AddonIndex.Indexing

open Activity FileTree FileOp Reference ReferenceCache

variable {base tree seen before after : FileTree} {root path : Path} {logPath : Option Path} {place : Location}
  {addon name : Text} {names : List Text} {tempRoot : Option Path} {isEntry : Text → Prop}

/-- Whether a place is passed on the way to a directory, also where the way leads up again. -/
def IsOnWay (tree : FileTree) (root : Path) (place : Location) : Prop :=
  place <+: tree.location root ∨
    ∃ front, front <+: root.written ∧ place = front.foldl Location.step (tree.start root)

theorem IsOnWay.congr {other : FileTree} (same : other.workingDirectory = tree.workingDirectory)
    (onWay : IsOnWay other root place) : IsOnWay tree root place := by
  have start : other.start root = tree.start root := by
    rw [FileTree.start, same, ← FileTree.start]
  unfold IsOnWay at onWay ⊢
  rwa [location_congr same, start] at onWay

/-- What a run may change: its log, its directory for extracted archives, and some entries of the cache. -/
def estate (base : FileTree) (root : Path) (logPath tempRoot : Option Path) (isEntry : Text → Prop) : Realm where
  tree := base
  owned place := (∃ log ∈ logPath, place = base.location log) ∨
    (∃ temp ∈ tempRoot, base.location temp <+: place) ∨
    ∃ addon, isEntry addon ∧ base.location (root.join addon) <+: place
  way := IsOnWay base root

/-! ## Entries -/

/-- On the way to a path below the root one passes the root first, and is below it then. -/
theorem way_of_mem_ancestors {above : Path} (starts : base.start path = base.start root)
    (written : path.written = root.written ++ names) (areNames : ∀ name ∈ names, Path.IsName name)
    (member : above ∈ path.ancestors) (nonempty : above.written ≠ []) :
    IsOnWay base root (base.location above) ∨
      ∃ first rest, first :: rest <+: names ∧ base.location above = base.location root ++ first :: rest := by
  have hasText : above.text ≠ [] := by
    intro empty
    rcases above with ⟨text⟩
    cases empty
    exact nonempty rfl
  rcases (Path.prefix_of_mem_ancestors member).resolve_left hasText with ⟨text, isPrefix⟩
  have starts : base.start above = base.start root := (start_eq_of_begins hasText text).symm.trans starts
  rw [written] at isPrefix
  rcases List.prefix_or_prefix_of_prefix isPrefix (List.prefix_append root.written names) with within | ⟨more, beyond⟩
  · exact .inl (.inr ⟨above.written, within, by rw [location, starts]⟩)
  rw [← beyond, List.prefix_append_right_inj] at isPrefix
  rcases more with _ | ⟨first, rest⟩
  · rw [List.append_nil] at beyond
    exact .inl (.inr ⟨above.written, beyond ▸ List.prefix_rfl, by rw [location, starts]⟩)
  · refine .inr ⟨first, rest, isPrefix, ?_⟩
    rw [location, ← beyond, List.foldl_append, starts,
      Location.foldl_step_names fun name inMore => areNames name (isPrefix.subset inMore)]
    rfl

/-- The reference root is made on the way to it. -/
theorem staysIn_makeDirectories_root : StaysIn (estate base root logPath tempRoot isEntry) (makeDirectories root) := by
  apply staysIn_makeDirectories
  intro above member nonempty
  have onWay := @way_of_mem_ancestors base root root [] above rfl (List.append_nil _).symm
    (List.forall_mem_nil _) member nonempty
  rcases onWay with onWay | ⟨_, _, isPrefix, -⟩
  · exact .inr onWay
  · cases List.prefix_nil.1 isPrefix

section Entries

variable (isName : Path.IsName addon) (isOwned : isEntry addon)

include isOwned

theorem owned_entry (below : Location) :
    (estate base root logPath tempRoot isEntry).owned (base.location (root.join addon) ++ below) :=
  .inr (.inr ⟨addon, isOwned, List.prefix_append _ _⟩)

theorem staysIn_writeMarker (valid : Bool) :
    StaysIn (estate base root logPath tempRoot isEntry) (writeMarker (root.join addon) valid) := by
  apply staysIn_writeBytes
  change (estate base root logPath tempRoot isEntry).owned (base.location ((root.join addon).join markerName))
  rw [location_join_name (root.join addon) isName_markerName]
  exact owned_entry isOwned [markerName]

theorem staysIn_clear : StaysIn (estate base root logPath tempRoot isEntry) (clear (root.join addon)) := by
  intro tree bounds
  unfold clear
  split
  · exact staysIn_removeTree (owned_entry isOwned) tree bounds
  · exact bounds

include isName

/-- Below the root the way leads into the entry. -/
theorem allowed_of_mem_ancestors {above : Path} (starts : base.start path = base.start root)
    (written : path.written = root.written ++ addon :: names) (areNames : ∀ name ∈ names, Path.IsName name)
    (member : above ∈ path.ancestors) (nonempty : above.written ≠ []) :
    (estate base root logPath tempRoot isEntry).owned (base.location above) ∨ IsOnWay base root (base.location above) := by
  have areNames : ∀ name ∈ addon :: names, Path.IsName name := List.forall_mem_cons.2 ⟨isName, areNames⟩
  rcases way_of_mem_ancestors starts written areNames member nonempty with onWay | ⟨first, rest, isPrefix, leads⟩
  · exact .inr onWay
  · rw [(List.cons_prefix_cons.1 isPrefix).1] at leads
    have owned := @owned_entry base root logPath addon tempRoot isEntry isOwned rest
    rw [location_join_name root isName, List.append_assoc] at owned
    rw [leads]
    exact .inl owned

theorem staysIn_prepare : StaysIn (estate base root logPath tempRoot isEntry) (prepare ⟨root⟩ addon) := by
  have relative := isName.head?_ne_slash
  apply (staysIn_clear isOwned).bind
  intro _
  apply StaysIn.bind
  · apply staysIn_makeDirectories
    intro above member nonempty
    have written : (root.join addon).written = root.written ++ [addon] := by
      rw [Path.written_join relative, Path.written_name isName]
    exact allowed_of_mem_ancestors isName isOwned (start_join relative) written (List.forall_mem_nil _) member nonempty
  · exact fun _ => (staysIn_writeMarker isOwned false).bind fun _ => staysIn_pure _

/-- A file is copied to a path below the entry, on which only names are written. -/
theorem staysIn_copy {source : Path} {directory : Text} (isDirectory : Path.IsName directory)
    (areNames : ∀ name ∈ names, Path.IsName name) :
    StaysIn (estate base root logPath tempRoot isEntry)
      (copy (root.join addon) directory { source, relative := Text.joinWith ['/'] names }) := by
  have starts : base.start (target (root.join addon) directory { source, relative := Text.joinWith ['/'] names }) =
      base.start root :=
    (start_join (head?_joinWith_ne_slash areNames)).trans
      ((start_join isDirectory.head?_ne_slash).trans (start_join isName.head?_ne_slash))
  have written := written_target (root.join addon) source isDirectory areNames
  rw [Path.written_join isName.head?_ne_slash, Path.written_name isName, List.append_assoc] at written
  have copies : StaysIn (estate base root logPath tempRoot isEntry) (do
      copyFile source (target (root.join addon) directory { source, relative := Text.joinWith ['/'] names })
      return target (root.join addon) directory { source, relative := Text.joinWith ['/'] names }) := by
    apply StaysIn.bind
    · apply staysIn_copyFile
      change (estate base root logPath tempRoot isEntry).owned (base.location _)
      rw [location_target base _ source isDirectory areNames]
      exact owned_entry isOwned (directory :: names)
    · exact fun _ => staysIn_pure _
  unfold copy
  cases isParent : (target (root.join addon) directory { source, relative := Text.joinWith ['/'] names }).parent? with
  | none =>
      simp only [isParent]
      exact copies
  | some parent =>
      simp only [isParent]
      apply StaysIn.bind _ fun _ => copies
      apply staysIn_makeDirectories
      intro above member nonempty
      have areNames : ∀ name ∈ directory :: names, Path.IsName name := List.forall_mem_cons.2 ⟨isDirectory, areNames⟩
      apply allowed_of_mem_ancestors isName isOwned starts written areNames _ nonempty
      rw [Path.ancestors, isParent]
      exact List.mem_cons_of_mem _ member

theorem staysIn_copy_of_mem_savePlan (named : seen.Named) {directories : List Path} {item : Text × SourceFile}
    (member : item ∈ AddonWork.savePlan directories seen) :
    StaysIn (estate base root logPath tempRoot isEntry) (copy (root.join addon) item.1 item.2) := by
  rcases List.mem_flatMap.1 member with ⟨directory, -, planned⟩
  split at planned
  · rename_i name isFileName
    rcases List.mem_map.1 planned with ⟨⟨source, relative⟩, inDirectory, rfl⟩
    have namesFiles : NamesFiles seen := fun _ _ _ listed => .inl (named.entries _ listed)
    rcases exists_names_of_mem_referenceFiles namesFiles isFileName inDirectory with ⟨names, rfl, areNames, -⟩
    exact staysIn_copy isName isOwned (Path.isName_of_fileName? isFileName) areNames
  · cases planned

end Entries

/-! ## Tools -/

/-- Tools that write only within the directory for extracted archives stay in what the run owns. -/
theorem Confined.bounds {isTarget : Location → Prop} (confined : Confined [] isTarget before after)
    (isName : Path.IsName name)
    (within : ∀ target, isTarget target → base.location (root.join name) <+: target)
    (bounds : (estate base root logPath (some (root.join name)) isEntry).Bounds before) :
    (estate base root logPath (some (root.join name)) isEntry).Bounds after := by
  apply bounds.of_same (confined.named bounds.named) confined.workingDirectory
  intro place
  rcases confined.entryAt? place List.nil_prefix with same | ⟨target, isTarget, atOrBelow | ⟨above, missing, made⟩⟩
  · exact .inl same
  · exact .inr (.inl (.inr (.inl ⟨_, rfl, (within target isTarget).trans atOrBelow⟩)))
  · rcases List.prefix_or_prefix_of_prefix above (within target isTarget) with before | beyond
    · rw [location_join_name root isName, List.prefix_concat_iff] at before
      rcases before with here | before
      · have same : base.location (root.join name) = place := by
          rw [here, location_join_name root isName]
        exact .inr (.inl (.inr (.inl ⟨_, rfl, same ▸ List.prefix_rfl⟩)))
      · exact .inr (.inr ⟨.inl before, missing, made⟩)
    · exact .inr (.inl (.inr (.inl ⟨_, rfl, beyond⟩)))

/-! ## The work on an addon -/

variable {world first : World} {environment : Environment} {handle : Handle}

/-- Whether the directories that a run knows are those of its own, and nothing there has a name that is none. -/
structure Oversees (base : FileTree) (tempRoot : Option Path) (world : World) : Prop where
  named : world.tree.Named
  workingDirectory : world.tree.workingDirectory = base.workingDirectory
  extracted : ∀ directory ∈ world.extracted, ∃ temp ∈ tempRoot, IsUnpackedIn temp directory
  tempRoot : world.tempRoot = tempRoot

/-- Whether a step changes only what a run owns, and the run still knows only directories of its own after it. -/
structure Administers (root : Path) (tempRoot : Option Path) (isEntry : Text → Prop) (before after : World) : Prop where
  bounds : (estate before.tree root none tempRoot isEntry).Bounds after.tree
  extracted : ∀ directory ∈ after.extracted, ∃ temp ∈ tempRoot, IsUnpackedIn temp directory
  tempRoot : after.tempRoot = before.tempRoot
  logPath : after.logPath = before.logPath

theorem allowsSamePlaces_administers :
    AllowsSamePlaces (Oversees base tempRoot) (Administers root tempRoot isEntry) where
  rests _ oversees := ⟨.refl oversees.named, oversees.extracted, rfl, rfl⟩
  follows := by
    rintro world middle after ⟨bounds, extracted, isTempRoot, isLog⟩ same
    constructor
    · exact same.tree ▸ bounds
    · exact same.extracted ▸ extracted
    · exact same.tempRoot.trans isTempRoot
    · exact same.logPath.trans isLog

namespace Oversees

variable (oversees : Oversees base tempRoot world)

include oversees

theorem of_tree (bounds : (estate world.tree root none tempRoot isEntry).Bounds tree) :
    Administers root tempRoot isEntry world { world with tree } :=
  ⟨bounds, oversees.extracted, rfl, rfl⟩

theorem run {α : Type} {operation : FileOp α}
    (staysIn : StaysIn (estate world.tree root none tempRoot isEntry) operation) :
    Administers root tempRoot isEntry world { world with tree := (operation.run world.tree).1 } :=
  oversees.of_tree (staysIn world.tree (.refl oversees.named))

theorem administer (administers : Administers root tempRoot isEntry world first) : Oversees base tempRoot first where
  named := administers.bounds.named
  workingDirectory := administers.bounds.workingDirectory.trans oversees.workingDirectory
  extracted := administers.extracted
  tempRoot := administers.tempRoot.trans oversees.tempRoot

theorem empty : Administers root tempRoot isEntry world { world with extracted := [] } :=
  ⟨.refl oversees.named, List.forall_mem_nil _, rfl, rfl⟩

end Oversees

/-- Everything below the directory for extracted archives is owned. -/
theorem owned_of_within {temp : Path} (within : base.location temp <+: place) (below : Location) :
    (estate base root logPath (some temp) isEntry).owned (place ++ below) :=
  .inr (.inl ⟨temp, rfl, within.trans (List.prefix_append _ _)⟩)

/-- What is removed of an addon is its extraction directories and the directory of these. -/
theorem Oversees.removeTree {temp directory : Path} {listing : World} (oversees : Oversees base (some temp) world)
    (listed : Oversees base (some temp) listing) (noted : directory ∈ listing.extracted) :
    Administers root (some temp) isEntry world
      { world with tree := ((FileOp.removeTree directory).run world.tree).1 } := by
  rcases listed.extracted directory noted with ⟨_, ⟨⟩, isUnpacked⟩
  exact oversees.run (staysIn_removeTree (owned_of_within (isUnpacked.within world.tree)))

theorem Oversees.removeDirectory {temp : Path} (oversees : Oversees base (some temp) world)
    (isAddon : Path.IsName addon) :
    Administers root (some temp) isEntry world
      { world with tree := ((FileOp.removeDirectory (temp.join addon)).run world.tree).1 } := by
  apply oversees.run
  apply staysIn_removeDirectory
  have owned := @owned_of_within world.tree root none _ isEntry _ (within_join world.tree temp isAddon) []
  rwa [List.append_nil] at owned

/-- In the end the directory for extracted archives is removed as a whole. -/
theorem Oversees.deleteTempRoot {temp : Path} (oversees : Oversees base tempRoot world)
    (isTempRoot : tempRoot = some temp) :
    Administers root tempRoot isEntry world
      { world with tree := ((FileOp.removeTree temp).run world.tree).1 } := by
  cases isTempRoot
  exact oversees.run (staysIn_removeTree (owned_of_within List.prefix_rfl))

/-- Nothing that is done for an addon leaves what the run owns, if it owns the entry of the addon. -/
theorem withstands_administers (discreet : Discreet environment.tools ⟨['/']⟩) (isName : Path.IsName name)
    (isAddon : Path.IsName handle.name) (isOwned : isEntry handle.name) :
    AddonWork.Withstands { environment, cache := ⟨root⟩, addon := handle } (root.join name)
      (Oversees base (some (root.join name))) (Administers root (some (root.join name)) isEntry) where
  allows := allowsSamePlaces_administers
  notes world _ seen container files archive oversees _ _ looked areArchives member := by
    refine ⟨.refl oversees.named, ?_, rfl, rfl⟩
    intro directory noted
    rcases List.mem_append.1 noted with earlier | last
    · exact oversees.extracted directory earlier
    · rw [List.mem_singleton.1 last]
      exact ⟨_, rfl, isUnpackedIn_of_archives isAddon looked.named areArchives member⟩
  extracts world _ seen container files archive oversees _ _ looked areArchives member := by
    apply oversees.of_tree
    apply (discreet.extract archive _ _ world.tree).bounds isName _ (.refl oversees.named)
    rintro _ rfl
    exact (isUnpackedIn_of_archives isAddon looked.named areArchives member).within world.tree
  converts world listing seen directory binary oversees listed noted looked member := by
    apply oversees.of_tree
    apply (discreet.convert binary _ _ world.tree).bounds isName _ (.refl oversees.named)
    rintro _ rfl
    rcases listed.extracted directory noted with ⟨_, ⟨⟩, isUnpacked⟩
    exact isUnpacked.within_convertedConfig world.tree looked.named member
  prepares _ oversees := oversees.run (staysIn_prepare isAddon isOwned)
  copies _ _ _ _ oversees _ looked member :=
    oversees.run (staysIn_copy_of_mem_savePlan isAddon isOwned looked.named member)
  marks _ oversees := oversees.run (staysIn_writeMarker isOwned true)
  deletes _ _ _ oversees listed noted := oversees.removeTree listed noted
  removes _ oversees := oversees.removeDirectory isAddon

/-! ## What is different from before -/

/-- Whether a world differs from an earlier one only in what a run owns, and knows only what belongs to the run. -/
structure Contained (base : FileTree) (root : Path) (logPath tempRoot : Option Path) (isEntry : Text → Prop)
    (world : World) : Prop where
  bounds : (estate base root logPath tempRoot isEntry).Bounds world.tree
  extracted : ∀ directory ∈ world.extracted, ∃ temp ∈ tempRoot, IsUnpackedIn temp directory
  tempRoot : world.tempRoot = tempRoot
  logPath : ∀ path ∈ world.logPath, path ∈ logPath

theorem isAboutPlaces_contained : IsAboutPlaces (Contained base root logPath tempRoot isEntry) := by
  rintro world after ⟨tree, extracted, isTempRoot, isLog⟩ contained
  constructor
  · exact tree ▸ contained.bounds
  · exact extracted ▸ contained.extracted
  · exact isTempRoot.trans contained.tempRoot
  · exact isLog ▸ contained.logPath

namespace Contained

variable (contained : Contained base root logPath tempRoot isEntry world)

include contained

theorem of_tree (bounds : (estate base root logPath tempRoot isEntry).Bounds tree) :
    Contained base root logPath tempRoot isEntry { world with tree } :=
  ⟨bounds, contained.extracted, contained.tempRoot, contained.logPath⟩

theorem run {α : Type} {operation : FileOp α}
    (staysIn : StaysIn (estate base root logPath tempRoot isEntry) operation) :
    Contained base root logPath tempRoot isEntry { world with tree := (operation.run world.tree).1 } :=
  contained.of_tree (staysIn world.tree contained.bounds)

theorem oversees : Oversees base tempRoot world :=
  ⟨contained.bounds.named, contained.bounds.workingDirectory, contained.extracted, contained.tempRoot⟩

/-- After a step that changes only what the run owns, no more than that differs. -/
theorem administer (administers : Administers root tempRoot isEntry world first) :
    Contained base root logPath tempRoot isEntry first where
  bounds := by
    apply contained.bounds.of_same administers.bounds.named administers.bounds.workingDirectory
    intro place
    have sameLocation : ∀ path, world.tree.location path = base.location path := contained.bounds.location
    rcases administers.bounds.entryAt? place with same | ((⟨_, ⟨⟩, -⟩ | ⟨temp, isTemp, within⟩ | ⟨entry, isOwned, within⟩) |
      ⟨onWay, missing, made⟩)
    · exact .inl same
    · exact .inr (.inl (.inr (.inl ⟨temp, isTemp, sameLocation temp ▸ within⟩)))
    · exact .inr (.inl (.inr (.inr ⟨entry, isOwned, sameLocation (root.join entry) ▸ within⟩)))
    · exact .inr (.inr ⟨onWay.congr contained.bounds.workingDirectory, missing, made⟩)
  extracted := administers.extracted
  tempRoot := administers.tempRoot.trans contained.tempRoot
  logPath := administers.logPath ▸ contained.logPath

end Contained

theorem keeps_contained {α : Type} {activity : Run α} {kind : α → Prop}
    (upholds : Upholds (Oversees base tempRoot) (Administers root tempRoot isEntry) activity kind) :
    Keeps (Contained base root logPath tempRoot isEntry) activity kind :=
  upholds.imp (fun _ => Contained.oversees) fun _ _ => Contained.administer

end AddonIndex.Indexing
