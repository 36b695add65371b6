import AddonIndex.Proofs.Activity.Within
import AddonIndex.Proofs.Indexing.Frame

/-!
# Runs on the same files

Several runs may have the reference root in common. Each of them makes a directory for extracted archives under a name
that is free then, deletes it after the last addon, and deletes it once more, by the path that it remembers, if there is
something at the end of the run. A name that is freed by the first deletion may be chosen by another run before the
second one. This is the only way in which a run removes anything of the directory of another one.
-/

namespace AddonIndex.Indexing

open Activity FileTree FileOp ReferenceCache

/-- Several runs on the same files. Everything else that a run works on is its own. -/
structure Company (count : Nat) where
  tree : FileTree
  worlds : Fin count → World

namespace Company

variable {count : Nat}

/-- What a run sees. -/
def view (i : Fin count) (company : Company count) : World := { company.worlds i with tree := company.tree }

/-- What is left when a run has changed what it sees. -/
def update (i : Fin count) (world : World) (company : Company count) : Company count where
  tree := world.tree
  worlds := Function.update company.worlds i world

/-- What may happen between the steps of the runs: what may happen between the steps of one of them. -/
inductive Interferes : Company count → Company count → Prop
  | intro (company : Company count) (i : Fin count) {world : World} (interference : Interference (company.view i) world) :
      Interferes company (company.update i world)

/-- Runs side by side, in whatever order they take their steps. -/
def sideBySide (runs : Fin count → Run Unit) : Activity (Company count) (List Bool) :=
  .parallel count (fun i => (runs i).within (view i) (update i)) .done

theorem view_update (i : Fin count) (world : World) (company : Company count) :
    (company.update i world).view i = world := by
  simp only [view, update, Function.update_self]

theorem view_update_of_ne {i j : Fin count} (other : i ≠ j) (world : World) (company : Company count) :
    (company.update j world).view i = { company.view i with tree := world.tree } := by
  simp only [view, update, Function.update_of_ne other]

end Company

variable {base tree : FileTree} {root path : Path} {logPath : Option Path} {environment : Environment}
  {selection : Selection} {world after : World} {moves : List (Move World)}

/-! ## Names stay names -/

section Names

variable {addon : Text} {changes : List Change}

/-- Whether the files of a world have names that are names, and relative paths lead on from the same directory as in an
earlier tree. -/
def KeepsNames (base : FileTree) (world : World) : Prop :=
  (Realm.free base).Bounds world.tree

theorem isAboutPlaces_keepsNames : IsAboutPlaces (KeepsNames base) := by
  intro world after same keepsNames
  unfold KeepsNames
  rwa [same.tree]

theorem KeepsNames.run {α : Type} {operation : FileOp α} (keepsNames : KeepsNames base world)
    (staysIn : StaysIn (Realm.free base) operation) :
    KeepsNames base { world with tree := (operation.run world.tree).1 } :=
  staysIn world.tree keepsNames

theorem KeepsNames.of_confined {isTarget : Location → Prop} {within : Location} (keepsNames : KeepsNames base world)
    (confined : Confined within isTarget world.tree tree) : KeepsNames base { world with tree } :=
  Realm.Bounds.of_same keepsNames (confined.named keepsNames.named) confined.workingDirectory fun _ => .inr (.inl trivial)

theorem staysIn_free_makeDirectories (path : Path) : StaysIn (Realm.free base) (makeDirectories path) :=
  staysIn_makeDirectories fun _ _ _ => .inl trivial

theorem staysIn_free_removeTree (path : Path) : StaysIn (Realm.free base) (removeTree path) :=
  staysIn_removeTree fun _ => trivial

theorem staysIn_free_writeBytes (path : Path) (content : ByteArray) :
    StaysIn (Realm.free base) (writeBytes path content) :=
  staysIn_writeBytes trivial

theorem staysIn_free_prepare (cache : ReferenceCache) (addon : Text) :
    StaysIn (Realm.free base) (cache.prepare addon) := by
  apply StaysIn.bind
  · intro tree bounds
    unfold clear
    split
    · exact staysIn_free_removeTree _ tree bounds
    · exact bounds
  intro _
  apply (staysIn_free_makeDirectories _).bind
  intro _
  exact (staysIn_free_writeBytes _ _).bind fun _ => staysIn_pure _

theorem staysIn_free_copy (entry : Path) (directory : Text) (file : Reference.SourceFile) :
    StaysIn (Realm.free base) (copy entry directory file) := by
  have copies : StaysIn (Realm.free base) (do
      copyFile file.source (target entry directory file)
      return target entry directory file) :=
    (staysIn_copyFile trivial).bind fun _ => staysIn_pure _
  unfold copy
  cases isParent : (target entry directory file).parent? with
  | none =>
      simp only [isParent]
      exact copies
  | some parent =>
      simp only [isParent]
      exact (staysIn_free_makeDirectories parent).bind fun _ => copies

theorem withstands_keepsNames (discreet : Discreet environment.tools ⟨['/']⟩) (addon : Handle) (temp : Path) :
    AddonWork.Withstands { environment, cache := ⟨root⟩, addon } temp (KeepsNames base) fun _ => KeepsNames base where
  allows := isAboutPlaces_keepsNames.allows
  notes _ _ _ _ _ _ keepsNames _ _ _ _ _ := keepsNames
  extracts world _ _ _ _ archive keepsNames _ _ _ _ _ := keepsNames.of_confined (discreet.extract archive _ _ world.tree)
  converts world _ _ _ binary keepsNames _ _ _ _ := keepsNames.of_confined (discreet.convert binary _ _ world.tree)
  prepares _ keepsNames := keepsNames.run (staysIn_free_prepare _ _)
  copies _ _ _ item keepsNames _ _ _ := keepsNames.run (staysIn_free_copy _ item.1 item.2)
  marks _ keepsNames := keepsNames.run (staysIn_free_writeBytes _ _)
  deletes _ _ directory keepsNames _ _ := keepsNames.run (staysIn_free_removeTree directory)
  removes _ keepsNames := keepsNames.run (staysIn_removeDirectory trivial)

theorem KeepsNames.close (keepsNames : KeepsNames base world) : KeepsNames base world.close := by
  unfold World.close World.saveLog
  split
  · exact keepsNames
  · split
    · exact staysIn_free_writeBytes _ _ world.tree keepsNames
    · exact keepsNames

theorem sustains_keepsNames (discreet : Discreet environment.tools ⟨['/']⟩) :
    Sustains environment selection logPath (fun _ => True) (KeepsNames base) fun _ => KeepsNames base where
  allows := isAboutPlaces_keepsNames.allows
  named _ keepsNames := keepsNames.named
  opens _ keepsNames := keepsNames.run (leads_openAt (fun _ => id) fun path _ => staysIn_free_writeBytes path _)
  logs _ _ keepsNames := keepsNames
  makes _ keepsNames := keepsNames.run (staysIn_free_makeDirectories _)
  checks world keepsNames := keepsNames.of_confined (discreet.check world.tree)
  creates _ _ keepsNames := keepsNames.run (staysIn_makeDirectory fun _ => .inl trivial)
  results _ _ _ _ := trivial
  sets _ _ keepsNames _ := keepsNames
  turns addon temp _ _ := (withstands_keepsNames discreet addon temp).upholds_indexAddon fun _ keepsNames => keepsNames
  deletes _ temp keepsNames _ := keepsNames.run (staysIn_free_removeTree temp)
  removes _ _ temp keepsNames _ _ := keepsNames.run (staysIn_free_removeTree temp)
  closes _ := KeepsNames.close

end Names

/-!
## The course of one run

Of what is there a run removes nothing until it has made its directory for extracted archives, and nothing then but what
is in this directory or in an entry of an addon. Beside it others may do to the files what they want.
-/

/-- What may happen alongside a run: an interference, or something that others do to the files. -/
inductive Alongside (base : FileTree) : World → World → Prop
  | interference {world after : World} (interferes : Interference world after) : Alongside base world after
  | files (world : World) {tree : FileTree} (keeps : KeepsNames base world → KeepsNames base { world with tree }) :
      Alongside base world { world with tree }

/-- Whether a step removes nothing but what is in the directory for extracted archives or in an entry of an addon, and
the run still knows only directories of its own. Before the directory is there the step removes nothing. -/
structure TakesOwn (base : FileTree) (root : Path) (tempRoot : Option Path) (before after : World) : Prop where
  oversees : Oversees base tempRoot after
  stays : ∀ place, (before.tree.entryAt? place).isSome → (after.tree.entryAt? place).isSome ∨
    ∃ temp ∈ tempRoot, base.location temp <+: place ∨
      ∃ addon, IsAddonName addon ∧ base.location (root.join addon) <+: place

variable {tempRoot : Option Path}

theorem Oversees.keepsNames (oversees : Oversees base tempRoot world) : KeepsNames base world :=
  ⟨oversees.named, oversees.workingDirectory, fun _ => .inr (.inl trivial)⟩

theorem Oversees.of_keepsNames (oversees : Oversees base tempRoot world)
    (keepsNames : KeepsNames base { world with tree }) : Oversees base tempRoot { world with tree } :=
  ⟨keepsNames.named, keepsNames.workingDirectory, oversees.extracted, oversees.tempRoot⟩

theorem isAboutPlaces_oversees : IsAboutPlaces (Oversees base tempRoot) := by
  rintro world after ⟨tree, extracted, isTempRoot, -⟩ oversees
  constructor
  · exact tree ▸ oversees.named
  · exact tree ▸ oversees.workingDirectory
  · exact extracted ▸ oversees.extracted
  · exact isTempRoot.trans oversees.tempRoot

theorem Oversees.alongside (alongside : Alongside base world after) (oversees : Oversees base tempRoot world) :
    Oversees base tempRoot after := by
  cases alongside with
  | interference interferes => exact isAboutPlaces_oversees.interference interferes oversees
  | files keeps => exact oversees.of_keepsNames (keeps oversees.keepsNames)

theorem allowsSamePlaces_takesOwn : AllowsSamePlaces (Oversees base tempRoot) (TakesOwn base root tempRoot) where
  rests _ oversees := ⟨oversees, fun _ => .inl⟩
  follows _ middle after takesOwn same := by
    constructor
    · exact isAboutPlaces_oversees middle after same takesOwn.oversees
    · intro place there
      rw [same.tree]
      exact takesOwn.stays place there

/-- Where everything stays nothing is taken. -/
theorem Oversees.takesOwn_of_persists (oversees : Oversees base tempRoot world)
    (keepsNames : KeepsNames base { world with tree }) (persists : Persists world.tree tree) :
    TakesOwn base root tempRoot world { world with tree } :=
  ⟨oversees.of_keepsNames keepsNames, fun place there => .inl (persists place there)⟩

theorem Oversees.run_of_persists {α : Type} {operation : FileOp α} (oversees : Oversees base tempRoot world)
    (staysIn : StaysIn (Realm.free base) operation) (persists : Leads Persists operation) :
    TakesOwn base root tempRoot world { world with tree := (operation.run world.tree).1 } :=
  oversees.takesOwn_of_persists (staysIn world.tree oversees.keepsNames) (persists world.tree)

/-- What a run owns is its directory for extracted archives and the entries of addons. -/
theorem Oversees.takesOwn {temp : Path} (oversees : Oversees base (some temp) world)
    (administers : Administers root (some temp) IsAddonName world after) :
    TakesOwn base root (some temp) world after where
  oversees := oversees.administer administers
  stays place there := by
    have sameLocation : ∀ path, world.tree.location path = base.location path := location_congr oversees.workingDirectory
    rcases administers.bounds.entryAt? place with same | ((⟨_, ⟨⟩, -⟩ | ⟨_, ⟨⟩, within⟩ | ⟨addon, isAddon, within⟩) |
      ⟨-, missing, -⟩)
    · exact .inl (same ▸ there)
    · exact .inr ⟨temp, rfl, .inl (sameLocation temp ▸ within)⟩
    · exact .inr ⟨temp, rfl, .inr ⟨addon, isAddon, sameLocation (root.join addon) ▸ within⟩⟩
    · change world.tree.entryAt? place = none at missing
      rw [missing] at there
      cases there

theorem takesOwn_of_administers {α : Type} {activity : Run α} {kind : α → Prop} {temp : Path}
    (upholds : Upholds (Oversees base (some temp)) (Administers root (some temp) IsAddonName) activity kind) :
    Upholds (Oversees base (some temp)) (TakesOwn base root (some temp)) activity kind :=
  upholds.imp (fun _ => id) fun _ _ => Oversees.takesOwn

/-! ### Up to the directory for extracted archives -/

theorem takesOwn_openLog :
    Upholds (Oversees base none) (TakesOwn base root none) (openLog logPath) fun _ => True := by
  apply upholds_openLog
  · intro world oversees
    apply oversees.run_of_persists
    · exact leads_openAt (fun _ => id) fun path _ => staysIn_free_writeBytes path _
    · exact leads_openAt Persists.refl fun path _ => persists_writeBytes path _
  · exact fun world log oversees =>
      ⟨⟨oversees.named, oversees.workingDirectory, oversees.extracted, oversees.tempRoot⟩, fun _ => .inl⟩

theorem takesOwn_ensureReferenceRoot :
    Upholds (Oversees base none) (TakesOwn base root none) (ensureReferenceRoot root) fun _ => True := by
  apply upholds_ensureReferenceRoot allowsSamePlaces_takesOwn
  exact fun world oversees =>
    oversees.run_of_persists (staysIn_free_makeDirectories root) (persists_makeDirectories root)

theorem takesOwn_check (discreet : Discreet environment.tools ⟨['/']⟩) :
    Upholds (Oversees base none) (TakesOwn base root none) (callTool environment.tools.check) fun _ => True := by
  apply upholds_callTool allowsSamePlaces_takesOwn
  intro world oversees
  have confined := discreet.check world.tree
  apply oversees.takesOwn_of_persists (oversees.keepsNames.of_confined confined)
  intro place there
  rcases confined.entryAt? place List.nil_prefix with same | ⟨_, ⟨⟩, -⟩
  exact same ▸ there

/-! ### The end of a run -/

theorem takesOwn_close (oversees : Oversees base tempRoot world) : TakesOwn base root tempRoot world world.close := by
  have closed : Oversees base tempRoot { world with channel := world.channel.close, log := world.log.close } :=
    isAboutPlaces_oversees world _ ⟨rfl, rfl, rfl, rfl⟩ oversees
  unfold World.close World.saveLog
  split
  · exact ⟨closed, fun _ => .inl⟩
  · rename_i path _
    split
    · rcases closed.run_of_persists (staysIn_free_writeBytes path _) (persists_writeBytes path _) with ⟨oversees, stays⟩
      exact ⟨oversees, stays⟩
    · exact ⟨closed, fun _ => .inl⟩

/-- At the end a run removes its directory for extracted archives if it ever had one. -/
theorem takesOwn_conclude (outcome : Except RunFailure (List Addon)) :
    Upholds (Oversees base tempRoot) (TakesOwn base root tempRoot) (settle outcome >>= fun _ => wrapUp) fun _ => True := by
  have allows := @allowsSamePlaces_takesOwn base root tempRoot
  apply (upholds_settle allows outcome).bind
  intro _ _
  apply upholds_wrapUp allows
  · intro world seen temp oversees isSeen isTempRoot
    cases isSeen.tempRoot.symm.trans isTempRoot
    exact oversees.takesOwn (oversees.deleteTempRoot rfl)
  · exact fun world => takesOwn_close

/-! ### The moves of a run -/

/-- Whether a directory comes to be at a place where nothing was. -/
def Makes (place : Location) (before after : FileTree) : Prop :=
  before.entryAt? place = none ∧ after.entryAt? place = some .directory

/-- Whether a move of a run takes its own only, wherever it is found. -/
structure IsOwn (base : FileTree) (root : Path) (tempRoot : Option Path) (move : Move World) : Prop where
  oversees : Oversees base tempRoot move.1
  takesOwn : TakesOwn base root tempRoot move.1 move.2

/-- What a run undertakes: it may make a directory for extracted archives, which it notes with its next step. -/
inductive Undertaking (base : FileTree) (root : Path) : List (Move World) → Option Path → Prop
  | without {moves : List (Move World)} (own : ∀ move ∈ moves, IsOwn base root none move) : Undertaking base root moves none
  | within {early later : List (Move World)} {making setting : Move World} {number : Nat}
      (before : ∀ move ∈ early, IsOwn base root none move) (isOwn : IsOwn base root none making)
      (makes : Makes (base.location (tempRootCandidate root number)) making.1.tree making.2.tree)
      (unchanged : setting.2.tree = setting.1.tree)
      (own : ∀ move ∈ later, IsOwn base root (some (tempRootCandidate root number)) move) :
      Undertaking base root (early ++ making :: setting :: later) (some (tempRootCandidate root number))

theorem Undertaking.prepend {first : List (Move World)} (undertaking : Undertaking base root moves tempRoot)
    (own : ∀ move ∈ first, IsOwn base root none move) : Undertaking base root (first ++ moves) tempRoot := by
  cases undertaking with
  | without others => exact .without (List.forall_mem_append.2 ⟨own, others⟩)
  | within before isOwn makes unchanged others =>
      rw [← List.append_assoc]
      exact .within (List.forall_mem_append.2 ⟨own, before⟩) isOwn makes unchanged others

theorem Undertaking.append {last : List (Move World)} (undertaking : Undertaking base root moves tempRoot)
    (own : ∀ move ∈ last, IsOwn base root tempRoot move) : Undertaking base root (moves ++ last) tempRoot := by
  cases undertaking with
  | without others => exact .without (List.forall_mem_append.2 ⟨others, own⟩)
  | within before isOwn makes unchanged others =>
      rw [List.append_assoc]
      exact .within before isOwn makes unchanged (List.forall_mem_append.2 ⟨others, own⟩)

theorem Oversees.gap (gap : Relation.ReflTransGen (Alongside base) world after) (oversees : Oversees base tempRoot world) :
    Oversees base tempRoot after := by
  induction gap with
  | refl => exact oversees
  | tail _ last ih => exact ih.alongside last

/-- What a part of a run that takes its own only does. -/
theorem Oversees.reached {α : Type} {activity : Run α} {kind : α → Prop} {result : Option α}
    (oversees : Oversees base tempRoot world)
    (upholds : Upholds (Oversees base tempRoot) (TakesOwn base root tempRoot) activity kind)
    (execution : Executes (Alongside base) activity world moves after result) :
    (∀ move ∈ moves, IsOwn base root tempRoot move) ∧ Oversees base tempRoot after ∧
      ∀ answer, result = some answer → kind answer := by
  have outside : ∀ a b, Alongside base a b → Oversees base tempRoot a → Oversees base tempRoot b :=
    fun _ _ alongside found => found.alongside alongside
  rcases upholds.reached outside (fun _ _ _ takesOwn => takesOwn.oversees) execution oversees with ⟨each, ends, kinds⟩
  exact ⟨fun move member => ⟨(each move member).1, (each move member).2⟩, ends, kinds⟩

/-- Whether a part of a run that begins without a directory for extracted archives undertakes something of its own. -/
def Undertakes {α : Type} (base : FileTree) (root : Path) (activity : Run α) : Prop :=
  ∀ world moves after result, Oversees base none world → Executes (Alongside base) activity world moves after result →
    ∃ tempRoot, Undertaking base root moves tempRoot ∧ Oversees base tempRoot after

theorem undertakes_pure {α : Type} (answer : α) : Undertakes base root (pure answer : Run α) := by
  intro world moves after result oversees execution
  rcases executes_pure_iff.1 execution with ⟨rfl, -, gap⟩
  exact ⟨none, .without (List.forall_mem_nil _), oversees.gap gap⟩

/-- Something that removes nothing may be done before. -/
theorem Undertakes.bind {α β : Type} {first : Run α} {next : α → Run β} {kind : α → Prop}
    (upholds : Upholds (Oversees base none) (TakesOwn base root none) first kind)
    (later : ∀ answer, kind answer → Undertakes base root (next answer)) : Undertakes base root (first >>= next) := by
  intro world moves after result oversees execution
  rcases executes_bind_cases execution with ⟨early, rest, middle, answer, rfl, done, goesOn⟩ | ⟨aborted, -⟩
  · rcases oversees.reached upholds done with ⟨own, reached, kinds⟩
    rcases later answer (kinds answer rfl) middle rest after result reached goesOn with ⟨tempRoot, undertaking, ends⟩
    exact ⟨tempRoot, undertaking.prepend own, ends⟩
  · rcases oversees.reached upholds aborted with ⟨own, reached, -⟩
    exact ⟨none, .without own, reached⟩

/-- Where the directory for extracted archives is made there was nothing. -/
theorem makes_of_makeDirectory {path : Path} (oversees : Oversees base tempRoot world)
    (made : ((makeDirectory path).run world.tree).2 = .ok ()) :
    Makes (base.location path) world.tree ((makeDirectory path).run world.tree).1 := by
  rw [FileOp.run_eq] at made ⊢
  rcases makeDirectory_cases path world.tree with ⟨e, failed⟩ | ⟨parent, name, slash, resolved, nothing, makes⟩
  · rw [failed] at made
    cases made
  · rw [location_of_resolve resolved, location_congr oversees.workingDirectory] at nothing
    rw [makes, location_of_resolve resolved, location_congr oversees.workingDirectory]
    refine ⟨nothing, ?_⟩
    rw [applyAll_cons, applyAll_nil, entryAt?_apply, if_pos]
    · rfl
    · rw [← location_congr oversees.workingDirectory, ← location_of_resolve resolved]
      exact ⟨by simp, rfl⟩

/-- The directory for extracted archives is made with the last step of its creation, or nothing is done. -/
theorem makes_of_createTempRoot {result : Option (Except RunFailure Path)} (oversees : Oversees base none world)
    (execution : Executes (Alongside base) (createTempRoot root) world moves after result) :
    Oversees base none after ∧ ((∃ failure, result = some (.error failure)) ∧ (∀ move ∈ moves, IsOwn base root none move) ∨
      ∃ number looking making, result = some (.ok (tempRootCandidate root number)) ∧ moves = [looking, making] ∧
        IsOwn base root none looking ∧ IsOwn base root none making ∧
        Makes (base.location (tempRootCandidate root number)) making.1.tree making.2.tree) := by
  rcases executes_inspect_bind_iff.1 execution with ⟨seen, rest, rfl, toSee, execution⟩
  rcases exists_candidate root seen.tree (seen.tree.entries.length + 1) 0 with ⟨number, chosen⟩
  rw [chooseTempRoot, chosen] at execution
  have isSeen := oversees.gap toSee
  have looks : IsOwn base root none (seen, seen) := ⟨isSeen, isSeen, fun _ => .inl⟩
  rcases executes_perform_bind_iff.1 execution with ⟨making, rest, rfl, toMake, execution⟩
  have isMaking := isSeen.gap toMake
  have makes : IsOwn base root none (making, _) :=
    ⟨isMaking, isMaking.run_of_persists (staysIn_makeDirectory fun _ => .inl trivial)
      (persists_makeDirectory (tempRootCandidate root number))⟩
  split at execution
  · rename_i made
    rcases executes_pure_iff.1 execution with ⟨rfl, rfl, gap⟩
    exact ⟨makes.takesOwn.oversees.gap gap, .inr ⟨number, _, _, rfl, rfl, looks, makes, makes_of_makeDirectory isMaking made⟩⟩
  · rcases executes_pure_iff.1 execution with ⟨rfl, rfl, gap⟩
    exact ⟨makes.takesOwn.oversees.gap gap, .inl ⟨⟨_, rfl⟩, List.forall_mem_cons.2 ⟨looks, List.forall_mem_singleton.2 makes⟩⟩⟩

/-- Once its directory for extracted archives is made, a run changes nothing but what it owns. -/
theorem takesOwn_of_turns {addons : List Handle} {number : Nat} (discreet : Discreet environment.tools ⟨['/']⟩)
    (areAddons : ∀ addon ∈ addons, IsAddonName addon.name) (line : Text) :
    Upholds (Oversees base (some (tempRootCandidate root number)))
      (TakesOwn base root (some (tempRootCandidate root number))) (do
        note line
        gather (tempRootCandidate root number) addons
          (← indexEach environment ⟨root⟩ (tempRootCandidate root number) addons)) fun _ => True := by
  apply takesOwn_of_administers
  apply (upholds_note allowsSamePlaces_administers _).bind
  intro _ _
  apply (upholds_indexEach allowsSamePlaces_administers _).bind
  · exact fun outcome _ => administers_gather outcome
  · intro addon member
    have isAddon := areAddons addon member
    have withstands := @withstands_administers base root _ _ _ addon discreet (isName_candidate number) isAddon.isName isAddon
    exact withstands.upholds_indexAddon fun _ => Oversees.empty

/-- From the creation of the directory for extracted archives on a run may remove what is in it. -/
theorem undertakes_indexAll {addons : List Handle} (discreet : Discreet environment.tools ⟨['/']⟩)
    (areAddons : ∀ addon ∈ addons, IsAddonName addon.name) :
    Undertakes base root (indexAll environment root addons) := by
  intro world moves after result oversees execution
  rcases executes_bind_cases execution with ⟨creating, rest, created, answer, rfl, creates, goesOn⟩ | ⟨aborted, -⟩
  · rcases makes_of_createTempRoot oversees creates with
      ⟨isCreated, ⟨⟨failure, ⟨⟩⟩, own⟩ | ⟨number, looking, making, ⟨⟩, rfl, looks, isOwn, makes⟩⟩
    · rcases executes_pure_iff.1 goesOn with ⟨rfl, -, gap⟩
      rw [List.append_nil]
      exact ⟨none, .without own, isCreated.gap gap⟩
    · rcases executes_modify_bind_iff.1 goesOn with ⟨setting, rest, rfl, toSet, turns⟩
      have isSetting := isCreated.gap toSet
      have set : Oversees base (some (tempRootCandidate root number))
          { setting with tempRoot := some (tempRootCandidate root number) } := by
        refine ⟨isSetting.named, isSetting.workingDirectory, ?_, rfl⟩
        intro directory noted
        rcases isSetting.extracted directory noted with ⟨_, ⟨⟩, -⟩
      rcases set.reached (takesOwn_of_turns discreet areAddons _) turns with ⟨own, ends, -⟩
      refine ⟨some (tempRootCandidate root number), ?_, ends⟩
      exact @Undertaking.within base root [looking] _ _ _ _ (List.forall_mem_singleton.2 looks) isOwn makes rfl own
  · rcases makes_of_createTempRoot oversees aborted with ⟨-, ⟨⟨failure, ⟨⟩⟩, -⟩ | ⟨number, looking, making, ⟨⟩, -⟩⟩

/-- Nothing is removed before the directory for extracted archives is made. -/
theorem undertakes_attempt (discreet : Discreet environment.tools ⟨['/']⟩) :
    Undertakes base selection.referenceRoot (attempt environment selection logPath) := by
  have allows := @allowsSamePlaces_takesOwn base selection.referenceRoot none
  apply Undertakes.bind takesOwn_openLog
  intro _ _
  apply Undertakes.bind (upholds_note allows _)
  intro _ _
  apply Undertakes.bind takesOwn_ensureReferenceRoot
  intro ensured _
  split
  · exact undertakes_pure _
  apply Undertakes.bind (takesOwn_check discreet)
  intro checked _
  split
  · exact undertakes_pure _
  apply Undertakes.bind (upholds_discover allows (fun _ oversees => oversees.named) _)
  intro directories areAddons
  apply Undertakes.bind (upholds_enroll allows areAddons)
  intro addons areAddons
  apply Undertakes.bind (upholds_submit allows _)
  exact fun _ _ => undertakes_indexAll discreet areAddons

/-- However a run goes, it removes nothing but its own. -/
theorem undertakes_run (discreet : Discreet environment.tools ⟨['/']⟩) :
    Undertakes base selection.referenceRoot (run environment selection logPath) := by
  intro world moves after result oversees execution
  rw [run_eq] at execution
  rcases executes_bind_cases execution with ⟨trying, rest, tried, outcome, rfl, tries, ends⟩ | ⟨aborted, -⟩
  · rcases undertakes_attempt discreet _ _ _ _ oversees tries with ⟨tempRoot, undertaking, isTried⟩
    rcases isTried.reached (takesOwn_conclude outcome) ends with ⟨own, isEnded, -⟩
    exact ⟨tempRoot, undertaking.append own, isEnded⟩
  · exact undertakes_attempt discreet _ _ _ _ oversees aborted

/-- Whether something at or below a place is removed. -/
def Takes (place : Location) (before after : FileTree) : Prop :=
  ∃ below, (before.entryAt? (place ++ below)).isSome ∧ after.entryAt? (place ++ below) = none

/-- Without a directory for extracted archives nothing is taken. -/
theorem IsOwn.not_takes {move : Move World} {place : Location} (isOwn : IsOwn base root none move) :
    ¬ Takes place move.1.tree move.2.tree := by
  rintro ⟨below, there, gone⟩
  rcases isOwn.takesOwn.stays _ there with stays | ⟨_, ⟨⟩, -⟩
  rw [gone] at stays
  cases stays

/-- What is taken at or below a name like that of the directory for extracted archives is taken from this directory. -/
theorem IsOwn.location_eq {move : Move World} {temp : Path} {number other : Nat}
    (isOwn : IsOwn base root (some temp) move) (isTemp : temp = tempRootCandidate root other)
    (takes : Takes (base.location (tempRootCandidate root number)) move.1.tree move.2.tree) :
    base.location (tempRootCandidate root number) = base.location temp := by
  rcases takes with ⟨below, there, gone⟩
  rw [location_candidate, List.append_assoc, List.singleton_append] at there gone
  rcases isOwn.takesOwn.stays _ there with stays | ⟨_, ⟨⟩, within | ⟨addon, isAddon, within⟩⟩
  · rw [gone] at stays
    cases stays
  · rw [isTemp, location_candidate, List.prefix_append_right_inj, List.cons_prefix_cons] at within
    rw [isTemp, location_candidate, location_candidate, within.1]
  · rw [location_join_name root isAddon.isName, List.prefix_append_right_inj, List.cons_prefix_cons] at within
    have marked := isAddon.marked
    rw [within.1] at marked
    cases marked

/-- A move of the first or of the second part of a list is a move of one of them. -/
theorem split_cases {α : Type} {first second before later : List α} {item : α}
    (split : first ++ second = before ++ item :: later) :
    (∃ between, first = before ++ item :: between ∧ later = between ++ second) ∨
      ∃ between, before = first ++ between ∧ second = between ++ item :: later := by
  rcases List.append_eq_append_iff.1 split with ⟨between, rfl, rest⟩ | ⟨_ | ⟨next, between⟩, whole, rest⟩
  · exact .inr ⟨between, rfl, rest⟩
  · exact .inr ⟨[], by rw [whole, List.append_nil, List.append_nil], rest.symm⟩
  · cases rest
    exact .inl ⟨between, whole, rfl⟩

/-- Whatever a run takes at or below a name like that of the directory for extracted archives, it has made the directory
of this name before, and notes one ever after. -/
theorem Undertaking.of_takes {before later : List (Move World)} {move : Move World} {number : Nat}
    (undertaking : Undertaking base root (before ++ move :: later) tempRoot)
    (takes : Takes (base.location (tempRootCandidate root number)) move.1.tree move.2.tree) :
    (∃ made ∈ before, made.1.tempRoot = none ∧
      Makes (base.location (tempRootCandidate root number)) made.1.tree made.2.tree) ∧
    ∀ other ∈ later, other.1.tempRoot ≠ none := by
  generalize whole : before ++ move :: later = moves at undertaking
  cases undertaking with
  | without own => exact absurd takes (own move (whole ▸ by simp)).not_takes
  | @within early rest making setting other isEarly isOwn makes unchanged own =>
      rcases split_cases whole.symm with ⟨between, rfl, -⟩ | ⟨between, rfl, split⟩
      · exact absurd takes (isEarly move (by simp)).not_takes
      rcases between with _ | ⟨first, _ | ⟨second, between⟩⟩
      · cases split
        exact absurd takes isOwn.not_takes
      · cases split
        rcases takes with ⟨below, there, gone⟩
        rw [unchanged] at gone
        rw [gone] at there
        cases there
      · cases split
        have same := (own move (by simp)).location_eq rfl takes
        constructor
        · exact ⟨making, by simp, isOwn.oversees.tempRoot, same ▸ makes⟩
        · intro following member none
          have noted := (own following (by simp [member])).oversees.tempRoot
          rw [none] at noted
          cases noted

/-! ## Runs side by side -/

section SideBySide

open Company

variable {count : Nat} {environments : Fin count → Environment} {selections : Fin count → Selection}
  {logPaths : Fin count → Option Path} {company final : Company count}
  {tagged : List (Fin count × Move (Company count))} {place : Location}

/-- The steps that one of several runs takes. -/
def stepsOf (i : Fin count) (tagged : List (Fin count × Move (Company count))) : List (Move (Company count)) :=
  (tagged.filter (·.1 = i)).map Prod.snd

/-- Whether each of some steps is a step of the run that it is said to be of. -/
def AreStepsOf (runs : Fin count → Run Unit) (tagged : List (Fin count × Move (Company count))) : Prop :=
  ∀ i, ∃ result, Traces ((runs i).within (view i) (update i)) (stepsOf i tagged) result

theorem exists_tagged {runs : Fin count → Run Unit} {moves : List (Move (Company count))} {result : Option (List Bool)}
    (traced : Traces (sideBySide runs) moves result) :
    ∃ tagged, tagged.map Prod.snd = moves ∧ AreStepsOf runs tagged := by
  rcases traced with ⟨parts, results, before, _, rfl, ⟨tagged, rfl, split⟩, each, rfl, rfl⟩
  refine ⟨tagged, (List.append_nil _).symm, fun i => ⟨results i, ?_⟩⟩
  rw [stepsOf, split i]
  exact each i

/-- A run changes nothing but the files and its own world. -/
theorem AreStepsOf.exists_update {runs : Fin count → Run Unit} (areSteps : AreStepsOf runs tagged)
    {item : Fin count × Move (Company count)} (member : item ∈ tagged) :
    ∃ world, item.2.2 = item.2.1.update item.1 world := by
  rcases areSteps item.1 with ⟨result, traced⟩
  apply always_within.of_traces traced
  exact List.mem_map_of_mem (List.mem_filter.2 ⟨member, by simp⟩)

theorem tree_of_interferes {before after : Company count} (interferes : Interferes before after) :
    after.tree = before.tree := by
  rcases interferes with ⟨i, interference⟩
  cases interference with
  | cancel addon => rfl
  | deliver => rfl

theorem tree_of_gap {before after : Company count} (gap : Relation.ReflTransGen Interferes before after) :
    after.tree = before.tree := by
  induction gap with
  | refl => rfl
  | tail _ last ih => exact (tree_of_interferes last).trans ih

/-- What is there once and gone later is removed by a step in between. -/
theorem exists_removal (chain : Chain Interferes company (tagged.map Prod.snd) final)
    (there : (company.tree.entryAt? place).isSome) (gone : final.tree.entryAt? place = none) :
    ∃ before item later, tagged = before ++ item :: later ∧ (item.2.1.tree.entryAt? place).isSome ∧
      item.2.2.tree.entryAt? place = none := by
  induction tagged generalizing company with
  | nil =>
      rw [tree_of_gap chain] at gone
      rw [gone] at there
      cases there
  | cons item rest ih =>
      rcases item with ⟨i, before, after⟩
      rcases chain with ⟨gap, chain⟩
      rw [← tree_of_gap gap] at there
      by_cases removed : after.tree.entryAt? place = none
      · exact ⟨[], _, rest, rfl, there, removed⟩
      · rcases ih chain (Option.isSome_iff_ne_none.2 removed) with ⟨earlier, item, later, rfl, isRemoval⟩
        exact ⟨_ :: earlier, item, later, rfl, isRemoval⟩

/-- While runs are under way names stay names. -/
theorem keepsNames_of_sideBySide (discreet : ∀ i, Discreet (environments i).tools ⟨['/']⟩) (named : company.tree.Named)
    (areSteps : AreStepsOf (fun i => run (environments i) (selections i) (logPaths i)) tagged)
    (chain : Chain Interferes company (tagged.map Prod.snd) final) :
    ∀ item ∈ tagged, (Realm.free company.tree).Bounds item.2.2.tree := by
  have careful : Careful (fun company' : Company count => (Realm.free company.tree).Bounds company'.tree)
      (fun _ company' => (Realm.free company.tree).Bounds company'.tree) (tagged.map Prod.snd) := by
    have mixed : Interleaves (fun i => stepsOf i tagged) (tagged.map Prod.snd) := ⟨tagged, rfl, fun _ => rfl⟩
    refine mixed.careful fun i => ?_
    rcases areSteps i with ⟨result, traced⟩
    have upholds := @Sustains.upholds_run _ _ _ _ _ _
      (@sustains_keepsNames company.tree (logPaths i) (environments i) (selections i) (discreet i))
    exact careful_of_seen (upholds _ _ (traces_seen (view_update i) traced)).1
  have outside : ∀ before after : Company count, Interferes before after →
      (Realm.free company.tree).Bounds before.tree → (Realm.free company.tree).Bounds after.tree := by
    intro before after interferes found
    rwa [tree_of_interferes interferes]
  have kept := careful.of_chain outside (fun _ _ _ => id) chain (.refl named)
  exact fun item member => (kept.1 item.2 (List.mem_map_of_mem member)).2

/-- What the others do is something that happens alongside a run. -/
theorem executes_of_sideBySide (discreet : ∀ i, Discreet (environments i).tools ⟨['/']⟩) (named : company.tree.Named)
    (areSteps : AreStepsOf (fun i => run (environments i) (selections i) (logPaths i)) tagged)
    (chain : Chain Interferes company (tagged.map Prod.snd) final) (i : Fin count) :
    ∃ result, Executes (Alongside company.tree) (run (environments i) (selections i) (logPaths i)) (company.view i)
      ((stepsOf i tagged).map (seen (view i))) (final.view i) result := by
  rcases areSteps i with ⟨result, traced⟩
  refine ⟨result, traces_seen (view_update i) traced, ?_⟩
  have kept := keepsNames_of_sideBySide discreet named areSteps chain
  have linked := @Chain.seen _ _ Interferes (Alongside company.tree) (view i) _ _ _ tagged i chain ?_ ?_
  · simpa only [stepsOf, List.map_map, Function.comp_def] using linked
  · intro item member other
    rcases areSteps.exists_update member with ⟨world, updated⟩
    have names := kept item member
    rw [updated] at names ⊢
    rw [view_update_of_ne (Ne.symm other)]
    exact .files _ fun _ => names
  · intro before after interferes
    have sameTree := tree_of_interferes interferes
    cases interferes with
    | @intro j world interference =>
        by_cases same : i = j
        · subst same
          rw [view_update]
          exact .interference interference
        · rw [view_update_of_ne same]
          apply Alongside.files
          intro names
          change (Realm.free company.tree).Bounds (before.update j world).tree
          rw [sameTree]
          exact names

/-- Whether a step of a run makes its directory for extracted archives at a place: it notes none before. -/
structure Creates (i : Fin count) (place : Location) (item : Fin count × Move (Company count)) : Prop where
  isOf : item.1 = i
  unnoted : (item.2.1.worlds i).tempRoot = none
  makes : Makes place item.2.1.tree item.2.2.tree

/-- Whether a step of a run removes what is at a place. -/
structure Removes (i : Fin count) (place : Location) (item : Fin count × Move (Company count)) : Prop where
  isOf : item.1 = i
  there : (item.2.1.tree.entryAt? place).isSome
  gone : item.2.2.tree.entryAt? place = none

theorem Removes.takes {i : Fin count} {item : Fin count × Move (Company count)} (removes : Removes i place item) :
    Takes place item.2.1.tree item.2.2.tree :=
  ⟨[], by rw [List.append_nil]; exact removes.there, by rw [List.append_nil]; exact removes.gone⟩

theorem oversees_of_unstarted {i : Fin count} (unstarted : Unstarted (company.worlds i)) (named : company.tree.Named) :
    Oversees company.tree none (company.view i) := by
  refine ⟨named, rfl, ?_, unstarted.tempRoot⟩
  intro directory noted
  change directory ∈ (company.worlds i).extracted at noted
  rw [unstarted.extracted] at noted
  cases noted

/-- A run takes something at or below a name only after it has made the directory of that name for itself. -/
theorem exists_creation {i : Fin count} {front later : List (Fin count × Move (Company count))}
    {item : Fin count × Move (Company count)} {number : Nat} (unstarted : Unstarted (company.worlds i))
    (named : company.tree.Named) (discreet : ∀ i, Discreet (environments i).tools ⟨['/']⟩)
    (areSteps : AreStepsOf (fun i => run (environments i) (selections i) (logPaths i)) (front ++ item :: later))
    (chain : Chain Interferes company ((front ++ item :: later).map Prod.snd) final) (isOf : item.1 = i)
    (takes : Takes (company.tree.location (tempRootCandidate (selections i).referenceRoot number)) item.2.1.tree
      item.2.2.tree) :
    (∃ made ∈ front, Creates i (company.tree.location (tempRootCandidate (selections i).referenceRoot number)) made) ∧
      ∀ other ∈ later, other.1 = i → (other.2.1.worlds i).tempRoot ≠ none := by
  rcases executes_of_sideBySide discreet named areSteps chain i with ⟨result, execution⟩
  have undertakes := @undertakes_run company.tree (logPaths i) (environments i) (selections i) (discreet i)
  rcases undertakes _ _ _ _ (oversees_of_unstarted unstarted named) execution with ⟨tempRoot, undertaking, -⟩
  have split : (stepsOf i (front ++ item :: later)).map (seen (view i)) =
      (stepsOf i front).map (seen (view i)) ++ seen (view i) item.2 :: (stepsOf i later).map (seen (view i)) := by
    simp [stepsOf, isOf]
  rw [split] at undertaking
  rcases undertaking.of_takes takes with ⟨⟨_, member, unnoted, makes⟩, noted⟩
  rcases List.mem_map.1 member with ⟨_, inSteps, rfl⟩
  rcases List.mem_map.1 inSteps with ⟨made, inFront, rfl⟩
  rcases List.mem_filter.1 inFront with ⟨inFront, isOwn⟩
  refine ⟨⟨made, inFront, of_decide_eq_true isOwn, unnoted, makes⟩, ?_⟩
  intro other inLater isOwn
  apply noted (seen (view i) other.2)
  exact List.mem_map_of_mem (List.mem_map_of_mem (List.mem_filter.2 ⟨inLater, decide_eq_true isOwn⟩))

/-- What is done between two steps leads from the one to the other. -/
theorem chain_between {front middle later : List (Fin count × Move (Company count))}
    {first second : Fin count × Move (Company count)}
    (chain : Chain Interferes company ((front ++ first :: (middle ++ second :: later)).map Prod.snd) final) :
    Chain Interferes first.2.2 (middle.map Prod.snd) second.2.1 := by
  simp only [List.map_append, List.map_cons] at chain
  rcases chain_append_iff.1 chain with ⟨_, -, -, chain⟩
  rcases chain_append_iff.1 chain with ⟨reached, chain, gap, -⟩
  have waits : Chain Interferes reached [] second.2.1 := gap
  rw [← List.append_nil (middle.map Prod.snd)]
  exact chain_append_iff.2 ⟨reached, chain, waits⟩

/-- A directory that stays from its creation on is not created again. -/
theorem not_creates_of_remains {i j : Fin count} {front between later : List (Fin count × Move (Company count))}
    {making taking made : Fin count × Move (Company count)} (creates : Creates j place making)
    (remains : ∀ kept ∈ between, (kept.2.2.tree.entryAt? place).isSome)
    (chain : Chain Interferes company ((front ++ making :: (between ++ taking :: later)).map Prod.snd) final)
    (member : made ∈ between) : ¬ Creates i place made := by
  intro isMade
  rcases List.append_of_mem member with ⟨before, rest, rfl⟩
  rw [List.append_assoc, List.cons_append] at chain
  have there : (making.2.2.tree.entryAt? place).isSome := by
    rw [creates.makes.2]
    rfl
  rcases exists_removal (chain_between chain) there isMade.makes.1 with ⟨earlier, item, later, rfl, -, gone⟩
  have stays := remains item (by simp)
  rw [gone] at stays
  cases stays

/-- What one of two runs takes from the directory of the other one was freed by itself before: where the other one has
made its directory, it had made and removed one of the same name. -/
theorem exists_freeing {environments : Fin 2 → Environment} {selections : Fin 2 → Selection}
    {logPaths : Fin 2 → Option Path} {company final : Company 2} {i j : Fin 2} {number : Nat}
    {front between later : List (Fin 2 × Move (Company 2))} {making taking : Fin 2 × Move (Company 2)}
    (unstarted : ∀ i, Unstarted (company.worlds i)) (named : company.tree.Named)
    (discreet : ∀ i, Discreet (environments i).tools ⟨['/']⟩)
    (common : company.tree.location (selections i).referenceRoot = company.tree.location (selections j).referenceRoot)
    (areSteps : AreStepsOf (fun i => run (environments i) (selections i) (logPaths i))
      (front ++ making :: (between ++ taking :: later)))
    (chain : Chain Interferes company ((front ++ making :: (between ++ taking :: later)).map Prod.snd) final)
    (differ : i ≠ j) (isPlace : place = company.tree.location (tempRootCandidate (selections j).referenceRoot number))
    (creates : Creates j place making) (remains : ∀ kept ∈ between, (kept.2.2.tree.entryAt? place).isSome)
    (isOf : taking.1 = i) (takes : Takes place taking.2.1.tree taking.2.2.tree) :
    ∃ first made middle freeing last, front = first ++ made :: (middle ++ freeing :: last) ∧ Creates i place made ∧
      Removes i place freeing := by
  have samePlace : place = company.tree.location (tempRootCandidate (selections i).referenceRoot number) := by
    rw [isPlace, location_candidate, location_candidate, common]
  have split : front ++ making :: (between ++ taking :: later) = (front ++ making :: between) ++ taking :: later := by
    simp
  -- The run that takes has made the directory of this name for itself, and that was before the other one did.
  have created := @exists_creation _ environments selections logPaths company final i (front ++ making :: between) later
    taking number (unstarted i) named discreet (split ▸ areSteps) (split ▸ chain) isOf (samePlace ▸ takes)
  rw [← samePlace] at created
  rcases created with ⟨⟨made, member, isMade⟩, -⟩
  have inFront : made ∈ front := by
    rcases List.mem_append.1 member with inFront | here
    · exact inFront
    rcases List.mem_cons.1 here with rfl | inBetween
    · exact absurd (isMade.isOf.symm.trans creates.isOf) differ
    · exact absurd isMade (not_creates_of_remains creates remains chain inBetween)
  rcases List.append_of_mem inFront with ⟨first, rest, rfl⟩
  rw [List.append_assoc, List.cons_append] at chain areSteps
  -- So it was removed in between, and not by the other one, which has a directory only from its creation on.
  have there : (made.2.2.tree.entryAt? place).isSome := by
    rw [isMade.makes.2]
    rfl
  rcases exists_removal (chain_between chain) there creates.makes.1 with ⟨middle, freeing, last, rfl, wasThere, gone⟩
  have notOther : freeing.1 ≠ j := by
    intro isOther
    have split : first ++ made :: ((middle ++ freeing :: last) ++ making :: (between ++ taking :: later)) =
        (first ++ made :: middle) ++ freeing :: (last ++ making :: (between ++ taking :: later)) := by
      simp
    have noted := (@exists_creation _ environments selections logPaths company final j (first ++ made :: middle)
      (last ++ making :: (between ++ taking :: later)) freeing number (unstarted j) named discreet (split ▸ areSteps)
      (split ▸ chain) isOther (isPlace ▸ Removes.takes ⟨isOther, wasThere, gone⟩)).2
    exact noted making (by simp) creates.isOf creates.unnoted
  have isFreed : freeing.1 = i := by omega
  exact ⟨first, made, middle, freeing, last, rfl, isMade, isFreed, wasThere, gone⟩

/-- Whether of two runs none takes anything from the directory of the other one, except under a name under which it has
made and removed a directory before the other one has made its. -/
def TakesOnlyFreed (selections : Fin 2 → Selection) (company : Company 2)
    (tagged : List (Fin 2 × Move (Company 2))) : Prop :=
  ∀ i j number place front making between taking later, i ≠ j →
    place = company.tree.location (tempRootCandidate (selections j).referenceRoot number) →
    tagged = front ++ making :: (between ++ taking :: later) → Creates j place making →
    (∀ kept ∈ between, (kept.2.2.tree.entryAt? place).isSome) → taking.1 = i →
    Takes place taking.2.1.tree taking.2.2.tree →
      ∃ first made middle freeing last, front = first ++ made :: (middle ++ freeing :: last) ∧ Creates i place made ∧
        Removes i place freeing

/-- Two runs on the same reference root leave each other's directories alone, whatever the order of their steps, unless
one of them chooses a name that the other one has freed. -/
theorem takesOnlyFreed_of_sideBySide {environments : Fin 2 → Environment} {selections : Fin 2 → Selection}
    {logPaths : Fin 2 → Option Path} {company final : Company 2} {moves : List (Move (Company 2))}
    {result : Option (List Bool)} (unstarted : ∀ i, Unstarted (company.worlds i)) (named : company.tree.Named)
    (discreet : ∀ i, Discreet (environments i).tools ⟨['/']⟩)
    (common : ∀ i j, company.tree.location (selections i).referenceRoot =
      company.tree.location (selections j).referenceRoot)
    (execution : Executes Interferes (sideBySide fun i => run (environments i) (selections i) (logPaths i)) company moves
      final result) :
    (∃ tagged, tagged.map Prod.snd = moves ∧
      AreStepsOf (fun i => run (environments i) (selections i) (logPaths i)) tagged) ∧
    ∀ tagged, tagged.map Prod.snd = moves →
      AreStepsOf (fun i => run (environments i) (selections i) (logPaths i)) tagged →
        TakesOnlyFreed selections company tagged := by
  constructor
  · exact exists_tagged execution.1
  · rintro _ rfl areSteps i j number place front making between taking later differ isPlace rfl creates remains isOf takes
    exact exists_freeing unstarted named discreet (common i j) areSteps execution.2 differ isPlace creates remains isOf
      takes

end SideBySide

/-! ## A name that is chosen again -/

section ChosenAgain

open Company

/-- A selection of no addons. -/
def nothing : Selection := { roots := [], referenceDirectory := "ref", denied := [], allowed := [] }

/-- Two runs over no addons. -/
def twoRuns (_ : Fin 2) : Run Unit :=
  run { tools := unpackingTools [] [] } nothing none

/-- Two runs before their first step. -/
def notStarted : Company 2 where
  tree := { entries := [(["ref".toList], .directory)] }
  worlds _ := {}

/-- The one run waits at its end, before it deletes its directory again, until the other one has made its own. -/
def waitingForName : List (Fin 2) :=
  List.replicate 18 ⟨0, Nat.two_pos⟩ ++ List.replicate 12 ⟨1, Nat.one_lt_two⟩ ++ List.replicate 4 ⟨0, Nat.two_pos⟩ ++
    List.replicate 10 ⟨1, Nat.one_lt_two⟩

/-- The steps of the two runs in this order. -/
def turns : List (Fin 2 × Move (Company 2)) :=
  (takeTurns waitingForName (fun i => (twoRuns i).within (view i) (update i)) notStarted).1

theorem ended_turns (i : Fin 2) : hasEnded ((takeTurns waitingForName (fun i => (twoRuns i).within (view i) (update i))
    notStarted).2.1 i) = true := by
  revert i
  decide

theorem areStepsOf_turns : AreStepsOf twoRuns turns :=
  fun i => ⟨some (), traces_of_hasEnded (ended_turns i)⟩

theorem executes_turns : ∃ final, Executes Interferes (sideBySide twoRuns) notStarted (turns.map Prod.snd) final
    (some [true, true]) :=
  ⟨_, ⟨fun i => stepsOf i turns, fun _ => some (), _, [], (List.append_nil _).symm, ⟨turns, rfl, fun _ => rfl⟩,
    fun i => traces_of_hasEnded (ended_turns i), rfl, rfl⟩, chain_takeTurns _ _ _⟩

/-- A list is split at two of its items. -/
theorem split_twice {α : Type} (items : List α) {m n : Nat} (first : m < items.length)
    (second : m + 1 + n < items.length) :
    items = items.take m ++ items[m] :: ((items.drop (m + 1)).take n ++ items[m + 1 + n] :: items.drop (m + 1 + n + 1)) := by
  have inner : items.drop (m + 1) =
      (items.drop (m + 1)).take n ++ items[m + 1 + n] :: items.drop (m + 1 + n + 1) := by
    conv_lhs => rw [← List.take_append_drop n (items.drop (m + 1)), List.drop_drop, List.drop_eq_getElem_cons second]
  conv_lhs => rw [← List.take_append_drop m items, List.drop_eq_getElem_cons first, inner]

theorem length_turns : turns.length = 42 := by decide

/-- The step in which the second run makes its directory. -/
def making : Fin 2 × Move (Company 2) := turns.get ⟨27, by rw [length_turns]; decide⟩

/-- The step in which the first run deletes a directory for the second time. -/
def deleting : Fin 2 × Move (Company 2) := turns.get ⟨31, by rw [length_turns]; decide⟩

theorem turns_eq : turns = turns.take 27 ++ making :: ((turns.drop 28).take 3 ++ deleting :: turns.drop 32) :=
  split_twice turns _ _

/-- The place of the directories of both. -/
def chosenTwice : Location := ["ref".toList, tempRootName]

theorem directory_of_any {found : Option Entry} (isDirectory : found.any Entry.isDirectory = true) :
    found = some .directory := by
  rcases (Option.any_eq_true _ _).1 isDirectory with ⟨_ | _, rfl, isFound⟩
  · rfl
  · cases isFound

theorem creates_making : Creates 1 chosenTwice making where
  isOf := by decide
  unnoted := by decide
  makes := ⟨Option.isNone_iff_eq_none.1 (by decide), directory_of_any (by decide)⟩

theorem removes_deleting : Removes 0 chosenTwice deleting where
  isOf := by decide
  there := by decide
  gone := Option.isNone_iff_eq_none.1 (by decide)

theorem remains_until_deleting : ∀ kept ∈ (turns.drop 28).take 3, (kept.2.2.tree.entryAt? chosenTwice).isSome := by
  decide

/-- At its end a run may delete the directory that another run has made, has noted and goes on to work with. -/
theorem removes_directory_in_use : ∃ final front making between deleting later,
    Executes Interferes (sideBySide twoRuns) notStarted
      ((front ++ making :: (between ++ deleting :: later)).map Prod.snd) final (some [true, true]) ∧
    AreStepsOf twoRuns (front ++ making :: (between ++ deleting :: later)) ∧ Creates 1 chosenTwice making ∧
    (∀ kept ∈ between, (kept.2.2.tree.entryAt? chosenTwice).isSome) ∧ Removes 0 chosenTwice deleting ∧
    (deleting.2.1.worlds 1).tempRoot = some ⟨"ref/_addonIndexerTemp".toList⟩ ∧ ∃ own ∈ later, own.1 = 1 := by
  rcases executes_turns with ⟨final, execution⟩
  refine ⟨final, turns.take 27, making, (turns.drop 28).take 3, deleting, turns.drop 32, turns_eq ▸ execution,
    turns_eq ▸ areStepsOf_turns, creates_making, remains_until_deleting, removes_deleting, ?_, ?_⟩
  · decide
  · decide

/-- The first run had made and deleted a directory of the same name before. -/
theorem takesOnlyFreed_of_turns : ∃ final, Executes Interferes (sideBySide twoRuns) notStarted (turns.map Prod.snd) final
      (some [true, true]) ∧ TakesOnlyFreed (fun _ => nothing) notStarted turns ∧
    ∃ first made middle freeing last, turns.take 27 = first ++ made :: (middle ++ freeing :: last) ∧
      Creates 0 chosenTwice made ∧ Removes 0 chosenTwice freeing := by
  rcases executes_turns with ⟨final, execution⟩
  have named : notStarted.tree.Named := ⟨by decide, by decide⟩
  have onlyFreed := (takesOnlyFreed_of_sideBySide (fun _ => ⟨EventChannel.live_new, rfl, rfl, rfl⟩) named
    (fun _ => discreet_unpackingTools _ _ _) (fun _ _ => rfl) execution).2 turns rfl areStepsOf_turns
  refine ⟨final, execution, onlyFreed, ?_⟩
  exact onlyFreed 0 1 0 chosenTwice _ making _ deleting _ (by decide) (by decide) turns_eq creates_making
    remains_until_deleting removes_deleting.isOf removes_deleting.takes

end ChosenAgain

end AddonIndex.Indexing
