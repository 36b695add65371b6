import AddonIndex.Text.Basic

/-!
# Paths

A path is kept as it was written or joined; nothing is normalised. Its parts
are what stands between slashes. Empty parts and parts that are a single dot
have no meaning, except that a dot may begin a relative path. The order of paths is the
order of their parts, which differs from the order of their texts.
-/

namespace AddonIndex

/-- A path in the form in which it was written. -/
structure Path where
  text : Text
deriving DecidableEq, Inhabited, Repr

namespace Path

instance : Coe String Path := ⟨fun s => ⟨s.toList⟩⟩

/-- The characters of a path, for messages. -/
def toString (path : Path) : String := String.ofList path.text

/-- Whether a path begins at the root. -/
def isAbsolute (path : Path) : Bool := path.text.head? == some '/'

/-- One meaningful part of a path. -/
inductive Part
  | root
  | here
  | up
  | name (name : Text)
deriving DecidableEq, Inhabited, Repr

/-- What stands between slashes, read as a part. -/
def partOf? (written : Text) : Option Part :=
  if written = [] ∨ written = ['.'] then none
  else if written = ['.', '.'] then some .up
  else some (.name written)

/-- What is written between the slashes of a path, without what is empty. -/
def written (path : Path) : List Text := (path.text.split (· == '/')).filter (· ≠ [])

/-- The parts of a path. -/
def parts (path : Path) : List Part :=
  let written := path.text.split (· == '/')
  let start : List Part :=
    if path.isAbsolute then [.root]
    else if written.head? = some ['.'] then [.here]
    else []
  start ++ written.filterMap partOf?

/-- The number of characters that stand for the first part when that part is
the root or a leading dot. -/
def leadSize (path : Path) : Nat :=
  match path.text with
  | '/' :: _ => 1
  | ['.'] => 1
  | '.' :: '/' :: _ => 1
  | _ => 0

/-- What follows the slash that ends the first written part of a text. -/
def afterSlash (reversed : Text) : Text :=
  (reversed.dropWhile (· ≠ '/')).drop 1

/-- Drop meaningless parts from the end of a text, which is given and returned
in reverse. -/
def dropIdleParts (reversed : Text) : Text :=
  match reversed with
  | [] => []
  | '/' :: rest => dropIdleParts rest
  | ['.'] => []
  | '.' :: '/' :: rest => dropIdleParts rest
  | c :: rest => c :: rest

/-- The path without its last part. A path without parts and the root have no
parent; the parent of a single relative part is the empty path. -/
def parent? (path : Path) : Option Path :=
  match path.parts.getLast? with
  | none => none
  | some .root => none
  | some _ =>
      let lead := path.text.take path.leadSize
      let body := dropIdleParts (path.text.drop path.leadSize).reverse
      if body.isEmpty then some ⟨[]⟩
      else some ⟨lead ++ (dropIdleParts (afterSlash body)).reverse⟩

theorem length_dropIdleParts_le (reversed : Text) :
    (dropIdleParts reversed).length ≤ reversed.length := by
  fun_induction dropIdleParts reversed <;> simp_all <;> omega

theorem length_afterSlash_lt {body : Text} (nonempty : body ≠ []) :
    (afterSlash body).length < body.length := by
  unfold afterSlash
  cases body with
  | nil => exact absurd rfl nonempty
  | cons c rest =>
      have shorter : ((c :: rest).dropWhile (· ≠ '/')).length ≤ (c :: rest).length :=
        (List.dropWhile_sublist _).length_le
      simp only [List.length_drop, List.length_cons] at *
      omega

/-- A parent is written with fewer characters. -/
theorem length_parent?_lt {path parent : Path} (h : path.parent? = some parent) :
    parent.text.length < path.text.length := by
  unfold parent? at h
  split at h
  · simp at h
  · simp at h
  · rename_i last _ found
    have written : path.text ≠ [] := by
      intro empty
      simp [parts, isAbsolute, empty, Text.split, partOf?] at found
    have positive : 0 < path.text.length := List.length_pos_iff.2 written
    dsimp only at h
    split at h
    · simp only [Option.some.injEq] at h
      subst h
      simpa using positive
    · rename_i nonempty
      simp only [Option.some.injEq] at h
      subst h
      have body : dropIdleParts (path.text.drop path.leadSize).reverse ≠ [] := by
        simpa using nonempty
      have shorter := length_afterSlash_lt body
      have idle := length_dropIdleParts_le
        (afterSlash (dropIdleParts (path.text.drop path.leadSize).reverse))
      have start := length_dropIdleParts_le (path.text.drop path.leadSize).reverse
      simp only [List.length_append, List.length_take, List.length_reverse,
        List.length_drop] at *
      omega

/-- A path, its parent, the parent of that, and so on. -/
def ancestors (path : Path) : List Path :=
  match _step : path.parent? with
  | none => [path]
  | some parent => path :: ancestors parent
termination_by path.text.length
decreasing_by exact length_parent?_lt _step

/-- The last part of a path, if it is a name. -/
def fileName? (path : Path) : Option Text :=
  match path.parts.getLast? with
  | some (.name name) => some name
  | _ => none

/-- A file name cut at its last dot: what precedes it and, if there is a dot
after the first character, what follows it. -/
def splitExtension (name : Text) : Text × Option Text :=
  let extension := (name.reverse.takeWhile (· ≠ '.')).reverse
  let stem := name.take (name.length - extension.length - 1)
  if extension.length = name.length ∨ stem.isEmpty then (name, none)
  else (stem, some extension)

/-- The file name without its extension. -/
def fileStem? (path : Path) : Option Text :=
  path.fileName?.map fun name => (splitExtension name).1

/-- What follows the last dot of the file name, if anything precedes that dot. -/
def extension? (path : Path) : Option Text :=
  path.fileName?.bind fun name => (splitExtension name).2

/-- Put a written path below another path. One that begins at the root takes
its place. -/
def join (base : Path) (below : Text) : Path :=
  if below.head? = some '/' then ⟨below⟩
  else if base.text.isEmpty ∨ base.text.getLast? = some '/' then ⟨base.text ++ below⟩
  else ⟨base.text ++ '/' :: below⟩

/-- Go down from a path by names. -/
def descend (base : Path) (names : List Text) : Path := names.foldl join base

/-- The path with another file name. -/
def withFileName (path : Path) (name : Text) : Path :=
  if path.fileName?.isSome then (path.parent?.getD ⟨[]⟩).join name else path.join name

/-- The rank of a part that is not a name. -/
def Part.rank : Part → Nat
  | .root => 0
  | .here => 1
  | .up => 2
  | .name _ => 3

/-- The order of parts: the root, a leading dot, double dots, then names by
their characters. -/
def Part.compare (a b : Part) : Ordering :=
  match a, b with
  | .name x, .name y => compareOfLessAndEq x y
  | a, b => Ord.compare a.rank b.rank

/-- The order of part lists, first difference first. -/
def compareParts : List Part → List Part → Ordering
  | [], [] => .eq
  | [], _ :: _ => .lt
  | _ :: _, [] => .gt
  | a :: as, b :: bs => (a.compare b).then (compareParts as bs)

/-- Whether a path comes before another one or has the same parts. -/
def le (a b : Path) : Bool := (compareParts a.parts b.parts).isLE

/-- The paths in increasing order; paths with equal parts keep their order. -/
def sort (paths : List Path) : List Path := paths.mergeSort le

/-- The written text of parts that follow the start of a path. -/
def relativeText (parts : List Part) : Text :=
  Text.joinWith ['/'] (parts.map fun part =>
    match part with
    | .name name => name
    | .up => ['.', '.']
    | .here => ['.']
    | .root => [])

/-- What follows `base` in a path whose first parts are those of `base`. -/
def relativeTo? (path base : Path) : Option Path :=
  if base.parts.isPrefixOf path.parts then
    some ⟨relativeText (path.parts.drop base.parts.length)⟩
  else none

end Path

end AddonIndex
