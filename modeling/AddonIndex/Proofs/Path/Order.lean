import AddonIndex.Proofs.Path.Descent
import Mathlib.Data.Char
import Mathlib.Data.List.Lex
import Mathlib.Data.Prod.Lex

/-!
# The order of paths

The order of paths is a linear order of their parts. Sorted paths are therefore
told by what is in the list, as long as different paths in it have different
parts.
-/

namespace AddonIndex

namespace Path

/-- The characters of a part that is a name. -/
def Part.characters : Part → Text
  | .name characters => characters
  | _ => []

/-- What the order of parts compares: their ranks, and then the characters of names. -/
def Part.key (part : Part) : Nat ×ₗ Text := toLex (part.rank, part.characters)

theorem Part.key_injective : Function.Injective Part.key := by
  intro a b same
  have both : (a.rank, a.characters) = (b.rank, b.characters) := same
  cases a <;> cases b <;> simp_all [Part.rank, Part.characters]

theorem Part.compare_eq_lt_iff {a b : Part} : a.compare b = .lt ↔ a.key < b.key := by
  rw [Part.key, Part.key, Prod.Lex.toLex_lt_toLex]
  cases a with
  | name a =>
      cases b with
      | name b =>
          simp only [Part.compare, compareOfLessAndEq, Part.rank, Part.characters]
          by_cases less : a < b
          · simp [less]
          · by_cases same : a = b <;> simp [less, same]
      | _ => simp [Part.compare, Part.rank, Part.characters, Ord.compare, compareOfLessAndEq]
  | _ => cases b <;> simp [Part.compare, Part.rank, Part.characters, Ord.compare, compareOfLessAndEq]

theorem Part.compare_eq_eq_iff {a b : Part} : a.compare b = .eq ↔ a = b := by
  cases a with
  | name a =>
      cases b with
      | name b =>
          simp only [Part.compare, compareOfLessAndEq, Part.name.injEq]
          by_cases less : a < b
          · simp only [less, if_true, reduceCtorEq, false_iff]
            exact ne_of_lt less
          · by_cases same : a = b <;> simp [less, same]
      | _ => simp [Part.compare, Part.rank, Ord.compare, compareOfLessAndEq]
  | _ => cases b <;> simp [Part.compare, Part.rank, Ord.compare, compareOfLessAndEq]

/-- What the order of paths compares. -/
def key (path : Path) : List (Nat ×ₗ Text) := path.parts.map Part.key

theorem compareParts_isLE_iff {as bs : List Part} :
    (compareParts as bs).isLE = true ↔ as.map Part.key ≤ bs.map Part.key := by
  induction as generalizing bs with
  | nil => cases bs <;> simp [compareParts, le_iff_lt_or_eq]
  | cons a as ih =>
      cases bs with
      | nil => simp [compareParts, le_iff_lt_or_eq]
      | cons b bs =>
          rw [le_iff_lt_or_eq, List.map_cons, List.map_cons, List.cons_lt_cons_iff, List.cons.injEq,
            or_assoc, ← and_or_left, ← le_iff_lt_or_eq, ← ih, ← Part.compare_eq_lt_iff,
            Part.key_injective.eq_iff, ← Part.compare_eq_eq_iff, compareParts]
          cases a.compare b <;> simp

/-- The order of paths is the order of what it compares. -/
theorem le_iff {a b : Path} : a.le b = true ↔ a.key ≤ b.key :=
  compareParts_isLE_iff

theorem parts_injective_of_key {a b : Path} (same : a.key = b.key) : a.parts = b.parts :=
  List.map_injective_iff.2 Part.key_injective same

theorem pairwise_sort (paths : List Path) : (sort paths).Pairwise fun a b => a.le b = true := by
  refine List.pairwise_mergeSort (fun a b c first second => ?_) (fun a b => ?_) paths
  · exact le_iff.2 (le_trans (le_iff.1 first) (le_iff.1 second))
  · rw [Bool.or_eq_true, le_iff, le_iff]
    exact le_total _ _

/-- Lists with the same paths are sorted alike, if different paths in them have different
parts. -/
theorem sort_eq_of_perm {first second : List Path} (perm : first.Perm second)
    (told : ∀ a ∈ first, ∀ b ∈ first, a.parts = b.parts → a = b) : sort first = sort second := by
  refine List.Perm.eq_of_pairwise (fun a b inFirst inSecond ab ba => ?_) (pairwise_sort first)
    (pairwise_sort second)
    ((List.mergeSort_perm first le).trans (perm.trans (List.mergeSort_perm second le).symm))
  have same := le_antisymm (le_iff.1 ab) (le_iff.1 ba)
  exact told a (List.mem_mergeSort.1 inFirst) b
    (perm.symm.subset (List.mem_mergeSort.1 inSecond)) (parts_injective_of_key same)

/-! ## The order below a path -/

/-- The order of paths that go down from the same path by names. -/
def leBelow (a b : List Text) : Bool := (compareParts (a.map Part.name) (b.map Part.name)).isLE

theorem compareParts_append (front a b : List Part) :
    compareParts (front ++ a) (front ++ b) = compareParts a b := by
  induction front with
  | nil => rfl
  | cons part front ih =>
      have same : part.compare part = .eq := Part.compare_eq_eq_iff.2 rfl
      rw [List.cons_append, List.cons_append, compareParts, same, ih]
      rfl

variable {base : Path} {belows : List (List Text)}

theorem le_descend (ends : EndsInName base) {a b : List Text} (aNames : ∀ name ∈ a, IsName name)
    (bNames : ∀ name ∈ b, IsName name) : (base.descend a).le (base.descend b) = leBelow a b := by
  rw [le, parts_descend ends aNames, parts_descend ends bNames, compareParts_append, leBelow]

theorem descend_injective (ends : EndsInName base) {a b : List Text} (aNames : ∀ name ∈ a, IsName name)
    (bNames : ∀ name ∈ b, IsName name) (same : (base.descend a).parts = (base.descend b).parts) :
    a = b := by
  rw [parts_descend ends aNames, parts_descend ends bNames] at same
  exact List.map_injective_iff.2 (fun _ _ same => Part.name.inj same) (List.append_cancel_left same)

/-- What is below a path is in the same order wherever that path is. -/
theorem sort_map_descend (ends : EndsInName base)
    (areNames : ∀ below ∈ belows, ∀ name ∈ below, IsName name) :
    sort (belows.map base.descend) = (belows.mergeSort leBelow).map base.descend := by
  refine (List.map_mergeSort fun a aMember b bMember => ?_).symm
  exact (le_descend ends (areNames a aMember) (areNames b bMember)).symm

/-- The order in which what is below a path is given does not matter. -/
theorem sort_descend_of_perm (ends : EndsInName base)
    (areNames : ∀ below ∈ belows, ∀ name ∈ below, IsName name) {paths : List Path}
    (perm : paths.Perm (belows.map base.descend)) :
    sort paths = (belows.mergeSort leBelow).map base.descend := by
  rw [← sort_map_descend ends areNames]
  refine (sort_eq_of_perm perm.symm fun a aMember b bMember same => ?_).symm
  obtain ⟨below, belowMember, rfl⟩ := List.mem_map.1 aMember
  obtain ⟨other, otherMember, rfl⟩ := List.mem_map.1 bMember
  rw [descend_injective ends (areNames below belowMember) (areNames other otherMember) same]

/-! ## The order below any path -/

/-- A name right below a path adds one part to parts that are the same for all names. -/
theorem exists_parts_join (base : Path) :
    ∃ front, ∀ name, IsName name → (base.join name).parts = front ++ [.name name] := by
  rcases base with ⟨text⟩
  have single : ∀ name, IsName name → (name.split (· == '/')).filterMap partOf? = [.name name] := by
    intro name isName
    simp [isName.split_eq, partOf?_name isName]
  by_cases nonempty : text = []
  · subst nonempty
    refine ⟨[], fun name isName => ?_⟩
    have relative : isAbsolute ⟨name⟩ = false := by simp [isAbsolute, isName.head?_ne_slash]
    have noLead : (name.split (· == '/')).head? ≠ some ['.'] := by
      rw [isName.split_eq]
      exact fun lead => isName.notHere (Option.some.inj lead)
    simp only [join, if_neg isName.head?_ne_slash, List.isEmpty_nil, true_or, if_true, List.nil_append]
    simp [parts, relative, noLead, single name isName]
  by_cases slash : text.getLast? = some '/'
  · rcases List.getLast?_eq_some_iff.1 slash with ⟨before, rfl⟩
    have joined : ∀ name, IsName name → join ⟨before ++ ['/']⟩ name = ⟨before ++ '/' :: name⟩ := by
      intro name isName
      simp [join, isName.head?_ne_slash]
    by_cases absolute : before = []
    · subst absolute
      refine ⟨[.root], fun name isName => ?_⟩
      have split : Text.split (· == '/') ('/' :: name) = [[]] ++ name.split (· == '/') :=
        Text.split_append_cons rfl [] name
      rw [joined name isName, List.nil_append]
      simp [parts, isAbsolute, split, single name isName, show partOf? [] = none from rfl]
    · refine ⟨parts ⟨before⟩, fun name isName => ?_⟩
      rw [joined name isName, parts_append_slash absolute, single name isName]
  · refine ⟨parts ⟨text⟩, fun name isName => ?_⟩
    have joined : join ⟨text⟩ name = ⟨text ++ '/' :: name⟩ := by
      simp [join, isName.head?_ne_slash, nonempty, slash]
    rw [joined, parts_append_slash nonempty, single name isName]

/-- Paths that go down by different names have different parts, wherever they begin. -/
theorem descend_injective_of_names (base : Path) {a b : List Text} (aNames : a ≠ [] ∧ ∀ name ∈ a, IsName name)
    (bNames : b ≠ [] ∧ ∀ name ∈ b, IsName name) (same : (base.descend a).parts = (base.descend b).parts) : a = b := by
  rcases exists_parts_join base with ⟨front, parts⟩
  have descends : ∀ names : List Text, names ≠ [] ∧ (∀ name ∈ names, IsName name) →
      (base.descend names).parts = front ++ names.map Part.name := by
    rintro (_ | ⟨name, rest⟩) ⟨nonempty, areNames⟩
    · exact absurd rfl nonempty
    · rcases List.forall_mem_cons.1 areNames with ⟨isName, areNames⟩
      rw [show base.descend (name :: rest) = (base.join name).descend rest from rfl,
        parts_descend (endsInName_join base isName) areNames, parts name isName, List.append_assoc]
      rfl
  rw [descends a aNames, descends b bNames] at same
  exact List.map_injective_iff.2 (fun _ _ same => Part.name.inj same) (List.append_cancel_left same)

end Path

end AddonIndex
