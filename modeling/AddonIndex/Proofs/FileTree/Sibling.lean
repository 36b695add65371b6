import AddonIndex.Proofs.FileTree.Way
import AddonIndex.Proofs.Path.Descent

/-!
# Files side by side

Whatever a directory is written like, the files right below it have the same parent, which names the directory though
it may be written with fewer dots and slashes. So files have the same parent exactly if they are in one directory, and a
file with another name takes its place there.
-/

namespace AddonIndex

namespace Path

variable {text other : Text}

/-- Whether nothing is written in a text but dots that stay. -/
def IsIdle (text : Text) : Prop := ∀ part ∈ written ⟨text⟩, part = ['.']

theorem IsIdle.append_slash (isIdle : IsIdle text) (otherIsIdle : IsIdle other) : IsIdle (text ++ '/' :: other) := by
  intro part member
  rw [written_append_slash] at member
  exact (List.mem_append.1 member).elim (isIdle part) (otherIsIdle part)

theorem isIdle_nil : IsIdle [] := by
  intro part member
  cases member

theorem isIdle_here : IsIdle ['.'] := by
  intro part member
  rw [written_part (by simp) (by simp)] at member
  exact List.mem_singleton.1 member

/-- What is dropped from the end of a text, given in reverse, is idle: all of the text, or what follows a slash. -/
theorem dropIdleParts_cases (reversed : Text) :
    reversed.reverse = (dropIdleParts reversed).reverse ∨
      dropIdleParts reversed = [] ∧ IsIdle reversed.reverse ∨
      ∃ idle, IsIdle idle ∧ reversed.reverse = (dropIdleParts reversed).reverse ++ '/' :: idle := by
  fun_induction dropIdleParts reversed with
  | case1 => exact .inl rfl
  | case2 rest ih =>
      rw [List.reverse_cons]
      rcases ih with kept | ⟨none, isIdle⟩ | ⟨idle, isIdle, split⟩
      · exact .inr (.inr ⟨[], isIdle_nil, by rw [kept]⟩)
      · exact .inr (.inl ⟨none, isIdle.append_slash isIdle_nil⟩)
      · exact .inr (.inr ⟨idle ++ ['/'], isIdle.append_slash isIdle_nil, by simp [split]⟩)
  | case3 => exact .inr (.inl ⟨rfl, isIdle_here⟩)
  | case4 rest ih =>
      rw [List.reverse_cons, List.reverse_cons, List.append_assoc, List.singleton_append]
      rcases ih with kept | ⟨none, isIdle⟩ | ⟨idle, isIdle, split⟩
      · exact .inr (.inr ⟨['.'], isIdle_here, by rw [kept]⟩)
      · exact .inr (.inl ⟨none, isIdle.append_slash isIdle_here⟩)
      · exact .inr (.inr ⟨idle ++ ['/', '.'], isIdle.append_slash isIdle_here, by simp [split]⟩)
  | case5 => exact .inl rfl

/-- An idle text has a start of its own. -/
theorem IsIdle.leadSize_ne_zero (isIdle : IsIdle text) (nonempty : text ≠ []) : leadSize ⟨text⟩ ≠ 0 := by
  by_cases slash : '/' ∈ text
  · rcases List.eq_append_cons_of_mem slash with ⟨front, rest, rfl, noSlash⟩
    by_cases first : front = []
    · subst first
      simp [leadSize]
    · have written : front ∈ written ⟨front ++ '/' :: rest⟩ := by
        rw [written_append_slash, written_part first noSlash]
        exact List.mem_append_left _ (List.mem_singleton_self front)
      rw [isIdle front written]
      simp [leadSize]
  · have written : text ∈ written ⟨text⟩ := by
      rw [written_part nonempty slash]
      exact List.mem_singleton_self text
    rw [isIdle text written]
    simp [leadSize]

/-- A text without what is idle at its end. -/
def trimmed (text : Text) : Text :=
  text.take (leadSize ⟨text⟩) ++ (dropIdleParts (text.drop (leadSize ⟨text⟩)).reverse).reverse

end Path

namespace FileTree

open Path

variable {tree : FileTree} {base : Path} {name other : Text} {names others : List Text}

theorem location_append_slash {before : Text} (nonempty : before ≠ []) (after : Text) :
    tree.location ⟨before ++ '/' :: after⟩ = (written ⟨after⟩).foldl Location.step (tree.location ⟨before⟩) := by
  have absolute : isAbsolute ⟨before ++ '/' :: after⟩ = isAbsolute ⟨before⟩ := by
    cases before with
    | nil => exact absurd rfl nonempty
    | cons c before => rfl
  rw [location, location, written_append_slash, List.foldl_append, start, start, absolute]

theorem foldl_step_of_idle {parts : List Text} (areIdle : ∀ part ∈ parts, part = ['.']) (place : Location) :
    parts.foldl Location.step place = place := by
  induction parts with
  | nil => rfl
  | cons part rest ih =>
      rcases List.forall_mem_cons.1 areIdle with ⟨rfl, restIdle⟩
      exact ih restIdle

/-- What is idle at the end of a path does not matter for where it leads. -/
theorem location_trimmed {text : Text} (nonempty : text ≠ []) :
    tree.location ⟨trimmed text⟩ = tree.location ⟨text⟩ := by
  have whole := List.take_append_drop (leadSize ⟨text⟩) text
  have starts := take_leadSize_cases ⟨text⟩
  have cases := dropIdleParts_cases (text.drop (leadSize ⟨text⟩)).reverse
  rw [List.reverse_reverse] at cases
  unfold trimmed
  have lead_ne_nil : text.take (leadSize ⟨text⟩) ≠ [] ∨ leadSize ⟨text⟩ = 0 := by
    by_cases none : leadSize ⟨text⟩ = 0
    · exact .inr none
    · exact .inl fun empty => (List.take_eq_nil_iff.1 empty).elim none nonempty
  rcases cases with kept | ⟨none, isIdle⟩ | ⟨idle, isIdle, split⟩
  · rw [← kept, whole]
  · rw [none, List.reverse_nil, List.append_nil]
    have someLead : leadSize ⟨text⟩ ≠ 0 := by
      intro noLead
      rw [noLead, List.drop_zero] at isIdle
      exact isIdle.leadSize_ne_zero nonempty noLead
    have lead_ne_nil := lead_ne_nil.resolve_right someLead
    rcases starts with empty | all | ⟨rest, slashed⟩ | ⟨root, rest, absolute⟩
    · exact absurd empty lead_ne_nil
    · have all : text.drop (leadSize ⟨text⟩) = [] := all
      rw [all, List.append_nil] at whole
      rw [whole]
    · have slashed : text = text.take (leadSize ⟨text⟩) ++ '/' :: rest := slashed
      have isRest : text.drop (leadSize ⟨text⟩) = [] ++ '/' :: rest :=
        List.append_cancel_left (whole.trans slashed)
      rw [isRest] at isIdle
      have restIdle : IsIdle rest := fun part member =>
        isIdle part (by rw [written_append_slash]; exact List.mem_append_right _ member)
      conv_rhs => rw [slashed, location_append_slash lead_ne_nil]
      exact (foldl_step_of_idle restIdle _).symm
    · have absolute : text = '/' :: rest := absolute
      have root : text.take (leadSize ⟨text⟩) = ['/'] := root
      subst absolute
      have isRest : ('/' :: rest).drop (leadSize ⟨'/' :: rest⟩) = rest := rfl
      rw [isRest] at isIdle
      have written : written ⟨'/' :: rest⟩ = written ⟨rest⟩ := written_append_slash [] rest
      rw [root, location, location, written, foldl_step_of_idle isIdle]
      rfl
  · have isWhole : text = (text.take (leadSize ⟨text⟩) ++
        (dropIdleParts (text.drop (leadSize ⟨text⟩)).reverse).reverse) ++ '/' :: idle := by
      rw [List.append_assoc, ← split, whole]
    have kept_ne_nil : text.take (leadSize ⟨text⟩) ++
        (dropIdleParts (text.drop (leadSize ⟨text⟩)).reverse).reverse ≠ [] := by
      intro nothing
      rcases lead_ne_nil with someLead | noLead
      · exact someLead (List.append_eq_nil_iff.1 nothing).1
      · rw [nothing, List.nil_append] at isWhole
        rw [isWhole] at noLead
        cases noLead
    conv_rhs => rw [isWhole, location_append_slash kept_ne_nil]
    exact (foldl_step_of_idle isIdle _).symm

/-- The parent of a name below a path is told by that path, and leads where it leads. -/
theorem exists_parent?_join (nonempty : base.text ≠ []) :
    ∃ parent, (∀ tree : FileTree, tree.location parent = tree.location base) ∧
      ∀ name, IsName name → (base.join name).parent? = some parent := by
  rcases base with ⟨text⟩
  -- Below a path that ends with a slash a name is written right after it.
  have exists_before : ∃ before, (∀ tree : FileTree, before ≠ [] → tree.location ⟨before⟩ = tree.location ⟨text⟩) ∧
      (before = [] → text = ['/']) ∧ ∀ name, IsName name → join ⟨text⟩ name = ⟨before ++ '/' :: name⟩ := by
    by_cases slash : text.getLast? = some '/'
    · rcases List.getLast?_eq_some_iff.1 slash with ⟨before, rfl⟩
      refine ⟨before, fun tree nonempty => ?_, fun empty => by rw [empty]; rfl, fun name isName => ?_⟩
      · rw [location_append_slash nonempty]
        rfl
      · simp [join, isName.head?_ne_slash]
    · refine ⟨text, fun tree _ => rfl, fun empty => absurd empty nonempty, fun name isName => ?_⟩
      have notEmpty : text ≠ [] := nonempty
      simp [join, isName.head?_ne_slash, notEmpty, slash]
  rcases exists_before with ⟨before, sameLocation, isRoot, joined⟩
  by_cases empty : before = []
  · obtain rfl := isRoot empty
    subst empty
    refine ⟨⟨['/']⟩, fun _ => rfl, fun name isName => ?_⟩
    have last : (parts ⟨'/' :: name⟩).getLast? = some (.name name) := by
      have slashed := @getLast?_parts name ['/'] isName (.inr rfl)
      exact slashed
    have lead : leadSize ⟨'/' :: name⟩ = 1 := rfl
    have kept := dropIdleParts_name isName []
    rw [List.append_nil] at kept
    have noSlash : afterSlash name.reverse = [] := by
      have plain : ∀ c ∈ name.reverse, decide (c ≠ '/') = true := by
        intro c member
        have other : c ≠ '/' := by
          rintro rfl
          exact isName.noSlash (List.mem_reverse.1 member)
        exact decide_eq_true other
      rw [afterSlash, ← List.append_nil name.reverse, List.dropWhile_append_of_pos plain]
      rfl
    rw [joined name isName, List.nil_append, parent?_eq_ite last (by simp)]
    simp only [lead, List.drop_succ_cons, List.drop_zero, List.take_succ_cons, List.take_zero, kept, noSlash]
    rw [if_neg (by simpa using isName.nonempty)]
    rfl
  · refine ⟨⟨trimmed before⟩, fun tree => ?_, fun name isName => ?_⟩
    · rw [location_trimmed empty, sameLocation tree empty]
    · rw [joined name isName, parent?_append_slash empty isName]
      rfl

/-- A file with another name is in the same directory. -/
theorem location_withFileName_descend (nonempty : base.text ≠ []) (someName : names ≠ [])
    (areNames : ∀ name ∈ names, IsName name) (isOther : IsName other) :
    tree.location ((base.descend names).withFileName other) = tree.location base ++ (names.dropLast ++ [other]) := by
  rcases List.eq_nil_or_concat names with rfl | ⟨front, last, rfl⟩
  · exact absurd rfl someName
  · rw [List.concat_eq_append] at areNames ⊢
    rcases List.forall_mem_append.1 areNames with ⟨frontNames, isLast⟩
    have isLast := isLast last List.mem_cons_self
    rcases exists_parent?_join (text_descend_ne_nil nonempty frontNames) with ⟨parent, sameLocation, isParent⟩
    rw [descend_append, descend_singleton, withFileName, fileName?_join _ isLast, isParent last isLast]
    change tree.location (parent.join other) = _
    rw [location_join_name _ isOther, sameLocation, location_descend _ _ frontNames, List.dropLast_concat,
      List.append_assoc]

/-- Files below a path have the same parent exactly if they are in the same directory. -/
theorem parent?_descend_eq_iff (nonempty : base.text ≠ []) (someName : names ≠ [])
    (areNames : ∀ name ∈ names, IsName name) (someOther : others ≠ []) (areOthers : ∀ name ∈ others, IsName name) :
    (base.descend names).parent? = (base.descend others).parent? ↔ names.dropLast = others.dropLast := by
  rcases List.eq_nil_or_concat names with rfl | ⟨front, last, rfl⟩
  · exact absurd rfl someName
  rcases List.eq_nil_or_concat others with rfl | ⟨otherFront, otherLast, rfl⟩
  · exact absurd rfl someOther
  rw [List.concat_eq_append] at areNames ⊢
  rw [List.concat_eq_append] at areOthers ⊢
  rcases List.forall_mem_append.1 areNames with ⟨frontNames, isLast⟩
  rcases List.forall_mem_append.1 areOthers with ⟨otherFrontNames, isOtherLast⟩
  rcases exists_parent?_join (text_descend_ne_nil nonempty frontNames) with ⟨parent, location, isParent⟩
  rcases exists_parent?_join (text_descend_ne_nil nonempty otherFrontNames) with ⟨otherParent, otherLocation, isOther⟩
  rw [descend_append, descend_append, descend_singleton, descend_singleton,
    isParent last (isLast last List.mem_cons_self), isOther otherLast (isOtherLast otherLast List.mem_cons_self),
    List.dropLast_concat, List.dropLast_concat]
  constructor
  · intro same
    have same := location default ▸ otherLocation default ▸
      congrArg (FileTree.location default) (Option.some.inj same)
    rw [location_descend _ _ frontNames, location_descend _ _ otherFrontNames] at same
    exact List.append_cancel_left same
  · rintro rfl
    rw [← isParent last (isLast last List.mem_cons_self), ← isOther last (isLast last List.mem_cons_self)]

end FileTree

end AddonIndex
