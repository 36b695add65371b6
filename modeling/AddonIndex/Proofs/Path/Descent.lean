import AddonIndex.Proofs.Path.Written
import Mathlib.Data.List.TakeWhile

/-!
# Paths below a path

Going down from a path by names appends the names to its text, each after a
slash. The parent, the file name and the parts of the result are then those that
the names tell, whatever the path is that they are below.
-/

namespace AddonIndex

namespace Path

/-! ## Texts that end with a name -/

/-- Whether a path ends with a name, so that a name can be put below it after a slash. -/
def EndsInName (path : Path) : Prop :=
  ∃ lead name, path.text = lead ++ name ∧ IsName name ∧ (lead = [] ∨ lead.getLast? = some '/')

variable {base : Path} {name other : Text}

theorem EndsInName.text_ne_nil (ends : EndsInName base) : base.text ≠ [] := by
  obtain ⟨lead, name, text, isName, -⟩ := ends
  rw [text]
  exact List.append_ne_nil_of_right_ne_nil lead isName.nonempty

theorem EndsInName.getLast?_ne_slash (ends : EndsInName base) : base.text.getLast? ≠ some '/' := by
  obtain ⟨lead, name, text, isName, -⟩ := ends
  rw [text, List.getLast?_append]
  intro slash
  cases last : name.getLast? with
  | none => exact isName.nonempty (List.getLast?_eq_none_iff.1 last)
  | some c =>
      rw [last, Option.some_or] at slash
      exact isName.getLast?_ne_slash (last.trans slash)

theorem endsInName_join (base : Path) (isName : IsName name) : EndsInName (base.join name) := by
  unfold join
  rw [if_neg isName.head?_ne_slash]
  split
  · rename_i ended
    refine ⟨base.text, name, rfl, isName, ?_⟩
    simpa using ended
  · exact ⟨base.text ++ ['/'], name, by simp, isName, by simp⟩

/-- Below a path that ends with a name everything is written after a slash. -/
theorem EndsInName.join_eq (ends : EndsInName base) {below : Text}
    (relative : below.head? ≠ some '/') : base.join below = ⟨base.text ++ '/' :: below⟩ := by
  unfold join
  rw [if_neg relative, if_neg]
  rintro (empty | slash)
  · exact ends.text_ne_nil (List.isEmpty_iff.1 empty)
  · exact ends.getLast?_ne_slash slash

/-! ## Going down -/

@[simp]
theorem descend_nil (base : Path) : base.descend [] = base :=
  rfl

theorem descend_append (base : Path) (first second : List Text) :
    base.descend (first ++ second) = (base.descend first).descend second :=
  List.foldl_append

@[simp]
theorem descend_singleton (base : Path) (name : Text) : base.descend [name] = base.join name :=
  rfl

variable {names : List Text}

theorem EndsInName.descend (ends : EndsInName base) (areNames : ∀ name ∈ names, IsName name) :
    EndsInName (base.descend names) := by
  rcases List.eq_nil_or_concat names with rfl | ⟨front, name, rfl⟩
  · exact ends
  · rw [List.concat_eq_append, descend_append]
    exact endsInName_join _ (areNames name (by simp))

theorem text_descend_ne_nil (nonempty : base.text ≠ []) (areNames : ∀ name ∈ names, IsName name) :
    (base.descend names).text ≠ [] := by
  rcases List.eq_nil_or_concat names with rfl | ⟨front, name, rfl⟩
  · exact nonempty
  · rw [List.concat_eq_append, descend_append]
    exact (endsInName_join _ (areNames name (by simp))).text_ne_nil

/-- The text of names one after another, each after a slash. -/
def slashed (names : List Text) : Text := names.flatMap ('/' :: ·)

theorem text_descend (ends : EndsInName base) (areNames : ∀ name ∈ names, IsName name) :
    (base.descend names).text = base.text ++ slashed names := by
  induction names generalizing base with
  | nil => simp [slashed]
  | cons name names ih =>
      have isName := areNames name List.mem_cons_self
      have rest := ih (endsInName_join base isName) fun other member =>
        areNames other (List.mem_cons_of_mem name member)
      rw [show base.descend (name :: names) = (base.join name).descend names from rfl, rest,
        ends.join_eq isName.head?_ne_slash]
      simp [slashed]

theorem joinWith_slash (name : Text) (names : List Text) :
    Text.joinWith ['/'] (name :: names) = name ++ slashed names := by
  induction names generalizing name with
  | nil => simp [Text.joinWith, slashed]
  | cons second names ih =>
      have rest := ih second
      simp only [Text.joinWith, slashed] at rest ⊢
      rw [List.intercalate_cons_cons, rest]
      simp

theorem written_descend (base : Path) (areNames : ∀ name ∈ names, IsName name) :
    (base.descend names).written = base.written ++ names := by
  induction names generalizing base with
  | nil => simp
  | cons name names ih =>
      have isName := areNames name List.mem_cons_self
      have rest := ih (base.join name) fun other member =>
        areNames other (List.mem_cons_of_mem name member)
      rw [show base.descend (name :: names) = (base.join name).descend names from rfl, rest,
        written_join isName.head?_ne_slash, written_name isName]
      simp

/-! ## Parts -/

/-- What is written after a slash adds its parts to those before it. -/
theorem parts_append_slash {before : Text} (nonempty : before ≠ []) (after : Text) :
    parts ⟨before ++ '/' :: after⟩ =
      parts ⟨before⟩ ++ (after.split (· == '/')).filterMap partOf? := by
  have absolute : isAbsolute ⟨before ++ '/' :: after⟩ = isAbsolute ⟨before⟩ := by
    cases before with
    | nil => exact absurd rfl nonempty
    | cons c before => rfl
  have split : (before ++ '/' :: after).split (· == '/') =
      before.split (· == '/') ++ after.split (· == '/') := Text.split_append_cons rfl before after
  have first : (before.split (· == '/') ++ after.split (· == '/')).head? =
      (before.split (· == '/')).head? := by
    cases written : before.split (· == '/') with
    | nil => exact absurd written (Text.split_ne_nil _ before)
    | cons line lines => rfl
  simp only [parts, absolute, split, first, List.filterMap_append, List.append_assoc]

theorem partOf?_name (isName : IsName name) : partOf? name = some (.name name) := by
  simp [partOf?, isName.nonempty, isName.notHere, isName.notUp]

theorem IsName.split_eq (isName : IsName name) : name.split (· == '/') = [name] := by
  refine Text.split_eq_singleton fun c member => ?_
  simp only [beq_eq_false_iff_ne]
  rintro rfl
  exact isName.noSlash member

/-- The last part of a path that ends with a name is that name. -/
theorem getLast?_parts {lead : Text} (isName : IsName name)
    (ended : lead = [] ∨ lead.getLast? = some '/') :
    (parts ⟨lead ++ name⟩).getLast? = some (.name name) := by
  have ends : ∃ front, (lead ++ name).split (· == '/') = front ++ [name] := by
    rcases ended with rfl | slash
    · exact ⟨[], isName.split_eq⟩
    · obtain ⟨front, rfl⟩ := List.getLast?_eq_some_iff.1 slash
      rw [List.append_assoc, List.singleton_append, Text.split_append_cons rfl, isName.split_eq]
      exact ⟨_, rfl⟩
  obtain ⟨front, written⟩ := ends
  simp only [parts, written, List.filterMap_append]
  simp [partOf?_name isName]

theorem getLast?_parts_join (base : Path) (isName : IsName name) :
    (base.join name).parts.getLast? = some (.name name) := by
  unfold join
  rw [if_neg isName.head?_ne_slash]
  split
  · rename_i ended
    exact getLast?_parts isName (by simpa using ended)
  · rw [List.append_cons]
    exact getLast?_parts isName (.inr (by simp))

theorem fileName?_join (base : Path) (isName : IsName name) :
    (base.join name).fileName? = some name := by
  rw [fileName?, getLast?_parts_join base isName]

/-- A name below a path that is not empty adds one part. -/
theorem parts_join_of_text (nonempty : base.text ≠ []) (isName : IsName name) :
    (base.join name).parts = base.parts ++ [.name name] := by
  obtain ⟨text⟩ := base
  have single : (name.split (· == '/')).filterMap partOf? = [.name name] := by
    rw [isName.split_eq]
    simp [partOf?_name isName]
  unfold join
  rw [if_neg isName.head?_ne_slash]
  split
  · rename_i ended
    have slash := ended.resolve_left (by simpa using nonempty)
    obtain ⟨front, rfl⟩ := List.getLast?_eq_some_iff.1 slash
    rw [List.append_assoc, List.singleton_append]
    by_cases before : front = []
    · subst before
      simp [parts, isAbsolute, Text.split, single, partOf?]
    · rw [parts_append_slash before, single, parts_append_slash before]
      simp [Text.split, partOf?]
  · rw [parts_append_slash nonempty, single]

/-- Names below a path that is not empty add one part each. -/
theorem parts_descend_of_text (nonempty : base.text ≠ []) (areNames : ∀ name ∈ names, IsName name) :
    (base.descend names).parts = base.parts ++ names.map Part.name := by
  induction names generalizing base with
  | nil => simp
  | cons name names ih =>
      have isName := areNames name List.mem_cons_self
      rw [show base.descend (name :: names) = (base.join name).descend names from rfl,
        ih (endsInName_join base isName).text_ne_nil fun other member =>
          areNames other (List.mem_cons_of_mem name member),
        parts_join_of_text nonempty isName]
      simp

/-- Names below a path that ends with a name add one part each. -/
theorem parts_descend (ends : EndsInName base) (areNames : ∀ name ∈ names, IsName name) :
    (base.descend names).parts = base.parts ++ names.map Part.name :=
  parts_descend_of_text ends.text_ne_nil areNames

/-! ## Parents -/

theorem leadSize_append_slash {before : Text} (nonempty : before ≠ []) (after : Text) :
    leadSize ⟨before ++ '/' :: after⟩ = leadSize ⟨before⟩ := by
  match before, nonempty with
  | '/' :: _, _ => rfl
  | ['.'], _ => rfl
  | '.' :: '/' :: _, _ => rfl
  | [c], _ =>
      by_cases slash : c = '/'
      · subst slash
        rfl
      · by_cases dot : c = '.'
        · subst dot
          rfl
        · simp [leadSize, slash, dot]
  | c :: d :: rest, _ =>
      by_cases slash : c = '/'
      · subst slash
        rfl
      · by_cases dot : c = '.'
        · subst dot
          by_cases next : d = '/'
          · subst next
            rfl
          · simp [leadSize, next]
        · simp [leadSize, slash, dot]

theorem leadSize_le_one (path : Path) : path.leadSize ≤ 1 := by
  unfold leadSize
  split <;> omega

/-- A single name has no lead. -/
theorem IsName.leadSize_eq (isName : IsName name) : leadSize ⟨name⟩ = 0 := by
  obtain ⟨-, noSlash, notHere, -⟩ := isName
  unfold leadSize
  split
  · rename_i text
    obtain rfl := text
    exact absurd List.mem_cons_self noSlash
  · rename_i text
    exact absurd text notHere
  · rename_i text
    obtain rfl := text
    exact absurd (List.mem_cons_of_mem _ List.mem_cons_self) noSlash
  · rfl

theorem leadSize_le {before : Text} (nonempty : before ≠ []) : leadSize ⟨before⟩ ≤ before.length := by
  have positive : 0 < before.length := List.length_pos_iff.2 nonempty
  have short := leadSize_le_one ⟨before⟩
  omega

/-- Nothing is dropped from the end of a text that ends with a name. -/
theorem dropIdleParts_name (isName : IsName name) (before : Text) :
    dropIdleParts (name.reverse ++ before) = name.reverse ++ before := by
  have noSlash : '/' ∉ name.reverse := by simpa using isName.noSlash
  have notDot : name.reverse ≠ ['.'] := by
    intro dot
    exact isName.notHere (by rw [← List.reverse_reverse name, dot]; rfl)
  cases reversed : name.reverse with
  | nil => exact absurd (List.reverse_eq_nil_iff.1 reversed) isName.nonempty
  | cons c rest =>
      rw [reversed] at noSlash notDot
      have notSlash : c ≠ '/' := fun slash => noSlash (slash ▸ List.mem_cons_self)
      cases rest with
      | nil =>
          have notHere : c ≠ '.' := by simpa using notDot
          unfold dropIdleParts
          simp [notHere]
      | cons d rest =>
          have notNext : d ≠ '/' := fun slash => noSlash (slash ▸ by simp)
          unfold dropIdleParts
          simp [notNext]

theorem dropIdleParts_append {last : Text} (kept : dropIdleParts last ≠ []) (before : Text) :
    dropIdleParts (last ++ before) = dropIdleParts last ++ before := by
  fun_induction dropIdleParts last with
  | case1 => exact absurd rfl kept
  | case2 rest ih =>
      rw [List.cons_append, dropIdleParts]
      exact ih kept
  | case3 => exact absurd rfl kept
  | case4 rest ih =>
      rw [List.cons_append, List.cons_append, dropIdleParts]
      exact ih kept
  | case5 c rest notSlash notDot notNext =>
      cases rest with
      | nil =>
          have notHere : c ≠ '.' := fun dot => notDot dot rfl
          rw [List.singleton_append, dropIdleParts]
          · exact notSlash
          · exact fun dot _ => notHere dot
          · exact fun _ dot _ => notHere dot
      | cons d rest =>
          rw [List.cons_append, dropIdleParts]
          · exact notSlash
          · exact fun _ none => by cases none
          · exact fun after dot same => notNext _ dot (by cases same; rfl)

/-- Where all is dropped, dropping goes on before it. -/
theorem dropIdleParts_append_slash {last : Text} (idle : dropIdleParts last = []) (before : Text) :
    dropIdleParts (last ++ '/' :: before) = dropIdleParts before := by
  fun_induction dropIdleParts last with
  | case1 => rw [List.nil_append, dropIdleParts]
  | case2 rest ih =>
      rw [List.cons_append, dropIdleParts]
      exact ih idle
  | case3 => rw [List.singleton_append, dropIdleParts]
  | case4 rest ih =>
      rw [List.cons_append, List.cons_append, dropIdleParts]
      exact ih idle
  | case5 => cases idle

/-- What is dropped from an end holds nothing but dots. -/
theorem eq_here_of_dropIdleParts {last : Text} (idle : dropIdleParts last = []) :
    ∀ part ∈ written ⟨last.reverse⟩, part = ['.'] := by
  fun_induction dropIdleParts last with
  | case1 => simp [written_empty]
  | case2 rest ih =>
      rw [List.reverse_cons, written_append_slash, written_empty, List.append_nil]
      exact ih idle
  | case3 => simp [written, Text.split, Text.consLine]
  | case4 rest ih =>
      rw [List.reverse_cons, List.reverse_cons, List.append_assoc, List.singleton_append,
        written_append_slash]
      intro part member
      rcases List.mem_append.1 member with before | dot
      · exact ih idle part before
      · simpa [written, Text.split, Text.consLine] using dot
  | case5 => cases idle

theorem afterSlash_append {last : Text} (slash : '/' ∈ last) (before : Text) :
    afterSlash (last ++ before) = afterSlash last ++ before := by
  have found : last.dropWhile (fun c => decide (c ≠ '/')) ≠ [] := by
    intro none
    have noSlash := List.dropWhile_eq_nil_iff.1 none '/' slash
    simp at noSlash
  unfold afterSlash
  rw [List.dropWhile_append, if_neg (by simpa using found)]
  exact List.drop_append_of_le_length (List.length_pos_iff.2 found)

theorem afterSlash_name (isName : IsName name) (before : Text) :
    afterSlash (name.reverse ++ '/' :: before) = before := by
  have noSlash : ∀ c ∈ name.reverse, decide (c ≠ '/') = true := by
    intro c member
    have other : c ≠ '/' := by
      rintro rfl
      exact isName.noSlash (List.mem_reverse.1 member)
    exact decide_eq_true other
  rw [afterSlash, List.dropWhile_append_of_pos noSlash]
  simp

/-- The parent of a path that ends with a part below the root is what precedes that part. -/
theorem parent?_eq_ite {path : Path} {last : Part} (ends : path.parts.getLast? = some last)
    (notRoot : last ≠ .root) :
    path.parent? =
      if (dropIdleParts (path.text.drop path.leadSize).reverse).isEmpty then some ⟨[]⟩
      else some ⟨path.text.take path.leadSize ++ (dropIdleParts
        (afterSlash (dropIdleParts (path.text.drop path.leadSize).reverse))).reverse⟩ := by
  rw [parent?, ends]
  cases last with
  | root => exact absurd rfl notRoot
  | _ => rfl

/-- What follows the first part of a path that ends in a name ends with that name. -/
theorem EndsInName.exists_drop_leadSize (ends : EndsInName base) :
    ∃ inner rest, IsName inner ∧ (base.text.drop base.leadSize).reverse = inner.reverse ++ rest := by
  rcases ends with ⟨lead, inner, text, innerName, apart⟩
  have within : base.leadSize ≤ lead.length := by
    cases lead with
    | nil =>
        have none := innerName.leadSize_eq
        rw [List.nil_append] at text
        rw [← text] at none
        exact Nat.le_of_eq none
    | cons c lead => exact Nat.le_trans (leadSize_le_one base) (Nat.le_add_left 1 lead.length)
  refine ⟨inner, (lead.drop base.leadSize).reverse, innerName, ?_⟩
  rw [text, List.drop_append_of_le_length within, List.reverse_append]

/-- The parent of a name after a slash is what precedes it, without what is idle at its end. -/
theorem parent?_append_slash {before : Text} (nonempty : before ≠ []) (isName : IsName name) :
    parent? ⟨before ++ '/' :: name⟩ =
      some ⟨before.take (leadSize ⟨before⟩) ++ (dropIdleParts (before.drop (leadSize ⟨before⟩)).reverse).reverse⟩ := by
  have last : (parts ⟨before ++ '/' :: name⟩).getLast? = some (.name name) := by
    have slashed := @getLast?_parts name (before ++ ['/']) isName (.inr List.getLast?_concat)
    rwa [List.append_assoc, List.singleton_append] at slashed
  have short : leadSize ⟨before⟩ ≤ before.length := leadSize_le nonempty
  rw [parent?_eq_ite last Part.noConfusion]
  simp only [leadSize_append_slash nonempty name, List.take_append_of_le_length short,
    List.drop_append_of_le_length short, List.reverse_append, List.reverse_cons, List.append_assoc,
    List.singleton_append]
  rw [dropIdleParts_name isName, afterSlash_name isName]
  simp [isName.nonempty]

/-- The parent of a name below a path is that path. -/
theorem parent?_join (ends : EndsInName base) (isName : IsName name) :
    (base.join name).parent? = some base := by
  rcases ends.exists_drop_leadSize with ⟨inner, rest, innerName, ending⟩
  rw [ends.join_eq isName.head?_ne_slash, parent?_append_slash ends.text_ne_nil isName, ending,
    dropIdleParts_name innerName, ← ending, List.reverse_reverse, List.take_append_drop]

/-- A dot between a path and a name is left out of the parent. -/
theorem parent?_join_here (ends : EndsInName base) (isName : IsName name) :
    ((base.join ['.']).join name).parent? = some base := by
  rcases ends.exists_drop_leadSize with ⟨inner, rest, innerName, ending⟩
  have short := leadSize_le ends.text_ne_nil
  have joined : (base.join ['.']).join name = ⟨(base.text ++ ['/', '.']) ++ '/' :: name⟩ := by
    rw [ends.join_eq (by decide)]
    unfold join
    rw [if_neg isName.head?_ne_slash, if_neg (by simp [List.getLast?_append])]
  rw [joined, parent?_append_slash (by simp) isName]
  simp only [leadSize_append_slash ends.text_ne_nil, List.take_append_of_le_length short,
    List.drop_append_of_le_length short, List.reverse_append, List.reverse_cons, List.reverse_nil, List.nil_append,
    List.cons_append]
  rw [dropIdleParts, ending, dropIdleParts_name innerName, ← ending, List.reverse_reverse, List.take_append_drop]

/-- Two dots between a path and a name stay in the parent. -/
theorem parent?_join_up (ends : EndsInName base) (isName : IsName name) :
    ((base.join ['.', '.']).join name).parent? = some (base.join ['.', '.']) := by
  have short := leadSize_le ends.text_ne_nil
  have joined : (base.join ['.', '.']).join name = ⟨(base.text ++ ['/', '.', '.']) ++ '/' :: name⟩ := by
    rw [ends.join_eq (by decide)]
    unfold join
    rw [if_neg isName.head?_ne_slash, if_neg (by simp [List.getLast?_append])]
  rw [joined, parent?_append_slash (by simp) isName, ends.join_eq (by decide)]
  simp only [leadSize_append_slash ends.text_ne_nil, List.take_append_of_le_length short,
    List.drop_append_of_le_length short, List.reverse_append, List.reverse_cons, List.reverse_nil, List.nil_append,
    List.cons_append]
  rw [dropIdleParts]
  · simp only [List.reverse_cons, List.reverse_reverse, List.append_assoc, List.cons_append, List.nil_append]
    rw [← List.append_assoc, List.take_append_drop]
  · simp
  · simp
  · simp

theorem withFileName_join (ends : EndsInName base) (isName : IsName name) (other : Text) :
    (base.join name).withFileName other = base.join other := by
  rw [withFileName, fileName?_join base isName, parent?_join ends isName]
  rfl

/-! ## Relative texts -/

theorem text_ne_nil_of_fileName? (isFileName : base.fileName? = some other) : base.text ≠ [] := by
  obtain ⟨text⟩ := base
  rintro rfl
  cases isFileName

/-- What follows a path in one that goes down from it are the names between slashes, if it is not empty. -/
theorem relativeTo?_descend_of_text (nonempty : base.text ≠ []) (areNames : ∀ name ∈ names, IsName name) :
    (base.descend names).relativeTo? base = some ⟨Text.joinWith ['/'] names⟩ := by
  have isPrefix : base.parts.isPrefixOf (base.parts ++ names.map Part.name) = true :=
    List.isPrefixOf_iff_prefix.2 (List.prefix_append _ _)
  rw [relativeTo?, parts_descend_of_text nonempty areNames, if_pos isPrefix, List.drop_left,
    relativeText, List.map_map]
  congr
  exact List.map_id'' (fun _ => rfl) names

/-- Names between slashes are joined like names one after another. -/
theorem join_joinWith (ends : EndsInName base) (isName : IsName name)
    (areNames : ∀ name ∈ names, IsName name) :
    base.join (Text.joinWith ['/'] (name :: names)) = base.descend (name :: names) := by
  have relative : (Text.joinWith ['/'] (name :: names)).head? ≠ some '/' := by
    obtain ⟨c, rest, rfl⟩ := List.exists_cons_of_ne_nil isName.nonempty
    rw [joinWith_slash]
    exact isName.head?_ne_slash
  have whole := text_descend ends (List.forall_mem_cons.2 ⟨isName, areNames⟩)
  rw [ends.join_eq relative, joinWith_slash]
  refine congrArg Path.mk (Eq.trans ?_ whole.symm)
  simp [slashed]

/-! ## Texts that begin with a name -/

/-- Whether a relative text begins with a given name. -/
def BeginsWith (name text : Text) : Prop := text = name ∨ ∃ rest, text = name ++ '/' :: rest

/-- Below a path there is no root. -/
theorem exists_getLast?_parts {before : Text} (nonempty : before ≠ []) (isName : IsName name)
    (rest : Text) :
    ∃ last, (parts ⟨before ++ '/' :: (name ++ '/' :: rest)⟩).getLast? = some last ∧ last ≠ .root := by
  have written : (name ++ '/' :: rest).split (· == '/') = name :: rest.split (· == '/') := by
    rw [Text.split_append_cons rfl, isName.split_eq, List.singleton_append]
  rw [parts_append_slash nonempty, written, List.filterMap_cons_some (partOf?_name isName)]
  have someLast : (Part.name name :: (rest.split (· == '/')).filterMap partOf?).getLast? ≠ none := by simp
  obtain ⟨last, found⟩ := Option.ne_none_iff_exists'.1 someLast
  refine ⟨last, by rw [List.getLast?_append, found, Option.some_or], ?_⟩
  rintro rfl
  rcases List.mem_cons.1 (List.mem_of_getLast? found) with same | later
  · cases same
  · obtain ⟨part, -, isRoot⟩ := List.mem_filterMap.1 later
    unfold partOf? at isRoot
    split at isRoot
    · cases isRoot
    · split at isRoot <;> cases isRoot

/-- The parent of a path below another one is below it in the same way, whatever the other one
is, as long as something is below the name that comes first. -/
theorem exists_parent?_eq (isName : IsName name) {rest : Text}
    (kept : dropIdleParts rest.reverse ≠ []) :
    ∃ parent, BeginsWith name parent ∧ ∀ before : Text, before ≠ [] →
      parent? ⟨before ++ '/' :: (name ++ '/' :: rest)⟩ = some ⟨before ++ '/' :: parent⟩ := by
  -- The part that is left when the last part is dropped, in reverse.
  have left : ∃ parent, BeginsWith name parent ∧ ∀ lead : Text,
      dropIdleParts (afterSlash (dropIdleParts (rest.reverse ++ '/' :: (name.reverse ++ '/' :: lead)))) =
        parent.reverse ++ '/' :: lead := by
    have first : ∀ lead, dropIdleParts (rest.reverse ++ '/' :: (name.reverse ++ '/' :: lead)) =
        dropIdleParts rest.reverse ++ '/' :: (name.reverse ++ '/' :: lead) :=
      fun lead => dropIdleParts_append kept _
    by_cases slash : '/' ∈ dropIdleParts rest.reverse
    · by_cases idle : dropIdleParts (afterSlash (dropIdleParts rest.reverse)) = []
      · refine ⟨name, .inl rfl, fun lead => ?_⟩
        rw [first, afterSlash_append slash, dropIdleParts_append_slash idle, dropIdleParts_name isName]
      · refine ⟨name ++ '/' :: (dropIdleParts (afterSlash (dropIdleParts rest.reverse))).reverse,
          .inr ⟨_, rfl⟩, fun lead => ?_⟩
        rw [first, afterSlash_append slash, dropIdleParts_append idle]
        simp
    · refine ⟨name, .inl rfl, fun lead => ?_⟩
      have noSlash : ∀ c ∈ dropIdleParts rest.reverse, decide (c ≠ '/') = true := by
        intro c member
        have other : c ≠ '/' := by
          rintro rfl
          exact slash member
        exact decide_eq_true other
      rw [first, afterSlash, List.dropWhile_append_of_pos noSlash]
      simpa using dropIdleParts_name isName ('/' :: lead)
  obtain ⟨parent, begins, left⟩ := left
  refine ⟨parent, begins, fun before nonempty => ?_⟩
  have size := leadSize_append_slash nonempty (name ++ '/' :: rest)
  have short := leadSize_le nonempty
  have body := left (before.drop (leadSize ⟨before⟩)).reverse
  have ending : dropIdleParts
      (rest.reverse ++ '/' :: (name.reverse ++ '/' :: (before.drop (leadSize ⟨before⟩)).reverse)) ≠ [] := by
    rw [dropIdleParts_append kept]
    exact List.append_ne_nil_of_left_ne_nil kept _
  have reversed : ((before ++ '/' :: (name ++ '/' :: rest)).drop (leadSize ⟨before⟩)).reverse =
      rest.reverse ++ '/' :: (name.reverse ++ '/' :: (before.drop (leadSize ⟨before⟩)).reverse) := by
    rw [List.drop_append_of_le_length short]
    simp
  obtain ⟨last, found, notRoot⟩ := exists_getLast?_parts nonempty isName rest
  rw [parent?_eq_ite found notRoot, size, reversed, body, if_neg (by simpa using ending),
    List.take_append_of_le_length short, List.reverse_append, List.reverse_reverse,
    List.reverse_cons, List.reverse_reverse, List.append_assoc, List.singleton_append,
    ← List.append_assoc, List.take_append_drop]

/-- What precedes the last dot of a name is not empty and has no slash, but it may be dots. -/
theorem stem_of_isName (isName : IsName name) :
    (splitExtension name).1 ≠ [] ∧ '/' ∉ (splitExtension name).1 := by
  unfold splitExtension
  simp only
  split
  · exact ⟨isName.nonempty, isName.noSlash⟩
  · rename_i cut
    rw [not_or] at cut
    exact ⟨by simpa using cut.2, fun slash => isName.noSlash (List.mem_of_mem_take slash)⟩

example : (splitExtension "...pbo".toList).1 = ['.', '.'] := by decide +kernel

/-- A name can be told from its stem and its extension. -/
theorem splitExtension_injective : Function.Injective splitExtension := by
  have rejoined : Function.LeftInverse
      (fun cut : Text × Option Text => cut.2.elim cut.1 fun extension => cut.1 ++ '.' :: extension)
      splitExtension := by
    intro name
    unfold splitExtension
    simp only
    split
    · rfl
    · rename_i cut
      rw [not_or] at cut
      have whole := List.takeWhile_append_dropWhile (p := fun c => decide (c ≠ '.')) (l := name.reverse)
      cases rest : name.reverse.dropWhile fun c => decide (c ≠ '.') with
      | nil =>
          rw [rest, List.append_nil] at whole
          exact absurd (by rw [whole, List.reverse_reverse]) cut.1
      | cons c before =>
          have point : c = '.' := by
            have first := List.head?_dropWhile_not (fun c => decide (c ≠ '.')) name.reverse
            rw [rest] at first
            simpa using first
          rw [rest, point] at whole
          generalize name.reverse.takeWhile (fun c => decide (c ≠ '.')) = extension at whole ⊢
          obtain rfl : name = before.reverse ++ '.' :: extension.reverse := by
            rw [← List.reverse_inj, ← whole]
            simp
          have size : (before.reverse ++ '.' :: extension.reverse).length - extension.reverse.length - 1 =
              before.reverse.length := by
            simp
            omega
          simp only [Option.elim_some, size, List.take_left]
  exact rejoined.injective

/-- The extension of a name that is cut at a dot is what follows the dot. -/
theorem extension?_of_point {stem extension : Text} (nonempty : stem ≠ []) (noPoint : '.' ∉ extension)
    (noSlash : '/' ∉ stem ++ '.' :: extension) (noUp : extension ≠ []) :
    (Path.mk (stem ++ '.' :: extension)).extension? = some extension := by
  have isName : IsName (stem ++ '.' :: extension) := by
    refine ⟨by simp, noSlash, ?_, ?_⟩
    · intro same
      have length := congrArg List.length same
      have positive := List.length_pos_iff.2 nonempty
      simp at length
      omega
    · intro same
      have length := congrArg List.length same
      have positive := List.length_pos_iff.2 nonempty
      have more := List.length_pos_iff.2 noUp
      simp at length
      omega
  have fileName := fileName?_join ⟨[]⟩ isName
  rw [join, if_neg isName.head?_ne_slash] at fileName
  simp only [List.isEmpty_nil, true_or, if_true, List.nil_append] at fileName
  rw [extension?, fileName]
  have taken : (stem ++ '.' :: extension).reverse.takeWhile (· ≠ '.') = extension.reverse := by
    rw [List.reverse_append, List.reverse_cons, List.append_assoc, List.takeWhile_append_of_pos]
    · simp
    · intro c member
      have other : c ≠ '.' := by
        rintro rfl
        exact noPoint (List.mem_reverse.1 member)
      simpa using other
  rw [Option.bind_some, splitExtension, taken, List.reverse_reverse]
  have before : (stem ++ '.' :: extension).length - extension.length - 1 = stem.length := by
    simp
    omega
  rw [before, List.take_left, if_neg]
  rintro (same | empty)
  · simp at same
    omega
  · exact nonempty (List.isEmpty_iff.1 empty)

end Path

end AddonIndex

/-!
## Parents of paths

The parent of a path is a first part of its text, up to a slash. It may be the
empty path, which leads nowhere.
-/

namespace AddonIndex

namespace Path

variable {path parent base : Path} {name other : Text}

/-- What is dropped from the end of a text ends with a slash, read in reverse, unless all is
dropped. -/
theorem exists_eq_dropIdleParts (reversed : Text) :
    ∃ dropped, reversed = dropped ++ dropIdleParts reversed ∧
      (dropIdleParts reversed = [] ∨ dropped = [] ∨ dropped.getLast? = some '/') := by
  fun_induction dropIdleParts reversed with
  | case1 => exact ⟨[], rfl, .inl rfl⟩
  | case2 rest ih =>
      obtain ⟨dropped, split, last⟩ := ih
      refine ⟨'/' :: dropped, congrArg _ split, last.imp_right ?_⟩
      rintro (rfl | slash)
      · exact .inr rfl
      · exact .inr (by simp [List.getLast?_cons, slash])
  | case3 => exact ⟨['.'], rfl, .inl rfl⟩
  | case4 rest ih =>
      obtain ⟨dropped, split, last⟩ := ih
      refine ⟨'.' :: '/' :: dropped, congrArg (fun rest => '.' :: '/' :: rest) split, last.imp_right ?_⟩
      rintro (rfl | slash)
      · exact .inr rfl
      · exact .inr (by simp [List.getLast?_cons, slash])
  | case5 c rest => exact ⟨[], rfl, .inr (.inl rfl)⟩

/-- What precedes the first slash is dropped with the slash. -/
theorem exists_eq_afterSlash (reversed : Text) :
    afterSlash reversed = [] ∨ ∃ last, reversed = last ++ '/' :: afterSlash reversed := by
  have whole := List.takeWhile_append_dropWhile (p := fun c => decide (c ≠ '/')) (l := reversed)
  unfold afterSlash
  cases rest : reversed.dropWhile fun c => decide (c ≠ '/') with
  | nil => exact .inl rfl
  | cons c rest' =>
      have slash : c = '/' := by
        have first := List.head?_dropWhile_not (fun c => decide (c ≠ '/')) reversed
        rw [rest] at first
        simpa using first
      rw [rest, slash] at whole
      exact .inr ⟨_, whole.symm⟩

/-- The start of a path is the root or a dot before a slash, unless it is no part of its own or all
of the path. -/
theorem take_leadSize_cases (path : Path) :
    path.text.take path.leadSize = [] ∨ path.text.drop path.leadSize = [] ∨
      (∃ rest, path.text = path.text.take path.leadSize ++ '/' :: rest) ∨
      path.text.take path.leadSize = ['/'] ∧ ∃ rest, path.text = '/' :: rest := by
  obtain ⟨text⟩ := path
  unfold leadSize
  split
  · rename_i rest same
    obtain rfl : text = '/' :: rest := same
    exact .inr (.inr (.inr ⟨rfl, rest, rfl⟩))
  · rename_i same
    obtain rfl : text = ['.'] := same
    exact .inr (.inl rfl)
  · rename_i rest same
    obtain rfl : text = '.' :: '/' :: rest := same
    exact .inr (.inr (.inl ⟨rest, rfl⟩))
  · exact .inl rfl

/-- The parent of a path is empty, or a slash follows it in the path, or it is the root. -/
theorem parent?_cases (isParent : path.parent? = some parent) :
    parent.text = [] ∨ (∃ rest, path.text = parent.text ++ '/' :: rest) ∨
      parent.text = ['/'] ∧ ∃ rest, path.text = '/' :: rest := by
  unfold parent? at isParent
  split at isParent
  · cases isParent
  · cases isParent
  · simp only at isParent
    split at isParent
    · cases isParent
      exact .inl rfl
    · rename_i kept
      cases isParent
      obtain ⟨dropped, ending, -⟩ := exists_eq_dropIdleParts (path.text.drop path.leadSize).reverse
      generalize dropIdleParts (path.text.drop path.leadSize).reverse = body at kept ending ⊢
      obtain ⟨idle, before, ends⟩ := exists_eq_dropIdleParts (afterSlash body)
      by_cases none : dropIdleParts (afterSlash body) = []
      · -- Only the start of the path is left.
        rw [none, List.reverse_nil, List.append_nil]
        refine (take_leadSize_cases path).imp_right fun others => others.resolve_left fun all => kept ?_
        rw [all, List.reverse_nil] at ending
        exact List.isEmpty_iff.2 (List.append_eq_nil_iff.1 ending.symm).2
      · have someRest : afterSlash body ≠ [] := by
          intro empty
          rw [empty] at none
          exact none (by rw [dropIdleParts])
        obtain ⟨last, split⟩ := (exists_eq_afterSlash body).resolve_left someRest
        -- A slash follows what is left, perhaps with more that has no meaning.
        obtain ⟨more, slash⟩ : ∃ more, '/' :: idle = more ++ ['/'] := by
          rcases ends.resolve_left none with rfl | slash
          · exact ⟨[], rfl⟩
          · obtain ⟨front, rfl⟩ := List.getLast?_eq_some_iff.1 slash
            exact ⟨'/' :: front, rfl⟩
        generalize dropIdleParts (afterSlash body) = left at before
        have tail : path.text.drop path.leadSize =
            left.reverse ++ '/' :: (more.reverse ++ (last.reverse ++ dropped.reverse)) := by
          rw [← List.reverse_inj, ending, split, before]
          simp only [List.reverse_append, List.reverse_cons, List.reverse_reverse, List.append_assoc]
          rw [← List.cons_append, slash]
          simp
        refine .inr (.inl ⟨more.reverse ++ (last.reverse ++ dropped.reverse), ?_⟩)
        rw [List.append_assoc, ← tail, List.take_append_drop]

/-- What is written in the parent of a path begins what is written in the path. -/
theorem written_parent_prefix (isParent : path.parent? = some parent) (nonempty : parent.text ≠ []) :
    parent.written <+: path.written := by
  obtain ⟨text⟩ := parent
  obtain ⟨whole⟩ := path
  rcases parent?_cases isParent with none | ⟨rest, same⟩ | ⟨root, -⟩
  · exact absurd none nonempty
  · obtain rfl : whole = text ++ '/' :: rest := same
    rw [written_append_slash]
    exact List.prefix_append _ _
  · obtain rfl : text = ['/'] := root
    exact List.nil_prefix

/-- The text of the parent of a path begins the text of the path. -/
theorem text_parent_prefix (isParent : path.parent? = some parent) : parent.text <+: path.text := by
  rcases parent?_cases isParent with none | ⟨rest, same⟩ | ⟨root, rest, same⟩
  · rw [none]
    exact List.nil_prefix
  · exact ⟨'/' :: rest, same.symm⟩
  · exact ⟨rest, by rw [root, same]; rfl⟩

/-! ### Below a path with a file name -/

/-- A path above another one is empty or begins the other one, also as it is written. -/
theorem prefix_of_mem_ancestors {above : Path} (member : above ∈ path.ancestors) :
    above.text = [] ∨ above.text <+: path.text ∧ above.written <+: path.written := by
  induction path using ancestors.induct with
  | case1 path isRoot =>
      rw [ancestors, isRoot] at member
      rw [List.mem_singleton.1 member]
      exact .inr ⟨List.prefix_rfl, List.prefix_rfl⟩
  | case2 path parent isParent ih =>
      rw [ancestors, isParent] at member
      rcases List.mem_cons.1 member with rfl | member
      · exact .inr ⟨List.prefix_rfl, List.prefix_rfl⟩
      rcases ih member with empty | ⟨text, written⟩
      · exact .inl empty
      by_cases nonempty : parent.text = []
      · rw [nonempty] at text
        exact .inl (List.prefix_nil.1 text)
      · have parentText := text_parent_prefix isParent
        have parentWritten := written_parent_prefix isParent nonempty
        exact .inr ⟨text.trans parentText, written.trans parentWritten⟩

/-- The last part of a path that is a name can be put below a directory. -/
theorem isName_of_fileName? (isFileName : path.fileName? = some name) : IsName name := by
  unfold fileName? at isFileName
  split at isFileName
  · rename_i found last
    cases isFileName
    have member := List.mem_of_getLast? last
    unfold parts at member
    simp only at member
    rcases List.mem_append.1 member with start | later
    · split at start
      · cases List.mem_singleton.1 start
      · split at start
        · cases List.mem_singleton.1 start
        · cases start
    · obtain ⟨written, isPart, same⟩ := List.mem_filterMap.1 later
      unfold partOf? at same
      split at same
      · cases same
      · rename_i notIdle
        split at same
        · cases same
        · rename_i notUp
          cases same
          rw [not_or] at notIdle
          refine ⟨notIdle.1, fun slash => ?_, notIdle.2, notUp⟩
          simpa using Text.eq_false_of_mem_split isPart slash
  · cases isFileName

end Path

end AddonIndex
