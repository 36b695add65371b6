import AddonIndex.Path

/-!
# What is written between slashes

A path is followed by what stands between its slashes. Joining a relative text
to a path appends what is written in the one to what is written in the other,
and a name is written as itself.
-/

namespace AddonIndex

namespace Text

theorem consLine_append {lines : List Text} (nonempty : lines ≠ []) (c : Char)
    (more : List Text) : consLine c (lines ++ more) = consLine c lines ++ more := by
  cases lines with
  | nil => exact absurd rfl nonempty
  | cons line lines => rfl

/-- A break separates what precedes it from what follows it. -/
theorem split_append_cons {isBreak : Char → Bool} {c : Char} (breaks : isBreak c = true)
    (before after : Text) :
    split isBreak (before ++ c :: after) = split isBreak before ++ split isBreak after := by
  induction before with
  | nil => simp [split, breaks]
  | cons first before ih =>
      rw [List.cons_append, split, split, ih]
      split
      · rfl
      · rw [consLine_append (split_ne_nil isBreak before)]

/-- A text without breaks is its only part. -/
theorem split_eq_singleton {isBreak : Char → Bool} {text : Text}
    (unbroken : ∀ c ∈ text, isBreak c = false) : split isBreak text = [text] := by
  induction text with
  | nil => rfl
  | cons c text ih =>
      have plain := unbroken c List.mem_cons_self
      have rest := ih fun other member => unbroken other (List.mem_cons_of_mem c member)
      simp [split, plain, rest, consLine]

/-- No part holds a break. -/
theorem eq_false_of_mem_split {isBreak : Char → Bool} {text part : Text} {c : Char}
    (isPart : part ∈ split isBreak text) (member : c ∈ part) : isBreak c = false := by
  induction text generalizing part with
  | nil =>
      obtain rfl := List.mem_singleton.1 isPart
      cases member
  | cons first text ih =>
      rw [split] at isPart
      split at isPart
      · rcases List.mem_cons.1 isPart with rfl | later
        · cases member
        · exact ih later member
      · rename_i plain
        cases lines : split isBreak text with
        | nil => exact absurd lines (split_ne_nil isBreak text)
        | cons line lines' =>
            rw [lines] at isPart ih
            rcases List.mem_cons.1 isPart with rfl | later
            · rcases List.mem_cons.1 member with rfl | inLine
              · simpa using plain
              · exact ih List.mem_cons_self inLine
            · exact ih (List.mem_cons_of_mem line later) member

end Text

namespace Path

/-- A text that names something in a directory. -/
structure IsName (name : Text) : Prop where
  nonempty : name ≠ []
  noSlash : '/' ∉ name
  notHere : name ≠ ['.']
  notUp : name ≠ ['.', '.']

instance (name : Text) : Decidable (IsName name) :=
  decidable_of_iff (name ≠ [] ∧ '/' ∉ name ∧ name ≠ ['.'] ∧ name ≠ ['.', '.'])
    ⟨fun ⟨nonempty, noSlash, notHere, notUp⟩ => ⟨nonempty, noSlash, notHere, notUp⟩,
      fun ⟨nonempty, noSlash, notHere, notUp⟩ => ⟨nonempty, noSlash, notHere, notUp⟩⟩

theorem IsName.head?_ne_slash {name : Text} (isName : IsName name) : name.head? ≠ some '/' := by
  intro slash
  exact isName.noSlash (List.mem_of_mem_head? slash)

@[simp]
theorem written_empty : written ⟨[]⟩ = [] :=
  rfl

theorem written_part {part : Text} (nonempty : part ≠ []) (noSlash : '/' ∉ part) : written ⟨part⟩ = [part] := by
  have unbroken : ∀ c ∈ part, (c == '/') = false := by
    intro c member
    simp only [beq_eq_false_iff_ne]
    rintro rfl
    exact noSlash member
  simp [written, Text.split_eq_singleton unbroken, nonempty]

theorem written_name {name : Text} (isName : IsName name) : written ⟨name⟩ = [name] :=
  written_part isName.nonempty isName.noSlash

theorem written_append_slash (before after : Text) :
    written ⟨before ++ '/' :: after⟩ = written ⟨before⟩ ++ written ⟨after⟩ := by
  simp [written, Text.split_append_cons]

/-- Where nothing is written there are only slashes. -/
theorem eq_slash_of_written {text : Text} (nothing : written ⟨text⟩ = []) : ∀ c ∈ text, c = '/' := by
  induction text with
  | nil => exact List.forall_mem_nil _
  | cons c rest ih =>
      by_cases slash : c = '/'
      · subst slash
        have more := written_append_slash [] rest
        rw [List.nil_append, nothing, written_empty, List.nil_append] at more
        exact List.forall_mem_cons.2 ⟨rfl, ih more.symm⟩
      · obtain ⟨line, lines, split⟩ := List.exists_cons_of_ne_nil (Text.split_ne_nil (· == '/') rest)
        simp [written, Text.split, slash, split, Text.consLine] at nothing

/-- A relative text is written after the path to which it is joined. -/
theorem written_join {base : Path} {below : Text} (relative : below.head? ≠ some '/') :
    (base.join below).written = base.written ++ written ⟨below⟩ := by
  obtain ⟨text⟩ := base
  unfold join
  rw [if_neg relative]
  split
  · rename_i ended
    rcases ended with empty | slash
    · obtain rfl : text = [] := List.isEmpty_iff.1 empty
      simp
    · obtain ⟨front, rfl⟩ := List.getLast?_eq_some_iff.1 slash
      rw [show front ++ ['/'] ++ below = front ++ '/' :: below by simp, written_append_slash,
        written_append_slash]
      simp
  · exact written_append_slash text below

theorem text_prefix_join (base : Path) {below : Text} (relative : below.head? ≠ some '/') :
    base.text <+: (base.join below).text := by
  unfold join
  rw [if_neg relative]
  split
  · exact List.prefix_append _ _
  · exact List.prefix_append _ _

/-- What is written between slashes holds none. -/
theorem part_of_mem_written {path : Path} {part : Text} (member : part ∈ path.written) :
    part ≠ [] ∧ '/' ∉ part := by
  unfold written at member
  rcases List.mem_filter.1 member with ⟨isPart, nonempty⟩
  constructor
  · simpa using nonempty
  · intro slash
    have unbroken := Text.eq_false_of_mem_split isPart slash
    simp at unbroken

theorem isAbsolute_join {base : Path} {below : Text} (relative : below.head? ≠ some '/') :
    (base.join below).isAbsolute = base.isAbsolute := by
  obtain ⟨text⟩ := base
  unfold join
  rw [if_neg relative]
  cases text with
  | nil => simp [isAbsolute, relative]
  | cons first text => split <;> rfl

/-- A path that ends with a name does not end with a slash. -/
theorem getLast?_join_name {base : Path} {name : Text} (isName : IsName name) :
    (base.join name).text.getLast? = name.getLast? := by
  have ends : ∃ last, name.getLast? = some last :=
    Option.ne_none_iff_exists'.1 fun none => isName.nonempty (List.getLast?_eq_none_iff.1 none)
  obtain ⟨last, ends⟩ := ends
  unfold join
  rw [if_neg isName.head?_ne_slash]
  split
  · simp [ends]
  · simp [List.getLast?_cons, ends]

theorem IsName.getLast?_ne_slash {name : Text} (isName : IsName name) : name.getLast? ≠ some '/' :=
  fun slash => isName.noSlash (List.mem_of_getLast? slash)

end Path

end AddonIndex
