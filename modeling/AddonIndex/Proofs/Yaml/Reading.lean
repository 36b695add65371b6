import AddonIndex.Proofs.Yaml.BlockScalar
import AddonIndex.Yaml.Read

/-!
# Reading what was written

A step of reading comes to a value and to another place, of which it is known what text is left there and whether a line
begins. From this the node of a scalar is read step by step, whichever style the scalar is written in: it ends with its
line, or right before the end of it.
-/

namespace AddonIndex.Yaml

variable {c : Char} {text rest later more passed : Text}

/-! ## Styles that keep a text -/

/-- Whether a style keeps a text. -/
def Keeps (style : ScalarStyle) (text : Text) : Prop :=
  match style with
  | .plain => text ≠ [] ∧ (Traits.of text).allowsPlain = true
  | .singleQuoted => (Traits.of text).allowsSingleQuotes = true ∧ '\n' ∉ text
  | .doubleQuoted => True
  | .literal => text ≠ [] ∧ ∀ c ∈ text, isPrintable c = true
  | .folded => False

theorem all_isAllowed_of_isPrintable (printable : ∀ c ∈ text, isPrintable c = true) : text.all isAllowed = true :=
  List.all_eq_true.2 fun c member => isAllowed_of_isPrintable (printable c member)

theorem forall_isPrintable_of_hasSpecial (noSpecial : (Traits.of text).hasSpecial = false) :
    ∀ c ∈ text, isPrintable c = true :=
  fun c member => by simpa using List.any_eq_false.1 noSpecial c member

/-- The style that is chosen for a text keeps it. -/
theorem keeps_chooseStyle (text : Text) : Keeps (chooseStyle text) text := by
  rw [chooseStyle]
  split
  · rename_i hasFeed
    split
    · rename_i allowed
      simp only [Traits.allowsBlock, Bool.and_eq_true, Bool.not_eq_true'] at allowed
      refine ⟨?_, forall_isPrintable_of_hasSpecial allowed.1.1⟩
      rintro rfl
      cases hasFeed
    · trivial
  · rename_i noFeed
    split
    · rename_i allowed
      refine ⟨?_, allowed.1⟩
      rintro rfl
      exact absurd allowed.2 (by decide)
    · split
      · rename_i allowed
        exact ⟨allowed, by simpa using noFeed⟩
      · trivial

/-- What is written for a text is what a document may hold, whatever the text. -/
theorem all_isAllowed_writeAs {style : ScalarStyle} (kept : Keeps style text) :
    (writeAs style text).all isAllowed = true := by
  cases style with
  | plain =>
      obtain ⟨-, allowed⟩ := kept
      simp only [Traits.allowsPlain, Bool.and_eq_true, Bool.not_eq_true'] at allowed
      have printable := forall_isPrintable_of_hasSpecial allowed.1.1.2
      change (text ++ ['\n']).all isAllowed = true
      rw [List.all_append, all_isAllowed_of_isPrintable printable]
      rfl
  | singleQuoted =>
      obtain ⟨allowed, -⟩ := kept
      simp only [Traits.allowsSingleQuotes, Bool.and_eq_true, Bool.not_eq_true'] at allowed
      have printable := forall_isPrintable_of_hasSpecial allowed.1.1
      rw [writeAs, List.all_append, List.all_cons, all_isAllowed_singleQuotedBody printable]
      rfl
  | doubleQuoted =>
      have escaped : (text.flatMap escapeChar).all isAllowed = true := by
        rw [List.all_flatMap, List.all_eq_true]
        exact fun c _ => all_isAllowed_escapeChar c
      rw [writeAs, List.all_append, List.all_cons, escaped]
      rfl
  | literal => exact all_isAllowed_literal kept.2
  | folded => exact kept.elim

/-! ## Places -/

namespace Cursor

variable {cursor : Cursor}

/-- Whether a line begins here, at which keys can stand. -/
structure AtLine (more : Text) (cursor : Cursor) : Prop where
  rest : cursor.rest = more
  column : cursor.column = 0
  keys : cursor.keys = true

/-- Whether a line begins here or behind a line feed. -/
def BeforeLine (more : Text) (cursor : Cursor) : Prop := AtLine more cursor ∨ cursor.rest = '\n' :: more

/-- One more character. -/
theorem advance_cons (isRest : cursor.rest = c :: rest) (count : Nat) :
    cursor.advance (count + 1) =
      (if isBreak c && !isHalfBreak c rest then
        { cursor with rest, index := cursor.index + 1, line := cursor.line + 1, column := 0 }
      else { cursor with rest, index := cursor.index + 1, column := cursor.column + 1 }).advance count := by
  rw [advance, isRest]
  rfl

/-- What is left after some characters. -/
theorem rest_advance (passed : Text) (isRest : cursor.rest = passed ++ later) :
    (cursor.advance passed.length).rest = later := by
  induction passed generalizing cursor with
  | nil => exact isRest
  | cons c passed ih =>
      rw [List.length_cons, advance_cons isRest]
      apply ih
      split <;> rfl

/-- The place some characters later on the same line. -/
def along (cursor : Cursor) (count : Nat) (later : Text) (keys : Bool) : Cursor :=
  ⟨later, cursor.index + count, cursor.line, cursor.column + count, keys⟩

/-- The place behind a word on the same line. -/
theorem advance_word {word : Text} (inLine : ∀ c ∈ word, isBreak c = false) (isRest : cursor.rest = word ++ later) :
    cursor.advance word.length = cursor.along word.length later cursor.keys := by
  induction word generalizing cursor with
  | nil =>
      rw [← show cursor.rest = later from isRest]
      rfl
  | cons c word ih =>
      rcases List.forall_mem_cons.1 inLine with ⟨ordinary, inLineRest⟩
      rw [List.length_cons, advance_cons isRest, ordinary, Bool.false_and, if_neg Bool.false_ne_true,
        ih inLineRest rfl]
      simp only [along, Nat.add_comm, Nat.add_left_comm]

/-- Behind a line break a line begins. -/
theorem column_advance (passed : Text) (breaks : isBreak c = true) (noReturn : c ≠ '\r')
    (isRest : cursor.rest = passed ++ c :: later) : (cursor.advance (passed.length + 1)).column = 0 := by
  induction passed generalizing cursor with
  | nil =>
      have notHalf : isHalfBreak c later = false := by rw [isHalfBreak, beq_false_of_ne noReturn, Bool.false_and]
      rw [List.length_nil, advance_cons isRest, breaks, notHalf]
      rfl
  | cons other passed ih =>
      rw [List.length_cons, advance_cons isRest]
      apply ih
      split <;> rfl

theorem moveTo_eq_advance (passed : Text) (isRest : cursor.rest = passed ++ later) :
    cursor.moveTo later = cursor.advance passed.length := by
  rw [moveTo, isRest, List.length_append, Nat.add_sub_cancel]

theorem rest_moveTo (passed : Text) (isRest : cursor.rest = passed ++ later) :
    (cursor.moveTo later).rest = later := by
  rw [moveTo_eq_advance passed isRest, rest_advance passed isRest]

/-- Behind a text that ends a line a line begins. -/
theorem atLine_moveTo (passed : Text) (breaks : isBreak c = true) (noReturn : c ≠ '\r')
    (isRest : cursor.rest = passed ++ c :: more) : AtLine more { cursor.moveTo more with keys := true } := by
  have isRest' : cursor.rest = (passed ++ [c]) ++ more := by rw [isRest, List.append_assoc]; rfl
  refine ⟨rest_moveTo _ isRest', ?_, rfl⟩
  change (cursor.moveTo more).column = 0
  rw [moveTo_eq_advance _ isRest', List.length_append]
  exact column_advance passed breaks noReturn isRest

theorem skipGapText_eq_self (visible : ∀ c ∈ text.head?, isGap c = false ∧ c ≠ '#') (flow keys : Bool) :
    skipGapText flow keys false text = (text, keys) := by
  cases text with
  | nil => rfl
  | cons c rest =>
      rcases visible c rfl with ⟨noGap, noComment⟩
      simp only [isGap, isBlank, Bool.or_eq_false_iff, beq_eq_false_iff_ne] at noGap
      rw [skipGapText, noGap.2, if_neg Bool.false_ne_true, if_neg Bool.false_ne_true, if_neg noComment,
        if_neg (by simp [noGap.1.1, noGap.1.2])]

theorem moveTo_rest (cursor : Cursor) : cursor.moveTo cursor.rest = cursor := by
  rw [moveTo, Nat.sub_self]
  rfl

theorem skipGaps_eq_self (visible : ∀ c ∈ cursor.rest.head?, isGap c = false ∧ c ≠ '#') (flow : Bool) :
    cursor.skipGaps flow = cursor := by
  rw [skipGaps, skipGapText_eq_self visible]
  change { cursor.moveTo cursor.rest with keys := cursor.keys } = cursor
  rw [moveTo_rest]

/-- The next line begins where the next gaps end. -/
theorem atLine_skipGaps (begins : BeginsLine more) (before : BeforeLine more cursor) :
    AtLine more (cursor.skipGaps false) := by
  have visible : ∀ c ∈ more.head?, isGap c = false ∧ c ≠ '#' := fun c first =>
    ⟨(begins c first).1, (begins c first).2.1⟩
  rcases before with atLine | isRest
  · rw [skipGaps_eq_self (by rwa [atLine.rest])]
    exact atLine
  · have isText : skipGapText false cursor.keys false cursor.rest = (more, true) := by
      rw [isRest, skipGapText, if_pos (by decide), Bool.not_false, Bool.or_true, skipGapText_eq_self visible]
    rw [skipGaps, isText]
    exact atLine_moveTo [] rfl (by decide) isRest

/-- A space before a visible character is a gap. -/
theorem skipGaps_space (visible : ∀ c ∈ text.head?, isGap c = false ∧ c ≠ '#') (isRest : cursor.rest = ' ' :: text)
    (flow : Bool) :
    cursor.skipGaps flow = cursor.along 1 text cursor.keys := by
  have isText : skipGapText flow cursor.keys false cursor.rest = (text, cursor.keys) := by
    rw [isRest, skipGapText, if_neg (by decide), if_neg (by decide), if_neg (by decide), if_pos (.inl rfl),
      skipGapText_eq_self visible]
  rw [skipGaps, isText]
  change { cursor.moveTo text with keys := cursor.keys } = _
  rw [moveTo_eq_advance [' '] isRest, advance_word (List.forall_mem_singleton.2 rfl) isRest]
  rfl

theorem skipBlanks_eq_self (visible : ∀ c ∈ cursor.rest.head?, isBlank c = false) : cursor.skipBlanks = cursor := by
  have none : cursor.rest.dropWhile isBlank = cursor.rest := by
    cases isRest : cursor.rest with
    | nil => rfl
    | cons c rest =>
        rw [isRest] at visible
        rw [List.dropWhile_cons_of_neg (by rw [visible c rfl]; exact Bool.false_ne_true)]
  rw [skipBlanks, none, moveTo_rest]

theorem BeforeLine.skipBlanks (begins : BeginsLine more) (before : BeforeLine more cursor) :
    BeforeLine more cursor.skipBlanks := by
  rw [skipBlanks_eq_self]
  · exact before
  · rcases before with atLine | isRest
    · rw [atLine.rest]
      exact fun c first => (Bool.or_eq_false_iff.1 (begins c first).1).1
    · rw [isRest]
      rintro _ ⟨⟩
      rfl

end Cursor

/-! ## Steps of reading -/

/-- Whether a step of reading comes to a value and to a place with some property. -/
def Reads {α : Type} (reading : Reading α) (reader : Reader) (value : α) (arrives : Cursor → Prop) : Prop :=
  ∃ after, reading reader = some (value, after) ∧ arrives after.toCursor

namespace Reading

open Cursor

variable {α β : Type} {reader : Reader} {value : α} {last : β} {next : α → Reading β}
variable {between arrives : Cursor → Prop}

theorem reads_pure (holds : arrives reader.toCursor) : Reads (pure value) reader value arrives :=
  ⟨reader, rfl, holds⟩

theorem reads_bind {reading : Reading α} (first : Reads reading reader value between)
    (goesOn : ∀ after, between after.toCursor → Reads (next value) after last arrives) :
    Reads (reading >>= next) reader last arrives := by
  rcases first with ⟨after, isFirst, holds⟩
  rcases goesOn after holds with ⟨final, isLast, arrived⟩
  refine ⟨final, ?_, arrived⟩
  change (reading reader).bind (fun (value, after) => next value after) = _
  rw [isFirst]
  exact isLast

/-- A step that only looks. -/
theorem reads_look {reading : Reading α} (isValue : reading reader = some (value, reader))
    (goesOn : Reads (next value) reader last arrives) : Reads (reading >>= next) reader last arrives := by
  rcases goesOn with ⟨final, isLast, arrived⟩
  refine ⟨final, ?_, arrived⟩
  change (reading reader).bind (fun (value, after) => next value after) = _
  rw [isValue]
  exact isLast

theorem reads_get {next : Reader → Reading β} (goesOn : Reads (next reader) reader last arrives) :
    Reads (get >>= next) reader last arrives :=
  goesOn

theorem reads_rest {next : Text → Reading β} (isRest : reader.rest = text)
    (goesOn : Reads (next text) reader last arrives) : Reads (Reading.rest >>= next) reader last arrives := by
  rw [← isRest] at goesOn
  exact goesOn

theorem reads_move {change : Cursor → Cursor} (holds : between (change reader.toCursor)) :
    Reads (move change) reader () between :=
  ⟨_, rfl, holds⟩

theorem reads_modify {change : Reader → Reader} (holds : arrives (change reader).toCursor) :
    Reads (modify change) reader () arrives :=
  ⟨_, rfl, holds⟩

theorem reads_require {condition : Bool} {next : Unit → Reading β} (satisfied : condition = true)
    (goesOn : Reads (next ()) reader last arrives) : Reads (require condition >>= next) reader last arrives := by
  rw [require, if_pos satisfied]
  exact goesOn

theorem reads_take {keys : Bool} {read : Text → Option (α × Text)} (isRead : read reader.rest = some (value, later))
    (holds : arrives { reader.moveTo later with keys }) : Reads (take keys read) reader value arrives := by
  rw [take]
  refine reads_rest rfl ?_
  rw [isRead]
  exact ⟨_, rfl, holds⟩

/-- Pass over the sign that a text begins with. -/
theorem reads_skipSign {keys : Bool} (inLine : isBreak c = false) (isRest : reader.rest = c :: rest) :
    Reads (skipSign keys) reader () (· = reader.along 1 rest keys) := by
  refine reads_move ?_
  have isPlace : reader.toCursor.advance [c].length = reader.along [c].length rest reader.keys :=
    advance_word (by simpa using inLine) isRest
  rw [List.length_singleton] at isPlace
  rw [isPlace]
  rfl

/-- What ends a line is read up to the next one. -/
theorem reads_take_line {read : Text → Option (α × Text)} {written : Text} (breaks : isBreak c = true)
    (noReturn : c ≠ '\r') (isRest : reader.rest = written ++ c :: more)
    (isRead : read (written ++ c :: more) = some (value, more)) :
    Reads (take true read) reader value (BeforeLine more) :=
  reads_take (by rw [isRest, isRead]) (.inl (atLine_moveTo written breaks noReturn isRest))

/-- Pass over the space before a node. -/
theorem reads_space (visible : ∀ c ∈ text.head?, isGap c = false ∧ c ≠ '#') (isRest : reader.rest = ' ' :: text) :
    Reads (move (·.skipGaps false)) reader () (· = reader.along 1 text reader.keys) :=
  reads_move (skipGaps_space visible isRest false)

/-! ## Scalars -/

/-- What stands in quotes is read up to the end of its line. -/
theorem reads_quoted {read : Text → Option (Text × Text)} {written : Text}
    (isRest : reader.rest = written ++ '\n' :: more)
    (isRead : read (written ++ '\n' :: more) = some (text, '\n' :: more)) :
    Reads (take false read) reader text (BeforeLine more) :=
  reads_take (by rw [isRest, isRead]) (.inr (rest_moveTo written isRest))

theorem reads_singleQuoted (kept : Keeps .singleQuoted text)
    (isWritten : reader.rest = writeAs .singleQuoted text ++ more) :
    Reads (scalar false 1) reader (.scalar .singleQuoted none text) (BeforeLine more) := by
  rcases kept with ⟨allowed, noFeed⟩
  simp only [Traits.allowsSingleQuotes, Bool.and_eq_true, Bool.not_eq_true'] at allowed
  rcases allowed with ⟨⟨noSpecial, noneAfter⟩, noneBefore⟩
  have isRest : reader.rest = '\'' :: ((singleQuotedBody false text ++ ['\'']) ++ '\n' :: more) := by
    rw [isWritten, writeAs, List.append_assoc, List.append_assoc]
    rfl
  have printable : ∀ c ∈ text, isPrintable c = true ∧ c ≠ '\n' := by
    intro c member
    refine ⟨forall_isPrintable_of_hasSpecial noSpecial c member, ?_⟩
    rintro rfl
    exact noFeed member
  rw [scalar]
  refine reads_rest isRest ?_
  refine reads_bind (reads_skipSign rfl isRest) fun inside isInside => ?_
  refine reads_bind (reads_quoted (by rw [isInside]; rfl) ?_) fun _ before => reads_pure before
  rw [List.append_assoc]
  have atStart : Follows none .nothing := .word nofun
  exact readSingleQuoted_body atStart printable noneAfter noneBefore (by simp)

theorem reads_doubleQuoted (isWritten : reader.rest = writeAs .doubleQuoted text ++ more) :
    Reads (scalar false 1) reader (.scalar .doubleQuoted none text) (BeforeLine more) := by
  have isRest : reader.rest = '"' :: ((text.flatMap escapeChar ++ ['"']) ++ '\n' :: more) := by
    rw [isWritten, writeAs, List.append_assoc, List.append_assoc]
    rfl
  rw [scalar]
  refine reads_rest isRest ?_
  refine reads_bind (reads_skipSign rfl isRest) fun inside isInside => ?_
  refine reads_bind (reads_quoted (by rw [isInside]; rfl) ?_) fun _ before => reads_pure before
  rw [List.append_assoc]
  exact readDoubleQuoted_body rfl

/-- What a text is like that is written plainly. -/
structure IsPlain (c : Char) (rest : Text) : Prop where
  visible : isGap c = false
  noMark : leadingMarks.contains c = false
  noSign : (c == '-' || c == '?') = true → startsGap rest = false
  noInnerMark : hasInnerMark true (c :: rest) = false
  printable : ∀ d ∈ c :: rest, isPrintable d = true ∧ isBreak d = false
  visibleEnd : (c :: rest).getLast? ≠ some ' '

theorem isPlain_of_allowsPlain (allowed : (Traits.of (c :: rest)).allowsPlain = true) : IsPlain c rest := by
  simp only [Traits.allowsPlain, Traits.of, containsMark, Bool.and_eq_true, Bool.not_eq_true',
    Bool.or_eq_false_iff, List.head?_cons] at allowed
  rcases allowed with ⟨⟨⟨⟨⟨-, noMark, noSign⟩, noInnerMark⟩, noSpecial⟩, noBreak⟩, ⟨noSpace, inLine⟩, visibleEnd⟩
  have printable : ∀ d ∈ c :: rest, isPrintable d = true ∧ isBreak d = false := fun d member =>
    ⟨by simpa using List.any_eq_false.1 noSpecial d member, by simpa using List.any_eq_false.1 noBreak d member⟩
  have notBlank : isBlank c = false := by
    cases blank : isBlank c with
    | false => rfl
    | true =>
        rw [eq_space_of_isBlank (printable c List.mem_cons_self).1 blank] at noSpace
        cases noSpace
  refine ⟨by rw [isGap, notBlank, inLine]; rfl, noMark, fun sign => ?_, noInnerMark, printable, fun space => ?_⟩
  · rwa [sign, Bool.true_and] at noSign
  · rw [space] at visibleEnd
    cases visibleEnd

theorem ne_of_leadingMarks {mark : Char} (noMark : leadingMarks.contains c = false)
    (isMark : leadingMarks.contains mark = true) : c ≠ mark := by
  rintro rfl
  exact absurd (isMark.symm.trans noMark) (by decide)

/-- A plain scalar can begin with the first character of such a text. -/
theorem IsPlain.startsPlain (plain : IsPlain c rest) (more : Text) :
    scalar.startsPlain false (c :: (rest ++ '\n' :: more)) = true := by
  have noMark := plain.noInnerMark
  simp only [hasInnerMark, Bool.or_eq_false_iff] at noMark
  rw [scalar.startsPlain, startsGap_append_lineFeed]
  split
  · rename_i isSign
    rw [plain.noSign (by rw [isSign]; rfl)]
    rfl
  · rename_i notDash
    split
    · rename_i isSign
      rcases Bool.or_eq_true_iff.1 isSign with isQuestion | isColon
      · rw [plain.noSign (by rw [isQuestion, Bool.or_true])]
        rfl
      · have noGap := noMark.1.1
        rw [isColon, Bool.true_and] at noGap
        rw [noGap]
        rfl
    · rw [plain.visible, plain.noMark]
      rfl

/-- A plain scalar, up to where it ends. -/
theorem reads_scalar {margin : Nat} {keys : Bool} (isRest : reader.rest = c :: rest)
    (noMark : leadingMarks.contains c = false) (starts : scalar.startsPlain false (c :: rest) = true)
    (isRead : readPlain false margin .nothing (c :: rest) = some (text, later, keys))
    (holds : arrives { reader.moveTo later with keys }) :
    Reads (scalar false margin) reader (.scalar .plain none text) arrives := by
  rw [scalar]
  refine reads_rest isRest ?_
  split
  · exact absurd (List.cons.inj ‹_›).1 (ne_of_leadingMarks noMark (by decide))
  · exact absurd (List.cons.inj ‹_›).1 (ne_of_leadingMarks noMark (by decide))
  · exact absurd (List.cons.inj ‹_›).1 (ne_of_leadingMarks noMark (by decide))
  · refine reads_require starts ?_
    rw [isRead]
    exact reads_bind (reads_move holds) fun _ holds => reads_pure holds

theorem reads_plain (kept : Keeps .plain text) (begins : BeginsLine more)
    (isWritten : reader.rest = writeAs .plain text ++ more) :
    Reads (scalar false 1) reader (.scalar .plain none text) (BeforeLine more) := by
  obtain ⟨c, rest, rfl⟩ := List.exists_cons_of_ne_nil kept.1
  have plain := isPlain_of_allowsPlain kept.2
  have isRest : reader.rest = (c :: rest) ++ '\n' :: more :=
    isWritten.trans (List.append_assoc (c :: rest) ['\n'] more)
  have isRead : readPlain false 1 .nothing (c :: rest ++ '\n' :: more) = some (c :: rest, more, true) :=
    readPlain_line begins rfl plain.printable (hasInnerMark_of_true plain.noInnerMark _) plain.visibleEnd nofun
  exact reads_scalar isRest plain.noMark (plain.startsPlain more) isRead
    (.inl (atLine_moveTo (c :: rest) rfl (by decide) isRest))

/-! ## Nodes after a key -/

/-- Whether a text begins a node that is told neither by its first line nor by a property. -/
structure BeginsNode (text : Text) : Prop where
  nonempty : text ≠ []
  visible : ∀ c ∈ text.head?, isGap c = false ∧ c ≠ '#'
  noItem : startsSign '-' text = false
  noKey : startsSign '?' text = false
  noProperty : startsProperty text = false

/-- Where no property begins there are none. -/
theorem properties_eq_none (none : startsProperty reader.rest = false) :
    properties false reader = some ({}, reader) := by
  rw [properties]
  change (if (!startsProperty reader.rest) = true then pure {} else _ : Reading Properties) reader = _
  rw [none]
  rfl

/-- A node is no key if no colon follows it. -/
theorem closesKey_eq_false {start : Cursor} (begins : BeginsLine more) (before : BeforeLine more reader.toCursor) :
    closesKey false start reader = some (false, reader) := by
  have noColon : startsSign ':' reader.rest = false := by
    rcases before with atLine | isRest
    · rw [atLine.rest]
      cases more with
      | nil => rfl
      | cons c more => rw [startsSign, beq_false_of_ne (begins c rfl).2.2, Bool.false_and]
    · rw [isRest]
      rfl
  rw [closesKey]
  change (if (!startsSign ':' reader.rest) = true then pure false else _ : Reading Bool) reader = _
  rw [noColon]
  rfl

/-- A node without properties is read as it is. -/
theorem attach_eq {node : Node} (itself : ({} : Properties).apply node = node) :
    attach {} node reader = some (node, reader) := by
  rw [attach, itself]
  rfl

theorem reads_attach {node : Node} (itself : ({} : Properties).apply node = node) (holds : arrives reader.toCursor) :
    Reads (attach {} node) reader node arrives :=
  ⟨reader, attach_eq itself, holds⟩

/-- A node within a line that is no key. -/
theorem reads_keyNode {node : Node} {fuel : Nat} (begins : BeginsLine more)
    (isInline : Reads (inlineNode false 1 fuel) reader node (BeforeLine more))
    (itself : ({} : Properties).apply node = node) :
    Reads (keyNode 1 {} fuel) reader node (BeforeLine more) := by
  rw [keyNode]
  refine reads_rest rfl ?_
  refine reads_require rfl ?_
  refine reads_bind isInline fun after before => ?_
  refine reads_look (attach_eq itself) ?_
  exact reads_bind (reads_move (before.skipBlanks begins)) fun after before => reads_pure before

/-- What is read where a node begins in the line of its key: a block by its sign, or a node within the line. -/
theorem reads_blockNode {node : Node} {compact : Bool} {fuel : Nat} (isRest : reader.rest = ' ' :: text)
    (column : 0 < reader.column) (beginsNode : BeginsNode text) (begins : BeginsLine more)
    (isNode : ∀ place : Reader, place.rest = text →
      (text.head? = some '|' ∧ Reads (blockNode.blockScalar 1 {} {} .literal) place node (BeforeLine more)) ∨
      (text.head? ≠ some '|' ∧ text.head? ≠ some '>' ∧ Reads (inlineNode false 1 fuel) place node (BeforeLine more)))
    (itself : ({} : Properties).apply node = node) :
    Reads (blockNode 1 compact {} (fuel + 1)) reader node (BeforeLine more) := by
  rw [blockNode]
  refine reads_bind (reads_space beginsNode.visible isRest) fun place isPlace => ?_
  refine reads_get ?_
  have isText : place.rest = text := by rw [isPlace]; rfl
  have isColumn : place.column = reader.column + 1 := by rw [isPlace]; rfl
  have notFinal : place.isFinal = false := by
    rw [Cursor.isFinal, isText, isColumn, List.isEmpty_eq_false_iff.2 beginsNode.nonempty]
    rfl
  dsimp only
  -- Neither an item nor a key nor a property begins here, so it is the first character that decides.
  rw [notFinal, if_neg Bool.false_ne_true, if_neg (by omega), isText, beginsNode.noItem, if_neg Bool.false_ne_true,
    beginsNode.noKey, if_neg Bool.false_ne_true]
  refine reads_look (properties_eq_none (by rw [isText, beginsNode.noProperty])) ?_
  refine reads_rest isText ?_
  rcases isNode place isText with ⟨isBlock, isScalar⟩ | ⟨noLiteral, noFolded, isInline⟩
  · obtain ⟨written, rfl⟩ := List.head?_eq_some_iff.1 isBlock
    exact isScalar
  · split
    · exact absurd rfl noLiteral
    · exact absurd rfl noFolded
    · rw [if_neg (fun properties => absurd properties.1 (by decide))]
      refine reads_bind (reads_keyNode begins isInline itself) fun after before => ?_
      refine reads_look (closesKey_eq_false begins before) ?_
      rw [if_neg Bool.false_ne_true]
      exact reads_require rfl (reads_attach itself before)

/-- A scalar is a node within a line. -/
theorem reads_inlineNode {node : Node} {margin fuel : Nat}
    (noBracket : reader.rest.head? ≠ some '[') (noBrace : reader.rest.head? ≠ some '\x7b')
    (isScalar : Reads (scalar false margin) reader node arrives) :
    Reads (inlineNode false margin (fuel + 1)) reader node arrives := by
  rw [inlineNode]
  refine reads_rest rfl ?_
  split
  · rename_i isRest
    exact absurd (by rw [isRest]; rfl) noBracket
  · rename_i isRest
    exact absurd (by rw [isRest]; rfl) noBrace
  · exact isScalar

theorem reads_block (kept : Keeps .literal text) (begins : BeginsLine more)
    (isWritten : reader.rest = writeAs .literal text ++ more) :
    Reads (blockNode.blockScalar 1 {} {} .literal) reader (.scalar .literal none text) (BeforeLine more) := by
  rcases readBlock_writeAs begins kept.1 kept.2 with ⟨written, c, isLiteral, breaks, noReturn, isRead⟩
  have isRest : reader.rest = '|' :: (written ++ c :: more) := by
    rw [isWritten, isLiteral, List.cons_append, List.append_assoc, List.singleton_append]
  rw [blockNode.blockScalar]
  refine reads_bind (reads_skipSign rfl isRest) fun place isPlace => ?_
  refine reads_bind (reads_take_line breaks noReturn (by rw [isPlace]; rfl) isRead) fun after before => ?_
  exact reads_attach rfl before

/-! ## Scalars after a key -/

theorem IsPlain.beginsNode (plain : IsPlain c rest) (more : Text) : BeginsNode (c :: (rest ++ '\n' :: more)) where
  nonempty := List.cons_ne_nil _ _
  visible := by
    rintro _ ⟨⟩
    exact ⟨plain.visible, ne_of_leadingMarks plain.noMark (by decide)⟩
  noItem := by
    rw [startsSign, startsGap_append_lineFeed, Bool.and_eq_false_imp]
    exact fun isSign => plain.noSign (by rw [isSign]; rfl)
  noKey := by
    rw [startsSign, startsGap_append_lineFeed, Bool.and_eq_false_imp]
    exact fun isSign => plain.noSign (by rw [isSign, Bool.or_true])
  noProperty := by
    have noAnchor : c ≠ '&' := ne_of_leadingMarks plain.noMark (by decide)
    have noTag : c ≠ '!' := ne_of_leadingMarks plain.noMark (by decide)
    simp [startsProperty, noAnchor, noTag]

/-- A node begins with a sign that is neither a gap nor the sign of a comment, an item, a key or a property. -/
theorem beginsNode_of_sign (isSign : c ∈ ['\'', '"', '|', '[']) (rest : Text) : BeginsNode (c :: rest) := by
  simp only [List.mem_cons, List.not_mem_nil, or_false] at isSign
  rcases isSign with rfl | rfl | rfl | rfl <;>
    exact ⟨List.cons_ne_nil _ _, by rintro _ ⟨⟩; decide, rfl, rfl, rfl⟩

/-- A scalar behind a space reads back, if its style keeps the text. -/
theorem reads_writeAs {style : ScalarStyle} {compact : Bool} {fuel : Nat} (kept : Keeps style text)
    (isRest : reader.rest = ' ' :: (writeAs style text ++ more)) (column : 0 < reader.column)
    (begins : BeginsLine more) (enough : 2 ≤ fuel) :
    Reads (blockNode 1 compact {} fuel) reader (.scalar style none text) (BeforeLine more) := by
  obtain ⟨fuel, rfl⟩ := Nat.exists_eq_add_of_le' enough
  cases style with
  | plain =>
      obtain ⟨c, rest, rfl⟩ := List.exists_cons_of_ne_nil kept.1
      have plain := isPlain_of_allowsPlain kept.2
      have isText : writeAs .plain (c :: rest) ++ more = c :: (rest ++ '\n' :: more) :=
        List.append_assoc (c :: rest) ['\n'] more
      have isFirst {mark : Char} (isMark : leadingMarks.contains mark = true) :
          (c :: (rest ++ '\n' :: more)).head? ≠ some mark := fun same =>
        ne_of_leadingMarks plain.noMark isMark (Option.some.inj same)
      refine reads_blockNode isRest column (isText ▸ plain.beginsNode more) begins (fun place isPlace => .inr ?_) rfl
      have isScalar := reads_plain kept begins isPlace
      rw [isText] at isPlace ⊢
      refine ⟨isFirst (by decide), isFirst (by decide), reads_inlineNode ?_ ?_ isScalar⟩
      · rw [isPlace]
        exact isFirst (by decide)
      · rw [isPlace]
        exact isFirst (by decide)
  | singleQuoted =>
      refine reads_blockNode isRest column (beginsNode_of_sign (by decide) _) begins
        (fun place isPlace => .inr ⟨nofun, nofun, reads_inlineNode ?_ ?_ (reads_singleQuoted kept isPlace)⟩) rfl
      · rw [isPlace]
        exact nofun
      · rw [isPlace]
        exact nofun
  | doubleQuoted =>
      refine reads_blockNode isRest column (beginsNode_of_sign (by decide) _) begins
        (fun place isPlace => .inr ⟨nofun, nofun, reads_inlineNode ?_ ?_ (reads_doubleQuoted isPlace)⟩) rfl
      · rw [isPlace]
        exact nofun
      · rw [isPlace]
        exact nofun
  | literal =>
      refine reads_blockNode isRest column (beginsNode_of_sign (by decide) _) begins
        (fun place isPlace => .inl ⟨rfl, reads_block kept begins isPlace⟩) rfl
  | folded => exact kept.elim

end Reading

end AddonIndex.Yaml
