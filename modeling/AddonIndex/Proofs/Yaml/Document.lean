import AddonIndex.Proofs.Yaml.Reading

/-!
# Documents read back

A document of fields is read as the mapping of the fields: each name up to its colon, the value that was written behind
it, and then the next line. A list is written on the line of its name if it is empty, otherwise with a line for each
item. Each item and each field takes more than one character, so the length of the document is fuel enough.
-/

namespace AddonIndex.Yaml

variable {c : Char} {text rest more : Text}

/-! ## Lists -/

/-- The lines of the items of a list. -/
def writeItems (items : List Text) : Text := items.flatMap fun text => "- ".toList ++ writeText text

/-- The nodes of the items of a list. -/
def itemNodes (items : List Text) : List Node := items.map fun text => .scalar (chooseStyle text) none text

theorem writeItems_cons (text : Text) (items : List Text) :
    writeItems (text :: items) = ('-' :: ' ' :: writeText text) ++ writeItems items :=
  rfl

theorem beginsLine_nil : BeginsLine [] := by
  rintro _ ⟨⟩

theorem beginsLine_writeItems (items : List Text) (begins : BeginsLine more) :
    BeginsLine (writeItems items ++ more) := by
  cases items with
  | nil => exact begins
  | cons text items =>
      rintro _ ⟨⟩
      decide

theorem all_isAllowed_writeItems (items : List Text) : (writeItems items).all isAllowed = true := by
  rw [writeItems, List.all_flatMap, List.all_eq_true]
  intro text _
  rw [List.all_append, writeText, all_isAllowed_writeAs (keeps_chooseStyle text)]
  rfl

/-! ## Fields -/

/-- What is written as the value of a field. -/
inductive Content
  | scalar (style : ScalarStyle) (text : Text)
  | texts (items : List Text)

namespace Content

/-- The value behind the colon, up to and including the end of its last line. -/
def write : Content → Text
  | scalar style text => ' ' :: writeAs style text
  | texts items => writeTexts items

/-- The node that the value is read as. -/
def node : Content → Node
  | scalar style text => .scalar style none text
  | texts items => .sequence (itemNodes items)

/-- Whether the value is written so that it reads back. -/
def IsKept : Content → Prop
  | scalar style text => Keeps style text
  | texts _ => True

end Content

theorem Content.all_isAllowed_write {content : Content} (kept : content.IsKept) :
    content.write.all isAllowed = true := by
  cases content with
  | scalar style text => exact all_isAllowed_writeAs kept
  | texts items =>
      cases items with
      | nil => rfl
      | cons text items => exact all_isAllowed_writeItems (text :: items)

/-- Whether a text is the name of a field: small letters and dashes, of which the first is a letter. -/
structure IsFieldName (name : Text) : Prop where
  beginsLower : name.head?.any Char.isLower = true
  ordinary : ∀ c ∈ name, c.isLower = true ∨ c = '-'
  short : name.length ≤ 1024

instance (name : Text) : Decidable (IsFieldName name) :=
  decidable_of_iff
    (name.head?.any Char.isLower = true ∧ name.all (fun c => c.isLower || c = '-') = true ∧ name.length ≤ 1024)
    ⟨fun ⟨beginsLower, ordinary, short⟩ => ⟨beginsLower, by simpa using ordinary, short⟩,
      fun ⟨beginsLower, ordinary, short⟩ => ⟨beginsLower, by simpa using ordinary, short⟩⟩

theorem IsFieldName.begins {name : Text} (isName : IsFieldName name) :
    ∃ c rest, name = c :: rest ∧ c.isLower = true := by
  cases name with
  | nil => cases isName.beginsLower
  | cons c rest => exact ⟨c, rest, rfl, isName.beginsLower⟩

/-- The fields of a record, each on lines of its own. -/
def writeFields (fields : List (Text × Content)) : Text :=
  fields.flatMap fun field => field.1 ++ ':' :: field.2.write

/-- The entries that fields are read as. -/
def fieldEntries (fields : List (Text × Content)) : List (Node × Node) :=
  fields.map fun field => (.scalar .plain none field.1, field.2.node)

/-- Whether fields are written so that they read back. -/
def AreKept (fields : List (Text × Content)) : Prop := ∀ field ∈ fields, IsFieldName field.1 ∧ field.2.IsKept

theorem areKept_cons {name : Text} {content : Content} {fields : List (Text × Content)} :
    AreKept ((name, content) :: fields) ↔ (IsFieldName name ∧ content.IsKept) ∧ AreKept fields :=
  List.forall_mem_cons

theorem startsGap_write (content : Content) (more : Text) : startsGap (content.write ++ more) = true := by
  cases content with
  | scalar style text => rfl
  | texts items => cases items <;> rfl

theorem ne_of_isLower {mark : Char} (lower : c.isLower = true) (noLetter : mark.isLower = false) : c ≠ mark := by
  rintro rfl
  rw [lower] at noLetter
  cases noLetter

theorem beq_of_isLower {mark : Char} (lower : c.isLower = true) (noLetter : mark.isLower = false) :
    (c == mark) = false :=
  beq_false_of_ne (ne_of_isLower lower noLetter)

theorem head?_of_isLower {mark : Char} (lower : c.isLower = true) (noLetter : mark.isLower = false) (rest : Text) :
    (c :: rest).head? ≠ some mark := fun same => ne_of_isLower lower noLetter (Option.some.inj same)

theorem isGap_of_isLower (lower : c.isLower = true) : isGap c = false := by
  have noLetter : [' ', '\t', '\n', '\r', '\x85', lineSeparator, paragraphSeparator].all (!·.isLower) = true := by
    decide
  simp only [List.all_cons, List.all_nil, Bool.and_eq_true, Bool.not_eq_true'] at noLetter
  rcases noLetter with ⟨space, tab, feed, carriage, nextLine, line, paragraph, -⟩
  simp only [isGap, isBlank, isBreak, beq_of_isLower lower space, beq_of_isLower lower tab,
    beq_of_isLower lower feed, beq_of_isLower lower carriage, beq_of_isLower lower nextLine,
    beq_of_isLower lower line, beq_of_isLower lower paragraph, Bool.or_false]

theorem leadingMarks_of_isLower (lower : c.isLower = true) : leadingMarks.contains c = false := by
  have noLetter : leadingMarks.all (!·.isLower) = true := by decide
  rw [List.contains_eq_mem, decide_eq_false_iff_not]
  intro isMark
  have notLower := List.all_eq_true.1 noLetter c isMark
  rw [lower] at notLower
  cases notLower

theorem writeFields_cons (name : Text) (content : Content) (fields : List (Text × Content)) :
    writeFields ((name, content) :: fields) = name ++ ':' :: (content.write ++ writeFields fields) := by
  rw [writeFields, List.flatMap_cons, List.append_assoc]
  rfl

/-- Each field is longer than its value by more than one character. -/
theorem length_writeFields_cons {name : Text} (isName : IsFieldName name) (content : Content)
    (fields : List (Text × Content)) :
    content.write.length + (writeFields fields).length + 2 ≤ (writeFields ((name, content) :: fields)).length := by
  obtain ⟨c, rest, rfl, -⟩ := isName.begins
  rw [writeFields_cons, List.length_append, List.length_cons, List.length_cons, List.length_append]
  omega

theorem startsSign_of_isLower {sign : Char} (lower : c.isLower = true) (noLetter : sign.isLower = false)
    (rest : Text) : startsSign sign (c :: rest) = false := by
  rw [startsSign, beq_of_isLower lower noLetter, Bool.false_and]

/-- What the line of a field begins like. -/
theorem beginsLine_writeFields {fields : List (Text × Content)} (kept : AreKept fields) :
    BeginsLine (writeFields fields) ∧ startsSign '-' (writeFields fields) = false := by
  cases fields with
  | nil => exact ⟨beginsLine_nil, rfl⟩
  | cons field fields =>
      obtain ⟨c, rest, isName, lower⟩ := (kept field List.mem_cons_self).1.begins
      rw [writeFields_cons, isName]
      refine ⟨?_, startsSign_of_isLower lower (by decide) _⟩
      rintro _ ⟨⟩
      exact ⟨isGap_of_isLower lower, ne_of_isLower lower (by decide), ne_of_isLower lower (by decide)⟩

theorem exists_isLower_writeFields {fields : List (Text × Content)} (several : fields ≠ []) (kept : AreKept fields) :
    ∃ c rest, writeFields fields = c :: rest ∧ c.isLower = true := by
  obtain ⟨⟨name, content⟩, fields, rfl⟩ := List.exists_cons_of_ne_nil several
  obtain ⟨c, rest, rfl, lower⟩ := (areKept_cons.1 kept).1.1.begins
  exact ⟨c, _, writeFields_cons _ content fields, lower⟩

theorem IsFieldName.all_isAllowed {name : Text} (isName : IsFieldName name) : name.all isAllowed = true := by
  rw [List.all_eq_true]
  intro c member
  rcases isName.ordinary c member with lower | rfl
  · unfold Char.isLower at lower
    simp only [Bool.and_eq_true, decide_eq_true_eq, ge_iff_le, UInt32.le_iff_toNat_le] at lower
    exact isAllowed_of_ascii (Nat.le_trans (by decide) lower.1) (Nat.le_trans lower.2 (by decide))
  · decide

theorem all_isAllowed_writeFields {fields : List (Text × Content)} (kept : AreKept fields) :
    (writeFields fields).all isAllowed = true := by
  rw [writeFields, List.all_flatMap, List.all_eq_true]
  intro field member
  rcases kept field member with ⟨isName, isKept⟩
  rw [List.all_append, isName.all_isAllowed, List.all_cons, Content.all_isAllowed_write isKept]
  rfl

namespace Reading

open Cursor

variable {reader : Reader}

/-! ## Lists after a key -/

theorem isSeparator_item (text : Text) : isSeparator ('-' :: ' ' :: text) = false := by
  cases text <;> rfl

/-- Where the sign of an item stands the document goes on. -/
theorem isFinal_item {cursor : Cursor} (atLine : AtLine ('-' :: ' ' :: text) cursor) : cursor.isFinal = false := by
  rw [Cursor.isFinal, atLine.rest, isSeparator_item]
  exact Bool.and_false _

/-- Items are read one after another, and the next line that is none ends them. -/
theorem reads_items {items : List Text} {done : List Node} {fuel : Nat} (begins : BeginsLine more)
    (noItem : startsSign '-' more = false) (before : BeforeLine (writeItems items ++ more) reader.toCursor)
    (enough : (writeItems items).length + 2 ≤ fuel) :
    Reads (blockItems 0 true done fuel) reader (done ++ itemNodes items) (BeforeLine more) := by
  induction items generalizing done fuel reader with
  | nil =>
      obtain ⟨fuel, rfl⟩ := Nat.exists_eq_add_of_lt (Nat.lt_of_lt_of_le (Nat.succ_pos _) enough)
      rw [Nat.zero_add, blockItems, itemNodes, List.map_nil, List.append_nil]
      refine reads_bind (reads_move (atLine_skipGaps begins before)) fun place atLine => ?_
      refine reads_get ?_
      dsimp only
      split
      · exact reads_pure (.inl atLine)
      · rw [if_neg (fun item => ?_)]
        · exact reads_require (by rw [atLine.column]; rfl) (reads_pure (.inl atLine))
        · rw [atLine.rest, noItem] at item
          cases item.2
  | cons text items ih =>
      obtain ⟨fuel, rfl⟩ := Nat.exists_eq_add_of_lt (Nat.lt_of_lt_of_le (Nat.succ_pos _) enough)
      rw [writeItems_cons, List.append_assoc] at before
      rw [writeItems_cons, List.length_append, List.length_cons, List.length_cons] at enough
      rw [Nat.zero_add, blockItems]
      refine reads_bind (reads_move (atLine_skipGaps ?_ before)) fun place atLine => ?_
      · rintro _ ⟨⟩
        decide
      refine reads_get ?_
      dsimp only
      rw [isFinal_item atLine, atLine.column, if_neg (by decide), if_pos ⟨rfl, by rw [atLine.rest]; rfl⟩]
      refine reads_require atLine.keys ?_
      refine reads_bind (reads_skipSign rfl atLine.rest) fun place isPlace => ?_
      have isItem : Reads (blockNode 1 false {} fuel) place (.scalar (chooseStyle text) none text)
          (BeforeLine (writeItems items ++ more)) :=
        reads_writeAs (keeps_chooseStyle text) (by rw [isPlace]; rfl) (by rw [isPlace]; exact Nat.succ_pos _)
          (beginsLine_writeItems items begins) (by omega)
      refine reads_bind isItem fun after before => ?_
      have isItems := @ih after (done ++ [.scalar (chooseStyle text) none text]) fuel before (by omega)
      rw [List.append_assoc] at isItems
      exact isItems

/-- An empty list on the line of its key. -/
theorem reads_noTexts {fuel : Nat} (isRest : reader.rest = ' ' :: '[' :: ']' :: '\n' :: more)
    (column : 0 < reader.column) (begins : BeginsLine more) (enough : 3 ≤ fuel) :
    Reads (blockNode 1 true {} fuel) reader (.sequence []) (BeforeLine more) := by
  obtain ⟨fuel, rfl⟩ := Nat.exists_eq_add_of_le' enough
  refine reads_blockNode isRest column (beginsNode_of_sign (by decide) _) begins
    (fun place isPlace => .inr ⟨nofun, nofun, ?_⟩) rfl
  rw [inlineNode]
  refine reads_rest isPlace ?_
  refine reads_bind (reads_skipSign rfl isPlace) fun place isPlace => ?_
  have isClosed : place.rest = ']' :: '\n' :: more := by rw [isPlace]; rfl
  have stays : Reads (move (·.skipGaps true)) place () (· = place.toCursor) :=
    reads_move (skipGaps_eq_self (by rw [isClosed]; rintro _ ⟨⟩; decide) true)
  have isNone : Reads (flowItems 1 [] (fuel + 1)) place [] (BeforeLine more) := by
    rw [flowItems]
    refine reads_bind stays fun place same => ?_
    rw [← same] at isClosed
    refine reads_rest isClosed ?_
    rw [if_pos (by rfl)]
    refine reads_bind (reads_skipSign rfl isClosed) fun place isPlace => ?_
    exact reads_pure (.inr (by rw [isPlace]; rfl))
  exact reads_bind isNone fun after before => reads_pure before

/-- A list reads back, on the line of its key or on lines of its own. -/
theorem reads_writeTexts {items : List Text} {fuel : Nat} (isRest : reader.rest = writeTexts items ++ more)
    (column : 0 < reader.column) (begins : BeginsLine more) (noItem : startsSign '-' more = false)
    (enough : (writeTexts items).length + 2 ≤ fuel) :
    Reads (blockNode 1 true {} fuel) reader (.sequence (itemNodes items)) (BeforeLine more) := by
  cases items with
  | nil => exact reads_noTexts isRest column begins (Nat.le_trans (by decide) enough)
  | cons text items =>
      have isWritten : writeTexts (text :: items) = '\n' :: writeItems (text :: items) := rfl
      rw [isWritten] at isRest enough
      obtain ⟨fuel, rfl⟩ := Nat.exists_eq_add_of_le' (Nat.le_trans (Nat.succ_pos _) enough)
      rw [blockNode]
      refine reads_bind (reads_move (atLine_skipGaps (beginsLine_writeItems _ begins) (.inr isRest)))
        fun place atLine => ?_
      refine reads_get ?_
      dsimp only
      rw [isFinal_item atLine, if_neg Bool.false_ne_true, atLine.column, if_pos Nat.one_pos, if_neg (by decide),
        if_pos ⟨rfl, by rw [atLine.rest]; rfl⟩]
      refine reads_require atLine.keys ?_
      have areItems : Reads (blockItems 0 true [] fuel) place (itemNodes (text :: items)) (BeforeLine more) :=
        reads_items begins noItem (.inl atLine) (Nat.le_of_succ_le_succ enough)
      exact reads_bind areItems fun after before => reads_attach rfl before

/-! ## Fields -/

theorem reads_content {content : Content} {fuel : Nat} (kept : content.IsKept)
    (isRest : reader.rest = content.write ++ more)
    (column : 0 < reader.column) (begins : BeginsLine more) (noItem : startsSign '-' more = false)
    (enough : content.write.length + 2 ≤ fuel) :
    Reads (blockNode 1 true {} fuel) reader content.node (BeforeLine more) := by
  cases content with
  | scalar style text => exact reads_writeAs kept isRest column begins (Nat.le_trans (Nat.le_add_left _ _) enough)
  | texts items => exact reads_writeTexts isRest column begins noItem enough

theorem isMarker_of_isLower {sign : Char} (lower : c.isLower = true) (noLetter : sign.isLower = false) (rest : Text) :
    isMarker sign (c :: rest) = false := by
  have noSign := beq_of_isLower lower noLetter
  rcases rest with _ | ⟨second, _ | ⟨third, rest⟩⟩
  · rfl
  · rfl
  · simp [isMarker, noSign]

/-- Whether a name begins here, and so neither a mark nor the end of the document. -/
structure AtName (cursor : Cursor) : Prop where
  notFinal : cursor.isFinal = false
  noItem : startsSign '-' cursor.rest = false
  noKey : startsSign '?' cursor.rest = false
  noProperty : startsProperty cursor.rest = false
  noLiteral : cursor.rest.head? ≠ some '|'
  noFolded : cursor.rest.head? ≠ some '>'

theorem atName_of_isLower {cursor : Cursor} (lower : c.isLower = true) (isRest : cursor.rest = c :: rest) :
    AtName cursor := by
  have noMark (mark : Char) (noLetter : mark.isLower = false) : ((c :: rest).head? == some mark) = false :=
    beq_false_of_ne (head?_of_isLower lower noLetter rest)
  have goesOn : cursor.isFinal = false := by
    rw [Cursor.isFinal, isRest, isSeparator, isMarker_of_isLower lower (by decide),
      isMarker_of_isLower lower (by decide), noMark '%' (by decide)]
    exact Bool.and_false _
  refine ⟨goesOn, ?_, ?_, ?_, ?_, ?_⟩ <;> rw [isRest]
  · exact startsSign_of_isLower lower (by decide) rest
  · exact startsSign_of_isLower lower (by decide) rest
  · rw [startsProperty, noMark '&' (by decide), noMark '!' (by decide)]
    rfl
  · exact head?_of_isLower lower (by decide) rest
  · exact head?_of_isLower lower (by decide) rest

/-- A name is read up to its colon. -/
theorem reads_name {name : Text} {margin fuel : Nat} (isName : IsFieldName name)
    (isRest : reader.rest = name ++ ':' :: more) (gap : startsGap more = true) :
    Reads (keyNode margin {} (fuel + 1)) reader (.scalar .plain none name)
      (· = reader.along name.length (':' :: more) false) := by
  have ordinary : ∀ c ∈ name, isGap c = false ∧ c ≠ ':' := by
    intro c member
    rcases isName.ordinary c member with lower | rfl
    · exact ⟨isGap_of_isLower lower, ne_of_isLower lower (by decide)⟩
    · decide
  have isRead := readPlain_word ordinary gap margin
  have inLine : ∀ c ∈ name, isBreak c = false := fun c member => (Bool.or_eq_false_iff.1 (ordinary c member).1).2
  have isEnd : { reader.moveTo (':' :: more) with keys := false } = reader.along name.length (':' :: more) false := by
    rw [moveTo_eq_advance name isRest, advance_word inLine isRest]
    rfl
  obtain ⟨c, rest, rfl, lower⟩ := isName.begins
  have isFirst {mark : Char} (noLetter : mark.isLower = false) : reader.rest.head? ≠ some mark := by
    rw [isRest]
    exact head?_of_isLower lower noLetter _
  have starts : scalar.startsPlain false (c :: rest ++ ':' :: more) = true := by
    rw [List.cons_append, scalar.startsPlain, beq_of_isLower lower (by decide : '-'.isLower = false),
      beq_of_isLower lower (by decide : '?'.isLower = false), beq_of_isLower lower (by decide : ':'.isLower = false),
      isGap_of_isLower lower, leadingMarks_of_isLower lower]
    rfl
  have isScalar : Reads (scalar false margin) reader (.scalar .plain none (c :: rest))
      (· = reader.along (c :: rest).length (':' :: more) false) :=
    reads_scalar isRest (leadingMarks_of_isLower lower) starts isRead isEnd
  rw [keyNode]
  refine reads_rest isRest ?_
  refine reads_require rfl ?_
  refine reads_bind (reads_inlineNode (isFirst (by decide)) (isFirst (by decide)) isScalar) fun after isAfter => ?_
  refine reads_look (attach_eq rfl) ?_
  have stays : Reads (move (·.skipBlanks)) after () (· = reader.along (c :: rest).length (':' :: more) false) :=
    reads_move ((skipBlanks_eq_self (by rw [isAfter]; rintro _ ⟨⟩; decide)).trans isAfter)
  exact reads_bind stays fun after isAfter => reads_pure isAfter

/-- The colon behind a name ends a key. -/
theorem closesKey_eq_true {start : Cursor} {count : Nat}
    (isEnd : reader.toCursor = start.along count (':' :: more) false)
    (gap : startsGap more = true) (keys : start.keys = true) (short : count ≤ 1024) :
    closesKey false start reader = some (true, reader) := by
  have isRest : reader.rest = ':' :: more := by rw [isEnd]; rfl
  have isColon : startsSign ':' reader.rest = true := by rw [isRest, startsSign, gap]; rfl
  have sameLine : reader.line = start.line := by rw [isEnd]; rfl
  have closes : reader.toCursor.closesKey start = true := by
    rw [isEnd, Cursor.closesKey, keys]
    simpa [along] using short
  rw [closesKey]
  change ((do
    if (!startsSign ':' reader.rest) = true then return false
    else
      if (!false && reader.line != start.line) = true then return false
      require (reader.closesKey start)
      return true) : Reading Bool) reader = _
  rw [isColon, sameLine, closes]
  simp
  rfl

theorem reads_blockValue {content : Content} {fuel : Nat} (kept : content.IsKept)
    (isRest : reader.rest = ':' :: (content.write ++ more))
    (begins : BeginsLine more) (noItem : startsSign '-' more = false)
    (enough : content.write.length + 3 ≤ fuel) :
    Reads (blockValue 0 fuel) reader content.node (BeforeLine more) := by
  obtain ⟨fuel, rfl⟩ := Nat.exists_eq_add_of_le' (Nat.le_trans (Nat.succ_pos _) enough)
  rw [blockValue]
  refine reads_bind (reads_skipSign rfl isRest) fun place isPlace => ?_
  exact reads_content kept (by rw [isPlace]; rfl) (by rw [isPlace]; exact Nat.succ_pos _) begins noItem (by omega)

/-- Where the line of a field begins, so does its name. -/
theorem atName_of_atLine {name : Text} {content : Content} {fields : List (Text × Content)} {cursor : Cursor}
    (isName : IsFieldName name) (atLine : AtLine (writeFields ((name, content) :: fields)) cursor) :
    AtName cursor := by
  obtain ⟨c, rest, rfl, lower⟩ := isName.begins
  exact atName_of_isLower lower (by rw [atLine.rest, writeFields_cons]; rfl)

/-- Fields are read one after another up to the end of the document. -/
theorem reads_entries {fields : List (Text × Content)} {done : List (Node × Node)} {fuel : Nat}
    (kept : AreKept fields) (before : BeforeLine (writeFields fields) reader.toCursor) (enough : (writeFields fields).length + 4 ≤ fuel) :
    Reads (blockEntries 0 done fuel) reader (done ++ fieldEntries fields) (AtLine []) := by
  induction fields generalizing done fuel reader with
  | nil =>
      obtain ⟨fuel, rfl⟩ := Nat.exists_eq_add_of_le' (Nat.le_trans (Nat.succ_pos _) enough)
      rw [blockEntries, fieldEntries, List.map_nil, List.append_nil]
      refine reads_bind (reads_move (atLine_skipGaps beginsLine_nil before)) fun place atLine => ?_
      refine reads_get ?_
      rw [if_pos (.inl (by rw [Cursor.isFinal, atLine.rest]; rfl))]
      exact reads_pure atLine
  | cons field fields ih =>
      obtain ⟨name, content⟩ := field
      obtain ⟨⟨isName, isKept⟩, keptRest⟩ := areKept_cons.1 kept
      obtain ⟨fuel, rfl⟩ := Nat.exists_eq_add_of_le' (Nat.le_trans (Nat.le_add_left 2 _) enough)
      have begins := beginsLine_writeFields keptRest
      have gap := startsGap_write content (writeFields fields)
      have room := length_writeFields_cons isName content fields
      rw [blockEntries]
      refine reads_bind (reads_move (atLine_skipGaps (beginsLine_writeFields kept).1 before)) fun place atLine => ?_
      have atName := atName_of_atLine isName atLine
      refine reads_get ?_
      dsimp only
      rw [atName.notFinal, atLine.column, if_neg (by decide)]
      refine reads_require (by rw [atLine.keys]; rfl) ?_
      rw [atName.noKey, if_neg Bool.false_ne_true]
      refine reads_look (properties_eq_none atName.noProperty) ?_
      refine reads_bind (reads_name isName (by rw [atLine.rest, writeFields_cons]) gap) fun after isAfter => ?_
      refine reads_look (closesKey_eq_true isAfter gap atLine.keys isName.short) ?_
      refine reads_require rfl ?_
      refine reads_bind (reads_blockValue isKept (by rw [isAfter]; rfl) begins.1 begins.2 (by omega))
        fun after before => ?_
      -- What this field has taken of the document is more than the fuel that it has taken.
      have isRecord := @ih after (done ++ [(.scalar .plain none name, content.node)]) (fuel + 1) keptRest before
        (by omega)
      rw [List.append_assoc] at isRecord
      exact isRecord

/-! ## Documents -/

/-- The fields of a record are the entries of the mapping that its document is read as. -/
theorem reads_record {name : Text} {content : Content} {fields : List (Text × Content)} {fuel : Nat}
    (kept : AreKept ((name, content) :: fields))
    (atLine : AtLine (writeFields ((name, content) :: fields)) reader.toCursor)
    (enough : (writeFields ((name, content) :: fields)).length + 4 ≤ fuel) :
    Reads (blockNode 0 false {} fuel) reader (.mapping (fieldEntries ((name, content) :: fields))) (AtLine []) := by
  obtain ⟨⟨isName, isKept⟩, keptRest⟩ := areKept_cons.1 kept
  obtain ⟨fuel, rfl⟩ := Nat.exists_eq_add_of_le' (Nat.le_trans (Nat.le_add_left 2 _) enough)
  have begins := beginsLine_writeFields keptRest
  have gap := startsGap_write content (writeFields fields)
  have room := length_writeFields_cons isName content fields
  rw [blockNode]
  refine reads_bind (reads_move (atLine_skipGaps (beginsLine_writeFields kept).1 (.inl atLine)))
    fun place atLine => ?_
  have atName := atName_of_atLine isName atLine
  refine reads_get ?_
  dsimp only
  rw [atName.notFinal, if_neg Bool.false_ne_true, atLine.column, if_neg (by decide), atName.noItem,
    if_neg Bool.false_ne_true, atName.noKey, if_neg Bool.false_ne_true]
  refine reads_look (properties_eq_none atName.noProperty) ?_
  refine reads_rest rfl ?_
  split
  · rename_i isRest
    exact absurd (by rw [isRest]; rfl) atName.noLiteral
  · rename_i isRest
    exact absurd (by rw [isRest]; rfl) atName.noFolded
  · rw [if_neg (fun properties => absurd properties.1 (by decide))]
    refine reads_bind (reads_name isName (by rw [atLine.rest, writeFields_cons]) gap) fun after isAfter => ?_
    refine reads_look (closesKey_eq_true isAfter gap atLine.keys isName.short) ?_
    rw [if_pos rfl]
    refine reads_bind (reads_blockValue isKept (by rw [isAfter]; rfl) begins.1 begins.2 (by omega))
      fun after before => ?_
    refine reads_bind (reads_entries keptRest before (by omega)) fun after atEnd => ?_
    exact reads_attach rfl atEnd

/-- Where a name begins there are no directives. -/
theorem reads_directives {fuel : Nat} (atLine : AtLine more reader.toCursor) (begins : BeginsLine more)
    (noDirective : more.head? ≠ some '%') : Reads (directives {} (fuel + 1)) reader {} (AtLine more) := by
  rw [directives]
  refine reads_bind (reads_move (atLine_skipGaps begins (.inl atLine))) fun place atLine => ?_
  refine reads_get ?_
  refine reads_rest atLine.rest ?_
  rw [atLine.column]
  split
  · exact absurd rfl noDirective
  · exact reads_pure atLine

theorem reads_ending {fuel : Nat} (atEnd : AtLine [] reader.toCursor) :
    Reads (ending (fuel + 1)) reader () (AtLine []) := by
  rw [ending]
  refine reads_bind (reads_move (atLine_skipGaps beginsLine_nil (.inl atEnd))) fun place atEnd => ?_
  refine reads_get ?_
  dsimp only
  rw [if_pos (by rw [atEnd.rest]; rfl)]
  exact reads_pure atEnd

/-- Where the line of a field begins neither a directive nor a separator does. -/
theorem reads_document {fields : List (Text × Content)} {fuel : Nat} (several : fields ≠ []) (kept : AreKept fields)
    (atLine : AtLine (writeFields fields) reader.toCursor) (enough : (writeFields fields).length + 4 ≤ fuel) :
    Reads (document fuel) reader (.mapping (fieldEntries fields)) (AtLine []) := by
  obtain ⟨c, rest, isLetter, lower⟩ := exists_isLower_writeFields several kept
  have noMarker (sign : Char) (noLetter : sign.isLower = false) : isMarker sign (writeFields fields) = false := by
    rw [isLetter, isMarker_of_isLower lower noLetter]
  have noDirective : (writeFields fields).head? ≠ some '%' := by
    rw [isLetter]
    exact head?_of_isLower lower (by decide) rest
  obtain ⟨fuel, rfl⟩ := Nat.exists_eq_add_of_le' (Nat.le_trans (Nat.le_add_left 1 _) enough)
  rw [document]
  refine reads_bind (reads_directives atLine (beginsLine_writeFields kept).1 noDirective) fun place atLine => ?_
  refine reads_bind (reads_modify atLine) fun place atLine => ?_
  refine reads_get ?_
  dsimp only
  rw [atLine.rest, noMarker '-' (by decide), noMarker '.' (by decide),
    if_neg (fun marker => absurd marker.2 (by decide))]
  refine reads_require rfl (reads_require (by rw [Bool.and_false]; rfl) ?_)
  obtain ⟨⟨name, content⟩, fields, rfl⟩ := List.exists_cons_of_ne_nil several
  refine reads_bind (reads_record kept atLine enough) fun place atEnd => ?_
  exact reads_bind (reads_ending atEnd) fun place atEnd => reads_pure atEnd

end Reading

open Reading

/-- A document of fields is read as the mapping of its fields. -/
theorem read?_writeFields {fields : List (Text × Content)} (several : fields ≠ []) (kept : AreKept fields) :
    read? (writeFields fields) = some (.mapping (fieldEntries fields)) := by
  have allowed := all_isAllowed_writeFields kept
  obtain ⟨c, rest, isLetter, lower⟩ := exists_isLower_writeFields several kept
  obtain ⟨after, isRead, -⟩ : Reads (document (4 * (writeFields fields).length + 8))
      { rest := writeFields fields, handles := Handles.standard } (.mapping (fieldEntries fields)) (Cursor.AtLine []) :=
    reads_document several kept ⟨rfl, rfl, rfl⟩ (by omega)
  rw [isLetter] at isRead allowed ⊢
  unfold read?
  split
  · rename_i isMark
    exact absurd (List.cons.inj isMark).1 (ne_of_isLower lower (by decide))
  · dsimp only
    rw [if_pos allowed]
    exact congrArg (Option.map Prod.fst) isRead

end AddonIndex.Yaml
