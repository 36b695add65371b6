import AddonIndex.Text.Basic

/-!
# The UTF-8 form of a text

The text that was encoded is the one that is decoded.
-/

namespace AddonIndex

namespace Text

@[simp]
theorem decode?_encode (text : Text) : decode? text.encode = some text := by
  have valid : (String.ofList text).toUTF8.IsValidUTF8 := (String.ofList text).isValidUTF8
  have same : String.fromUTF8 (String.ofList text).toUTF8 valid = String.ofList text := rfl
  rw [decode?, encode, String.fromUTF8?, dif_pos valid, same, Option.map_some, String.toList_ofList]

theorem decode?_eq_some_iff {bytes : ByteArray} {text : Text} :
    decode? bytes = some text ↔ bytes = text.encode := by
  constructor
  · intro decoded
    unfold decode? String.fromUTF8? at decoded
    split at decoded
    · cases decoded
      rw [encode, String.ofList_toList]
      rfl
    · cases decoded
  · rintro rfl
    exact decode?_encode text

theorem encode_inj {text other : Text} : text.encode = other.encode ↔ text = other := by
  rw [← decode?_eq_some_iff, decode?_encode, Option.some.injEq]

/-- No bytes are the form of the empty text. -/
theorem decode?_empty : decode? ByteArray.empty = some [] :=
  decode?_encode []

end Text

/-!
## Carriage returns before line feeds

Lines of a text may be ended by a carriage return and a line feed. The bytes of such a text are those
of the text without carriage returns, changed in the same way: no other character has a byte in common
with these two. So bytes that are the form of no text do not become one.
-/

section Marks

variable {α : Type} [DecidableEq α] {before mark : α}

/-- A list with `before` put before each `mark`. -/
def putBefore (before mark : α) (items : List α) : List α :=
  items.flatMap fun item => if item = mark then [before, mark] else [item]

/-- A list with one `before` taken from before each `mark`. -/
def takeBefore (before mark : α) : List α → List α
  | [] => []
  | item :: rest =>
      if item = before ∧ rest.head? = some mark then takeBefore before mark rest
      else item :: takeBefore before mark rest

@[simp]
theorem putBefore_nil (before mark : α) : putBefore before mark [] = [] := rfl

@[simp]
theorem putBefore_mark (before mark : α) (rest : List α) :
    putBefore before mark (mark :: rest) = before :: mark :: putBefore before mark rest := by
  simp [putBefore]

theorem putBefore_cons {item : α} (ordinary : item ≠ mark) (rest : List α) :
    putBefore before mark (item :: rest) = item :: putBefore before mark rest := by
  simp [putBefore, ordinary]

theorem putBefore_append (first second : List α) :
    putBefore before mark (first ++ second) = putBefore before mark first ++ putBefore before mark second :=
  List.flatMap_append

theorem putBefore_eq_self {items : List α} (ordinary : mark ∉ items) : putBefore before mark items = items := by
  induction items with
  | nil => rfl
  | cons item rest ih =>
      rw [putBefore_cons (List.ne_of_not_mem_cons ordinary).symm, ih (List.not_mem_of_not_mem_cons ordinary)]

theorem head?_putBefore (items : List α) :
    (putBefore before mark items).head? = items.head?.map fun item => if item = mark then before else item := by
  cases items with
  | nil => rfl
  | cons item rest =>
      by_cases isMark : item = mark
      · simp [isMark]
      · simp [putBefore_cons isMark, isMark]

theorem takeBefore_cons {item : α} {rest : List α} (kept : ¬ (item = before ∧ rest.head? = some mark)) :
    takeBefore before mark (item :: rest) = item :: takeBefore before mark rest :=
  if_neg kept

/-- What was put in is taken out again. -/
theorem takeBefore_putBefore (different : before ≠ mark) (items : List α) :
    takeBefore before mark (putBefore before mark items) = items := by
  induction items with
  | nil => rfl
  | cons item rest ih =>
      by_cases isMark : item = mark
      · subst isMark
        rw [putBefore_mark, takeBefore, if_pos ⟨rfl, rfl⟩, takeBefore_cons fun same => different same.1.symm, ih]
      · have noMark : (putBefore before mark rest).head? ≠ some mark := by
          rw [head?_putBefore]
          intro found
          obtain ⟨next, -, same⟩ := Option.map_eq_some_iff.1 found
          split at same
          · exact different same
          · exact absurd same ‹_›
        rw [putBefore_cons isMark, takeBefore_cons fun marked => noMark marked.2, ih]

theorem takeBefore_append {items : List α} (ordinary : before ∉ items) (rest : List α) :
    takeBefore before mark (items ++ rest) = items ++ takeBefore before mark rest := by
  induction items with
  | nil => rfl
  | cons item items ih =>
      have kept : ¬ (item = before ∧ (items ++ rest).head? = some mark) :=
        fun marked => (List.ne_of_not_mem_cons ordinary).symm marked.1
      rw [List.cons_append, takeBefore_cons kept, ih (List.not_mem_of_not_mem_cons ordinary), List.cons_append]

end Marks

/-! ### Bytes -/

/-- The byte of a line feed. -/
def feedByte : UInt8 := 0x0A

/-- The byte of a carriage return. -/
def returnByte : UInt8 := 0x0D

/-- Bytes with a carriage return put before each line feed. -/
def bytesWithReturns (bytes : ByteArray) : ByteArray :=
  (putBefore returnByte feedByte bytes.data.toList).toByteArray

namespace Text

/-- A text with a carriage return put before each line feed. -/
def withReturns (text : Text) : Text := putBefore '\r' '\n' text

/-- A byte below 0x80 stands for the character of this number and is in the form of no other one. -/
theorem toNat_eq_of_mem_utf8EncodeChar {c : Char} {byte : UInt8} (ascii : byte.toNat < 0x80)
    (member : byte ∈ String.utf8EncodeChar c) : c.toNat = byte.toNat := by
  unfold String.utf8EncodeChar at member
  dsimp only at member
  split at member
  · rename_i small
    rw [List.mem_singleton.1 member, UInt8.toNat_ofNat', Nat.mod_eq_of_lt (by omega)]
    rfl
  · -- Each byte of a longer form is at least 0x80.
    repeat' split at member
    all_goals
      simp only [List.mem_cons, List.not_mem_nil, or_false] at member
      rcases member with rfl | rfl | rfl | rfl <;> simp only [UInt8.toNat_ofNat'] at ascii <;> omega

theorem eq_lineFeed_of_mem {c : Char} (member : feedByte ∈ String.utf8EncodeChar c) : c = '\n' :=
  Char.toNat_inj.1 (toNat_eq_of_mem_utf8EncodeChar (by decide) member)

theorem eq_carriageReturn_of_mem {c : Char} (member : returnByte ∈ String.utf8EncodeChar c) : c = '\r' :=
  Char.toNat_inj.1 (toNat_eq_of_mem_utf8EncodeChar (by decide) member)

theorem data_encode (text : Text) : text.encode.data.toList = text.flatMap String.utf8EncodeChar :=
  List.toList_data_toByteArray

theorem encode_eq (text : Text) : text.encode = (text.flatMap String.utf8EncodeChar).toByteArray := rfl

theorem putBefore_flatMap_utf8EncodeChar (text : Text) :
    putBefore returnByte feedByte (text.flatMap String.utf8EncodeChar) =
      text.withReturns.flatMap String.utf8EncodeChar := by
  induction text with
  | nil => rfl
  | cons c rest ih =>
      rw [List.flatMap_cons, putBefore_append, ih]
      by_cases feed : c = '\n'
      · subst feed
        rw [withReturns, withReturns, putBefore_mark]
        rfl
      · rw [putBefore_eq_self fun member => feed (eq_lineFeed_of_mem member), withReturns, withReturns,
          putBefore_cons feed, List.flatMap_cons]

theorem head?_flatMap_utf8EncodeChar (text : Text) :
    (text.flatMap String.utf8EncodeChar).head? = some feedByte ↔ text.head? = some '\n' := by
  cases text with
  | nil => simp
  | cons c rest =>
      rw [List.flatMap_cons, List.head?_append, List.head?_cons, Option.some.injEq]
      constructor
      · intro first
        cases bytes : String.utf8EncodeChar c with
        | nil => exact absurd bytes String.utf8EncodeChar_ne_nil
        | cons byte more =>
            rw [bytes] at first
            cases first
            exact eq_lineFeed_of_mem (bytes ▸ List.mem_cons_self)
      · rintro rfl
        rfl

theorem takeBefore_flatMap_utf8EncodeChar (text : Text) :
    takeBefore returnByte feedByte (text.flatMap String.utf8EncodeChar) =
      (takeBefore '\r' '\n' text).flatMap String.utf8EncodeChar := by
  induction text with
  | nil => rfl
  | cons c rest ih =>
      by_cases isReturn : c = '\r'
      · subst isReturn
        have single : String.utf8EncodeChar '\r' = [returnByte] := rfl
        rw [List.flatMap_cons, single, List.singleton_append]
        by_cases fed : rest.head? = some '\n'
        · rw [takeBefore, if_pos ⟨rfl, (head?_flatMap_utf8EncodeChar rest).2 fed⟩, ih, takeBefore,
            if_pos ⟨rfl, fed⟩]
        · rw [takeBefore_cons fun marked => fed ((head?_flatMap_utf8EncodeChar rest).1 marked.2), ih,
            takeBefore_cons fun marked => fed marked.2, List.flatMap_cons, single, List.singleton_append]
      · rw [List.flatMap_cons, takeBefore_append fun member => isReturn (eq_carriageReturn_of_mem member), ih,
          takeBefore_cons fun marked => isReturn marked.1, List.flatMap_cons]

/-- The text of bytes with carriage returns is the one of the bytes without them, with carriage returns. -/
theorem decode?_bytesWithReturns (bytes : ByteArray) :
    decode? (bytesWithReturns bytes) = (decode? bytes).map withReturns := by
  have encoded (text : Text) : bytesWithReturns text.encode = text.withReturns.encode := by
    rw [bytesWithReturns, data_encode, putBefore_flatMap_utf8EncodeChar, encode_eq]
  refine Option.ext fun text => ?_
  simp only [Option.map_eq_some_iff, decode?_eq_some_iff]
  constructor
  · intro form
    -- Without the carriage returns that were put in, the form is the one of a text without them.
    have plain : bytes = Text.encode (takeBefore '\r' '\n' text) := by
      rw [encode_eq, ← takeBefore_flatMap_utf8EncodeChar, ← data_encode, ← form, bytesWithReturns,
        List.toList_data_toByteArray, takeBefore_putBefore (by decide)]
      exact ByteArray.ext (Array.toList_inj.1 List.toList_data_toByteArray.symm)
    refine ⟨_, plain, ?_⟩
    rw [plain, encoded] at form
    exact encode_inj.1 form
  · rintro ⟨plain, rfl, rfl⟩
    exact encoded plain

end Text

end AddonIndex
