import AddonIndex.Proofs.Number.Literal
import AddonIndex.Yaml.Scalar
import AddonIndex.Yaml.Write

/-!
# Scalars within a line read back

A text that is written as it is holds nothing that ends a plain scalar: no mark, no line break and no space at its end.
So it is read up to the end of its line, and the next line, which begins further left, ends it.

Between single quotes a line separator stays what it is: the spaces that are written after it as indentation are no part
of the text, as no space stands beside it. Between double quotes everything that is no visible character of the line is
written by an escape, so nothing there is folded.
-/

namespace AddonIndex.Yaml

variable {c : Char} {text rest more after : Text} {filling : Filling}

/-! ## Characters that are written as they are -/

theorem isAllowed_of_isPrintable (printable : isPrintable c = true) : isAllowed c = true := by
  simp only [isPrintable, Bool.or_eq_true] at printable
  simp only [isAllowed, Bool.or_eq_true]
  rcases printable with (((feed | ascii) | low) | high) | beyond
  · exact .inl (.inl (.inl (.inl (.inl (.inl (.inr feed))))))
  · exact .inl (.inl (.inl (.inl (.inr ascii))))
  · exact .inl (.inl (.inr low))
  · exact .inl (.inr high)
  · exact .inr beyond

/-- A document may hold all characters that ASCII shows. -/
theorem isAllowed_of_ascii (first : 0x20 ≤ c.toNat) (last : c.toNat ≤ 0x7E) : isAllowed c = true := by
  simp [isAllowed, first, last]

theorem isHalfBreak_of_isPrintable (printable : isPrintable c = true) (rest : Text) : isHalfBreak c rest = false := by
  have notReturn : c ≠ '\r' := by
    rintro rfl
    exact absurd printable (by decide)
  rw [isHalfBreak, beq_false_of_ne notReturn, Bool.false_and]

theorem isHalfBreak_of_inLine (inLine : isBreak c = false) (rest : Text) : isHalfBreak c rest = false := by
  have notReturn : c ≠ '\r' := by
    rintro rfl
    exact absurd inLine (by decide)
  rw [isHalfBreak, beq_false_of_ne notReturn, Bool.false_and]

/-- The only blank that is written as it is. -/
theorem eq_space_of_isBlank (printable : isPrintable c = true) (blank : isBlank c = true) : c = ' ' := by
  rw [isBlank, Bool.or_eq_true, beq_iff_eq, beq_iff_eq] at blank
  rcases blank with rfl | rfl
  · rfl
  · exact absurd printable (by decide)

/-- A line break that is written as it is stands for itself. -/
theorem breakText_of_isPrintable (printable : isPrintable c = true) (breaks : isBreak c = true) :
    breakText c = [c] := by
  simp only [isBreak, Bool.or_eq_true, beq_iff_eq] at breaks
  rcases breaks with (((rfl | rfl) | rfl) | rfl) | rfl
  · rfl
  · exact absurd printable (by decide)
  · exact absurd printable (by decide)
  · rfl
  · rfl

/-! ## What is passed over within a line -/

theorem Filling.isBefore_of_hasBreak (inLine : filling.hasBreak = false) (column : Nat) :
    filling.isBefore column = false := by
  cases filling with
  | nothing => rfl
  | blanks text => rfl
  | lines first later reached => cases inLine

/-- A blank within a line is kept. -/
theorem Filling.addBlank_spec (inLine : filling.hasBreak = false) (c : Char) :
    (filling.addBlank c).hasBreak = false ∧ filling.addBlank c ≠ .nothing ∧
      (filling.addBlank c).text = filling.text ++ [c] := by
  cases filling with
  | nothing => exact ⟨rfl, nofun, rfl⟩
  | blanks text => exact ⟨rfl, nofun, rfl⟩
  | lines first later column => cases inLine

/-! ## What ends a scalar -/

/-- Whether a text is at its end or begins with neither a gap nor a comment nor a colon. So begins each line of a block
that does not go on with a scalar. -/
def BeginsLine (more : Text) : Prop := ∀ c ∈ more.head?, isGap c = false ∧ c ≠ '#' ∧ c ≠ ':'

/-- A line break is a gap after a text as its end is. -/
theorem startsGap_append_lineFeed (rest more : Text) : startsGap (rest ++ '\n' :: more) = startsGap rest := by
  cases rest <;> rfl

/-- A line that begins further left ends a plain scalar. -/
theorem readPlain_beginsLine (begins : BeginsLine more) (first later : Text) :
    readPlain false 1 (.lines first later 0) more = some ([], more, true) := by
  cases more with
  | nil => rfl
  | cons c more =>
      rcases begins c rfl with ⟨visible, -, -⟩
      rw [isGap, Bool.or_eq_false_iff] at visible
      rw [readPlain, isHalfBreak_of_inLine visible.2, visible.1, visible.2]
      rfl

/-- A mark after a gap is one at the beginning of a text, and one more is possible there. -/
theorem hasInnerMark_of_true (noMark : hasInnerMark true text = false) (afterGap : Bool) :
    hasInnerMark afterGap text = false := by
  cases text with
  | nil => rfl
  | cons c rest =>
      cases afterGap with
      | true => exact noMark
      | false =>
          simp only [hasInnerMark, Bool.or_eq_false_iff, Bool.and_false] at noMark ⊢
          exact ⟨⟨noMark.1.1, trivial⟩, noMark.2⟩

/-- What is on one line, without marks and without a space at its end, is read up to the end of the line. -/
theorem readPlain_line (begins : BeginsLine more) (inLine : filling.hasBreak = false)
    (printable : ∀ c ∈ text, isPrintable c = true ∧ isBreak c = false)
    (noMark : hasInnerMark (filling != .nothing) text = false) (visibleEnd : text.getLast? ≠ some ' ')
    (nonempty : text = [] → filling = .nothing) :
    readPlain false 1 filling (text ++ '\n' :: more) = some (filling.text ++ text, more, true) := by
  induction text generalizing filling with
  | nil =>
      rw [nonempty rfl]
      exact readPlain_beginsLine begins _ _
  | cons c rest ih =>
      rcases List.forall_mem_cons.1 printable with ⟨⟨isPrintable, notBreak⟩, printableRest⟩
      simp only [hasInnerMark, Bool.or_eq_false_iff] at noMark
      rcases noMark with ⟨⟨noColon, noComment⟩, noMarkRest⟩
      have visibleRest : rest.getLast? ≠ some ' ' := by
        intro space
        exact visibleEnd (by rw [List.getLast?_cons, space, Option.getD_some])
      rw [List.cons_append, readPlain, isHalfBreak_of_isPrintable isPrintable, if_neg Bool.false_ne_true, notBreak,
        if_neg Bool.false_ne_true]
      cases blank : isBlank c with
      | true =>
          obtain rfl := eq_space_of_isBlank isPrintable blank
          have goesOn : rest ≠ [] := by
            rintro rfl
            exact visibleEnd rfl
          rcases filling.addBlank_spec inLine ' ' with ⟨inLineRest, passed, longer⟩
          have isRest := ih inLineRest printableRest (hasInnerMark_of_true noMarkRest _) visibleRest
            fun empty => absurd empty goesOn
          rw [if_pos rfl, if_neg (fun tab => absurd tab.1 (by decide)), isRest, longer, List.append_assoc,
            List.singleton_append]
      | false =>
          have noEnd : endsPlain false c (rest ++ '\n' :: more) = false := by
            rw [endsPlain, startsGap_append_lineFeed, noColon, Bool.false_and, Bool.or_false]
          have notGap : isGap c = false := by rw [isGap, blank, notBreak, Bool.or_false]
          rw [notGap] at noMarkRest
          have goesOn : readPlain false 1 .nothing (rest ++ '\n' :: more) = some (rest, more, true) :=
            @ih .nothing rfl printableRest noMarkRest visibleRest fun _ => rfl
          rw [if_neg Bool.false_ne_true, filling.isBefore_of_hasBreak inLine, noComment, noEnd, goesOn]
          rfl

/-- A word without gaps and colons is read up to a colon with a gap behind it, however it begins. -/
theorem readPlain_word {word : Text} (ordinary : ∀ c ∈ word, isGap c = false ∧ c ≠ ':') (gap : startsGap rest = true)
    (margin : Nat) : readPlain false margin .nothing (word ++ ':' :: rest) = some (word, ':' :: rest, false) := by
  induction word with
  | nil =>
      rw [List.nil_append, readPlain]
      simp [isHalfBreak, isBreak, isBlank, Filling.isBefore, isCrowded, endsPlain, gap, lineSeparator,
        paragraphSeparator, Filling.hasBreak]
  | cons c word ih =>
      rcases List.forall_mem_cons.1 ordinary with ⟨⟨visible, noColon⟩, ordinaryRest⟩
      rw [isGap, Bool.or_eq_false_iff] at visible
      have noEnd : endsPlain false c (word ++ ':' :: rest) = false := by
        rw [endsPlain, beq_false_of_ne noColon]
        rfl
      have noSign : (c == '#' && Filling.nothing != .nothing) = false := Bool.and_false _
      rw [List.cons_append, readPlain, isHalfBreak_of_inLine visible.2, visible.2, visible.1, noEnd, noSign,
        ih ordinaryRest]
      rfl

/-! ## Pairs of characters -/

theorem hasPair_append_cons {condition : Char → Char → Bool} {previous : Option Char}
    (none : hasPair condition (previous.toList ++ c :: rest) = false) :
    (∀ b ∈ previous, condition b c = false) ∧ hasPair condition (c :: rest) = false := by
  cases previous with
  | none => exact ⟨nofun, none⟩
  | some b =>
      rw [Option.toList_some, List.singleton_append, hasPair, Bool.or_eq_false_iff] at none
      refine ⟨?_, none.2⟩
      rintro _ ⟨⟩
      exact none.1

/-! ## Single quotes -/

/-- A character between single quotes. -/
def quotedChar (c : Char) : Text := if c = '\'' then ['\'', '\''] else [c]

/-- What is written for a character between single quotes: a line break as it is, anything else behind the indentation
if a line begins. -/
def quotedPart (afterBreak : Bool) (c : Char) : Text :=
  if isBreak c then [c] else (if afterBreak then indentation else []) ++ quotedChar c

theorem singleQuotedBody_cons (afterBreak : Bool) (c : Char) (rest : Text) :
    singleQuotedBody afterBreak (c :: rest) = quotedPart afterBreak c ++ singleQuotedBody (isBreak c) rest := by
  rw [singleQuotedBody, quotedPart, quotedChar]
  cases isBreak c <;> rfl

theorem readSingleQuoted_space (filling : Filling) (rest : Text) :
    readSingleQuoted filling (' ' :: rest) = readSingleQuoted (filling.addBlank ' ') rest := by
  rw [readSingleQuoted]
  · rfl
  · exact nofun

theorem readSingleQuoted_break (printable : isPrintable c = true) (breaks : isBreak c = true) (filling : Filling)
    (rest : Text) : readSingleQuoted filling (c :: rest) = readSingleQuoted (filling.addBreak c) rest := by
  rw [readSingleQuoted, isHalfBreak_of_isPrintable printable, if_neg Bool.false_ne_true, if_pos breaks]
  rintro _ rfl
  cases breaks

/-- A visible character ends what was passed over. -/
theorem readSingleQuoted_visible (visible : isGap c = false) (notBefore : filling.isBefore 1 = false) (rest : Text) :
    readSingleQuoted filling (quotedChar c ++ rest) =
      (readSingleQuoted .nothing rest).map fun (text, after) => (filling.text ++ c :: text, after) := by
  rw [quotedChar]
  split
  · rename_i quote
    rw [quote]
    rfl
  · rename_i noQuote
    rw [isGap, Bool.or_eq_false_iff] at visible
    rw [List.singleton_append, readSingleQuoted, isHalfBreak_of_inLine visible.2, visible.1, visible.2, notBefore,
      Bool.false_and, if_neg noQuote]
    · rfl
    · exact fun _ quote => absurd quote noQuote

theorem readSingleQuoted_end (notBefore : filling.isBefore 1 = false) (single : after.head? ≠ some '\'') :
    readSingleQuoted filling ('\'' :: after) = some (filling.text, after) := by
  rw [readSingleQuoted, notBefore]
  · rfl
  · rintro _ - rfl
    exact single rfl

/-- What was passed over when the previous character has been read. -/
inductive Follows : (previous : Option Char) → Filling → Prop
  | word {previous : Option Char} (visible : ∀ c ∈ previous, isGap c = false) : Follows previous .nothing
  | space (text : Text) : Follows (some ' ') (.blanks text)
  | separator {c : Char} {first later : Text} (breaks : isBreak c = true) (separates : first ≠ ['\n']) :
      Follows (some c) (.lines first later 0)

namespace Follows

variable {previous : Option Char}

theorem foldBreaks_of_ne {first : Text} (separates : first ≠ ['\n']) (later : Text) :
    foldBreaks first later = first ++ later :=
  if_neg separates

/-- A line separator is passed over, and the text that stands for it is itself. -/
theorem addBreak (follows : Follows previous filling) (noSpace : previous ≠ some ' ')
    (printable : isPrintable c = true) (breaks : isBreak c = true) (noFeed : c ≠ '\n') :
    Follows (some c) (filling.addBreak c) ∧ (filling.addBreak c).text = filling.text ++ [c] := by
  have itself := breakText_of_isPrintable printable breaks
  have separates : [c] ≠ ['\n'] := by simpa using noFeed
  cases follows with
  | word _ =>
      change Follows (some c) (.lines (breakText c) [] 0) ∧ foldBreaks (breakText c) [] = [c]
      rw [itself]
      exact ⟨.separator breaks separates, foldBreaks_of_ne separates _⟩
  | space _ => exact absurd rfl noSpace
  | @separator _ first later _ firstSeparates =>
      rw [Filling.addBreak, itself]
      refine ⟨.separator breaks firstSeparates, ?_⟩
      rw [Filling.text, Filling.text, foldBreaks_of_ne firstSeparates, foldBreaks_of_ne firstSeparates,
        List.append_assoc]

/-- A space that does not begin a line is passed over, and stands for itself. -/
theorem addSpace (follows : Follows previous filling) (inLine : previous.any isBreak = false) :
    Follows (some ' ') (filling.addBlank ' ') ∧ (filling.addBlank ' ').text = filling.text ++ [' '] := by
  cases follows with
  | word _ => exact ⟨.space [' '], rfl⟩
  | space text => exact ⟨.space (text ++ [' ']), rfl⟩
  | separator breaks _ =>
      rw [Option.any_some, breaks] at inLine
      cases inLine

/-- The indentation at the beginning of a line is passed over, and is no part of the text. -/
theorem readSingleQuoted_indentation (follows : Follows previous filling) :
    ∃ indented : Filling, indented.isBefore 1 = false ∧ indented.text = filling.text ∧ ∀ rest,
      readSingleQuoted filling ((if previous.any isBreak then indentation else []) ++ rest) =
        readSingleQuoted indented rest := by
  cases follows with
  | word visible =>
      have inLine : previous.any isBreak = false := by
        cases previous with
        | none => rfl
        | some c => exact (Bool.or_eq_false_iff.1 (visible c rfl)).2
      exact ⟨.nothing, rfl, rfl, fun rest => by rw [inLine]; rfl⟩
  | space text => exact ⟨.blanks text, rfl, rfl, fun rest => rfl⟩
  | @separator c first later breaks _ =>
      refine ⟨.lines first later 2, rfl, rfl, fun rest => ?_⟩
      rw [Option.any_some, breaks]
      change readSingleQuoted _ (' ' :: ' ' :: rest) = _
      rw [readSingleQuoted_space, readSingleQuoted_space]
      rfl

end Follows

/-- One character between single quotes: what it adds to the text is held back as long as no visible character follows,
unless it is one. -/
theorem readSingleQuoted_part {previous : Option Char} (follows : Follows previous filling)
    (printable : isPrintable c = true) (noFeed : c ≠ '\n')
    (noneAfter : ∀ b ∈ previous, (isBreak b && c == ' ') = false)
    (noneBefore : ∀ b ∈ previous, (b == ' ' && isBreak c) = false) :
    ∃ (next : Filling) (known : Text), Follows (some c) next ∧ known ++ next.text = filling.text ++ [c] ∧ ∀ rest,
      readSingleQuoted filling (quotedPart (previous.any isBreak) c ++ rest) =
        (readSingleQuoted next rest).map fun (text, after) => (known ++ text, after) := by
  have same (result : Option (Text × Text)) :
      result.map (fun (text, after) => (([] : Text) ++ text, after)) = result := Option.map_id_apply
  cases breaks : isBreak c with
  | true =>
      have noSpace : previous ≠ some ' ' := by
        rintro rfl
        have none := noneBefore ' ' rfl
        rw [breaks] at none
        cases none
      rcases follows.addBreak noSpace printable breaks noFeed with ⟨followsNext, isText⟩
      refine ⟨filling.addBreak c, [], followsNext, isText, fun rest => ?_⟩
      rw [quotedPart, if_pos breaks, same]
      exact readSingleQuoted_break printable breaks filling rest
  | false =>
      have written : quotedPart (previous.any isBreak) c =
          (if previous.any isBreak then indentation else []) ++ quotedChar c :=
        if_neg (by rw [breaks]; exact Bool.false_ne_true)
      cases blank : isBlank c with
      | true =>
          obtain rfl := eq_space_of_isBlank printable blank
          have inLine : previous.any isBreak = false := by
            cases previous with
            | none => rfl
            | some b => exact (Bool.and_eq_false_iff.1 (noneAfter b rfl)).resolve_right (by decide)
          rcases follows.addSpace inLine with ⟨followsNext, isText⟩
          refine ⟨filling.addBlank ' ', [], followsNext, isText, fun rest => ?_⟩
          rw [written, inLine, same]
          exact readSingleQuoted_space filling rest
      | false =>
          have visible : isGap c = false := by rw [isGap, blank, breaks, Bool.or_false]
          rcases follows.readSingleQuoted_indentation with ⟨indented, notBefore, isText, passes⟩
          refine ⟨.nothing, filling.text ++ [c], .word ?_, List.append_nil _, fun rest => ?_⟩
          · rintro _ ⟨⟩
            exact visible
          · rw [written, List.append_assoc, passes, readSingleQuoted_visible visible notBefore, isText]
            simp only [List.append_assoc, List.singleton_append]

/-- A text without line feeds that keeps its spaces away from its line separators reads back from single quotes. -/
theorem readSingleQuoted_body {previous : Option Char} (follows : Follows previous filling)
    (printable : ∀ c ∈ text, isPrintable c = true ∧ c ≠ '\n')
    (noneAfter : hasPair (fun a b => isBreak a && b == ' ') (previous.toList ++ text) = false)
    (noneBefore : hasPair (fun a b => a == ' ' && isBreak b) (previous.toList ++ text) = false)
    (single : after.head? ≠ some '\'') :
    readSingleQuoted filling (singleQuotedBody (previous.any isBreak) text ++ '\'' :: after) =
      some (filling.text ++ text, after) := by
  induction text generalizing previous filling with
  | nil =>
      rcases follows.readSingleQuoted_indentation with ⟨indented, notBefore, isText, passes⟩
      rw [singleQuotedBody, passes, List.append_nil, ← isText]
      exact readSingleQuoted_end notBefore single
  | cons c rest ih =>
      rcases List.forall_mem_cons.1 printable with ⟨⟨isPrintable, noFeed⟩, printableRest⟩
      rcases hasPair_append_cons noneAfter with ⟨noneAfterHere, noneAfterRest⟩
      rcases hasPair_append_cons noneBefore with ⟨noneBeforeHere, noneBeforeRest⟩
      rcases readSingleQuoted_part follows isPrintable noFeed noneAfterHere noneBeforeHere with
        ⟨next, known, followsNext, isText, reads⟩
      have goesOn := ih followsNext printableRest noneAfterRest noneBeforeRest
      rw [Option.any_some] at goesOn
      have whole : known ++ (next.text ++ rest) = filling.text ++ c :: rest := by
        rw [← List.append_assoc, isText, List.append_assoc, List.singleton_append]
      rw [singleQuotedBody_cons, List.append_assoc, reads, goesOn, ← whole]
      rfl

/-- What is written between single quotes are characters of the text, quotes and spaces. -/
theorem all_isAllowed_singleQuotedBody (printable : ∀ c ∈ text, isPrintable c = true) (afterBreak : Bool) :
    (singleQuotedBody afterBreak text).all isAllowed = true := by
  have indented (flag : Bool) : (if flag then indentation else []).all isAllowed = true := by cases flag <;> decide
  induction text generalizing afterBreak with
  | nil => exact indented afterBreak
  | cons c rest ih =>
      rcases List.forall_mem_cons.1 printable with ⟨printable, printableRest⟩
      have allowed := isAllowed_of_isPrintable printable
      rw [singleQuotedBody]
      split
      · rw [List.all_cons, allowed, ih printableRest]
        rfl
      · rw [List.all_append, List.all_append, indented, ih printableRest]
        split
        · rfl
        · rw [List.all_cons, allowed]
          rfl

/-! ## Numbers to the base sixteen -/

/-- The value of some digits to the base sixteen that follow a value. -/
def hexValueFrom (value : Nat) (digits : Text) : Nat :=
  digits.foldl (fun value c => 16 * value + (hexDigitValue? c).getD 0) value

/-- Whether a text consists of digits to the base sixteen. -/
def AreHexDigits (digits : Text) : Prop := ∀ c ∈ digits, (hexDigitValue? c).isSome

theorem isAllowed_of_hexDigitValue? (isDigit : (hexDigitValue? c).isSome) : isAllowed c = true := by
  have between {first last : Char} (inside : first ≤ c ∧ c ≤ last) (low : 0x20 ≤ first.toNat)
      (high : last.toNat ≤ 0x7E) : isAllowed c = true :=
    isAllowed_of_ascii (Nat.le_trans low (UInt32.le_iff_toNat_le.1 inside.1))
      (Nat.le_trans (UInt32.le_iff_toNat_le.1 inside.2) high)
  rw [hexDigitValue?] at isDigit
  split at isDigit
  · exact between ‹_› (by decide) (by decide)
  split at isDigit
  · exact between ‹_› (by decide) (by decide)
  split at isDigit
  · exact between ‹_› (by decide) (by decide)
  · cases isDigit

theorem hexDigitValue?_digitChar {digit : Nat} (small : digit < 16) :
    hexDigitValue? digit.digitChar.toUpper = some digit := by
  have each : ∀ digit : Fin 16, hexDigitValue? digit.val.digitChar.toUpper = some digit.val := by decide
  exact each ⟨digit, small⟩

/-- The digits of a number, in capitals, have its value. -/
theorem hexValueFrom_toDigits (n : Nat) :
    AreHexDigits ((Nat.toDigits 16 n).map Char.toUpper) ∧
      hexValueFrom 0 ((Nat.toDigits 16 n).map Char.toUpper) = n := by
  induction n using Nat.strong_induction_on with
  | h n ih =>
      by_cases small : n < 16
      · rw [Nat.toDigits_of_lt_base small]
        have digit := hexDigitValue?_digitChar small
        constructor
        · intro c member
          rw [List.mem_singleton.1 member, digit]
          rfl
        · simp [hexValueFrom, digit]
      · have least : 16 ≤ n := Nat.not_lt.1 small
        rcases ih (n / 16) (Nat.div_lt_self (by omega) (by decide)) with ⟨areDigits, value⟩
        have digit := hexDigitValue?_digitChar (Nat.mod_lt n (by decide : 16 > 0))
        rw [Nat.toDigits_of_base_le (by decide) least, List.map_append]
        constructor
        · intro c member
          rcases List.mem_append.1 member with early | last
          · exact areDigits c early
          · rw [List.mem_singleton.1 last, digit]
            rfl
        · unfold hexValueFrom at value ⊢
          rw [List.foldl_append, value, List.map_singleton, List.foldl_cons, List.foldl_nil, digit, Option.getD_some]
          exact Nat.div_add_mod n 16

theorem hexValueFrom_zeros (zeros : Nat) (digits : Text) :
    hexValueFrom 0 (List.replicate zeros '0' ++ digits) = hexValueFrom 0 digits := by
  induction zeros with
  | zero => rfl
  | succ zeros ih => exact ih

/-- A number that has room in a count of digits is written with that many. -/
theorem capitalHex_spec {count n : Nat} (several : 0 < count) (room : n < 16 ^ count) :
    (capitalHex count n).length = count ∧ AreHexDigits (capitalHex count n) ∧
      hexValueFrom 0 (capitalHex count n) = n := by
  have short : (Nat.toDigits 16 n).length ≤ count := (Nat.length_toDigits_le_iff (by decide) several).2 room
  rcases hexValueFrom_toDigits n with ⟨areDigits, value⟩
  rw [capitalHex, hexValueFrom_zeros, value, List.length_append, List.length_replicate, List.length_map]
  refine ⟨by omega, fun c member => ?_, rfl⟩
  rcases List.mem_append.1 member with zero | later
  · rw [(List.mem_replicate.1 zero).2]
    rfl
  · exact areDigits c later

/-! ## Double quotes -/

/-- What follows the text of a scalar in quotes after one more character. -/
def consText (c : Char) : Text × Text → Text × Text := fun (text, after) => (c :: text, after)

/-- Digits are read up to the last one that is missing. -/
theorem readDoubleQuoted_code {left value : Nat} {digits : Text} (length : digits.length = left + 1)
    (areDigits : AreHexDigits digits) (meant : charOf? (hexValueFrom value digits) = some c) (rest : Text) :
    readDoubleQuoted (.code left value) (digits ++ rest) =
      (readDoubleQuoted (.words .nothing) rest).map (consText c) := by
  induction digits generalizing left value with
  | nil => cases length
  | cons digit digits ih =>
      rcases List.forall_mem_cons.1 areDigits with ⟨isDigit, areDigits⟩
      rcases Option.isSome_iff_exists.1 isDigit with ⟨units, isValue⟩
      have further : hexValueFrom value (digit :: digits) = hexValueFrom (16 * value + units) digits := by
        rw [hexValueFrom, List.foldl_cons, isValue, Option.getD_some, hexValueFrom]
      rw [further] at meant
      rw [List.cons_append, readDoubleQuoted, isValue]
      cases left with
      | zero =>
          obtain rfl := List.eq_nil_of_length_eq_zero (Nat.succ.inj length)
          have isChar : charOf? (16 * value + units) = some c := meant
          simp only [isChar]
          rfl
      | succ left => exact ih (Nat.succ.inj length) areDigits meant

theorem charOf?_toNat (c : Char) : charOf? c.toNat = some c := by
  have valid : c.toNat.isValidChar := c.valid
  rw [charOf?, if_pos valid, Char.ofNat_toNat]

/-- What is written for a character reads back as the character: a backslash, and after it what a document may hold. -/
def Escapes (c : Char) (written : Text) : Prop :=
  ∃ letters, written = '\\' :: letters ∧ letters.all isAllowed = true ∧ ∀ rest,
    readDoubleQuoted .escape (letters ++ rest) = (readDoubleQuoted (.words .nothing) rest).map (consText c)

/-- An escape by a letter. -/
theorem escapes_letter {letter : Char} (printable : isPrintable letter = true) (inLine : isBreak letter = false)
    (meant : escaped? letter = some c) : Escapes c ['\\', letter] := by
  refine ⟨[letter], rfl, by rw [List.all_cons, isAllowed_of_isPrintable printable]; rfl, fun rest => ?_⟩
  rw [List.singleton_append, readDoubleQuoted, isHalfBreak_of_isPrintable printable, inLine, meant]
  rfl

/-- An escape by a number. -/
theorem escapes_number {letter : Char} {count : Nat} (printable : isPrintable letter = true)
    (inLine : isBreak letter = false) (noLetter : escaped? letter = none)
    (isLength : escapeLength? letter = some (count + 1)) (room : c.toNat < 16 ^ (count + 1)) :
    Escapes c (['\\', letter] ++ capitalHex (count + 1) c.toNat) := by
  rcases capitalHex_spec (Nat.succ_pos count) room with ⟨length, areDigits, value⟩
  have allowed : (capitalHex (count + 1) c.toNat).all isAllowed = true :=
    List.all_eq_true.2 fun digit member => isAllowed_of_hexDigitValue? (areDigits digit member)
  refine ⟨letter :: capitalHex (count + 1) c.toNat, rfl,
    by rw [List.all_cons, isAllowed_of_isPrintable printable, allowed]; rfl, fun rest => ?_⟩
  rw [List.cons_append, readDoubleQuoted, isHalfBreak_of_isPrintable printable, inLine, noLetter, isLength]
  exact readDoubleQuoted_code length areDigits (by rw [value, charOf?_toNat]) rest

theorem toNat_lt_of_isValidChar (c : Char) : c.toNat < 16 ^ 8 := by
  have valid : c.toNat.isValidChar := c.valid
  rcases valid with low | ⟨-, high⟩ <;> omega

/-- A character that is not written as it is has an escape. -/
theorem escapes_escapeChar (special : ¬(isPrintable c = true ∧ isBreak c = false ∧ c ≠ '"' ∧ c ≠ '\\')) :
    Escapes c (escapeChar c) := by
  have ofCode {letter : Char} {code : Nat} (same : c.toNat = code) (printable : isPrintable letter = true)
      (inLine : isBreak letter = false) (meant : escaped? letter = some (Char.ofNat code)) :
      Escapes c ['\\', letter] :=
    escapes_letter printable inLine (by rw [meant, ← same, Char.ofNat_toNat])
  unfold escapeChar
  refine iteInduction (fun quote => escapes_letter (by decide) (by decide) (by rw [quote]; rfl)) fun noQuote => ?_
  refine iteInduction (fun backslash => escapes_letter (by decide) (by decide) (by rw [backslash]; rfl))
    fun noBackslash => ?_
  refine iteInduction (fun ordinary => ?_) fun _ => ?_
  · rw [Bool.not_eq_true'] at ordinary
    exact absurd ⟨ordinary.1, ordinary.2, noQuote, noBackslash⟩ special
  -- The characters that have a letter.
  iterate 12 refine iteInduction (fun same => ofCode same (by decide) (by decide) rfl) fun _ => ?_
  -- What has no letter is written by its number, with as many digits as it needs.
  refine iteInduction (fun room => escapes_number (by decide) (by decide) rfl rfl (Nat.lt_succ_of_le room))
    fun _ => ?_
  refine iteInduction (fun room => escapes_number (by decide) (by decide) rfl rfl (Nat.lt_succ_of_le room))
    fun _ => ?_
  exact escapes_number (by decide) (by decide) rfl rfl (toNat_lt_of_isValidChar c)

/-- A character that is written as it is. -/
theorem escapeChar_eq_self (printable : isPrintable c = true) (inLine : isBreak c = false)
    (noQuote : c ≠ '"') (noBackslash : c ≠ '\\') : escapeChar c = [c] := by
  unfold escapeChar
  rw [if_neg noQuote, if_neg noBackslash, if_pos ⟨printable, by rw [inLine]; rfl⟩]

theorem all_isAllowed_escapeChar (c : Char) : (escapeChar c).all isAllowed = true := by
  by_cases ordinary : isPrintable c = true ∧ isBreak c = false ∧ c ≠ '"' ∧ c ≠ '\\'
  · rcases ordinary with ⟨printable, notBreak, noQuote, noBackslash⟩
    rw [escapeChar_eq_self printable notBreak noQuote noBackslash, List.all_cons, isAllowed_of_isPrintable printable]
    rfl
  · rcases escapes_escapeChar ordinary with ⟨letters, written, allowed, -⟩
    rw [written, List.all_cons, allowed]
    rfl

/-- Whatever the text, it reads back from between double quotes. -/
theorem readDoubleQuoted_body (inLine : filling.hasBreak = false) :
    readDoubleQuoted (.words filling) (text.flatMap escapeChar ++ '"' :: after) =
      some (filling.text ++ text, after) := by
  induction text generalizing filling with
  | nil =>
      rw [List.flatMap_nil, List.nil_append, readDoubleQuoted, filling.isBefore_of_hasBreak inLine, List.append_nil]
      rfl
  | cons c rest ih =>
      have goesOn : readDoubleQuoted (.words .nothing) (rest.flatMap escapeChar ++ '"' :: after) = some (rest, after) :=
        @ih .nothing rfl
      rw [List.flatMap_cons, List.append_assoc]
      by_cases ordinary : isPrintable c = true ∧ isBreak c = false ∧ c ≠ '"' ∧ c ≠ '\\'
      · rcases ordinary with ⟨printable, notBreak, noQuote, noBackslash⟩
        rw [escapeChar_eq_self printable notBreak noQuote noBackslash, List.singleton_append, readDoubleQuoted,
          isHalfBreak_of_isPrintable printable, notBreak, filling.isBefore_of_hasBreak inLine, if_neg noQuote,
          if_neg noBackslash]
        cases isBlank c with
        | true =>
            rcases filling.addBlank_spec inLine c with ⟨inLineRest, -, longer⟩
            change readDoubleQuoted (.words (filling.addBlank c)) _ = _
            rw [ih inLineRest, longer, List.append_assoc, List.singleton_append]
        | false =>
            rw [goesOn]
            rfl
      · rcases escapes_escapeChar ordinary with ⟨letters, written, -, readsBack⟩
        have isBackslash : readDoubleQuoted (.words filling) ('\\' :: (letters ++
            (rest.flatMap escapeChar ++ '"' :: after))) =
            (readDoubleQuoted .escape (letters ++ (rest.flatMap escapeChar ++ '"' :: after))).map
              fun (text, after) => (filling.text ++ text, after) := by
          rw [readDoubleQuoted, filling.isBefore_of_hasBreak inLine]
          rfl
        rw [written, List.cons_append, isBackslash, readsBack, goesOn]
        rfl

end AddonIndex.Yaml
