import AddonIndex.Proofs.ClassConfig.Expansion
import AddonIndex.Proofs.ClassConfig.LineBoundary

/-!
# Where every token is over

A token goes on as long as it can. Blanks, brackets, braces, colons, semicolons and commas can be part
of no token other than a string literal that was begun, so that the tokens of a text that is scanned
alone are the same before any of them.

So outside string literals no token goes on over a place in a line that is beside one of these. Such a
gap stays one when macros are expanded: the separator beside it is no part of a name, and stands
between the bodies that come in on both sides. A blank in a gap makes no difference to the tokens.
-/

namespace AddonIndex.ClassConfig

variable {macros : MacroTable} {text rest after front back line other : Text}

/-- Whether a character stands between tokens, or is a token by itself whatever stands beside it. -/
def isSeparator (c : Char) : Bool :=
  isBlank c || ['\x7b', '\x7d', '[', ']', ':', ';', ','].contains c

theorem isSeparator_of_isBlank {c : Char} (blank : isBlank c = true) : isSeparator c = true :=
  Bool.or_eq_true_iff.2 (.inl blank)

theorem isWordChar_of_isSeparator {c : Char} (separator : isSeparator c = true) :
    isWordChar c = false := by
  rcases Bool.or_eq_true_iff.1 separator with blank | mark
  · exact Arithmetic.isWordChar_of_isBlank blank
  · have inList := List.contains_iff_mem.1 mark
    simp only [List.mem_cons, List.not_mem_nil, or_false] at inList
    rcases inList with rfl | rfl | rfl | rfl | rfl | rfl | rfl <;> rfl

/-- Whether no token goes on into a text: it is over, or it begins with a separator. -/
def StopsToken (rest : Text) : Prop := ∀ c ∈ rest.head?, isSeparator c = true

@[simp]
theorem stopsToken_nil : StopsToken [] := by simp [StopsToken]

@[simp]
theorem stopsToken_cons_iff {c : Char} : StopsToken (c :: rest) ↔ isSeparator c = true := by
  simp [StopsToken]

namespace StopsToken

/-- A text in which no token goes on does not begin with a character that could be in one. -/
theorem head?_ne {c : Char} (stops : StopsToken rest) (other : isSeparator c = false) :
    rest.head? ≠ some c := by
  intro first
  rw [stops c first] at other
  cases other

theorem isSeparate (stops : StopsToken rest) : Arithmetic.IsSeparate rest :=
  fun c first => isWordChar_of_isSeparator (stops c first)

/-- No sign goes on into such a text either. -/
theorem splitWord_eq (stops : StopsToken rest) (numeric : Bool) (before : Char) :
    splitWord numeric before rest = ([], rest) := by
  cases rest with
  | nil => rfl
  | cons c rest =>
      have noWord : isWordChar c = false := stops.isSeparate c rfl
      have noMinus : c ≠ '-' := by
        rintro rfl
        exact stops.head?_ne (by decide) rfl
      have noPlus : c ≠ '+' := by
        rintro rfl
        exact stops.head?_ne (by decide) rfl
      simp [splitWord, noWord, isSign, noMinus, noPlus]

end StopsToken

/-- A word at the end of a text is over where no token goes on. -/
theorem splitWord_append_of_stopsToken {numeric : Bool} {before : Char} {word : Text}
    (split : splitWord numeric before text = (word, after)) (stops : StopsToken rest) :
    splitWord numeric before (text ++ rest) = (word, after ++ rest) := by
  cases after with
  | cons c after =>
      rw [splitWord_append_of_ne_nil (by simp [split]), split]
  | nil =>
      fun_induction splitWord numeric before text generalizing word with
      | case1 before =>
          cases split
          exact stops.splitWord_eq numeric before
      | case2 before c text inWord word after divided ih =>
          obtain ⟨rfl, rfl⟩ := Prod.mk.inj split
          rw [List.cons_append, splitWord, if_pos inWord, ih divided]
      | case3 => cases split

/-- A string literal at the end of a text is over where no other quote follows. -/
theorem splitString?_append_of_stopsToken {content : Text}
    (ends : splitString? text = some (content, after)) (stops : StopsToken rest) :
    splitString? (text ++ rest) = some (content, after ++ rest) := by
  cases after with
  | cons c after => exact splitString?_append ends (by simp) rest
  | nil =>
      have noQuote : rest.head? ≠ some '"' := stops.head?_ne (by decide)
      fun_induction splitString? text generalizing content with
      | case1 => cases ends
      | case2 =>
          cases ends
          cases rest with
          | nil => rfl
          | cons c rest =>
              have other : c ≠ '"' := fun isQuote => noQuote (congrArg some isQuote)
              simp [splitString?, other]
      | case3 text ih =>
          obtain ⟨⟨inner, tail⟩, found, same⟩ := Option.map_eq_some_iff.1 ends
          cases same
          simp [splitString?, ih found]
      | case4 text notLast =>
          cases ends
          exact (notLast rfl rfl).elim
      | case5 c text _ _ ordinary ih =>
          obtain ⟨⟨inner, tail⟩, found, same⟩ := Option.map_eq_some_iff.1 ends
          cases same
          simp [splitString?, ordinary, ih found]

theorem StopsToken.beginsWord_append {c : Char} (stops : StopsToken rest) (text : Text) :
    beginsWord c (text ++ rest) = beginsWord c text := by
  cases text with
  | cons next text => rfl
  | nil =>
      cases rest with
      | nil => rfl
      | cons next rest =>
          have noWord : isWordChar next = false := stops.isSeparate next rfl
          have noLiteral : next.isDigit = false ∧ (next == '.') = false := by
            revert noWord
            simp +contextual [isWordChar, Char.isAlphanum]
          simp [beginsWord, noLiteral]

/-- A token that is read from the whole of a text is read from it as well where no token goes on. -/
theorem readToken?_append_of_stopsToken {c : Char} {token : Token}
    (reads : readToken? c text = some (token, after)) (stops : StopsToken rest) :
    readToken? c (text ++ rest) = some (token, after ++ rest) := by
  unfold readToken? at reads
  split at reads
  case h_9 =>
    obtain ⟨⟨content, tail⟩, ends, same⟩ := Option.map_eq_some_iff.1 reads
    cases same
    simp [readToken?, splitString?_append_of_stopsToken ends stops]
  case h_10 =>
    rw [readToken?] <;> try assumption
    have sameHead : (text ++ rest).head? = some '=' ↔ text.head? = some '=' := by
      cases text with
      | nil => simpa using stops.head?_ne (c := '=') (by decide)
      | cons next text => rfl
    simp only [sameHead, stops.beginsWord_append]
    split at reads
    case isTrue sum =>
      cases reads
      obtain ⟨tail, rfl⟩ := List.head?_eq_some_iff.1 sum.2
      simp [sum.1]
    case isFalse noSum =>
      rw [if_neg noSum]
      split at reads
      case isTrue begins =>
        generalize divides : splitWord (beginsNumber c) c text = parts at reads
        cases reads
        rw [if_pos begins, splitWord_append_of_stopsToken divides stops]
      case isFalse noBegin =>
        cases reads
        rw [if_neg noBegin]
  all_goals
    cases reads
    rfl

/-- What is read of a text alone is read of it where no token goes on, too. -/
theorem Passes.append_of_stopsToken {line next : Nat} {lexemes : List Lexeme} {left : Text}
    (passes : Passes line text lexemes next left) (stops : StopsToken rest) :
    Passes line (text ++ rest) lexemes next (left ++ rest) := by
  induction passes with
  | refl line text => exact .refl line _
  | lineFeed _ ih => exact .lineFeed ih
  | blank ordinary blank _ ih => exact .blank ordinary blank ih
  | token visible reads _ ih =>
      exact .token visible (readToken?_append_of_stopsToken reads stops) ih

/-- The tokens on the way of the scanner are those that it gives before the rest. -/
theorem Passes.scanFrom_eq {line next : Nat} {lexemes : List Lexeme}
    (passes : Passes line text lexemes next rest) :
    scanFrom line text = (scanFrom next rest).map (lexemes ++ ·) := by
  induction passes with
  | refl line text => cases scanFrom line text <;> rfl
  | lineFeed _ ih => rw [scanFrom, if_pos rfl, ih]
  | blank ordinary blank _ ih => rw [scanFrom, if_neg ordinary, if_pos blank, ih]
  | @token _ next _ _ _ rest _ _ visible reads _ ih =>
      rw [scanFrom_token visible reads, ih]
      cases scanFrom next rest <;> rfl

theorem Passes.scans {line next : Nat} {lexemes : List Lexeme}
    (passes : Passes line text lexemes next rest) :
    Scans text (lexemes.map Lexeme.token) rest := by
  induction passes with
  | refl line text => exact scans_refl text
  | lineFeed _ ih => exact (scans_blank (by decide) _).trans ih
  | blank _ blank _ ih => exact (scans_blank blank _).trans ih
  | token visible reads _ ih => exact (scans_token visible reads).trans ih

/-- Where no token goes on, a text is scanned as it would be alone. -/
theorem scans_append_of_stopsToken {lexemes : List Lexeme} (scanned : scan text = .ok lexemes)
    (stops : StopsToken rest) : Scans (text ++ rest) (lexemes.map Lexeme.token) rest := by
  obtain ⟨next, passes⟩ := passes_of_scanFrom_eq_ok scanned
  exact (passes.append_of_stopsToken stops).scans

/-! ## Gaps in a line -/

/-- Whether no token goes on from one part of a line to the other one: no string literal is open, and
a separator or an end of the line is at the gap. -/
structure IsGap (front back : Text) : Prop where
  closed : Even (front.count '"')
  apart : (∀ c ∈ front.getLast?, isSeparator c = true) ∨ StopsToken back

/-- Whether the second line is the first one, in which every string literal ends, or the first one with
a blank in a gap. -/
inductive SpacesOut : Text → Text → Prop
  | refl {line : Text} (closed : Even (line.count '"')) : SpacesOut line line
  | blank {front back : Text} (gap : IsGap front back) (closed : Even (back.count '"')) :
      SpacesOut (front ++ back) (front ++ ' ' :: back)

theorem SpacesOut.closed (spaces : SpacesOut line other) : Even (line.count '"') := by
  cases spaces with
  | refl closed => exact closed
  | blank gap closed =>
      rw [List.count_append]
      exact gap.closed.add closed

theorem SpacesOut.closed_other (spaces : SpacesOut line other) : Even (other.count '"') := by
  cases spaces with
  | refl closed => exact closed
  | blank gap closed =>
      rw [List.count_append, List.count_cons_of_ne (by decide)]
      exact gap.closed.add closed

theorem ne_quote_of_isSeparator {c : Char} (separator : isSeparator c = true) : c ≠ '"' := by
  rintro rfl
  revert separator
  decide

theorem isIdentifierChar_of_isSeparator {c : Char} (separator : isSeparator c = true) :
    isIdentifierChar c = false := by
  have noWord := isWordChar_of_isSeparator separator
  unfold isWordChar at noWord
  exact (Bool.or_eq_false_iff.1 noWord).1

theorem StopsToken.endsRun (stops : StopsToken rest) : EndsRun rest :=
  fun c first => isIdentifierChar_of_isSeparator (stops c first)

/-- A gap is at the beginning of the line, behind a separator, or before a text into which no token
goes on. -/
theorem IsGap.cases (gap : IsGap front back) :
    front = [] ∨ (∃ before c, front = before ++ [c] ∧ isSeparator c = true ∧ Even (before.count '"')) ∨
      StopsToken back := by
  rcases gap.apart with separator | stops
  · rcases List.eq_nil_or_concat front with rfl | ⟨before, c, rfl⟩
    · exact .inl rfl
    · rw [List.concat_eq_append] at separator
      have isSeparator := separator c (by simp)
      have closed := gap.closed
      rw [List.concat_eq_append, List.count_append,
        List.count_singleton, if_neg (by simpa using ne_quote_of_isSeparator isSeparator)] at closed
      exact .inr (.inl ⟨before, c, List.concat_eq_append, isSeparator, closed⟩)
  · exact .inr (.inr stops)

/-! ## Macros on both sides of a gap -/

/-- At a gap a line falls into the segments of its parts, also with a blank in the gap. -/
theorem IsGap.exists_divides_append (gap : IsGap front back) :
    ∃ segments others, Divides segments front ∧ Divides others back ∧
      Divides (segments ++ others) (front ++ back) ∧
      Divides (segments ++ .mark ' ' :: others) (front ++ ' ' :: back) := by
  obtain ⟨others, backDivides⟩ := exists_divides back
  have spaced : Divides (.mark ' ' :: others) (' ' :: back) := .mark (by decide) (by decide) backDivides
  have blankEnds : EndsRun (' ' :: back) := endsRun_cons (by decide)
  rcases gap.cases with rfl | ⟨before, c, rfl, separator, closed⟩ | stops
  · exact ⟨[], others, .nil, backDivides, backDivides, spaced⟩
  · obtain ⟨inner, divides⟩ := exists_divides before
    have ends (more : Text) : EndsRun (c :: more) := endsRun_cons (isIdentifierChar_of_isSeparator separator)
    have behind {segments : List Segment} {more : Text} (later : Divides segments more) :
        Divides (inner ++ .mark c :: segments) (before ++ c :: more) :=
      divides.append (divides.closed_of_even closed)
        (.mark (isIdentifierChar_of_isSeparator separator) (ne_quote_of_isSeparator separator) later) (ends more)
    exact ⟨inner ++ [.mark c], others, behind .nil, backDivides,
      by simpa using behind backDivides, by simpa using behind spaced⟩
  · obtain ⟨segments, divides⟩ := exists_divides front
    have noneOpen := divides.closed_of_even gap.closed
    exact ⟨segments, others, divides, backDivides, divides.append noneOpen backDivides stops.endsRun,
      divides.append noneOpen spaced blankEnds⟩

/-- A pass replaces the macros on both sides of a gap, and leaves a blank in the gap. -/
theorem IsGap.expandOnce_append (gap : IsGap front back) (macros : MacroTable) :
    expandOnce macros (front ++ back) = expandOnce macros front ++ expandOnce macros back ∧
      expandOnce macros (front ++ ' ' :: back) =
        expandOnce macros front ++ ' ' :: expandOnce macros back := by
  obtain ⟨segments, others, divides, backDivides, whole, spaced⟩ := gap.exists_divides_append
  simp [divides.expandOnce_eq, backDivides.expandOnce_eq, whole.expandOnce_eq, spaced.expandOnce_eq,
    Segment.body?, Segment.text]

theorem IsGap.hasReplaceable_eq (gap : IsGap front back) (macros : MacroTable) :
    hasReplaceable macros (front ++ ' ' :: back) = hasReplaceable macros (front ++ back) := by
  obtain ⟨segments, others, -, -, whole, spaced⟩ := gap.exists_divides_append
  have same : hasReplaceable macros (front ++ ' ' :: back) = false ↔
      hasReplaceable macros (front ++ back) = false := by
    rw [whole.hasReplaceable_iff, spaced.hasReplaceable_iff]
    simp only [List.forall_mem_append, List.forall_mem_cons]
    exact and_congr_right fun _ => and_iff_right rfl
  exact Bool.eq_iff_iff.2 (by simpa using not_congr same)

theorem isGap_singleton {c : Char} (separator : isSeparator c = true) (back : Text) :
    IsGap [c] back where
  closed := by simp [ne_quote_of_isSeparator separator]
  apart := .inl (by simpa using separator)

theorem expandOnce_singleton {c : Char} (separator : isSeparator c = true) (macros : MacroTable) :
    expandOnce macros [c] = [c] := by
  simp [expandOnce, pieces, piecesFrom, isIdentifierChar_of_isSeparator separator,
    ne_quote_of_isSeparator separator, PieceMode.flush, Piece.replaced]

/-- Whether no body of an object-like macro leaves a string literal open. -/
def ClosesBodies (macros : MacroTable) : Prop :=
  ∀ item ∈ macros, item.2.parameters = none → Even (item.2.body.count '"')

/-- No name has a quote in it. -/
theorem Divides.count_quote_of_mem {segments : List Segment} {name : Text} (divides : Divides segments line)
    (member : .word name ∈ segments) : name.count '"' = 0 := by
  induction divides with
  | nil => cases member
  | word isRun _ _ ih =>
      rcases List.mem_cons.1 member with same | later
      · cases same
        exact isRun.count_quote
      · exact ih later
  | unclosed => simp at member
  | _ =>
      rename_i ih
      rcases List.mem_cons.1 member with same | later
      · cases same
      · exact ih later

/-- A pass puts as many quotes in the place of a segment as there were, up to an even number. -/
theorem Divides.even_count_replaced_iff {segments : List Segment} {segment : Segment}
    (divides : Divides segments line) (closes : ClosesBodies macros) (member : segment ∈ segments) :
    Even (((segment.body? macros).getD segment.text).count '"') ↔ Even (segment.text.count '"') := by
  cases segment with
  | word name =>
      cases isMacro : objectBody? macros name with
      | none => simp [Segment.body?, isMacro, Segment.text]
      | some body =>
          simpa [Segment.body?, isMacro, Segment.text, divides.count_quote_of_mem member] using
            closes _ (mem_of_objectBody?_eq_some isMacro) rfl
  | _ => rfl

/-- A pass leaves a string literal open exactly if one was open before. -/
theorem even_count_expandOnce_iff (closes : ClosesBodies macros) :
    Even ((expandOnce macros line).count '"') ↔ Even (line.count '"') := by
  obtain ⟨segments, divides⟩ := exists_divides line
  have each : ∀ segment ∈ segments,
      (Even (((segment.body? macros).getD segment.text).count '"') ↔ Even (segment.text.count '"')) :=
    fun _ member => divides.even_count_replaced_iff closes member
  rw [divides.expandOnce_eq, ← divides.flatMap_text]
  clear divides
  induction segments with
  | nil => rfl
  | cons segment segments ih =>
      rcases List.forall_mem_cons.1 each with ⟨first, others⟩
      rw [List.flatMap_cons, List.flatMap_cons, List.count_append, List.count_append, Nat.even_add,
        Nat.even_add]
      exact iff_congr first (ih others)

/-- A gap is left by a pass. -/
theorem IsGap.expandOnce (gap : IsGap front back) (closes : ClosesBodies macros) :
    IsGap (expandOnce macros front) (expandOnce macros back) where
  closed := (even_count_expandOnce_iff closes).2 gap.closed
  apart := by
    rcases gap.cases with rfl | ⟨before, c, rfl, separator, closed⟩ | stops
    · exact .inl (by simp [ClassConfig.expandOnce, pieces, piecesFrom, PieceMode.flush])
    · have inner : IsGap before [c] := ⟨closed, .inr (stopsToken_cons_iff.2 separator)⟩
      rw [(inner.expandOnce_append macros).1, expandOnce_singleton separator]
      exact .inl (by simpa using separator)
    · cases back with
      | nil => exact .inr (by simp [ClassConfig.expandOnce, pieces, piecesFrom, PieceMode.flush])
      | cons c back =>
          have separator := stopsToken_cons_iff.1 stops
          have whole := ((isGap_singleton separator back).expandOnce_append macros).1
          rw [expandOnce_singleton separator] at whole
          exact .inr (show StopsToken (ClassConfig.expandOnce macros ([c] ++ back)) by
            rw [whole]
            exact stopsToken_cons_iff.2 separator)

/-- A blank in a gap of a line is in a gap of the expanded line. -/
theorem SpacesOut.expandPasses (spaces : SpacesOut line other) (closes : ClosesBodies macros)
    (passes : Nat) : SpacesOut (expandPasses macros passes line) (expandPasses macros passes other) := by
  induction passes generalizing line other with
  | zero => exact spaces
  | succ passes ih =>
      cases spaces with
      | refl closed =>
          rw [ClassConfig.expandPasses]
          split
          · exact ih (.refl ((even_count_expandOnce_iff closes).2 closed))
          · exact .refl closed
      | @blank front back gap closed =>
          obtain ⟨whole, spaced⟩ := gap.expandOnce_append macros
          rw [ClassConfig.expandPasses, ClassConfig.expandPasses, gap.hasReplaceable_eq, whole, spaced]
          split
          · exact ih (.blank (gap.expandOnce closes) ((even_count_expandOnce_iff closes).2 closed))
          · exact .blank gap closed

/-! ## Tokens on both sides of a gap -/

/-- A string literal takes the quote at its end and an even number of others. -/
theorem even_count_of_splitString? {content after : Text}
    (ends : splitString? text = some (content, after)) :
    Even (text.count '"') ↔ ¬ Even (after.count '"') := by
  fun_induction splitString? text generalizing content after with
  | case1 => cases ends
  | case2 =>
      cases ends
      decide
  | case3 rest ih =>
      obtain ⟨⟨inner, tail⟩, found, same⟩ := Option.map_eq_some_iff.1 ends
      cases same
      simpa [Nat.even_add_one] using ih found
  | case4 rest =>
      cases ends
      simp [Nat.even_add_one]
  | case5 c rest _ _ ordinary ih =>
      obtain ⟨⟨inner, tail⟩, found, same⟩ := Option.map_eq_some_iff.1 ends
      cases same
      simpa [List.count_cons_of_ne ordinary] using ih found

/-- A string literal that does not end has an even number of quotes behind its first one. -/
theorem even_count_of_splitString?_eq_none (unended : splitString? text = none) :
    Even (text.count '"') := by
  fun_induction splitString? text with
  | case1 => decide
  | case2 => cases unended
  | case3 rest ih =>
      have later := ih (Option.map_eq_none_iff.1 unended)
      simpa [Nat.even_add_one] using later
  | case4 => cases unended
  | case5 c rest _ _ ordinary ih =>
      have later := ih (Option.map_eq_none_iff.1 unended)
      simpa [List.count_cons_of_ne ordinary] using later

/-- A token takes an even number of quotes. -/
theorem even_count_of_readToken? {c : Char} {after : Text} {token : Token}
    (reads : readToken? c text = some (token, after)) :
    Even ((c :: text).count '"') ↔ Even (after.count '"') := by
  unfold readToken? at reads
  split at reads
  case h_9 =>
    obtain ⟨⟨content, tail⟩, ends, same⟩ := Option.map_eq_some_iff.1 reads
    cases same
    rw [List.count_cons_self, Nat.even_add_one, even_count_of_splitString? ends, not_not]
  case h_10 noQuote =>
    rw [List.count_cons_of_ne noQuote]
    split at reads
    case isTrue sum =>
      obtain ⟨tail, rfl⟩ := List.head?_eq_some_iff.1 sum.2
      cases reads
      simp
    case isFalse =>
      split at reads
      case isTrue =>
        have parts := splitWord_append (beginsNumber c) c text
        have inWord : '"' ∉ (splitWord (beginsNumber c) c text).1 := notMem_splitWord (by decide) (by decide) _ c text
        cases reads
        rw [← parts, List.count_append, List.count_eq_zero.2 inWord, Nat.zero_add, parts]
      case isFalse =>
        cases reads
        rfl
  all_goals
    cases reads
    simp

/-- The scanner passes an even number of quotes. -/
theorem Passes.even_count_iff {line next : Nat} {lexemes : List Lexeme}
    (passes : Passes line text lexemes next rest) :
    Even (text.count '"') ↔ Even (rest.count '"') := by
  induction passes with
  | refl => rfl
  | lineFeed _ ih => simpa using ih
  | blank _ blank _ ih =>
      rwa [List.count_cons_of_ne (ne_quote_of_isSeparator (isSeparator_of_isBlank blank))]
  | token _ reads _ ih => exact (even_count_of_readToken? reads).trans ih

/-- A text in which every string literal ends is scanned to its end. -/
theorem exists_passes_of_even (closed : Even (text.count '"')) (line : Nat) :
    ∃ lexemes next, Passes line text lexemes next [] := by
  cases scanned : scanFrom line text with
  | ok lexemes =>
      obtain ⟨next, passes⟩ := passes_of_scanFrom_eq_ok scanned
      exact ⟨lexemes, next, passes⟩
  | error failure =>
      obtain ⟨passed, after, passes, unended⟩ := passes_of_scanFrom_eq_error scanned
      have odd := passes.even_count_iff.1 closed
      rw [List.count_cons_self, Nat.even_add_one] at odd
      exact absurd (even_count_of_splitString?_eq_none unended) odd

theorem Passes.trans {line middle next : Nat} {between : Text} {lexemes others : List Lexeme}
    (first : Passes line text lexemes middle between) (second : Passes middle between others next rest) :
    Passes line text (lexemes ++ others) next rest := by
  induction first with
  | refl => exact second
  | lineFeed _ ih => exact .lineFeed (ih second)
  | blank ordinary blank _ ih => exact .blank ordinary blank (ih second)
  | token visible reads _ ih => exact .token visible reads (ih second)

/-- A separator is passed by itself. -/
theorem exists_passes_separator {c : Char} (separator : isSeparator c = true) (line : Nat) :
    ∃ lexemes next, ∀ rest, Passes line (c :: rest) lexemes next rest := by
  by_cases feed : c = '\n'
  · subst feed
    exact ⟨[], line + 1, fun rest => .lineFeed (.refl _ rest)⟩
  · rcases Bool.or_eq_true_iff.1 separator with blank | mark
    · exact ⟨[], line, fun rest => .blank feed blank (.refl _ rest)⟩
    · have inList := List.contains_iff_mem.1 mark
      simp only [List.mem_cons, List.not_mem_nil, or_false] at inList
      rcases inList with rfl | rfl | rfl | rfl | rfl | rfl | rfl <;>
        exact ⟨_, _, fun rest => .token (by decide) rfl (.refl _ rest)⟩

/-- What stands before a gap is passed in the same way with a blank in the gap. -/
theorem IsGap.exists_passes (gap : IsGap front back) (line : Nat) :
    ∃ lexemes next, ∀ more,
      Passes line (front ++ (back ++ '\n' :: more)) lexemes next (back ++ '\n' :: more) ∧
        Passes line (front ++ ' ' :: (back ++ '\n' :: more)) lexemes next (back ++ '\n' :: more) := by
  have skip {next : Nat} (more : Text) : Passes next (' ' :: more) [] next more :=
    .blank (by decide) (by decide) (.refl next more)
  -- It is enough to pass it before any of the two texts.
  suffices passes : ∃ lexemes next, ∀ more, ∀ rest ∈ [back ++ '\n' :: more, ' ' :: (back ++ '\n' :: more)],
      Passes line (front ++ rest) lexemes next rest by
    obtain ⟨lexemes, next, passes⟩ := passes
    refine ⟨lexemes, next, fun more => ⟨passes more _ (by simp), ?_⟩⟩
    simpa using (passes more _ (by simp)).trans (skip (back ++ '\n' :: more))
  rcases gap.cases with rfl | ⟨before, c, rfl, separator, closed⟩ | stops
  · exact ⟨[], line, fun more rest _ => .refl line rest⟩
  · obtain ⟨lexemes, middle, passes⟩ := exists_passes_of_even closed line
    obtain ⟨others, next, passesOn⟩ := exists_passes_separator separator middle
    refine ⟨lexemes ++ others, next, fun more rest _ => ?_⟩
    have first : Passes line (before ++ c :: rest) lexemes middle (c :: rest) :=
      passes.append_of_stopsToken (stopsToken_cons_iff.2 separator)
    simpa using first.trans (passesOn rest)
  · obtain ⟨lexemes, next, passes⟩ := exists_passes_of_even gap.closed line
    refine ⟨lexemes, next, fun more rest member => passes.append_of_stopsToken ?_⟩
    simp only [List.mem_cons, List.not_mem_nil, or_false] at member
    rcases member with rfl | rfl
    · cases back with
      | nil => exact stopsToken_cons_iff.2 (by decide)
      | cons c back => exact stopsToken_cons_iff.2 (stopsToken_cons_iff.1 stops)
    · exact stopsToken_cons_iff.2 (by decide)

theorem exists_passes_line (closed : Even (line.count '"')) (number : Nat) :
    ∃ lexemes next, ∀ more, Passes number (line ++ '\n' :: more) lexemes next more := by
  obtain ⟨lexemes, next, passes⟩ := exists_passes_of_even closed number
  refine ⟨lexemes, next + 1, fun more => ?_⟩
  have whole : Passes number (line ++ '\n' :: more) lexemes next ('\n' :: more) :=
    passes.append_of_stopsToken (stopsToken_cons_iff.2 (by decide))
  simpa using whole.trans (.lineFeed (.refl _ more))

/-- A line is passed in the same way with a blank in a gap. -/
theorem SpacesOut.exists_passes (spaces : SpacesOut line other) (number : Nat) :
    ∃ lexemes next, ∀ more, Passes number (line ++ '\n' :: more) lexemes next more ∧
      Passes number (other ++ '\n' :: more) lexemes next more := by
  cases spaces with
  | refl closed =>
      obtain ⟨lexemes, next, passes⟩ := exists_passes_line closed number
      exact ⟨lexemes, next, fun more => ⟨passes more, passes more⟩⟩
  | @blank front back gap closed =>
      obtain ⟨lexemes, middle, passes⟩ := gap.exists_passes number
      obtain ⟨others, next, passesOn⟩ := exists_passes_line closed middle
      refine ⟨lexemes ++ others, next, fun more => ?_⟩
      obtain ⟨plain, spaced⟩ := passes more
      exact ⟨by simpa using plain.trans (passesOn more), by simpa using spaced.trans (passesOn more)⟩

/-- Lines are scanned as the same tokens with blanks in gaps, on the same lines. -/
theorem scanFrom_endLines_eq {lines others : List Text} (spaces : List.Forall₂ SpacesOut lines others)
    (number : Nat) : scanFrom number (endLines others) = scanFrom number (endLines lines) := by
  induction spaces generalizing number with
  | nil => rfl
  | @cons line other lines others first _ ih =>
      obtain ⟨lexemes, next, passes⟩ := first.exists_passes number
      have spaced := (passes (endLines others)).2.scanFrom_eq
      have plain := (passes (endLines lines)).1.scanFrom_eq
      simp only [endLines, List.flatMap_cons, List.append_assoc, List.singleton_append] at spaced plain ih ⊢
      rw [spaced, plain, ih]

/-- Lines are read as the same with blanks in gaps. -/
theorem readText_endLines_eq {lines others : List Text} (spaces : List.Forall₂ SpacesOut lines others)
    (path : Path) : readText path (endLines others) = readText path (endLines lines) := by
  rw [readText, readText, scan, scan, scanFrom_endLines_eq spaces]

end AddonIndex.ClassConfig
