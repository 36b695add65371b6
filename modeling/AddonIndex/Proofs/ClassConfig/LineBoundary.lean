import AddonIndex.Proofs.ClassConfig.Expression
import AddonIndex.Proofs.ClassConfig.PhysicalLine
import AddonIndex.Proofs.ClassConfig.TokenLine

/-!
# Cutting a text at the end of a line

No stage looks back past the end of a line, apart from what it is inside of there: a comment, a
logical line or a string literal. So what a text gives is what its lines up to some point give,
and then what the rest gives, begun in the state that the lines before have led to.
-/

namespace AddonIndex

namespace Text

variable {before line rest : Text}

/-- What is left of an ended text after some of it is ended. -/
theorem IsEnded.of_append (ended : IsEnded (before ++ rest)) : IsEnded rest := by
  cases rest with
  | nil => exact .inl rfl
  | cons c rest =>
      rcases ended with empty | feed
      · simp at empty
      · exact .inr (by simpa [List.getLast?_append] using feed)

theorem feedLines_append (ended : IsEnded before) (rest : Text) :
    feedLines (before ++ rest) = feedLines before ++ feedLines rest := by
  induction before with
  | nil => rfl
  | cons c before ih =>
      by_cases lineFeed : c = '\n'
      · subst lineFeed
        rw [List.cons_append, feedLines_lineFeed, feedLines_lineFeed,
          ih (isEnded_lineFeed_iff.1 ended), List.cons_append]
      · obtain ⟨nonempty, endedRest⟩ := (isEnded_cons_iff lineFeed).1 ended
        rw [List.cons_append, feedLines_cons lineFeed, feedLines_cons lineFeed, ih endedRest]
        cases lines : feedLines before with
        | nil => exact absurd (feedLines_eq_nil_iff.1 lines) nonempty
        | cons first others => rfl

theorem feedLines_eq_singleton (ordinary : '\n' ∉ line) (nonempty : line ≠ []) :
    feedLines line = [line] := by
  induction line with
  | nil => exact absurd rfl nonempty
  | cons c line ih =>
      rw [feedLines_cons (List.ne_of_not_mem_cons ordinary).symm]
      cases line with
      | nil => rfl
      | cons next line =>
          rw [ih (List.not_mem_of_not_mem_cons ordinary) (List.cons_ne_nil _ _)]
          rfl

/-- A line is over at a line feed or at the end of the text. -/
theorem feedLines_line (ordinary : '\n' ∉ line) (nonempty : line ≠ [])
    (stops : ∀ c ∈ rest.head?, c = '\n') : feedLines (line ++ rest) = line :: feedLines rest.tail := by
  cases rest with
  | nil => simpa using feedLines_eq_singleton ordinary nonempty
  | cons c rest =>
      obtain rfl := stops c rfl
      exact feedLines_append_lineFeed ordinary rest

end Text

namespace ClassConfig

open Text

variable {before rest text : Text}

/-! ## Comments -/

/-- What the scanner for comments is inside of after a text. -/
def CommentMode.after : CommentMode → Text → CommentMode
  | mode, [] => mode
  | .code, '/' :: '/' :: rest => after .lineComment rest
  | .code, '/' :: '*' :: rest => after (.blockComment false) rest
  | .code, c :: rest => after (if c = '"' then .string else .code) rest
  | .string, c :: rest => after (if c = '"' ∨ c = '\n' then .code else .string) rest
  | .lineComment, c :: rest => after (if c = '\n' then .code else .lineComment) rest
  | .blockComment star, c :: rest =>
      after (if c = '\n' then .blockComment false
        else if star ∧ c = '/' then .code
        else .blockComment (c == '*')) rest

/-- A slash begins a comment only before another slash or a star. -/
theorem stripCommentsFrom_code {c : Char}
    (apart : c = '/' → text.head? ≠ some '/' ∧ text.head? ≠ some '*') :
    stripCommentsFrom .code (c :: text) =
        c :: stripCommentsFrom (if c = '"' then .string else .code) text ∧
      CommentMode.code.after (c :: text) =
        (if c = '"' then CommentMode.string else .code).after text := by
  have noLine : ∀ rest, c = '/' → text = '/' :: rest → False := by
    rintro rest slash rfl
    exact (apart slash).1 rfl
  have noBlock : ∀ rest, c = '/' → text = '*' :: rest → False := by
    rintro rest slash rfl
    exact (apart slash).2 rfl
  exact ⟨by rw [stripCommentsFrom] <;> assumption, by rw [CommentMode.after] <;> assumption⟩

theorem getLast?_cons_eq_lineFeed_iff {c : Char} :
    (c :: text).getLast? = some '\n' ↔ text.getLast? = some '\n' ∨ text = [] ∧ c = '\n' := by
  cases text <;> simp [List.getLast?_cons_cons]

/-- The line feed at the end of a text stays when comments are removed. -/
theorem getLast?_stripCommentsFrom (mode : CommentMode) (feed : text.getLast? = some '\n') :
    (stripCommentsFrom mode text).getLast? = some '\n' := by
  have kept {c : Char} {rest : Text} {mode : CommentMode} (feed : (c :: rest).getLast? = some '\n')
      (later : rest.getLast? = some '\n' → (stripCommentsFrom mode rest).getLast? = some '\n') :
      (c :: stripCommentsFrom mode rest).getLast? = some '\n' := by
    rcases getLast?_cons_eq_lineFeed_iff.1 feed with feed | ⟨rfl, rfl⟩
    · exact getLast?_cons_eq_lineFeed_iff.2 (.inl (later feed))
    · simp [stripCommentsFrom]
  have removed {c : Char} {rest : Text} (ordinary : c ≠ '\n')
      (feed : (c :: rest).getLast? = some '\n') : rest.getLast? = some '\n' :=
    (getLast?_cons_eq_lineFeed_iff.1 feed).resolve_right fun last => ordinary last.2
  fun_induction stripCommentsFrom mode text with
  | case1 => exact feed
  | case2 rest ih => exact ih (removed (by decide) (removed (by decide) feed))
  | case3 rest ih => exact ih (removed (by decide) (removed (by decide) feed))
  | case4 c rest _ _ ih => exact kept feed ih
  | case5 c rest ih => exact kept feed ih
  | case6 rest ih => exact kept feed ih
  | case7 c rest ordinary ih => exact ih (removed ordinary feed)
  | case8 star rest ih => exact kept feed ih
  | case9 star c rest ordinary _ ih => exact ih (removed ordinary feed)
  | case10 star c rest ordinary _ ih => exact ih (removed ordinary feed)

/-- What is left of an ended text without its comments is ended. -/
theorem isEnded_stripCommentsFrom (mode : CommentMode) (ended : IsEnded text) :
    IsEnded (stripCommentsFrom mode text) := by
  rcases ended with rfl | feed
  · exact .inl (by cases mode <;> rfl)
  · exact .inr (getLast?_stripCommentsFrom mode feed)

/-- Comments are removed from a text, and then from what follows, if the text does not end in a slash
that could begin a comment. -/
theorem stripCommentsFrom_append_of_getLast?_ne (mode : CommentMode)
    (apart : (stripCommentsFrom mode before).getLast? ≠ some '/') (rest : Text) :
    stripCommentsFrom mode (before ++ rest) =
      stripCommentsFrom mode before ++ stripCommentsFrom (mode.after before) rest := by
  have later {c : Char} {text : Text} (apart : (c :: text).getLast? ≠ some '/') :
      text.getLast? ≠ some '/' := by
    intro slash
    exact apart (by simp [List.getLast?_cons, slash])
  fun_induction stripCommentsFrom mode before with
  | case1 => simp [CommentMode.after]
  | case2 before ih => simpa [stripCommentsFrom, CommentMode.after] using ih apart
  | case3 before ih => simpa [stripCommentsFrom, CommentMode.after] using ih apart
  | case4 c before noLine noBlock ih =>
      -- If the character is a slash, it is not the last one, so that what follows makes no comment of it.
      have noComment (more : Text) : c = '/' →
          (before ++ more).head? ≠ some '/' ∧ (before ++ more).head? ≠ some '*' := by
        rintro rfl
        cases before with
        | nil => exact absurd rfl apart
        | cons next before =>
            constructor
            · rintro ⟨⟩
              exact noLine before rfl rfl
            · rintro ⟨⟩
              exact noBlock before rfl rfl
      have whole := stripCommentsFrom_code (noComment [])
      rw [List.append_nil] at whole
      rw [List.cons_append, (stripCommentsFrom_code (noComment rest)).1, whole.2, ih (later apart),
        List.cons_append]
  | case5 c before ih => simpa [stripCommentsFrom, CommentMode.after] using ih (later apart)
  | case6 before ih => simpa [stripCommentsFrom, CommentMode.after] using ih (later apart)
  | case7 c before ordinary ih =>
      simpa [stripCommentsFrom, CommentMode.after, ordinary] using ih apart
  | case8 star before ih => simpa [stripCommentsFrom, CommentMode.after] using ih (later apart)
  | case9 star c before ordinary ends ih =>
      simpa [stripCommentsFrom, CommentMode.after, ordinary, ends] using ih apart
  | case10 star c before ordinary goesOn ih =>
      simpa [stripCommentsFrom, CommentMode.after, ordinary, goesOn] using ih apart

/-- Comments are removed from the lines of a text, and then from what follows. -/
theorem stripCommentsFrom_append (mode : CommentMode) (ended : IsEnded before) (rest : Text) :
    stripCommentsFrom mode (before ++ rest) =
      stripCommentsFrom mode before ++ stripCommentsFrom (mode.after before) rest := by
  refine stripCommentsFrom_append_of_getLast?_ne mode ?_ rest
  rcases isEnded_stripCommentsFrom mode ended with empty | feed
  · simp [empty]
  · simp [feed]

/-! ## Logical lines -/

theorem physicalLines_append (ended : IsEnded before) (rest : Text) :
    physicalLines (before ++ rest) = physicalLines before ++ physicalLines rest := by
  rw [physicalLines, feedLines_append ended, List.map_append]
  rfl

/-- Whether the last of some lines is not continued. -/
def EndsUncontinued (lines : List Text) : Prop :=
  ∀ line ∈ lines.getLast?, isContinued line = false

theorem EndsUncontinued.tail {line next : Text} {lines : List Text}
    (ends : EndsUncontinued (line :: next :: lines)) : EndsUncontinued (next :: lines) := by
  rwa [EndsUncontinued, List.getLast?_cons_cons] at ends

theorem joinedLine_append {lines : List Text} (nonempty : lines ≠ []) (ends : EndsUncontinued lines)
    (others : List Text) : joinedLine (lines ++ others) = joinedLine lines := by
  induction lines with
  | nil => exact absurd rfl nonempty
  | cons line lines ih =>
      cases lines with
      | nil =>
          have apart : Text.dropEnding? ['\\'] line = none := by
            simpa [isContinued] using ends line rfl
          simp [joinedLine, apart]
      | cons next lines =>
          have later := ih (List.cons_ne_nil _ _) ends.tail
          rw [List.cons_append, joinedLine, later]
          rfl

theorem linesInPlace_append (continued : Bool) {lines : List Text} (nonempty : lines ≠ [])
    (ends : EndsUncontinued lines) (others : List Text) :
    linesInPlace continued (lines ++ others) =
      linesInPlace continued lines ++ linesInPlace false others := by
  induction lines generalizing continued with
  | nil => exact absurd rfl nonempty
  | cons line lines ih =>
      rw [List.cons_append, linesInPlace, ← List.cons_append, joinedLine_append nonempty ends]
      cases lines with
      | nil => rw [List.nil_append, ends line rfl]; rfl
      | cons next lines => rw [ih _ (List.cons_ne_nil _ _) ends.tail]; rfl

/-- A logical line is over where a physical one is not continued. -/
theorem logicalLines_append (ended : IsEnded before) (ends : EndsUncontinued (physicalLines before))
    (rest : Text) : logicalLines (before ++ rest) = logicalLines before ++ logicalLines rest := by
  rw [logicalLines_eq, logicalLines_eq, logicalLines_eq, physicalLines_append ended]
  by_cases empty : physicalLines before = []
  · rw [empty]
    rfl
  · exact linesInPlace_append false empty ends _

/-! ## Tokens -/

theorem splitWord_append_of_ne_nil {numeric : Bool} {last : Char}
    (stops : (splitWord numeric last text).2 ≠ []) (more : Text) :
    splitWord numeric last (text ++ more) =
      ((splitWord numeric last text).1, (splitWord numeric last text).2 ++ more) := by
  fun_induction splitWord numeric last text with
  | case1 => exact absurd rfl stops
  | case2 last c rest inWord word after split ih =>
      rw [split] at ih
      rw [List.cons_append, splitWord, if_pos inWord, ih stops]
  | case3 last c rest outside =>
      rw [List.cons_append, splitWord, if_neg outside]

/-- A string literal that is over before the end of a text is over there whatever follows the
text. -/
theorem splitString?_append {content after : Text}
    (ends : splitString? text = some (content, after)) (goesOn : after ≠ []) (more : Text) :
    splitString? (text ++ more) = some (content, after ++ more) := by
  fun_induction splitString? text generalizing content after with
  | case1 => cases ends
  | case2 =>
      cases ends
      exact absurd rfl goesOn
  | case3 rest ih =>
      obtain ⟨⟨inner, tail⟩, found, same⟩ := Option.map_eq_some_iff.1 ends
      cases same
      rw [List.cons_append, List.cons_append, splitString?, ih found goesOn]
      rfl
  | case4 rest notLast notDoubled =>
      cases ends
      obtain ⟨next, rest, rfl⟩ := List.exists_cons_of_ne_nil goesOn
      have apart : next ≠ '"' := by
        rintro rfl
        exact notDoubled rest rfl rfl
      simp [splitString?, apart]
  | case5 c rest _ _ ordinary ih =>
      obtain ⟨⟨inner, tail⟩, found, same⟩ := Option.map_eq_some_iff.1 ends
      cases same
      simp [splitString?, ordinary, ih found goesOn]

/-- A token that is over before the end of a text is over there whatever follows the text. -/
theorem readToken?_append {c : Char} {after : Text} {token : Token}
    (reads : readToken? c text = some (token, after)) (goesOn : after ≠ []) (more : Text) :
    readToken? c (text ++ more) = some (token, after ++ more) := by
  have nonempty : text ≠ [] := by
    rintro rfl
    exact goesOn (List.eq_nil_of_length_eq_zero (Nat.le_zero.1 (length_readToken?_le reads)))
  obtain ⟨next, text, rfl⟩ := List.exists_cons_of_ne_nil nonempty
  unfold readToken? at reads
  split at reads
  case h_9 =>
    obtain ⟨⟨content, tail⟩, ends, same⟩ := Option.map_eq_some_iff.1 reads
    cases same
    rw [readToken?, splitString?_append ends goesOn]
    rfl
  case h_10 =>
    rw [readToken?] <;> try assumption
    -- The rest is looked at only in its first character and as far as a word goes.
    have sameHead : (next :: text ++ more).head? = (next :: text).head? := rfl
    have sameBegin : beginsWord c (next :: text ++ more) = beginsWord c (next :: text) := rfl
    rw [sameHead, sameBegin]
    split at reads
    case isTrue sum =>
      cases reads
      rw [if_pos sum]
      rfl
    case isFalse noSum =>
      rw [if_neg noSum]
      split at reads
      case isTrue begins =>
        generalize divides : splitWord (beginsNumber c) c (next :: text) = parts at reads
        cases reads
        rw [if_pos begins, splitWord_append_of_ne_nil (by rwa [divides]), divides]
      case isFalse noBegin =>
        cases reads
        rw [if_neg noBegin]
  all_goals
    cases reads
    rfl

theorem exists_of_splitString? {content after : Text}
    (ends : splitString? text = some (content, after)) : ∃ inside, text = inside ++ '"' :: after := by
  fun_induction splitString? text generalizing content after with
  | case1 => cases ends
  | case2 =>
      cases ends
      exact ⟨[], rfl⟩
  | case3 rest ih =>
      obtain ⟨⟨inner, tail⟩, found, same⟩ := Option.map_eq_some_iff.1 ends
      cases same
      obtain ⟨inside, rfl⟩ := ih found
      exact ⟨'"' :: '"' :: inside, rfl⟩
  | case4 rest =>
      cases ends
      exact ⟨[], rfl⟩
  | case5 c rest _ _ _ ih =>
      obtain ⟨⟨inner, tail⟩, found, same⟩ := Option.map_eq_some_iff.1 ends
      cases same
      obtain ⟨inside, rfl⟩ := ih found
      exact ⟨c :: inside, rfl⟩

/-- No token goes up to a line feed at the end of a text. -/
theorem ne_nil_of_readToken? {c : Char} {after : Text} {token : Token}
    (reads : readToken? c text = some (token, after)) (feed : text.getLast? = some '\n') :
    after ≠ [] := by
  rintro rfl
  unfold readToken? at reads
  split at reads
  case h_9 =>
    obtain ⟨⟨content, tail⟩, ends, same⟩ := Option.map_eq_some_iff.1 reads
    cases same
    obtain ⟨inside, rfl⟩ := exists_of_splitString? ends
    simp at feed
  case h_10 =>
    split at reads
    case isTrue sum =>
      obtain ⟨tail, rfl⟩ := List.head?_eq_some_iff.1 sum.2
      cases reads
      simp at feed
    case isFalse =>
      split at reads
      case isTrue =>
        have parts := splitWord_append (beginsNumber c) c text
        rw [(Prod.mk.inj (Option.some.inj reads)).2, List.append_nil] at parts
        have inWord := lineFeed_not_mem_splitWord (beginsNumber c) c text
        rw [parts] at inWord
        exact inWord (List.mem_of_getLast? feed)
      case isFalse =>
        cases reads
        cases feed
  all_goals
    cases reads
    cases feed

/-- The tokens of a text whose last line is ended are read in it, whatever follows. -/
theorem Passes.scans_append {line next : Nat} {lexemes : List Lexeme}
    (passes : Passes line text lexemes next rest) (consumed : rest = []) (ended : IsEnded text)
    (more : Text) : Scans (text ++ more) (lexemes.map Lexeme.token) more := by
  induction passes with
  | refl line text =>
      rw [consumed]
      exact scans_refl more
  | lineFeed _ ih => exact (scans_blank (by decide) _).trans (ih consumed (isEnded_lineFeed_iff.1 ended))
  | blank ordinary blank _ ih =>
      exact (scans_blank blank _).trans (ih consumed ((isEnded_cons_iff ordinary).1 ended).2)
  | @token line _ c text after _ token _ visible reads _ ih =>
      obtain ⟨nonempty, endedText⟩ :=
        (isEnded_cons_iff (ne_lineFeed_of_isBlank_eq_false visible)).1 ended
      have goesOn := ne_nil_of_readToken? reads (endedText.resolve_left nonempty)
      obtain ⟨inside, rfl, -⟩ := count_of_readToken? reads
      have first := scans_token visible (readToken?_append reads goesOn more)
      exact first.trans (ih consumed endedText.of_append)

/-- A text whose last line is ended is scanned as it would be alone. -/
theorem scans_append {lexemes : List Lexeme} (scanned : scan before = .ok lexemes)
    (ended : IsEnded before) (more : Text) :
    Scans (before ++ more) (lexemes.map Lexeme.token) more := by
  obtain ⟨next, passes⟩ := passes_of_scanFrom_eq_ok scanned
  exact passes.scans_append rfl ended more

end ClassConfig

end AddonIndex
